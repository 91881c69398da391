import StackScript.Compiler.Compile

/-! # Editor features

What the language server computes from a document's text. Diagnostics are the compile errors
of the text, compiled with a heap of its own; a diagnostic starts at the error's line and
column (both from zero) and spans the lexeme it names, one byte for an error without a lexeme,
and nothing at the end of input. Completions are the keywords and the identifiers of the text
(those other than the word itself) that start with the word left of the cursor; keywords come
first, each group in byte order. Lines and columns count bytes.
-/

namespace StackScript

namespace Lsp

/-- A place in a document: a line and a byte column, both from zero. -/
structure Place where
  line : Nat
  character : Nat
deriving DecidableEq, Repr

/-- A compile error placed in a document. -/
structure Mark where
  start : Place
  stop : Place
  message : String

/-- The compile errors of a text. -/
def diagnose (text : Bytes) : List Mark :=
  match (compile text Heap.empty "").failure with
  | none => []
  | some e => e.diagnostics.map fun d =>
    let start : Place := ⟨d.line - 1, d.column - 1⟩
    let width := if d.atEnd then 0 else if d.lexeme.isEmpty then 1 else d.lexeme.length
    ⟨start, { start with character := start.character + width }, d.message⟩

/-- What a completion offers. -/
inductive Offer where
  | keyword
  | variable
deriving DecidableEq, Repr

/-- The protocol's number for a kind of completion. -/
def Offer.code : Offer → Nat
  | .keyword => 14
  | .variable => 6

/-- Whether a byte may stand in a word. -/
def isWordByte (b : UInt8) : Bool :=
  b == 95 || (97 ≤ b && b ≤ 122) || (65 ≤ b && b ≤ 90) || (48 ≤ b && b ≤ 57)

/-- Splits bytes at every line feed. -/
def splitLines (text : Bytes) : List Bytes := text.splitOn 10

/-- The word characters just left of a place; empty past the last line. -/
def wordBefore (text : Bytes) (p : Place) : Bytes :=
  match (splitLines text)[p.line]? with
  | none => []
  | some line =>
    let head := line.take p.character
    (head.reverse.takeWhile isWordByte).reverse

/-- Whether one byte string starts another. -/
def startsWith (b pre : Bytes) : Bool := b.take pre.length == pre

/-- Orders byte strings lexicographically. -/
def byteLe (a b : Bytes) : Bool := !(b.map (·.toNat)).lex (a.map (·.toNat))

/-- The distinct identifiers of a text, in byte order. -/
def identifiers (text : Bytes) : List Bytes :=
  let names := ((Scanner.scan text).1.filter (·.kind == .ident)).map (·.text)
  (names.foldl (fun acc n => if acc.contains n then acc else acc ++ [n]) []).mergeSort byteLe

/-- The completions at a place of a text. -/
def complete (text : Bytes) (p : Place) : List (Bytes × Offer) :=
  let word := wordBefore text p
  let keywords := (TokenKind.keywords.map (Bytes.ofString ·.1)).filter (startsWith · word)
  let names := (identifiers text).filter fun n => n != word && startsWith n word
  keywords.map (·, .keyword) ++ names.map (·, .variable)

end Lsp

end StackScript
