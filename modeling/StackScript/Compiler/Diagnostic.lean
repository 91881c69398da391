import StackScript.Syntax.Token

/-! # Compile diagnostics

A diagnostic records where the compiler found an error: the line and column of the token it
was reported at, the token's text (empty for an error token of the scanner), whether the token
was the end of input, and the message. Its text names the place: `at end`, `at 'text'`, or
nothing for a scanner error.
-/

namespace StackScript

/-- A compile error at a token. -/
structure Diagnostic where
  line : Nat
  column : Nat
  lexeme : Bytes
  atEnd : Bool
  message : String
deriving DecidableEq, Repr, Inhabited

namespace Diagnostic

/-- The diagnostic for a message at a token. -/
def atToken (t : Token) (message : String) : Diagnostic :=
  { line := t.pos.line, column := t.pos.column, message,
    atEnd := t.kind == .eof,
    lexeme := if t.kind == .eof || t.kind == .error then [] else t.text }

/-- The text of a diagnostic: `[line N] Error at end: M`, `[line N] Error at 'L': M` or
`[line N] Error: M`. -/
def text (d : Diagnostic) : Bytes :=
  let head := "[line " ++ toString d.line ++ "] Error"
  if d.atEnd then Bytes.ofString (head ++ " at end: " ++ d.message)
  else if d.lexeme.isEmpty then Bytes.ofString (head ++ ": " ++ d.message)
  else Bytes.ofString (head ++ " at '") ++ d.lexeme ++ Bytes.ofString ("': " ++ d.message)

end Diagnostic

/-- Lines joined by line feeds. -/
def joinLines : List Bytes → Bytes
  | [] => []
  | [x] => x
  | x :: xs => x ++ [10] ++ joinLines xs

/-- A failed compile: the source name and the diagnostics in the order found. -/
structure CompileFailure where
  source : String
  diagnostics : List Diagnostic
deriving Inhabited

/-- The message of a failed compile: the texts of its diagnostics, one a line. -/
def CompileFailure.message (e : CompileFailure) : Bytes :=
  joinLines (e.diagnostics.map Diagnostic.text)

end StackScript
