import StackScript.Syntax.Scanner
import StackScript.Compiler.Diagnostic
import StackScript.Bytecode.Chunk
import StackScript.Heap
import StackScript.Number.Read

/-! # The compiler

One pass over the tokens turns a program into code for the stack machine. The grammar:

* program: declaration* end
* declaration: `var` IDENT (`:=` expression)? `;` | `info` expression `;` | expression `;`
* expression: operator precedence, from loosest: assignment `IDENT = expression`, equality
  (`==`, `!=`), comparison (`>`, `>=`, `<`, `<=`), terms (`+`, `-`), factors (`*`, `/`), unary
  `-` and `!`, and primaries: numbers, strings, `true`, `false`, `nil`, names, parentheses.

Binary operators associate to the left, assignment to the right. An expression leaves its value
on the stack; `info` writes it, an expression statement pops it, a declaration binds it to a
global (nil without an initializer). `!=`, `>=` and `<=` compile as the opposite comparison
followed by a negation. Every code byte records the line of the token before it.

Errors do not stop the pass. The first error of a statement is recorded and the rest are
suppressed until the parser resynchronizes: after a `;`, or before a keyword that starts a
statement. A program with any error fails, and the partial chunk is still returned.

Names and string literals are interned in the heap that the compiler is given. A name gets one
constant per chunk; every literal gets a constant of its own. A pool may hold 256 constants;
each constant past that is an error, and its operand is 0.
-/

namespace StackScript

/-- The binding power of a binary operator token; 0 for every other token. -/
def infixPrecedence : TokenKind → Nat
  | .equal | .notEqual => 4
  | .greater | .greaterEqual | .less | .lessEqual => 5
  | .plus | .minus => 6
  | .star | .slash => 7
  | _ => 0

/-- The precedence of assignment, the loosest. -/
def assignPrecedence : Nat := 1

/-- The precedence of the unary operators. -/
def unaryPrecedence : Nat := 8

/-- The keywords before which the parser resynchronizes after an error. -/
def startsStatement (k : TokenKind) : Bool :=
  k == .classKw || k == .funcKw || k == .varKw || k == .forKw || k == .ifKw || k == .whileKw ||
    k == .infoKw || k == .returnKw

/-- The state of a compile: the tokens after the current one, the previous and current token,
the error flags, what has been made so far, and how many tokens it took from the scanner. -/
structure Compiler where
  tokens : List Token
  previous : Token
  current : Token
  hadError : Bool
  panicMode : Bool
  chunk : Chunk
  heap : Heap
  names : List (Nat × Nat)
  diagnostics : Array Diagnostic
  pulls : Nat := 0

namespace Compiler

/-- Compiler steps. -/
abbrev M := StateM Compiler

/-- The next token of the stream and the stream after it; the end of input repeats. -/
def pop : List Token → Token × List Token
  | [] => (default, [])
  | [t] => (t, [t])
  | t :: r => (t, r)

/-- Records an error at a token, unless an error of this statement was recorded already. -/
def errorAt (t : Token) (message : String) : M Unit :=
  modify fun s =>
    if s.panicMode then s
    else { s with panicMode := true, hadError := true,
                  diagnostics := s.diagnostics.push (Diagnostic.atToken t message) }

/-- An error at the previous token. -/
def error (message : String) : M Unit := do errorAt (← get).previous message

/-- An error at the current token. -/
def errorAtCurrent (message : String) : M Unit := do errorAt (← get).current message

/-- Moves to the next token that is not a scanner error, reporting each error token passed. -/
def advance : M Unit := do
  modify fun s => { s with previous := s.current }
  let rec skip : Nat → M Unit
    | 0 => pure ()
    | fuel + 1 => do
      let s ← get
      let (t, r) := pop s.tokens
      set { s with current := t, tokens := r, pulls := s.pulls + 1 }
      if t.kind == .error then
        errorAtCurrent ((Bytes.toString? t.text).getD "")
        skip fuel
  skip ((← get).tokens.length + 1)

/-- Whether the current token is of a kind. -/
def check (k : TokenKind) : M Bool := do pure ((← get).current.kind == k)

/-- Moves past the current token when it is of a kind. -/
def accept (k : TokenKind) : M Bool := do
  if ← check k then advance; pure true else pure false

/-- Moves past the current token, which must be of a kind; else reports `message` there. -/
def consume (k : TokenKind) (message : String) : M Unit := do
  if ← check k then advance else errorAtCurrent message

/-- Appends a code byte with the line of the previous token. -/
def emit (b : UInt8) : M Unit :=
  modify fun s => { s with chunk := s.chunk.write b s.previous.pos.line }

/-- Appends an instruction. -/
def emitOp (op : Op) : M Unit := emit op.code

/-- Adds a constant to the pool; its index, or `none` when the pool is full. -/
def addConstant (v : Value) : M (Option Nat) := do
  let s ← get
  let (chunk, i) := s.chunk.addConstant v
  set { s with chunk }
  if i ≥ Chunk.maxConstants then
    error "Too many constants in one chunk."
    pure none
  else pure (some i)

/-- Emits an instruction with a constant operand. -/
def emitConstant (v : Value) : M Unit := do
  let i ← addConstant v
  emitOp .constant
  emit (i.getD 0).toUInt8

/-- The constant index of a name: the one it already has in this chunk, else a new constant
of the interned name. -/
def nameConstant (t : Token) : M Nat := do
  let s ← get
  let (heap, str) := s.heap.intern t.text
  set { s with heap }
  match s.names.lookup str.serial with
  | some i => pure i
  | none =>
    match ← addConstant (.obj (.str str)) with
    | some i =>
      modify fun s => { s with names := (str.serial, i) :: s.names }
      pure i
    | none => pure 0

/-- The code of a binary operator. -/
def binaryOps : TokenKind → List Op
  | .plus => [.add] | .minus => [.subtract] | .star => [.multiply] | .slash => [.divide]
  | .equal => [.equal] | .notEqual => [.equal, .not] | .greater => [.greater]
  | .greaterEqual => [.less, .not] | .less => [.less] | .lessEqual => [.greater, .not]
  | _ => []

/-- The double that a number literal denotes. -/
def numberValue (text : Bytes) : Float :=
  (readNumber? ((Bytes.toString? text).getD "")).getD 0

mutual

/-- Parses an expression whose operators bind at least as tightly as `p`. `fuel` bounds the
nesting; `p` up to the assignment level allows an assignment. -/
def parsePrecedence : Nat → Nat → M Unit
  | 0, _ => pure ()
  | fuel + 1, p => do
    advance
    let t := (← get).previous
    let canAssign := p ≤ assignPrecedence
    match t.kind with
    | .lparen =>
      parsePrecedence fuel assignPrecedence
      consume .rparen "Expect ')' after expression."
      infixLoop fuel ((← get).tokens.length + 1) p canAssign
    | .minus | .bang =>
      parsePrecedence fuel unaryPrecedence
      emitOp (if t.kind == .minus then .negate else .not)
      infixLoop fuel ((← get).tokens.length + 1) p canAssign
    | .number =>
      emitConstant (.number (numberValue t.text))
      infixLoop fuel ((← get).tokens.length + 1) p canAssign
    | .string =>
      let s ← get
      let (heap, str) := s.heap.intern ((t.text.drop 1).take (t.text.length - 2))
      set { s with heap }
      emitConstant (.obj (.str str))
      infixLoop fuel ((← get).tokens.length + 1) p canAssign
    | .falseKw | .nilKw | .trueKw =>
      emitOp (if t.kind == .falseKw then .falseLit else if t.kind == .nilKw then .nil else .trueLit)
      infixLoop fuel ((← get).tokens.length + 1) p canAssign
    | .ident =>
      let arg ← nameConstant t
      let assigning ← if canAssign then accept .assign else pure false
      if assigning then
        parsePrecedence fuel assignPrecedence
        emitOp .setGlobal
        emit arg.toUInt8
      else
        emitOp .getGlobal
        emit arg.toUInt8
      infixLoop fuel ((← get).tokens.length + 1) p canAssign
    | _ => error "Expect expression."
termination_by fuel _ => (fuel, 0)

/-- Applies binary operators binding at least as tightly as `p` while they follow, then
rejects a stray `=` where an assignment was allowed. -/
def infixLoop : Nat → Nat → Nat → Bool → M Unit
  | _, 0, _, _ => pure ()
  | fuel, steps + 1, p, canAssign => do
    let k := (← get).current.kind
    if infixPrecedence k ≠ 0 && p ≤ infixPrecedence k then
      advance
      parsePrecedence fuel (infixPrecedence k + 1)
      (binaryOps k).forM emitOp
      infixLoop fuel steps p canAssign
    else if canAssign then
      let stray ← accept .assign
      if stray then error "Invalid assignment target."
termination_by fuel steps _ _ => (fuel, steps)

end

/-- An expression at the loosest precedence. -/
def expression : M Unit := do
  parsePrecedence ((← get).tokens.length + 2) assignPrecedence

/-- Skips tokens after an error up to a likely statement boundary. -/
def synchronize : M Unit := do
  modify fun s => { s with panicMode := false }
  let rec go : Nat → M Unit
    | 0 => pure ()
    | fuel + 1 => do
      let s ← get
      if s.current.kind == .eof || s.previous.kind == .semicolon || startsStatement s.current.kind then
        pure ()
      else
        advance
        go fuel
  go ((← get).tokens.length + 1)

/-- Reads a variable's name and gives its constant. -/
def parseVariable (message : String) : M Nat := do
  consume .ident message
  nameConstant (← get).previous

/-- The rest of `var x := e;` or `var x;` after the keyword. -/
def varDeclaration : M Unit := do
  let global ← parseVariable "Expect variable name."
  if ← accept .define then expression else emitOp .nil
  consume .semicolon "Expect ';' after variable declaration."
  emitOp .defineGlobal
  emit global.toUInt8

/-- The rest of `info e;` after the keyword. -/
def infoStatement : M Unit := do
  expression
  consume .semicolon "Expect ';' after value."
  emitOp .info

/-- `e;`, whose value is dropped. -/
def expressionStatement : M Unit := do
  expression
  consume .semicolon "Expect ';' after expression."
  emitOp .pop

def statement : M Unit := do
  if ← accept .infoKw then infoStatement else expressionStatement

/-- One declaration or statement, then recovery when it reported an error. -/
def declaration : M Unit := do
  if ← accept .varKw then varDeclaration else statement
  if (← get).panicMode then synchronize

/-- Declarations until the end of input. -/
def declarations : Nat → M Unit
  | 0 => pure ()
  | fuel + 1 => do
    if ← accept .eof then pure ()
    else
      declaration
      declarations fuel

/-- The compiler at the start of a token stream. -/
def start (tokens : List Token) (heap : Heap) (name : String) : Compiler :=
  { tokens, previous := ⟨.lparen, [], ⟨0, 0, 0⟩⟩, current := ⟨.lparen, [], ⟨0, 0, 0⟩⟩,
    hadError := false, panicMode := false, chunk := Chunk.named name, heap, names := [],
    diagnostics := #[] }

end Compiler

/-- The result of compiling: the chunk (partial when compiling failed), the heap with the
interned names and literals, and the failure if there were errors. -/
structure Compiled where
  chunk : Chunk
  heap : Heap
  failure : Option CompileFailure

/-- Compiles a source under a name (`<script>` when empty), interning into a heap. -/
def compile (src : Bytes) (heap : Heap) (name : String) : Compiled :=
  let name := if name.isEmpty then "<script>" else name
  let tokens := (Scanner.scan src).1
  let run : Compiler.M Unit := do
    Compiler.advance
    Compiler.declarations (tokens.length + 1)
    Compiler.emitOp .ret
  let s := (run.run (Compiler.start tokens heap name)).2
  { chunk := s.chunk, heap := s.heap,
    failure := if s.hadError then some ⟨name, s.diagnostics.toList⟩ else none }

end StackScript
