import StackScript.Proofs.Compiler.Grammar
import StackScript.Machine.Fault

/-! # The meaning of programs

A reference semantics over the trees of the grammar, with no stack, heap or constant pool.
Values are nil, booleans, doubles and strings as their bytes. An expression is evaluated against
the globals with its operands left to right: a number literal is read as a double, a string
literal is its body without the quotes, `+` adds two numbers or joins two strings, the other
arithmetic operators and the comparisons take numbers only, `a >= b` is `!(a < b)` and
`a <= b` is `!(a > b)`, `==` compares strings by their bytes and numbers as doubles, `a != b`
is `!(a == b)`, and `!` is falsiness, only nil and false being falsey. An assignment evaluates
its value and then needs its name bound; it rebinds it and leaves the value.

A declaration binds a name (to nil without a value), writes the text of a value and a newline,
or evaluates an expression for its effect on the globals. A program runs its declarations in
order until one fails, keeping the globals as they stood when it failed.

`Expr.need` is the number of values the postfix code of an expression stacks at most.
-/

namespace StackScript

set_option autoImplicit false

/-- The values of the semantics. -/
inductive Val where
  | nil
  | bool (b : Bool)
  | number (x : Float)
  | str (chars : Bytes)

namespace Val

def isFalsey : Val → Bool
  | nil => true
  | bool b => !b
  | _ => false

/-- `!v`: whether `v` is falsey. -/
def not (v : Val) : Val := bool v.isFalsey

/-- Equality: strings by their bytes, numbers as doubles. -/
def equal : Val → Val → Bool
  | nil, nil => true
  | bool a, bool b => a == b
  | number a, number b => a == b
  | str a, str b => a == b
  | _, _ => false

/-- The text a value is written as. -/
def text : Val → Bytes
  | nil => Bytes.ofString "nil"
  | bool b => Bytes.ofString (if b then "true" else "false")
  | number x => Bytes.ofString (numberText x)
  | str c => c

end Val

/-- The errors that stop a program. -/
inductive RunError where
  /-- An arithmetic operator other than `+`, or a comparison, on an operand that is no number. -/
  | numbers
  /-- `+` on operands that are not two numbers or two strings. -/
  | addends
  /-- Unary `-` on an operand that is no number. -/
  | negand
  /-- Reading or assigning a name that is not bound. -/
  | undefined (name : Bytes)

namespace RunError

def kind : RunError → FaultKind
  | undefined _ => .undefinedVariable
  | _ => .typeMismatch

def message : RunError → Bytes
  | numbers => Bytes.ofString "Operands must be numbers."
  | addends => Bytes.ofString "Operands must be two numbers or two strings."
  | negand => Bytes.ofString "Operand must be a number."
  | undefined x => Bytes.ofString "Undefined variable '" ++ x ++ Bytes.ofString "'."

def cause : RunError → Option String
  | numbers => some "operands must be numbers"
  | addends => some "operands must be two numbers or two strings"
  | negand => some "operand must be a number"
  | undefined _ => some "undefined variable"

/-- The runtime error that reports an error of the semantics at a place. -/
def fault (e : RunError) (frame : Frame) : Fault := ⟨e.kind, e.message, frame, e.cause⟩

end RunError

/-- The globals: the value bound to each name. -/
abbrev Env := Bytes → Option Val

/-- Binds `x` to `v`. -/
def Env.set (ρ : Env) (x : Bytes) (v : Val) : Env := fun y => if y = x then some v else ρ y

/-- An operator on two numbers; any other operand is an error. -/
def numeric (f : Float → Float → Val) : Val → Val → Except RunError Val
  | .number a, .number b => .ok (f a b)
  | _, _ => .error .numbers

/-- The binary operators, by the kind of their token. -/
def binaryOp : TokenKind → Val → Val → Except RunError Val
  | .plus, .number a, .number b => .ok (.number (a + b))
  | .plus, .str a, .str b => .ok (.str (a ++ b))
  | .plus, _, _ => .error .addends
  | .minus, a, b => numeric (fun x y => .number (x - y)) a b
  | .star, a, b => numeric (fun x y => .number (x * y)) a b
  | .slash, a, b => numeric (fun x y => .number (x / y)) a b
  | .greater, a, b => numeric (fun x y => .bool (x > y)) a b
  | .less, a, b => numeric (fun x y => .bool (x < y)) a b
  | .greaterEqual, a, b => (numeric (fun x y => .bool (x < y)) a b).map Val.not
  | .lessEqual, a, b => (numeric (fun x y => .bool (x > y)) a b).map Val.not
  | .equal, a, b => .ok (.bool (a.equal b))
  | .notEqual, a, b => .ok (Val.not (.bool (a.equal b)))
  | _, _, _ => .ok .nil

/-- The prefix operators: `-` negates a number, `!` is falsiness. -/
def unaryOp : TokenKind → Val → Except RunError Val
  | .minus, .number x => .ok (.number (-x))
  | .minus, _ => .error .negand
  | _, v => .ok v.not

/-- The value of `true`, `false` or `nil`. -/
def literalVal (k : TokenKind) : Val :=
  if k = .falseKw then .bool false else if k = .nilKw then .nil else .bool true

/-- Goes on from the globals and the value `r` left; an error stops there. -/
def andThen {α : Type} (r : Env × Except RunError Val) (k : Env → Val → Env × Except RunError α) :
    Env × Except RunError α :=
  match r with
  | (ρ, .ok v) => k ρ v
  | (ρ, .error e) => (ρ, .error e)

namespace Expr

/-- Evaluates an expression against the globals: the globals after it, and its value or the error
that stopped it. -/
def eval : Expr → Env → Env × Except RunError Val
  | number t, ρ => (ρ, .ok (.number (Compiler.numberValue t.text)))
  | string t, ρ => (ρ, .ok (.str (stringBody t.text)))
  | literal t, ρ => (ρ, .ok (literalVal t.kind))
  | ident x, ρ =>
    match ρ x.text with
    | some v => (ρ, .ok v)
    | none => (ρ, .error (.undefined x.text))
  | assign x _ e, ρ =>
    andThen (e.eval ρ) fun ρ v =>
      if (ρ x.text).isSome then (ρ.set x.text v, .ok v) else (ρ, .error (.undefined x.text))
  | unary op e, ρ => andThen (e.eval ρ) fun ρ v => (ρ, unaryOp op.kind v)
  | binary op l r, ρ =>
    andThen (l.eval ρ) fun ρ a => andThen (r.eval ρ) fun ρ b => (ρ, binaryOp op.kind a b)
  | group _ e _, ρ => e.eval ρ

/-- The number of values the postfix code of an expression stacks at most. -/
def need : Expr → Nat
  | assign _ _ e | unary _ e | group _ e _ => e.need
  | binary _ l r => max l.need (r.need + 1)
  | _ => 1

end Expr

namespace Decl

/-- Runs a declaration: the globals after it, and the lines it writes or the error that stopped
it. -/
def exec : Decl → Env → Env × Except RunError (List Bytes)
  | var _ x none _, ρ => (ρ.set x.text .nil, .ok [])
  | var _ x (some (_, e)) _, ρ => andThen (e.eval ρ) fun ρ v => (ρ.set x.text v, .ok [])
  | info _ e _, ρ => andThen (e.eval ρ) fun ρ v => (ρ, .ok [v.text ++ [10]])
  | expr e _, ρ => andThen (e.eval ρ) fun ρ _ => (ρ, .ok [])

def need : Decl → Nat
  | var _ _ none _ => 1
  | var _ _ (some (_, e)) _ | info _ e _ | expr e _ => e.need

end Decl

/-- What running declarations gives: the globals at the end, the lines written, and the error
that stopped the run, if one did. -/
structure Ran where
  env : Env
  out : List Bytes
  error : Option RunError

/-- Runs declarations in order until one fails. -/
def runProgram : List Decl → Env → Ran
  | [], ρ => ⟨ρ, [], none⟩
  | d :: ds, ρ =>
    match d.exec ρ with
    | (ρ, .ok out) =>
      let r := runProgram ds ρ
      { r with out := out ++ r.out }
    | (ρ, .error err) => ⟨ρ, [], some err⟩

/-- The number of values the code of a program stacks at most. -/
def programNeed (prog : List Decl) : Nat := (prog.map Decl.need).foldr max 0

end StackScript
