import StackScript.Compiler.Compile

/-! # The grammar of programs and its postfix code

The compiler reads programs of this grammar over tokens:

```
program := decl* EOF
decl    := 'var' IDENT (':=' expr)? ';' | 'info' expr ';' | expr ';'
expr    := IDENT '=' expr | eq
eq      := cmp (('==' | '!=') cmp)*
cmp     := term (('>' | '>=' | '<' | '<=') term)*
term    := fac (('+' | '-') fac)*
fac     := un (('*' | '/') un)*
un      := ('!' | '-') un | prim
prim    := NUMBER | STRING | 'true' | 'false' | 'nil' | IDENT | '(' expr ')'
```

A parse tree keeps every token it covers, so its `yield` is the token list it derives. One tree
type serves all expression levels: `level` is the loosest level a tree can stand at (an
assignment only at `expr`, a binary operation at its operator's level, the rest at `un`), and
`WF` says every subtree stands at a level the grammar allows there. Left-associative chains are
left-nested binary trees.

The code of a tree is its postfix translation. Constants are numbered in the order their tokens
occur: every number and string literal gets a new one, a name the one it got first.
-/

namespace StackScript

set_option autoImplicit false

/-- Parse trees of expressions. -/
inductive Expr where
  | number (t : Token)
  | string (t : Token)
  | literal (t : Token)
  | ident (name : Token)
  | assign (name eq : Token) (value : Expr)
  | unary (op : Token) (operand : Expr)
  | binary (op : Token) (left right : Expr)
  | group (lparen : Token) (inner : Expr) (rparen : Token)

/-- Parse trees of declarations. -/
inductive Decl where
  | var (kw name : Token) (init : Option (Token × Expr)) (semi : Token)
  | info (kw : Token) (value : Expr) (semi : Token)
  | expr (value : Expr) (semi : Token)

namespace Expr

/-- The loosest precedence an expression can stand at. -/
def level : Expr → Nat
  | assign .. => assignPrecedence
  | binary op _ _ => infixPrecedence op.kind
  | _ => unaryPrecedence

/-- The trees of the grammar: tokens of the right kinds, and each operand at a level its
operator allows. -/
def WF : Expr → Prop
  | number t => t.kind = .number
  | string t => t.kind = .string
  | literal t => t.kind = .trueKw ∨ t.kind = .falseKw ∨ t.kind = .nilKw
  | ident x => x.kind = .ident
  | assign x q e => x.kind = .ident ∧ q.kind = .assign ∧ e.WF
  | unary op e => (op.kind = .minus ∨ op.kind = .bang) ∧ e.WF ∧ unaryPrecedence ≤ e.level
  | binary op l r => 0 < infixPrecedence op.kind ∧ l.WF ∧ r.WF ∧
      infixPrecedence op.kind ≤ l.level ∧ infixPrecedence op.kind < r.level
  | group lp e rp => lp.kind = .lparen ∧ rp.kind = .rparen ∧ e.WF

/-- The tokens a tree derives. -/
def yield : Expr → List Token
  | number t | string t | literal t | ident t => [t]
  | assign x q e => x :: q :: e.yield
  | unary op e => op :: e.yield
  | binary op l r => l.yield ++ op :: r.yield
  | group lp e rp => lp :: e.yield ++ [rp]

end Expr

/-- Whether a token after an expression at precedence `p` would extend it: a binary operator
binding at least as tightly, or `=` where an assignment may stand. -/
def continues (p : Nat) (k : TokenKind) : Bool :=
  (infixPrecedence k != 0 && p ≤ infixPrecedence k) || (p ≤ assignPrecedence && k == .assign)

/-- The tokens after an expression at precedence `p`: they start with a token of the grammar
that does not extend it. -/
def Ends (p : Nat) (rest : List Token) : Prop :=
  ∃ t r, rest = t :: r ∧ t.kind ≠ .error ∧ continues p t.kind = false

/-- `ts` starts with the tokens of `e`, a tree at precedence `p`, and goes on with `rest`. -/
def Parses (p : Nat) (ts : List Token) (e : Expr) (rest : List Token) : Prop :=
  ts = e.yield ++ rest ∧ e.WF ∧ p ≤ e.level ∧ Ends p rest

namespace Decl

def WF : Decl → Prop
  | var kw x none semi => kw.kind = .varKw ∧ x.kind = .ident ∧ semi.kind = .semicolon
  | var kw x (some (d, e)) semi =>
      kw.kind = .varKw ∧ x.kind = .ident ∧ d.kind = .define ∧ e.WF ∧ semi.kind = .semicolon
  | info kw e semi => kw.kind = .infoKw ∧ e.WF ∧ semi.kind = .semicolon
  | expr e semi => e.WF ∧ semi.kind = .semicolon

def yield : Decl → List Token
  | var kw x none semi => [kw, x, semi]
  | var kw x (some (d, e)) semi => kw :: x :: d :: e.yield ++ [semi]
  | info kw e semi => kw :: e.yield ++ [semi]
  | expr e semi => e.yield ++ [semi]

end Decl

/-- `toks` is derived by the grammar from the declarations `prog`. -/
def Derives (prog : List Decl) (toks : List Token) : Prop :=
  (∀ d ∈ prog, d.WF) ∧ ∃ t, t.kind = .eof ∧ toks = prog.flatMap Decl.yield ++ [t]

/-! ## Constants and postfix code -/

/-- A constant of a chunk, by what it holds. -/
inductive Const where
  | number (x : Float)
  | string (chars : Bytes)
  | name (chars : Bytes)

/-- Whether a constant is the name `x`. -/
def Const.isName (x : Bytes) : Const → Bool
  | name y => y == x
  | _ => false

/-- The index of the name `x` in a pool, if it has one. -/
def nameIndex? (pool : List Const) (x : Bytes) : Option Nat := pool.findIdx? (Const.isName x)

/-- The index of a name, added at the end unless the pool has it. -/
def addName (pool : List Const) (x : Bytes) : Nat × List Const :=
  match nameIndex? pool x with
  | some i => (i, pool)
  | none => (pool.length, pool ++ [.name x])

/-- The bytes of a string literal without its quotes. -/
def stringBody (text : Bytes) : Bytes := (text.drop 1).take (text.length - 2)

/-- The instructions of a binary operator: `!=`, `>=` and `<=` negate the opposite test. -/
def postfixOps : TokenKind → List Op
  | .plus => [.add] | .minus => [.subtract] | .star => [.multiply] | .slash => [.divide]
  | .equal => [.equal] | .notEqual => [.equal, .not]
  | .greater => [.greater] | .greaterEqual => [.less, .not]
  | .less => [.less] | .lessEqual => [.greater, .not]
  | _ => []

namespace Expr

/-- The postfix code of a tree, with the pool of constants before and after it. -/
def code : Expr → List Const → List UInt8 × List Const
  | number t, pool =>
    ([Op.constant.code, pool.length.toUInt8], pool ++ [.number (Compiler.numberValue t.text)])
  | string t, pool => ([Op.constant.code, pool.length.toUInt8], pool ++ [.string (stringBody t.text)])
  | literal t, pool =>
    ([(if t.kind = .falseKw then Op.falseLit else if t.kind = .nilKw then Op.nil else Op.trueLit).code],
      pool)
  | ident x, pool =>
    let (i, pool) := addName pool x.text
    ([Op.getGlobal.code, i.toUInt8], pool)
  | assign x _ e, pool =>
    let (i, pool) := addName pool x.text
    let (c, pool) := e.code pool
    (c ++ [Op.setGlobal.code, i.toUInt8], pool)
  | unary op e, pool =>
    let (c, pool) := e.code pool
    (c ++ [(if op.kind = .minus then Op.negate else Op.not).code], pool)
  | binary op l r, pool =>
    let (c₁, pool) := l.code pool
    let (c₂, pool) := r.code pool
    (c₁ ++ c₂ ++ (postfixOps op.kind).map Op.code, pool)
  | group _ e _, pool => e.code pool

end Expr

namespace Decl

def code : Decl → List Const → List UInt8 × List Const
  | var _ x init _, pool =>
    let (i, pool) := addName pool x.text
    let (c, pool) := match init with
      | none => ([Op.nil.code], pool)
      | some (_, e) => e.code pool
    (c ++ [Op.defineGlobal.code, i.toUInt8], pool)
  | info _ e _, pool =>
    let (c, pool) := e.code pool
    (c ++ [Op.info.code], pool)
  | expr e _, pool =>
    let (c, pool) := e.code pool
    (c ++ [Op.pop.code], pool)

end Decl

/-- The code of declarations in order, threading the pool. -/
def programCode : List Decl → List Const → List UInt8 × List Const
  | [], pool => ([], pool)
  | d :: ds, pool =>
    let (c₁, pool) := d.code pool
    let (c₂, pool) := programCode ds pool
    (c₁ ++ c₂, pool)

/-- The names a token list reads, in order and with repeats. -/
def nameTexts (toks : List Token) : List Bytes := (toks.filter (·.kind == .ident)).map Token.text

/-- The constants a token list asks for: one per number or string literal, one per distinct
name. -/
def constantCount (toks : List Token) : Nat :=
  toks.countP (fun t => t.kind == .number || t.kind == .string) + (nameTexts toks).eraseDups.length

end StackScript
