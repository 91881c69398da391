import StackScript.Compiler.Compile

/-! # A compile that evaluates

The parser's two functions recurse together on a pair of measures, and the kernel does not run
such a recursion. Given the operand parser as a parameter, the operator loop recurses on its steps
alone, and the parser built on it on its fuel alone. Both agree with the compiler's
(`parse_eq_evalParse`), and so does the compile built on them (`compile_eq_evalCompile`), which
`decide` runs on concrete sources.
-/

namespace StackScript

set_option autoImplicit false

namespace Compiler

/-- The operator loop with the parser of its right operands as a parameter. -/
def infixLoopOf (operand : Nat → M Unit) : Nat → Nat → Bool → M Unit
  | 0, _, _ => pure ()
  | steps + 1, p, canAssign => do
    let k := (← get).current.kind
    if infixPrecedence k ≠ 0 && p ≤ infixPrecedence k then
      advance
      operand (infixPrecedence k + 1)
      (binaryOps k).forM emitOp
      infixLoopOf operand steps p canAssign
    else if canAssign then
      let stray ← accept .assign
      if stray then error "Invalid assignment target."

/-- The parser, recursing on its fuel alone. -/
def evalParse : Nat → Nat → M Unit
  | 0, _ => pure ()
  | fuel + 1, p => do
    advance
    let t := (← get).previous
    let canAssign := p ≤ assignPrecedence
    match t.kind with
    | .lparen =>
      evalParse fuel assignPrecedence
      consume .rparen "Expect ')' after expression."
      infixLoopOf (evalParse fuel) ((← get).tokens.length + 1) p canAssign
    | .minus | .bang =>
      evalParse fuel unaryPrecedence
      emitOp (if t.kind == .minus then .negate else .not)
      infixLoopOf (evalParse fuel) ((← get).tokens.length + 1) p canAssign
    | .number =>
      emitConstant (.number (numberValue t.text))
      infixLoopOf (evalParse fuel) ((← get).tokens.length + 1) p canAssign
    | .string =>
      let s ← get
      let (heap, str) := s.heap.intern ((t.text.drop 1).take (t.text.length - 2))
      set { s with heap }
      emitConstant (.obj (.str str))
      infixLoopOf (evalParse fuel) ((← get).tokens.length + 1) p canAssign
    | .falseKw | .nilKw | .trueKw =>
      emitOp (if t.kind == .falseKw then .falseLit else if t.kind == .nilKw then .nil else .trueLit)
      infixLoopOf (evalParse fuel) ((← get).tokens.length + 1) p canAssign
    | .ident =>
      let arg ← nameConstant t
      let assigning ← if canAssign then accept .assign else pure false
      if assigning then
        evalParse fuel assignPrecedence
        emitOp .setGlobal
        emit arg.toUInt8
      else
        emitOp .getGlobal
        emit arg.toUInt8
      infixLoopOf (evalParse fuel) ((← get).tokens.length + 1) p canAssign
    | _ => error "Expect expression."

/-- The operator loop of the compiler, for an operand parser that agrees with its own. -/
theorem infixLoop_eq_infixLoopOf {fuel : Nat} {operand : Nat → M Unit}
    (h : ∀ p, parsePrecedence fuel p = operand p) :
    ∀ steps p c, infixLoop fuel steps p c = infixLoopOf operand steps p c
  | 0, p, c => by rw [infixLoop, infixLoopOf]
  | steps + 1, p, c => by
    rw [infixLoop, infixLoopOf]
    simp only [h, infixLoop_eq_infixLoopOf h steps]

theorem parse_eq_evalParse : ∀ fuel p, parsePrecedence fuel p = evalParse fuel p
  | 0, p => by rw [parsePrecedence, evalParse]
  | fuel + 1, p => by
    -- One level: the operand parser and the loop one fuel down agree.
    have hLoop := infixLoop_eq_infixLoopOf (parse_eq_evalParse fuel)
    rw [parsePrecedence, evalParse]
    -- The two bodies differ in their recursive calls and, in a module of their own, in the
    -- auxiliary function of their match, which unfolds to the same cases.
    (simp only [parse_eq_evalParse fuel, hLoop]) <;> rfl

/-- The statements, on the parser that evaluates. -/
def evalExpression : M Unit := do
  evalParse ((← get).tokens.length + 2) assignPrecedence

def evalVarDeclaration : M Unit := do
  let global ← parseVariable "Expect variable name."
  if ← accept .define then evalExpression else emitOp .nil
  consume .semicolon "Expect ';' after variable declaration."
  emitOp .defineGlobal
  emit global.toUInt8

def evalStatement : M Unit := do
  if ← accept .infoKw then
    evalExpression
    consume .semicolon "Expect ';' after value."
    emitOp .info
  else
    evalExpression
    consume .semicolon "Expect ';' after expression."
    emitOp .pop

def evalDeclaration : M Unit := do
  if ← accept .varKw then evalVarDeclaration else evalStatement
  if (← get).panicMode then synchronize

def evalDeclarations : Nat → M Unit
  | 0 => pure ()
  | fuel + 1 => do
    if ← accept .eof then pure ()
    else
      evalDeclaration
      evalDeclarations fuel

theorem expression_eq_evalExpression : expression = evalExpression := by
  unfold expression evalExpression
  simp only [parse_eq_evalParse]

theorem declaration_eq_evalDeclaration : declaration = evalDeclaration := by
  unfold declaration evalDeclaration varDeclaration evalVarDeclaration statement evalStatement infoStatement
    expressionStatement
  simp only [expression_eq_evalExpression]

theorem declarations_eq_evalDeclarations : ∀ fuel, declarations fuel = evalDeclarations fuel
  | 0 => by rw [declarations, evalDeclarations]
  | fuel + 1 => by
    rw [declarations, evalDeclarations, declaration_eq_evalDeclaration, declarations_eq_evalDeclarations fuel]

end Compiler

/-- The compile, on the parser that evaluates. -/
def evalCompile (src : Bytes) (heap : Heap) (name : String) : Compiled :=
  let name := if name.isEmpty then "<script>" else name
  let tokens := (Scanner.scan src).1
  let run : Compiler.M Unit := do
    Compiler.advance
    Compiler.evalDeclarations (tokens.length + 1)
    Compiler.emitOp .ret
  let s := (run.run (Compiler.start tokens heap name)).2
  { chunk := s.chunk, heap := s.heap,
    failure := if s.hadError then some ⟨name, s.diagnostics.toList⟩ else none }

theorem compile_eq_evalCompile : compile = evalCompile := by
  funext src heap name
  unfold compile evalCompile
  simp only [Compiler.declarations_eq_evalDeclarations]

end StackScript
