import StackScript.Machine.Basic

/-! # Running a chunk

A run dispatches instructions from offset 0 until the code ends or `OP_RETURN`. Before an
instruction executes, the dispatch checks in this order: the instruction limit, that the byte
is an instruction, that its operand is there, that the stack holds the values it takes, and
that the values it leaves fit under the stack limit. Then the tracer sees it, and it executes.
Arithmetic and comparison need numbers; `+` also joins two strings (interning the result).
Assigning an undefined global is an error that leaves no binding behind.

Every instruction moves the offset forward, so a run dispatches at most one instruction per
code byte. A run that fails clears the stack and registers; the globals, the heap and the
effects recorded so far stay.
-/

namespace StackScript

namespace Machine

/-- A runtime error at the instruction dispatched last. -/
def fault (m : Machine) (c : Chunk) (kind : FaultKind) (message : String)
    (cause : Option String) : Fault :=
  ⟨kind, Bytes.ofString message, ⟨c.name, c.lineAt m.lastOp, m.lastOp⟩, cause⟩

/-- Pushes a value. -/
def push (m : Machine) (v : Value) : Machine := { m with stack := m.stack.push v }

/-- Pops the top value (nil on an empty stack). -/
def pop (m : Machine) : Machine × Value := ({ m with stack := m.stack.pop }, m.stack.back?.getD .nil)

/-- The value `d` places below the top (nil past the bottom). -/
def peek (m : Machine) (d : Nat) : Value :=
  if d < m.stack.size then m.stack.getD (m.stack.size - 1 - d) .nil else .nil

/-- The operand byte at the next offset, and the machine past it. -/
def operand (m : Machine) (c : Chunk) : Machine × UInt8 := ({ m with ip := m.ip + 1 }, c.code.getD m.ip 0)

/-- What a dispatch leads to: the next instruction, the end of the run, a runtime error, or a
pause while a line of output is held. -/
inductive Outcome where
  | proceed
  | halt
  | fault (f : Fault)
  | pause

/-- The constant named by the operand. -/
def readConstant (m : Machine) (c : Chunk) : Machine × Except Fault Value :=
  let (m, i) := m.operand c
  match c.constant? i.toNat with
  | some v => (m, .ok v)
  | none => (m, .error (m.fault c .invalidOperand ("Constant " ++ toString i.toNat ++ " out of range.") none))

/-- The global name named by the operand. -/
def readName (m : Machine) (c : Chunk) : Machine × Except Fault Str :=
  match m.readConstant c with
  | (m, .ok v) =>
    match v.asStr? with
    | some s => (m, .ok s)
    | none => (m, .error (m.fault c .invalidOperand "Global name constant is not a string." none))
  | (m, .error f) => (m, .error f)

/-- The error for a global that is not defined. -/
def undefined (m : Machine) (c : Chunk) (name : Str) : Fault :=
  { m.fault c .undefinedVariable "" (some "undefined variable") with
    message := Bytes.ofString "Undefined variable '" ++ name.chars ++ Bytes.ofString "'." }

/-- The two numbers on top of the stack, deepest first. -/
def numbers (m : Machine) : Option (Float × Float) :=
  match m.peek 1, m.peek 0 with
  | .number a, .number b => some (a, b)
  | _, _ => none

/-- Executes a decoded instruction whose checks have passed. -/
def execute (m : Machine) (c : Chunk) (op : Op) : Machine × Outcome :=
  match op with
  | .constant =>
    match m.readConstant c with
    | (m, .ok v) => (m.push v, .proceed)
    | (m, .error f) => (m, .fault f)
  | .nil => (m.push .nil, .proceed)
  | .trueLit => (m.push (.bool true), .proceed)
  | .falseLit => (m.push (.bool false), .proceed)
  | .pop => (m.pop.1, .proceed)
  | .equal =>
    let (m, b) := m.pop
    let (m, a) := m.pop
    (m.push (.bool (a.equal b)), .proceed)
  | .greater | .less | .subtract | .multiply | .divide =>
    match m.numbers with
    | some (a, b) =>
      let r : Value := match op with
        | .greater => .bool (a > b)
        | .less => .bool (a < b)
        | .subtract => .number (a - b)
        | .multiply => .number (a * b)
        | _ => .number (a / b)
      ((m.pop.1.pop.1).push r, .proceed)
    | none => (m, .fault (m.fault c .typeMismatch "Operands must be numbers." (some "operands must be numbers")))
  | .add =>
    match m.peek 1, m.peek 0 with
    | .obj (.str a), .obj (.str b) =>
      let (heap, s) := m.heap.concat a b
      (({ m.pop.1.pop.1 with heap }).push (.obj (.str s)), .proceed)
    | .number a, .number b => ((m.pop.1.pop.1).push (.number (a + b)), .proceed)
    | _, _ =>
      (m, .fault (m.fault c .typeMismatch "Operands must be two numbers or two strings."
        (some "operands must be two numbers or two strings")))
  | .not => let (m, v) := m.pop; (m.push (.bool v.isFalsey), .proceed)
  | .negate =>
    match m.peek 0 with
    | .number n => (m.pop.1.push (.number (-n)), .proceed)
    | _ => (m, .fault (m.fault c .typeMismatch "Operand must be a number." (some "operand must be a number")))
  | .info =>
    let (m, v) := m.pop
    match m.sink with
    | .keep => (m.emit (.output (v.text ++ [10])), .proceed)
    | .discard => (m, .proceed)
    | .failing => (m, .fault (m.fault c .outputFailure "Cannot write output: write failed" (some "write failed")))
    | .held => ({ m with waiting := some (v.text ++ [10]) }, .pause)
  | .getLocal =>
    let (m, slot) := m.operand c
    if h : slot.toNat < m.stack.size then (m.push m.stack[slot.toNat], .proceed)
    else (m, .fault (m.fault c .invalidOperand ("Local slot " ++ toString slot.toNat ++ " out of range.") none))
  | .setLocal =>
    let (m, slot) := m.operand c
    if slot.toNat < m.stack.size then
      ({ m with stack := m.stack.setIfInBounds slot.toNat (m.peek 0) }, .proceed)
    else (m, .fault (m.fault c .invalidOperand ("Local slot " ++ toString slot.toNat ++ " out of range.") none))
  | .getGlobal =>
    match m.readName c with
    | (m, .ok name) =>
      match m.globals.get? name with
      | some v => (m.push v, .proceed)
      | none => (m, .fault (m.undefined c name))
    | (m, .error f) => (m, .fault f)
  | .setGlobal =>
    match m.readName c with
    | (m, .ok name) =>
      let (t, replaced) := m.globals.insert name (m.peek 0)
      -- An insert that created the binding is undone, leaving a tombstone behind.
      if replaced then ({ m with globals := t }, .proceed)
      else ({ m with globals := (t.erase name).1 }, .fault (m.undefined c name))
    | (m, .error f) => (m, .fault f)
  | .defineGlobal =>
    match m.readName c with
    | (m, .ok name) =>
      let (t, _) := m.globals.insert name (m.peek 0)
      ({ m with globals := t }.pop.1, .proceed)
    | (m, .error f) => (m, .fault f)
  | .ret => (m, .halt)

/-- Dispatches the instruction at the current offset; the run also ends when the code does. -/
def step (m : Machine) (c : Chunk) : Machine × Outcome :=
  if m.ip ≥ c.code.size then (m, .halt)
  else
    let b := c.code.getD m.ip 0
    let m := { m with lastOp := m.ip, ip := m.ip + 1, count := m.count + 1 }
    if m.limit > 0 && m.count > m.limit then
      (m, .fault (m.fault c .instructionLimit "Instruction limit exceeded." none))
    else
      match Op.ofByte? b with
      | none => (m, .fault (m.fault c .invalidOpcode ("Unknown opcode 0x" ++ Bytes.hexUpper b.toNat ++ ".") none))
      | some op =>
        if m.ip + op.operands > c.code.size then
          (m, .fault (m.fault c .invalidOperand ("Truncated operand for " ++ op.name ++ ".") none))
        else if m.stack.size < op.pops then
          (m, .fault (m.fault c .stackUnderflow "Stack underflow." none))
        else if m.stack.size - op.pops + op.pushes > m.stackMax then
          (m, .fault (m.fault c .stackOverflow "Stack overflow." none))
        else
          let m := if m.tracing then
              m.emit (.trace ⟨b, c.name, c.lineAt m.lastOp, m.lastOp, m.stack.toList, c⟩)
            else m
          m.execute c op

/-- How far a run got: to its end, with a runtime error or without, or to a pause. -/
inductive Progress where
  | finished (result : Option Fault)
  | paused

/-- Dispatches instructions until the run ends or pauses, at most `fuel` of them. A failed
run leaves the registers cleared. -/
def runFor : Nat → Machine → Chunk → Machine × Progress
  | 0, m, _ => (m, .finished none)
  | fuel + 1, m, c =>
    match m.step c with
    | (m, .fault f) => (m.reset, .finished (some f))
    | (m, .halt) => (m, .finished none)
    | (m, .pause) => (m, .paused)
    | (m, .proceed) => runFor fuel m c

/-- Starts a run of a chunk from its start. -/
def start (m : Machine) (c : Chunk) : Machine × Progress := runFor (c.code.size + 1) m.reset c

/-- Goes on with a paused run: the held line is written and the sink no longer holds. -/
def resume (m : Machine) (c : Chunk) : Machine × Progress :=
  let m := match m.waiting with
    | some line => { m with waiting := none }.emit (.output line)
    | none => m
  runFor (c.code.size + 1) { m with sink := if m.sink == .held then .keep else m.sink } c

/-- Runs a chunk from its start to its end. -/
def run (m : Machine) (c : Chunk) : Machine × Option Fault :=
  match m.start c with
  | (m, .finished r) => (m, r)
  | (m, .paused) => (m, none)

end Machine

end StackScript
