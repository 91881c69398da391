import StackScript.Proofs.Machine.Globals
import StackScript.Proofs.Machine.Safety
import StackScript.Proofs.Compiler.Run
import StackScript.Proofs.Bytecode.Layout

/-! # Straight-line code

Runs of code without jumps, one instruction after the next. `CodeAt c ip bytes` places bytes in
a chunk. A machine `Runs` the chunk of a constant pool when it is canonical, holds canonical
values on a stack within its limit, finds in the chunk the constants the pool denotes in its
heap, has no instruction limit and keeps its output.

For each instruction the compiler emits there is one lemma of what it does from a machine that
runs the chunk: it goes on to a machine that still runs the chunk (`Stepped`) with the stack and
the globals by name that the semantics gives (`Evaluated`), or it stops the run with the runtime
error of the semantics (`Raised`). Only adding two strings changes the heap, which then grows.
-/

namespace StackScript

set_option autoImplicit false

open Table

/-- The line an effect writes, if it writes one. -/
def Effect.line? : Effect → Option Bytes
  | .output line => some line
  | _ => none

/-- What a constant of the pool stands for. -/
def Const.val : Const → Val
  | .number x => .number x
  | .string c | .name c => .str c

theorem Const.Denotes.content {h : Heap} {k : Const} {v : Value} (hk : k.Denotes h v) :
    v.content = k.val ∧ v.Canon h := by
  cases k with
  | number x =>
    rw [show v = .number x from hk]
    exact ⟨rfl, trivial⟩
  | string c | name c =>
    obtain ⟨s, hl, rfl⟩ := hk
    exact ⟨(Value.canon_str hl).2, (Value.canon_str hl).1⟩

theorem Const.Denotes.grow {h h' : Heap} (hG : h.Grows h') (hWF : h.WF) {k : Const} {v : Value}
    (hk : k.Denotes h v) : k.Denotes h' v := by
  cases k with
  | number x => exact hk
  | string c | name c =>
    obtain ⟨s, hl, hv⟩ := hk
    exact ⟨s, (hG hWF).2 _ _ hl, hv⟩

namespace Machine

/-- The lines a machine has written, in order. -/
def written (m : Machine) : List Bytes := m.log.toList.filterMap Effect.line?

@[simp] theorem written_emit_output (m : Machine) (line : Bytes) :
    (m.emit (.output line)).written = m.written ++ [line] := by
  simp [written, emit, Effect.line?]

@[simp] theorem written_emit_trace (m : Machine) (t : TraceStep) :
    (m.emit (.trace t)).written = m.written := by
  simp [written, emit, Effect.line?]

@[simp] theorem written_emit_listing (m : Machine) (text : Bytes) :
    (m.emit (.listing text)).written = m.written := by
  simp [written, emit, Effect.line?]

/-! ## Placing code -/

/-- The code of `c` holds `bytes` from offset `ip` on. -/
def CodeAt (c : Chunk) (ip : Nat) (bytes : List UInt8) : Prop :=
  ∃ rest, c.code.toList.drop ip = bytes ++ rest

namespace CodeAt

variable {c : Chunk} {ip : Nat}

theorem left {b₁ b₂ : List UInt8} (h : CodeAt c ip (b₁ ++ b₂)) : CodeAt c ip b₁ := by
  obtain ⟨rest, hr⟩ := h
  exact ⟨b₂ ++ rest, by rw [hr, List.append_assoc]⟩

theorem right {b₁ b₂ : List UInt8} (h : CodeAt c ip (b₁ ++ b₂)) : CodeAt c (ip + b₁.length) b₂ := by
  obtain ⟨rest, hr⟩ := h
  refine ⟨rest, ?_⟩
  rw [← List.drop_drop, hr, List.append_assoc, List.drop_left]

theorem getElem? {b : UInt8} {bs : List UInt8} (h : CodeAt c ip (b :: bs)) : c.code[ip]? = some b := by
  obtain ⟨rest, hr⟩ := h
  rw [← Array.getElem?_toList, ← List.head?_drop, hr]
  rfl

theorem getD {b : UInt8} {bs : List UInt8} (h : CodeAt c ip (b :: bs)) : c.code.getD ip 0 = b := by
  rw [Array.getD_eq_getD_getElem?, h.getElem?]
  rfl

theorem size_le {b : UInt8} {bs : List UInt8} (h : CodeAt c ip (b :: bs)) :
    ip + (bs.length + 1) ≤ c.code.size := by
  obtain ⟨rest, hr⟩ := h
  have hLen := congrArg List.length hr
  simp only [List.length_drop, List.length_append, List.length_cons, Array.length_toList] at hLen
  omega

end CodeAt

/-! ## One dispatch -/

section Dispatch

variable (m : Machine) (c : Chunk)

@[simp] theorem dispatch_written : (m.dispatch c).written = m.written := by
  by_cases h : m.tracing <;> simp [dispatch, h, written, emit, Effect.line?]

end Dispatch

variable {c : Chunk} {m m' : Machine}

/-- An instruction whose checks pass executes on the dispatched machine: its operand bytes are
in the code, the stack holds what it takes and has room for what it leaves, and there is no
instruction limit. -/
theorem step_eq_execute {op : Op} {operand : List UInt8} (hCode : CodeAt c m.ip (op.code :: operand))
    (hLen : operand.length = op.operands) (hLimit : m.limit = 0) (hPops : op.pops ≤ m.stack.size)
    (hRoom : m.stack.size - op.pops + op.pushes ≤ m.stackMax) :
    m.step c = (m.dispatch c).execute c op := by
  have hSize := hCode.size_le
  rw [hLen] at hSize
  unfold step dispatch
  simp only [hCode.getD, Op.ofByte?_code, hLimit]
  rw [if_neg (by omega), if_neg (by simp), if_neg (by omega), if_neg (by omega), if_neg (by omega)]

/-! ## Machines that run a chunk -/

/-- A machine running the chunk of a constant pool. -/
structure Runs (c : Chunk) (P : List Const) (m : Machine) : Prop where
  canonical : m.Canonical
  stack : ∀ v ∈ m.stack.toList, v.Canon m.heap
  fits : m.stack.size ≤ m.stackMax
  consts : ∀ (i : Nat) (k : Const), P[i]? = some k →
    ∃ v, c.constants[i]? = some v ∧ k.Denotes m.heap v
  pool : P.length ≤ Chunk.maxConstants
  limit : m.limit = 0
  sink : m.sink = .keep

variable {P : List Const}

/-- A machine with the heap, globals and settings of one that runs the chunk, and canonical values
on a stack within its limit, runs it too. -/
theorem Runs.congr (hR : Runs c P m) (hHeap : m'.heap = m.heap) (hGlobals : m'.globals = m.globals)
    (hStack : ∀ v ∈ m'.stack.toList, v.Canon m.heap) (hFits : m'.stack.size ≤ m'.stackMax)
    (hLimit : m'.limit = m.limit) (hSink : m'.sink = m.sink) : Runs c P m' :=
  ⟨hR.canonical.congr hHeap hGlobals, hHeap ▸ hStack, hFits, hHeap ▸ hR.consts, hR.pool,
    hLimit.trans hR.limit, hSink.trans hR.sink⟩

/-- The constant an operand byte names, for an index into the pool. -/
theorem Runs.readConstant (hR : Runs c P m) {b : UInt8} {i : Nat} {k : Const}
    (hCode : CodeAt c m.ip [b, i.toUInt8]) (hi : P[i]? = some k) :
    ∃ v, (m.dispatch c).readConstant c = ({ m.dispatch c with ip := m.ip + 2 }, .ok v) ∧
      k.Denotes m.heap v := by
  obtain ⟨v, hv, hDen⟩ := hR.consts i k hi
  obtain ⟨hIn, -⟩ := List.getElem?_eq_some_iff.mp hi
  have hLt : i < Chunk.maxConstants := Nat.lt_of_lt_of_le hIn hR.pool
  have hSplit : CodeAt c m.ip ([b] ++ [i.toUInt8]) := hCode
  have hByte : c.code.getD (m.ip + 1) 0 = i.toUInt8 := hSplit.right.getD
  have hIdx : i.toUInt8.toNat = i := by
    simp only [Chunk.maxConstants] at hLt
    simp [Nat.mod_eq_of_lt hLt]
  refine ⟨v, ?_, hDen⟩
  unfold Machine.readConstant Machine.operand
  simp only [dispatch_ip, hByte, hIdx, Chunk.constant?]
  rw [if_neg (by omega)]
  simp [hv]

/-! ## The stack under an instruction -/

theorem peek_zero (m : Machine) : m.peek 0 = m.stack.back?.getD .nil := by
  unfold peek
  split
  · simp [Array.back?, Array.getD_eq_getD_getElem?]
  · rename_i h
    have h0 : m.stack.size = 0 := by omega
    simp [Array.back?, h0]

theorem peek_one (m : Machine) : m.peek 1 = m.stack.pop.back?.getD .nil := by
  unfold peek
  split
  · rename_i h
    simp only [Array.back?, Array.getD_eq_getD_getElem?, Array.getElem?_pop, Array.size_pop]
    rw [if_pos (by omega)]
  · rename_i h
    simp only [Array.back?, Array.getElem?_pop, Array.size_pop]
    rw [if_neg (by omega)]
    rfl

theorem peek_zero_of_stack {s : Array Value} {b : Value} (h : m.stack = s.push b) : m.peek 0 = b := by
  simp [peek_zero, h]

theorem peek_one_of_stack {s : Array Value} {a b : Value} (h : m.stack = (s.push a).push b) :
    m.peek 1 = a := by
  simp [peek_one, h]

theorem pop_of_stack {s : Array Value} {b : Value} (h : m.stack = s.push b) :
    m.pop = ({ m with stack := s }, b) := by
  simp [pop, h]

theorem numbers_of_stack {s : Array Value} {x y : Float}
    (h : m.stack = (s.push (.number x)).push (.number y)) : m.numbers = some (x, y) := by
  simp only [numbers, peek_one_of_stack h, peek_zero_of_stack h]

theorem numbers_of_not {s : Array Value} {a b : Value} (h : m.stack = (s.push a).push b)
    (hNot : ¬ ∃ x y, a = .number x ∧ b = .number y) : m.numbers = none := by
  simp only [numbers, peek_one_of_stack h, peek_zero_of_stack h]
  cases a <;> cases b <;> simp_all

theorem canon_of_push {h : Heap} {s : Array Value} {x : Value} (hs : ∀ v ∈ (s.push x).toList, v.Canon h) :
    (∀ v ∈ s.toList, v.Canon h) ∧ x.Canon h := by
  simp only [Array.toList_push, List.mem_append, List.mem_singleton] at hs
  exact ⟨fun v hv => hs v (.inl hv), hs x (.inr rfl)⟩

theorem canon_push {h : Heap} {s : Array Value} {x : Value} (hs : ∀ v ∈ s.toList, v.Canon h)
    (hx : x.Canon h) : ∀ v ∈ (s.push x).toList, v.Canon h := by
  simp only [Array.toList_push, List.mem_append, List.mem_singleton]
  rintro v (hv | rfl)
  · exact hs v hv
  · exact hx

/-! ## Runs of code -/

theorem Reaches.trans {s₁ s₂ s₃ : Machine} {n k : Nat} (h₁ : Reaches c s₁ n s₂) (h₂ : Reaches c s₂ k s₃) :
    Reaches c s₁ (n + k) s₃ := by
  induction h₁ with
  | refl => simpa using h₂
  | step hStep _ ih =>
    rw [Nat.add_right_comm]
    exact .step hStep (ih h₂)

/-- `m` runs `len` bytes of code to `m'`: every instruction goes on, and `m'` runs the chunk, with
the stack limit of `m`. -/
structure Stepped (c : Chunk) (P : List Const) (m m' : Machine) (len : Nat) : Prop where
  reaches : ∃ n, Reaches c m n m'
  ip : m'.ip = m.ip + len
  runs : Runs c P m'
  stackMax : m'.stackMax = m.stackMax

/-- The machine is deterministic: two paths of one length from one machine end at one machine. -/
theorem Reaches.det {s a b : Machine} {n : Nat} (ha : Reaches c s n a) (hb : Reaches c s n b) : a = b := by
  induction ha with
  | refl => cases hb; rfl
  | step hStep _ ih =>
    cases hb with
    | step hStep' hb' =>
      rw [hStep] at hStep'
      cases hStep'
      exact ih hb'

theorem Stepped.refl (hR : Runs c P m) : Stepped c P m m 0 := ⟨⟨0, .refl m⟩, rfl, hR, rfl⟩

theorem Stepped.trans {m₁ m₂ m₃ : Machine} {l₁ l₂ : Nat} (h₁ : Stepped c P m₁ m₂ l₁)
    (h₂ : Stepped c P m₂ m₃ l₂) : Stepped c P m₁ m₃ (l₁ + l₂) := by
  obtain ⟨⟨n, hn⟩, hIp, -, hMax⟩ := h₁
  obtain ⟨⟨k, hk⟩, hIp', hR, hMax'⟩ := h₂
  exact ⟨⟨n + k, hn.trans hk⟩, by omega, hR, hMax'.trans hMax⟩

/-- From `m` the code reaches an instruction that stops the run with the error `e` of the
semantics, leaving a canonical machine with the globals `ρ` and the output of `m`. -/
def Raised (c : Chunk) (m : Machine) (ρ : Env) (e : RunError) : Prop :=
  ∃ n s s' f, Reaches c m n s ∧ s.step c = (s', .fault f) ∧ f = e.fault f.frame ∧
    s'.Canonical ∧ s'.env = ρ ∧ s'.written = m.written

theorem Raised.of_stepped {m₁ : Machine} {l : Nat} {ρ : Env} {e : RunError} (h₁ : Stepped c P m m₁ l)
    (hW : m₁.written = m.written) (h₂ : Raised c m₁ ρ e) : Raised c m ρ e := by
  obtain ⟨⟨n, hn⟩, -⟩ := h₁
  obtain ⟨k, s, s', f, hk, hStep, hf, hM, hEnv, hW'⟩ := h₂
  exact ⟨n + k, s, s', f, hn.trans hk, hStep, hf, hM, hEnv, hW'.trans hW⟩

/-- What running `len` bytes of code from `m` does, for what the semantics answers: the value,
pushed on `base` with the globals `ρ` and nothing written, or the error. -/
def Evaluated (c : Chunk) (P : List Const) (m : Machine) (len : Nat) (base : Array Value) :
    Env × Except RunError Val → Prop
  | (ρ, .ok v) => ∃ m' x, Stepped c P m m' len ∧ m'.env = ρ ∧ m'.written = m.written ∧
      m'.stack = base.push x ∧ x.content = v
  | (ρ, .error e) => Raised c m ρ e

theorem Evaluated.of_stepped {m₁ : Machine} {l₁ l₂ : Nat} {base : Array Value}
    {r : Env × Except RunError Val} (h₁ : Stepped c P m m₁ l₁) (hW : m₁.written = m.written)
    (h₂ : Evaluated c P m₁ l₂ base r) : Evaluated c P m (l₁ + l₂) base r := by
  obtain ⟨ρ, res⟩ := r
  cases res with
  | ok v =>
    obtain ⟨m', x, hS, hEnv, hW', hStack, hx⟩ := h₂
    exact ⟨m', x, h₁.trans hS, hEnv, hW'.trans hW, hStack, hx⟩
  | error e => exact Raised.of_stepped h₁ hW h₂

/-- What running `len` bytes of the code of a declaration from `m` does, for what the semantics
answers: the globals `ρ` and the lines written, with the stack back at `base`, or the error. -/
def Executed (c : Chunk) (P : List Const) (m : Machine) (len : Nat) (base : Array Value) :
    Env × Except RunError (List Bytes) → Prop
  | (ρ, .ok out) => ∃ m', Stepped c P m m' len ∧ m'.env = ρ ∧ m'.written = m.written ++ out ∧
      m'.stack = base
  | (ρ, .error e) => Raised c m ρ e

theorem Executed.of_stepped {m₁ : Machine} {l₁ l₂ : Nat} {base : Array Value}
    {r : Env × Except RunError (List Bytes)} (h₁ : Stepped c P m m₁ l₁) (hW : m₁.written = m.written)
    (h₂ : Executed c P m₁ l₂ base r) : Executed c P m (l₁ + l₂) base r := by
  obtain ⟨ρ, res⟩ := r
  cases res with
  | ok out =>
    obtain ⟨m', hS, hEnv, hW', hStack⟩ := h₂
    exact ⟨m', h₁.trans hS, hEnv, by rw [hW', hW], hStack⟩
  | error e => exact Raised.of_stepped h₁ hW h₂

/-- An instruction that goes on to a canonical machine with a grown heap and the settings of
`m`, leaving canonical values on a stack within the limit. -/
theorem Runs.stepped_of (hR : Runs c P m) {len : Nat} (hStep : m.step c = (m', .proceed))
    (hIp : m'.ip = m.ip + len) (hM' : m'.Canonical) (hGrow : m.heap.Grows m'.heap)
    (hFrame : m'.limit = m.limit ∧ m'.sink = m.sink ∧ m'.stackMax = m.stackMax)
    (hStack : ∀ v ∈ m'.stack.toList, v.Canon m'.heap) (hFits : m'.stack.size ≤ m.stackMax) :
    Stepped c P m m' len := by
  obtain ⟨hLimit, hSink, hMax⟩ := hFrame
  refine ⟨⟨1, .step hStep (.refl _)⟩, hIp, ⟨hM', hStack, hMax ▸ hFits, fun i k hi => ?_, hR.pool,
    hLimit.trans hR.limit, hSink.trans hR.sink⟩, hMax⟩
  obtain ⟨v, hv, hDen⟩ := hR.consts i k hi
  exact ⟨v, hv, hDen.grow hGrow hR.canonical.heap⟩

/-- An instruction that goes on to a canonical machine with a grown heap, the settings and the
output of `m`, and a canonical value on canonical values below. -/
theorem Runs.evaluated_of (hR : Runs c P m) {len : Nat} {base : Array Value} {x : Value} {ρ : Env}
    (hStep : m.step c = (m', .proceed)) (hIp : m'.ip = m.ip + len) (hM' : m'.Canonical)
    (hEnv : m'.env = ρ) (hGrow : m.heap.Grows m'.heap)
    (hFrame : m'.limit = m.limit ∧ m'.sink = m.sink ∧ m'.stackMax = m.stackMax ∧ m'.written = m.written)
    (hStack : m'.stack = base.push x) (hBase : ∀ v ∈ base.toList, v.Canon m.heap)
    (hx : x.Canon m'.heap) (hFits : base.size + 1 ≤ m.stackMax) :
    Evaluated c P m len base (ρ, .ok x.content) := by
  obtain ⟨hLimit, hSink, hMax, hW⟩ := hFrame
  have hStepped := hR.stepped_of hStep hIp hM' hGrow ⟨hLimit, hSink, hMax⟩
    (by rw [hStack]; exact canon_push (fun v hv => (hBase v hv).grow hGrow hR.canonical.heap) hx)
    (by rw [hStack, Array.size_push]; exact hFits)
  exact ⟨m', x, hStepped, hEnv, hW, hStack, rfl⟩

/-- An instruction that goes on, leaving the heap, the globals, the settings and the output as
they were and a canonical value on canonical values below. -/
theorem Runs.evaluated (hR : Runs c P m) {len : Nat} {base : Array Value} {x : Value}
    (hStep : m.step c = (m', .proceed)) (hIp : m'.ip = m.ip + len)
    (hFrame : m'.heap = m.heap ∧ m'.globals = m.globals ∧ m'.limit = m.limit ∧ m'.sink = m.sink ∧
      m'.stackMax = m.stackMax ∧ m'.written = m.written)
    (hStack : m'.stack = base.push x) (hBase : ∀ v ∈ base.toList, v.Canon m.heap)
    (hx : x.Canon m.heap) (hFits : base.size + 1 ≤ m.stackMax) :
    Evaluated c P m len base (m.env, .ok x.content) := by
  obtain ⟨hHeap, hGlobals, hFrame⟩ := hFrame
  exact hR.evaluated_of hStep hIp (hR.canonical.congr hHeap hGlobals) (env_congr hHeap hGlobals)
    (hHeap ▸ Heap.Grows.refl _) hFrame hStack hBase (hHeap ▸ hx) hFits

/-- An instruction that stops the run at `m` with the error of the semantics, leaving the heap,
the globals and the output. -/
theorem Runs.raised (hR : Runs c P m) {s' : Machine} {f : Fault} {e : RunError}
    (hStep : m.step c = (s', .fault f)) (hf : f = e.fault f.frame) (hHeap : s'.heap = m.heap)
    (hGlobals : s'.globals = m.globals) (hW : s'.written = m.written) : Raised c m m.env e :=
  ⟨0, m, s', f, .refl m, hStep, hf, hR.canonical.congr hHeap hGlobals, env_congr hHeap hGlobals, hW⟩

/-! ## Values pushed -/

/-- An instruction without operand that takes nothing and pushes a canonical value. -/
theorem Runs.evaluated_push (hR : Runs c P m) {op : Op} {x : Value} (hCode : CodeAt c m.ip [op.code])
    (hOp : op.operands = 0 ∧ op.pops = 0 ∧ op.pushes = 1)
    (hExec : (m.dispatch c).execute c op = ((m.dispatch c).push x, .proceed)) (hx : x.Canon m.heap)
    (hRoom : m.stack.size + 1 ≤ m.stackMax) : Evaluated c P m 1 m.stack (m.env, .ok x.content) := by
  have hStep := step_eq_execute hCode hOp.1.symm hR.limit (by omega) (by omega)
  rw [hExec] at hStep
  exact hR.evaluated hStep (by simp [push])
    ⟨by simp [push], by simp [push], by simp [push], by simp [push], by simp [push], dispatch_written m c⟩
    (by simp [push]) hR.stack hx hRoom

theorem Runs.evaluated_literal (hR : Runs c P m) (k : TokenKind)
    (hCode : CodeAt c m.ip
      [(if k = .falseKw then Op.falseLit else if k = .nilKw then Op.nil else Op.trueLit).code])
    (hRoom : m.stack.size + 1 ≤ m.stackMax) : Evaluated c P m 1 m.stack (m.env, .ok (literalVal k)) := by
  unfold literalVal
  by_cases hFalse : k = .falseKw
  · rw [if_pos hFalse] at hCode ⊢
    exact hR.evaluated_push (x := .bool false) hCode ⟨rfl, rfl, rfl⟩ rfl trivial hRoom
  rw [if_neg hFalse] at hCode ⊢
  by_cases hNil : k = .nilKw
  · rw [if_pos hNil] at hCode ⊢
    exact hR.evaluated_push (x := .nil) hCode ⟨rfl, rfl, rfl⟩ rfl trivial hRoom
  · rw [if_neg hNil] at hCode ⊢
    exact hR.evaluated_push (x := .bool true) hCode ⟨rfl, rfl, rfl⟩ rfl trivial hRoom

theorem Runs.evaluated_constant (hR : Runs c P m) {i : Nat} {k : Const}
    (hCode : CodeAt c m.ip [Op.constant.code, i.toUInt8]) (hi : P[i]? = some k)
    (hRoom : m.stack.size + 1 ≤ m.stackMax) : Evaluated c P m 2 m.stack (m.env, .ok k.val) := by
  obtain ⟨v, hRead, hDen⟩ := hR.readConstant hCode hi
  obtain ⟨hv, hCanon⟩ := hDen.content
  have hStep := step_eq_execute hCode rfl hR.limit (by simp [Op.pops]) (by simp [Op.pops, Op.pushes]; omega)
  simp only [execute, hRead] at hStep
  rw [← hv]
  exact hR.evaluated hStep (by simp [push])
    ⟨by simp [push], by simp [push], by simp [push], by simp [push], by simp [push], dispatch_written m c⟩
    (by simp [push]) hR.stack hCanon hRoom

/-! ## Globals -/

/-- The name an operand byte names, for an index into the pool holding a name. -/
theorem Runs.readName (hR : Runs c P m) {b : UInt8} {i : Nat} {x : Bytes}
    (hCode : CodeAt c m.ip [b, i.toUInt8]) (hi : P[i]? = some (.name x)) :
    ∃ s, (m.dispatch c).readName c = ({ m.dispatch c with ip := m.ip + 2 }, .ok s) ∧
      m.heap.lookup? x = some s := by
  obtain ⟨v, hRead, s, hl, rfl⟩ := hR.readConstant hCode hi
  exact ⟨s, by simp only [Machine.readName, hRead, Value.asStr?], hl⟩

theorem Runs.evaluated_getGlobal (hR : Runs c P m) {i : Nat} {t : Token}
    (hCode : CodeAt c m.ip [Op.getGlobal.code, i.toUInt8]) (hi : P[i]? = some (.name t.text))
    (hRoom : m.stack.size + 1 ≤ m.stackMax) : Evaluated c P m 2 m.stack ((Expr.ident t).eval m.env) := by
  obtain ⟨s, hRead, hl⟩ := hR.readName hCode hi
  have hStep := step_eq_execute hCode rfl hR.limit (by simp [Op.pops]) (by simp [Op.pops, Op.pushes]; omega)
  simp only [execute, hRead, dispatch_globals, hR.canonical.get?_eq hl] at hStep
  simp only [Expr.eval, hR.canonical.env_of_lookup hl]
  cases hv : m.globals.lookup s with
  | some v =>
    rw [hv] at hStep
    obtain ⟨k₀, -, hHolds⟩ := hR.canonical.globals.lookup_eq_some_iff.mp hv
    exact hR.evaluated hStep (by simp [push])
      ⟨by simp [push], by simp [push], by simp [push], by simp [push], by simp [push], dispatch_written m c⟩
      (by simp [push]) hR.stack (hR.canonical.values k₀ v hHolds) hRoom
  | none =>
    rw [hv] at hStep
    refine hR.raised hStep ?_ (by simp) (by simp) (dispatch_written m c)
    obtain ⟨-, hChars⟩ := Heap.WF.lookup?_sound hl
    simp [undefined, fault, RunError.fault, RunError.kind, RunError.message, RunError.cause, hChars]

/-- Assigning a global: with the name bound, it is rebound to the value on top, which stays;
without, the run stops and the insert is undone. -/
theorem Runs.evaluated_setGlobal (hR : Runs c P m) {i : Nat} {x : Bytes} {base : Array Value}
    {a : Value} (hCode : CodeAt c m.ip [Op.setGlobal.code, i.toUInt8]) (hi : P[i]? = some (.name x))
    (hStack : m.stack = base.push a) :
    Evaluated c P m 2 base
      (if (m.env x).isSome then (m.env.set x a.content, .ok a.content)
        else (m.env, .error (.undefined x))) := by
  obtain ⟨s, hRead, hl⟩ := hR.readName hCode hi
  obtain ⟨hBase, ha⟩ := canon_of_push (hStack ▸ hR.stack)
  have hFits := hR.fits
  rw [hStack, Array.size_push] at hFits
  have hStep := step_eq_execute hCode rfl hR.limit (by rw [hStack]; simp [Op.pops])
    (by rw [hStack]; simp [Op.pops, Op.pushes]; omega)
  simp only [execute, hRead, peek_zero, dispatch_stack, hStack, Array.back?_push, Option.getD_some,
    dispatch_globals] at hStep
  obtain ⟨hM₁, hEnv₁, hAnswer⟩ := hR.canonical.insert hl ha
  by_cases hBound : (m.env x).isSome
  · rw [if_pos hBound]
    rw [hAnswer, if_pos hBound] at hStep
    exact hR.evaluated_of hStep (by simp) (hM₁.congr (by simp) (by simp))
      ((env_congr (by simp) (by simp)).trans hEnv₁) (by simpa using Heap.Grows.refl _)
      ⟨by simp, by simp, by simp, dispatch_written m c⟩ (by simp) hBase (by simpa using ha) (by omega)
  · rw [if_neg hBound]
    rw [hAnswer, if_neg hBound] at hStep
    obtain ⟨hM₂, hEnv₂⟩ := hR.canonical.erase hl ha (Option.not_isSome_iff_eq_none.mp hBound)
    obtain ⟨-, hChars⟩ := Heap.WF.lookup?_sound hl
    refine ⟨0, m, _, _, .refl m, hStep, ?_, hM₂.congr (by simp) (by simp),
      (env_congr (by simp) (by simp)).trans hEnv₂, dispatch_written m c⟩
    simp [undefined, fault, RunError.fault, RunError.kind, RunError.message, RunError.cause, hChars]

/-! ## Operators -/

/-- The value a numeric instruction pushes for two doubles. -/
def numericValue : Op → Float → Float → Value
  | .greater, a, b => .bool (a > b)
  | .less, a, b => .bool (a < b)
  | .subtract, a, b => .number (a - b)
  | .multiply, a, b => .number (a * b)
  | _, a, b => .number (a / b)

theorem numeric_content_of_not {f : Float → Float → Val} {a b : Value}
    (hNot : ¬ ∃ x y, a = .number x ∧ b = .number y) : numeric f a.content b.content = .error .numbers := by
  cases a <;> cases b <;> simp_all [numeric, Value.content]

/-- The stack of an instruction on two values: both canonical, over canonical values, within the
limit. -/
theorem Runs.two {base : Array Value} {a b : Value} (hR : Runs c P m)
    (hStack : m.stack = (base.push a).push b) :
    (∀ v ∈ base.toList, v.Canon m.heap) ∧ a.Canon m.heap ∧ b.Canon m.heap ∧ base.size + 2 ≤ m.stackMax := by
  obtain ⟨hBase', hb⟩ := canon_of_push (hStack ▸ hR.stack)
  obtain ⟨hBase, ha⟩ := canon_of_push hBase'
  have hFits := hR.fits
  rw [hStack] at hFits
  simp only [Array.size_push] at hFits
  exact ⟨hBase, ha, hb, by omega⟩

/-- An arithmetic instruction other than `OP_ADD`, or a comparison: on two numbers it leaves its
result, on anything else the run stops. -/
theorem Runs.evaluated_numeric (hR : Runs c P m) {op : Op}
    (hop : op = .greater ∨ op = .less ∨ op = .subtract ∨ op = .multiply ∨ op = .divide)
    (hCode : CodeAt c m.ip [op.code]) {base : Array Value} {a b : Value}
    (hStack : m.stack = (base.push a).push b) :
    Evaluated c P m 1 base (m.env, numeric (fun x y => (numericValue op x y).content) a.content b.content) := by
  obtain ⟨hBase, ha, hb, hFits⟩ := hR.two hStack
  have hTable : op.operands = 0 ∧ op.pops = 2 ∧ op.pushes = 1 := by
    rcases hop with rfl | rfl | rfl | rfl | rfl <;> exact ⟨rfl, rfl, rfl⟩
  have hStep := step_eq_execute hCode hTable.1.symm hR.limit
    (by rw [hStack, hTable.2.1]; simp) (by rw [hStack, hTable.2.1, hTable.2.2]; simp; omega)
  by_cases hNum : ∃ x y, a = .number x ∧ b = .number y
  · obtain ⟨x, y, rfl, rfl⟩ := hNum
    have hNums : (m.dispatch c).numbers = some (x, y) := numbers_of_stack (s := base) (by simp [hStack])
    have hExec : (m.dispatch c).execute c op =
        (((m.dispatch c).pop.1.pop.1).push (numericValue op x y), .proceed) := by
      rcases hop with rfl | rfl | rfl | rfl | rfl <;> simp only [execute, hNums, numericValue]
    have hCanon : (numericValue op x y).Canon m.heap := by
      unfold numericValue
      split <;> trivial
    rw [hExec] at hStep
    exact hR.evaluated hStep (by simp [push, pop])
      ⟨by simp [push, pop], by simp [push, pop], by simp [push, pop], by simp [push, pop],
        by simp [push, pop], dispatch_written m c⟩ (by simp [push, pop, hStack]) hBase hCanon (by omega)
  · have hNums : (m.dispatch c).numbers = none := numbers_of_not (s := base) (by simp [hStack]) hNum
    have hExec : (m.dispatch c).execute c op = (m.dispatch c, .fault ((m.dispatch c).fault c
        .typeMismatch "Operands must be numbers." (some "operands must be numbers"))) := by
      rcases hop with rfl | rfl | rfl | rfl | rfl <;> simp only [execute, hNums]
    rw [hExec] at hStep
    rw [numeric_content_of_not hNum]
    exact hR.raised hStep rfl (by simp) (by simp) (dispatch_written m c)

theorem plus_content_of_not {h : Heap} {a b : Value} (ha : a.Canon h) (hb : b.Canon h)
    (hStr : ¬ ∃ sa sb, a = .obj (.str sa) ∧ b = .obj (.str sb))
    (hNum : ¬ ∃ x y, a = .number x ∧ b = .number y) :
    binaryOp .plus a.content b.content = .error .addends := by
  rcases a with _ | _ | _ | (_ | _) <;> rcases b with _ | _ | _ | (_ | _) <;>
    simp_all [binaryOp, Value.content, Value.Canon]

/-- `OP_ADD`: two strings are joined into the string the heap interns for their bytes, two
numbers added, and anything else stops the run. -/
theorem Runs.evaluated_add (hR : Runs c P m) (hCode : CodeAt c m.ip [Op.add.code]) {base : Array Value}
    {a b : Value} (hStack : m.stack = (base.push a).push b) :
    Evaluated c P m 1 base (m.env, binaryOp .plus a.content b.content) := by
  obtain ⟨hBase, ha, hb, hFits⟩ := hR.two hStack
  have hStep := step_eq_execute hCode rfl hR.limit (by rw [hStack]; simp [Op.pops])
    (by rw [hStack]; simp [Op.pops, Op.pushes]; omega)
  simp only [execute, peek_one, peek_zero, dispatch_stack, hStack, Array.pop_push, Array.back?_push,
    Option.getD_some] at hStep
  by_cases hStr : ∃ sa sb, a = .obj (.str sa) ∧ b = .obj (.str sb)
  · obtain ⟨sa, sb, rfl, rfl⟩ := hStr
    simp only at hStep
    -- The joined string is interned: the heap grows, and the string is found by its bytes.
    have hG := Heap.grows_intern m.heap (sa.chars ++ sb.chars)
    have hl : (m.heap.intern (sa.chars ++ sb.chars)).1.lookup? (sa.chars ++ sb.chars) =
        some (m.heap.intern (sa.chars ++ sb.chars)).2 := by
      rw [(hR.canonical.heap.intern _).2.1]
      simp
    obtain ⟨hCanon, hContent⟩ := Value.canon_str hl
    obtain ⟨hM', hEnv'⟩ := hR.canonical.grow hG
    have hEval : Evaluated c P m 1 base _ :=
      hR.evaluated_of (x := .obj (.str (m.heap.intern (sa.chars ++ sb.chars)).2)) hStep (by simp [push, pop])
      (hM'.congr (by simp [push, pop, Heap.concat]) (by simp [push, pop]))
      ((env_congr (by simp [push, pop, Heap.concat]) (by simp [push, pop])).trans hEnv')
      (by simpa [push, pop, Heap.concat] using hG)
      ⟨by simp [push, pop], by simp [push, pop], by simp [push, pop], dispatch_written m c⟩
      (by simp [push, pop, hStack, Heap.concat]) hBase (by simpa [push, pop, Heap.concat] using hCanon) (by omega)
    rw [hContent] at hEval
    exact hEval
  · by_cases hNum : ∃ x y, a = .number x ∧ b = .number y
    · obtain ⟨x, y, rfl, rfl⟩ := hNum
      simp only at hStep
      exact hR.evaluated (x := .number (x + y)) hStep (by simp [push, pop])
        ⟨by simp [push, pop], by simp [push, pop], by simp [push, pop], by simp [push, pop],
          by simp [push, pop], dispatch_written m c⟩ (by simp [push, pop, hStack]) hBase trivial (by omega)
    · rw [plus_content_of_not ha hb hStr hNum]
      split at hStep
      · exact absurd ⟨_, _, rfl, rfl⟩ hStr
      · exact absurd ⟨_, _, rfl, rfl⟩ hNum
      · exact hR.raised hStep rfl (by simp) (by simp) (dispatch_written m c)

/-- `OP_EQUAL`: identity of canonical values, which is equality of their contents. -/
theorem Runs.evaluated_equal (hR : Runs c P m) (hCode : CodeAt c m.ip [Op.equal.code])
    {base : Array Value} {a b : Value} (hStack : m.stack = (base.push a).push b) :
    Evaluated c P m 1 base (m.env, .ok (.bool (a.content.equal b.content))) := by
  obtain ⟨hBase, ha, hb, hFits⟩ := hR.two hStack
  have hStep := step_eq_execute hCode rfl hR.limit (by rw [hStack]; simp [Op.pops])
    (by rw [hStack]; simp [Op.pops, Op.pushes]; omega)
  simp only [execute, pop, dispatch_stack, hStack, Array.pop_push, Array.back?_push,
    Option.getD_some] at hStep
  rw [← Value.equal_eq hR.canonical.heap ha hb]
  exact hR.evaluated (x := .bool (a.equal b)) hStep (by simp [push])
    ⟨by simp [push], by simp [push], by simp [push], by simp [push], by simp [push], dispatch_written m c⟩
    (by simp [push]) hBase trivial (by omega)

/-- The stack of an instruction on one value: canonical, over canonical values. -/
theorem Runs.one {base : Array Value} {a : Value} (hR : Runs c P m) (hStack : m.stack = base.push a) :
    (∀ v ∈ base.toList, v.Canon m.heap) ∧ a.Canon m.heap ∧ base.size + 1 ≤ m.stackMax := by
  obtain ⟨hBase, ha⟩ := canon_of_push (hStack ▸ hR.stack)
  have hFits := hR.fits
  rw [hStack, Array.size_push] at hFits
  exact ⟨hBase, ha, hFits⟩

/-- `OP_NOT`: falsiness. -/
theorem Runs.evaluated_not (hR : Runs c P m) (hCode : CodeAt c m.ip [Op.not.code]) {base : Array Value}
    {a : Value} (hStack : m.stack = base.push a) :
    Evaluated c P m 1 base (m.env, .ok a.content.not) := by
  obtain ⟨hBase, -, hFits⟩ := hR.one hStack
  have hStep := step_eq_execute hCode rfl hR.limit (by rw [hStack]; simp [Op.pops])
    (by rw [hStack]; simp [Op.pops, Op.pushes]; omega)
  simp only [execute, pop, dispatch_stack, hStack, Array.pop_push, Array.back?_push,
    Option.getD_some] at hStep
  have hNot : a.content.not = (Value.bool a.isFalsey).content := by rw [Val.not, Value.isFalsey_content]; rfl
  rw [hNot]
  exact hR.evaluated hStep (by simp [push])
    ⟨by simp [push], by simp [push], by simp [push], by simp [push], by simp [push], dispatch_written m c⟩
    (by simp [push]) hBase trivial hFits

/-- `OP_NEGATE`: a number negated; anything else stops the run. -/
theorem Runs.evaluated_negate (hR : Runs c P m) (hCode : CodeAt c m.ip [Op.negate.code])
    {base : Array Value} {a : Value} (hStack : m.stack = base.push a) :
    Evaluated c P m 1 base (m.env, unaryOp .minus a.content) := by
  obtain ⟨hBase, -, hFits⟩ := hR.one hStack
  have hStep := step_eq_execute hCode rfl hR.limit (by rw [hStack]; simp [Op.pops])
    (by rw [hStack]; simp [Op.pops, Op.pushes]; omega)
  simp only [execute, peek_zero, pop, dispatch_stack, hStack, Array.pop_push, Array.back?_push,
    Option.getD_some] at hStep
  cases a with
  | number x =>
    exact hR.evaluated (x := .number (-x)) hStep (by simp [push])
      ⟨by simp [push], by simp [push], by simp [push], by simp [push], by simp [push], dispatch_written m c⟩
      (by simp [push]) hBase trivial hFits
  | _ => exact hR.raised hStep rfl (by simp) (by simp) (dispatch_written m c)

/-! ## The ends of declarations -/

/-- `OP_POP` drops the value on top. -/
theorem Runs.popped (hR : Runs c P m) (hCode : CodeAt c m.ip [Op.pop.code]) {base : Array Value}
    {a : Value} (hStack : m.stack = base.push a) : Executed c P m 1 base (m.env, .ok []) := by
  obtain ⟨hBase, -, hFits⟩ := hR.one hStack
  have hStep := step_eq_execute hCode rfl hR.limit (by rw [hStack]; simp [Op.pops])
    (by rw [hStack]; simp [Op.pops, Op.pushes]; omega)
  simp only [execute] at hStep
  refine ⟨_, hR.stepped_of hStep (by simp [pop]) (hR.canonical.congr (by simp [pop]) (by simp [pop]))
    (by simpa [pop] using Heap.Grows.refl _) ⟨by simp [pop], by simp [pop], by simp [pop]⟩
    (by simpa [pop, hStack] using hBase) (by simp [pop, hStack]; omega),
    env_congr (by simp [pop]) (by simp [pop]), (dispatch_written m c).trans (List.append_nil _).symm,
    by simp [pop, hStack]⟩

/-- `OP_INFO` writes the text of the value on top and a newline. -/
theorem Runs.printed (hR : Runs c P m) (hCode : CodeAt c m.ip [Op.info.code]) {base : Array Value}
    {a : Value} (hStack : m.stack = base.push a) :
    Executed c P m 1 base (m.env, .ok [a.content.text ++ [10]]) := by
  obtain ⟨hBase, -, hFits⟩ := hR.one hStack
  have hStep := step_eq_execute hCode rfl hR.limit (by rw [hStack]; simp [Op.pops])
    (by rw [hStack]; simp [Op.pops, Op.pushes]; omega)
  simp only [execute, pop, dispatch_stack, dispatch_sink, hR.sink, hStack, Array.pop_push,
    Array.back?_push, Option.getD_some] at hStep
  refine ⟨_, hR.stepped_of hStep (by simp [emit]) (hR.canonical.congr (by simp [emit]) (by simp [emit]))
    (by simpa [emit] using Heap.Grows.refl _) ⟨by simp [emit], by simp [emit, hR.sink], by simp [emit]⟩
    (by simpa [emit] using hBase) (by simp [emit]; omega),
    env_congr (by simp [emit]) (by simp [emit]), ?_, by simp [emit]⟩
  rw [written_emit_output, Value.text_content]
  exact congrArg (· ++ [a.text ++ [10]]) (dispatch_written m c)

/-- `OP_DEFINE_GLOBAL` binds the name to the value on top, which it drops. -/
theorem Runs.defined (hR : Runs c P m) {i : Nat} {x : Bytes} {base : Array Value} {a : Value}
    (hCode : CodeAt c m.ip [Op.defineGlobal.code, i.toUInt8]) (hi : P[i]? = some (.name x))
    (hStack : m.stack = base.push a) : Executed c P m 2 base (m.env.set x a.content, .ok []) := by
  obtain ⟨s, hRead, hl⟩ := hR.readName hCode hi
  obtain ⟨hBase, ha, hFits⟩ := hR.one hStack
  have hStep := step_eq_execute hCode rfl hR.limit (by rw [hStack]; simp [Op.pops])
    (by rw [hStack]; simp [Op.pops, Op.pushes]; omega)
  simp only [execute, hRead, peek_zero, dispatch_stack, hStack, Array.back?_push, Option.getD_some,
    dispatch_globals] at hStep
  obtain ⟨hM₁, hEnv₁, -⟩ := hR.canonical.insert hl ha
  refine ⟨_, hR.stepped_of hStep (by simp [pop]) (hM₁.congr (by simp [pop]) (by simp [pop]))
    (by simpa [pop] using Heap.Grows.refl _) ⟨by simp [pop], by simp [pop], by simp [pop]⟩
    (by simpa [pop] using hBase) (by simp [pop]; omega),
    (env_congr (by simp [pop]) (by simp [pop])).trans hEnv₁,
    (dispatch_written m c).trans (List.append_nil _).symm, by simp [pop]⟩

/-- `OP_RETURN` ends the run. -/
theorem Runs.step_ret (hR : Runs c P m) (hCode : CodeAt c m.ip [Op.ret.code]) :
    m.step c = (m.dispatch c, .halt) := by
  rw [step_eq_execute hCode rfl hR.limit (Nat.zero_le _) (by simpa [Op.pops, Op.pushes] using hR.fits)]
  rfl

end Machine

end StackScript
