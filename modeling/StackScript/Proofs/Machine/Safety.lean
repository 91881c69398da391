import StackScript.Machine.Program

/-! # Runs are total and stay inside their bounds

A run dispatches instructions of any chunk at all: code bytes that are no instruction, operands
cut off by the end of the code, constant pools of any values. Each dispatch checks the table
facts of the instruction (operand bytes, values taken, values left) before the instruction
executes. This module shows that those checks are enough.

* `execute_withBase`: an instruction other than the two slot instructions reads and writes only
  the values it takes from the top of the stack; whatever lies below is carried along untouched.
  So no instruction pops or peeks past what the table says it takes.
* `step_cases`: everything a dispatch can do. Past the code it ends the run; inside, it stops
  at the first check that fails (`Stops`, with the kind of error each reports) or, when all pass
  (`Passes`), executes the instruction on the dispatched machine. Later lemmas read what a
  dispatch did off this one, and what no instruction touches off `execute_settled`.
* `step_completes`: an instruction that completes moves the offset past its operand bytes and
  changes the depth by what it leaves less what it takes.
* `runFor_ends`: a run ends at the first dispatch that does not go on, before its fuel is used up.
* `run_total_and_safe`: from any machine, a run of any chunk completes at most one instruction
  per code byte, keeps the stack under its limit at every state it passes through, and ends
  either without an error or with one placed at the offset of the last dispatched instruction,
  with the stack cleared.
-/

namespace StackScript

set_option autoImplicit false

/-- The instructions that address a stack slot by its number from the bottom. -/
def Op.addressesSlot : Op → Bool
  | .getLocal | .setLocal => true
  | _ => false

namespace Machine

/-- Whether a dispatch ended in a runtime error. -/
def Outcome.isFault : Outcome → Bool
  | .fault _ => true
  | _ => false

/-- The machine with `base` slid under its stack. -/
def withBase (base : Array Value) (m : Machine) : Machine := { m with stack := base ++ m.stack }

/-! ## The registers of one instruction -/

section Registers

variable (m : Machine) (c : Chunk)

theorem operand_eq : m.operand c = ({ m with ip := m.ip + 1 }, c.code.getD m.ip 0) := rfl

theorem readConstant_fst : (m.readConstant c).1 = { m with ip := m.ip + 1 } := by
  simp only [readConstant, operand]
  split <;> rfl

theorem readName_fst : (m.readName c).1 = { m with ip := m.ip + 1 } := by
  have h := readConstant_fst m c
  simp only [readName]
  split
  · split <;> simp_all
  · simp_all

theorem readConstant_eq : ∃ r, m.readConstant c = ({ m with ip := m.ip + 1 }, r) :=
  ⟨_, Prod.ext (readConstant_fst m c) rfl⟩

theorem readName_eq : ∃ r, m.readName c = ({ m with ip := m.ip + 1 }, r) :=
  ⟨_, Prod.ext (readName_fst m c) rfl⟩

@[simp] theorem pop_stack_size : m.pop.1.stack.size = m.stack.size - 1 := by simp [pop]

@[simp] theorem push_stack_size (v : Value) : (m.push v).stack.size = m.stack.size + 1 := by
  simp [push]

-- The lemmas from here to the end of the section split the instruction and unfold `execute` and
-- its arities; their equations, one per instruction, are made once, here, and not by each lemma
-- at once.
attribute [local simp] execute Op.operands Op.pops Op.pushes

theorem execute_ip (op : Op) : (m.execute c op).1.ip = m.ip + op.operands := by
  cases op
  case constant =>
    obtain ⟨r, hr⟩ := readConstant_eq m c
    cases r <;> simp [hr, push]
  case getGlobal | setGlobal | defineGlobal =>
    obtain ⟨r, hr⟩ := readName_eq m c
    cases r with
    | error f => simp [hr]
    | ok k => simp only [execute, hr]; (try split) <;> simp [push, pop]
  case getLocal | setLocal => simp only [execute]; split <;> rfl
  all_goals simp only [execute, Op.operands]
  all_goals (try split) <;> simp [push, pop, emit]

/-- What an instruction leaves as it found it: the settings of the machine and the registers
its dispatch set. -/
structure Settled (m m' : Machine) : Prop where
  stackMax : m'.stackMax = m.stackMax
  sink : m'.sink = m.sink
  tracing : m'.tracing = m.tracing
  limit : m'.limit = m.limit
  lastOp : m'.lastOp = m.lastOp
  count : m'.count = m.count

/-- Every instruction changes only the stack, the offset, the globals, the heap and the effects:
each branch of `execute` builds its machine by pushes, pops and record updates of those. -/
theorem execute_settled (op : Op) : Settled m (m.execute c op).1 := by
  cases op
  case constant =>
    obtain ⟨r, hr⟩ := readConstant_eq m c
    cases r <;> simp only [execute, hr] <;> exact ⟨rfl, rfl, rfl, rfl, rfl, rfl⟩
  case getGlobal | setGlobal | defineGlobal =>
    obtain ⟨r, hr⟩ := readName_eq m c
    cases r with
    | error f => simp only [execute, hr]; exact ⟨rfl, rfl, rfl, rfl, rfl, rfl⟩
    | ok k => simp only [execute, hr]; (try split) <;> exact ⟨rfl, rfl, rfl, rfl, rfl, rfl⟩
  all_goals simp only [execute]
  all_goals (try split) <;> exact ⟨rfl, rfl, rfl, rfl, rfl, rfl⟩

theorem execute_size (op : Op) (hPops : op.pops ≤ m.stack.size)
    (h : (m.execute c op).2.isFault = false) :
    (m.execute c op).1.stack.size + op.pops = m.stack.size + op.pushes := by
  cases op
  case constant =>
    obtain ⟨r, hr⟩ := readConstant_eq m c
    cases r <;> simp_all [Outcome.isFault]
  case getGlobal | setGlobal | defineGlobal =>
    obtain ⟨r, hr⟩ := readName_eq m c
    cases r with
    | error f => simp [hr, Outcome.isFault] at h
    | ok k =>
      simp only [execute, hr] at h ⊢
      (try split) <;> (try split at h) <;> simp_all [Outcome.isFault]
  case getLocal | setLocal =>
    simp only [execute, operand_eq] at h ⊢
    by_cases hSlot : (c.code[m.ip]?.getD 0).toNat < m.stack.size
    · simp [hSlot]
    · simp [hSlot, Outcome.isFault] at h
  all_goals simp only [execute, Op.pops, Op.pushes] at h hPops ⊢
  all_goals (try split) <;> (try split at h) <;> simp_all [Outcome.isFault, emit] <;> omega

@[simp] theorem fault_frame (kind : FaultKind) (message : String) (cause : Option String) :
    (m.fault c kind message cause).frame = ⟨c.name, c.lineAt m.lastOp, m.lastOp⟩ := rfl

@[simp] theorem undefined_frame (name : Str) :
    (m.undefined c name).frame = ⟨c.name, c.lineAt m.lastOp, m.lastOp⟩ := rfl

theorem readConstant_fault_frame {m' : Machine} {f : Fault}
    (h : m.readConstant c = (m', .error f)) : f.frame = ⟨c.name, c.lineAt m.lastOp, m.lastOp⟩ := by
  simp only [readConstant, operand_eq] at h
  split at h
  · simp at h
  · simp only [Prod.mk.injEq, Except.error.injEq] at h
    rw [← h.2]
    rfl

theorem readName_fault_frame {m' : Machine} {f : Fault}
    (h : m.readName c = (m', .error f)) : f.frame = ⟨c.name, c.lineAt m.lastOp, m.lastOp⟩ := by
  simp only [readName] at h
  rcases hr : m.readConstant c with ⟨m₁, r⟩
  have hm₁ : m₁ = { m with ip := m.ip + 1 } := by rw [← readConstant_fst m c, hr]
  rw [hr] at h
  cases r with
  | error f' =>
    simp only [Prod.mk.injEq, Except.error.injEq] at h
    rw [← h.2]
    exact readConstant_fault_frame m c hr
  | ok v =>
    cases hv : v.asStr? <;> simp only [hv, Prod.mk.injEq, Except.error.injEq, reduceCtorEq,
      and_false] at h
    rw [← h.2, hm₁]
    rfl

theorem execute_fault_frame (op : Op) {f : Fault} (h : (m.execute c op).2 = .fault f) :
    f.frame = ⟨c.name, c.lineAt m.lastOp, m.lastOp⟩ := by
  cases op
  case constant =>
    obtain ⟨r, hr⟩ := readConstant_eq m c
    cases r with
    | error f' =>
      simp only [execute, hr, Outcome.fault.injEq] at h
      rw [← h]
      exact readConstant_fault_frame m c hr
    | ok v => simp [hr] at h
  case getGlobal | setGlobal | defineGlobal =>
    obtain ⟨r, hr⟩ := readName_eq m c
    cases r with
    | error f' =>
      simp only [execute, hr, Outcome.fault.injEq] at h
      rw [← h]
      exact readName_fault_frame m c hr
    | ok k =>
      simp only [execute, hr] at h
      (try split at h) <;> simp only [reduceCtorEq, Outcome.fault.injEq] at h <;> (rw [← h]; rfl)
  case getLocal | setLocal =>
    simp only [execute, operand_eq, Array.getD_eq_getD_getElem?] at h
    by_cases hSlot : (c.code[m.ip]?.getD 0).toNat < m.stack.size
    · simp [hSlot] at h
    · simp only [hSlot, dite_false, if_false, Outcome.fault.injEq] at h
      rw [← h]
      rfl
  all_goals simp only [execute] at h
  all_goals (try split at h) <;> simp only [reduceCtorEq, Outcome.fault.injEq] at h
  all_goals rw [← h]; rfl

end Registers

/-! ## An instruction sees only the values it takes -/

section Frame

variable (m : Machine) (c : Chunk) (base : Array Value)

@[simp] theorem fault_withBase : (m.withBase base).fault = m.fault := rfl
@[simp] theorem undefined_withBase : (m.withBase base).undefined = m.undefined := rfl
@[simp] theorem sink_withBase : (m.withBase base).sink = m.sink := rfl
@[simp] theorem globals_withBase : (m.withBase base).globals = m.globals := rfl
@[simp] theorem heap_withBase : (m.withBase base).heap = m.heap := rfl

theorem withBase_heap (h : Heap) :
    { m.withBase base with heap := h } = { m with heap := h }.withBase base := rfl

theorem withBase_globals (t : Table) :
    { m.withBase base with globals := t } = { m with globals := t }.withBase base := rfl

section Slide

-- The registers of the machine with the base slid under: its equation is made once, here, and
-- not by each lemma at once. The section ends before the lemmas that keep it folded.
attribute [local simp] withBase

theorem push_withBase (v : Value) : (m.withBase base).push v = (m.push v).withBase base := by
  simp [push]

theorem pop_withBase (h : m.stack ≠ #[]) :
    (m.withBase base).pop = (m.pop.1.withBase base, m.pop.2) := by
  obtain ⟨v, hv⟩ := Option.isSome_iff_exists.mp (Array.back?_isSome.mpr h)
  simp [pop, Array.pop_append_of_ne_empty h, hv]

theorem peek_withBase {d : Nat} (h : d < m.stack.size) : (m.withBase base).peek d = m.peek d := by
  simp only [peek, withBase, Array.size_append, h, if_true]
  rw [if_pos (by omega)]
  simp only [Array.getD_eq_getD_getElem?]
  rw [Array.getElem?_append_right (by omega)]
  congr 2
  omega

theorem numbers_withBase (h : 2 ≤ m.stack.size) : (m.withBase base).numbers = m.numbers := by
  simp only [numbers, peek_withBase m base (show 1 < m.stack.size by omega),
    peek_withBase m base (show 0 < m.stack.size by omega)]

theorem readConstant_withBase :
    (m.withBase base).readConstant c = ((m.readConstant c).1.withBase base, (m.readConstant c).2) := by
  simp only [readConstant, operand, withBase]
  split <;> rfl

end Slide

theorem readName_withBase :
    (m.withBase base).readName c = ((m.readName c).1.withBase base, (m.readName c).2) := by
  simp only [readName, readConstant_withBase]
  rcases m.readConstant c with ⟨m', r⟩
  cases r with
  | error f => rfl
  | ok v => cases hs : v.asStr? <;> simp [hs]

theorem ne_empty_of_size {n : Nat} (h : m.stack.size = n + 1) : m.stack ≠ #[] := by
  intro hEmpty
  simp [hEmpty] at h

/-- The frame rule of the machine: an instruction that does not address a slot, run on a stack
of exactly the values it takes, does the same with any stack slid beneath; so it never pops or
peeks past its operands. -/
theorem execute_withBase (op : Op) (hSlot : op.addressesSlot = false)
    (hTop : m.stack.size = op.pops) :
    (m.withBase base).execute c op = ((m.execute c op).1.withBase base, (m.execute c op).2) := by
  cases op <;> simp only [Op.addressesSlot, reduceCtorEq] at hSlot <;> simp only [Op.pops] at hTop
  case constant =>
    simp only [execute, readConstant_withBase]
    rcases m.readConstant c with ⟨m', r⟩
    cases r <;> simp [push_withBase]
  case nil | falseLit | trueLit => simp [execute, push_withBase]
  case pop => simp [execute, pop_withBase m base (ne_empty_of_size m hTop)]
  case equal =>
    have h₂ : m.pop.1.stack.size = 0 + 1 := by simp [hTop]
    simp [execute, pop_withBase m base (ne_empty_of_size m hTop),
      pop_withBase _ base (ne_empty_of_size _ h₂), push_withBase]
  case greater | less | subtract | multiply | divide =>
    have h₂ : m.pop.1.stack.size = 0 + 1 := by simp [hTop]
    simp only [execute, numbers_withBase m base (by omega)]
    split <;> simp [pop_withBase m base (ne_empty_of_size m hTop),
      pop_withBase _ base (ne_empty_of_size _ h₂), push_withBase]
  case add =>
    have h₂ : m.pop.1.stack.size = 0 + 1 := by simp [hTop]
    simp only [execute, peek_withBase m base (show 1 < m.stack.size by omega),
      peek_withBase m base (show 0 < m.stack.size by omega)]
    split
    · simp only [pop_withBase m base (ne_empty_of_size m hTop),
        pop_withBase _ base (ne_empty_of_size _ h₂), heap_withBase, withBase_heap, push_withBase]
    · simp [pop_withBase m base (ne_empty_of_size m hTop),
        pop_withBase _ base (ne_empty_of_size _ h₂), push_withBase]
    · rfl
  case not => simp [execute, pop_withBase m base (ne_empty_of_size m hTop), push_withBase]
  case negate =>
    simp only [execute, peek_withBase m base (show 0 < m.stack.size by omega)]
    split
    · simp [pop_withBase m base (ne_empty_of_size m hTop), push_withBase]
    · rfl
  case info =>
    simp only [execute, pop_withBase m base (ne_empty_of_size m hTop), sink_withBase]
    split <;> rfl
  case getGlobal =>
    simp only [execute, readName_withBase]
    rcases m.readName c with ⟨m', r⟩
    cases r with
    | error f => rfl
    | ok k => cases hv : m'.globals.get? k <;> simp [hv, push_withBase]
  case setGlobal =>
    simp only [execute, readName_withBase]
    rcases hr : m.readName c with ⟨m', r⟩
    cases r with
    | error f => rfl
    | ok k =>
      have hSize : m'.stack.size = 1 := by
        have hm' : m' = { m with ip := m.ip + 1 } := by rw [← readName_fst m c, hr]
        rw [hm']
        exact hTop
      simp only [peek_withBase m' base (show 0 < m'.stack.size by omega), globals_withBase]
      split <;> rfl
  case defineGlobal =>
    simp only [execute, readName_withBase]
    rcases hr : m.readName c with ⟨m', r⟩
    cases r with
    | error f => rfl
    | ok k =>
      have hSize : m'.stack.size = 0 + 1 := by
        have hm' : m' = { m with ip := m.ip + 1 } := by rw [← readName_fst m c, hr]
        rw [hm']
        exact hTop
      simp only [peek_withBase m' base (show 0 < m'.stack.size by omega), globals_withBase,
        withBase_globals]
      rw [pop_withBase { m' with globals := (m'.globals.insert k (m'.peek 0)).1 } base
        (ne_empty_of_size _ hSize)]
  case ret => rfl

end Frame

/-! ## One dispatch -/

section Step

/-- The machine as the instruction at its offset starts: moved past the opcode byte, counted,
and traced when tracing. -/
def dispatch (m : Machine) (c : Chunk) : Machine :=
  let m' := { m with lastOp := m.ip, ip := m.ip + 1, count := m.count + 1 }
  if m'.tracing then
    m'.emit (.trace ⟨c.code.getD m.ip 0, c.name, c.lineAt m'.lastOp, m'.lastOp, m'.stack.toList, c⟩)
  else m'

section Dispatch

variable (m : Machine) (c : Chunk)

-- Every field lemma below unfolds the dispatch and the trace it may log: their equations are
-- made once, here, and not by each lemma at once.
attribute [local simp] dispatch emit

@[simp] theorem dispatch_stack : (m.dispatch c).stack = m.stack := by
  by_cases h : m.tracing <;> simp [h]

@[simp] theorem dispatch_heap : (m.dispatch c).heap = m.heap := by
  by_cases h : m.tracing <;> simp [h]

@[simp] theorem dispatch_globals : (m.dispatch c).globals = m.globals := by
  by_cases h : m.tracing <;> simp [h]

@[simp] theorem dispatch_sink : (m.dispatch c).sink = m.sink := by
  by_cases h : m.tracing <;> simp [h]

@[simp] theorem dispatch_limit : (m.dispatch c).limit = m.limit := by
  by_cases h : m.tracing <;> simp [h]

@[simp] theorem dispatch_stackMax : (m.dispatch c).stackMax = m.stackMax := by
  by_cases h : m.tracing <;> simp [h]

@[simp] theorem dispatch_tracing : (m.dispatch c).tracing = m.tracing := by
  by_cases h : m.tracing <;> simp [h]

@[simp] theorem dispatch_ip : (m.dispatch c).ip = m.ip + 1 := by
  by_cases h : m.tracing <;> simp [h]

@[simp] theorem dispatch_lastOp : (m.dispatch c).lastOp = m.ip := by
  by_cases h : m.tracing <;> simp [h]

@[simp] theorem dispatch_count : (m.dispatch c).count = m.count + 1 := by
  by_cases h : m.tracing <;> simp [h]

end Dispatch

variable {c : Chunk}

/-- The checks a dispatch makes before the instruction at the offset executes, each with the
kind of error it reports when it fails: the instruction limit, that the byte is an instruction,
that its operand bytes are in the code, that the stack holds the values it takes, and that the
values it leaves fit under the stack limit. -/
inductive Stops (c : Chunk) (s : Machine) : FaultKind → Prop
  | limit : 0 < s.limit → s.limit ≤ s.count → Stops c s .instructionLimit
  | opcode : Op.ofByte? (c.code.getD s.ip 0) = none → Stops c s .invalidOpcode
  | operand {op : Op} : Op.ofByte? (c.code.getD s.ip 0) = some op →
      c.code.size < s.ip + 1 + op.operands → Stops c s .invalidOperand
  | underflow {op : Op} : Op.ofByte? (c.code.getD s.ip 0) = some op →
      s.stack.size < op.pops → Stops c s .stackUnderflow
  | overflow {op : Op} : Op.ofByte? (c.code.getD s.ip 0) = some op →
      s.stackMax < s.stack.size - op.pops + op.pushes → Stops c s .stackOverflow

/-- The checks of a dispatch all pass for the instruction `op` at the offset. -/
structure Passes (c : Chunk) (s : Machine) (op : Op) : Prop where
  opcode : Op.ofByte? (c.code.getD s.ip 0) = some op
  limit : s.limit = 0 ∨ s.count < s.limit
  operand : s.ip + 1 + op.operands ≤ c.code.size
  pops : op.pops ≤ s.stack.size
  room : s.stack.size - op.pops + op.pushes ≤ s.stackMax

/-- What an instruction that completes does, read off its table entry: the byte at the offset
is an instruction whose operand bytes lie within the code, the stack held the values it takes
and has room for those it leaves, the offset moves past the operand bytes, and the depth changes
by what it leaves less what it takes. -/
def Completes (c : Chunk) (s s' : Machine) : Prop :=
  ∃ b op, c.code[s.ip]? = some b ∧ Op.ofByte? b = some op ∧
    s.ip + 1 + op.operands ≤ c.code.size ∧ op.pops ≤ s.stack.size ∧
    s'.ip = s.ip + 1 + op.operands ∧ s'.stack.size + op.pops = s.stack.size + op.pushes ∧
    s'.stackMax = s.stackMax ∧ s'.stack.size ≤ s'.stackMax

theorem step_of_end {s : Machine} (h : c.code.size ≤ s.ip) : s.step c = (s, .halt) := by
  simp [step, h]

/-- Everything a dispatch can do. Past the code it ends the run on the machine as it is. Inside,
a check that fails stops it on the machine moved past the opcode byte and counted, with an error
of that check's kind at the offset; otherwise the instruction executes on the dispatched machine. -/
theorem step_cases {s s' : Machine} {o : Outcome} (h : s.step c = (s', o)) :
    (c.code.size ≤ s.ip ∧ s' = s ∧ o = .halt) ∨
    (s.ip < c.code.size ∧ s' = { s with lastOp := s.ip, ip := s.ip + 1, count := s.count + 1 } ∧
      ∃ f, o = .fault f ∧ Stops c s f.kind ∧ f.frame = ⟨c.name, c.lineAt s.ip, s.ip⟩) ∨
    (s.ip < c.code.size ∧ ∃ op, Passes c s op ∧ (s.dispatch c).execute c op = (s', o)) := by
  by_cases hEnd : c.code.size ≤ s.ip
  · rw [step_of_end hEnd] at h
    cases h
    exact .inl ⟨hEnd, rfl, rfl⟩
  have hIn : s.ip < c.code.size := by omega
  unfold step at h
  rw [if_neg hEnd] at h
  generalize hb : c.code.getD s.ip 0 = b at h
  dsimp only at h
  -- The checks, in the order the dispatch makes them.
  split at h
  · rename_i hLimit
    simp only [gt_iff_lt, Bool.and_eq_true, decide_eq_true_eq] at hLimit
    cases h
    exact .inr (.inl ⟨hIn, rfl, _, rfl, .limit hLimit.1 (by omega), rfl⟩)
  rename_i hLimit
  have hPass : s.limit = 0 ∨ s.count < s.limit := by
    simp only [gt_iff_lt, Bool.and_eq_true, decide_eq_true_eq, not_and, Nat.not_lt] at hLimit
    omega
  split at h
  · rename_i hNone
    cases h
    exact .inr (.inl ⟨hIn, rfl, _, rfl, .opcode (hb ▸ hNone), rfl⟩)
  rename_i op hOp
  split at h
  · cases h
    exact .inr (.inl ⟨hIn, rfl, _, rfl, .operand (hb ▸ hOp) (by omega), rfl⟩)
  split at h
  · cases h
    exact .inr (.inl ⟨hIn, rfl, _, rfl, .underflow (hb ▸ hOp) (by omega), rfl⟩)
  split at h
  · cases h
    exact .inr (.inl ⟨hIn, rfl, _, rfl, .overflow (hb ▸ hOp) (by omega), rfl⟩)
  subst hb
  exact .inr (.inr ⟨hIn, op, ⟨hOp, hPass, by omega, by omega, by omega⟩, h⟩)

theorem step_completes {s s' : Machine} {o : Outcome} (h : s.step c = (s', o))
    (hFault : o.isFault = false) (hIp : s.ip < c.code.size) : Completes c s s' := by
  rcases step_cases h with ⟨hEnd, -, -⟩ | ⟨-, -, f, rfl, -⟩ | ⟨-, op, hP, hExec⟩
  · omega
  · simp [Outcome.isFault] at hFault
  -- What remains is the instruction itself, on the dispatched machine.
  obtain ⟨hOp, -, hOperand, hPops, hRoom⟩ := hP
  have hIp' := execute_ip (s.dispatch c) c op
  have hS := execute_settled (s.dispatch c) c op
  have hSize := execute_size (s.dispatch c) c op (by rw [dispatch_stack]; exact hPops)
    (by rw [hExec]; exact hFault)
  rw [hExec, dispatch_ip] at hIp'
  rw [hExec, dispatch_stack] at hSize
  rw [hExec] at hS
  dsimp only at hIp' hSize
  have hMax : s'.stackMax = s.stackMax := hS.stackMax.trans (dispatch_stackMax s c)
  refine ⟨c.code.getD s.ip 0, op, by simp [Array.getD, hIp], hOp, hOperand, hPops, hIp', hSize, hMax,
    by omega⟩

theorem step_fault {s s' : Machine} {f : Fault} (h : s.step c = (s', .fault f)) :
    s.ip < c.code.size ∧ f.frame = ⟨c.name, c.lineAt s.ip, s.ip⟩ := by
  rcases step_cases h with ⟨-, -, hHalt⟩ | ⟨hIn, -, f', hf, -, hFrame⟩ | ⟨hIn, op, -, hExec⟩
  · cases hHalt
  · cases hf
    exact ⟨hIn, hFrame⟩
  · -- The instruction reports at the offset the dispatch recorded as the one dispatched last.
    exact ⟨hIn, by rw [execute_fault_frame _ c op (congrArg Prod.snd hExec), dispatch_lastOp]⟩

end Step

/-! ## Whole runs -/

section Run

variable {c : Chunk}

/-- `s'` follows from `s` after `n` instructions that each complete and let the run go on. -/
inductive Reaches (c : Chunk) : Machine → Nat → Machine → Prop
  | refl (s : Machine) : Reaches c s 0 s
  | step {s s' s'' : Machine} {n : Nat} :
      s.step c = (s', .proceed) → Reaches c s' n s'' → Reaches c s (n + 1) s''

/-- How a run ends at a machine whose next dispatch does not go on: a runtime error clears the
registers, the end of the code or `OP_RETURN` ends it as it is, and a held line pauses it. -/
def finish (c : Chunk) (s : Machine) : Option (Machine × Progress) :=
  match s.step c with
  | (m, .fault f) => some (m.reset, .finished (some f))
  | (m, .halt) => some (m, .finished none)
  | (m, .pause) => some (m, .paused)
  | (_, .proceed) => none

theorem ip_lt_of_proceed {s s' : Machine} (h : s.step c = (s', .proceed)) : s.ip < c.code.size := by
  refine Nat.lt_of_not_le fun hEnd => ?_
  rw [step_of_end hEnd] at h
  cases h

theorem Reaches.bounds {s s' : Machine} {n : Nat} (h : Reaches c s n s') (hIp : s.ip ≤ c.code.size)
    (hStack : s.stack.size ≤ s.stackMax) :
    s.ip + n ≤ s'.ip ∧ s'.ip ≤ c.code.size ∧ s'.stack.size ≤ s'.stackMax := by
  induction h with
  | refl s => exact ⟨by omega, hIp, hStack⟩
  | step hStep _ ih =>
    obtain ⟨b, op, -, -, hEnd, -, hNext, -, -, hFit⟩ :=
      step_completes hStep rfl (ip_lt_of_proceed hStep)
    obtain ⟨hMoved, hIn, hRoom⟩ := ih (by omega) hFit
    exact ⟨by omega, hIn, hRoom⟩

/-- A run is one path: from a machine whose path ends at `last`, every machine reached lies on
that path, no further along than `last`. -/
theorem Reaches.le_of_finish {s last u : Machine} {n k : Nat} (h : Reaches c s n last)
    (hLast : (finish c last).isSome) (hu : Reaches c s k u) : k ≤ n := by
  induction h generalizing k u with
  | refl s =>
    cases hu with
    | refl => exact Nat.le_refl 0
    | step hStep _ => simp [finish, hStep] at hLast
  | step hStep _ ih =>
    cases hu with
    | refl => omega
    | step hStep' hRest =>
      rw [hStep] at hStep'
      cases hStep'
      exact Nat.succ_le_succ (ih hLast hRest)

theorem runFor_ends (fuel : Nat) (s : Machine) (hIp : s.ip ≤ c.code.size)
    (hFuel : c.code.size + 1 ≤ fuel + s.ip) :
    ∃ n last, Reaches c s n last ∧ finish c last = some (runFor fuel s c) := by
  induction fuel generalizing s with
  | zero => omega
  | succ fuel ih =>
    rcases hStep : s.step c with ⟨s', o⟩
    cases o with
    | proceed =>
      have hIn := ip_lt_of_proceed hStep
      obtain ⟨b, op, -, -, hEnd, -, hNext, -, -, -⟩ := step_completes hStep rfl hIn
      obtain ⟨n, last, hReach, hFinish⟩ := ih s' (by omega) (by omega)
      refine ⟨n + 1, last, .step hStep hReach, ?_⟩
      rw [hFinish, runFor, hStep]
    | halt => exact ⟨0, s, .refl s, by simp [finish, runFor, hStep]⟩
    | fault f => exact ⟨0, s, .refl s, by simp [finish, runFor, hStep]⟩
    | pause => exact ⟨0, s, .refl s, by simp [finish, runFor, hStep]⟩

theorem finish_bounds {s : Machine} {r : Machine × Progress} (h : finish c s = some r)
    (hStack : s.stack.size ≤ s.stackMax) : r.1.stack.size ≤ r.1.stackMax := by
  unfold finish at h
  rcases hStep : s.step c with ⟨s', o⟩
  rw [hStep] at h
  cases o with
  | proceed => cases h
  | fault f => cases h; simp [reset]
  | halt | pause =>
    cases h
    by_cases hIn : s.ip < c.code.size
    · obtain ⟨b, op, -, -, -, -, -, -, -, hFit⟩ := step_completes hStep rfl hIn
      exact hFit
    · rw [step_of_end (by omega)] at hStep
      exact (Prod.mk.inj hStep).1 ▸ hStack

/-- A run of any chunk from any machine: it completes at most one instruction per code byte and
ends where the first dispatch does not go on; every machine it passes through has its offset in
the code and its stack under the limit; every instruction that completes does what its table
entry says, and one that addresses no slot sees only the values it takes; and the run ends
without an error, or with one at the offset of the last dispatched instruction and the stack
cleared. -/
theorem run_total_and_safe (m : Machine) (c : Chunk) :
    (∀ s s' o, s.step c = (s', o) → o.isFault = false → s.ip < c.code.size → Completes c s s') ∧
    (∀ (s : Machine) (op : Op) (base : Array Value), op.addressesSlot = false →
      s.stack.size = op.pops →
      (s.withBase base).execute c op = ((s.execute c op).1.withBase base, (s.execute c op).2)) ∧
    ∃ n last, Reaches c m.reset n last ∧
      n + (if last.ip < c.code.size then 1 else 0) ≤ c.code.size ∧
      finish c last = some (m.start c) ∧
      (∀ k s, Reaches c m.reset k s → k ≤ n ∧ s.ip ≤ c.code.size ∧ s.stack.size ≤ s.stackMax) ∧
      (m.run c).1.stack.size ≤ (m.run c).1.stackMax ∧
      ((m.run c).2 = none ∨ ∃ f, (m.run c).2 = some f ∧ last.ip < c.code.size ∧
        f.frame = ⟨c.name, c.lineAt last.ip, last.ip⟩ ∧ (m.run c).1.depth = 0) := by
  have hStart : m.reset.ip ≤ c.code.size ∧ m.reset.stack.size ≤ m.reset.stackMax := by
    simp [reset]
  obtain ⟨n, last, hReach, hFinish⟩ := runFor_ends (c := c) (c.code.size + 1) m.reset hStart.1
    (by omega)
  obtain ⟨hMoved, hIn, hFit⟩ := hReach.bounds hStart.1 hStart.2
  refine ⟨fun s s' o h hFault hIp => step_completes h hFault hIp,
    fun s op base hSlot hTop => execute_withBase s c base op hSlot hTop, n, last, hReach, ?_, hFinish,
    ?_, ?_, ?_⟩
  · -- The last dispatch, if there is one, is of a byte past those the completed ones used.
    split <;> simp [reset] at hMoved <;> omega
  · intro k s hk
    exact ⟨hReach.le_of_finish (by rw [hFinish]; rfl) hk,
      (hk.bounds hStart.1 hStart.2).2⟩
  · have hEnd := finish_bounds hFinish hFit
    simp only [run, start]
    split <;> simp_all
  · unfold finish at hFinish
    rcases hStep : last.step c with ⟨s', o⟩
    rw [hStep] at hFinish
    simp only [run, start]
    cases o with
    | proceed => cases hFinish
    | fault f =>
      obtain ⟨hIp, hFrame⟩ := step_fault hStep
      simp only [Option.some.injEq] at hFinish
      rw [← hFinish]
      exact .inr ⟨f, rfl, hIp, hFrame, by simp [depth, reset]⟩
    | halt | pause =>
      simp only [Option.some.injEq] at hFinish
      rw [← hFinish]
      exact .inl rfl

end Run

end Machine

end StackScript
