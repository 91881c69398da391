import StackScript.Proofs.Machine.Ending

/-! # The instruction limit cuts a run short

A machine counts the instructions it dispatches, and only the limit check reads the count or the
limit. So under a limit `n` a dispatch does what it does without one while the count stays below
`n` (`step_withLimit`), and the dispatch that would pass `n` fails with the instruction limit
error at its own offset (`step_withLimit_hit`).

A run dispatches `dispatches m c` instructions: each that lets it go on, and the one that ends
it unless it ran off the end of the code. Under a limit of at least that many, a run ends as the
run without a limit does; under a smaller limit `n` it fails where the run without a limit stands
after `n` instructions, with the output, globals and heap made by then
(`run_limit_truncates`). A negative limit is no limit, and every run counts from zero.
-/

namespace StackScript

set_option autoImplicit false

namespace Machine

/-- The machine with its instruction limit set to `n`. -/
def withLimit (m : Machine) (n : Nat) : Machine := { m with limit := n }

/-- The number of instructions a run dispatches from `m` within `fuel` dispatches: each that
lets it go on, and the last one, whatever it leads to, unless the run ends at the end of the
code. -/
def dispatchesFor : Nat → Machine → Chunk → Nat
  | 0, _, _ => 0
  | fuel + 1, m, c =>
    if c.code.size ≤ m.ip then 0
    else
      match m.step c with
      | (m', .proceed) => dispatchesFor fuel m' c + 1
      | _ => 1

/-- The number of instructions a run of `c` from `m` dispatches. -/
def dispatches (m : Machine) (c : Chunk) : Nat := dispatchesFor (c.code.size + 1) m.reset c

/-- The runtime error of a run stopped by its instruction limit at offset `ip`. -/
def limitFault (c : Chunk) (ip : Nat) : Fault :=
  ⟨.instructionLimit, Bytes.ofString "Instruction limit exceeded.", ⟨c.name, c.lineAt ip, ip⟩, none⟩

/-! ## What the limit does to one instruction -/

section Limit

variable (m : Machine) (c : Chunk) (n : Nat)

@[simp] theorem fault_withLimit : (m.withLimit n).fault = m.fault := rfl
@[simp] theorem undefined_withLimit : (m.withLimit n).undefined = m.undefined := rfl
@[simp] theorem stack_withLimit : (m.withLimit n).stack = m.stack := rfl
@[simp] theorem stackMax_withLimit : (m.withLimit n).stackMax = m.stackMax := rfl
@[simp] theorem sink_withLimit : (m.withLimit n).sink = m.sink := rfl
@[simp] theorem tracing_withLimit : (m.withLimit n).tracing = m.tracing := rfl
@[simp] theorem globals_withLimit : (m.withLimit n).globals = m.globals := rfl
@[simp] theorem ip_withLimit : (m.withLimit n).ip = m.ip := rfl
@[simp] theorem count_withLimit : (m.withLimit n).count = m.count := rfl
@[simp] theorem limit_withLimit : (m.withLimit n).limit = n := rfl
@[simp] theorem peek_withLimit : (m.withLimit n).peek = m.peek := rfl
@[simp] theorem numbers_withLimit : (m.withLimit n).numbers = m.numbers := rfl

theorem pop_withLimit : (m.withLimit n).pop = (m.pop.1.withLimit n, m.pop.2) := rfl

theorem reset_withLimit : (m.withLimit n).reset = m.reset.withLimit n := rfl

theorem setLimit_eq (i : Int) : m.setLimit i = m.withLimit i.toNat := rfl

theorem readConstant_withLimit :
    (m.withLimit n).readConstant c = ((m.readConstant c).1.withLimit n, (m.readConstant c).2) := by
  simp only [readConstant, operand, withLimit]
  split <;> rfl

theorem readName_withLimit :
    (m.withLimit n).readName c = ((m.readName c).1.withLimit n, (m.readName c).2) := by
  simp only [readName, readConstant_withLimit]
  rcases m.readConstant c with ⟨m', r⟩
  cases r with
  | error f => rfl
  | ok v => cases hs : v.asStr? <;> simp [hs]

/-- No instruction reads the limit. -/
theorem execute_withLimit (op : Op) :
    (m.withLimit n).execute c op = ((m.execute c op).1.withLimit n, (m.execute c op).2) := by
  cases op
  case constant =>
    simp only [execute, readConstant_withLimit]
    rcases m.readConstant c with ⟨m', r⟩
    cases r <;> rfl
  case getGlobal =>
    simp only [execute, readName_withLimit]
    rcases m.readName c with ⟨m', r⟩
    cases r with
    | error f => rfl
    | ok k => simp only [globals_withLimit]; cases m'.globals.get? k <;> rfl
  case setGlobal =>
    simp only [execute, readName_withLimit]
    rcases m.readName c with ⟨m', r⟩
    cases r with
    | error f => rfl
    | ok k =>
      simp only [globals_withLimit, peek_withLimit]
      by_cases h : (m'.globals.insert k (m'.peek 0)).2 = true <;> simp only [h, ↓reduceIte] <;> rfl
  case defineGlobal =>
    simp only [execute, readName_withLimit]
    rcases m.readName c with ⟨m', r⟩
    cases r <;> rfl
  case info =>
    simp only [execute, pop_withLimit, sink_withLimit]
    cases m.pop.1.sink <;> rfl
  case getLocal | setLocal =>
    simp only [execute, operand, withLimit]
    by_cases h : (c.code.getD m.ip 0).toNat < m.stack.size <;>
      simp only [h, ↓reduceDIte, ↓reduceIte] <;> rfl
  all_goals simp only [execute, pop_withLimit, numbers_withLimit, peek_withLimit]
  all_goals (try split) <;> rfl

/-- Below the limit, a dispatch on a machine without a limit does what it does with one. -/
theorem step_withLimit (hFree : m.limit = 0) (hRoom : m.count < n) :
    (m.withLimit n).step c = ((m.step c).1.withLimit n, (m.step c).2) := by
  unfold step
  by_cases hEnd : m.ip ≥ c.code.size
  · simp only [ip_withLimit, hEnd, if_true]
  simp only [ip_withLimit, hEnd, if_false, count_withLimit, limit_withLimit, hFree]
  -- Neither limit check fires: there is no limit on one side, and room under `n` on the other.
  simp only [gt_iff_lt, show ¬ n < m.count + 1 by omega, decide_false, Bool.and_false,
    lt_self_iff_false, Bool.false_and, Bool.false_eq_true, if_false, stack_withLimit,
    stackMax_withLimit, tracing_withLimit]
  rcases hOp : Op.ofByte? (c.code.getD m.ip 0) with _ | op
  · rfl
  · simp only
    split_ifs <;> try rfl
    all_goals
      rename_i hTrace
      simp only [hTrace, ↓reduceIte]
      rw [← execute_withLimit]
      rfl

/-- At the limit, the dispatch fails with the instruction limit error at its offset, before it
looks at the byte there. -/
theorem step_withLimit_hit (hIp : m.ip < c.code.size) (hPos : 0 < n) (hHit : n ≤ m.count) :
    (m.withLimit n).step c =
      ({ m with lastOp := m.ip, ip := m.ip + 1, count := m.count + 1, limit := n },
        .fault (limitFault c m.ip)) := by
  have hPass : n < m.count + 1 := by omega
  simp [step, hPos, hPass, Nat.not_le.mpr hIp, fault, limitFault, withLimit]

end Limit

/-! ## What one dispatch does to the count -/

section Count

variable {m : Machine} {c : Chunk}

/-- A dispatch inside the code counts one instruction, whatever it leads to. -/
theorem step_count {s : Machine} {o : Outcome} (h : m.step c = (s, o)) (hIn : m.ip < c.code.size) :
    s.count = m.count + 1 := by
  rcases step_cases h with ⟨hEnd, -⟩ | ⟨-, rfl, -⟩ | ⟨-, op, -, hExec⟩
  · omega
  · rfl
  · have hS := execute_settled (m.dispatch c) c op
    rw [hExec] at hS
    exact hS.count.trans (dispatch_count m c)

end Count

/-! ## Runs under a limit -/

section Run

variable {c : Chunk}

theorem Reaches.count {s s' : Machine} {k : Nat} (h : Reaches c s k s') : s'.count = s.count + k := by
  induction h with
  | refl s => rfl
  | step hStep _ ih =>
    rw [ih, step_count hStep (ip_lt_of_proceed hStep)]
    omega

/-- A run without a limit whose count stays within `n` is also a run under the limit `n`. -/
theorem Reaches.withLimit {s s' : Machine} {k : Nat} (h : Reaches c s k s') (n : Nat)
    (hFree : s.limit = 0) (hRoom : s.count + k ≤ n) : Reaches c (s.withLimit n) k (s'.withLimit n) := by
  induction h with
  | refl s => exact .refl _
  | @step s s₁ s' k hStep _ ih =>
    have hStep' := step_withLimit s c n hFree (by omega)
    rw [hStep] at hStep'
    have hFree₁ : s₁.limit = 0 := by
      have hSame := (step_settings s c).limit
      rw [hStep] at hSame
      exact hSame.trans hFree
    have hCount := step_count hStep (ip_lt_of_proceed hStep)
    exact .step hStep' (ih hFree₁ (by omega))

/-- Two paths of a run that both reach a machine where the run stops are the same path. -/
theorem Reaches.eq_of_finish {s a b : Machine} {k l : Nat} (ha : Reaches c s k a)
    (hFa : (finish c a).isSome) (hb : Reaches c s l b) (hFb : (finish c b).isSome) : k = l ∧ a = b := by
  have hkl : k = l := Nat.le_antisymm (hb.le_of_finish hFb ha) (ha.le_of_finish hFa hb)
  subst hkl
  exact ⟨rfl, ha.det hb⟩

/-- A run from the start is told by any path to a machine where it stops. -/
theorem start_eq_of_finish {m u : Machine} {k : Nat} {r : Machine × Progress}
    (hR : Reaches c m.reset k u) (hF : finish c u = some r) : m.start c = r := by
  obtain ⟨n, last, hReach, hFinish⟩ := runFor_ends (c := c) (c.code.size + 1) m.reset
    (by simp [reset]) (by simp [reset])
  obtain ⟨-, rfl⟩ := hReach.eq_of_finish (by rw [hFinish]; rfl) hR (by rw [hF]; rfl)
  rw [hF] at hFinish
  exact (Option.some.inj hFinish).symm

/-- Where the run without a limit stops below the limit, the run under it stops alike. -/
theorem finish_withLimit {s : Machine} {r : Machine × Progress} (h : finish c s = some r) (n : Nat)
    (hFree : s.limit = 0) (hRoom : s.ip < c.code.size → s.count < n) :
    finish c (s.withLimit n) = some (r.1.withLimit n, r.2) := by
  by_cases hIn : s.ip < c.code.size
  · unfold finish at h ⊢
    rw [step_withLimit s c n hFree (hRoom hIn)]
    rcases hs : s.step c with ⟨s', o⟩
    rw [hs] at h
    cases o with
    | proceed => cases h
    | fault f | halt | pause => cases h; rfl
  · have hEnd : c.code.size ≤ s.ip := by omega
    unfold finish at h ⊢
    rw [step_of_end hEnd] at h
    rw [step_of_end (by simpa using hEnd)]
    cases h
    rfl

/-- The path of a run and where it stops: `n` instructions that go on, then the stop. -/
theorem dispatchesFor_eq {s last : Machine} {k : Nat} (h : Reaches c s k last) (hF : (finish c last).isSome)
    (fuel : Nat) (hIp : s.ip ≤ c.code.size) (hFuel : c.code.size + 1 ≤ fuel + s.ip) :
    dispatchesFor fuel s c = k + if last.ip < c.code.size then 1 else 0 := by
  induction h generalizing fuel with
  | refl s =>
    obtain ⟨fuel, rfl⟩ : ∃ f, fuel = f + 1 := ⟨fuel - 1, by omega⟩
    by_cases hEnd : c.code.size ≤ s.ip
    · simp [dispatchesFor, hEnd]
    · rcases hStep : s.step c with ⟨s', o⟩
      cases o <;> simp_all [dispatchesFor, finish]
  | @step s s₁ _ k hStep _ ih =>
    have hIn := ip_lt_of_proceed hStep
    obtain ⟨-, op, -, -, hEnd, -, hNext, -, -, -⟩ := step_completes hStep rfl hIn
    obtain ⟨fuel, rfl⟩ : ∃ f, fuel = f + 1 := ⟨fuel - 1, by omega⟩
    simp only [dispatchesFor, Nat.not_le.mpr hIn, if_false, hStep]
    rw [ih hF fuel (by omega) (by omega)]
    omega

/-- The count of a run: the instructions that go on before the machine where it stops, and the
one dispatched there unless it stands at the end of the code. -/
theorem dispatches_eq {m last : Machine} {k : Nat} (h : Reaches c m.reset k last)
    (hF : (finish c last).isSome) : dispatches m c = k + if last.ip < c.code.size then 1 else 0 :=
  dispatchesFor_eq h hF _ (by simp [reset]) (by simp [reset])

/-- The first `j` instructions of a path lead to a machine from which the rest follows. -/
theorem Reaches.split {s t : Machine} {k : Nat} (h : Reaches c s k t) {j : Nat} (hj : j ≤ k) :
    ∃ u, Reaches c s j u ∧ Reaches c u (k - j) t := by
  induction h generalizing j with
  | refl s => exact ⟨s, by rw [Nat.le_zero.mp hj]; exact .refl s, by simpa using .refl s⟩
  | @step s s₁ _ k hStep hRest ih =>
    cases j with
    | zero => exact ⟨s, .refl s, by simpa using .step hStep hRest⟩
    | succ j =>
      obtain ⟨u, hu, hRest'⟩ := ih (by omega : j ≤ k)
      exact ⟨u, .step hStep hu, by simpa using hRest'⟩

/-- A machine from which the run goes on stands inside the code. -/
theorem Reaches.ip_lt {s t : Machine} {k : Nat} (h : Reaches c s k t) (hk : 0 < k) : s.ip < c.code.size := by
  cases h with
  | refl => omega
  | step hStep _ => exact ip_lt_of_proceed hStep

theorem run_eq_of_start {m : Machine} {r : Machine × Progress} (h : m.start c = r) :
    m.run c = (r.1, match r.2 with | .finished f => f | .paused => none) := by
  simp only [run, h]
  rcases r with ⟨s, _ | _⟩ <;> rfl

/-- **The instruction limit truncates the run without one.** Take any chunk, any machine and a
limit `L > 0`, and let the run without a limit dispatch `k` instructions. If `k ≤ L`, the run
under `L` ends as the run without a limit does: the same machine, with its output, globals and
heap, and the same result. Otherwise it fails with the instruction limit error at the offset of
the `(L+1)`-th instruction the run without a limit dispatches, leaving the output, globals and
heap that run had after its first `L` instructions. A negative limit is no limit, and the count a
machine holds before a run does not matter. -/
theorem run_limit_truncates (m : Machine) (c : Chunk) (L : Int) (hL : 0 < L) :
    (dispatches (m.setLimit 0) c ≤ L.toNat →
      (m.setLimit L).run c = (((m.setLimit 0).run c).1.setLimit L, ((m.setLimit 0).run c).2)) ∧
    (L.toNat < dispatches (m.setLimit 0) c →
      ∃ s, Reaches c (m.setLimit 0).reset L.toNat s ∧ s.ip < c.code.size ∧
        (m.setLimit L).run c = (s.reset.setLimit L, some (limitFault c s.ip))) ∧
    (∀ i : Int, i < 0 → (m.setLimit i).run c = (m.setLimit 0).run c) ∧
    (∀ j : Nat, ({ m with count := j } : Machine).run c = m.run c) := by
  set free := m.setLimit 0 with hFreeDef
  have hFree : free.reset.limit = 0 := by simp [hFreeDef, setLimit, reset]
  have hLimited : (m.setLimit L).reset = free.reset.withLimit L.toNat := rfl
  have hPos : 0 < L.toNat := by omega
  obtain ⟨n, last, hReach, hFinish⟩ := runFor_ends (c := c) (c.code.size + 1) free.reset
    (by simp [reset]) (by simp [reset])
  have hStop : (finish c last).isSome := by rw [hFinish]; rfl
  have hCount : last.count = n := by rw [hReach.count]; simp [reset]
  have hK := dispatches_eq hReach hStop
  refine ⟨fun hk => ?_, fun hk => ?_, fun i hi => ?_, fun j => rfl⟩
  · -- The whole run fits under the limit: it is also the run under the limit.
    have hRun := hReach.withLimit L.toNat hFree (by simp [reset]; omega)
    have hLastFree : last.limit = 0 := by rw [hReach.settings.limit, hFree]
    have hEnd := finish_withLimit hFinish L.toNat hLastFree (by
      intro hIn
      rw [hCount]
      simp [hIn] at hK
      omega)
    rw [← hLimited] at hRun
    have hStart := start_eq_of_finish hRun hEnd
    rw [run_eq_of_start hStart, run_eq_of_start (rfl : free.start c = _)]
    rfl
  · -- The run passes the limit: the `L` instructions before it run under the limit too.
    obtain ⟨s, hs, hIn⟩ : ∃ s, Reaches c free.reset L.toNat s ∧ s.ip < c.code.size := by
      by_cases hLt : L.toNat < n
      · obtain ⟨u, hu, hRest⟩ := hReach.split hLt.le
        exact ⟨u, hu, hRest.ip_lt (by omega)⟩
      · have hEq : L.toNat = n := by split at hK <;> omega
        refine ⟨last, hEq ▸ hReach, ?_⟩
        by_contra hOut
        simp [hOut] at hK
        omega
    have hsCount : s.count = L.toNat := by rw [hs.count]; simp [reset]
    have hsFree : s.limit = 0 := by rw [(hs.settings).limit, hFree]
    have hRun := hs.withLimit L.toNat hFree (by simp [reset])
    rw [← hLimited] at hRun
    have hHit : finish c (s.withLimit L.toNat) =
        some (s.reset.withLimit L.toNat, .finished (some (limitFault c s.ip))) := by
      simp only [finish, step_withLimit_hit s c L.toNat hIn hPos (by omega)]
      rfl
    refine ⟨s, hs, hIn, ?_⟩
    rw [run_eq_of_start (start_eq_of_finish hRun hHit)]
    rfl
  · -- A negative limit is stored as none.
    simp only [setLimit_eq, Int.toNat_of_nonpos hi.le]
    rfl

end Run

/-- Under a limit of two, a run of five instructions stops at the third, at offset 2. -/
theorem run_limit_truncates_two :
    let c : Chunk := ⟨"", #[Op.nil.code, Op.pop.code, Op.nil.code, Op.pop.code, Op.ret.code],
      #[1, 1, 1, 1, 1], #[]⟩
    dispatches (Machine.new.setLimit 0) c = 5 ∧ (0 : Int) < 2 ∧
    ((dispatches (Machine.new.setLimit 0) c ≤ (2 : Int).toNat →
      (Machine.new.setLimit 2).run c =
        (((Machine.new.setLimit 0).run c).1.setLimit 2, ((Machine.new.setLimit 0).run c).2)) ∧
    ((2 : Int).toNat < dispatches (Machine.new.setLimit 0) c →
      ∃ s, Reaches c (Machine.new.setLimit 0).reset (2 : Int).toNat s ∧ s.ip < c.code.size ∧
        (Machine.new.setLimit 2).run c = (s.reset.setLimit 2, some (limitFault c s.ip))) ∧
    (∀ i : Int, i < 0 → (Machine.new.setLimit i).run c = (Machine.new.setLimit 0).run c) ∧
    (∀ j : Nat, ({ Machine.new with count := j } : Machine).run c = Machine.new.run c)) := by
  intro c
  exact ⟨by decide +kernel, by decide, run_limit_truncates Machine.new c 2 (by decide)⟩

end Machine

end StackScript
