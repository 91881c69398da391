import StackScript.Proofs.Machine.Limit
import StackScript.Proofs.Bytecode.Listing

/-! # Traces follow the instruction walk

A tracing machine records, for each instruction whose dispatch checks pass, a trace step before
the instruction executes: the op code byte, the chunk's name, the line and the offset of the
instruction, and the stack as the instruction finds it (`traceAt`).

An instruction that completes moves the offset past its operand bytes, so a run stands at the
starts of the listing's walk one after another (`Reaches.starts`). The offsets a run traces are
therefore the first starts of the walk, in order; the trace writer shows for each the row that
the listing shows at that offset; and a listing fails only where the walk itself ends at an
instruction cut off by the end of the code (`trace_follows_walk`).
-/

namespace StackScript

set_option autoImplicit false

/-- The trace step an effect records, if it records one. -/
def Effect.trace? : Effect → Option TraceStep
  | .trace t => some t
  | _ => none

namespace Machine

/-- The trace steps a machine has recorded, in order. -/
def traces (m : Machine) : List TraceStep := m.log.toList.filterMap Effect.trace?

/-- The trace step of the instruction at the machine's offset, with the stack it finds. -/
def traceAt (m : Machine) (c : Chunk) : TraceStep :=
  ⟨c.code.getD m.ip 0, c.name, c.lineAt m.ip, m.ip, m.stack.toList, c⟩

/-- What a dispatch from `m` records once its checks pass: its trace step, when tracing. -/
def traceOf (m : Machine) (c : Chunk) : List TraceStep := if m.tracing then [m.traceAt c] else []

section Traces

variable (m : Machine) (c : Chunk)

@[simp] theorem traces_emit_output (line : Bytes) : (m.emit (.output line)).traces = m.traces := by
  simp [traces, emit, Effect.trace?]

@[simp] theorem traces_emit_trace (t : TraceStep) : (m.emit (.trace t)).traces = m.traces ++ [t] := by
  simp [traces, emit, Effect.trace?]

@[simp] theorem traces_reset : m.reset.traces = m.traces := rfl

theorem dispatch_traces : (m.dispatch c).traces = m.traces ++ m.traceOf c := by
  by_cases h : m.tracing <;> simp [dispatch, traceOf, traceAt, h, traces, emit, Effect.trace?]

/-- An instruction records no trace step. -/
theorem execute_traces (op : Op) : (m.execute c op).1.traces = m.traces := by
  cases op
  case constant =>
    obtain ⟨r, hr⟩ := readConstant_eq m c
    cases r <;> simp [execute, hr, push, traces]
  case getGlobal | setGlobal | defineGlobal =>
    obtain ⟨r, hr⟩ := readName_eq m c
    cases r with
    | error f => simp [execute, hr, traces]
    | ok k => simp only [execute, hr]; (try split) <;> simp [push, pop, traces]
  case getLocal | setLocal => simp only [execute]; split <;> simp [operand, push, traces]
  all_goals simp only [execute]
  all_goals (try split) <;> simp [push, pop, traces, emit, Effect.trace?]

/-- A dispatch keeps the tracing switch, and records the trace step of its instruction exactly
when its checks pass. -/
theorem step_traces :
    (m.step c).1.tracing = m.tracing ∧
      (((m.step c).1.traces = m.traces ∧ (m.step c).2 ≠ .proceed) ∨
        (m.ip < c.code.size ∧ (m.step c).1.traces = m.traces ++ m.traceOf c)) := by
  rcases hs : m.step c with ⟨s, o⟩
  -- A dispatch that stops at a check leaves the log as it was.
  rcases step_cases hs with ⟨-, rfl, rfl⟩ | ⟨-, rfl, f, rfl, -⟩ | ⟨hIn, op, -, hExec⟩
  · exact ⟨rfl, .inl ⟨rfl, fun h => Outcome.noConfusion h⟩⟩
  · exact ⟨rfl, .inl ⟨rfl, fun h => Outcome.noConfusion h⟩⟩
  · have hS := execute_settled (m.dispatch c) c op
    have hTraces := execute_traces (m.dispatch c) c op
    rw [hExec] at hS hTraces
    rw [dispatch_traces] at hTraces
    exact ⟨hS.tracing.trans (dispatch_tracing m c), .inr ⟨hIn, hTraces⟩⟩

end Traces

/-! ## Runs -/

section Run

variable {c : Chunk}

/-- Along a path of instructions that go on, each records its trace step in turn: the `k`-th
step recorded is that of the machine `k` instructions along. -/
theorem Reaches.traces {s t : Machine} {n : Nat} (h : Reaches c s n t) :
    t.tracing = s.tracing ∧ ∃ L, t.traces = s.traces ++ L ∧ L.length = (if s.tracing then n else 0) ∧
      ∀ k x, L[k]? = some x → ∃ u, Reaches c s k u ∧ u.ip < c.code.size ∧ x = u.traceAt c := by
  induction h with
  | refl s => exact ⟨rfl, [], by simp, by simp, by simp⟩
  | @step s s' t n hStep hRest ih =>
    obtain ⟨hTr, L, hL, hLen, hIdx⟩ := ih
    obtain ⟨hTr', hCases⟩ := step_traces s c
    rw [hStep] at hTr' hCases
    rcases hCases with ⟨-, hStop⟩ | ⟨hIn, hTraces⟩
    · exact absurd rfl hStop
    rw [hTr'] at hLen
    refine ⟨hTr.trans hTr', s.traceOf c ++ L, by rw [hL, hTraces, List.append_assoc], ?_, ?_⟩
    · by_cases hOn : s.tracing <;> simp [traceOf, hOn, hLen]
    · by_cases hOn : s.tracing
      · -- the first step recorded is this instruction's, the rest come from the path after it
        rintro (_ | k) x hx
        · simp only [traceOf, hOn, if_true, List.singleton_append, List.getElem?_cons_zero,
            Option.some.injEq] at hx
          exact ⟨s, .refl s, hIn, hx.symm⟩
        · simp only [traceOf, hOn, if_true, List.singleton_append, List.getElem?_cons_succ] at hx
          obtain ⟨u, hu, huIn, rfl⟩ := hIdx k x hx
          exact ⟨u, .step hStep hu, huIn, rfl⟩
      · -- without tracing nothing is recorded
        have hNil : L = [] := by
          rw [← List.length_eq_zero_iff, hLen]
          simp [hOn]
        simp [traceOf, hOn, hNil]

/-- Along a path of instructions that go on, the machine stands at the starts of the walk in
turn. -/
theorem Reaches.starts {s t : Machine} {n : Nat} (h : Reaches c s n t) :
    (c.starts s.ip).drop n = c.starts t.ip := by
  induction h with
  | refl s => rfl
  | @step s s' t n hStep hRest ih =>
    have hIn := ip_lt_of_proceed hStep
    obtain ⟨b, op, hb, hOp, -, -, hNext, -⟩ := step_completes hStep rfl hIn
    have hSpan : s.ip + opSpan (c.code.getD s.ip 0) = s'.ip := by
      rw [Array.getD_eq_getD_getElem?, hb, Option.getD_some, opSpan_of_op hOp, hNext]
      omega
    rw [Chunk.starts_of_lt hIn, List.drop_succ_cons, hSpan, ih]

/-- The machine `k` instructions along a path stands at the `k`-th start of the walk from where
the path begins. -/
theorem Reaches.getElem?_starts {s u : Machine} {k : Nat} (h : Reaches c s k u)
    (hIn : u.ip < c.code.size) : (c.starts s.ip)[k]? = some u.ip := by
  have hDrop := congrArg (·[0]?) h.starts
  simp only [List.getElem?_drop, Nat.add_zero, Chunk.starts_of_lt hIn, List.getElem?_cons_zero] at hDrop
  exact hDrop

/-- Where a run stops, the last dispatch records at most its own trace step, and only from inside
the code. -/
theorem finish_traces {s : Machine} {r : Machine × Progress} (h : finish c s = some r) :
    ∃ L, r.1.traces = s.traces ++ L ∧ L <+: s.traceOf c ∧ (L ≠ [] → s.ip < c.code.size) := by
  obtain ⟨-, hCases⟩ := step_traces s c
  unfold finish at h
  rcases hs : s.step c with ⟨s', o⟩
  rw [hs] at h hCases
  -- A runtime error clears the registers, which leaves the effects.
  have hr : r.1.traces = s'.traces := by
    cases o <;> simp only [Option.some.injEq, reduceCtorEq] at h <;> (subst h; rfl)
  rcases hCases with ⟨hSame, -⟩ | ⟨hIn, hTraces⟩
  · exact ⟨[], by rw [hr, hSame, List.append_nil], List.nil_prefix, fun hNe => absurd rfl hNe⟩
  · exact ⟨s.traceOf c, by rw [hr, hTraces], List.prefix_refl _, fun _ => hIn⟩

/-- The trace steps a run records: the `k`-th is that of the machine `k` instructions into the
run, standing in the code. When tracing, every instruction that completes is among them; without
tracing there are none. -/
theorem run_traces (m : Machine) (c : Chunk) :
    ∃ ts, (m.run c).1.traces = m.traces ++ ts ∧
      (∀ k t, ts[k]? = some t → ∃ s, Reaches c m.reset k s ∧ s.ip < c.code.size ∧ t = s.traceAt c) ∧
      (m.tracing = true → ∀ k s, Reaches c m.reset (k + 1) s → k < ts.length) ∧
      (m.tracing = false → ts = []) := by
  obtain ⟨n, last, hReach, hFinish⟩ := runFor_ends (c := c) (c.code.size + 1) m.reset
    (by simp [reset]) (by simp [reset])
  obtain ⟨hTr, L, hL, hLen, hIdx⟩ := hReach.traces
  obtain ⟨L', hL', ⟨rest, hRest⟩, hIn⟩ := finish_traces hFinish
  have hRun : (m.run c).1.traces = m.traces ++ (L ++ L') := by
    rw [run_eq_of_start rfl]
    exact hL'.trans (by rw [hL, List.append_assoc]; rfl)
  refine ⟨L ++ L', hRun, ?_⟩
  cases hOn : m.tracing
  · -- without tracing, neither the path nor the stop records anything
    have hNil : L = [] := List.length_eq_zero_iff.mp (by simpa [reset, hOn] using hLen)
    have hNil' : L' = [] := by
      simp only [traceOf, hTr, reset, hOn, Bool.false_eq_true, if_false] at hRest
      exact (List.append_eq_nil_iff.mp hRest).1
    subst hNil hNil'
    exact ⟨by simp, fun h => Bool.noConfusion h, fun _ => rfl⟩
  · have hLenN : L.length = n := by simpa [reset, hOn] using hLen
    simp only [traceOf, hTr, reset, hOn, if_true] at hRest
    refine ⟨?_, fun _ k s hs => ?_, fun h => Bool.noConfusion h⟩
    · intro k t hk
      rcases Nat.lt_or_ge k L.length with hk' | hk'
      · rw [List.getElem?_append_left hk'] at hk
        exact hIdx k t hk
      · rw [List.getElem?_append_right hk'] at hk
        rcases List.append_eq_singleton_iff.mp hRest with ⟨rfl, -⟩ | ⟨rfl, -⟩
        · simp at hk
        · -- the stop records the step of the machine it stops at
          have hk0 : k = L.length := by
            by_contra hNe
            rw [List.getElem?_eq_none (by simp only [List.length_singleton]; omega)] at hk
            cases hk
          subst hk0
          simp only [Nat.sub_self, List.getElem?_cons_zero, Option.some.injEq] at hk
          exact ⟨last, hLenN ▸ hReach, hIn (List.cons_ne_nil _ _), hk.symm⟩
    · have := hReach.le_of_finish (by rw [hFinish]; rfl) hs
      simp only [List.length_append]
      omega

/-- **The machine, the tracer and the listing read one instruction stream.** A run of any chunk
from any machine records, when tracing, one trace step for each instruction whose dispatch checks
pass, and none otherwise. The `k`-th step is that of the machine `k` instructions into the run:
it carries the op code byte at its offset, the line of that offset and the stack the instruction
finds, and the trace writer shows for it the row of the listing at that offset. So the offsets
traced are the first starts of the listing's walk, in order. The listing shows a row for every
start of the walk, and fails exactly when the walk ends at an instruction whose operand lies past
the end of the code. -/
theorem trace_follows_walk (m : Machine) (c : Chunk) (name : String) (started : Bool) :
    ∃ ts : List TraceStep, (m.run c).1.traces = m.traces ++ ts ∧
      ts.map TraceStep.ip <+: (c.starts 0).map (fun d : Nat => (d : Int)) ∧
      (∀ k t, ts[k]? = some t → ∃ s, Reaches c m.reset k s ∧ s.ip < c.code.size ∧ t = s.traceAt c ∧
        (Listing.instruction t.chunk t.ip).1 = (Listing.row c s.ip (Listing.repeatsByte c s.ip)).text) ∧
      (m.tracing = true → ∀ k s, Reaches c m.reset (k + 1) s → k < ts.length) ∧
      (m.tracing = false → ts = []) ∧
      (Listing.chunkSection c name started).1 = Listing.header c name started ++
        ((c.starts 0).map fun d => (Listing.row c d (Listing.repeatsByte c d)).text).flatten ∧
      ((Listing.chunkSection c name started).2 = some Listing.truncated ↔
        ∃ d ∈ c.starts 0, ∃ op, Op.ofByte? (c.code.getD d 0) = some op ∧
          c.code.size < d + 1 + op.operands) ∧
      ((Listing.chunkSection c name started).2 = none ↔
        ¬ ∃ d ∈ c.starts 0, ∃ op, Op.ofByte? (c.code.getD d 0) = some op ∧
          c.code.size < d + 1 + op.operands) := by
  obtain ⟨ts, hRun, hSteps, hAll, hNone⟩ := run_traces m c
  refine ⟨ts, hRun, ?_, fun k t hk => ?_, hAll, hNone,
    congrArg Prod.fst (Listing.chunkSection_eq c name started),
    Listing.chunkSection_fails_iff c name started, Listing.chunkSection_ok_iff c name started⟩
  · -- each traced offset is the start of the walk at its place
    rw [List.prefix_iff_getElem?]
    intro i hi
    have hi' : i < ts.length := by simpa using hi
    obtain ⟨s, hs, hIn, ht⟩ := hSteps i ts[i] (List.getElem?_eq_getElem hi')
    have hStart : (c.starts 0)[i]? = some s.ip := hs.getElem?_starts hIn
    simp only [List.getElem?_map, hStart, Option.map_some, List.getElem_map, ht, traceAt]
  · obtain ⟨s, hs, hIn, rfl⟩ := hSteps k t hk
    refine ⟨s, hs, hIn, rfl, ?_⟩
    show (Listing.instruction c s.ip).1 = _
    rw [Listing.instruction_of_lt hIn]

end Run

end Machine

end StackScript
