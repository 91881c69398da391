import StackScript.Proofs.Machine.Checked

/-! # Where a run ends

A run never changes where its output goes, its instruction limit or its stack limit
(`SameLimits`, kept by every dispatch and so by every run: `run_settings`). Inside the code, a
dispatch ends the run without an error only at a return (`step_halt`) and pauses only on a
machine whose output waits (`step_pause`). On a checked chunk whose only return is its last
instruction, a run that ends without an error on a machine that never waits has passed all of
the code before the return (`Chunk.Checked.ran_through`).
-/

namespace StackScript

set_option autoImplicit false

namespace Machine

/-- Two machines with the same sink, instruction limit and stack limit. -/
structure SameLimits (m m' : Machine) : Prop where
  sink : m'.sink = m.sink
  limit : m'.limit = m.limit
  stackMax : m'.stackMax = m.stackMax

theorem SameLimits.refl (m : Machine) : SameLimits m m := ⟨rfl, rfl, rfl⟩

theorem SameLimits.trans {m₁ m₂ m₃ : Machine} (h₁ : SameLimits m₁ m₂) (h₂ : SameLimits m₂ m₃) :
    SameLimits m₁ m₃ :=
  ⟨h₂.sink.trans h₁.sink, h₂.limit.trans h₁.limit, h₂.stackMax.trans h₁.stackMax⟩

theorem sameLimits_reset (m : Machine) : SameLimits m m.reset := ⟨rfl, rfl, rfl⟩

section Dispatch

variable (m : Machine) (c : Chunk)

theorem step_settings : SameLimits m (m.step c).1 := by
  rcases hs : m.step c with ⟨s, o⟩
  rcases step_cases hs with ⟨-, rfl, -⟩ | ⟨-, rfl, -⟩ | ⟨-, op, -, hExec⟩
  · exact SameLimits.refl _
  · exact ⟨rfl, rfl, rfl⟩
  · have hS := execute_settled (m.dispatch c) c op
    rw [hExec] at hS
    exact ⟨hS.sink.trans (dispatch_sink m c), hS.limit.trans (dispatch_limit m c),
      hS.stackMax.trans (dispatch_stackMax m c)⟩

theorem execute_halt {op : Op} (h : (m.execute c op).2 = .halt) : op = .ret := by
  cases op
  case ret => rfl
  case constant =>
    obtain ⟨r, hr⟩ := readConstant_eq m c
    cases r <;> simp [execute, hr] at h
  case getGlobal | setGlobal | defineGlobal =>
    obtain ⟨r, hr⟩ := readName_eq m c
    cases r with
    | error f => simp [execute, hr] at h
    | ok k => simp only [execute, hr] at h; (try split at h) <;> simp at h
  all_goals simp only [execute] at h
  all_goals (try split at h) <;> simp at h

theorem execute_pause {op : Op} (h : (m.execute c op).2 = .pause) : m.sink = .held := by
  cases op
  case info =>
    simp only [execute] at h
    split at h <;> simp_all [pop]
  case constant =>
    obtain ⟨r, hr⟩ := readConstant_eq m c
    cases r <;> simp [execute, hr] at h
  case getGlobal | setGlobal | defineGlobal =>
    obtain ⟨r, hr⟩ := readName_eq m c
    cases r with
    | error f => simp [execute, hr] at h
    | ok k => simp only [execute, hr] at h; (try split at h) <;> simp at h
  all_goals simp only [execute] at h
  all_goals (try split at h) <;> simp at h

variable {m c}

/-- Inside the code, a dispatch ends the run without an error only at a return. -/
theorem step_halt {s : Machine} (h : m.step c = (s, .halt)) (hIn : m.ip < c.code.size) :
    Op.ofByte? (c.code.getD m.ip 0) = some .ret := by
  rcases step_cases h with ⟨hEnd, -⟩ | ⟨-, -, f, hFault, -⟩ | ⟨-, op, hP, hExec⟩
  · omega
  · cases hFault
  · rw [hP.opcode, execute_halt _ c (congrArg Prod.snd hExec)]

/-- A dispatch pauses only on a machine whose output waits. -/
theorem step_pause {s : Machine} (h : m.step c = (s, .pause)) : m.sink = .held := by
  rcases step_cases h with ⟨-, -, hHalt⟩ | ⟨-, -, f, hFault, -⟩ | ⟨-, op, -, hExec⟩
  · cases hHalt
  · cases hFault
  · rw [← dispatch_sink m c]
    exact execute_pause _ c (congrArg Prod.snd hExec)

end Dispatch

variable {c : Chunk}

theorem runFor_settings : ∀ (fuel : Nat) (m : Machine), SameLimits m (runFor fuel m c).1
  | 0, m => SameLimits.refl m
  | fuel + 1, m => by
    have hStep := step_settings m c
    simp only [runFor]
    rcases hs : m.step c with ⟨m', _ | _ | f | _⟩
    all_goals rw [hs] at hStep
    · exact hStep.trans (runFor_settings fuel m')
    · exact hStep
    · exact hStep.trans (sameLimits_reset m')
    · exact hStep

/-- A run keeps the sink and the limits of the machine. -/
theorem run_settings (m : Machine) (c : Chunk) : SameLimits m (m.run c).1 := by
  have h := (sameLimits_reset m).trans (runFor_settings (c := c) (c.code.size + 1) m.reset)
  simp only [run, start] at h ⊢
  split <;> simp_all

theorem Reaches.settings {s s' : Machine} {n : Nat} (h : Reaches c s n s') : SameLimits s s' := by
  induction h with
  | refl => exact SameLimits.refl _
  | @step s₁ s₂ s₃ n hStep _ ih =>
    have hFirst := step_settings s₁ c
    rw [hStep] at hFirst
    exact hFirst.trans ih

end Machine

/-- The only return of the code `xs ++ [ret]`, when no instruction of `xs` returns, is the last. -/
theorem eq_of_ret {xs ys zs : List Instr} {x : Instr} (hNo : ∀ y ∈ xs, y.op ≠ .ret)
    (h : xs ++ [Instr.ret] = ys ++ x :: zs) (hx : x.op = .ret) : ys = xs := by
  rcases List.append_eq_append_iff.mp h with ⟨a, rfl, ha⟩ | ⟨a, rfl, ha⟩
  · cases a with
    | nil => simp
    | cons y a => simp at ha
  · cases a with
    | nil => simp
    | cons y a =>
      -- `x` would be an instruction of `xs`
      obtain ⟨rfl, -⟩ := List.cons.inj ha
      exact absurd hx (hNo x (by simp))

namespace Chunk.Checked

open Machine

variable {c : Chunk} {xs : List Instr} (hC : c.Checked (xs ++ [Instr.ret]))
include hC

/-- A run of a chunk that returns only at its end, on a machine whose output never waits, that
ends without an error has passed all of the code before the return. -/
theorem ran_through (hNo : ∀ y ∈ xs, y.op ≠ .ret) {m : Machine} (hSink : m.sink ≠ .held)
    (hRun : (m.run c).2 = none) :
    ∃ n last, Reaches c m.reset n last ∧ (encode xs).length ≤ last.ip := by
  obtain ⟨n, last, hReach, hFinish⟩ := runFor_ends (c := c) (c.code.size + 1) m.reset
    (by simp [reset]) (by simp [reset])
  refine ⟨n, last, hReach, ?_⟩
  have hT := hC.reaches_typed hReach (typed_reset _ m)
  -- The dispatch after the last one the run made ended it: at the return, or past the code.
  unfold finish at hFinish
  rcases hStep : last.step c with ⟨s', _ | _ | f | _⟩ <;> rw [hStep] at hFinish
  · cases hFinish
  · by_cases hIn : last.ip < c.code.size
    · obtain ⟨ys, x, zs, hIns, hIp, -, hCode⟩ := hC.instr_at hT hIn
      have hRet := step_halt hStep hIn
      rw [hCode.getD, Op.ofByte?_code, Option.some.injEq] at hRet
      rw [hIp, eq_of_ret hNo hIns hRet]
    · have := hC.size_eq
      simp only [encode_append, List.length_append] at this
      omega
  · simp only [run, start, ← Option.some.inj hFinish] at hRun
    cases hRun
  · exact absurd ((hReach.settings.sink.symm.trans (step_pause hStep)).symm ▸ rfl) hSink

end Chunk.Checked

end StackScript
