import StackScript.Proofs.Machine.Safety
import StackScript.Proofs.Machine.Globals

/-! # A runtime error undoes nothing and leaves nothing behind

A run that fails stops at the failing instruction with the globals, the heap and the output that
the instructions before it left: the failing instruction itself changes none of them. The one
instruction that writes to the globals before it can fail is an assignment to a name that is not
bound, which inserts the name and erases it again; on the finite map the table stands for, that
is no change at all, however the insert grew and rehashed the table and wherever the erase left
its tombstone (`Table.Inv.lookup_erase_insert`).

The map is keyed by object, and an object is its serial: the argument needs that the strings a
run may use as global names, the keys of the globals and the string constants of the chunk, have
one serial each (`Identifies`). Every run keeps that, and keeps the table sound.

Main statement: `Machine.run_fault_keeps_state`.
-/

namespace StackScript

set_option autoImplicit false

namespace Table

variable {t : Table} {key : Str} {v : Value}

/-- Inserting a key that is not in the map and erasing it again gives back the map. -/
theorem Inv.lookup_erase_insert (hInv : t.Inv) (hKey : t.Agrees key)
    (hNew : (t.insert key v).2 = false) : ((t.insert key v).1.erase key).1.lookup = t.lookup := by
  obtain ⟨hInv₁, hAnswer, hHolds, hLookup₁⟩ := hInv.insert (v := v) hKey
  have hKey₁ : (t.insert key v).1.Agrees key := by
    intro k w hk hSerial
    rcases (hHolds k w).mp hk with ⟨rfl, -⟩ | ⟨hOther, -⟩
    · rfl
    · exact absurd hSerial hOther
  obtain ⟨-, -, -, hLookup₂⟩ := hInv₁.erase hKey₁
  have hAbsent : t.lookup key = none := by
    cases h : t.lookup key with
    | none => rfl
    | some w => rw [hNew, h] at hAnswer; cases hAnswer
  funext k
  rw [hLookup₂ k, hLookup₁ k]
  by_cases hSerial : k.serial = key.serial
  · rw [if_pos hSerial, lookup_congr hSerial, hAbsent]
  · rw [if_neg hSerial, if_neg hSerial]

/-- A string that a run of `c` may use as a global name: a key of `t` or a string constant of
`c`. -/
def Namable (t : Table) (c : Chunk) (k : Str) : Prop :=
  (∃ v, Holds t k v) ∨ Value.obj (.str k) ∈ c.constants.toList

/-- Serials tell apart the strings a run of `c` may use as global names: one serial, one
object. -/
def Identifies (t : Table) (c : Chunk) : Prop :=
  ∀ a b : Str, Namable t c a → Namable t c b → a.serial = b.serial → a = b

theorem Identifies.agrees {c : Chunk} (hId : t.Identifies c) (hk : Value.obj (.str key) ∈ c.constants.toList) :
    t.Agrees key :=
  fun k w hHolds hSerial => hId k key (.inl ⟨w, hHolds⟩) (.inr hk) hSerial

/-- Binding a string constant of the chunk keeps the table sound and its names told apart. -/
theorem Identifies.insert {c : Chunk} (hInv : t.Inv) (hId : t.Identifies c)
    (hk : Value.obj (.str key) ∈ c.constants.toList) :
    (t.insert key v).1.Inv ∧ (t.insert key v).1.Identifies c := by
  obtain ⟨hInv₁, -, hHolds, -⟩ := hInv.insert (v := v) (hId.agrees hk)
  -- A key of the new table is the inserted constant or a key of the old one.
  have hNamable : ∀ a, Namable (t.insert key v).1 c a → Namable t c a := by
    rintro a (⟨w, ha⟩ | ha)
    · rcases (hHolds a w).mp ha with ⟨rfl, -⟩ | ⟨-, hOld⟩
      · exact .inr hk
      · exact .inl ⟨w, hOld⟩
    · exact .inr ha
  exact ⟨hInv₁, fun a b ha hb => hId a b (hNamable a ha) (hNamable b hb)⟩

end Table

namespace Machine

open Table

variable {m m' : Machine} {c : Chunk}

/-! ## What one instruction does to the globals -/

theorem readConstant_mem {v : Value} (h : m.readConstant c = (m', .ok v)) :
    v ∈ c.constants.toList := by
  simp only [readConstant, operand] at h
  split at h
  · rename_i w hw
    simp only [Prod.mk.injEq, Except.ok.injEq] at h
    rw [← h.2]
    simp only [Chunk.constant?, Int.natCast_nonneg, not_lt.mpr, if_false, Int.toNat_natCast] at hw
    exact Array.mem_toList_iff.mpr (Array.mem_of_getElem? hw)
  · simp at h

theorem readName_mem {k : Str} (h : m.readName c = (m', .ok k)) :
    Value.obj (.str k) ∈ c.constants.toList := by
  simp only [readName] at h
  rcases hr : m.readConstant c with ⟨m₁, r⟩
  rw [hr] at h
  cases r with
  | error f => simp at h
  | ok v =>
    have hMem := readConstant_mem hr
    -- Only a string constant names a global.
    cases v with
    | obj o =>
      cases o with
      | str s =>
        simp only [Value.asStr?, Prod.mk.injEq, Except.ok.injEq] at h
        rw [← h.2]
        exact hMem
      | foreign => simp [Value.asStr?] at h
    | _ => simp [Value.asStr?] at h

/-- A failing instruction leaves the heap and the effects as they were; on the globals it does
nothing, or it is an assignment to an unbound name of the chunk, inserted and erased again. -/
theorem execute_fault_state {op : Op} {f : Fault} (h : m.execute c op = (m', .fault f)) :
    m'.heap = m.heap ∧ m'.log = m.log ∧
      (m'.globals = m.globals ∨ ∃ k v, Value.obj (.str k) ∈ c.constants.toList ∧
        (m.globals.insert k v).2 = false ∧ m'.globals = ((m.globals.insert k v).1.erase k).1) := by
  cases op
  case constant =>
    obtain ⟨r, hr⟩ := readConstant_eq m c
    cases r with
    | error f' =>
      simp only [execute, hr, Prod.mk.injEq] at h
      rw [← h.1]
      exact ⟨rfl, rfl, .inl rfl⟩
    | ok v => simp [execute, hr] at h
  case getGlobal | defineGlobal =>
    obtain ⟨r, hr⟩ := readName_eq m c
    cases r with
    | error f' =>
      simp only [execute, hr, Prod.mk.injEq] at h
      rw [← h.1]
      exact ⟨rfl, rfl, .inl rfl⟩
    | ok k =>
      simp only [execute, hr] at h
      (try split at h) <;> simp only [Prod.mk.injEq, reduceCtorEq, and_false] at h
      all_goals rw [← h.1]; exact ⟨rfl, rfl, .inl rfl⟩
  case setGlobal =>
    obtain ⟨r, hr⟩ := readName_eq m c
    cases r with
    | error f' =>
      simp only [execute, hr, Prod.mk.injEq] at h
      rw [← h.1]
      exact ⟨rfl, rfl, .inl rfl⟩
    | ok k =>
      simp only [execute, hr] at h
      split at h
      · simp at h
      · rename_i hReplaced
        simp only [Prod.mk.injEq] at h
        rw [← h.1]
        exact ⟨rfl, rfl, .inr ⟨k, _, readName_mem hr, by simpa using hReplaced, rfl⟩⟩
  case getLocal | setLocal =>
    simp only [execute] at h
    split at h <;> simp only [Prod.mk.injEq, reduceCtorEq, and_false] at h
    rw [← h.1]
    exact ⟨rfl, rfl, .inl rfl⟩
  -- the rest fail, if at all, on the machine as it was or with one value popped
  all_goals simp only [execute] at h
  all_goals (try split at h) <;> simp only [Prod.mk.injEq, reduceCtorEq, and_false] at h
  all_goals rw [← h.1]; exact ⟨rfl, rfl, .inl rfl⟩

/-- An instruction that goes on leaves the globals, or binds a string constant of the chunk. -/
theorem execute_proceed_globals {op : Op} (h : m.execute c op = (m', .proceed)) :
    m'.globals = m.globals ∨
      ∃ k v, Value.obj (.str k) ∈ c.constants.toList ∧ m'.globals = (m.globals.insert k v).1 := by
  cases op
  case constant =>
    obtain ⟨r, hr⟩ := readConstant_eq m c
    cases r <;> simp only [execute, hr, Prod.mk.injEq, reduceCtorEq, and_false] at h
    rw [← h.1]
    exact .inl rfl
  case getGlobal =>
    obtain ⟨r, hr⟩ := readName_eq m c
    cases r with
    | error f' => simp [execute, hr] at h
    | ok k =>
      simp only [execute, hr] at h
      split at h <;> simp only [Prod.mk.injEq, reduceCtorEq, and_false] at h
      rw [← h.1]
      exact .inl rfl
  case setGlobal | defineGlobal =>
    obtain ⟨r, hr⟩ := readName_eq m c
    cases r with
    | error f' => simp [execute, hr] at h
    | ok k =>
      simp only [execute, hr] at h
      (try split at h) <;> simp only [Prod.mk.injEq, reduceCtorEq, and_false] at h
      rw [← h.1]
      exact .inr ⟨k, _, readName_mem hr, rfl⟩
  all_goals simp only [execute] at h
  all_goals (try split at h) <;> simp only [Prod.mk.injEq, reduceCtorEq, and_false] at h
  all_goals rw [← h.1]; exact .inl rfl

/-! ## One dispatch -/

variable {s s' : Machine}

/-- A dispatch that fails leaves the heap and the effects as they were, but for the trace of the
failing instruction, and the globals as its execution does. -/
theorem step_fault_state {f : Fault} (h : s.step c = (s', .fault f)) :
    s'.heap = s.heap ∧ (s'.log = s.log ∨ ∃ t, s'.log = s.log.push (.trace t)) ∧
      (s'.globals = s.globals ∨ ∃ k v, Value.obj (.str k) ∈ c.constants.toList ∧
        (s.globals.insert k v).2 = false ∧ s'.globals = ((s.globals.insert k v).1.erase k).1) := by
  rcases step_cases h with ⟨-, -, hHalt⟩ | ⟨-, rfl, -⟩ | ⟨-, op, -, hExec⟩
  · cases hHalt
  · -- A failed check answers with the machine moved past the opcode byte, nothing else changed.
    exact ⟨rfl, .inl rfl, .inl rfl⟩
  · obtain ⟨hHeap, hLog, hGlobals⟩ := execute_fault_state hExec
    have hTrace : (s.dispatch c).log = s.log ∨ ∃ t, (s.dispatch c).log = s.log.push (.trace t) := by
      by_cases hT : s.tracing
      · exact .inr ⟨_, by simp only [dispatch, hT, ↓reduceIte]; rfl⟩
      · exact .inl (by simp [dispatch, hT])
    refine ⟨by rw [hHeap, dispatch_heap], hLog ▸ hTrace, ?_⟩
    rw [← dispatch_globals s c]
    exact hGlobals

theorem step_proceed_globals (h : s.step c = (s', .proceed)) :
    s'.globals = s.globals ∨
      ∃ k v, Value.obj (.str k) ∈ c.constants.toList ∧ s'.globals = (s.globals.insert k v).1 := by
  rcases step_cases h with ⟨-, -, hHalt⟩ | ⟨-, -, f, hFault, -⟩ | ⟨-, op, -, hExec⟩
  · cases hHalt
  · cases hFault
  · rw [← dispatch_globals s c]
    exact execute_proceed_globals hExec

/-! ## Whole runs -/

/-- A run keeps the globals a sound table whose names are told apart by their serials. -/
theorem Reaches.identifies {n : Nat} (h : Reaches c s n s') (hInv : s.globals.Inv)
    (hId : s.globals.Identifies c) : s'.globals.Inv ∧ s'.globals.Identifies c := by
  induction h with
  | refl => exact ⟨hInv, hId⟩
  | step hStep _ ih =>
    rcases step_proceed_globals hStep with hSame | ⟨k, v, hk, hIns⟩
    · rw [← hSame] at hInv hId
      exact ih hInv hId
    · obtain ⟨hInv₁, hId₁⟩ := hId.insert (v := v) hInv hk
      rw [← hIns] at hInv₁ hId₁
      exact ih hInv₁ hId₁

/-- A run that ends with a runtime error reached, by instructions that went on, the machine that
dispatched the failing instruction, and ends as that dispatch left it, reset. -/
theorem run_eq_of_fault {f : Fault} (h : (m.run c).2 = some f) :
    ∃ n s s', Reaches c m.reset n s ∧ s.step c = (s', .fault f) ∧ m.run c = (s'.reset, some f) := by
  obtain ⟨n, last, hReach, hFinish⟩ := runFor_ends (c := c) (c.code.size + 1) m.reset
    (by simp [reset]) (by simp [reset])
  rcases hStep : last.step c with ⟨s', o⟩
  unfold finish at hFinish
  rw [hStep] at hFinish
  simp only [run, start] at h ⊢
  cases o with
  | fault f' =>
    simp only [Option.some.injEq] at hFinish
    rw [← hFinish] at h ⊢
    cases h
    exact ⟨n, last, s', hReach, hStep, rfl⟩
  | proceed => cases hFinish
  | halt | pause =>
    simp only [Option.some.injEq] at hFinish
    rw [← hFinish] at h
    cases h

/-- **A runtime error leaves the machine as the instructions before it did.** Take a run of any
chunk from any machine whose globals form a sound table and whose global names, together with
the chunk's string constants, are told apart by their serials. If the run ends with a runtime
error at offset `i`, then the instructions before it led to a machine at offset `i`, and the run
ends with that machine's globals (as the map they stand for), heap and effects, but for the trace
of the failing instruction, and with an empty stack. So an assignment to an unbound name binds
nothing and changes no binding, whatever its insert and erase did to the slots. -/
theorem run_fault_keeps_state (m : Machine) (c : Chunk) (hInv : m.globals.Inv)
    (hId : m.globals.Identifies c) {f : Fault} (hf : (m.run c).2 = some f) :
    ∃ n s, Reaches c m.reset n s ∧ f.frame.ip = s.ip ∧
      (m.run c).1.globals.lookup = s.globals.lookup ∧ (m.run c).1.heap = s.heap ∧
      ((m.run c).1.log = s.log ∨ ∃ t, (m.run c).1.log = s.log.push (.trace t)) ∧
      (m.run c).1.depth = 0 := by
  obtain ⟨n, s, s', hReach, hStep, hRun⟩ := run_eq_of_fault hf
  obtain ⟨hInvₛ, hIdₛ⟩ := hReach.identifies hInv hId
  obtain ⟨-, hFrame⟩ := step_fault hStep
  obtain ⟨hHeap, hLog, hGlobals⟩ := step_fault_state hStep
  rw [hRun]
  refine ⟨n, s, hReach, by rw [hFrame], ?_, hHeap, hLog, rfl⟩
  -- Resetting keeps the globals; the failing instruction undid whatever it wrote.
  show s'.globals.lookup = s.globals.lookup
  rcases hGlobals with hSame | ⟨k, v, hk, hNew, hErased⟩
  · rw [hSame]
  · rw [hErased]
    exact hInvₛ.lookup_erase_insert (hIdₛ.agrees hk) hNew

/-- Assigning `x` on a new machine, where it is not bound: the insert grows the empty table to
eight slots and the erase leaves a tombstone, and the map is still empty. -/
theorem run_fault_keeps_state_unbound :
    let c : Chunk := ⟨"", #[Op.nil.code, Op.setGlobal.code, 0], #[1, 1, 1],
      #[.obj (.str ⟨0, Bytes.ofString "x"⟩)]⟩
    let f : Fault := ⟨.undefinedVariable, Bytes.ofString "Undefined variable 'x'.", ⟨"", 1, 1⟩,
      some "undefined variable"⟩
    Machine.new.globals.Inv ∧ Machine.new.globals.Identifies c ∧ (Machine.new.run c).2 = some f ∧
      ∃ n s, Reaches c Machine.new.reset n s ∧ f.frame.ip = s.ip ∧
        (Machine.new.run c).1.globals.lookup = s.globals.lookup ∧
        (Machine.new.run c).1.heap = s.heap ∧
        ((Machine.new.run c).1.log = s.log ∨ ∃ t, (Machine.new.run c).1.log = s.log.push (.trace t)) ∧
        (Machine.new.run c).1.depth = 0 := by
  intro c f
  have hInv : Machine.new.globals.Inv := inv_empty
  -- The only string the run may use as a name is the constant `x`.
  have hOnly : ∀ a, Namable Machine.new.globals c a → a = ⟨0, Bytes.ofString "x"⟩ := by
    rintro a (⟨w, i, hi⟩ | ha)
    · simp [Machine.new, Table.empty] at hi
    · simpa [c] using ha
  have hId : Machine.new.globals.Identifies c := fun a b ha hb _ => (hOnly a ha).trans (hOnly b hb).symm
  have hf : (Machine.new.run c).2 = some f := by decide +kernel
  exact ⟨hInv, hId, hf, run_fault_keeps_state Machine.new c hInv hId hf⟩

end Machine

end StackScript
