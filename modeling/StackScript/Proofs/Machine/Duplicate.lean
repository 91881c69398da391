import StackScript.Proofs.Machine.Twins
import StackScript.Proofs.Compiler.Correctness
import StackScript.Embed.Host

/-! # A duplicate serves like its original

`Machine.duplicate` copies the settings and the globals of a machine into a fresh one: each name
and each string value is interned anew in the copy's heap, in the order of the globals' slots.
The two heaps intern the same texts as different objects, so the copy is not equal to the
original. It is its twin (`Machine.Twins`) once the original's run registers are cleared
(`duplicate_twins`).

From then on the two answer every sequence of host calls alike: interpreting a source, compiling
and running one, binding a global to a value the machine itself makes, reading a global by name.
Each call takes kin machines (`Kin`: twins once reset) to kin machines, with one answer and
writes that a host shows alike (`Kin.serve`). The copy starts with an empty log, so what it
writes goes to a writer of its own. Machines are values: a call on one cannot touch the other.
-/

namespace StackScript

set_option autoImplicit false

namespace Machine

open Embed

/-! ## Host calls -/

/-- A call a host makes on a machine. -/
inductive Call where
  | interpret (src : Bytes)
  | runSource (name : String) (src : Bytes)
  | define (name : Bytes) (v : Native)
  | read (name : Bytes)

/-- What a machine answers to a call; a global is read by content. -/
inductive Answer where
  | interpreted (i : Interpretation)
  | ran (r : Except CompileFailure (Option Fault))
  | defined (failure : Option String)
  | read (v : Option Val)

/-- Compiles a source and, when that succeeds, runs the chunk. -/
def compileRun (m : Machine) (name : String) (src : Bytes) :
    Machine × Except CompileFailure (Option Fault) :=
  match m.compile name src with
  | (m, .error e) => (m, .error e)
  | (m, .ok c) => let r := m.run c; (r.1, .ok r.2)

/-- Serves one call. -/
def serve (m : Machine) : Call → Machine × Answer
  | .interpret src => let r := m.interpret src; (r.1, .interpreted r.2)
  | .runSource name src => let r := m.compileRun name src; (r.1, .ran r.2)
  | .define name v =>
    match v.toValue m with
    | (m, .ok v) => (m.defineGlobal name v, .defined none)
    | (m, .error d) => (m, .defined (some d))
  | .read name => (m, .read (m.env name))

/-- Serves calls in order and collects the answers. -/
def serveAll (m : Machine) : List Call → Machine × List Answer
  | [] => (m, [])
  | c :: cs =>
    let r := m.serve c
    let rs := r.1.serveAll cs
    (rs.1, r.2 :: rs.2)

/-- How interpreting ended, read off compiling and running. -/
def interpretation : Except CompileFailure (Option Fault) → Interpretation
  | .error e => .compileError e
  | .ok (some f) => .runtimeError f
  | .ok none => .ok

theorem interpret_eq_compileRun (m : Machine) (src : Bytes) :
    m.interpret src = ((m.compileRun "" src).1, interpretation (m.compileRun "" src).2) := by
  unfold Machine.interpret compileRun
  generalize m.compile "" src = p
  obtain ⟨m, e | c⟩ := p
  · rfl
  · dsimp only
    generalize m.run c = q
    obtain ⟨m, _ | f⟩ := q <;> rfl

/-! ## Kin machines -/

/-- Machines that serve calls alike: twins once the registers of a run are cleared. -/
def Kin (m₁ m₂ : Machine) : Prop := Twins m₁.reset m₂.reset

/-- How a call on kin machines ends: in kin machines, with one answer, having recorded writes that
a host shows alike. -/
structure Answered {α : Type} (m₁ m₂ : Machine) (r₁ r₂ : Machine × α) : Prop where
  kin : Kin r₁.1 r₂.1
  answer : r₁.2 = r₂.2
  echoes : Echoes m₁ m₂ r₁.1 r₂.1

/-- What compiling one source on kin machines answers: one failure, or twin chunks. -/
def Compiled (h₁ h₂ : Heap) : Except CompileFailure Chunk → Except CompileFailure Chunk → Prop
  | .error e₁, .error e₂ => e₁ = e₂
  | .ok c₁, .ok c₂ => Chunk.Twin h₁ h₂ c₁ c₂
  | _, _ => False

variable {m₁ m₂ : Machine} {m : Machine} {c₁ c₂ : Chunk}

theorem Twins.kin (hT : Twins m₁ m₂) : Kin m₁ m₂ := hT.reset

theorem Canonical.kin_self (hM : m.Canonical) : Kin m m :=
  ⟨rfl, hM.congr rfl rfl, hM.congr rfl rfl, rfl, .nil⟩

theorem Answered.map {α β : Type} {p₁ p₂ : Machine × α} (h : Answered m₁ m₂ p₁ p₂) (f : α → β) :
    Answered m₁ m₂ (p₁.1, f p₁.2) (p₂.1, f p₂.2) :=
  ⟨h.kin, by rw [h.answer], h.echoes⟩

theorem Lockstep.answered {α : Type} {p₁ p₂ : Machine × α} (h : Lockstep c₁ c₂ m₁ m₂ p₁ p₂) :
    Answered m₁ m₂ p₁ p₂ :=
  ⟨h.twins.kin, h.answer, h.echoes⟩

/-- A value of a canonical machine's globals is canonical in its heap. -/
theorem Canonical.canon_of_global? (hM : m.Canonical) {x : Bytes} {v : Value} (h : m.global? x = some v) :
    v.Canon m.heap := by
  obtain ⟨k, hl, hg⟩ := Option.bind_eq_some_iff.mp h
  rw [hM.get?_eq hl] at hg
  obtain ⟨k', -, hHolds⟩ := hM.globals.lookup_eq_some_iff.mp hg
  exact hM.values k' v hHolds

/-- Twins read every global alike: bound in both or in neither, to twin values. -/
theorem Twins.global? (hT : Twins m₁ m₂) (x : Bytes) :
    Option.Rel (Value.Twin m₁.heap m₂.heap) (m₁.global? x) (m₂.global? x) := by
  have hEnv : (m₁.global? x).map Value.content = (m₂.global? x).map Value.content := congrFun hT.env x
  cases h₁ : m₁.global? x with
  | none =>
    rw [h₁, Option.map_none, eq_comm, Option.map_eq_none_iff] at hEnv
    rw [hEnv]
    exact .none
  | some v₁ =>
    rw [h₁, Option.map_some, eq_comm, Option.map_eq_some_iff] at hEnv
    obtain ⟨v₂, h₂, hContent⟩ := hEnv
    rw [h₂]
    exact .some ⟨hT.canonical₁.canon_of_global? h₁, hT.canonical₂.canon_of_global? h₂, hContent.symm⟩

namespace Kin

theorem twins (hK : Kin m₁ m₂) : Twins m₁.reset m₂.reset := hK

theorem env (hK : Kin m₁ m₂) : m₁.env = m₂.env := hK.twins.env

theorem heap₁ (hK : Kin m₁ m₂) : m₁.heap.WF := hK.twins.canonical₁.heap

theorem heap₂ (hK : Kin m₁ m₂) : m₂.heap.WF := hK.twins.canonical₂.heap

theorem emit (hK : Kin m₁ m₂) (e₁ e₂ : Effect) : Kin (m₁.emit e₁) (m₂.emit e₂) := hK.twins.emit e₁ e₂

/-- A run depends on a machine only through the machine reset. -/
theorem run (hK : Kin m₁ m₂) (hc : Chunk.Twin m₁.heap m₂.heap c₁ c₂) :
    Lockstep c₁ c₂ m₁ m₂ (m₁.run c₁) (m₂.run c₂) :=
  hK.twins.run hc

/-- Interning one text keeps kin machines kin, each finding the text at its own string. -/
theorem string (hK : Kin m₁ m₂) (c : Bytes) :
    Kin (m₁.string c).1 (m₂.string c).1 ∧ (m₁.string c).1.heap.lookup? c = some (m₁.string c).2 ∧
      (m₂.string c).1.heap.lookup? c = some (m₂.string c).2 :=
  ⟨hK.twins.grow (Heap.grows_intern _ _) (Heap.grows_intern _ _),
    by rw [Machine.string, (hK.heap₁.intern c).2.1, if_pos rfl],
    by rw [Machine.string, (hK.heap₂.intern c).2.1, if_pos rfl]⟩

/-- Binding one name to twin values keeps kin machines kin. -/
theorem defineGlobal (hK : Kin m₁ m₂) (name : Bytes) {v₁ v₂ : Value} (hv : v₁.Twin m₁.heap m₂.heap v₂) :
    Kin (m₁.defineGlobal name v₁) (m₂.defineGlobal name v₂) := by
  obtain ⟨hK', hl₁, hl₂⟩ := hK.string name
  have hv' : v₁.Twin (m₁.string name).1.heap (m₂.string name).1.heap v₂ :=
    hv.grow (Heap.grows_intern _ _) hK.heap₁ (Heap.grows_intern _ _) hK.heap₂
  exact (Twins.insert hK' hl₁ hl₂ hv').1

/-- Compiling one source on kin machines ends alike: one failure, or twin chunks in the grown
heaps, with a listing written alike. -/
theorem compile (hK : Kin m₁ m₂) (name : String) (src : Bytes) :
    Kin (m₁.compile name src).1 (m₂.compile name src).1 ∧
      Echoes m₁ m₂ (m₁.compile name src).1 (m₂.compile name src).1 ∧
      Compiled (m₁.compile name src).1.heap (m₂.compile name src).1.heap
        (m₁.compile name src).2 (m₂.compile name src).2 := by
  obtain ⟨hFail, hc⟩ := compile_twins src hK.heap₁ hK.heap₂ name
  have hG₁ := compile_grows src m₁.heap name
  have hG₂ := compile_grows src m₂.heap name
  have hP : m₁.printCode = m₂.printCode := hK.twins.printCode
  unfold Machine.compile
  -- Only the results of the two compiles matter from here on.
  generalize StackScript.compile src m₁.heap name = r₁ at hFail hc hG₁ ⊢
  generalize StackScript.compile src m₂.heap name = r₂ at hFail hc hG₂ ⊢
  have hG : Kin { m₁ with heap := r₁.heap } { m₂ with heap := r₂.heap } := hK.twins.grow hG₁ hG₂
  cases hF : r₁.failure with
  | some e =>
    rw [hF] at hFail
    simp only [hF, ← hFail]
    exact ⟨hG, Echoes.of_log rfl rfl, rfl⟩
  | none =>
    rw [hF] at hFail
    simp only [hF, ← hFail]
    by_cases hPr : m₁.printCode = true
    · -- Twin chunks list alike, so the listing is written alike.
      have hShown : (Effect.listing (Listing.chunkSection r₁.chunk "" false).1).shown =
          (Effect.listing (Listing.chunkSection r₂.chunk "" false).1).shown := by
        simp only [Effect.shown, hc.chunkSection]
      simp only [if_pos hPr, if_pos (hP ▸ hPr)]
      exact ⟨hG.emit _ _, (Echoes.of_log rfl rfl).emit hShown, hc⟩
    · simp only [if_neg hPr, if_neg (hP ▸ hPr)]
      exact ⟨hG, Echoes.of_log rfl rfl, hc⟩

/-- Compiling and running one source on kin machines ends alike. -/
theorem compileRun (hK : Kin m₁ m₂) (name : String) (src : Bytes) :
    Answered m₁ m₂ (m₁.compileRun name src) (m₂.compileRun name src) := by
  obtain ⟨hK', hE, hC⟩ := hK.compile name src
  unfold Machine.compileRun
  generalize m₁.compile name src = p₁ at hK' hE hC ⊢
  generalize m₂.compile name src = p₂ at hK' hE hC ⊢
  obtain ⟨r₁, a₁⟩ := p₁
  obtain ⟨r₂, a₂⟩ := p₂
  match a₁, a₂, hC with
  | .error e₁, .error e₂, hC => exact ⟨hK', congrArg Except.error hC, hE⟩
  | .ok c₁, .ok c₂, hC =>
    have hR := (Kin.run hK' hC).answered
    exact ⟨hR.kin, congrArg Except.ok hR.answer, hE.trans hR.echoes⟩
  | .error _, .ok _, hC => exact hC.elim
  | .ok _, .error _, hC => exact hC.elim

theorem interpret (hK : Kin m₁ m₂) (src : Bytes) :
    Answered m₁ m₂ (m₁.interpret src) (m₂.interpret src) := by
  rw [interpret_eq_compileRun, interpret_eq_compileRun]
  exact (hK.compileRun "" src).map interpretation

/-- Binding a host value on kin machines ends alike: each machine makes the value itself,
interning a text in its own heap. -/
theorem define (hK : Kin m₁ m₂) (name : Bytes) (v : Native) :
    Answered m₁ m₂ (m₁.serve (.define name v)) (m₂.serve (.define name v)) := by
  have hPlain : ∀ w : Value, (∀ o, w ≠ .obj o) →
      Answered m₁ m₂ (m₁.defineGlobal name w, Answer.defined none) (m₂.defineGlobal name w, Answer.defined none) :=
    fun w hw => ⟨hK.defineGlobal name (Value.twin_self hw), rfl, Echoes.of_log rfl rfl⟩
  cases v with
  | none => exact hPlain .nil fun _ h => by cases h
  | flag b => exact hPlain (.bool b) fun _ h => by cases h
  | real x => exact hPlain (.number x) fun _ h => by cases h
  | integer n => exact hPlain (.number (Float.ofInt n)) fun _ h => by cases h
  | text s =>
    obtain ⟨hK', hl₁, hl₂⟩ := hK.string s
    exact ⟨hK'.defineGlobal name (Value.twin_of_lookup hl₁ hl₂), rfl, Echoes.of_log rfl rfl⟩
  | wide n =>
    by_cases hn : n > exactLimit
    · simp only [serve, Native.toValue, hn, ↓reduceIte]
      exact ⟨hK, rfl, Echoes.of_log rfl rfl⟩
    · simp only [serve, Native.toValue, hn, ↓reduceIte]
      exact hPlain (.number (Float.ofNat n)) fun _ h => by cases h
  | unsupported t => exact ⟨hK, rfl, Echoes.of_log rfl rfl⟩

/-- One call on kin machines ends alike. -/
theorem serve (hK : Kin m₁ m₂) (c : Call) : Answered m₁ m₂ (m₁.serve c) (m₂.serve c) := by
  cases c with
  | interpret src => exact (hK.interpret src).map Answer.interpreted
  | runSource name src => exact (hK.compileRun name src).map Answer.ran
  | define name v => exact hK.define name v
  | read name => exact ⟨hK, by simp only [Machine.serve, hK.env], Echoes.of_log rfl rfl⟩

/-- Every sequence of calls on kin machines ends alike, answer by answer. -/
theorem serveAll (hK : Kin m₁ m₂) (calls : List Call) :
    Answered m₁ m₂ (m₁.serveAll calls) (m₂.serveAll calls) := by
  induction calls generalizing m₁ m₂ with
  | nil => exact ⟨hK, rfl, Echoes.of_log rfl rfl⟩
  | cons c cs ih =>
    have hS := hK.serve c
    have hR := ih hS.kin
    exact ⟨hR.kin, by simp only [Machine.serveAll, hS.answer, hR.answer], hS.echoes.trans hR.echoes⟩

end Kin

/-- A machine that calls reach from a canonical one is canonical: its strings stay interned. -/
theorem Canonical.serveAll (hM : m.Canonical) (calls : List Call) : (m.serveAll calls).1.Canonical :=
  (hM.kin_self.serveAll calls).kin.twins.canonical₁.congr rfl rfl

/-! ## The duplicate -/

/-- The machine a duplicate starts from: the settings of `m` and nothing else. -/
def blank (m : Machine) : Machine :=
  { stackMax := m.stackMax, sink := m.sink, printCode := m.printCode, tracing := m.tracing, limit := m.limit }

/-- One global copied into a machine: its name and its value interned in the machine's heap. -/
def copyGlobal (d : Machine) (e : Str × Value) : Machine :=
  let (heap, k) := d.heap.intern e.1.chars
  let (heap, v) := copyValue heap e.2
  { d with heap, globals := (d.globals.insert k v).1 }

theorem duplicate_eq (m : Machine) : m.duplicate = m.globals.toList.foldl copyGlobal m.blank := rfl

theorem copyGlobal_eq (d : Machine) (k : Str) (v : Value) :
    d.copyGlobal (k, v) =
      { d with heap := (copyValue (d.heap.intern k.chars).1 v).1,
               globals := (d.globals.insert (d.heap.intern k.chars).2 (copyValue (d.heap.intern k.chars).1 v).2).1 } :=
  rfl

/-- Copying globals changes only the heap and the globals. -/
theorem foldl_copyGlobal_frame (L : List (Str × Value)) (d : Machine) :
    ∃ (h : Heap) (t : Table), L.foldl copyGlobal d = { d with heap := h, globals := t } := by
  induction L generalizing d with
  | nil => exact ⟨d.heap, d.globals, rfl⟩
  | cons e L ih =>
    obtain ⟨h, t, hEq⟩ := ih (d.copyGlobal e)
    exact ⟨h, t, by rw [List.foldl_cons, hEq]; rfl⟩

/-- A duplicate is the blank machine with a heap and globals of its own. -/
theorem duplicate_frame (m : Machine) : ∃ (h : Heap) (t : Table), m.duplicate = { m.blank with heap := h, globals := t } :=
  foldl_copyGlobal_frame m.globals.toList m.blank

/-- Copying a value of a heap into another interns its string, if it is one, there: the copy has
the same content and is canonical in the grown heap. -/
theorem copyValue_spec {h₀ h : Heap} (hW : h.WF) {v : Value} (hv : v.Canon h₀) :
    h.Grows (copyValue h v).1 ∧ (copyValue h v).2.Canon (copyValue h v).1 ∧
      (copyValue h v).2.content = v.content := by
  cases v with
  | obj o =>
    cases o with
    | str s =>
      have hl : (h.intern s.chars).1.lookup? s.chars = some (h.intern s.chars).2 := by
        rw [(hW.intern _).2.1, if_pos rfl]
      obtain ⟨hCanon, hContent⟩ := Value.canon_str hl
      exact ⟨Heap.grows_intern _ _, hCanon, hContent⟩
    | foreign _ => exact hv.elim
  | _ => exact ⟨Heap.Grows.refl _, trivial, rfl⟩

/-- Copying one canonical global into a canonical machine keeps it canonical and binds the
global's name to the value's content. -/
theorem Canonical.copyGlobal_binds (hd : m.Canonical) {h₀ : Heap} {k : Str} {v : Value} (hv : v.Canon h₀) :
    (m.copyGlobal (k, v)).Canonical ∧ (m.copyGlobal (k, v)).env = m.env.set k.chars v.content := by
  have hW := hd.heap
  have hl₁ : (m.heap.intern k.chars).1.lookup? k.chars = some (m.heap.intern k.chars).2 := by
    rw [(hW.intern _).2.1, if_pos rfl]
  obtain ⟨hG₂, hv', hContent⟩ := copyValue_spec (hW.intern k.chars).1 hv
  -- Both internings only grow the heap, so the name is still found at its new string.
  obtain ⟨hd₂, hEnv₂⟩ := hd.grow ((Heap.grows_intern _ _).trans hG₂)
  have hl₂ := (hG₂ (hW.intern _).1).2 _ _ hl₁
  obtain ⟨hd₃, hEnv₃, -⟩ := hd₂.insert hl₂ hv'
  rw [copyGlobal_eq]
  exact ⟨hd₃, by rw [hEnv₃, hEnv₂, hContent]⟩

section Copy

variable {V : Machine}

/-- A listed global of a canonical machine binds its name to its value's content. -/
theorem Canonical.env_of_holds (hV : V.Canonical) {k : Str} {v : Value} (hHolds : Table.Holds V.globals k v) :
    V.env k.chars = some v.content := by
  rw [hV.env_of_lookup (hV.keys k v hHolds), hV.globals.lookup_eq_of_holds hHolds]
  rfl

/-- A name a canonical machine binds is the name of one of its listed globals. -/
theorem Canonical.mem_of_env (hV : V.Canonical) {x : Bytes} (hx : (V.env x).isSome = true) :
    x ∈ V.globals.toList.map (·.1.chars) := by
  cases hl : V.heap.lookup? x with
  | none => rw [env_of_lookup_none hl] at hx; cases hx
  | some k =>
    rw [hV.env_of_lookup hl, Option.isSome_map, Option.isSome_iff_exists] at hx
    obtain ⟨w, hw⟩ := hx
    obtain ⟨k', hSerial, hHolds⟩ := hV.globals.lookup_eq_some_iff.mp hw
    -- The key is interned, so its serial names the string of `x`.
    have hChars := hV.heap.lookup?_serial_inj (hV.keys k' w hHolds) hl hSerial
    exact List.mem_map.mpr ⟨(k', w), Table.mem_toList_iff.mpr hHolds, hChars⟩

/-- Copying listed globals of `V` one by one keeps the copy canonical, binding by name what `V`
binds to the names copied so far and nothing else. -/
theorem Canonical.foldl_copyGlobal (hV : V.Canonical) (L : List (Str × Value))
    (hL : ∀ e ∈ L, Table.Holds V.globals e.1 e.2) {d : Machine} {xs : List Bytes} (hd : d.Canonical)
    (hEnv : ∀ x, d.env x = if x ∈ xs then V.env x else none) :
    (L.foldl copyGlobal d).Canonical ∧
      ∀ x, (L.foldl copyGlobal d).env x = if x ∈ xs ++ L.map (·.1.chars) then V.env x else none := by
  induction L generalizing d xs with
  | nil => exact ⟨hd, by simpa using hEnv⟩
  | cons e L ih =>
    obtain ⟨k, v⟩ := e
    have hHolds := hL (k, v) List.mem_cons_self
    obtain ⟨hd', hEnv'⟩ := hd.copyGlobal_binds (hV.values k v hHolds)
    have hStep : ∀ x, (d.copyGlobal (k, v)).env x = if x ∈ xs ++ [k.chars] then V.env x else none := by
      intro x
      rw [hEnv', Env.set]
      by_cases hx : x = k.chars
      · subst hx
        simp [hV.env_of_holds hHolds]
      · simp [hx, hEnv x]
    obtain ⟨hD, hEnvD⟩ := ih (fun e he => hL e (List.mem_cons_of_mem _ he)) hd' hStep
    exact ⟨hD, fun x => by rw [List.foldl_cons, hEnvD x, List.map_cons, List.append_assoc, List.singleton_append]⟩

/-- A duplicate of a canonical machine is its twin once the machine's run registers are
cleared: the same settings, canonical, and binding every name to the same content. -/
theorem duplicate_twins (hV : V.Canonical) : Twins V.reset V.duplicate := by
  have hBlank : V.blank.Canonical := canonical_new.congr rfl rfl
  have hUnbound : ∀ x, V.blank.env x = if x ∈ ([] : List Bytes) then V.env x else none :=
    fun x => by simpa using env_of_lookup_none (m := V.blank) rfl
  obtain ⟨hD, hEnv⟩ :=
    hV.foldl_copyGlobal V.globals.toList (fun e he => Table.mem_toList_iff.mp he) hBlank hUnbound
  rw [← duplicate_eq] at hD hEnv
  obtain ⟨h, t, hEq⟩ := duplicate_frame V
  refine ⟨by rw [hEq]; rfl, hV.congr rfl rfl, hD, funext fun x => ?_, by rw [hEq]; exact .nil⟩
  -- A name that no listed global carries is bound in neither machine.
  rw [hEnv x, List.nil_append]
  by_cases hx : x ∈ V.globals.toList.map (·.1.chars)
  · rw [if_pos hx]
    rfl
  · rw [if_neg hx]
    exact Option.not_isSome_iff_eq_none.mp fun h => hx (hV.mem_of_env h)

theorem duplicate_reset (V : Machine) : V.duplicate.reset = V.duplicate := by
  obtain ⟨h, t, hEq⟩ := duplicate_frame V
  rw [hEq]
  rfl

theorem duplicate_log (V : Machine) : V.duplicate.log = #[] := by
  obtain ⟨h, t, hEq⟩ := duplicate_frame V
  rw [hEq]
  rfl

end Copy

end Machine

end StackScript
