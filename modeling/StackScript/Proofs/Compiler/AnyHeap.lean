import StackScript.Proofs.Compiler.Blind
import StackScript.Proofs.Machine.Globals

/-! # The heap does not steer the compiler

The compiler interns names and string literals into the heap it is given, and finds a name's
constant again by the serial of its interned string. Nothing else of the heap is read: compiling
one source into two sound heaps makes the same code, lines and reports, and constant pools whose
strings have the same texts, each the string its own heap interns for it (`compile_twins`).

Two compiler states that differ only in their heaps are twins (`Compiler.Twins`): the same parse,
code and reports, constants that stand for one content, and names kept at the serials under which
the two heaps intern one text. Every step of the compiler answers alike from twins and leaves
twins (`Heedless`); this goes through the parse by the same induction on fuel as every property
of the compiler.
-/

namespace StackScript

set_option autoImplicit false

namespace Value

/-- Two values, each in its own heap, that stand for one content and compare by it there. -/
def Twin (h₁ h₂ : Heap) (v₁ v₂ : Value) : Prop :=
  v₁.Canon h₁ ∧ v₂.Canon h₂ ∧ v₁.content = v₂.content

theorem Twin.grow {h₁ h₂ h₁' h₂' : Heap} (hG₁ : h₁.Grows h₁') (hW₁ : h₁.WF) (hG₂ : h₂.Grows h₂')
    (hW₂ : h₂.WF) {v₁ v₂ : Value} (hv : Twin h₁ h₂ v₁ v₂) : Twin h₁' h₂' v₁ v₂ :=
  ⟨hv.1.grow hG₁ hW₁, hv.2.1.grow hG₂ hW₂, hv.2.2⟩

/-- The strings two heaps intern for one text are twins. -/
theorem twin_of_lookup {h₁ h₂ : Heap} {c : Bytes} {k₁ k₂ : Str} (hl₁ : h₁.lookup? c = some k₁)
    (hl₂ : h₂.lookup? c = some k₂) : Twin h₁ h₂ (.obj (.str k₁)) (.obj (.str k₂)) := by
  obtain ⟨hc₁, hv₁⟩ := canon_str hl₁
  obtain ⟨hc₂, hv₂⟩ := canon_str hl₂
  exact ⟨hc₁, hc₂, hv₁.trans hv₂.symm⟩

end Value

namespace Compiler

/-- A compiler state without what its heap decides: the heap, the constants and the names. -/
def skeleton (s : Compiler) : Compiler :=
  { s with heap := Heap.empty, chunk := { s.chunk with constants := #[] }, names := [] }

/-- Entries of two compiles' names: one index, at the serials under which two heaps intern one
text. -/
def NameTwin (h₁ h₂ : Heap) (p₁ p₂ : Nat × Nat) : Prop :=
  p₁.2 = p₂.2 ∧ ∃ (c : Bytes) (k₁ k₂ : Str), h₁.lookup? c = some k₁ ∧ h₂.lookup? c = some k₂ ∧
    p₁.1 = k₁.serial ∧ p₂.1 = k₂.serial

/-- Two compiler states that differ only in the sound heaps they intern into. -/
structure Twins (s₁ s₂ : Compiler) : Prop where
  skeleton : s₁.skeleton = s₂.skeleton
  heap₁ : s₁.heap.WF
  heap₂ : s₂.heap.WF
  constants : List.Forall₂ (Value.Twin s₁.heap s₂.heap) s₁.chunk.constants.toList s₂.chunk.constants.toList
  names : List.Forall₂ (NameTwin s₁.heap s₂.heap) s₁.names s₂.names

variable {s₁ s₂ : Compiler}

namespace Twins

theorem tokens (hT : Twins s₁ s₂) : s₁.tokens = s₂.tokens := (congrArg Compiler.tokens hT.skeleton :)

theorem previous (hT : Twins s₁ s₂) : s₁.previous = s₂.previous := (congrArg Compiler.previous hT.skeleton :)

theorem current (hT : Twins s₁ s₂) : s₁.current = s₂.current := (congrArg Compiler.current hT.skeleton :)

theorem panicMode (hT : Twins s₁ s₂) : s₁.panicMode = s₂.panicMode :=
  (congrArg Compiler.panicMode hT.skeleton :)

theorem hadError (hT : Twins s₁ s₂) : s₁.hadError = s₂.hadError := (congrArg Compiler.hadError hT.skeleton :)

theorem diagnostics (hT : Twins s₁ s₂) : s₁.diagnostics = s₂.diagnostics :=
  (congrArg Compiler.diagnostics hT.skeleton :)

theorem chunk_name (hT : Twins s₁ s₂) : s₁.chunk.name = s₂.chunk.name :=
  (congrArg (fun s => s.chunk.name) hT.skeleton :)

theorem code (hT : Twins s₁ s₂) : s₁.chunk.code = s₂.chunk.code := (congrArg (fun s => s.chunk.code) hT.skeleton :)

theorem lines (hT : Twins s₁ s₂) : s₁.chunk.lines = s₂.chunk.lines :=
  (congrArg (fun s => s.chunk.lines) hT.skeleton :)

theorem size (hT : Twins s₁ s₂) : s₁.chunk.constants.size = s₂.chunk.constants.size := by
  rw [← Array.length_toList, ← Array.length_toList]
  exact hT.constants.length_eq

/-- An update of the parse, the code or the reports that reads nothing else keeps twins twins. -/
theorem map {g : Compiler → Compiler}
    (hg : ∀ s, (g s).heap = s.heap ∧ (g s).chunk.constants = s.chunk.constants ∧ (g s).names = s.names)
    (hk : ∀ s, (g s).skeleton = (g s.skeleton).skeleton) (hT : Twins s₁ s₂) : Twins (g s₁) (g s₂) := by
  obtain ⟨hH₁, hC₁, hN₁⟩ := hg s₁
  obtain ⟨hH₂, hC₂, hN₂⟩ := hg s₂
  refine ⟨by rw [hk s₁, hk s₂, hT.skeleton], hH₁ ▸ hT.heap₁, hH₂ ▸ hT.heap₂, ?_, ?_⟩
  · rw [hH₁, hH₂, hC₁, hC₂]
    exact hT.constants
  · rw [hH₁, hH₂, hN₁, hN₂]
    exact hT.names

/-- Growing both heaps keeps twins twins. -/
theorem grow {h₁ h₂ : Heap} (hT : Twins s₁ s₂) (hG₁ : s₁.heap.Grows h₁) (hG₂ : s₂.heap.Grows h₂) :
    Twins { s₁ with heap := h₁ } { s₂ with heap := h₂ } := by
  obtain ⟨hW₁, hF₁⟩ := hG₁ hT.heap₁
  obtain ⟨hW₂, hF₂⟩ := hG₂ hT.heap₂
  refine ⟨hT.skeleton, hW₁, hW₂, hT.constants.imp fun _ _ hv => hv.grow hG₁ hT.heap₁ hG₂ hT.heap₂,
    hT.names.imp ?_⟩
  rintro p₁ p₂ ⟨hi, c, k₁, k₂, hl₁, hl₂, hs₁, hs₂⟩
  exact ⟨hi, c, k₁, k₂, hF₁ _ _ hl₁, hF₂ _ _ hl₂, hs₁, hs₂⟩

/-- Interning one text into both heaps keeps twins twins, and finds it at the strings answered. -/
theorem intern (hT : Twins s₁ s₂) (c : Bytes) :
    Twins { s₁ with heap := (s₁.heap.intern c).1 } { s₂ with heap := (s₂.heap.intern c).1 } ∧
      (s₁.heap.intern c).1.lookup? c = some (s₁.heap.intern c).2 ∧
      (s₂.heap.intern c).1.lookup? c = some (s₂.heap.intern c).2 := by
  refine ⟨hT.grow (Heap.grows_intern _ c) (Heap.grows_intern _ c), ?_, ?_⟩
  · rw [(hT.heap₁.intern c).2.1 c, if_pos rfl]
  · rw [(hT.heap₂.intern c).2.1 c, if_pos rfl]

/-- Adding twin constants keeps twins twins. -/
theorem addConstant (hT : Twins s₁ s₂) {v₁ v₂ : Value} (hv : v₁.Twin s₁.heap s₂.heap v₂) :
    Twins { s₁ with chunk := (s₁.chunk.addConstant v₁).1 } { s₂ with chunk := (s₂.chunk.addConstant v₂).1 } := by
  refine ⟨hT.skeleton, hT.heap₁, hT.heap₂, ?_, hT.names⟩
  simp only [Chunk.addConstant, Array.toList_push]
  exact List.rel_append hT.constants (List.Forall₂.cons hv List.Forall₂.nil)

/-- Recording one text's constant under both heaps' serials keeps twins twins. -/
theorem name (hT : Twins s₁ s₂) {c : Bytes} {k₁ k₂ : Str} (hl₁ : s₁.heap.lookup? c = some k₁)
    (hl₂ : s₂.heap.lookup? c = some k₂) (i : Nat) :
    Twins { s₁ with names := (k₁.serial, i) :: s₁.names } { s₂ with names := (k₂.serial, i) :: s₂.names } :=
  ⟨hT.skeleton, hT.heap₁, hT.heap₂, hT.constants, .cons ⟨rfl, c, k₁, k₂, hl₁, hl₂, rfl, rfl⟩ hT.names⟩

end Twins

/-- Twin names find the constant of a text at one index in both compiles. -/
theorem lookup_names {h₁ h₂ : Heap} (hW₁ : h₁.WF) (hW₂ : h₂.WF) {ns₁ ns₂ : List (Nat × Nat)}
    (hN : List.Forall₂ (NameTwin h₁ h₂) ns₁ ns₂) {c : Bytes} {k₁ k₂ : Str}
    (hl₁ : h₁.lookup? c = some k₁) (hl₂ : h₂.lookup? c = some k₂) :
    ns₁.lookup k₁.serial = ns₂.lookup k₂.serial := by
  induction hN with
  | nil => rfl
  | @cons p₁ p₂ ns₁ ns₂ hp _ ih =>
    obtain ⟨hi, c', k₁', k₂', hl₁', hl₂', hs₁, hs₂⟩ := hp
    -- Each entry's serial is the one its heap interns `c'` under: it matches exactly when `c' = c`.
    have hIff : ∀ {h : Heap} {k k' : Str}, h.WF → h.lookup? c = some k → h.lookup? c' = some k' →
        (k.serial = k'.serial ↔ c = c') := fun hW hl hl' =>
      ⟨hW.lookup?_serial_inj hl hl', fun hc => by
        subst hc
        rw [Option.some.inj (hl.symm.trans hl')]⟩
    obtain ⟨a₁, b₁⟩ := p₁
    obtain ⟨a₂, b₂⟩ := p₂
    dsimp only at hi hs₁ hs₂
    subst hi hs₁ hs₂
    rw [List.lookup_cons, List.lookup_cons]
    by_cases hc : c = c'
    · rw [beq_iff_eq.mpr ((hIff hW₁ hl₁ hl₁').mpr hc), beq_iff_eq.mpr ((hIff hW₂ hl₂ hl₂').mpr hc)]
    · rw [beq_eq_false_iff_ne.mpr (mt (hIff hW₁ hl₁ hl₁').mp hc),
        beq_eq_false_iff_ne.mpr (mt (hIff hW₂ hl₂ hl₂').mp hc)]
      exact ih

/-! ## Steps that run alike -/

/-- Two steps, run from two states, answer alike and leave twins. -/
def Alike {α : Type} (m₁ m₂ : M α) (s₁ s₂ : Compiler) : Prop :=
  (m₁.run s₁).1 = (m₂.run s₂).1 ∧ Twins (m₁.run s₁).2 (m₂.run s₂).2

/-- A step that runs alike from twins, whichever heaps they intern into. -/
def Heedless {α : Type} (m : M α) : Prop := ∀ ⦃s₁ s₂ : Compiler⦄, Twins s₁ s₂ → Alike m m s₁ s₂

theorem Alike.bind {α β : Type} {a₁ a₂ : M α} {f : α → M β} (ha : Alike a₁ a₂ s₁ s₂)
    (hf : ∀ x, Heedless (f x)) : Alike (a₁ >>= f) (a₂ >>= f) s₁ s₂ := by
  obtain ⟨hEq, hT⟩ := ha
  rw [Alike, run_bind, run_bind, hEq]
  exact hf _ hT

theorem Heedless.bind {α β : Type} {a : M α} {f : α → M β} (ha : Heedless a) (hf : ∀ x, Heedless (f x)) :
    Heedless (a >>= f) :=
  fun _ _ hT => (ha hT).bind hf

theorem heedless_pure {α : Type} (a : α) : Heedless (pure a : M α) := fun _ _ hT => ⟨rfl, hT⟩

theorem heedless_ite {α : Type} {c : Prop} [Decidable c] {a b : M α} (ha : Heedless a) (hb : Heedless b) :
    Heedless (if c then a else b) := by
  split
  · exact ha
  · exact hb

/-- Reading the state runs alike when what follows reads only what twins share. -/
theorem heedless_get_bind {β : Type} {f : Compiler → M β} (hf : ∀ s₁ s₂, Twins s₁ s₂ → f s₁ = f s₂)
    (hb : ∀ s, Heedless (f s)) : Heedless (get >>= f) := by
  intro s₁ s₂ hT
  rw [Alike, run_get_bind, run_get_bind, hf s₁ s₂ hT]
  exact hb s₂ hT

/-- An update of the parse, the code or the reports that reads nothing else runs alike. -/
theorem heedless_modify {g : Compiler → Compiler}
    (hg : ∀ s, (g s).heap = s.heap ∧ (g s).chunk.constants = s.chunk.constants ∧ (g s).names = s.names)
    (hk : ∀ s, (g s).skeleton = (g s.skeleton).skeleton) : Heedless (modify g) :=
  fun _ _ hT => ⟨rfl, hT.map hg hk⟩

/-- Reading the state and writing a part of it runs alike when the write keeps twins twins and
what follows reads only what twins share. -/
theorem heedless_get_set_bind {β : Type} {g : Compiler → Compiler} {k : Compiler → M β}
    (hg : ∀ s, (g s).heap = s.heap ∧ (g s).chunk.constants = s.chunk.constants ∧ (g s).names = s.names)
    (hgk : ∀ s, (g s).skeleton = (g s.skeleton).skeleton) (hk : ∀ s₁ s₂, Twins s₁ s₂ → k s₁ = k s₂)
    (hb : ∀ s, Heedless (k s)) : Heedless (get >>= fun s => set (g s) >>= fun _ => k s) := by
  intro s₁ s₂ hT
  rw [Alike, run_get_bind, run_get_bind, run_bind, run_bind, run_set, run_set, hk s₁ s₂ hT]
  exact hb s₂ (hT.map hg hgk)

/-- Interning a text and going on with its string runs alike when going on with twin strings
does. -/
theorem heedless_intern_bind {β : Type} (c : Bytes) {K : Value → M β}
    (hK : ∀ ⦃s₁ s₂ : Compiler⦄ ⦃v₁ v₂ : Value⦄, Twins s₁ s₂ → v₁.Twin s₁.heap s₂.heap v₂ →
      Alike (K v₁) (K v₂) s₁ s₂) :
    Heedless (get >>= fun s => set { s with heap := (s.heap.intern c).1 } >>= fun _ =>
      K (.obj (.str (s.heap.intern c).2))) := by
  intro s₁ s₂ hT
  obtain ⟨hT', hl₁, hl₂⟩ := hT.intern c
  rw [Alike, run_get_bind, run_get_bind, run_bind, run_bind, run_set, run_set]
  exact hK hT' (Value.twin_of_lookup hl₁ hl₂)

/-! ## The steps of the compiler -/

theorem heedless_errorAt (t : Token) (message : String) : Heedless (errorAt t message) :=
  heedless_modify (fun s => by by_cases h : s.panicMode = true <;> simp [h])
    (fun s => by by_cases h : s.panicMode = true <;> simp [h, skeleton])

theorem heedless_error (message : String) : Heedless (error message) :=
  heedless_get_bind (fun _ _ hT => by simp only [hT.previous]) fun _ => heedless_errorAt _ _

theorem heedless_errorAtCurrent (message : String) : Heedless (errorAtCurrent message) :=
  heedless_get_bind (fun _ _ hT => by simp only [hT.current]) fun _ => heedless_errorAt _ _

theorem heedless_skip : ∀ fuel, Heedless (advance.skip fuel)
  | 0 => heedless_pure _
  | fuel + 1 => by
    rw [advance.skip_succ]
    exact heedless_get_set_bind (fun _ => ⟨rfl, rfl, rfl⟩) (fun _ => rfl)
      (fun _ _ hT => by simp only [hT.tokens]) fun _ =>
        heedless_ite ((heedless_errorAtCurrent _).bind fun _ => heedless_skip fuel) (heedless_pure _)

theorem heedless_advance : Heedless advance := by
  refine Heedless.bind (heedless_modify (fun _ => ⟨rfl, rfl, rfl⟩) fun _ => rfl) fun _ => ?_
  exact heedless_get_bind (fun _ _ hT => by simp only [hT.tokens]) fun _ => heedless_skip _

theorem heedless_accept (k : TokenKind) : Heedless (accept k) :=
  (heedless_get_bind (fun _ _ hT => by simp only [hT.current]) fun _ => heedless_pure _).bind fun _ =>
    heedless_ite (heedless_advance.bind fun _ => heedless_pure _) (heedless_pure _)

theorem heedless_consume (k : TokenKind) (message : String) : Heedless (consume k message) :=
  (heedless_get_bind (fun _ _ hT => by simp only [hT.current]) fun _ => heedless_pure _).bind fun _ =>
    heedless_ite heedless_advance (heedless_errorAtCurrent _)

theorem heedless_emit (b : UInt8) : Heedless (emit b) :=
  heedless_modify (fun _ => ⟨rfl, rfl, rfl⟩) fun _ => rfl

theorem heedless_forM_emitOp : ∀ ops : List Op, Heedless (ops.forM emitOp)
  | [] => heedless_pure _
  | op :: ops => (heedless_emit op.code).bind fun _ => heedless_forM_emitOp ops

/-- Twin constants take one index, and the same report when the pool is full. -/
theorem alike_addConstant (hT : Twins s₁ s₂) {v₁ v₂ : Value} (hv : v₁.Twin s₁.heap s₂.heap v₂) :
    Alike (addConstant v₁) (addConstant v₂) s₁ s₂ := by
  rw [addConstant_eq v₁, addConstant_eq v₂, Alike, run_get_bind, run_get_bind, run_bind, run_bind,
    run_set, run_set]
  have hT' := hT.addConstant hv
  have hIdx : (s₁.chunk.addConstant v₁).2 = (s₂.chunk.addConstant v₂).2 := hT.size
  rw [hIdx]
  by_cases hFull : (s₂.chunk.addConstant v₂).2 ≥ Chunk.maxConstants
  · rw [if_pos hFull]
    exact (heedless_error _).bind (fun _ => heedless_pure _) hT'
  · rw [if_neg hFull]
    exact ⟨rfl, hT'⟩

theorem alike_emitConstant (hT : Twins s₁ s₂) {v₁ v₂ : Value} (hv : v₁.Twin s₁.heap s₂.heap v₂) :
    Alike (emitConstant v₁) (emitConstant v₂) s₁ s₂ :=
  (alike_addConstant hT hv).bind fun _ => (heedless_emit _).bind fun _ => heedless_emit _

theorem heedless_emitConstant_number (x : Float) : Heedless (emitConstant (.number x)) :=
  fun _ _ hT => alike_emitConstant hT ⟨trivial, trivial, rfl⟩

/-- A name's constant is found, or added, at one index in twins. -/
theorem heedless_nameConstant (t : Token) : Heedless (nameConstant t) := by
  intro s₁ s₂ hT
  obtain ⟨hT', hl₁, hl₂⟩ := hT.intern t.text
  have hLookup : s₁.names.lookup (s₁.heap.intern t.text).2.serial =
      s₂.names.lookup (s₂.heap.intern t.text).2.serial :=
    lookup_names hT'.heap₁ hT'.heap₂ hT'.names hl₁ hl₂
  rw [nameConstant_eq, Alike, run_get_bind, run_get_bind, run_bind, run_bind,
    run_set, run_set, hLookup]
  cases s₂.names.lookup (s₂.heap.intern t.text).2.serial with
  | some i => exact ⟨rfl, hT'⟩
  | none =>
    -- A new name: its constant goes in at one index, and its entry at both heaps' serials.
    obtain ⟨hEq, hTA⟩ := alike_addConstant hT' (Value.twin_of_lookup hl₁ hl₂)
    have hKeep₁ := (keeps_addConstant (.obj (.str (s₁.heap.intern t.text).2))
      { s₁ with heap := (s₁.heap.intern t.text).1 }).heap hT'.heap₁
    have hKeep₂ := (keeps_addConstant (.obj (.str (s₂.heap.intern t.text).2))
      { s₂ with heap := (s₂.heap.intern t.text).1 }).heap hT'.heap₂
    dsimp only
    rw [run_bind, run_bind, hEq]
    cases ((addConstant (.obj (.str (s₂.heap.intern t.text).2))).run
        { s₂ with heap := (s₂.heap.intern t.text).1 }).1 with
    | none => exact ⟨rfl, hTA⟩
    | some i =>
      exact ⟨rfl, hTA.name (hKeep₁.2 _ _ hl₁) (hKeep₂.2 _ _ hl₂) i⟩

/-! ## The parse -/

theorem heedless_infixLoop {fuel : Nat} (hP : ∀ p, Heedless (parsePrecedence fuel p)) :
    ∀ steps p c, Heedless (infixLoop fuel steps p c)
  | 0, p, c => by
    rw [infixLoop]
    exact heedless_pure _
  | steps + 1, p, c => by
    rw [infixLoop]
    exact heedless_get_bind (fun _ _ hT => by simp only [hT.current]) fun _ =>
      heedless_ite (heedless_advance.bind fun _ => (hP _).bind fun _ =>
          (heedless_forM_emitOp _).bind fun _ => heedless_infixLoop hP steps p c)
        (heedless_ite ((heedless_accept _).bind fun _ =>
          heedless_ite (heedless_error _) (heedless_pure _)) (heedless_pure _))

theorem heedless_parse : ∀ fuel, (∀ p, Heedless (parsePrecedence fuel p)) ∧
    ∀ steps p c, Heedless (infixLoop fuel steps p c) := by
  intro fuel
  induction fuel with
  | zero =>
    have hP : ∀ p, Heedless (parsePrecedence 0 p) := fun p => by
      rw [parsePrecedence]
      exact heedless_pure _
    exact ⟨hP, heedless_infixLoop hP⟩
  | succ fuel ih =>
    have hLoop := heedless_infixLoop ih.1
    have hP : ∀ p, Heedless (parsePrecedence (fuel + 1) p) := fun p => by
      have hTail : ∀ {α : Type} (m : M α), Heedless m → Heedless (m >>= fun _ => get >>= fun s =>
          infixLoop fuel (s.tokens.length + 1) p (decide (p ≤ assignPrecedence))) :=
        fun m hm => hm.bind fun _ =>
          heedless_get_bind (fun _ _ hT => by simp only [hT.tokens]) fun _ => hLoop _ _ _
      have hEmit : ∀ op : Op, Heedless (emitOp op) := fun _ => heedless_emit _
      rw [parsePrecedence]
      refine heedless_advance.bind fun _ =>
        heedless_get_bind (fun _ _ hT => by simp only [hT.previous]) fun s => ?_
      dsimp only
      split
      · exact hTail _ ((ih.1 _).bind fun _ => heedless_consume _ _)
      · exact hTail _ ((ih.1 _).bind fun _ => hEmit _)
      · exact hTail _ ((ih.1 _).bind fun _ => hEmit _)
      · exact hTail _ (heedless_emitConstant_number _)
      · -- A string literal interns its body in each heap; the constants are twin strings.
        show Heedless (get >>= fun x =>
          set ({ x with heap := (x.heap.intern (stringBody s.previous.text)).1 } : Compiler) >>= fun _ =>
            emitConstant (.obj (.str (x.heap.intern (stringBody s.previous.text)).2)) >>= fun _ =>
              get >>= fun s => infixLoop fuel (s.tokens.length + 1) p (decide (p ≤ assignPrecedence)))
        exact heedless_intern_bind _ fun _ _ _ _ hT hv =>
          (alike_emitConstant hT hv).bind fun _ =>
            heedless_get_bind (fun _ _ hT => by simp only [hT.tokens]) fun _ => hLoop _ _ _
      · exact hTail _ (hEmit _)
      · exact hTail _ (hEmit _)
      · exact hTail _ (hEmit _)
      · refine (heedless_nameConstant _).bind fun arg => ?_
        refine heedless_ite ((heedless_accept _).bind fun b => ?_) ((heedless_pure _).bind fun b => ?_) <;>
        exact heedless_ite (hTail _ (((ih.1 _).bind fun _ => hEmit _).bind fun _ => heedless_emit _))
          (hTail _ ((hEmit _).bind fun _ => heedless_emit _))
      · exact heedless_error _
    exact ⟨hP, heedless_infixLoop hP⟩

theorem heedless_expression : Heedless expression :=
  heedless_get_bind (fun _ _ hT => by simp only [hT.tokens]) fun _ => (heedless_parse _).1 _

theorem heedless_synchronize_go : ∀ fuel, Heedless (synchronize.go fuel)
  | 0 => heedless_pure _
  | fuel + 1 => by
    rw [synchronize.go]
    exact heedless_get_bind (fun _ _ hT => by simp only [hT.current, hT.previous]) fun _ =>
      heedless_ite (heedless_pure _) (heedless_advance.bind fun _ => heedless_synchronize_go fuel)

theorem heedless_synchronize : Heedless synchronize := by
  refine Heedless.bind (heedless_modify (fun _ => ⟨rfl, rfl, rfl⟩) fun _ => rfl) fun _ => ?_
  exact heedless_get_bind (fun _ _ hT => by simp only [hT.tokens]) fun _ => heedless_synchronize_go _

theorem heedless_settle :
    Heedless (get >>= fun x => if x.panicMode = true then synchronize else pure ()) :=
  heedless_get_bind (fun _ _ hT => by simp only [hT.panicMode]) fun _ =>
    heedless_ite heedless_synchronize (heedless_pure _)

theorem heedless_varDeclaration : Heedless varDeclaration :=
  ((heedless_consume _ _).bind fun _ =>
      heedless_get_bind (fun _ _ hT => by simp only [hT.previous]) fun _ => heedless_nameConstant _).bind
    fun _ => (heedless_accept _).bind fun _ =>
      heedless_ite (heedless_expression.bind fun _ => (heedless_consume _ _).bind fun _ =>
          (heedless_emit _).bind fun _ => heedless_emit _)
        ((heedless_emit _).bind fun _ => (heedless_consume _ _).bind fun _ =>
          (heedless_emit _).bind fun _ => heedless_emit _)

theorem heedless_statement : Heedless statement :=
  (heedless_accept _).bind fun _ =>
    heedless_ite (heedless_expression.bind fun _ => (heedless_consume _ _).bind fun _ => heedless_emit _)
      (heedless_expression.bind fun _ => (heedless_consume _ _).bind fun _ => heedless_emit _)

theorem heedless_declaration : Heedless declaration :=
  (heedless_accept _).bind fun _ =>
    heedless_ite (heedless_varDeclaration.bind fun _ => heedless_settle)
      (heedless_statement.bind fun _ => heedless_settle)

theorem heedless_declarations : ∀ fuel, Heedless (declarations fuel)
  | 0 => heedless_pure _
  | fuel + 1 =>
    (heedless_accept _).bind fun _ =>
      heedless_ite (heedless_pure _) (heedless_declaration.bind fun _ => heedless_declarations fuel)

end Compiler

open Compiler

/-- Two chunks, each with its constants in its own heap, that run alike: one name, code and line
table, and twin constants. -/
structure Chunk.Twin (h₁ h₂ : Heap) (c₁ c₂ : Chunk) : Prop where
  name : c₁.name = c₂.name
  code : c₁.code = c₂.code
  lines : c₁.lines = c₂.lines
  constants : List.Forall₂ (Value.Twin h₁ h₂) c₁.constants.toList c₂.constants.toList

/-- Compiling one source into two sound heaps fails alike, and otherwise makes twin chunks; both
heaps stay sound. -/
theorem compile_twins (src : Bytes) {h₁ h₂ : Heap} (hW₁ : h₁.WF) (hW₂ : h₂.WF) (name : String) :
    (compile src h₁ name).failure = (compile src h₂ name).failure ∧
      Chunk.Twin (compile src h₁ name).heap (compile src h₂ name).heap
        (compile src h₁ name).chunk (compile src h₂ name).chunk := by
  have hStart : Twins (start (Scanner.scan src).1 h₁ (if name.isEmpty then "<script>" else name))
      (start (Scanner.scan src).1 h₂ (if name.isEmpty then "<script>" else name)) :=
    ⟨rfl, hW₁, hW₂, .nil, .nil⟩
  have hRun : Heedless (do advance; declarations ((Scanner.scan src).1.length + 1); emitOp .ret : M Unit) :=
    heedless_advance.bind fun _ => (heedless_declarations _).bind fun _ => heedless_emit _
  -- Read both compiles off their last states, which the run keeps twins.
  have hT : Twins (compileState src h₁ name) (compileState src h₂ name) := (hRun hStart).2
  rw [compile_failure, compile_failure, compile_heap_eq, compile_heap_eq, compile_chunk_eq, compile_chunk_eq]
  exact ⟨by rw [hT.hadError, hT.diagnostics], hT.chunk_name, hT.code, hT.lines, hT.constants⟩

end StackScript
