import StackScript.Proofs.Compiler.Diagnostics
import StackScript.Proofs.Compiler.Acceptance

/-! # Earlier reports do not steer the compiler

No step of the compiler reads the reports made so far, nor whether an error was recorded: a step
run after earlier reports runs as it would without them and adds its own reports after them
(`Blind`). Every step is built from reading and writing other parts of the state, so this goes
through the parse by the same induction on fuel as every property of the compiler.

So what is known of a declaration compiled from a state with no error, such as the simulation
of the reference parser, holds of it anywhere in a program (`Blind.run_eq`).
-/

namespace StackScript

set_option autoImplicit false

namespace Compiler

/-- `s` after the reports `D`, with an error recorded if `e`. -/
def after (D : Array Diagnostic) (e : Bool) (s : Compiler) : Compiler :=
  { s with hadError := e || s.hadError, diagnostics := D ++ s.diagnostics }

/-- Clearing the reports of a state and making them again gives it back. -/
theorem after_clear (s : Compiler) :
    ({ s with hadError := false, diagnostics := #[] } : Compiler).after s.diagnostics s.hadError = s := by
  simp [after]

/-- A step that runs the same after earlier reports, and adds its own after them. -/
def Blind {α : Type} (m : M α) : Prop :=
  ∀ (D : Array Diagnostic) (e : Bool) (s : Compiler),
    m.run (s.after D e) = ((m.run s).1, (m.run s).2.after D e)

/-- A run from any state is the run from its cleared state, after the state's reports. -/
theorem Blind.run_eq {α : Type} {m : M α} (h : Blind m) (s : Compiler) :
    m.run s = ((m.run { s with hadError := false, diagnostics := #[] }).1,
      (m.run { s with hadError := false, diagnostics := #[] }).2.after s.diagnostics s.hadError) := by
  conv_lhs => rw [← after_clear s]
  exact h _ _ _

theorem Blind.bind {α β : Type} {a : M α} {f : α → M β} (ha : Blind a) (hf : ∀ x, Blind (f x)) :
    Blind (a >>= f) := by
  intro D e s
  rw [run_bind, run_bind, ha D e s]
  exact hf _ D e _

theorem blind_pure {α : Type} (a : α) : Blind (pure a : M α) := fun _ _ _ => rfl

theorem blind_ite {α : Type} {c : Prop} [Decidable c] {a b : M α} (ha : Blind a) (hb : Blind b) :
    Blind (if c then a else b) := by
  split
  · exact ha
  · exact hb

/-- Reading the state is blind when what is read is no report. -/
theorem blind_get_bind {β : Type} {f : Compiler → M β}
    (hf : ∀ (D : Array Diagnostic) (e : Bool) (s : Compiler), f (s.after D e) = f s)
    (hb : ∀ s, Blind (f s)) : Blind (get >>= f) := by
  intro D e s
  rw [run_get_bind, run_get_bind, hf]
  exact hb s D e s

/-- Changing the state is blind when the change leaves the reports. -/
theorem blind_modify {g : Compiler → Compiler}
    (hg : ∀ (D : Array Diagnostic) (e : Bool) (s : Compiler), g (s.after D e) = (g s).after D e) :
    Blind (modify g) := by
  intro D e s
  rw [run_modify, run_modify, hg]

theorem blind_errorAt (t : Token) (message : String) : Blind (errorAt t message) := by
  refine blind_modify fun D e s => ?_
  by_cases hPanic : s.panicMode = true <;> simp [after, hPanic]

theorem blind_error (message : String) : Blind (error message) :=
  blind_get_bind (fun _ _ _ => rfl) fun _ => blind_errorAt _ _

theorem blind_errorAtCurrent (message : String) : Blind (errorAtCurrent message) :=
  blind_get_bind (fun _ _ _ => rfl) fun _ => blind_errorAt _ _

/-- Reading the state, then writing a part of it other than the reports, is blind when what
follows reads no report. -/
theorem blind_get_set_bind {β : Type} {g : Compiler → Compiler} {k : Compiler → M β}
    (hg : ∀ (D : Array Diagnostic) (e : Bool) (s : Compiler), g (s.after D e) = (g s).after D e)
    (hk : ∀ (D : Array Diagnostic) (e : Bool) (s : Compiler), k (s.after D e) = k s)
    (hb : ∀ s, Blind (k s)) : Blind (get >>= fun s => set (g s) >>= fun _ => k s) := by
  intro D e s
  rw [run_get_bind, run_get_bind, run_bind, run_bind, run_set, run_set, hg, hk]
  exact hb s D e (g s)

theorem advance.skip_succ (fuel : Nat) : advance.skip (fuel + 1) = (get >>= fun s =>
    set ({ s with current := (pop s.tokens).1, tokens := (pop s.tokens).2, pulls := s.pulls + 1 }
      : Compiler) >>= fun _ =>
      if (pop s.tokens).1.kind == .error then
        errorAtCurrent ((Bytes.toString? (pop s.tokens).1.text).getD "") >>= fun _ => advance.skip fuel
      else pure ()) := rfl

theorem addConstant_eq (v : Value) : addConstant v = (get >>= fun s =>
    set ({ s with chunk := (s.chunk.addConstant v).1 } : Compiler) >>= fun _ =>
      if (s.chunk.addConstant v).2 ≥ Chunk.maxConstants then
        error "Too many constants in one chunk." >>= fun _ => pure none
      else pure (some (s.chunk.addConstant v).2)) := rfl

theorem blind_skip : ∀ fuel, Blind (advance.skip fuel)
  | 0 => blind_pure _
  | fuel + 1 => by
    rw [advance.skip_succ]
    exact blind_get_set_bind (fun _ _ _ => rfl) (fun _ _ _ => rfl) fun _ =>
      blind_ite ((blind_errorAtCurrent _).bind fun _ => blind_skip fuel) (blind_pure _)

theorem blind_advance : Blind advance :=
  (blind_modify fun _ _ _ => rfl).bind fun _ =>
    blind_get_bind (fun _ _ _ => rfl) fun _ => blind_skip _

theorem blind_accept (k : TokenKind) : Blind (accept k) :=
  (blind_get_bind (fun _ _ _ => rfl) fun _ => blind_pure _).bind fun _ =>
    blind_ite (blind_advance.bind fun _ => blind_pure _) (blind_pure _)

theorem blind_consume (k : TokenKind) (message : String) : Blind (consume k message) :=
  (blind_get_bind (fun _ _ _ => rfl) fun _ => blind_pure _).bind fun _ =>
    blind_ite blind_advance (blind_errorAtCurrent _)

theorem blind_emit (b : UInt8) : Blind (emit b) := blind_modify fun _ _ _ => rfl

theorem blind_forM_emitOp : ∀ ops : List Op, Blind (ops.forM emitOp)
  | [] => blind_pure _
  | op :: ops => (blind_emit op.code).bind fun _ => blind_forM_emitOp ops

theorem blind_addConstant (v : Value) : Blind (addConstant v) := by
  rw [addConstant_eq]
  exact blind_get_set_bind (fun _ _ _ => rfl) (fun _ _ _ => rfl) fun _ =>
    blind_ite ((blind_error _).bind fun _ => blind_pure _) (blind_pure _)

theorem blind_emitConstant (v : Value) : Blind (emitConstant v) :=
  (blind_addConstant v).bind fun _ => (blind_emit _).bind fun _ => blind_emit _

theorem nameConstant_eq (t : Token) : nameConstant t = (get >>= fun s =>
    set ({ s with heap := (s.heap.intern t.text).1 } : Compiler) >>= fun _ =>
      match s.names.lookup (s.heap.intern t.text).2.serial with
      | some i => pure i
      | none => do
        match ← addConstant (.obj (.str (s.heap.intern t.text).2)) with
        | some i =>
          modify fun s' => { s' with names := ((s.heap.intern t.text).2.serial, i) :: s'.names }
          pure i
        | none => pure 0) := rfl

theorem blind_nameConstant (t : Token) : Blind (nameConstant t) := by
  rw [nameConstant_eq]
  refine blind_get_set_bind (fun _ _ _ => rfl) (fun _ _ _ => rfl) fun s => ?_
  split
  · exact blind_pure _
  · refine (blind_addConstant _).bind fun o => ?_
    split
    · exact (blind_modify fun _ _ _ => rfl).bind fun _ => blind_pure _
    · exact blind_pure _

/-! ## The parse -/

theorem blind_infixLoop {fuel : Nat} (hP : ∀ p, Blind (parsePrecedence fuel p)) :
    ∀ steps p c, Blind (infixLoop fuel steps p c)
  | 0, p, c => by
    rw [infixLoop]
    exact blind_pure _
  | steps + 1, p, c => by
    rw [infixLoop]
    exact blind_get_bind (fun _ _ _ => rfl) fun _ =>
      blind_ite (blind_advance.bind fun _ => (hP _).bind fun _ => (blind_forM_emitOp _).bind fun _ =>
          blind_infixLoop hP steps p c)
        (blind_ite ((blind_accept _).bind fun _ => blind_ite (blind_error _) (blind_pure _)) (blind_pure _))

theorem blind_parse : ∀ fuel, (∀ p, Blind (parsePrecedence fuel p)) ∧
    ∀ steps p c, Blind (infixLoop fuel steps p c) := by
  intro fuel
  induction fuel with
  | zero =>
    have hP : ∀ p, Blind (parsePrecedence 0 p) := fun p => by
      rw [parsePrecedence]
      exact blind_pure _
    exact ⟨hP, blind_infixLoop hP⟩
  | succ fuel ih =>
    have hLoop := blind_infixLoop ih.1
    have hP : ∀ p, Blind (parsePrecedence (fuel + 1) p) := fun p => by
      have hTail : ∀ {α : Type} (m : M α), Blind m → Blind (m >>= fun _ => get >>= fun s =>
          infixLoop fuel (s.tokens.length + 1) p (decide (p ≤ assignPrecedence))) :=
        fun m hm => hm.bind fun _ => blind_get_bind (fun _ _ _ => rfl) fun _ => hLoop _ _ _
      have hEmit : ∀ op : Op, Blind (emitOp op) := fun _ => blind_emit _
      rw [parsePrecedence]
      refine blind_advance.bind fun _ => blind_get_bind (fun _ _ _ => rfl) fun s => ?_
      dsimp only
      split
      · exact hTail _ ((ih.1 _).bind fun _ => blind_consume _ _)
      · exact hTail _ ((ih.1 _).bind fun _ => hEmit _)
      · exact hTail _ ((ih.1 _).bind fun _ => hEmit _)
      · exact hTail _ (blind_emitConstant _)
      · -- A string literal interns its body, which leaves the reports alone.
        show Blind (get >>= fun x =>
          set ({ x with heap := (x.heap.intern (stringBody s.previous.text)).1 } : Compiler) >>= fun _ =>
            emitConstant (.obj (.str (x.heap.intern (stringBody s.previous.text)).2)) >>= fun _ =>
              get >>= fun s => infixLoop fuel (s.tokens.length + 1) p (decide (p ≤ assignPrecedence)))
        exact blind_get_set_bind (fun _ _ _ => rfl) (fun _ _ _ => rfl) fun _ => hTail _ (blind_emitConstant _)
      · exact hTail _ (hEmit _)
      · exact hTail _ (hEmit _)
      · exact hTail _ (hEmit _)
      · refine (blind_nameConstant _).bind fun arg => ?_
        refine blind_ite ((blind_accept _).bind fun b => ?_) ((blind_pure _).bind fun b => ?_) <;>
        exact blind_ite (hTail _ (((ih.1 _).bind fun _ => hEmit _).bind fun _ => blind_emit _))
          (hTail _ ((hEmit _).bind fun _ => blind_emit _))
      · exact blind_error _
    exact ⟨hP, blind_infixLoop hP⟩

theorem blind_expression : Blind expression :=
  blind_get_bind (fun _ _ _ => rfl) fun _ => (blind_parse _).1 _

theorem blind_synchronize_go : ∀ fuel, Blind (synchronize.go fuel)
  | 0 => blind_pure _
  | fuel + 1 => by
    rw [synchronize.go]
    exact blind_get_bind (fun _ _ _ => rfl) fun _ =>
      blind_ite (blind_pure _) (blind_advance.bind fun _ => blind_synchronize_go fuel)

theorem blind_settle : Blind (get >>= fun x => if x.panicMode = true then synchronize else pure ()) :=
  blind_get_bind (fun _ _ _ => rfl) fun _ =>
    blind_ite ((blind_modify fun _ _ _ => rfl).bind fun _ =>
      blind_get_bind (fun _ _ _ => rfl) fun _ => blind_synchronize_go _) (blind_pure _)

theorem blind_varDeclaration : Blind varDeclaration :=
  ((blind_consume _ _).bind fun _ => blind_get_bind (fun _ _ _ => rfl) fun _ => blind_nameConstant _).bind
    fun _ => (blind_accept _).bind fun _ =>
      blind_ite (blind_expression.bind fun _ => (blind_consume _ _).bind fun _ =>
          (blind_emit _).bind fun _ => blind_emit _)
        ((blind_emit _).bind fun _ => (blind_consume _ _).bind fun _ => (blind_emit _).bind fun _ =>
          blind_emit _)

theorem blind_statement : Blind statement :=
  (blind_accept _).bind fun _ =>
    blind_ite (blind_expression.bind fun _ => (blind_consume _ _).bind fun _ => blind_emit _)
      (blind_expression.bind fun _ => (blind_consume _ _).bind fun _ => blind_emit _)

/-- A declaration runs the same after any earlier reports. -/
theorem blind_declaration : Blind declaration :=
  (blind_accept _).bind fun _ =>
    blind_ite (blind_varDeclaration.bind fun _ => blind_settle) (blind_statement.bind fun _ => blind_settle)

end Compiler

end StackScript
