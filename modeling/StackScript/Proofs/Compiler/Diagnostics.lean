import StackScript.Proofs.Compiler.Emission
import StackScript.Proofs.Syntax.Lexemes

/-! # Where compile errors are reported

A compile fails exactly when it recorded a diagnostic, every diagnostic names a token of the
source (its line and column, its text or none for a scanner error, and whether it is the end of
input), and the diagnostics come in reading order (`compile_reports_in_order`).

Reports come from three places: a scanner error token met while moving on, a token that a rule
expects where the current token is not one, and an operand that cannot start at the previous
token. None reaches back before an earlier report. A report at the current token is at or
after every earlier one, since the tokens come in reading order and the current token only
moves on (`Reported`). A report at the previous token comes right after a move, before which
that token was the current one; or it is suppressed (`Fresh`).
-/

namespace StackScript

set_option autoImplicit false

/-! ## Reading order -/

/-- Where a token starts, line first, then column. -/
def Position.place (p : Position) : Nat ×ₗ Nat := toLex (p.line, p.column)

/-- Where a diagnostic points, ordered as `Position.place`. -/
def Diagnostic.place (d : Diagnostic) : Nat ×ₗ Nat := toLex (d.line, d.column)

@[simp] theorem Diagnostic.place_atToken (t : Token) (message : String) :
    (Diagnostic.atToken t message).place = t.pos.place := rfl

/-- More input never moves the position back: it adds lines, or columns on the same line. -/
theorem Position.place_after_le (pre x : Bytes) : (after pre).place ≤ (after (pre ++ x)).place := by
  rw [place, place, Prod.Lex.toLex_le_toLex]
  by_cases hx : x.count 10 = 0
  · right
    have hNoFeed : ∀ b ∈ x.reverse, (b != 10) = true := by
      intro b hb
      have hb' : b ≠ 10 := by
        rintro rfl
        exact List.count_eq_zero.mp hx (List.mem_reverse.mp hb)
      simpa using hb'
    simp [after, List.count_append, hx, List.takeWhile_append_of_pos hNoFeed]
  · left
    simp only [after, List.count_append]
    omega

/-- The start of the input is before every place. -/
theorem Position.zero_place_le (p : Position) : (⟨0, 0, 0⟩ : Position).place ≤ p.place := by
  rw [place, place, Prod.Lex.toLex_le_toLex]
  dsimp only
  omega

namespace Scanner

/-- The tokens of a tokenisation come in reading order, none before the point where it starts. -/
theorem Lexes.places {pre r : Bytes} {ts : List Token} (h : Lexes pre r ts) :
    ts.Pairwise (fun a b => a.pos.place ≤ b.pos.place) ∧
      ∀ t ∈ ts, (Position.after pre).place ≤ t.pos.place := by
  induction h with
  | eof hRun =>
    refine ⟨List.pairwise_singleton _ _, fun t ht => ?_⟩
    rw [List.mem_singleton] at ht
    subst ht
    exact Position.place_after_le _ _
  | @token pre g w rest text k ts hRun hMunch _ ih =>
    obtain ⟨hSorted, hAfter⟩ := ih
    have hHead : (Position.after pre).place ≤ (Position.after (pre ++ g)).place :=
      Position.place_after_le _ _
    have hTail : ∀ b ∈ ts, (Position.after (pre ++ g)).place ≤ b.pos.place := fun b hb =>
      le_trans (Position.place_after_le (pre ++ g) w) (hAfter b hb)
    refine ⟨List.pairwise_cons.mpr ⟨hTail, hSorted⟩, fun t ht => ?_⟩
    rcases List.mem_cons.mp ht with rfl | ht
    · exact hHead
    · exact le_trans hHead (hTail t ht)

theorem scan_places (src : Bytes) : (scan src).1.Pairwise (fun a b => a.pos.place ≤ b.pos.place) :=
  ((scan_iff_lexes src _).mp rfl).places.1

end Scanner

namespace Compiler

/-! ## Runs between two properties -/

/-- Every run of `m` from a state where `P` holds ends in a state where `Q` holds. -/
def Leads {α : Type} (P Q : Compiler → Prop) (m : M α) : Prop := ∀ s, P s → Q (m.run s).2

section Leads

variable {P Q R : Compiler → Prop}

theorem Leads.bind {α β : Type} {a : M α} {f : α → M β} (ha : Leads P Q a)
    (hf : ∀ x, Leads Q R (f x)) : Leads P R (a >>= f) :=
  fun s hs => hf _ _ (ha s hs)

theorem Leads.weaken {α : Type} {m : M α} (h : Leads Q R m) (hPQ : ∀ s, P s → Q s) : Leads P R m :=
  fun s hs => h s (hPQ s hs)

theorem leads_pure {α : Type} (a : α) : Leads P P (pure a : M α) := fun _ hs => hs

theorem leads_get : Leads P P (get : M Compiler) := fun _ hs => hs

theorem leads_ite {α : Type} {c : Prop} [Decidable c] {a b : M α} (ha : Leads P Q a)
    (hb : Leads P Q b) : Leads P Q (if c then a else b) := by
  split
  · exact ha
  · exact hb

end Leads

/-! ## The invariant of reports -/

/-- `s'` stands where `s` stands in the tokens and has reported what `s` has. -/
structure Unmarked (s s' : Compiler) : Prop where
  tokens : s'.tokens = s.tokens
  previous : s'.previous = s.previous
  current : s'.current = s.current
  panicMode : s'.panicMode = s.panicMode
  hadError : s'.hadError = s.hadError
  diagnostics : s'.diagnostics = s.diagnostics

variable (L : List Token)

/-- The reports of a compile of the tokens `L`: each is at a token of `L`, they come in reading
order and none lies after the current token, which is no later than any token still to come;
an error was recorded exactly when a diagnostic was. -/
structure Reported (s : Compiler) : Prop where
  suffix : s.tokens <:+ L
  ne_nil : s.tokens ≠ []
  current_le : ∀ t ∈ s.tokens, s.current.pos.place ≤ t.pos.place
  previous_le : s.previous.pos.place ≤ s.current.pos.place
  hadError : s.hadError = true ↔ s.diagnostics ≠ #[]
  at_tokens : ∀ d ∈ s.diagnostics.toList, ∃ t ∈ L, ∃ message, d = Diagnostic.atToken t message
  sorted : s.diagnostics.toList.Pairwise (fun a b => a.place ≤ b.place)
  le_current : ∀ d ∈ s.diagnostics.toList, d.place ≤ s.current.pos.place

/-- A report at the previous token keeps the order: reports are suppressed, or the previous
token is one of `L` and no report lies after it. -/
def Fresh (s : Compiler) : Prop :=
  s.panicMode = true ∨ (s.previous ∈ L ∧ ∀ d ∈ s.diagnostics.toList, d.place ≤ s.previous.pos.place)

/-- A report at the current token keeps the invariant. -/
def Open (s : Compiler) : Prop := Reported L s ∧ s.current ∈ L

/-- A report at the previous token keeps the invariant too: the parse has moved past a token. -/
def Moved (s : Compiler) : Prop := Open L s ∧ Fresh L s

variable {L} {s s' : Compiler}

theorem Reported.unmarked (hs : Reported L s) (h : Unmarked s s') : Reported L s' where
  suffix := h.tokens ▸ hs.suffix
  ne_nil := h.tokens ▸ hs.ne_nil
  current_le := h.tokens ▸ h.current ▸ hs.current_le
  previous_le := h.previous ▸ h.current ▸ hs.previous_le
  hadError := h.hadError ▸ h.diagnostics ▸ hs.hadError
  at_tokens := h.diagnostics ▸ hs.at_tokens
  sorted := h.diagnostics ▸ hs.sorted
  le_current := h.diagnostics ▸ h.current ▸ hs.le_current

theorem Moved.unmarked (hs : Moved L s) (h : Unmarked s s') : Moved L s' := by
  obtain ⟨⟨hRep, hCur⟩, hFresh⟩ := hs
  refine ⟨⟨hRep.unmarked h, h.current ▸ hCur⟩, ?_⟩
  rcases hFresh with hPanic | ⟨hPrev, hAfter⟩
  · exact Or.inl (h.panicMode ▸ hPanic)
  · exact Or.inr ⟨h.previous ▸ hPrev, h.diagnostics ▸ h.previous ▸ hAfter⟩

theorem Moved.open (hs : Moved L s) : Open L s := hs.1

theorem Unmarked.trans {s₁ s₂ s₃ : Compiler} (h₁₂ : Unmarked s₁ s₂) (h₂₃ : Unmarked s₂ s₃) :
    Unmarked s₁ s₃ :=
  ⟨h₂₃.tokens.trans h₁₂.tokens, h₂₃.previous.trans h₁₂.previous, h₂₃.current.trans h₁₂.current,
    h₂₃.panicMode.trans h₁₂.panicMode, h₂₃.hadError.trans h₁₂.hadError,
    h₂₃.diagnostics.trans h₁₂.diagnostics⟩

theorem Open.unmarked (hs : Open L s) (h : Unmarked s s') : Open L s' :=
  ⟨hs.1.unmarked h, h.current ▸ hs.2⟩

/-- Reports are not suppressed any more: what was reported stays in order. -/
theorem Reported.clearPanic (hs : Reported L s) : Reported L { s with panicMode := false } :=
  ⟨hs.suffix, hs.ne_nil, hs.current_le, hs.previous_le, hs.hadError, hs.at_tokens, hs.sorted,
    hs.le_current⟩

/-- A step that moves nowhere and reports nothing keeps every form of the invariant. -/
theorem leads_unmarked {α : Type} {m : M α} (hm : ∀ s, Unmarked s (m.run s).2) :
    Leads (Moved L) (Moved L) m :=
  fun s hs => hs.unmarked (hm s)

/-! ## Reporting -/

theorem errorAt_place (t : Token) (message : String) (s : Compiler) :
    ((errorAt t message).run s).2.tokens = s.tokens ∧ ((errorAt t message).run s).2.previous = s.previous ∧
      ((errorAt t message).run s).2.current = s.current := by
  rw [run_errorAt]
  split <;> exact ⟨rfl, rfl, rfl⟩

/-- A report at a token of `L` no later than the current token, and after every earlier
report unless reports are suppressed, keeps the invariant and suppresses what follows. -/
theorem Reported.errorAt (hs : Reported L s) {t : Token} (ht : t ∈ L)
    (hle : t.pos.place ≤ s.current.pos.place)
    (hAfter : s.panicMode = false → ∀ d ∈ s.diagnostics.toList, d.place ≤ t.pos.place) (message : String) :
    Reported L ((Compiler.errorAt t message).run s).2 ∧
      ((Compiler.errorAt t message).run s).2.panicMode = true := by
  rw [run_errorAt]
  cases hPanic : s.panicMode
  · have hOrder := hAfter hPanic
    rw [if_neg Bool.false_ne_true]
    refine ⟨⟨hs.suffix, hs.ne_nil, hs.current_le, hs.previous_le, by simp, ?_, ?_, ?_⟩, rfl⟩
    · intro d hd
      rw [Array.toList_push, List.mem_append, List.mem_singleton] at hd
      rcases hd with hd | rfl
      · exact hs.at_tokens d hd
      · exact ⟨t, ht, message, rfl⟩
    · rw [Array.toList_push, List.pairwise_append]
      refine ⟨hs.sorted, List.pairwise_singleton _ _, fun a ha b hb => ?_⟩
      rw [List.mem_singleton] at hb
      subst hb
      exact hOrder a ha
    · intro d hd
      rw [Array.toList_push, List.mem_append, List.mem_singleton] at hd
      rcases hd with hd | rfl
      · exact hs.le_current d hd
      · exact hle
  · rw [if_pos rfl]
    exact ⟨hs, hPanic⟩

/-- A report at the current token. -/
theorem open_errorAtCurrent (message : String) : Leads (Open L) (Moved L) (errorAtCurrent message) := by
  rintro s ⟨hs, hCur⟩
  rw [errorAtCurrent, run_get_bind]
  obtain ⟨hRep, hPanic⟩ := hs.errorAt hCur le_rfl (fun _ => hs.le_current) message
  exact ⟨⟨hRep, by rw [(errorAt_place _ message s).2.2]; exact hCur⟩, Or.inl hPanic⟩

/-- A report at the previous token, just after a move. -/
theorem moved_error (message : String) : Leads (Moved L) (Moved L) (error message) := by
  rintro s ⟨⟨hs, hCur⟩, hFresh⟩
  rw [error, run_get_bind]
  rcases hFresh with hPanic | ⟨hPrev, hAfter⟩
  · rw [run_errorAt, if_pos hPanic]
    exact ⟨⟨hs, hCur⟩, Or.inl hPanic⟩
  · obtain ⟨hRep, hPanic⟩ := hs.errorAt hPrev hs.previous_le (fun _ => hAfter) message
    exact ⟨⟨hRep, by rw [(errorAt_place _ message s).2.2]; exact hCur⟩, Or.inl hPanic⟩

/-! ## Moving on -/

section Sorted

variable (hL : L.Pairwise (fun a b => a.pos.place ≤ b.pos.place))
include hL

/-- The next token of a stream in reading order is no later than the stream after it. -/
theorem pop_le {ts : List Token} (hSuffix : ts <:+ L) (hNe : ts ≠ []) :
    (pop ts).1 ∈ ts ∧ (pop ts).2 <:+ L ∧ (pop ts).2 ≠ [] ∧
      ∀ u ∈ (pop ts).2, (pop ts).1.pos.place ≤ u.pos.place := by
  have hSorted := hL.sublist hSuffix.sublist
  match ts, hNe with
  | [t], _ =>
    simp only [pop]
    exact ⟨List.mem_singleton_self t, hSuffix, List.cons_ne_nil _ _,
      fun u hu => by rw [List.mem_singleton.mp hu]⟩
  | t :: u :: r, _ =>
    rw [List.pairwise_cons] at hSorted
    exact ⟨List.mem_cons_self, (List.suffix_cons _ _).trans hSuffix, List.cons_ne_nil _ _, hSorted.1⟩

/-- Taking the next token as the current one. -/
theorem Reported.moveOn (hs : Reported L s) :
    Open L { s with current := (pop s.tokens).1, tokens := (pop s.tokens).2, pulls := s.pulls + 1 } := by
  obtain ⟨hMem, hSuffix, hNe, hLe⟩ := pop_le hL hs.suffix hs.ne_nil
  have hFirst : s.current.pos.place ≤ (pop s.tokens).1.pos.place := hs.current_le _ hMem
  exact ⟨⟨hSuffix, hNe, hLe, le_trans hs.previous_le hFirst, hs.hadError, hs.at_tokens, hs.sorted,
    fun d hd => le_trans (hs.le_current d hd) hFirst⟩, hs.suffix.subset hMem⟩

/-- The loop of a move takes tokens of `L` and reports the scanner errors among them: it keeps
the invariant, and the freshness that the move gave. -/
theorem skip_reported : ∀ (fuel : Nat) (s : Compiler), Reported L s → (0 < fuel ∨ s.current ∈ L) →
    Open L ((advance.skip fuel).run s).2 ∧ (Fresh L s → Fresh L ((advance.skip fuel).run s).2)
  | 0, s, hs, hCur => ⟨⟨hs, hCur.resolve_left (Nat.lt_irrefl 0)⟩, id⟩
  | fuel + 1, s, hs, _ => by
    dsimp only [advance.skip, run_bind, run_get, run_set]
    have hStep := hs.moveOn hL
    by_cases hErr : ((pop s.tokens).1.kind == TokenKind.error) = true
    · -- A scanner error is reported, and the move goes on past it.
      simp only [hErr, if_true]
      rw [run_bind]
      have hErr := open_errorAtCurrent ((Bytes.toString? (pop s.tokens).1.text).getD "") _ hStep
      have hRest := skip_reported fuel _ hErr.1.1 (Or.inr hErr.1.2)
      exact ⟨hRest.1, fun _ => hRest.2 hErr.2⟩
    · simp only [hErr, Bool.false_eq_true, if_false]
      exact ⟨hStep, id⟩

/-- A move keeps the invariant, and makes the current token one of `L`. -/
theorem reported_advance : Leads (Reported L) (Open L) advance := by
  intro s hs
  simp only [advance, run_bind, run_modify, run_get]
  have h := skip_reported hL (s.tokens.length + 1) { s with previous := s.current }
    ⟨hs.suffix, hs.ne_nil, hs.current_le, le_rfl, hs.hadError, hs.at_tokens, hs.sorted, hs.le_current⟩
    (Or.inl (Nat.succ_pos _))
  exact h.1

/-- A move from a token of `L` makes a report at the new previous token keep the order. -/
theorem open_advance : Leads (Open L) (Moved L) advance := by
  rintro s ⟨hs, hCur⟩
  simp only [advance, run_bind, run_modify, run_get]
  have h := skip_reported hL (s.tokens.length + 1) { s with previous := s.current }
    ⟨hs.suffix, hs.ne_nil, hs.current_le, le_rfl, hs.hadError, hs.at_tokens, hs.sorted, hs.le_current⟩
    (Or.inl (Nat.succ_pos _))
  exact ⟨h.1, h.2 (Or.inr ⟨hCur, hs.le_current⟩)⟩

theorem moved_accept (k : TokenKind) : Leads (Moved L) (Moved L) (accept k) :=
  leads_get.bind fun _ =>
    leads_ite (((open_advance hL).weaken fun _ hs => hs.open).bind fun _ => leads_pure _) (leads_pure _)

theorem moved_consume (k : TokenKind) (message : String) : Leads (Moved L) (Moved L) (consume k message) :=
  leads_get.bind fun _ =>
    leads_ite ((open_advance hL).weaken fun _ hs => hs.open)
      ((open_errorAtCurrent message).weaken fun _ hs => hs.open)

end Sorted

/-! ## Code and constants -/

theorem unmarked_emit (b : UInt8) (s : Compiler) : Unmarked s ((emit b).run s).2 :=
  ⟨rfl, rfl, rfl, rfl, rfl, rfl⟩

theorem unmarked_forM_emitOp : ∀ (ops : List Op) (s : Compiler), Unmarked s ((ops.forM emitOp).run s).2
  | [], _ => ⟨rfl, rfl, rfl, rfl, rfl, rfl⟩
  | op :: ops, s => (unmarked_emit op.code s).trans (unmarked_forM_emitOp ops _)

/-- A constant that overflows the pool is reported at the previous token. -/
theorem moved_addConstant (v : Value) : Leads (Moved L) (Moved L) (addConstant v) := by
  intro s hs
  dsimp only [addConstant, run_bind, run_get, run_set]
  exact leads_ite ((moved_error _).bind fun _ => leads_pure _) (leads_pure _) _
    (hs.unmarked ⟨rfl, rfl, rfl, rfl, rfl, rfl⟩)

theorem moved_emitConstant (v : Value) : Leads (Moved L) (Moved L) (emitConstant v) :=
  (moved_addConstant v).bind fun _ =>
    (leads_unmarked (unmarked_emit _)).bind fun _ => leads_unmarked (unmarked_emit _)

theorem moved_nameConstant (t : Token) : Leads (Moved L) (Moved L) (nameConstant t) := by
  intro s hs
  -- Interning the name and recording its constant report nothing.
  have hIntern : Moved L { s with heap := (s.heap.intern t.text).1 } :=
    hs.unmarked ⟨rfl, rfl, rfl, rfl, rfl, rfl⟩
  rw [Compiler.nameConstant, run_get_bind]
  simp only [run_bind, run_set]
  split
  · exact hIntern
  · rw [run_bind]
    have h₁ := moved_addConstant (L := L) (.obj (.str (s.heap.intern t.text).2)) _ hIntern
    split
    · exact h₁.unmarked ⟨rfl, rfl, rfl, rfl, rfl, rfl⟩
    · exact h₁

/-! ## Expressions -/

section Parse

variable (hL : L.Pairwise (fun a b => a.pos.place ≤ b.pos.place))
include hL

theorem moved_infixLoop {fuel : Nat} (hP : ∀ p, Leads (Moved L) (Moved L) (parsePrecedence fuel p)) :
    ∀ steps p c, Leads (Moved L) (Moved L) (infixLoop fuel steps p c)
  | 0, p, c => by
    rw [infixLoop]
    exact leads_pure _
  | steps + 1, p, c => by
    intro s hs
    rw [infixLoop, run_get_bind]
    refine leads_ite ?_ (leads_ite ((moved_accept hL _).bind fun _ =>
      leads_ite (moved_error _) (leads_pure _)) (leads_pure _)) s hs
    exact (((open_advance hL).weaken fun _ h => h.open).bind fun _ => (hP _).bind fun _ =>
      (leads_unmarked (unmarked_forM_emitOp _)).bind fun _ => moved_infixLoop hP steps p c)

/-- After the move to its first token, a parse keeps the invariant: every report it makes is
at the current token, or at the previous one right after a move. -/
theorem moved_after_advance {fuel : Nat} (hP : ∀ p, Leads (Moved L) (Moved L) (parsePrecedence fuel p))
    (p : Nat) (s : Compiler) (hs : Moved L (advance.run s).2) :
    Moved L ((parsePrecedence (fuel + 1) p).run s).2 := by
  have hLoop := moved_infixLoop hL hP
  rw [parsePrecedence, run_bind, run_get_bind]
  generalize (advance.run s).2 = s₁ at hs
  have hTail : ∀ {α : Type} (m : M α), Leads (Moved L) (Moved L) m →
      Leads (Moved L) (Moved L) (m >>= fun _ => get >>= fun s =>
        infixLoop fuel (s.tokens.length + 1) p (decide (p ≤ assignPrecedence))) :=
    fun m hm => hm.bind fun _ => leads_get.bind fun _ => hLoop _ _ _
  have hEmit : ∀ op : Op, Leads (Moved L) (Moved L) (emitOp op) := fun _ => leads_unmarked (unmarked_emit _)
  dsimp only
  split
  · -- a group
    exact hTail _ ((hP _).bind fun _ => moved_consume hL _ _) s₁ hs
  · exact hTail _ ((hP _).bind fun _ => hEmit _) s₁ hs
  · exact hTail _ ((hP _).bind fun _ => hEmit _) s₁ hs
  · exact hTail _ (moved_emitConstant _) s₁ hs
  · -- A string literal interns its body first.
    rw [run_get_bind, run_bind, run_set]
    exact hTail _ (moved_emitConstant _) _ (hs.unmarked ⟨rfl, rfl, rfl, rfl, rfl, rfl⟩)
  · exact hTail _ (hEmit _) s₁ hs
  · exact hTail _ (hEmit _) s₁ hs
  · exact hTail _ (hEmit _) s₁ hs
  · -- a name, read or assigned
    refine ((moved_nameConstant _).bind fun arg => ?_) s₁ hs
    refine leads_ite ((moved_accept hL _).bind fun b => ?_) ((leads_pure _).bind fun b => ?_) <;>
    exact leads_ite (hTail _ (((hP _).bind fun _ => hEmit _).bind fun _ => leads_unmarked (unmarked_emit _)))
      (hTail _ ((hEmit _).bind fun _ => leads_unmarked (unmarked_emit _)))
  · -- no operand starts at the previous token
    exact moved_error _ s₁ hs

theorem moved_parse : ∀ fuel, (∀ p, Leads (Moved L) (Moved L) (parsePrecedence fuel p)) ∧
    ∀ steps p c, Leads (Moved L) (Moved L) (infixLoop fuel steps p c) := by
  intro fuel
  induction fuel with
  | zero =>
    have hP : ∀ p, Leads (Moved L) (Moved L) (parsePrecedence 0 p) := fun p => by
      rw [parsePrecedence]
      exact leads_pure _
    exact ⟨hP, moved_infixLoop hL hP⟩
  | succ fuel ih =>
    have hP : ∀ p, Leads (Moved L) (Moved L) (parsePrecedence (fuel + 1) p) := fun p s hs =>
      moved_after_advance hL ih.1 p s (open_advance hL s hs.open)
    exact ⟨hP, moved_infixLoop hL hP⟩

theorem open_expression : Leads (Open L) (Moved L) expression := by
  intro s hs
  rw [expression, run_get_bind]
  exact moved_after_advance hL (moved_parse hL _).1 _ s (open_advance hL s hs)

/-! ## Declarations -/

theorem open_accept (k : TokenKind) : Leads (Open L) (Open L) (accept k) :=
  leads_get.bind fun _ =>
    leads_ite ((open_advance hL).bind fun _ _ hs => hs.open) (leads_pure _)

theorem open_synchronize_go : ∀ fuel, Leads (Open L) (Open L) (synchronize.go fuel)
  | 0 => leads_pure _
  | fuel + 1 => by
    rw [synchronize.go]
    exact leads_get.bind fun _ => leads_ite (leads_pure _)
      ((open_advance hL).bind fun _ => (open_synchronize_go fuel).weaken fun _ h => h.open)

/-- After a declaration: resynchronizing where a report was made. -/
theorem open_settle :
    Leads (Open L) (Open L) (get >>= fun x => if x.panicMode = true then synchronize else pure ()) := by
  refine leads_get.bind fun _ => leads_ite ?_ (leads_pure _)
  rintro s ⟨hs, hCur⟩
  rw [synchronize, run_bind, run_modify, run_get_bind]
  exact open_synchronize_go hL _ _ ⟨hs.clearPanic, hCur⟩

theorem open_statement : Leads (Open L) (Moved L) statement := by
  have hTail : Leads (Moved L) (Moved L) (consume .semicolon "Expect ';' after value." >>= fun _ => emitOp .info) :=
    (moved_consume hL _ _).bind fun _ => leads_unmarked (unmarked_emit _)
  refine (open_accept hL _).bind fun _ => leads_ite ?_ ?_
  · exact (open_expression hL).bind fun _ => hTail
  · exact (open_expression hL).bind fun _ => (moved_consume hL _ _).bind fun _ => leads_unmarked (unmarked_emit _)

theorem moved_varDeclaration : Leads (Moved L) (Moved L) varDeclaration := by
  have hDefine : ∀ b : UInt8, Leads (Moved L) (Moved L)
      (consume .semicolon "Expect ';' after variable declaration." >>= fun _ =>
        emitOp .defineGlobal >>= fun _ => emit b) := fun _ =>
    (moved_consume hL _ _).bind fun _ => (leads_unmarked (unmarked_emit _)).bind fun _ =>
      leads_unmarked (unmarked_emit _)
  exact ((moved_consume hL _ _).bind fun _ => leads_get.bind fun _ => moved_nameConstant _).bind fun _ =>
    (moved_accept hL _).bind fun _ =>
      leads_ite (((open_expression hL).weaken fun _ h => h.open).bind fun _ => hDefine _)
        ((leads_unmarked (unmarked_emit _)).bind fun _ => hDefine _)

theorem open_declaration : Leads (Open L) (Open L) declaration := by
  intro s hs
  -- Open the join point of the `if`, so that each branch is a bind the lemmas meet syntactically.
  rw [declaration, run_bind]
  dsimp only
  by_cases hk : s.current.kind = .varKw
  · rw [run_accept_of_eq hk, if_pos rfl]
    exact ((moved_varDeclaration hL).bind fun _ => (open_settle hL).weaken fun _ h => h.open) _
      (open_advance hL s hs)
  · rw [run_accept_of_ne hk, if_neg Bool.false_ne_true]
    exact ((open_statement hL).bind fun _ => (open_settle hL).weaken fun _ h => h.open) s hs

theorem open_declarations : ∀ fuel, Leads (Open L) (Open L) (declarations fuel)
  | 0 => leads_pure _
  | fuel + 1 => (open_accept hL _).bind fun _ =>
    leads_ite (leads_pure _) ((open_declaration hL).bind fun _ => open_declarations fuel)

end Parse

end Compiler

/-! ## Compiles -/

/-- The compiler's state at the end of a compile of `src`. -/
def compileState (src : Bytes) (heap : Heap) (name : String) : Compiler :=
  let run : Compiler.M Unit := do
    Compiler.advance
    Compiler.declarations ((Scanner.scan src).1.length + 1)
    Compiler.emitOp .ret
  (run.run (Compiler.start (Scanner.scan src).1 heap (if name.isEmpty then "<script>" else name))).2

theorem compile_failure (src : Bytes) (heap : Heap) (name : String) :
    (compile src heap name).failure = if (compileState src heap name).hadError then
      some ⟨if name.isEmpty then "<script>" else name, (compileState src heap name).diagnostics.toList⟩
    else none := rfl

-- Unfolded by `simp`, both sides meet syntactically; `rfl` would make the unifier run the compile.
theorem compile_heap_eq (src : Bytes) (heap : Heap) (name : String) :
    (compile src heap name).heap = (compileState src heap name).heap := by
  simp only [compile, compileState]

theorem compile_chunk_eq (src : Bytes) (heap : Heap) (name : String) :
    (compile src heap name).chunk = (compileState src heap name).chunk := by
  simp only [compile, compileState]

/-- The start of a compile stands before every token and has reported nothing. -/
theorem Compiler.reported_start {L : List Token} (hL : L ≠ []) (heap : Heap) (name : String) :
    Compiler.Reported L (Compiler.start L heap name) :=
  ⟨List.suffix_refl _, hL, fun t _ => Position.zero_place_le t.pos, le_rfl,
    by simp [Compiler.start], by simp [Compiler.start], by simp [Compiler.start], by simp [Compiler.start]⟩

/-- At the end of every compile, the reports keep the invariant. -/
theorem reported_compileState (src : Bytes) (heap : Heap) (name : String) :
    Compiler.Reported (Scanner.scan src).1 (compileState src heap name) := by
  have hL := Scanner.scan_places src
  obtain ⟨r, t, hts, -, -⟩ := Scanner.scan_terminated src
  have hStart := Compiler.reported_start (L := (Scanner.scan src).1) (by simp [hts]) heap
    (if name.isEmpty then "<script>" else name)
  exact (((Compiler.reported_advance hL).bind fun _ => (Compiler.open_declarations hL _).bind fun _ =>
    fun s hs => hs.unmarked (Compiler.unmarked_emit _ s)) _ hStart).1

/-- A compile fails exactly when it reported an error, and then its failure carries every report;
the reports come in reading order, each at a token of the source. -/
theorem compile_reports_in_order (src : Bytes) (heap : Heap) (name : String) :
    ((compile src heap name).failure = none ↔ (compileState src heap name).diagnostics = #[]) ∧
      (∀ f, (compile src heap name).failure = some f →
        f.diagnostics = (compileState src heap name).diagnostics.toList) ∧
      (compileState src heap name).diagnostics.toList.Pairwise (fun a b => a.place ≤ b.place) ∧
      ∀ d ∈ (compileState src heap name).diagnostics.toList, ∃ t ∈ (Scanner.scan src).1, ∃ message,
        d = Diagnostic.atToken t message := by
  have h := reported_compileState src heap name
  have hIff := h.hadError
  rw [compile_failure]
  refine ⟨?_, fun f hf => ?_, h.sorted, h.at_tokens⟩
  · cases hErr : (compileState src heap name).hadError <;> simp_all
  · cases hErr : (compileState src heap name).hadError
    · simp [hErr] at hf
    · simp only [hErr, if_true, Option.some.injEq] at hf
      rw [← hf]

end StackScript
