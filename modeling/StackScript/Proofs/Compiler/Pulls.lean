import StackScript.Proofs.Compiler.Diagnostics
import StackScript.Proofs.Compiler.Evaluation

/-! # How many tokens a compile pulls

A compile takes its tokens from the scanner one at a time, and a pull at the end of input gives
the end of input again. With `n` tokens before the end, every compile pulls `n + 2` or `n + 3`
times (`compile_pulls_linear`): each token once, the end when it becomes current, at most once
more when an operand was expected there, and once for the match of the end that stops the
program's loop.

The count is a potential argument. A pull before the end takes a token off the stream, so the
pulls plus the tokens left stay the same; a pull at the end adds one to that sum (`Pulled`). The
end is pulled once to become current and once more to become the previous token too; from there
only the program's match of the end moves on. Every other move is past a token that is not the
end, and every operand parse starts right after such a move, or at a token that is not the end
(`Ahead`). The same sum bounds the loop over declarations: each declaration pulls at least once,
so the loop's fuel lasts until it matches the end.
-/

namespace StackScript

set_option autoImplicit false

/-! ## Pulls from a terminated stream -/

section Stream

open Compiler (pop)

variable {ts : List Token}

theorem Terminated.ne_nil (h : Terminated ts) : ts ≠ [] := h.endsEof.ne_nil

/-- Before the end, a pull takes the token off the stream. -/
theorem Terminated.length_pop (h : Terminated ts) (hk : (pop ts).1.kind ≠ .eof) :
    (pop ts).2.length + 1 = ts.length :=
  (congrArg List.length (h.endsEof.pop_eq hk).1).symm

/-- At the end, a pull leaves the stream as it is: the end alone. -/
theorem Terminated.pop_of_eof (h : Terminated ts) (hk : (pop ts).1.kind = .eof) :
    (pop ts).2 = ts ∧ ts.length = 1 := by
  obtain ⟨t, rfl, -⟩ := h.eq_single hk
  exact ⟨rfl, rfl⟩

theorem Terminated.pop_snd (h : Terminated ts) : Terminated (pop ts).2 := by
  by_cases hk : (pop ts).1.kind = .eof
  · rw [(h.pop_of_eof hk).1]
    exact h
  · obtain ⟨hts, hEnds⟩ := h.endsEof.pop_eq hk
    rw [hts] at h
    exact Terminated.of_append (a := [(pop ts).1]) h hEnds.ne_nil

end Stream

namespace Compiler

/-! ## One move -/

/-- What a move does to a terminated stream: the tokens left end with the end of input, which is
all that is left once it is current; the move pulls, and the pulls plus the tokens left grow by
one exactly when the move ends at the end of input. -/
structure Pulled (s s' : Compiler) : Prop where
  terminated : Terminated s'.tokens
  ended : s'.current.kind = .eof → s'.tokens.length = 1
  pulled : s.pulls < s'.pulls
  spent : s'.pulls + s'.tokens.length =
    s.pulls + s.tokens.length + (if s'.current.kind = .eof then 1 else 0)

/-- `s'` stands where `s` stands and has pulled as many tokens. -/
structure InPlace (s s' : Compiler) : Prop where
  tokens : s'.tokens = s.tokens
  previous : s'.previous = s.previous
  current : s'.current = s.current
  pulls : s'.pulls = s.pulls

theorem InPlace.trans {s₁ s₂ s₃ : Compiler} (h₁₂ : InPlace s₁ s₂) (h₂₃ : InPlace s₂ s₃) : InPlace s₁ s₃ :=
  ⟨h₂₃.tokens.trans h₁₂.tokens, h₂₃.previous.trans h₁₂.previous, h₂₃.current.trans h₁₂.current,
    h₂₃.pulls.trans h₁₂.pulls⟩

theorem inPlace_errorAt (t : Token) (message : String) (s : Compiler) :
    InPlace s ((errorAt t message).run s).2 := by
  rw [run_errorAt]
  split <;> exact ⟨rfl, rfl, rfl, rfl⟩

theorem inPlace_error (message : String) (s : Compiler) : InPlace s ((error message).run s).2 :=
  inPlace_errorAt s.previous message s

theorem inPlace_errorAtCurrent (message : String) (s : Compiler) :
    InPlace s ((errorAtCurrent message).run s).2 :=
  inPlace_errorAt s.current message s

theorem inPlace_emit (b : UInt8) (s : Compiler) : InPlace s ((emit b).run s).2 := ⟨rfl, rfl, rfl, rfl⟩

theorem inPlace_emitOp (op : Op) (s : Compiler) : InPlace s ((emitOp op).run s).2 := inPlace_emit _ _

theorem inPlace_forM_emitOp : ∀ (ops : List Op) (s : Compiler), InPlace s ((ops.forM emitOp).run s).2
  | [], _ => ⟨rfl, rfl, rfl, rfl⟩
  | op :: ops, s => (inPlace_emit op.code s).trans (inPlace_forM_emitOp ops _)

theorem inPlace_addConstant (v : Value) (s : Compiler) : InPlace s ((addConstant v).run s).2 := by
  rw [addConstant, run_get_bind]
  simp only [run_bind, run_set]
  split
  · exact (⟨rfl, rfl, rfl, rfl⟩ : InPlace s { s with chunk := (s.chunk.addConstant v).1 }).trans
      (inPlace_error _ _)
  · exact ⟨rfl, rfl, rfl, rfl⟩

theorem inPlace_emitConstant (v : Value) (s : Compiler) : InPlace s ((emitConstant v).run s).2 :=
  (inPlace_addConstant v s).trans ((inPlace_emit _ _).trans (inPlace_emit _ _))

theorem inPlace_nameConstant (t : Token) (s : Compiler) : InPlace s ((nameConstant t).run s).2 := by
  have hIntern : InPlace s { s with heap := (s.heap.intern t.text).1 } := ⟨rfl, rfl, rfl, rfl⟩
  rw [Compiler.nameConstant, run_get_bind]
  simp only [run_bind, run_set]
  split
  · exact hIntern
  · rw [run_bind]
    have h := hIntern.trans (inPlace_addConstant (.obj (.str (s.heap.intern t.text).2)) _)
    split
    · exact h.trans ⟨rfl, rfl, rfl, rfl⟩
    · exact h

/-- The loop of a move pulls until a token that is not a scanner error; scanner errors are
never the end, so only its last pull can be at the end. -/
theorem pulled_skip : ∀ (fuel : Nat) (s : Compiler), Terminated s.tokens → s.tokens.length ≤ fuel →
    Pulled s ((advance.skip fuel).run s).2
  | 0, s, hs, hFuel => absurd (List.length_eq_zero_iff.mp (Nat.le_zero.mp hFuel)) hs.ne_nil
  | fuel + 1, s, hs, hFuel => by
    dsimp only [advance.skip, run_bind, run_get, run_set]
    by_cases hErr : ((pop s.tokens).1.kind == TokenKind.error) = true
    · have hk : (pop s.tokens).1.kind ≠ .eof := by
        rw [beq_iff_eq.mp hErr]
        decide
      have hLen := hs.length_pop hk
      simp only [hErr, if_true, run_bind]
      have hIn := inPlace_errorAtCurrent ((Bytes.toString? (pop s.tokens).1.text).getD "")
        { s with current := (pop s.tokens).1, tokens := (pop s.tokens).2, pulls := s.pulls + 1 }
      generalize ((errorAtCurrent ((Bytes.toString? (pop s.tokens).1.text).getD "")).run
        { s with current := (pop s.tokens).1, tokens := (pop s.tokens).2, pulls := s.pulls + 1 }).2 = s₂
        at hIn ⊢
      obtain ⟨hTokens, -, -, hPulls⟩ := hIn
      dsimp only at hTokens hPulls
      have h := pulled_skip fuel s₂ (by rw [hTokens]; exact hs.pop_snd) (by rw [hTokens]; omega)
      have hPulled := h.pulled
      have hSpent := h.spent
      rw [hPulls] at hPulled
      rw [hPulls, hTokens] at hSpent
      exact ⟨h.terminated, h.ended, by omega, by omega⟩
    · simp only [hErr, Bool.false_eq_true, if_false, run_pure]
      refine ⟨hs.pop_snd, fun hk => ?_, Nat.lt_succ_self _, ?_⟩
      · rw [(hs.pop_of_eof hk).1]
        exact (hs.pop_of_eof hk).2
      · by_cases hk : (pop s.tokens).1.kind = .eof
        · simp only [hk, if_true, (hs.pop_of_eof hk).1]
          omega
        · simp only [hk, if_false]
          have := hs.length_pop hk
          omega

theorem skip_previous : ∀ (fuel : Nat) (s : Compiler), ((advance.skip fuel).run s).2.previous = s.previous
  | 0, _ => rfl
  | fuel + 1, s => by
    dsimp only [advance.skip, run_bind, run_get, run_set]
    by_cases hErr : ((pop s.tokens).1.kind == TokenKind.error) = true
    · simp only [hErr, if_true, run_bind, skip_previous fuel]
      exact (inPlace_errorAtCurrent _ _).previous
    · simp only [hErr, Bool.false_eq_true, if_false, run_pure]

theorem advance_previous (s : Compiler) : (advance.run s).2.previous = s.current := by
  simp only [advance, run_bind, run_modify, run_get]
  exact skip_previous _ _

theorem pulled_advance {s : Compiler} (hs : Terminated s.tokens) : Pulled s (advance.run s).2 := by
  simp only [advance, run_bind, run_modify, run_get]
  have h := pulled_skip (s.tokens.length + 1) { s with previous := s.current } hs (Nat.le_succ _)
  exact ⟨h.terminated, h.ended, h.pulled, h.spent⟩

/-! ## The invariant -/

/-- How many pulls at the end a compile may have made by now: none before the end of input is
current, one once it is, two once it is the previous token as well. -/
def slack (s : Compiler) : Nat :=
  if s.current.kind = .eof then (if s.previous.kind = .eof then 2 else 1) else 0

theorem slack_le_two (s : Compiler) : slack s ≤ 2 := by
  unfold slack
  split_ifs <;> omega

variable (N : Nat)

/-- A compile of a stream of `N` tokens that has pulled at least `i` times: it has pulled each
token it passed once, and at the end no more than `slack` allows. -/
structure Thrifty (i : Nat) (s : Compiler) : Prop where
  terminated : Terminated s.tokens
  ended : s.current.kind = .eof → s.tokens.length = 1
  reached : N + (if s.current.kind = .eof then 1 else 0) ≤ s.pulls + s.tokens.length
  spent : s.pulls + s.tokens.length ≤ N + slack s
  taken : i ≤ s.pulls

/-- A compile that may still move: the end of input is not both current and previous. -/
def Ahead (i : Nat) (s : Compiler) : Prop :=
  Thrifty N i s ∧ (s.current.kind = .eof → s.previous.kind ≠ .eof)

variable {N} {i : Nat} {s s' : Compiler}

theorem Thrifty.mono {j : Nat} (hs : Thrifty N i s) (hj : j ≤ i) : Thrifty N j s :=
  ⟨hs.terminated, hs.ended, hs.reached, hs.spent, le_trans hj hs.taken⟩

theorem Ahead.mono {j : Nat} (hs : Ahead N i s) (hj : j ≤ i) : Ahead N j s :=
  ⟨hs.1.mono hj, hs.2⟩

theorem Thrifty.ahead (hs : Thrifty N i s) (hPrev : s.previous.kind ≠ .eof) : Ahead N i s :=
  ⟨hs, fun _ => hPrev⟩

theorem Thrifty.ahead_of_current (hs : Thrifty N i s) (hCur : s.current.kind ≠ .eof) : Ahead N i s :=
  ⟨hs, fun h => absurd h hCur⟩

theorem Thrifty.inPlace (hs : Thrifty N i s) (h : InPlace s s') : Thrifty N i s' := by
  have hSlack : slack s' = slack s := by simp only [slack, h.current, h.previous]
  refine ⟨?_, ?_, ?_, ?_, ?_⟩
  · rw [h.tokens]
    exact hs.terminated
  · rw [h.tokens, h.current]
    exact hs.ended
  · rw [h.tokens, h.current, h.pulls]
    exact hs.reached
  · rw [h.tokens, h.pulls, hSlack]
    exact hs.spent
  · rw [h.pulls]
    exact hs.taken

/-- A move where the compile may move: it pulls, and keeps to the slack. -/
theorem Thrifty.move (hs : Thrifty N i s) (hMove : s.current.kind = .eof → s.previous.kind ≠ .eof) :
    Thrifty N (i + 1) (advance.run s).2 := by
  have h := pulled_advance hs.terminated
  have hLeft : 0 < (advance.run s).2.tokens.length := List.length_pos_iff.mpr h.terminated.ne_nil
  have hReached := hs.reached
  have hSpent := hs.spent
  have hSpent' := h.spent
  have hPulled := h.pulled
  have hTaken := hs.taken
  refine ⟨h.terminated, h.ended, ?_, ?_, by omega⟩
  · split_ifs at hReached hSpent' ⊢ <;> omega
  · unfold slack at hSpent ⊢
    rw [advance_previous]
    by_cases hCur : s.current.kind = .eof
    · -- The end was current and alone: the move pulls it again.
      have hOne := hs.ended hCur
      simp only [hCur, if_true, hMove hCur, if_false] at hSpent hSpent' ⊢
      split_ifs at hSpent' ⊢ <;> omega
    · simp only [hCur, if_false] at hSpent ⊢
      split_ifs at hSpent' ⊢ <;> omega

/-- A move past a token that is not the end leaves the compile free to move again. -/
theorem Thrifty.move_ahead (hs : Thrifty N i s) (hCur : s.current.kind ≠ .eof) :
    Ahead N (i + 1) (advance.run s).2 :=
  (hs.move fun h => absurd h hCur).ahead (by rw [advance_previous]; exact hCur)

/-- The last move, the match of the end: it pulls once more. -/
theorem Thrifty.move_end (hs : Thrifty N i s) (hEnd : s.current.kind = .eof) :
    N + 1 ≤ (advance.run s).2.pulls ∧ (advance.run s).2.pulls ≤ N + 2 := by
  have h := pulled_advance hs.terminated
  have hLeft : 0 < (advance.run s).2.tokens.length := List.length_pos_iff.mpr h.terminated.ne_nil
  have hOne := hs.ended hEnd
  have hReached := hs.reached
  have hSpent := hs.spent
  have hSlack := slack_le_two s
  have hSpent' := h.spent
  have hPulled := h.pulled
  simp only [hEnd, if_true] at hReached
  split_ifs at hSpent' <;> omega

theorem leads_inPlace {α : Type} {m : M α} (hm : ∀ s, InPlace s (m.run s).2) :
    Leads (Thrifty N i) (Thrifty N i) m :=
  fun s hs => hs.inPlace (hm s)

/-! ## Moves the rules make -/

theorem thrifty_accept {k : TokenKind} (hk : k ≠ .eof) : Leads (Thrifty N i) (Thrifty N i) (accept k) := by
  intro s hs
  by_cases hCur : s.current.kind = k
  · rw [run_accept_of_eq hCur]
    exact (hs.move_ahead (hCur ▸ hk)).1.mono (Nat.le_succ i)
  · rw [run_accept_of_ne hCur]
    exact hs

theorem thrifty_consume {k : TokenKind} (hk : k ≠ .eof) (message : String) :
    Leads (Thrifty N i) (Thrifty N i) (consume k message) := by
  intro s hs
  by_cases hCur : s.current.kind = k
  · rw [run_consume_of_eq hCur]
    exact (hs.move_ahead (hCur ▸ hk)).1.mono (Nat.le_succ i)
  · simp only [consume, run_bind, run_check, beq_iff_eq, hCur, if_false]
    exact hs.inPlace (inPlace_errorAtCurrent _ _)

/-! ## Expressions -/

theorem thrifty_infixLoop {fuel : Nat}
    (hP : ∀ i p, Leads (Ahead N i) (Thrifty N i) (parsePrecedence fuel p)) :
    ∀ steps p c i, Leads (Thrifty N i) (Thrifty N i) (infixLoop fuel steps p c)
  | 0, p, c, i => by
    rw [infixLoop]
    exact leads_pure _
  | steps + 1, p, c, i => by
    intro s hs
    rw [infixLoop, run_get_bind]
    dsimp only
    by_cases hOp : (decide (infixPrecedence s.current.kind ≠ 0) &&
        decide (p ≤ infixPrecedence s.current.kind)) = true
    · -- An operator is not the end: its right operand starts after a move past it.
      have hCur : s.current.kind ≠ .eof := by
        intro h
        simp [h, infixPrecedence] at hOp
      rw [if_pos hOp, run_bind]
      exact ((hP i _).bind fun _ => (leads_inPlace (inPlace_forM_emitOp _)).bind fun _ =>
        thrifty_infixLoop hP steps p c i) _ ((hs.move_ahead hCur).mono (Nat.le_succ i))
    · rw [if_neg hOp]
      exact leads_ite ((thrifty_accept (by decide)).bind fun _ =>
        leads_ite (leads_inPlace (inPlace_error _)) (leads_pure _)) (leads_pure _) s hs

/-- After the move to its first token, a parse keeps the invariant: every operand it parses
further starts after a move past a token that is not the end. -/
theorem thrifty_after_advance {fuel : Nat}
    (hP : ∀ i p, Leads (Ahead N i) (Thrifty N i) (parsePrecedence fuel p))
    (p i : Nat) (s : Compiler) (hs : Thrifty N i (advance.run s).2) :
    Thrifty N i ((parsePrecedence (fuel + 1) p).run s).2 := by
  have hLoop := thrifty_infixLoop hP
  rw [parsePrecedence, run_bind, run_get_bind]
  generalize (advance.run s).2 = s₁ at hs
  have hTail : ∀ {α : Type} {P : Compiler → Prop} (m : M α), Leads P (Thrifty N i) m →
      Leads P (Thrifty N i) (m >>= fun _ => get >>= fun s =>
        infixLoop fuel (s.tokens.length + 1) p (decide (p ≤ assignPrecedence))) :=
    fun m hm => hm.bind fun _ => leads_get.bind fun _ => hLoop _ _ _ _
  have hEmit : ∀ op : Op, Leads (Thrifty N i) (Thrifty N i) (emitOp op) :=
    fun _ => leads_inPlace (inPlace_emit _)
  dsimp only
  split
  · rename_i hGroup
    exact hTail _ ((hP i _).bind fun _ => thrifty_consume (by decide) _) s₁
      (hs.ahead (by rw [hGroup]; decide))
  · rename_i hMinus
    exact hTail _ ((hP i _).bind fun _ => hEmit _) s₁ (hs.ahead (by rw [hMinus]; decide))
  · rename_i hBang
    exact hTail _ ((hP i _).bind fun _ => hEmit _) s₁ (hs.ahead (by rw [hBang]; decide))
  · exact hTail _ (leads_inPlace (inPlace_emitConstant _)) s₁ hs
  · rw [run_get_bind, run_bind, run_set]
    exact hTail _ (leads_inPlace (inPlace_emitConstant _)) _ (hs.inPlace ⟨rfl, rfl, rfl, rfl⟩)
  · exact hTail _ (hEmit _) s₁ hs
  · exact hTail _ (hEmit _) s₁ hs
  · exact hTail _ (hEmit _) s₁ hs
  · -- A name: an assignment's value starts after the move past its `=`.
    rw [run_bind]
    have h₂ := hs.inPlace (inPlace_nameConstant s₁.previous s₁)
    generalize (nameConstant s₁.previous).run s₁ = r at h₂ ⊢
    obtain ⟨arg, s₂⟩ := r
    have hStore : Leads (Thrifty N i) (Thrifty N i) (emitOp .getGlobal >>= fun _ => emit arg.toUInt8) :=
      (hEmit _).bind fun _ => leads_inPlace (inPlace_emit _)
    dsimp only
    by_cases hAssign : p ≤ assignPrecedence ∧ s₂.current.kind = .assign
    · rw [if_pos hAssign.1, run_bind, run_accept_of_eq hAssign.2]
      exact hTail _ (((hP i _).bind fun _ => hEmit _).bind fun _ => leads_inPlace (inPlace_emit _)) _
        ((h₂.move_ahead (by rw [hAssign.2]; decide)).mono (Nat.le_succ i))
    · rw [run_accept_or_false fun hc hk => hAssign ⟨hc, hk⟩]
      simp only [Bool.false_eq_true, if_false]
      exact hTail _ hStore s₂ h₂
  · exact hs.inPlace (inPlace_error _ _)

theorem thrifty_parse : ∀ fuel, (∀ i p, Leads (Ahead N i) (Thrifty N i) (parsePrecedence fuel p)) ∧
    ∀ steps p c i, Leads (Thrifty N i) (Thrifty N i) (infixLoop fuel steps p c)
  | 0 =>
    have hP : ∀ i p, Leads (Ahead N i) (Thrifty N i) (parsePrecedence 0 p) := fun _ _ s hs => by
      rw [parsePrecedence]
      exact hs.1
    ⟨hP, thrifty_infixLoop hP⟩
  | fuel + 1 =>
    have hP : ∀ i p, Leads (Ahead N i) (Thrifty N i) (parsePrecedence (fuel + 1) p) := fun i p s hs =>
      (thrifty_after_advance (thrifty_parse fuel).1 p (i + 1) s (hs.1.move hs.2)).mono (Nat.le_succ i)
    ⟨hP, thrifty_infixLoop hP⟩

/-- An expression pulls at least once: its first move. -/
theorem thrifty_expression : Leads (Ahead N i) (Thrifty N (i + 1)) expression := by
  intro s hs
  rw [expression, run_get_bind]
  exact thrifty_after_advance (thrifty_parse _).1 _ (i + 1) s (hs.1.move hs.2)

/-! ## Declarations -/

theorem thrifty_synchronize_go : ∀ fuel i, Leads (Thrifty N i) (Thrifty N i) (synchronize.go fuel)
  | 0, _ => leads_pure _
  | fuel + 1, i => by
    intro s hs
    rw [synchronize.go, run_get_bind]
    split
    · exact hs
    · -- Resynchronizing stops at the end, so each of its moves is past a token that is not.
      rename_i hStop
      have hCur : s.current.kind ≠ .eof := fun h => hStop (by simp [h])
      rw [run_bind]
      exact thrifty_synchronize_go fuel i _ ((hs.move_ahead hCur).1.mono (Nat.le_succ i))

theorem thrifty_settle :
    Leads (Thrifty N i) (Thrifty N i) (get >>= fun x => if x.panicMode = true then synchronize else pure ()) := by
  refine leads_get.bind fun _ => leads_ite ?_ (leads_pure _)
  intro s hs
  rw [synchronize, run_bind, run_modify, run_get_bind]
  exact thrifty_synchronize_go _ _ _ (hs.inPlace ⟨rfl, rfl, rfl, rfl⟩)

theorem thrifty_statement :
    Leads (fun s => Thrifty N i s ∧ s.current.kind ≠ .eof) (Thrifty N (i + 1)) statement := by
  rintro s ⟨hs, hCur⟩
  rw [statement, run_bind]
  by_cases hk : s.current.kind = .infoKw
  · -- The value of `info` starts after the move past the keyword.
    rw [run_accept_of_eq hk]
    simp only [↓reduceIte, infoStatement]
    exact (thrifty_expression.bind fun _ => (thrifty_consume (by decide) _).bind fun _ =>
      leads_inPlace (inPlace_emitOp _)) _ ((hs.move_ahead hCur).mono (Nat.le_succ i))
  · rw [run_accept_of_ne hk]
    exact (thrifty_expression.bind fun _ => (thrifty_consume (by decide) _).bind fun _ =>
      leads_inPlace (inPlace_emit _)) s (hs.ahead_of_current hCur)

theorem thrifty_varDeclaration : Leads (Thrifty N i) (Thrifty N i) varDeclaration := by
  intro s hs
  rw [varDeclaration, run_bind]
  have h₁ : Thrifty N i ((parseVariable "Expect variable name.").run s).2 :=
    ((thrifty_consume (by decide) _).bind fun _ => leads_get.bind fun _ =>
      leads_inPlace (inPlace_nameConstant _)) s hs
  generalize (parseVariable "Expect variable name.").run s = r at h₁ ⊢
  obtain ⟨global, s₁⟩ := r
  have hDefine : Leads (Thrifty N i) (Thrifty N i)
      (consume .semicolon "Expect ';' after variable declaration." >>= fun _ =>
        emitOp .defineGlobal >>= fun _ => emit global.toUInt8) :=
    (thrifty_consume (by decide) _).bind fun _ => (leads_inPlace (inPlace_emit _)).bind fun _ =>
      leads_inPlace (inPlace_emit _)
  dsimp only
  rw [run_bind]
  by_cases hk : s₁.current.kind = .define
  · -- An initializer starts after the move past `:=`.
    rw [run_accept_of_eq hk]
    simp only [↓reduceIte]
    rw [run_bind]
    exact hDefine _ ((thrifty_expression _ (h₁.move_ahead (by rw [hk]; decide))).mono
      (Nat.le_succ_of_le (Nat.le_succ i)))
  · rw [run_accept_of_ne hk]
    simp only [Bool.false_eq_true, ↓reduceIte]
    rw [run_bind]
    exact hDefine _ (h₁.inPlace (inPlace_emit _ _))

/-- A declaration that starts before the end pulls at least once. -/
theorem thrifty_declaration :
    Leads (fun s => Thrifty N i s ∧ s.current.kind ≠ .eof) (Thrifty N (i + 1)) declaration := by
  rintro s ⟨hs, hCur⟩
  rw [declaration, run_bind]
  dsimp only
  by_cases hk : s.current.kind = .varKw
  · rw [run_accept_of_eq hk]
    simp only [↓reduceIte]
    rw [run_bind]
    exact thrifty_settle _ (thrifty_varDeclaration _ (hs.move_ahead hCur).1)
  · rw [run_accept_of_ne hk]
    simp only [Bool.false_eq_true, ↓reduceIte]
    rw [run_bind]
    exact thrifty_settle _ (thrifty_statement s ⟨hs, hCur⟩)

/-- The loop over declarations runs until it matches the end: each declaration pulls, and a
compile cannot pull more than the slack allows, so the fuel never runs out first. -/
theorem declarations_pulls : ∀ fuel i, Leads (fun s => Thrifty N i s ∧ N + 2 ≤ i + fuel)
    (fun s => N + 1 ≤ s.pulls ∧ s.pulls ≤ N + 2) (declarations fuel)
  | 0, i => by
    rintro s ⟨hs, hFuel⟩
    have hLeft : 0 < s.tokens.length := List.length_pos_iff.mpr hs.terminated.ne_nil
    have hSpent := hs.spent
    have hTaken := hs.taken
    have hSlack := slack_le_two s
    omega
  | fuel + 1, i => by
    rintro s ⟨hs, hFuel⟩
    rw [declarations, run_bind]
    by_cases hk : s.current.kind = .eof
    · rw [run_accept_of_eq hk]
      exact hs.move_end hk
    · rw [run_accept_of_ne hk]
      exact declarations_pulls fuel (i + 1) _ ⟨thrifty_declaration s ⟨hs, hk⟩, by omega⟩

end Compiler

/-- The tokens before the end of a terminated stream are all but its last. -/
theorem Terminated.length_takeWhile {ts : List Token} (h : Terminated ts) :
    (ts.takeWhile fun t => t.kind != .eof).length + 1 = ts.length := by
  obtain ⟨r, t, rfl, ht, hr⟩ := h
  rw [List.takeWhile_append_of_pos (fun u hu => by simpa using hr u hu)]
  simp [ht]

/-- Every compile pulls each token before the end of input once, then the end once to make it
current, at most once more where an operand was expected, and once to match it at the end of
the program: `n + 2` or `n + 3` pulls for `n` tokens before the end. -/
theorem compile_pulls_linear (src : Bytes) (heap : Heap) (name : String) :
    ((Scanner.scan src).1.takeWhile (fun t => t.kind != .eof)).length + 2 ≤
        (compileState src heap name).pulls ∧
      (compileState src heap name).pulls ≤
        ((Scanner.scan src).1.takeWhile (fun t => t.kind != .eof)).length + 3 := by
  have hT := Scanner.scan_terminated src
  have hLen := hT.length_takeWhile
  have hStart : Compiler.Thrifty (Scanner.scan src).1.length 0
      (Compiler.start (Scanner.scan src).1 heap (if name.isEmpty then "<script>" else name)) :=
    ⟨hT, fun h => absurd h (by simp [Compiler.start]), by simp [Compiler.start],
      by simp [Compiler.start, Compiler.slack], Nat.zero_le _⟩
  have hFirst := hStart.move_ahead (by simp [Compiler.start])
  have hLoop := Compiler.declarations_pulls ((Scanner.scan src).1.length + 1) 1 _ ⟨hFirst.1, by omega⟩
  rw [compileState, Compiler.run_bind, Compiler.run_bind, (Compiler.inPlace_emitOp _ _).pulls]
  omega

-- `info` alone reaches the bound: one token, and the end pulled for the operand it expects.
example : (compileState (Bytes.ofString "info") Heap.empty "").pulls = 1 + 3 := by
  rw [compileState, Compiler.declarations_eq_evalDeclarations]
  decide +kernel

end StackScript
