import StackScript.Proofs.Compiler.Grammar

/-! # Reading a token list into a parse tree

`Expr.parse` reads an expression the way the compiler does: by precedence, a prefix and then
binary operators binding at least as tightly as the level, each right operand one level
tighter. It walks the token list as the compiler walks its stream: `advance?` moves past the
current token and fails at a scanner error token, and the end of input repeats. Fuel and steps
are the compiler's own bounds.

The parser is sound (`Expr.parse_sound`: what it reads is a tree of the grammar, followed by a
token that does not extend it) and complete (`Expr.parse_complete`: every such split is what it
reads, given fuel for the tokens). So a token list has at most one split into a tree at a level
and a rest that does not extend it.
-/

namespace StackScript

set_option autoImplicit false

open Compiler (pop)

/-- The stream after moving past its current token; `none` when the next token is a scanner
error. -/
def advance? (ts : List Token) : Option (List Token) :=
  if (pop (pop ts).2).1.kind = .error then none else some (pop ts).2

/-- The binary operators after `lhs` that bind at least as tightly as `p`, each right operand
read by `sub` one level tighter than its operator. A stray `=` where an assignment may stand
fails. -/
def parseInfixWith (sub : Nat → List Token → Option (Expr × List Token)) :
    Nat → Nat → Expr → List Token → Option (Expr × List Token)
  | 0, _, lhs, ts => some (lhs, ts)
  | steps + 1, p, lhs, ts =>
    let k := (pop ts).1
    if infixPrecedence k.kind ≠ 0 ∧ p ≤ infixPrecedence k.kind then
      match advance? ts with
      | none => none
      | some ts =>
        match sub (infixPrecedence k.kind + 1) ts with
        | none => none
        | some (r, ts) => parseInfixWith sub steps p (.binary k lhs r) ts
    else if p ≤ assignPrecedence ∧ k.kind = .assign then none
    else some (lhs, ts)

/-- Reads an expression at precedence `p` from a stream whose current token is its first. -/
def Expr.parse : Nat → Nat → List Token → Option (Expr × List Token)
  | 0, _, _ => none
  | fuel + 1, p, ts =>
    let t := (pop ts).1
    match advance? ts with
    | none => none
    | some ts =>
      match t.kind with
      | .lparen =>
        match Expr.parse fuel assignPrecedence ts with
        | none => none
        | some (e, ts) =>
          let rp := (pop ts).1
          if rp.kind = .rparen then
            match advance? ts with
            | none => none
            | some ts => parseInfixWith (Expr.parse fuel) ((pop ts).2.length + 1) p (.group t e rp) ts
          else none
      | .minus | .bang =>
        match Expr.parse fuel unaryPrecedence ts with
        | none => none
        | some (e, ts) => parseInfixWith (Expr.parse fuel) ((pop ts).2.length + 1) p (.unary t e) ts
      | .number => parseInfixWith (Expr.parse fuel) ((pop ts).2.length + 1) p (.number t) ts
      | .string => parseInfixWith (Expr.parse fuel) ((pop ts).2.length + 1) p (.string t) ts
      | .falseKw | .nilKw | .trueKw =>
        parseInfixWith (Expr.parse fuel) ((pop ts).2.length + 1) p (.literal t) ts
      | .ident =>
        let q := (pop ts).1
        if p ≤ assignPrecedence ∧ q.kind = .assign then
          match advance? ts with
          | none => none
          | some ts =>
            match Expr.parse fuel assignPrecedence ts with
            | none => none
            | some (e, ts) =>
              parseInfixWith (Expr.parse fuel) ((pop ts).2.length + 1) p (.assign t q e) ts
        else parseInfixWith (Expr.parse fuel) ((pop ts).2.length + 1) p (.ident t) ts
      | _ => none

/-! ## Streams that end with the end of input -/

/-- A stream whose last token is the end of input. -/
def EndsEof (ts : List Token) : Prop := ∃ r t, ts = r ++ [t] ∧ t.kind = .eof

section Stream

variable {ts : List Token}

theorem pop_cons_of_ne_nil {t : Token} {r : List Token} (hr : r ≠ []) : pop (t :: r) = (t, r) := by
  cases r with
  | nil => exact absurd rfl hr
  | cons _ _ => rfl

@[simp] theorem pop_cons_fst (t : Token) (r : List Token) : (pop (t :: r)).1 = t := by
  cases r <;> rfl

theorem length_le_pop (ts : List Token) : ts.length ≤ (pop ts).2.length + 1 := by
  match ts with
  | [] => simp [pop]
  | [_] => simp [pop]
  | _ :: _ :: _ => simp [pop]

theorem EndsEof.ne_nil (h : EndsEof ts) : ts ≠ [] := by
  obtain ⟨r, t, rfl, -⟩ := h
  simp

/-- Past a current token that is not the end, the stream is that token and the rest. -/
theorem EndsEof.pop_eq (h : EndsEof ts) (hk : (pop ts).1.kind ≠ .eof) :
    ts = (pop ts).1 :: (pop ts).2 ∧ EndsEof (pop ts).2 := by
  obtain ⟨r, t, rfl, ht⟩ := h
  cases r with
  | nil => exact absurd ht (by simpa [pop] using hk)
  | cons a r =>
    rw [List.cons_append, pop_cons_of_ne_nil (by simp)]
    exact ⟨rfl, r, t, rfl, ht⟩

theorem EndsEof.of_append {a b : List Token} (h : EndsEof (a ++ b)) (hb : b ≠ []) : EndsEof b := by
  obtain ⟨r, t, hEq, ht⟩ := h
  obtain ⟨b', x, rfl⟩ := (List.eq_nil_or_concat b).resolve_left hb
  rw [List.concat_eq_append] at hEq ⊢
  rw [← List.append_assoc] at hEq
  obtain ⟨-, hLast⟩ := List.append_inj' hEq rfl
  cases hLast
  exact ⟨b', _, rfl, ht⟩

theorem EndsEof.eq_single (h : EndsEof ts) (hLen : ts.length ≤ 1) : ∃ t, ts = [t] ∧ t.kind = .eof := by
  obtain ⟨r, t, rfl, ht⟩ := h
  cases r with
  | nil => exact ⟨t, rfl, ht⟩
  | cons a r => simp at hLen

theorem advance?_eq_some {ts' : List Token} :
    advance? ts = some ts' ↔ ts' = (pop ts).2 ∧ (pop ts').1.kind ≠ .error := by
  unfold advance?
  split
  · rename_i hErr
    simp only [reduceCtorEq, false_iff, not_and]
    rintro rfl
    exact absurd hErr
  · rename_i hErr
    simp only [Option.some.injEq]
    constructor
    · rintro rfl
      exact ⟨rfl, hErr⟩
    · rintro ⟨rfl, -⟩
      rfl

theorem advance?_cons {t : Token} {r : List Token} (hr : r ≠ []) (hErr : (pop r).1.kind ≠ .error) :
    advance? (t :: r) = some r := by
  rw [advance?_eq_some, pop_cons_of_ne_nil hr]
  exact ⟨rfl, hErr⟩

end Stream

/-! ## Levels and the token after an expression -/

theorem assignPrecedence_eq : assignPrecedence = 1 := rfl

theorem unaryPrecedence_eq : unaryPrecedence = 8 := rfl

theorem infixPrecedence_le (k : TokenKind) : infixPrecedence k ≤ 7 := by
  cases k <;> decide

theorem continues_eq_false {p : Nat} {k : TokenKind} :
    continues p k = false ↔
      ¬ (infixPrecedence k ≠ 0 ∧ p ≤ infixPrecedence k) ∧ ¬ (p ≤ assignPrecedence ∧ k = .assign) := by
  simp [continues]

theorem ends_eof {p : Nat} {t : Token} (ht : t.kind = .eof) : Ends p [t] :=
  ⟨t, [], rfl, by simp [ht], by simp [continues, ht, infixPrecedence]⟩

/-- After an expression at precedence `p`, an operator that does not extend it binds less
tightly than `p`. -/
theorem Ends.infixPrecedence_lt {p : Nat} {rest : List Token} (h : Ends p rest) :
    infixPrecedence (pop rest).1.kind = 0 ∨ infixPrecedence (pop rest).1.kind < p := by
  obtain ⟨t, r, rfl, -, hStop⟩ := h
  have hHead : (pop (t :: r)).1 = t := by cases r <;> rfl
  have := (continues_eq_false.mp hStop).1
  rw [hHead]
  omega

theorem Ends.not_error {p : Nat} {rest : List Token} (h : Ends p rest) : (pop rest).1.kind ≠ .error := by
  obtain ⟨t, r, rfl, hErr, -⟩ := h
  cases r <;> simpa [pop] using hErr

theorem Ends.ne_nil {p : Nat} {rest : List Token} (h : Ends p rest) : rest ≠ [] := by
  obtain ⟨t, r, rfl, -⟩ := h
  simp

theorem Expr.yield_ne_nil (e : Expr) : e.yield ≠ [] := by
  cases e <;> simp [Expr.yield]

theorem Expr.level_le (e : Expr) : e.level ≤ unaryPrecedence := by
  cases e with
  | assign => exact (by decide : assignPrecedence ≤ unaryPrecedence)
  | binary op _ _ => exact Nat.le_trans (infixPrecedence_le op.kind) (by decide)
  | _ => exact Nat.le_refl _

/-! ## Soundness -/

/-- What the operator loop needs of the tree `lhs` it extends and the stream after it. -/
structure LoopReady (p : Nat) (lhs : Expr) (ts : List Token) : Prop where
  wf : lhs.WF
  level : p ≤ lhs.level
  ends : EndsEof ts
  not_error : (pop ts).1.kind ≠ .error
  tighter : infixPrecedence (pop ts).1.kind ≤ lhs.level

/-- What is left after a tree read from a stream that ends with the end of input still ends so. -/
theorem Parses.endsEof {q : Nat} {ts rest : List Token} {e : Expr} (h : Parses q ts e rest)
    (hEnds : EndsEof ts) : EndsEof rest := by
  rw [h.1] at hEnds
  exact hEnds.of_append h.2.2.2.ne_nil

/-- A reader of sub-expressions that is sound at every level: what it reads from a stream that
ends with the end of input is a tree of the grammar followed by a token that does not extend it. -/
def ReadsSoundly (sub : Nat → List Token → Option (Expr × List Token)) : Prop :=
  ∀ (q : Nat) (ts : List Token) (r : Expr) (rest : List Token), EndsEof ts →
    q ≤ unaryPrecedence → sub q ts = some (r, rest) → Parses q ts r rest

section Sound

variable {sub : Nat → List Token → Option (Expr × List Token)}

/-- The operator loop extends `lhs` by the tokens it reads into a tree of the grammar, and stops
where no operator extends it. -/
theorem parseInfixWith_sound (hSub : ReadsSoundly sub) :
    ∀ (steps p : Nat) (lhs : Expr) (ts : List Token) (e : Expr) (rest : List Token),
      LoopReady p lhs ts → ts.length ≤ steps + 1 →
      parseInfixWith sub steps p lhs ts = some (e, rest) →
      ∃ mid, ts = mid ++ rest ∧ e.yield = lhs.yield ++ mid ∧ e.WF ∧ p ≤ e.level ∧ Ends p rest := by
  intro steps
  induction steps with
  | zero =>
    intro p lhs ts e rest hReady hLen hLoop
    cases hLoop
    -- No steps left: the stream is the end of input alone.
    obtain ⟨t, rfl, ht⟩ := hReady.ends.eq_single hLen
    exact ⟨[], rfl, by simp, hReady.wf, hReady.level, ends_eof ht⟩
  | succ steps ih =>
    intro p lhs ts e rest hReady hLen hLoop
    simp only [parseInfixWith] at hLoop
    split at hLoop
    · rename_i hOp
      obtain ⟨hPrec, hLe⟩ := hOp
      have hNotEof : (pop ts).1.kind ≠ .eof := fun hEof => hPrec (by rw [hEof]; rfl)
      obtain ⟨hts, hEnds⟩ := hReady.ends.pop_eq hNotEof
      cases hAdv : advance? ts with
      | none => simp [hAdv] at hLoop
      | some ts₁ =>
        obtain ⟨rfl, -⟩ := advance?_eq_some.mp hAdv
        rw [hAdv] at hLoop
        simp only at hLoop
        cases hR : sub (infixPrecedence (pop ts).1.kind + 1) (pop ts).2 with
        | none => simp [hR] at hLoop
        | some res =>
          obtain ⟨r, ts₂⟩ := res
          rw [hR] at hLoop
          simp only at hLoop
          obtain ⟨hYield, hWF, hLevel, hEnd⟩ :=
            hSub _ _ r ts₂ hEnds
              (by have := infixPrecedence_le (pop ts).1.kind; rw [unaryPrecedence_eq]; omega) hR
          -- The right operand leaves an operator no tighter than the one just read.
          have hNext : infixPrecedence (pop ts₂).1.kind ≤ infixPrecedence (pop ts).1.kind := by
            rcases hEnd.infixPrecedence_lt with hZero | hLt <;> omega
          have hEnds₂ : EndsEof ts₂ := Parses.endsEof ⟨hYield, hWF, hLevel, hEnd⟩ hEnds
          have hReady' : LoopReady p (.binary (pop ts).1 lhs r) ts₂ :=
            ⟨⟨Nat.pos_of_ne_zero hPrec, hReady.wf, hWF, hReady.tighter, by omega⟩, hLe,
              hEnds₂, hEnd.not_error, hNext⟩
          have hLen' : ts₂.length ≤ steps + 1 := by
            have hts' := congrArg List.length hts
            rw [hYield] at hts'
            have := List.length_pos_iff.mpr r.yield_ne_nil
            simp only [List.length_cons, List.length_append] at hts'
            omega
          obtain ⟨mid, hMid, hE, hWF', hLevel', hEnds'⟩ := ih p _ ts₂ e rest hReady' hLen' hLoop
          refine ⟨(pop ts).1 :: r.yield ++ mid, ?_, ?_, hWF', hLevel', hEnds'⟩
          · have hSplit : ts = (pop ts).1 :: (r.yield ++ (mid ++ rest)) := by
              rw [← hMid, ← hYield]
              exact hts
            simpa using hSplit
          · rw [hE]
            simp [Expr.yield]
    · split at hLoop
      · cases hLoop
      · rename_i hOp hAssign
        cases hLoop
        obtain ⟨t, r, hts⟩ := List.exists_cons_of_ne_nil hReady.ends.ne_nil
        refine ⟨[], by simp, by simp, hReady.wf, hReady.level, t, r, hts, ?_, ?_⟩
        · have := hReady.not_error
          subst hts
          cases r <;> simpa [pop] using this
        · subst hts
          have hHead : (pop (t :: r)).1 = t := by cases r <;> rfl
          rw [hHead] at hOp hAssign
          exact continues_eq_false.mpr ⟨hOp, hAssign⟩

/-- The loop after a prefix tree `h` read from the front of `ts`. -/
theorem parses_of_prefix (hSub : ReadsSoundly sub) {p : Nat} {h : Expr} {ts ts' : List Token} {e : Expr} {rest : List Token}
    (hts : ts = h.yield ++ ts') (hReady : LoopReady p h ts')
    (hLoop : parseInfixWith sub ((pop ts').2.length + 1) p h ts' = some (e, rest)) :
    Parses p ts e rest := by
  obtain ⟨mid, hMid, hE, hWF, hLevel, hEnds⟩ :=
    parseInfixWith_sound hSub _ p h ts' e rest hReady (Nat.le_succ_of_le (length_le_pop ts')) hLoop
  exact ⟨by rw [hts, hMid, hE, List.append_assoc], hWF, hLevel, hEnds⟩

theorem LoopReady.of_level {p : Nat} {h : Expr} {ts : List Token} (hWF : h.WF)
    (hp : p ≤ unaryPrecedence) (hLevel : h.level = unaryPrecedence) (hEnds : EndsEof ts)
    (hErr : (pop ts).1.kind ≠ .error) : LoopReady p h ts :=
  ⟨hWF, hLevel ▸ hp, hEnds, hErr, hLevel ▸ Nat.le_trans (infixPrecedence_le _) (by decide)⟩

/-- A prefix operator followed by its operand, read at the unary level, and the operator loop. -/
theorem parses_unary (hSub : ReadsSoundly sub) {p : Nat} {t : Token} {ts₁ ts₂ rest : List Token}
    {e₀ e : Expr} (hKind : t.kind = .minus ∨ t.kind = .bang) (hEnds₁ : EndsEof ts₁)
    (hp : p ≤ unaryPrecedence) (hInner : sub unaryPrecedence ts₁ = some (e₀, ts₂))
    (hLoop : parseInfixWith sub ((pop ts₂).2.length + 1) p (.unary t e₀) ts₂ = some (e, rest)) :
    Parses p (t :: ts₁) e rest := by
  have hParses := hSub _ _ e₀ ts₂ hEnds₁ (Nat.le_refl _) hInner
  exact parses_of_prefix hSub (by rw [hParses.1]; rfl)
    (LoopReady.of_level (show (Expr.unary t e₀).WF from ⟨hKind, hParses.2.1, hParses.2.2.1⟩) hp rfl
      (hParses.endsEof hEnds₁) hParses.2.2.2.not_error) hLoop

end Sound

theorem EndsEof.split {ts ts₁ : List Token} {t : Token} (h : EndsEof ts) (hPop : pop ts = (t, ts₁))
    (hk : t.kind ≠ .eof) : ts = t :: ts₁ ∧ EndsEof ts₁ := by
  have := h.pop_eq (by rw [hPop]; exact hk)
  rwa [hPop] at this

theorem advance?_eq_some_of_pop {ts ts₁ ts' : List Token} {t : Token} (hPop : pop ts = (t, ts₁))
    (hAdv : advance? ts = some ts') : ts' = ts₁ ∧ (pop ts₁).1.kind ≠ .error := by
  obtain ⟨rfl, hErr⟩ := advance?_eq_some.mp hAdv
  rw [hPop] at hErr ⊢
  exact ⟨rfl, hErr⟩

/-- What the parser reads from a stream that ends with the end of input is a tree of the
grammar at the level asked for, followed by a token that does not extend it. -/
theorem Expr.parse_sound :
    ∀ (fuel p : Nat) (ts : List Token) (e : Expr) (rest : List Token), EndsEof ts →
      p ≤ unaryPrecedence → Expr.parse fuel p ts = some (e, rest) → Parses p ts e rest := by
  intro fuel
  induction fuel with
  | zero =>
    intro p ts e rest _ _ hParse
    simp [Expr.parse] at hParse
  | succ fuel ih =>
    intro p ts e rest hEnds hp hParse
    obtain ⟨t, tail, hPop⟩ : ∃ t tail, pop ts = (t, tail) := ⟨_, _, rfl⟩
    simp only [Expr.parse, hPop] at hParse
    cases hAdv : advance? ts with
    | none => simp [hAdv] at hParse
    | some ts₁ =>
      obtain ⟨rfl, hErr₁⟩ := advance?_eq_some_of_pop hPop hAdv
      rw [hAdv] at hParse
      simp only at hParse
      -- The end of input starts no expression, so the stream goes on past its first token.
      have hNotEof : t.kind ≠ .eof := fun hk => by simp [hk] at hParse
      obtain ⟨rfl, hEnds₁⟩ := hEnds.split hPop hNotEof
      split at hParse
      · -- A parenthesized expression.
        rename_i hKind
        split at hParse
        · cases hParse
        rename_i e₀ ts₂ hInner
        have hParses := ih _ _ e₀ ts₂ hEnds₁ (by decide) hInner
        obtain ⟨rp, ts₃, hPop₂⟩ : ∃ rp ts₃, pop ts₂ = (rp, ts₃) := ⟨_, _, rfl⟩
        simp only [hPop₂] at hParse
        split at hParse
        · rename_i hClose
          cases hAdv₂ : advance? ts₂ with
          | none => simp [hAdv₂] at hParse
          | some ts' =>
            obtain ⟨rfl, hErr₃⟩ := advance?_eq_some_of_pop hPop₂ hAdv₂
            rw [hAdv₂] at hParse
            obtain ⟨rfl, hEnds₃⟩ := (hParses.endsEof hEnds₁).split hPop₂ (by rw [hClose]; decide)
            refine parses_of_prefix ih ?_
              (LoopReady.of_level (show (Expr.group t e₀ rp).WF from ⟨hKind, hClose, hParses.2.1⟩)
                hp rfl hEnds₃ hErr₃) hParse
            rw [hParses.1]
            simp [Expr.yield]
        · cases hParse
      · -- A negation.
        rename_i hKind
        split at hParse
        · cases hParse
        · rename_i e₀ ts₂ hInner
          exact parses_unary ih (.inl hKind) hEnds₁ hp hInner hParse
      · rename_i hKind
        split at hParse
        · cases hParse
        · rename_i e₀ ts₂ hInner
          exact parses_unary ih (.inr hKind) hEnds₁ hp hInner hParse
      · -- Literals.
        rename_i hKind
        exact parses_of_prefix ih rfl
          (LoopReady.of_level (show (Expr.number t).WF from hKind) hp rfl hEnds₁ hErr₁) hParse
      · rename_i hKind
        exact parses_of_prefix ih rfl
          (LoopReady.of_level (show (Expr.string t).WF from hKind) hp rfl hEnds₁ hErr₁) hParse
      · rename_i hKind
        exact parses_of_prefix ih rfl
          (LoopReady.of_level (show (Expr.literal t).WF from .inr (.inl hKind)) hp rfl hEnds₁ hErr₁)
          hParse
      · rename_i hKind
        exact parses_of_prefix ih rfl
          (LoopReady.of_level (show (Expr.literal t).WF from .inr (.inr hKind)) hp rfl hEnds₁ hErr₁)
          hParse
      · rename_i hKind
        exact parses_of_prefix ih rfl
          (LoopReady.of_level (show (Expr.literal t).WF from .inl hKind) hp rfl hEnds₁ hErr₁) hParse
      · -- A name, assigned to or read.
        rename_i hKind
        obtain ⟨q, ts₂, hPop₁⟩ : ∃ q ts₂, pop ts₁ = (q, ts₂) := ⟨_, _, rfl⟩
        simp only [hPop₁] at hParse
        split at hParse
        · rename_i hAssign
          obtain ⟨hpAssign, hEq⟩ := hAssign
          cases hAdv₂ : advance? ts₁ with
          | none => simp [hAdv₂] at hParse
          | some ts' =>
            obtain ⟨rfl, -⟩ := advance?_eq_some_of_pop hPop₁ hAdv₂
            rw [hAdv₂] at hParse
            simp only at hParse
            obtain ⟨rfl, hEnds₂⟩ := hEnds₁.split hPop₁ (by rw [hEq]; decide)
            split at hParse
            · cases hParse
            rename_i e₀ ts₃ hInner
            have hParses := ih _ _ e₀ ts₃ hEnds₂ (by decide) hInner
            -- An assignment stands loosest: no operator after its value binds more loosely.
            have hTight : infixPrecedence (pop ts₃).1.kind ≤ assignPrecedence := by
              rcases hParses.2.2.2.infixPrecedence_lt with hZero | hLt
              · rw [hZero]
                exact Nat.zero_le _
              · exact Nat.le_of_lt hLt
            exact parses_of_prefix ih (by rw [hParses.1]; rfl)
              ⟨show (Expr.assign t q e₀).WF from ⟨hKind, hEq, hParses.2.1⟩, hpAssign,
                hParses.endsEof hEnds₂, hParses.2.2.2.not_error, hTight⟩ hParse
        · exact parses_of_prefix ih rfl
            (LoopReady.of_level (show (Expr.ident t).WF from hKind) hp rfl hEnds₁ hErr₁)
            (by rw [hPop₁]; exact hParse)
      · cases hParse

/-! ## Completeness -/

/-- `e` is `h` followed by binary operators, whose tokens after `h` are `mid`; `k` operators. -/
inductive Spine (h : Expr) : Expr → List Token → Nat → Prop where
  | refl : Spine h h [] 0
  | step {l : Expr} {mid : List Token} {k : Nat} (op : Token) (r : Expr) :
      Spine h l mid k → Spine h (.binary op l r) (mid ++ op :: r.yield) (k + 1)

/-- The first operand of a chain of binary operators. -/
def Expr.head : Expr → Expr
  | binary _ l _ => l.head
  | e => e

theorem Expr.spine (e : Expr) : ∃ mid k, Spine e.head e mid k ∧ e.yield = e.head.yield ++ mid := by
  induction e with
  | binary op l r ihl _ =>
    obtain ⟨mid, k, hSpine, hYield⟩ := ihl
    exact ⟨mid ++ op :: r.yield, k + 1, hSpine.step op r, by simp [Expr.yield, Expr.head, hYield]⟩
  | _ => exact ⟨[], 0, .refl, by simp [Expr.head]⟩

theorem Ends.mono {p q : Nat} {rest : List Token} (h : Ends p rest) (hpq : p ≤ q) : Ends q rest := by
  obtain ⟨t, r, rfl, hErr, hStop⟩ := h
  refine ⟨t, r, rfl, hErr, continues_eq_false.mpr ⟨?_, ?_⟩⟩
  · have := (continues_eq_false.mp hStop).1
    omega
  · exact fun ⟨hq, hk⟩ => (continues_eq_false.mp hStop).2 ⟨Nat.le_trans hpq hq, hk⟩

/-- A stream that starts with a binary operator ends an expression at the unary level. -/
theorem ends_of_operator {op : Token} {r : List Token} (hOp : infixPrecedence op.kind ≠ 0) :
    Ends unaryPrecedence (op :: r) := by
  refine ⟨op, r, rfl, fun hErr => hOp (by rw [hErr]; rfl), continues_eq_false.mpr ⟨?_, ?_⟩⟩
  · have := infixPrecedence_le op.kind
    rw [unaryPrecedence_eq]
    omega
  · rw [unaryPrecedence_eq, assignPrecedence_eq]
    omega

theorem Spine.length_le {h e : Expr} {mid : List Token} {k : Nat} (hSpine : Spine h e mid k) :
    k ≤ mid.length := by
  induction hSpine with
  | refl => exact Nat.le_refl 0
  | step op r _ ih =>
    simp only [List.length_append, List.length_cons]
    omega

/-- The tokens after the head of a chain start with an operator, unless the chain is the head. -/
theorem Spine.first {h e : Expr} {mid : List Token} {k : Nat} (hSpine : Spine h e mid k) (hWF : e.WF) :
    mid = [] ∨ ∃ op m, mid = op :: m ∧ infixPrecedence op.kind ≠ 0 := by
  induction hSpine with
  | refl => exact .inl rfl
  | step op r _ ih =>
    obtain ⟨hPrec, hlWF, -⟩ := hWF
    rcases ih hlWF with rfl | ⟨op', m, rfl, hOp'⟩
    · exact .inr ⟨op, r.yield, rfl, Nat.pos_iff_ne_zero.mp hPrec⟩
    · exact .inr ⟨op', m ++ op :: r.yield, rfl, hOp'⟩

/-- After the head of a chain come its operators, then the tokens that end it. -/
theorem Spine.ends {h e : Expr} {mid : List Token} {k : Nat} (hSpine : Spine h e mid k) (hWF : e.WF)
    {p : Nat} {rest : List Token} (hp : p ≤ unaryPrecedence) (hEnds : Ends p rest) :
    Ends unaryPrecedence (mid ++ rest) ∧
      (p ≤ assignPrecedence → (pop (mid ++ rest)).1.kind ≠ .assign) := by
  rcases hSpine.first hWF with rfl | ⟨op, m, rfl, hOp⟩
  · refine ⟨hEnds.mono hp, fun hAssign hEq => ?_⟩
    obtain ⟨t, r, rfl, -, hStop⟩ := hEnds
    have hHead : (pop (t :: r)).1 = t := by cases r <;> rfl
    rw [List.nil_append, hHead] at hEq
    exact (continues_eq_false.mp hStop).2 ⟨hAssign, hEq⟩
  · refine ⟨ends_of_operator hOp, fun _ hEq => hOp ?_⟩
    have hHead : (pop (op :: (m ++ rest))).1 = op := by cases m ++ rest <;> rfl
    rw [List.cons_append, hHead] at hEq
    rw [hEq]
    rfl

theorem Spine.wf_head {h e : Expr} {mid : List Token} {k : Nat} (hSpine : Spine h e mid k)
    (hWF : e.WF) : h.WF := by
  induction hSpine with
  | refl => exact hWF
  | step op r _ ih => exact ih hWF.2.1

theorem infixPrecedence_ge {k : TokenKind} (hk : infixPrecedence k ≠ 0) : 4 ≤ infixPrecedence k := by
  cases k <;> simp_all [infixPrecedence]

/-- An assignment heads no chain: no operator takes it as its left operand. -/
theorem Spine.eq_of_assign {h e : Expr} {mid : List Token} {k : Nat} (hSpine : Spine h e mid k)
    (hWF : e.WF) (hLevel : h.level = assignPrecedence) : e = h ∧ mid = [] ∧ k = 0 := by
  induction hSpine with
  | refl => exact ⟨rfl, rfl, rfl⟩
  | step op r _ ih =>
    obtain ⟨hPrec, hlWF, -, hLe, -⟩ := hWF
    obtain ⟨rfl, -, -⟩ := ih hlWF
    have := infixPrecedence_ge (Nat.pos_iff_ne_zero.mp hPrec)
    rw [hLevel, assignPrecedence_eq] at hLe
    omega

/-- The kinds of token an expression starts with. -/
def startsExpr : TokenKind → Bool
  | .lparen | .minus | .bang | .number | .string | .falseKw | .nilKw | .trueKw | .ident => true
  | _ => false

theorem ne_of_startsExpr {k k' : TokenKind} (h : startsExpr k = true) (h' : startsExpr k' = false) :
    k ≠ k' := by
  rintro rfl
  rw [h'] at h
  cases h

theorem Expr.first_token {e : Expr} (hWF : e.WF) :
    ∃ t r, e.yield = t :: r ∧ startsExpr t.kind = true := by
  induction e with
  | number t | string t | ident t => exact ⟨t, [], rfl, by rw [show t.kind = _ from hWF]; rfl⟩
  | literal t => exact ⟨t, [], rfl, by rcases hWF with h | h | h <;> rw [h] <;> rfl⟩
  | assign x q e _ => exact ⟨x, _, rfl, by rw [hWF.1]; rfl⟩
  | unary op e _ => exact ⟨op, _, rfl, by rcases hWF.1 with h | h <;> rw [h] <;> rfl⟩
  | binary op l r ihl _ =>
    obtain ⟨t, m, hl, hStarts⟩ := ihl hWF.2.1
    exact ⟨t, m ++ op :: r.yield, by simp [Expr.yield, hl], hStarts⟩
  | group lp e rp _ => exact ⟨lp, _, rfl, by rw [hWF.1]; rfl⟩

theorem Expr.pop_yield_append {e : Expr} (hWF : e.WF) (Y : List Token) :
    (pop (e.yield ++ Y)).1.kind ≠ .error ∧ (pop (e.yield ++ Y)).1.kind ≠ .eof := by
  obtain ⟨t, m, hYield, hStarts⟩ := e.first_token hWF
  rw [hYield, List.cons_append, pop_cons_fst]
  exact ⟨ne_of_startsExpr hStarts rfl, ne_of_startsExpr hStarts rfl⟩

/-- An operator binding less tightly than `q` ends an expression at precedence `q`. -/
theorem ends_of_operator_lt {q : Nat} {op : Token} {r : List Token}
    (hOp : infixPrecedence op.kind ≠ 0) (hq : infixPrecedence op.kind < q) : Ends q (op :: r) := by
  refine ⟨op, r, rfl, fun hErr => hOp (by rw [hErr]; rfl), continues_eq_false.mpr ⟨?_, ?_⟩⟩
  · omega
  · exact fun ⟨_, hEq⟩ => hOp (by rw [hEq]; rfl)

theorem parseInfixWith_stop {sub : Nat → List Token → Option (Expr × List Token)} {steps p : Nat}
    {e : Expr} {X : List Token} (hEnds : Ends p X) : parseInfixWith sub steps p e X = some (e, X) := by
  cases steps with
  | zero => rfl
  | succ steps =>
    obtain ⟨t, r, rfl, -, hStop⟩ := hEnds
    obtain ⟨hOp, hAssign⟩ := continues_eq_false.mp hStop
    simp only [parseInfixWith, pop_cons_fst]
    rw [if_neg hOp, if_neg hAssign]

/-- What completeness asks of a reader of expressions, for streams of at most `F` tokens. -/
def ReadsAll (sub : Nat → List Token → Option (Expr × List Token)) (F : Nat) : Prop :=
  ∀ (e : Expr) (q : Nat) (Y : List Token), e.WF → q ≤ e.level → Ends q Y → EndsEof (e.yield ++ Y) →
    (e.yield ++ Y).length ≤ F → sub q (e.yield ++ Y) = some (e, Y)

/-- The operator loop walks the chain from its head `h` to `e`, one operator a step, when `sub`
reads each right operand. -/
theorem parseInfixWith_spine {sub : Nat → List Token → Option (Expr × List Token)} {p F : Nat}
    {h : Expr} (hSub : ReadsAll sub F) :
    ∀ {e : Expr} {mid : List Token} {k : Nat}, Spine h e mid k → e.WF → p ≤ e.level →
      ∀ (X : List Token), (∀ op l r, e = .binary op l r → Ends (infixPrecedence op.kind + 1) X) →
      EndsEof (mid ++ X) → (mid ++ X).length ≤ F →
      ∀ steps, parseInfixWith sub (k + steps) p h (mid ++ X) = parseInfixWith sub steps p e X := by
  intro e mid k hSpine
  induction hSpine with
  | refl => intros; simp
  | @step l mid k op r _ ih =>
    intro hWF hp X hX hEndsX hLenX steps
    obtain ⟨hPrec, hlWF, hrWF, hLe, hLt⟩ := hWF
    have hOp : infixPrecedence op.kind ≠ 0 := Nat.pos_iff_ne_zero.mp hPrec
    have hAssoc : mid ++ op :: r.yield ++ X = mid ++ (op :: (r.yield ++ X)) := by simp
    rw [hAssoc] at hEndsX hLenX ⊢
    -- The left part of the chain, up to the operator `op`.
    rw [show k + 1 + steps = k + (steps + 1) by omega,
      ih hlWF (Nat.le_trans (hp : p ≤ infixPrecedence op.kind) hLe) _
        (by
          rintro op' l' r' rfl
          exact ends_of_operator_lt hOp (Nat.lt_succ_of_le hLe))
        hEndsX hLenX (steps + 1)]
    -- One turn of the loop reads `op` and its right operand.
    have hPop : pop (op :: (r.yield ++ X)) = (op, r.yield ++ X) :=
      pop_cons_of_ne_nil (by simp [r.yield_ne_nil])
    have hEndsR : EndsEof (r.yield ++ X) :=
      EndsEof.of_append (a := [op]) (hEndsX.of_append (by simp)) (by simp [r.yield_ne_nil])
    have hRight := hSub r _ X hrWF hLt (hX op l r rfl) hEndsR
      (Nat.le_trans (by simp only [List.length_append, List.length_cons]; omega) hLenX)
    simp only [parseInfixWith, hPop]
    rw [if_pos ⟨hOp, hp⟩, advance?_cons (by simp [r.yield_ne_nil]) (r.pop_yield_append hrWF X).1]
    simp only [hRight]

/-- From the head of a chain on, the operator loop reads the whole chain. -/
theorem parseInfixWith_complete {sub : Nat → List Token → Option (Expr × List Token)} {p F : Nat}
    (hSub : ReadsAll sub F) {h e : Expr} {mid : List Token} {k : Nat} (hSpine : Spine h e mid k)
    (hWF : e.WF) (hp : p ≤ e.level) {rest : List Token} (hEnds : Ends p rest)
    (hEndsZ : EndsEof (mid ++ rest)) (hLen : (mid ++ rest).length ≤ F) :
    parseInfixWith sub ((pop (mid ++ rest)).2.length + 1) p h (mid ++ rest) = some (e, rest) := by
  have hk : k ≤ (pop (mid ++ rest)).2.length + 1 := by
    have := hSpine.length_le
    have := length_le_pop (mid ++ rest)
    have := List.length_pos_iff.mpr hEnds.ne_nil
    simp only [List.length_append] at *
    omega
  obtain ⟨steps, hSteps⟩ : ∃ steps, (pop (mid ++ rest)).2.length + 1 = k + steps :=
    ⟨_, (Nat.add_sub_cancel' hk).symm⟩
  have hX : ∀ op l r, e = .binary op l r → Ends (infixPrecedence op.kind + 1) rest := by
    rintro op l r rfl
    exact hEnds.mono (Nat.le_succ_of_le hp)
  rw [hSteps, parseInfixWith_spine hSub hSpine hWF hp rest hX hEndsZ hLen steps]
  exact parseInfixWith_stop hEnds

theorem Expr.head_ne_binary (e : Expr) (op : Token) (l r : Expr) : e.head ≠ .binary op l r := by
  induction e with
  | binary _ _ _ ihl _ => exact ihl
  | _ => simp [Expr.head]

theorem Expr.assignPrecedence_le {e : Expr} (hWF : e.WF) : assignPrecedence ≤ e.level := by
  cases e with
  | binary op l r => exact Nat.le_trans (by decide) (infixPrecedence_ge (Nat.pos_iff_ne_zero.mp hWF.1))
  | assign => exact Nat.le_refl _
  | _ => exact (by decide : assignPrecedence ≤ unaryPrecedence)

theorem ends_rparen {p : Nat} {rp : Token} {r : List Token} (h : rp.kind = .rparen) :
    Ends p (rp :: r) :=
  ⟨rp, r, rfl, by rw [h]; decide, by simp [continues, h, infixPrecedence]⟩

/-- Given fuel for its tokens, the parser reads every tree of the grammar that the stream
starts with, when the token after it does not extend it. -/
theorem Expr.parse_complete :
    ∀ (fuel : Nat), ReadsAll (Expr.parse fuel) fuel := by
  intro fuel
  induction fuel with
  | zero =>
    intro e q Y _ _ _ hEE hLen
    exact absurd (List.length_eq_zero_iff.mp (Nat.le_zero.mp hLen)) hEE.ne_nil
  | succ fuel ih =>
    intro e p rest hWF hp hEnds hEE hLen
    have hp8 : p ≤ unaryPrecedence := Nat.le_trans hp e.level_le
    obtain ⟨mid, k, hSpine, hYield⟩ := e.spine
    obtain ⟨hEnds8, hNoAssign⟩ := hSpine.ends hWF hp8 hEnds
    have hhWF := hSpine.wf_head hWF
    have hZ : mid ++ rest ≠ [] := hEnds8.ne_nil
    rw [hYield, List.append_assoc] at hEE hLen ⊢
    have hEEZ : EndsEof (mid ++ rest) := hEE.of_append hZ
    have hLenZ : (mid ++ rest).length ≤ fuel := by
      have := List.length_pos_iff.mpr e.head.yield_ne_nil
      simp only [List.length_append] at hLen ⊢
      omega
    have hLoop := parseInfixWith_complete ih hSpine hWF hp hEnds hEEZ hLenZ
    have hNotBinary := e.head_ne_binary
    generalize e.head = h at hSpine hhWF hLoop hNotBinary hEE hLen ⊢
    cases h with
    | number t | string t =>
      simp only [Expr.yield, List.singleton_append, Expr.parse, pop_cons_fst,
        advance?_cons hZ hEnds8.not_error, show t.kind = _ from hhWF]
      exact hLoop
    | literal t =>
      rcases hhWF with hKind | hKind | hKind <;>
      · simp only [Expr.yield, List.singleton_append, Expr.parse, pop_cons_fst,
          advance?_cons hZ hEnds8.not_error, hKind]
        exact hLoop
    | ident x =>
      simp only [Expr.yield, List.singleton_append, Expr.parse, pop_cons_fst,
        advance?_cons hZ hEnds8.not_error, show x.kind = _ from hhWF]
      rw [if_neg (fun ⟨h1, h2⟩ => hNoAssign h1 h2)]
      exact hLoop
    | unary op inner =>
      obtain ⟨hOp, hiWF, hiLevel⟩ := hhWF
      have hIn : (inner.yield ++ (mid ++ rest)) ≠ [] := by simp [inner.yield_ne_nil]
      have hInner := ih inner _ _ hiWF hiLevel hEnds8 (EndsEof.of_append (a := [op]) hEE hIn)
        (by simp only [Expr.yield, List.cons_append, List.length_cons] at hLen; omega)
      simp only [Expr.yield, List.cons_append, Expr.parse, pop_cons_fst,
        advance?_cons hIn (inner.pop_yield_append hiWF _).1]
      rcases hOp with hKind | hKind <;>
      · simp only [hKind, hInner]
        exact hLoop
    | group lp inner rp =>
      obtain ⟨hL, hR, hiWF⟩ := hhWF
      have hAssoc : inner.yield ++ [rp] ++ (mid ++ rest) = inner.yield ++ rp :: (mid ++ rest) := by simp
      simp only [Expr.yield, List.cons_append, hAssoc] at hEE hLen ⊢
      have hIn : (inner.yield ++ rp :: (mid ++ rest)) ≠ [] := by simp
      have hInner := ih inner _ _ hiWF (inner.assignPrecedence_le hiWF) (ends_rparen hR)
        (EndsEof.of_append (a := [lp]) hEE hIn) (by simp only [List.length_cons] at hLen; omega)
      simp only [Expr.parse, pop_cons_fst, advance?_cons hIn (inner.pop_yield_append hiWF _).1, hL,
        hInner, hR, if_true, advance?_cons hZ hEnds8.not_error]
      exact hLoop
    | assign x q inner =>
      obtain ⟨rfl, rfl, rfl⟩ := hSpine.eq_of_assign hWF rfl
      obtain ⟨hX, hQ, hiWF⟩ := hhWF
      simp only [Expr.yield, List.cons_append, List.nil_append] at hEE hLen hEnds8 hZ hLoop ⊢
      have hIn : (inner.yield ++ rest) ≠ [] := by simp [inner.yield_ne_nil]
      have hInner := ih inner _ _ hiWF (inner.assignPrecedence_le hiWF) (hEnds.mono hp)
        (EndsEof.of_append (a := [x, q]) hEE hIn) (by simp only [List.length_cons] at hLen; omega)
      simp only [Expr.parse, pop_cons_fst, advance?_cons (t := x) (List.cons_ne_nil q _) (by simp [hQ]), hX, hQ,
        and_true, advance?_cons hIn (inner.pop_yield_append hiWF _).1, hInner]
      have hpA : p ≤ assignPrecedence := hp
      rw [if_pos hpA]
      exact hLoop
    | binary op l r => exact absurd rfl (hNotBinary op l r)

end StackScript
