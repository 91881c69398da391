import StackScript.Proofs.Compiler.Blind

/-! # Recovery after a malformed declaration

A program's declarations are compiled one after another, and an error in one of them is
reported once: after the first report the compiler suppresses the rest until it resynchronizes,
after a `;` or before a keyword that starts a statement.

For a declaration that the grammar rejects but whose end is clear (its only `;` is its last
token, and no keyword that starts a statement stands after its first token), the compiler
reports exactly one error, at one of its tokens, and stands at the next declaration with no
report suppressed (`malformed_declaration`), provided the next declaration does not start with
a token that would continue what the malformed one left open: a binary operator, `=`, `)` or
`;`. A well-formed declaration compiles as it would alone (`Blind`), so it reports nothing.

The proof follows the parse through the malformed declaration with an invariant (`DeclSite.Inside`):
the compiler stands within the declaration, it has reported nothing or one error at a token of
the declaration, and the constants it added are charged to the tokens it has read. The parse
leaves the declaration only by reading its `;`, as the operand that cannot start there or as the
end of the statement; after that nothing the enclosing rules do reads past it.

The charge of the constants keeps the pool within its 256 entries: a literal adds one constant
at most once, when it is read, and a name adds one unless the pool has it. The one constant
that the grammar does not ask for is the keyword `var` of a declaration that lacks its name,
which the compiler takes as the name.
-/

namespace StackScript

set_option autoImplicit false

open Scanner Compiler

/-! ## The text of the keyword `var` -/

theorem TokenKind.ofWord_eq_varKw {w : Bytes} (h : TokenKind.ofWord w = .varKw) :
    w = Bytes.ofString "var" := by
  unfold TokenKind.ofWord at h
  split at h
  · rename_i e he
    have hKinds : ∀ q ∈ TokenKind.keywords, q.2 = .varKw → q.1 = "var" := by decide
    have hText := List.find?_some he
    rw [← eq_of_beq hText, hKinds e (List.mem_of_find?_eq_some he) h]
  · cases h

theorem Scanner.Lexeme.text_of_varKw {w : Bytes} {k : TokenKind} (h : Lexeme w k) (hk : k = .varKw) :
    w = Bytes.ofString "var" := by
  cases h with
  | fixed hMem =>
    have hKinds : ∀ q ∈ fixedLexemes, q.2 ≠ .varKw := by decide
    exact absurd hk (hKinds _ hMem)
  | number => cases hk
  | word => exact TokenKind.ofWord_eq_varKw hk
  | string => cases hk

/-- Every `var` of a tokenisation spells `var`. -/
theorem Scanner.Lexes.var_text {pre r : Bytes} {ts : List Token} (h : Lexes pre r ts) :
    ∀ t ∈ ts, t.kind = .varKw → t.text = Bytes.ofString "var" := by
  induction h with
  | eof =>
    intro t ht hk
    rw [List.mem_singleton] at ht
    subst ht
    cases hk
  | token hRun hMunch _ ih =>
    intro t ht hk
    rcases List.mem_cons.mp ht with rfl | ht
    · cases hMunch with
      | lexeme hL => exact hL.1.text_of_varKw hk
      | unterminated => cases hk
      | unexpected => cases hk
    · exact ih t ht hk

/-! ## Counting constants -/

/-- Some `var` of the tokens is not followed by a name. -/
def VarGap (L : List Token) : Prop :=
  ∃ r₁ a b r₂, L = r₁ ++ a :: b :: r₂ ∧ a.kind = .varKw ∧ b.kind ≠ .ident

/-- The constants a compile of the tokens `L` asks for fit in one chunk: one per literal and per
distinct name, and one more for the name `var` where a `var` is not followed by a name. -/
def ConstantsFit (L : List Token) : Prop :=
  constantCount L ≤ Chunk.maxConstants ∧ (VarGap L → constantCount L < Chunk.maxConstants)

/-- A pool charged to the tokens `c` read so far: its names are distinct, each the text of a name
of `c` or the keyword `var` where a `var` of `L` lacks its name, and it has `k` literals fewer
than `c` at most. -/
def Charges (L c : List Token) (k : Nat) (pool : List Const) : Prop :=
  (poolNames pool).Nodup ∧
    (∀ x ∈ poolNames pool, x ∈ nameTexts c ∨ (VarGap L ∧ x = Bytes.ofString "var")) ∧
    literalCount pool + k ≤ c.countP (fun t => t.kind == .number || t.kind == .string)

section Charges

variable {L c : List Token} {k : Nat} {pool : List Const}

theorem Charges.mono {c' : List Token} (h : Charges L c k pool) (hc : List.Sublist c c') :
    Charges L c' k pool := by
  obtain ⟨hNodup, hNames, hLits⟩ := h
  refine ⟨hNodup, fun x hx => (hNames x hx).imp_left fun hx' => ?_, le_trans hLits hc.countP_le⟩
  exact ((hc.filter _).map _).subset hx'

theorem Charges.weaken {k' : Nat} (h : Charges L c k pool) (hk : k' ≤ k) : Charges L c k' pool :=
  ⟨h.1, h.2.1, le_trans (Nat.add_le_add_left hk _) h.2.2⟩

/-- A charged pool fits in the chunk when `L` asks for no more than fits. -/
theorem Charges.length_le (h : Charges L c k pool) (hc : c <+: L) (hFit : ConstantsFit L) :
    pool.length + k ≤ Chunk.maxConstants := by
  obtain ⟨hNodup, hNames, hLits⟩ := h
  have hCount : c.countP (fun t => t.kind == .number || t.kind == .string) ≤
      L.countP (fun t => t.kind == .number || t.kind == .string) := hc.sublist.countP_le
  have hText : ∀ x ∈ nameTexts c, x ∈ (nameTexts L).eraseDups := fun x hx =>
    List.mem_eraseDups.mpr (((hc.sublist.filter _).map _).subset hx)
  obtain ⟨hFit₁, hFit₂⟩ := hFit
  unfold constantCount at hFit₁ hFit₂
  rw [length_eq_literalCount_add]
  -- The names of the pool are among the distinct names of `L`, and `var` where one lacks its name.
  by_cases hGap : VarGap L
  · have hSub : poolNames pool ⊆ (nameTexts L).eraseDups ++ [Bytes.ofString "var"] := by
      intro x hx
      rcases hNames x hx with hx | ⟨-, rfl⟩
      · exact List.mem_append_left _ (hText x hx)
      · exact List.mem_append_right _ (List.mem_singleton_self _)
    have hLen := (List.subperm_of_subset hNodup hSub).length_le
    have := hFit₂ hGap
    simp only [List.length_append, List.length_singleton] at hLen
    omega
  · have hSub : poolNames pool ⊆ (nameTexts L).eraseDups := by
      intro x hx
      rcases hNames x hx with hx | ⟨hGap', -⟩
      · exact hText x hx
      · exact absurd hGap' hGap
    have hLen := (List.subperm_of_subset hNodup hSub).length_le
    omega

/-- The literals a token asks for: one for a number or a string. -/
def litWeight (t : Token) : Nat := [t].countP (fun t => t.kind == .number || t.kind == .string)

/-- Reading a token charges its literal to the tokens read. -/
theorem Charges.read (h : Charges L c k pool) (t : Token) : Charges L (c ++ [t]) (k + litWeight t) pool := by
  obtain ⟨hNodup, hNames, hLits⟩ := h
  refine ⟨hNodup, fun x hx => (hNames x hx).imp_left fun hx' => ?_, ?_⟩
  · simp only [nameTexts, List.filter_append, List.map_append]
    exact List.mem_append_left _ hx'
  · rw [List.countP_append]
    unfold litWeight
    omega

/-- A literal's constant takes one of the literals charged. -/
theorem Charges.push (h : Charges L c (k + 1) pool) {x : Const} (hx : x.isLiteral = true) :
    Charges L c k (pool ++ [x]) := by
  obtain ⟨hNodup, hNames, hLits⟩ := h
  have hName : x.name? = none := by
    cases x with
    | name => cases hx
    | _ => rfl
  refine ⟨?_, fun y hy => hNames y ?_, ?_⟩
  · simpa [hName] using hNodup
  · simpa [hName] using hy
  · simp only [literalCount_append, literalCount_cons, literalCount_nil, hx, if_true]
    omega

/-- A name's constant, for a name that was read or the keyword `var` where a name is missing. -/
theorem Charges.withName (h : Charges L c k pool) {x : Bytes}
    (hx : x ∈ nameTexts c ∨ (VarGap L ∧ x = Bytes.ofString "var")) : Charges L c k (addName pool x).2 := by
  obtain ⟨hNodup, hNames, hLits⟩ := h
  unfold addName
  cases hIdx : nameIndex? pool x with
  | some i => exact ⟨hNodup, hNames, hLits⟩
  | none =>
    have hNotMem := nameIndex?_eq_none_iff.mp hIdx
    refine ⟨?_, fun y hy => ?_, ?_⟩
    · simp only [poolNames_append, poolNames_cons, Const.name?, Option.toList_some, poolNames_nil,
        List.append_nil]
      exact List.nodup_append.mpr ⟨hNodup, List.nodup_singleton x, fun a ha b hb hab =>
        hNotMem ((List.mem_singleton.mp hb) ▸ hab ▸ ha)⟩
    · simp only [poolNames_append, poolNames_cons, Const.name?, Option.toList_some, poolNames_nil,
        List.append_nil, List.mem_append, List.mem_singleton] at hy
      rcases hy with hy | rfl
      · exact hNames y hy
      · exact hx
    · simpa [Const.isLiteral] using hLits

theorem nameTexts_append (a b : List Token) : nameTexts (a ++ b) = nameTexts a ++ nameTexts b := by
  simp [nameTexts]

/-- The constants of a derivation's tokens, charged to those tokens. -/
theorem Charges.fold (h : Charges L c k pool) (ts : List Token) : Charges L (c ++ ts) k (ts.foldl tokenConst pool) := by
  obtain ⟨hNodup, hNames, hLits⟩ := h
  obtain ⟨hNodup', hIff, hLits'⟩ := foldl_tokenConst_spec ts pool hNodup
  refine ⟨hNodup', fun x hx => ?_, ?_⟩
  · rw [nameTexts_append, List.mem_append]
    rcases (hIff x).mp hx with hx | hx
    · exact (hNames x hx).imp_left Or.inl
    · exact Or.inl (Or.inr hx)
  · rw [hLits', List.countP_append]
    omega

end Charges

/-! ## Where a declaration ends -/

/-- The kinds of the tokens of an expression. -/
def exprToken (k : TokenKind) : Bool :=
  startsExpr k || infixPrecedence k != 0 || k == .assign || k == .rparen

theorem Expr.yield_exprToken : ∀ {e : Expr}, e.WF → ∀ t ∈ e.yield, exprToken t.kind = true
  | .number t, hWF, x, hx | .string t, hWF, x, hx | .ident t, hWF, x, hx => by
    rw [Expr.yield, List.mem_singleton] at hx
    subst hx
    rw [show x.kind = _ from hWF]
    rfl
  | .literal t, hWF, x, hx => by
    rw [Expr.yield, List.mem_singleton] at hx
    subst hx
    rcases hWF with h | h | h <;> rw [h] <;> rfl
  | .assign n q e, ⟨hN, hQ, hWF⟩, x, hx => by
    rcases List.mem_cons.mp hx with rfl | hx
    · rw [hN]; rfl
    rcases List.mem_cons.mp hx with rfl | hx
    · rw [hQ]; rfl
    exact Expr.yield_exprToken hWF x hx
  | .unary op e, ⟨hOp, hWF, _⟩, x, hx => by
    rcases List.mem_cons.mp hx with rfl | hx
    · rcases hOp with h | h <;> rw [h] <;> rfl
    exact Expr.yield_exprToken hWF x hx
  | .binary op l r, ⟨hOp, hL, hR, _⟩, x, hx => by
    rcases List.mem_append.mp hx with hx | hx
    · exact Expr.yield_exprToken hL x hx
    rcases List.mem_cons.mp hx with rfl | hx
    · simp [exprToken, Nat.pos_iff_ne_zero.mp hOp]
    exact Expr.yield_exprToken hR x hx
  | .group lp e rp, ⟨hL, hR, hWF⟩, x, hx => by
    rw [Expr.yield, List.cons_append, List.mem_cons, List.mem_append, List.mem_singleton] at hx
    rcases hx with rfl | hx | rfl
    · rw [hL]; rfl
    · exact Expr.yield_exprToken hWF x hx
    · rw [hR]; rfl

theorem exprToken_ne {k : TokenKind} (h : exprToken k = true) : k ≠ .semicolon ∧ k ≠ .error := by
  constructor <;> rintro rfl <;> simp [exprToken, startsExpr, infixPrecedence] at h

/-- A declaration of the grammar ends at its first `;`, and has no scanner error. -/
theorem Decl.yield_split {d : Decl} (hWF : d.WF) : ∃ body semi, d.yield = body ++ [semi] ∧
    semi.kind = .semicolon ∧ ∀ t ∈ body, t.kind ≠ .semicolon ∧ t.kind ≠ .error := by
  have hExpr : ∀ {e : Expr}, e.WF → ∀ t ∈ e.yield, t.kind ≠ .semicolon ∧ t.kind ≠ .error :=
    fun hWF t ht => exprToken_ne (Expr.yield_exprToken hWF t ht)
  match d, hWF with
  | .var kw x none semi, ⟨hKw, hX, hSemi⟩ =>
    refine ⟨[kw, x], semi, rfl, hSemi, fun t ht => ?_⟩
    rcases List.mem_pair.mp ht with rfl | rfl
    · rw [hKw]; decide
    · rw [hX]; decide
  | .var kw x (some (q, e)) semi, ⟨hKw, hX, hQ, hWF, hSemi⟩ =>
    refine ⟨kw :: x :: q :: e.yield, semi, rfl, hSemi, fun t ht => ?_⟩
    rcases List.mem_cons.mp ht with rfl | ht
    · rw [hKw]; decide
    rcases List.mem_cons.mp ht with rfl | ht
    · rw [hX]; decide
    rcases List.mem_cons.mp ht with rfl | ht
    · rw [hQ]; decide
    exact hExpr hWF t ht
  | .info kw e semi, ⟨hKw, hWF, hSemi⟩ =>
    refine ⟨kw :: e.yield, semi, rfl, hSemi, fun t ht => ?_⟩
    rcases List.mem_cons.mp ht with rfl | ht
    · rw [hKw]; decide
    exact hExpr hWF t ht
  | .expr e semi, ⟨hWF, hSemi⟩ => exact ⟨e.yield, semi, rfl, hSemi, hExpr hWF⟩

/-- A stream has one prefix that ends at its first `;`. -/
theorem eq_of_first_semicolon : ∀ {a b ra rb : List Token} {x y : Token},
    (∀ t ∈ a, t.kind ≠ .semicolon) → (∀ t ∈ b, t.kind ≠ .semicolon) → x.kind = .semicolon →
      y.kind = .semicolon → a ++ x :: ra = b ++ y :: rb → a = b ∧ x = y ∧ ra = rb
  | [], [], _, _, _, _, _, _, _, _, h => by simpa using h
  | [], c :: b, _, _, _, _, _, hb, hx, _, h => by
    obtain ⟨rfl, -⟩ := List.cons.inj h
    exact absurd hx (hb _ List.mem_cons_self)
  | c :: a, [], _, _, _, _, ha, _, _, hy, h => by
    obtain ⟨rfl, -⟩ := List.cons.inj h
    exact absurd hy (ha _ List.mem_cons_self)
  | c :: a, d :: b, _, _, _, _, ha, hb, hx, hy, h => by
    simp only [List.cons_append, List.cons.injEq] at h
    obtain ⟨rfl, h⟩ := h
    obtain ⟨rfl, rfl, rfl⟩ := eq_of_first_semicolon (fun t ht => ha t (List.mem_cons_of_mem _ ht))
      (fun t ht => hb t (List.mem_cons_of_mem _ ht)) hx hy h
    exact ⟨rfl, rfl, rfl⟩

/-- Where the tokens up to the first `;` are no declaration of the grammar, there is none to read. -/
theorem Decl.parse_eq_none {body rest : List Token} {semi : Token} (hEnds : EndsEof (body ++ semi :: rest))
    (hSemi : semi.kind = .semicolon) (hBody : ∀ t ∈ body, t.kind ≠ .semicolon)
    (hBad : ∀ d : Decl, d.WF → d.yield ≠ body ++ [semi]) : Decl.parse (body ++ semi :: rest) = none := by
  cases hParse : Decl.parse (body ++ semi :: rest) with
  | none => rfl
  | some r =>
    obtain ⟨d, rest'⟩ := r
    obtain ⟨hts, hWF, -⟩ := Decl.parse_sound hEnds hParse
    obtain ⟨body', semi', hYield, hSemi', hBody'⟩ := Decl.yield_split hWF
    rw [hYield, List.append_assoc, List.singleton_append] at hts
    obtain ⟨rfl, rfl, -⟩ := eq_of_first_semicolon hBody (fun t ht => (hBody' t ht).1) hSemi hSemi' hts
    exact absurd hYield (hBad d hWF)

namespace Compiler

/-- The state's pool is charged to the tokens `c`. -/
def Charged (L c : List Token) (k : Nat) (s : Compiler) : Prop :=
  ∃ pool, PoolRel s pool ∧ Charges L c k pool

/-! ## Constants that fit -/

variable {s : Compiler} {pool : List Const}

/-- A literal's constant, when the pool has room: it joins the pool and nothing is reported. -/
theorem run_emitConstant_pool (hRel : PoolRel s pool) {c : Const} {v : Value} (hDen : c.Denotes s.heap v)
    (hc : ∀ x, c.isName x = false) (hFit : pool.length < Chunk.maxConstants) :
    PoolRel ((emitConstant v).run s).2 (pool ++ [c]) ∧ Unmarked s ((emitConstant v).run s).2 := by
  simp only [emitConstant, run_bind, run_addConstant_fits (hRel.size ▸ hFit)]
  exact ⟨(hRel.push hDen hc).congr rfl rfl rfl, ⟨rfl, rfl, rfl, rfl, rfl, rfl⟩⟩

/-- A name's constant, when the pool has room for it: the pool takes it unless it has it, and
nothing is reported. -/
theorem run_nameConstant_pool (hRel : PoolRel s pool) (t : Token)
    (hFit : (addName pool t.text).2.length ≤ Chunk.maxConstants) :
    PoolRel ((nameConstant t).run s).2 (addName pool t.text).2 ∧ Unmarked s ((nameConstant t).run s).2 := by
  have hRel₁ := hRel.intern t.text
  have hl : (s.heap.intern t.text).1.lookup? t.text = some (s.heap.intern t.text).2 := by
    rw [(hRel.heap.intern t.text).2.1]
    simp
  have hNames := hRel₁.names t.text _ hl
  rw [Compiler.nameConstant, run_get_bind]
  simp only [run_bind, run_set]
  unfold addName at hFit ⊢
  cases hIdx : nameIndex? pool t.text with
  | some i =>
    have hLookup : s.names.lookup (s.heap.intern t.text).2.serial = some i := hNames.trans hIdx
    simp only [hLookup]
    exact ⟨hRel₁, ⟨rfl, rfl, rfl, rfl, rfl, rfl⟩⟩
  | none =>
    have hLookup : s.names.lookup (s.heap.intern t.text).2.serial = none := hNames.trans hIdx
    rw [hIdx] at hFit
    simp only [List.length_append, List.length_singleton] at hFit
    have hSize := hRel₁.size
    simp only [hLookup]
    rw [run_bind, run_addConstant_fits (by rw [hSize]; unfold Chunk.maxConstants at hFit ⊢; omega)]
    simp only [run_bind, run_modify, run_pure]
    have hPush := hRel₁.pushName hl hIdx
    rw [← hSize] at hPush
    exact ⟨hPush, ⟨rfl, rfl, rfl, rfl, rfl, rfl⟩⟩

/-- `s` stands at the first token of `ts`. -/
def Spot (ts : List Token) (s : Compiler) : Prop := s.current = (pop ts).1 ∧ s.tokens = (pop ts).2

theorem Spot.current_eq {t : Token} {ts : List Token} (h : Spot (t :: ts) s) : s.current = t := by
  rw [h.1, pop_cons_fst]

/-- A move from the first token of `t :: ts` where no scanner error follows. -/
theorem advance_spot {t : Token} {ts : List Token} (hs : Spot (t :: ts) s) (hts : ts ≠ [])
    (hErr : (pop ts).1.kind ≠ .error) :
    (advance.run s).2 =
      { s with previous := t, current := (pop ts).1, tokens := (pop ts).2, pulls := s.pulls + 1 } := by
  have hTokens : s.tokens = ts := by rw [hs.2, pop_cons_of_ne_nil hts]
  rw [run_advance (by rw [hTokens]; exact hErr), hTokens, hs.1, pop_cons_fst]

/-- `s'` stands where `s` stands and has its pool. -/
structure Stays (s s' : Compiler) : Prop where
  tokens : s'.tokens = s.tokens
  previous : s'.previous = s.previous
  current : s'.current = s.current
  heap : s'.heap = s.heap
  names : s'.names = s.names
  constants : s'.chunk.constants = s.chunk.constants

theorem Stays.spot {ts : List Token} {s' : Compiler} (hq : Stays s s') (h : Spot ts s) : Spot ts s' :=
  ⟨hq.current.trans h.1, hq.tokens.trans h.2⟩

theorem Spot.unmarked {ts : List Token} {s' : Compiler} (h : Spot ts s) (hm : Unmarked s s') : Spot ts s' :=
  ⟨hm.current.trans h.1, hm.tokens.trans h.2⟩

theorem Charged.congr {L c : List Token} {k : Nat} (h : Charged L c k s) {s' : Compiler}
    (hHeap : s'.heap = s.heap) (hConsts : s'.chunk.constants = s.chunk.constants) (hNames : s'.names = s.names) :
    Charged L c k s' := by
  obtain ⟨pool, hRel, hCh⟩ := h
  exact ⟨pool, hRel.congr hHeap hConsts hNames, hCh⟩

theorem Charged.stays {L c : List Token} {k : Nat} (h : Charged L c k s) {s' : Compiler} (hq : Stays s s') :
    Charged L c k s' :=
  h.congr hq.heap hq.constants hq.names

theorem Charged.heap_wf {L c : List Token} {k : Nat} (h : Charged L c k s) : s.heap.WF := by
  obtain ⟨pool, hRel, -⟩ := h
  exact hRel.heap

theorem run_consume_of_ne {k : TokenKind} {message : String} (hk : s.current.kind ≠ k) :
    (consume k message).run s = (errorAt s.current message).run s := by
  simp only [consume, run_bind, run_check, beq_iff_eq, hk, if_false, errorAtCurrent, run_get]

theorem Charged.mono {L c c' : List Token} {k : Nat} (h : Charged L c k s) (hc : List.Sublist c c') :
    Charged L c' k s := by
  obtain ⟨pool, hRel, hCh⟩ := h
  exact ⟨pool, hRel, hCh.mono hc⟩

theorem Charged.weaken {L c : List Token} {k : Nat} (h : Charged L c k s) : Charged L c 0 s := by
  obtain ⟨pool, hRel, hCh⟩ := h
  exact ⟨pool, hRel, hCh.weaken (Nat.zero_le _)⟩

theorem stays_errorAt (t : Token) (message : String) (s : Compiler) : Stays s ((errorAt t message).run s).2 := by
  rw [run_errorAt]
  split
  · exact ⟨rfl, rfl, rfl, rfl, rfl, rfl⟩
  · exact ⟨rfl, rfl, rfl, rfl, rfl, rfl⟩

/-- A property of where the compiler stands, what it reported and its pool, which code leaves alone. -/
def Steady (P : Compiler → Prop) : Prop := ∀ s s', P s → Stays s s' → Unmarked s s' → P s'

theorem leads_emit {P : Compiler → Prop} (hP : Steady P) (b : UInt8) : Leads P P (emit b) :=
  fun s hs => hP s _ hs ⟨rfl, rfl, rfl, rfl, rfl, rfl⟩ (unmarked_emit b s)

theorem leads_forM_emitOp {P : Compiler → Prop} (hP : Steady P) : ∀ ops : List Op, Leads P P (ops.forM emitOp)
  | [] => leads_pure _
  | op :: ops => (leads_emit hP op.code).bind fun _ => leads_forM_emitOp hP ops

end Compiler

/-! ## A malformed declaration in its program -/

/-- A declaration `body ++ [semi]` standing in the tokens `tokens` between `before` and `rest`,
with the reports made before it. Its only `;` is its last token, it has no keyword that starts a
statement after its first token, and the token after it continues no expression or statement. -/
structure DeclSite where
  tokens : List Token
  before : List Token
  body : List Token
  semi : Token
  rest : List Token
  reports : Array Diagnostic
  failed : Bool
  split : tokens = before ++ (body ++ [semi]) ++ rest
  semi_kind : semi.kind = .semicolon
  body_semi : ∀ t ∈ body, t.kind ≠ .semicolon
  no_error : ∀ t ∈ tokens, t.kind ≠ .error
  no_eof : ∀ t ∈ body ++ [semi], t.kind ≠ .eof
  keywords : ∀ t ∈ (body ++ [semi]).tail, startsStatement t.kind = false
  ends : EndsEof rest
  resumes : continues assignPrecedence (pop rest).1.kind = false ∧ (pop rest).1.kind ≠ .rparen ∧
    (pop rest).1.kind ≠ .semicolon
  fits : ConstantsFit tokens
  var_text : ∀ t ∈ tokens, t.kind = .varKw → t.text = Bytes.ofString "var"

namespace DeclSite

variable (F : DeclSite)

/-- The declaration's tokens. -/
def decl : List Token := F.body ++ [F.semi]

/-- The reports: those made before the declaration, with the error flag as it was, or one more
at one of its tokens. -/
def Reports (s : Compiler) : Prop :=
  (s.diagnostics = F.reports ∧ s.hadError = F.failed) ∨
    ∃ t ∈ F.decl, ∃ message, s.diagnostics = F.reports.push (Diagnostic.atToken t message)

/-- The declaration reports while no report is suppressed, and then suppresses the rest. -/
def Once (s : Compiler) : Prop :=
  (s.panicMode = false ∧ s.diagnostics = F.reports ∧ s.hadError = F.failed) ∨
    (s.panicMode = true ∧ F.Reports s)

/-- The compiler stands within the declaration after its tokens `u ++ [s.previous]`, whose
literals ask for `k` constants more than the pool has. -/
def Inside (k : Nat) (s : Compiler) : Prop :=
  ∃ u v, F.decl = u ++ s.previous :: v ∧ v ≠ [] ∧ Spot (v ++ F.rest) s ∧ F.Once s ∧
    Charged F.tokens (F.before ++ u ++ [s.previous]) k s

/-- The compiler has read the declaration's `;`. -/
def Beyond (s : Compiler) : Prop :=
  Spot F.rest s ∧ s.previous = F.semi ∧ F.Once s ∧ Charged F.tokens (F.before ++ F.decl) 0 s

/-- The compiler has read the `;` where an operand should start, and suppresses reports. -/
def Past (s : Compiler) : Prop := F.Beyond s ∧ s.panicMode = true

/-- Right after a move: the previous token's literal is not yet in the pool. -/
def Read (s : Compiler) : Prop := F.Inside (litWeight s.previous) s ∨ F.Beyond s

/-- Where the parse of an operand ends: within the declaration, or past its `;`. -/
def Parsed (s : Compiler) : Prop := F.Inside 0 s ∨ F.Past s

/-- Where a statement ends: within the declaration after its report, or after its `;`. -/
def Ended (s : Compiler) : Prop := (F.Inside 0 s ∧ s.panicMode = true) ∨ F.Beyond s

/-- At the declaration's first token, with nothing suppressed. -/
def Start (s : Compiler) : Prop :=
  Spot (F.decl ++ F.rest) s ∧ s.panicMode = false ∧ s.diagnostics = F.reports ∧
    s.hadError = F.failed ∧ Charged F.tokens F.before 0 s

/-- At the next declaration, with nothing suppressed. -/
def Done (s : Compiler) : Prop :=
  Spot F.rest s ∧ s.panicMode = false ∧ F.Reports s ∧ Charged F.tokens (F.before ++ F.decl) 0 s

variable {F} {s s' : Compiler}

/-! ### The tokens of the declaration -/

theorem tokens_eq : F.tokens = F.before ++ F.decl ++ F.rest := F.split

theorem decl_last {u : List Token} {t : Token} (h : F.decl = u ++ [t]) : t = F.semi ∧ u = F.body := by
  obtain ⟨hu, ht⟩ := List.append_inj' h.symm rfl
  exact ⟨List.singleton_inj.mp ht, hu⟩

theorem semi_mem : F.semi ∈ F.decl := List.mem_append_right _ (List.mem_singleton_self _)

theorem prefix_tokens {u v : List Token} (h : F.decl = u ++ v) : F.before ++ u <+: F.tokens :=
  ⟨v ++ F.rest, by rw [tokens_eq, h, List.append_assoc, List.append_assoc, List.append_assoc]⟩

theorem mem_tokens {t : Token} (ht : t ∈ F.decl ++ F.rest) : t ∈ F.tokens := by
  rw [tokens_eq, List.append_assoc]
  exact List.mem_append_right _ ht

/-- A token of the declaration with more after it is one of the body. -/
theorem mem_body {u v : List Token} {t : Token} (h : F.decl = u ++ t :: v) (hv : v ≠ []) : t ∈ F.body := by
  have hSplit : F.decl = (u ++ t :: v.dropLast) ++ [v.getLast hv] := by
    rw [h, List.append_assoc, List.cons_append, List.dropLast_append_getLast hv]
  rw [← (decl_last hSplit).2]
  exact List.mem_append_right _ List.mem_cons_self

theorem kind_ne_semicolon {u v : List Token} {t : Token} (h : F.decl = u ++ t :: v) (hv : v ≠ []) :
    t.kind ≠ .semicolon :=
  F.body_semi t (mem_body h hv)

/-- A token after the declaration's first starts no statement. -/
theorem startsStatement_eq_false {u v : List Token} {t : Token} (h : F.decl = u ++ t :: v) (hu : u ≠ []) :
    startsStatement t.kind = false := by
  obtain ⟨a, u', rfl⟩ := List.exists_cons_of_ne_nil hu
  refine F.keywords t ?_
  rw [show (F.body ++ [F.semi]) = F.decl from rfl, h, List.cons_append, List.tail_cons]
  exact List.mem_append_right _ List.mem_cons_self

theorem no_error_rest {ts : List Token} (hts : ts ≠ []) (hSub : ∀ t ∈ ts, t ∈ F.decl ++ F.rest) :
    (pop ts).1.kind ≠ .error :=
  F.no_error _ (mem_tokens (hSub _ (pop_fst_mem hts)))

/-! ### Reports -/

theorem Once.reports (h : F.Once s) : F.Reports s := by
  rcases h with ⟨-, h⟩ | ⟨-, h⟩
  · exact Or.inl h
  · exact h

theorem Once.unmarked (h : F.Once s) (hs : Unmarked s s') : F.Once s' := by
  unfold Once Reports at h ⊢
  rw [hs.panicMode, hs.diagnostics, hs.hadError]
  exact h

/-- An error at a token of the declaration is its one report, or is suppressed. -/
theorem Once.errorAt (h : F.Once s) {t : Token} (ht : t ∈ F.decl) (message : String) :
    F.Once ((errorAt t message).run s).2 ∧ ((errorAt t message).run s).2.panicMode = true := by
  rw [run_errorAt]
  cases hPanic : s.panicMode
  · have hD : s.diagnostics = F.reports := by
      rcases h with ⟨-, hD, -⟩ | ⟨hP, -⟩
      · exact hD
      · rw [hPanic] at hP
        cases hP
    rw [if_neg Bool.false_ne_true]
    exact ⟨Or.inr ⟨rfl, Or.inr ⟨t, ht, message, by rw [hD]⟩⟩, rfl⟩
  · rw [if_pos rfl]
    exact ⟨h, hPanic⟩

/-! ### Standing still -/

theorem Inside.stays {k : Nat} (h : F.Inside k s) (hq : Stays s s') (hOnce : F.Once s') : F.Inside k s' := by
  obtain ⟨u, v, hSplit, hv, hSpot, -, hCh⟩ := h
  refine ⟨u, v, ?_, hv, hq.spot hSpot, hOnce, ?_⟩
  · rw [hq.previous]
    exact hSplit
  · rw [hq.previous]
    exact hCh.stays hq

theorem Beyond.stays (h : F.Beyond s) (hq : Stays s s') (hOnce : F.Once s') : F.Beyond s' :=
  ⟨hq.spot h.1, hq.previous.trans h.2.1, hOnce, h.2.2.2.stays hq⟩

theorem Inside.once {k : Nat} (h : F.Inside k s) : F.Once s := by
  obtain ⟨u, v, -, -, -, hOnce, -⟩ := h
  exact hOnce

theorem Inside.weaken {k : Nat} (h : F.Inside k s) : F.Inside 0 s := by
  obtain ⟨u, v, hSplit, hv, hSpot, hOnce, hCh⟩ := h
  exact ⟨u, v, hSplit, hv, hSpot, hOnce, hCh.weaken⟩

theorem Inside.previous_mem {k : Nat} (h : F.Inside k s) : s.previous ∈ F.decl := by
  obtain ⟨u, v, hSplit, -⟩ := h
  rw [hSplit]
  exact List.mem_append_right _ List.mem_cons_self

theorem Inside.current_mem {k : Nat} (h : F.Inside k s) : s.current ∈ F.decl := by
  obtain ⟨u, v, hSplit, hv, hSpot, -⟩ := h
  obtain ⟨t, v', rfl⟩ := List.exists_cons_of_ne_nil hv
  rw [List.cons_append] at hSpot
  rw [hSpot.current_eq, hSplit]
  simp

theorem Past.current (h : F.Past s) : s.current = (pop F.rest).1 := h.1.1.1

theorem steady_inside (k : Nat) : Steady (F.Inside k) :=
  fun _ _ hs hq hm => hs.stays hq (hs.once.unmarked hm)

theorem steady_beyond : Steady F.Beyond :=
  fun _ _ hs hq hm => hs.stays hq (hs.2.2.1.unmarked hm)

theorem steady_parsed : Steady F.Parsed := by
  rintro s s' (hs | ⟨hs, hPanic⟩) hq hm
  · exact Or.inl (steady_inside 0 s s' hs hq hm)
  · exact Or.inr ⟨steady_beyond s s' hs hq hm, hm.panicMode.trans hPanic⟩

theorem steady_ended : Steady F.Ended := by
  rintro s s' (⟨hs, hPanic⟩ | hs) hq hm
  · exact Or.inl ⟨steady_inside 0 s s' hs hq hm, hm.panicMode.trans hPanic⟩
  · exact Or.inr (steady_beyond s s' hs hq hm)

/-! ### Errors -/

theorem inside_errorAt {k : Nat} {t : Token} (ht : t ∈ F.decl) (message : String) :
    Leads (F.Inside k) (fun s => F.Inside k s ∧ s.panicMode = true) (errorAt t message) := by
  intro s hs
  have hOnce := hs.once.errorAt ht message
  exact ⟨hs.stays (stays_errorAt t message s) hOnce.1, hOnce.2⟩

theorem inside_error {k : Nat} (message : String) : Leads (F.Inside k) (F.Inside k) (error message) :=
  fun s hs => (inside_errorAt hs.previous_mem message s hs).1

theorem inside_errorAtCurrent {k : Nat} (message : String) :
    Leads (F.Inside k) (fun s => F.Inside k s ∧ s.panicMode = true) (errorAtCurrent message) :=
  fun s hs => inside_errorAt hs.current_mem message s hs

/-- Past the `;`, every report is suppressed. -/
theorem past_errorAt (t : Token) (message : String) : Leads F.Past F.Past (errorAt t message) := by
  intro s hs
  rw [run_errorAt, if_pos hs.2]
  exact hs

theorem parsed_error (message : String) : Leads F.Parsed F.Parsed (error message) := by
  rintro s (hs | hs)
  · exact Or.inl (inside_error message s hs)
  · exact Or.inr (past_errorAt _ message s hs)

/-! ### Moves -/

theorem prefix_read {u v : List Token} {t : Token} (h : F.decl = u ++ t :: v) :
    F.before ++ u ++ [t] <+: F.tokens :=
  ⟨v ++ F.rest, by rw [tokens_eq, h]; simp⟩

/-- A move from within the declaration: to its next token, charging the literal read, or past
its `;`. -/
theorem advance_read {u v : List Token} (hSplit : F.decl = u ++ v) (hv : v ≠ [])
    (hs : Spot (v ++ F.rest) s) (hOnce : F.Once s) (hCh : Charged F.tokens (F.before ++ u) 0 s) :
    F.Read (advance.run s).2 ∧ (advance.run s).2.previous = s.current := by
  obtain ⟨t, v', rfl⟩ := List.exists_cons_of_ne_nil hv
  rw [List.cons_append] at hs
  have hNe : v' ++ F.rest ≠ [] := by simp [F.ends.ne_nil]
  have hErr : (pop (v' ++ F.rest)).1.kind ≠ .error :=
    no_error_rest hNe fun x hx => by
      rw [hSplit, List.append_assoc, List.cons_append]
      exact List.mem_append_right _ (List.mem_cons_of_mem _ hx)
  rw [advance_spot hs hNe hErr]
  refine ⟨?_, hs.current_eq.symm⟩
  rcases eq_or_ne v' [] with rfl | hv'
  · -- the move past the `;`
    obtain ⟨rfl, rfl⟩ := decl_last hSplit
    refine Or.inr ⟨⟨rfl, rfl⟩, rfl, hOnce, ?_⟩
    exact (hCh.mono ((List.sublist_append_left _ _).append_left _)).congr rfl rfl rfl
  · obtain ⟨pool, hRel, hCharges⟩ := hCh
    refine Or.inl ⟨u, v', hSplit, hv', ⟨rfl, rfl⟩, hOnce, pool, hRel.congr rfl rfl rfl, ?_⟩
    simpa only [Nat.zero_add] using hCharges.read t

theorem Inside.moves (h : F.Inside 0 s) : F.Read (advance.run s).2 ∧ (advance.run s).2.previous = s.current := by
  obtain ⟨u, v, hSplit, hv, hSpot, hOnce, hCh⟩ := h
  exact advance_read (u := u ++ [s.previous]) (by rw [hSplit]; simp) hv hSpot hOnce
    (by rwa [List.append_assoc] at hCh)

theorem Start.moves (h : F.Start s) : F.Read (advance.run s).2 ∧ (advance.run s).2.previous = s.current := by
  obtain ⟨hSpot, hPanic, hD, hFailed, hCh⟩ := h
  exact advance_read (u := []) (List.nil_append _).symm (by simp [decl]) hSpot (Or.inl ⟨hPanic, hD, hFailed⟩)
    (by simpa using hCh)

theorem Read.inside (h : F.Read s) (hk : s.previous.kind ≠ .semicolon) : F.Inside 0 s := by
  rcases h with h | h
  · exact h.weaken
  · exact absurd (h.2.1 ▸ F.semi_kind) hk

theorem Read.beyond (h : F.Read s) (hk : s.previous.kind = .semicolon) : F.Beyond s := by
  rcases h with ⟨u, v, hSplit, hv, -⟩ | h
  · exact absurd hk (kind_ne_semicolon hSplit hv)
  · exact h

/-- A token that is not a `;`, moved past where the current token has its kind. -/
theorem Inside.moves_past {k : TokenKind} (h : F.Inside 0 s) (hc : s.current.kind = k)
    (hk : k ≠ .semicolon) : F.Inside 0 (advance.run s).2 := by
  obtain ⟨hRead, hPrev⟩ := h.moves
  exact hRead.inside (by rw [hPrev, hc]; exact hk)

theorem Past.current_kind (h : F.Past s) : s.current.kind = (pop F.rest).1.kind := by
  rw [h.current]

theorem continues_assign_eq_false {k : TokenKind} (h : continues assignPrecedence k = false) :
    infixPrecedence k = 0 ∧ k ≠ .assign := by
  constructor
  · by_contra hne
    have hOne : 1 ≤ infixPrecedence k := Nat.one_le_iff_ne_zero.mpr hne
    simp [continues, assignPrecedence, hne, hOne] at h
  · rintro rfl
    simp [continues] at h

/-- The token after the declaration continues no operand, and is no `=`. -/
theorem rest_infixPrecedence : infixPrecedence (pop F.rest).1.kind = 0 :=
  (continues_assign_eq_false F.resumes.1).1

theorem rest_ne_assign : (pop F.rest).1.kind ≠ .assign :=
  (continues_assign_eq_false F.resumes.1).2

theorem inside_accept {k : TokenKind} (hk : k ≠ .semicolon) : Leads (F.Inside 0) (F.Inside 0) (accept k) := by
  intro s hs
  by_cases hc : s.current.kind = k
  · rw [run_accept_of_eq hc]
    exact hs.moves_past hc hk
  · rw [run_accept_of_ne hc]
    exact hs

theorem past_accept {k : TokenKind} (hk : (pop F.rest).1.kind ≠ k) : Leads F.Past F.Past (accept k) := by
  intro s hs
  rw [run_accept_of_ne (by rw [hs.current_kind]; exact hk)]
  exact hs

theorem parsed_accept {k : TokenKind} (hk : k ≠ .semicolon) (hRest : (pop F.rest).1.kind ≠ k) :
    Leads F.Parsed F.Parsed (accept k) := by
  rintro s (hs | hs)
  · exact Or.inl (inside_accept hk s hs)
  · exact Or.inr (past_accept hRest s hs)

theorem parsed_consume {k : TokenKind} (hk : k ≠ .semicolon) (hRest : (pop F.rest).1.kind ≠ k)
    (message : String) : Leads F.Parsed F.Parsed (consume k message) := by
  rintro s (hs | hs)
  · by_cases hc : s.current.kind = k
    · rw [run_consume_of_eq hc]
      exact Or.inl (hs.moves_past hc hk)
    · rw [run_consume_of_ne hc]
      exact Or.inl (inside_errorAt hs.current_mem message s hs).1
  · rw [run_consume_of_ne (by rw [hs.current_kind]; exact hRest)]
    exact Or.inr (past_errorAt _ message s hs)

/-- The `;` that ends a statement: read, or reported missing within the declaration. -/
theorem parsed_consume_semicolon (message : String) : Leads F.Parsed F.Ended (consume .semicolon message) := by
  rintro s (hs | hs)
  · by_cases hc : s.current.kind = .semicolon
    · rw [run_consume_of_eq hc]
      obtain ⟨hRead, hPrev⟩ := hs.moves
      exact Or.inr (hRead.beyond (by rw [hPrev, hc]))
    · rw [run_consume_of_ne hc]
      exact Or.inl (inside_errorAt hs.current_mem message s hs)
  · rw [run_consume_of_ne (by rw [hs.current_kind]; exact F.resumes.2.2)]
    exact Or.inr (past_errorAt _ message s hs).1

/-! ### Constants -/

/-- A literal's constant, charged to the literal just read. -/
theorem Inside.literal (h : F.Inside 1 s) {c : Const} {v : Value} (hDen : c.Denotes s.heap v)
    (hLit : c.isLiteral = true) : F.Inside 0 ((emitConstant v).run s).2 := by
  obtain ⟨u, w, hSplit, hw, hSpot, hOnce, pool, hRel, hCh⟩ := h
  have hFit := hCh.length_le (prefix_read hSplit) F.fits
  have hName : ∀ x, c.isName x = false := by
    cases c with
    | name => cases hLit
    | _ => exact fun _ => rfl
  obtain ⟨hRel', hm⟩ := run_emitConstant_pool hRel hDen hName (by omega)
  refine ⟨u, w, ?_, hw, hSpot.unmarked hm, hOnce.unmarked hm, pool ++ [c], hRel', ?_⟩
  · rw [hm.previous]
    exact hSplit
  · rw [hm.previous]
    exact hCh.push hLit

/-- A name's constant: the previous token is a name, or a `var` whose name is missing. -/
theorem Inside.named (h : F.Inside 0 s)
    (hName : s.previous.kind = .ident ∨ (s.previous.kind = .varKw ∧ s.current.kind ≠ .ident)) :
    F.Inside 0 ((nameConstant s.previous).run s).2 := by
  obtain ⟨u, w, hSplit, hw, hSpot, hOnce, pool, hRel, hCh⟩ := h
  have hx : s.previous.text ∈ nameTexts (F.before ++ u ++ [s.previous]) ∨
      (VarGap F.tokens ∧ s.previous.text = Bytes.ofString "var") := by
    rcases hName with hId | ⟨hVar, hCur⟩
    · left
      simp [nameTexts, hId]
    · right
      obtain ⟨b, w', rfl⟩ := List.exists_cons_of_ne_nil hw
      rw [List.cons_append] at hSpot
      refine ⟨⟨F.before ++ u, s.previous, b, w' ++ F.rest, ?_, hVar, hSpot.current_eq ▸ hCur⟩,
        F.var_text _ (mem_tokens ?_) hVar⟩
      · rw [tokens_eq, hSplit]
        simp
      · rw [hSplit]
        simp
  have hCh' := hCh.withName hx
  have hFit := hCh'.length_le (prefix_read hSplit) F.fits
  obtain ⟨hRel', hm⟩ := run_nameConstant_pool hRel s.previous (by omega)
  refine ⟨u, w, ?_, hw, hSpot.unmarked hm, hOnce.unmarked hm, _, hRel', ?_⟩
  · rw [hm.previous]
    exact hSplit
  · rw [hm.previous]
    exact hCh'

/-- Interning a string literal's body keeps the charge. -/
theorem Inside.interned {k : Nat} (h : F.Inside k s) (x : Bytes) :
    F.Inside k { s with heap := (s.heap.intern x).1 } := by
  obtain ⟨u, w, hSplit, hw, hSpot, hOnce, pool, hRel, hCh⟩ := h
  exact ⟨u, w, hSplit, hw, hSpot, hOnce, pool, hRel.intern x, hCh⟩

theorem Inside.heap_wf {k : Nat} (h : F.Inside k s) : s.heap.WF := by
  obtain ⟨u, w, -, -, -, -, hCh⟩ := h
  exact hCh.heap_wf

/-! ### Expressions -/

theorem past_error (message : String) : Leads F.Past F.Past (error message) :=
  leads_get.bind fun _ => past_errorAt _ message

/-- Past the `;`, the token after the declaration continues no operand. -/
theorem past_infixLoop (fuel steps p : Nat) (c : Bool) : Leads F.Past F.Past (infixLoop fuel steps p c) := by
  intro s hs
  cases steps with
  | zero =>
    rw [infixLoop]
    exact hs
  | succ steps =>
    rw [infixLoop, run_get_bind]
    dsimp only
    rw [if_neg (by simp [hs.current_kind, rest_infixPrecedence])]
    exact leads_ite ((past_accept rest_ne_assign).bind fun _ => leads_ite (past_error _) (leads_pure _))
      (leads_pure _) s hs

theorem parsed_infixLoop {fuel : Nat} (hP : ∀ p, Leads (F.Inside 0) F.Parsed (parsePrecedence fuel p)) :
    ∀ steps p c, Leads F.Parsed F.Parsed (infixLoop fuel steps p c)
  | 0, p, c => by
    rw [infixLoop]
    exact leads_pure _
  | steps + 1, p, c => by
    rintro s (hs | hs)
    · rw [infixLoop, run_get_bind]
      dsimp only
      by_cases hOp : (infixPrecedence s.current.kind ≠ 0 && p ≤ infixPrecedence s.current.kind) = true
      · -- a binary operator, which is not the `;`
        rw [if_pos hOp, run_bind]
        have hk : s.current.kind ≠ .semicolon := by
          intro h
          simp [h, infixPrecedence] at hOp
        exact ((hP _).bind fun _ => (leads_forM_emitOp steady_parsed _).bind fun _ =>
          parsed_infixLoop hP steps p c) _ (hs.moves_past rfl hk)
      · rw [if_neg hOp]
        exact leads_ite ((parsed_accept (by decide) rest_ne_assign).bind fun _ =>
          leads_ite (parsed_error _) (leads_pure _)) (leads_pure _) s (Or.inl hs)
    · exact Or.inr (past_infixLoop fuel (steps + 1) p c s hs)

/-- A parse from its first move: an operand within the declaration, or the `;` where one
should start, reported there. -/
theorem parsed_after_advance {fuel : Nat} (hP : ∀ p, Leads (F.Inside 0) F.Parsed (parsePrecedence fuel p))
    (p : Nat) (s : Compiler) (hs : F.Read (advance.run s).2) :
    F.Parsed ((parsePrecedence (fuel + 1) p).run s).2 := by
  have hLoop := parsed_infixLoop hP
  rw [parsePrecedence, run_bind, run_get_bind]
  generalize (advance.run s).2 = s₁ at hs
  have hTail : ∀ {α : Type} (m : M α) {P : Compiler → Prop}, Leads P F.Parsed m →
      Leads P F.Parsed (m >>= fun _ => get >>= fun s =>
        infixLoop fuel (s.tokens.length + 1) p (decide (p ≤ assignPrecedence))) :=
    fun m _ hm => hm.bind fun _ => leads_get.bind fun _ => hLoop _ _ _
  have hEmit : ∀ op : Op, Leads F.Parsed F.Parsed (emitOp op) := fun _ => leads_emit steady_parsed _
  by_cases hSemi : s₁.previous.kind = .semicolon
  · -- no operand starts at the `;`
    have hB := hs.beyond hSemi
    have hErr := hB.2.2.1.errorAt (hB.2.1 ▸ semi_mem) "Expect expression."
    simp only [hSemi]
    exact Or.inr ⟨hB.stays (stays_errorAt _ _ s₁) hErr.1, hErr.2⟩
  have hIn : F.Inside (litWeight s₁.previous) s₁ := by
    rcases hs with hs | hB
    · exact hs
    · exact absurd (hB.2.1 ▸ F.semi_kind) hSemi
  dsimp only
  split
  · -- a group
    exact hTail _ ((hP _).bind fun _ => parsed_consume (by decide) F.resumes.2.1 _) s₁ hIn.weaken
  · exact hTail _ ((hP _).bind fun _ => hEmit _) s₁ hIn.weaken
  · exact hTail _ ((hP _).bind fun _ => hEmit _) s₁ hIn.weaken
  · -- a number adds its constant
    rename_i hNum
    have hOne : litWeight s₁.previous = 1 := by simp [litWeight, hNum]
    exact hTail _ (P := F.Inside 1) (fun x hx => Or.inl (hx.literal (c := .number (numberValue s₁.previous.text)) rfl rfl))
      s₁ (hOne ▸ hIn)
  · -- a string interns its body first
    rename_i hStr
    have hOne : litWeight s₁.previous = 1 := by simp [litWeight, hStr]
    rw [run_get_bind, run_bind, run_set]
    have hFound := (hIn.heap_wf.intern (stringBody s₁.previous.text)).2.1 (stringBody s₁.previous.text)
    rw [if_pos rfl] at hFound
    exact hTail _ (P := fun x => F.Inside 1 x ∧
        x.heap.lookup? (stringBody s₁.previous.text) = some (s₁.heap.intern (stringBody s₁.previous.text)).2)
      (fun x hx => Or.inl (hx.1.literal (c := .string (stringBody s₁.previous.text)) ⟨_, hx.2, rfl⟩ rfl)) _ ⟨(hOne ▸ hIn).interned _, hFound⟩
  · exact hTail _ (fun x hx => hEmit _ x (Or.inl hx)) s₁ hIn.weaken
  · exact hTail _ (fun x hx => hEmit _ x (Or.inl hx)) s₁ hIn.weaken
  · exact hTail _ (fun x hx => hEmit _ x (Or.inl hx)) s₁ hIn.weaken
  · -- a name, read or assigned
    rename_i hId
    have hArg : Leads (fun x => x = s₁) (F.Inside 0) (nameConstant s₁.previous) := by
      rintro x rfl
      exact hIn.weaken.named (Or.inl hId)
    refine (hArg.bind fun arg => ?_) s₁ rfl
    refine leads_ite ((inside_accept (by decide)).bind fun b => ?_) ((leads_pure _).bind fun b => ?_) <;>
    exact leads_ite
      (hTail _ (fun x hx => ((((hP _).bind fun _ => hEmit _).bind fun _ => leads_emit steady_parsed _) x hx)))
      (hTail _ (fun x hx => ((hEmit _).bind fun _ => leads_emit steady_parsed _) x (Or.inl hx)))
  · -- no operand starts at the previous token
    exact Or.inl (inside_error _ s₁ hIn).weaken

theorem parsed_parse : ∀ fuel, (∀ p, Leads (F.Inside 0) F.Parsed (parsePrecedence fuel p)) ∧
    ∀ steps p c, Leads F.Parsed F.Parsed (infixLoop fuel steps p c) := by
  intro fuel
  induction fuel with
  | zero =>
    have hP : ∀ p, Leads (F.Inside 0) F.Parsed (parsePrecedence 0 p) := fun p s hs => by
      rw [parsePrecedence]
      exact Or.inl hs
    exact ⟨hP, parsed_infixLoop hP⟩
  | succ fuel ih =>
    have hP : ∀ p, Leads (F.Inside 0) F.Parsed (parsePrecedence (fuel + 1) p) := fun p s hs =>
      parsed_after_advance ih.1 p s hs.moves.1
    exact ⟨hP, parsed_infixLoop hP⟩

/-- The compiler stands where a move reads the next operand's first token. -/
def Ahead (s : Compiler) : Prop := F.Read (advance.run s).2

theorem parsed_expression : Leads F.Ahead F.Parsed expression := by
  intro s hs
  rw [expression, run_get_bind]
  exact parsed_after_advance (parsed_parse _).1 _ s hs

/-! ### Statements -/

theorem Inside.ahead (h : F.Inside 0 s) : F.Ahead s := h.moves.1

theorem Start.ahead (h : F.Start s) : F.Ahead s := h.moves.1

/-- The end of an expression statement and of `info`. -/
theorem ended_semicolon_emit (message : String) (op : Op) :
    Leads F.Parsed F.Ended (consume .semicolon message >>= fun _ => emitOp op) :=
  (parsed_consume_semicolon message).bind fun _ => leads_emit steady_ended _

theorem ended_statement : Leads F.Start F.Ended statement := by
  have hAccept : Leads F.Start F.Ahead (accept .infoKw) := by
    intro s hs
    by_cases hInfo : s.current.kind = .infoKw
    · rw [run_accept_of_eq hInfo]
      obtain ⟨hRead, hPrev⟩ := hs.moves
      exact (hRead.inside (by rw [hPrev, hInfo]; decide)).ahead
    · rw [run_accept_of_ne hInfo]
      exact hs.ahead
  exact hAccept.bind fun _ => leads_ite (parsed_expression.bind fun _ => ended_semicolon_emit _ _)
    (parsed_expression.bind fun _ => ended_semicolon_emit _ _)

/-- A declaration's name: read, or reported missing at the current token. -/
theorem inside_parseVariable (message : String) :
    Leads (fun s => F.Inside 0 s ∧ s.previous.kind = .varKw) (F.Inside 0) (parseVariable message) := by
  rintro s ⟨hs, hVar⟩
  rw [parseVariable, run_bind]
  by_cases hId : s.current.kind = .ident
  · rw [run_consume_of_eq hId, run_get_bind]
    obtain ⟨hRead, hPrev⟩ := hs.moves
    exact (hRead.inside (by rw [hPrev, hId]; decide)).named (Or.inl (by rw [hPrev, hId]))
  · rw [run_consume_of_ne hId, run_get_bind]
    have hErr := inside_errorAt hs.current_mem message s hs
    have hq := stays_errorAt s.current message s
    exact hErr.1.named (Or.inr ⟨by rw [hq.previous]; exact hVar, by rw [hq.current]; exact hId⟩)

theorem ended_varDeclaration :
    Leads (fun s => F.Inside 0 s ∧ s.previous.kind = .varKw) F.Ended varDeclaration := by
  have hValue : Leads (F.Inside 0) F.Parsed expression := fun s hs => parsed_expression s hs.ahead
  have hNil : Leads (F.Inside 0) F.Parsed (emitOp .nil) := fun s hs => leads_emit steady_parsed _ s (Or.inl hs)
  -- The tail after the value, nested as the join point of the `if` nests it: stated the other
  -- way round, the binds only meet after unfolding the state monad.
  have hTail : ∀ g : Nat, Leads F.Parsed F.Ended (do
      consume .semicolon "Expect ';' after variable declaration."
      emitOp .defineGlobal
      emit g.toUInt8) := fun _ =>
    (parsed_consume_semicolon _).bind fun _ => (leads_emit steady_ended _).bind fun _ => leads_emit steady_ended _
  exact (inside_parseVariable _).bind fun g => (inside_accept (by decide)).bind fun _ =>
    leads_ite (hValue.bind fun _ => hTail g) (hNil.bind fun _ => hTail g)

/-! ### Resynchronizing -/

/-- Resynchronizing within the declaration moves to its end: no token after its first starts a
statement, and only its last is a `;`. -/
theorem done_synchronize_go : ∀ (v : List Token) (fuel : Nat) (s : Compiler) (u : List Token),
    v.length ≤ fuel → F.decl = u ++ s.previous :: v → Spot (v ++ F.rest) s → s.panicMode = false →
    F.Reports s → Charged F.tokens (F.before ++ F.decl) 0 s → F.Done ((synchronize.go fuel).run s).2
  | [], fuel, s, u, _, hSplit, hSpot, hPanic, hRep, hCh => by
    have hDone : F.Done s := ⟨by simpa using hSpot, hPanic, hRep, hCh⟩
    cases fuel with
    | zero => exact hDone
    | succ fuel =>
      rw [synchronize.go, run_get_bind, if_pos]
      · exact hDone
      · simp [(decl_last hSplit).1, F.semi_kind]
  | t :: v, fuel, s, u, hLen, hSplit, hSpot, hPanic, hRep, hCh => by
    obtain ⟨fuel, rfl⟩ : ∃ f, fuel = f + 1 := ⟨fuel - 1, by simp at hLen; omega⟩
    rw [List.cons_append] at hSpot
    have hNe : v ++ F.rest ≠ [] := by simp [F.ends.ne_nil]
    have hErr : (pop (v ++ F.rest)).1.kind ≠ .error :=
      no_error_rest hNe fun x hx => by
        rw [hSplit, List.append_assoc, List.cons_append, List.cons_append]
        exact List.mem_append_right _ (List.mem_cons_of_mem _ (List.mem_cons_of_mem _ hx))
    have hMem : t ∈ F.decl := by
      rw [hSplit]
      simp
    rw [synchronize.go, run_get_bind, if_neg, run_bind, advance_spot hSpot hNe hErr]
    · exact done_synchronize_go v fuel _ (u ++ [s.previous]) (by simp at hLen; omega)
        (by rw [hSplit]; simp) ⟨rfl, rfl⟩ hPanic hRep (hCh.congr rfl rfl rfl)
    · -- the current token is the declaration's, after its first: no end, no `;` before it
      have hStart := startsStatement_eq_false (u := u ++ [s.previous]) (v := v) (t := t)
        (by rw [hSplit]; simp) (by simp)
      have hPrev := kind_ne_semicolon hSplit (List.cons_ne_nil t v)
      simp [hSpot.current_eq, F.no_eof t (by simpa [decl] using hMem), hPrev, hStart]

theorem done_synchronize (u v : List Token) (hSplit : F.decl = u ++ s.previous :: v)
    (hSpot : Spot (v ++ F.rest) s) (hRep : F.Reports s) (hCh : Charged F.tokens (F.before ++ F.decl) 0 s) :
    F.Done (synchronize.run s).2 := by
  rw [synchronize, run_bind, run_modify, run_get_bind]
  refine done_synchronize_go v _ _ u ?_ hSplit hSpot rfl hRep (hCh.congr rfl rfl rfl)
  have hPop := length_le_pop (v ++ F.rest)
  rw [← hSpot.2, List.length_append] at hPop
  dsimp only
  omega

/-- After the statement: resynchronizing where it reported an error. -/
theorem done_settle :
    Leads F.Ended F.Done (get >>= fun x => if x.panicMode = true then synchronize else pure ()) := by
  intro s hs
  rw [run_get_bind]
  by_cases hPanic : s.panicMode = true
  · rw [if_pos hPanic]
    rcases hs with ⟨⟨u, v, hSplit, -, hSpot, hOnce, hCh⟩, -⟩ | ⟨hSpot, hPrev, hOnce, hCh⟩
    · have hPre : F.before ++ u ++ [s.previous] <+: F.before ++ F.decl := ⟨v, by rw [hSplit]; simp⟩
      exact done_synchronize u v hSplit hSpot hOnce.reports (hCh.mono hPre.sublist)
    · exact done_synchronize F.body [] (by rw [hPrev]; rfl) (by simpa using hSpot) hOnce.reports hCh
  · rw [if_neg hPanic]
    show F.Done s
    rcases hs with ⟨-, hP⟩ | ⟨hSpot, -, hOnce, hCh⟩
    · exact absurd hP hPanic
    · exact ⟨hSpot, by simpa using hPanic, hOnce.reports, hCh⟩

/-- A malformed declaration is compiled to its end with at most one report, at one of its
tokens, and leaves the compiler at the next declaration with no report suppressed. -/
theorem done_declaration : Leads F.Start F.Done declaration := by
  intro s hs
  rw [declaration, run_bind]
  dsimp only
  by_cases hVar : s.current.kind = .varKw
  · rw [run_accept_of_eq hVar, if_pos rfl, run_bind]
    obtain ⟨hRead, hPrev⟩ := hs.moves
    exact done_settle _ (ended_varDeclaration _ ⟨hRead.inside (by rw [hPrev, hVar]; decide), by rw [hPrev, hVar]⟩)
  · rw [run_accept_of_ne hVar, if_neg Bool.false_ne_true, run_bind]
    exact done_settle _ (ended_statement s hs)

/-! ### Exactly one report -/

theorem ends_decl : EndsEof (F.decl ++ F.rest) := by
  obtain ⟨r, t, hRest, ht⟩ := F.ends
  exact ⟨F.decl ++ r, t, by rw [hRest, List.append_assoc], ht⟩

/-- A declaration that the grammar rejects reports exactly one error, at one of its tokens, and
leaves the compiler at the next declaration with no report suppressed. The compile of the
declaration alone, from no reports, records an error (the grammar reads no declaration there)
and reports at most once; the compile in the program adds the same reports to those before. -/
theorem malformed_declaration (hBad : ∀ d : Decl, d.WF → d.yield ≠ F.decl) (hs : F.Start s) :
    Spot F.rest (declaration.run s).2 ∧ (declaration.run s).2.panicMode = false ∧
      Charged F.tokens (F.before ++ F.decl) 0 (declaration.run s).2 ∧
      ∃ t ∈ F.decl, ∃ message,
        (declaration.run s).2.diagnostics = F.reports.push (Diagnostic.atToken t message) := by
  obtain ⟨hSpot, hPanic, hD, -, hCh⟩ := hs
  let F₀ : DeclSite := { F with reports := #[], failed := false }
  have hStart : F₀.Start { s with hadError := false, diagnostics := #[] } :=
    ⟨hSpot, hPanic, rfl, rfl, hCh.congr rfl rfl rfl⟩
  obtain ⟨hSpot', hPanic', hRep, hCh'⟩ := done_declaration (F := F₀) _ hStart
  -- Alone, the declaration records an error: the grammar reads none from its tokens.
  have hErr : (declaration.run { s with hadError := false, diagnostics := #[] }).2.hadError = true := by
    obtain ⟨pool, hRel, hCharges⟩ := hCh
    have hPre : F.before <+: F.tokens := ⟨F.decl ++ F.rest, by rw [tokens_eq, List.append_assoc]⟩
    have hBound := hCharges.length_le hPre F.fits
    have hAt : At { s with hadError := false, diagnostics := #[] } (F.decl ++ F.rest) s.chunk.code.toList pool :=
      ⟨rfl, hPanic, hSpot.1, hSpot.2, rfl, hRel.congr rfl rfl rfl, by omega⟩
    have hNone : Decl.parse (F.decl ++ F.rest) = none := by
      rw [show F.decl ++ F.rest = F.body ++ F.semi :: F.rest by simp [decl]]
      exact Decl.parse_eq_none (by simpa [decl] using ends_decl) F.semi_kind F.body_semi hBad
    have hSim := declaration_sim hAt ends_decl
    rw [hNone] at hSim
    exact hSim
  obtain ⟨t, ht, message, hDiag⟩ : ∃ t ∈ F.decl, ∃ message,
      (declaration.run { s with hadError := false, diagnostics := #[] }).2.diagnostics =
        (#[] : Array Diagnostic).push (Diagnostic.atToken t message) := by
    rcases hRep with ⟨-, hFailed⟩ | h
    · rw [hErr] at hFailed
      cases hFailed
    · exact h
  -- In the program, the declaration adds those reports to the ones before it.
  rw [blind_declaration.run_eq s]
  refine ⟨hSpot', hPanic', hCh'.congr rfl rfl rfl, t, ht, message, ?_⟩
  show s.diagnostics ++ (declaration.run { s with hadError := false, diagnostics := #[] }).2.diagnostics = _
  rw [hDiag, hD]
  rfl

end DeclSite

/-! ## Declarations of the grammar -/

namespace Compiler

variable {L : List Token} {s : Compiler}

theorem Reported.clear (hs : Reported L s) : Reported L { s with hadError := false, diagnostics := #[] } :=
  ⟨hs.suffix, hs.ne_nil, hs.current_le, hs.previous_le, by simp, by simp, by simp, by simp⟩

/-- A declaration of the grammar reports nothing and adds its constants, as it does alone. -/
theorem wellformed_declaration (hL : L.Pairwise (fun a b => a.pos.place ≤ b.pos.place)) {D : Decl}
    (hWF : D.WF) {rest : List Token} (hRest : Continues rest) (hEnds : EndsEof rest) (hOpen : Open L s)
    (hSpot : Spot (D.yield ++ rest) s) (hPanic : s.panicMode = false) {pool : List Const} (hRel : PoolRel s pool)
    (hBound : (D.code pool).2.length ≤ Chunk.maxConstants) :
    Spot rest (declaration.run s).2 ∧ (declaration.run s).2.panicMode = false ∧
      (declaration.run s).2.diagnostics = s.diagnostics ∧ PoolRel (declaration.run s).2 (D.code pool).2 := by
  obtain ⟨extra, hExtra⟩ := D.code_pool pool
  have hAt : At { s with hadError := false, diagnostics := #[] } (D.yield ++ rest) s.chunk.code.toList pool :=
    ⟨rfl, hPanic, hSpot.1, hSpot.2, rfl, hRel.congr rfl rfl rfl, by
      rw [hExtra, List.length_append] at hBound
      omega⟩
  have hEnds' : EndsEof (D.yield ++ rest) := by
    obtain ⟨r, t, hr, ht⟩ := hEnds
    exact ⟨D.yield ++ r, t, by rw [hr, List.append_assoc], ht⟩
  -- Alone, the declaration compiles cleanly ...
  have hSim := declaration_sim hAt hEnds'
  rw [Decl.parse_complete hWF hEnds' hRest] at hSim
  have hAt' : At (declaration.run { s with hadError := false, diagnostics := #[] }).2 rest
      (s.chunk.code.toList ++ (D.code pool).1) (D.code pool).2 := by
    have hReached : Reached s.chunk.code.toList (D.code pool) rest _ := hSim
    rw [Reached, if_pos hBound] at hReached
    exact hReached
  -- ... so it reports nothing ...
  have hClean : (declaration.run { s with hadError := false, diagnostics := #[] }).2.diagnostics = #[] := by
    have hIff := (open_declaration hL _ ⟨hOpen.1.clear, hOpen.2⟩).1.hadError
    rw [hAt'.hadError] at hIff
    simpa using hIff
  -- ... and in the program it adds nothing to the reports before it.
  rw [blind_declaration.run_eq s]
  refine ⟨⟨hAt'.current, hAt'.tokens⟩, hAt'.panicMode, ?_, hAt'.rel.congr rfl rfl rfl⟩
  show s.diagnostics ++ _ = _
  rw [hClean, Array.append_empty]

end Compiler

end StackScript
