import StackScript.Proofs.Compiler.Grammar

/-! # The constants of a derivation

The code of a derivation takes its constants in the order of their tokens: a number or string
literal adds one, a name adds one unless the pool has it (`programCode_pool_eq`). A pool built
so holds each name once, so its length is the number of literals plus the number of distinct
names, which is `constantCount` of the tokens (`programCode_pool_length`).
-/

namespace StackScript

set_option autoImplicit false

open Compiler (numberValue)

/-- The pool after one more token of a derivation. -/
def tokenConst (pool : List Const) (t : Token) : List Const :=
  match t.kind with
  | .number => pool ++ [.number (numberValue t.text)]
  | .string => pool ++ [.string (stringBody t.text)]
  | .ident => (addName pool t.text).2
  | _ => pool

theorem tokenConst_of_ne {pool : List Const} {t : Token} (hNum : t.kind ≠ .number)
    (hStr : t.kind ≠ .string) (hIdent : t.kind ≠ .ident) : tokenConst pool t = pool := by
  unfold tokenConst
  split <;> simp_all

theorem Expr.code_pool_eq : ∀ {e : Expr}, e.WF → ∀ pool, (e.code pool).2 = e.yield.foldl tokenConst pool
  | .number t, hWF, pool => by simp [Expr.code, Expr.yield, tokenConst, show t.kind = .number from hWF]
  | .string t, hWF, pool => by simp [Expr.code, Expr.yield, tokenConst, show t.kind = .string from hWF]
  | .literal t, hWF, pool => by
    have hKind : t.kind = .trueKw ∨ t.kind = .falseKw ∨ t.kind = .nilKw := hWF
    simp only [Expr.yield, List.foldl_cons, List.foldl_nil]
    rw [tokenConst_of_ne] <;> rcases hKind with h | h | h <;> simp [Expr.code, h]
  | .ident x, hWF, pool => by
    simp [Expr.code, Expr.yield, tokenConst, show x.kind = .ident from hWF]
  | .assign x q e, ⟨hx, hq, hWF⟩, pool => by
    show (e.code (addName pool x.text).2).2 = _
    rw [Expr.code_pool_eq hWF]
    simp [Expr.yield, tokenConst, hx, hq]
  | .unary op e, ⟨hOp, hWF, _⟩, pool => by
    show (e.code pool).2 = _
    rw [Expr.code_pool_eq hWF, Expr.yield, List.foldl_cons, tokenConst_of_ne] <;>
      rcases hOp with h | h <;> simp [h]
  | .binary op l r, ⟨hOp, hl, hr, _, _⟩, pool => by
    show (r.code (l.code pool).2).2 = _
    -- An operator is no literal and no name, so it adds no constant.
    have hKind : op.kind ≠ .number ∧ op.kind ≠ .string ∧ op.kind ≠ .ident := by
      refine ⟨?_, ?_, ?_⟩ <;> intro h <;> rw [h] at hOp <;> exact absurd hOp (by decide)
    rw [Expr.code_pool_eq hr, Expr.code_pool_eq hl, Expr.yield, List.foldl_append, List.foldl_cons,
      tokenConst_of_ne hKind.1 hKind.2.1 hKind.2.2]
  | .group lp e rp, ⟨hlp, hrp, hWF⟩, pool => by
    show (e.code pool).2 = _
    rw [Expr.code_pool_eq hWF]
    simp [Expr.yield, tokenConst, hlp, hrp]

theorem Decl.code_pool_eq : ∀ {d : Decl}, d.WF → ∀ pool, (d.code pool).2 = d.yield.foldl tokenConst pool
  | .var kw x none semi, ⟨hKw, hx, hSemi⟩, pool => by
    show (addName pool x.text).2 = _
    simp [Decl.yield, tokenConst, hKw, hx, hSemi]
  | .var kw x (some (d, e)) semi, ⟨hKw, hx, hd, hWF, hSemi⟩, pool => by
    show (e.code (addName pool x.text).2).2 = _
    rw [Expr.code_pool_eq hWF]
    simp [Decl.yield, tokenConst, hKw, hx, hd, hSemi]
  | .info kw e semi, ⟨hKw, hWF, hSemi⟩, pool => by
    show (e.code pool).2 = _
    rw [Expr.code_pool_eq hWF]
    simp [Decl.yield, tokenConst, hKw, hSemi]
  | .expr e semi, ⟨hWF, hSemi⟩, pool => by
    show (e.code pool).2 = _
    rw [Expr.code_pool_eq hWF]
    simp [Decl.yield, tokenConst, hSemi]

/-- The pool of a program's code is built token by token. -/
theorem programCode_pool_eq : ∀ {prog : List Decl}, (∀ d ∈ prog, d.WF) → ∀ pool,
    (programCode prog pool).2 = (prog.flatMap Decl.yield).foldl tokenConst pool
  | [], _, _ => rfl
  | d :: prog, hWF, pool => by
    show (programCode prog (d.code pool).2).2 = _
    rw [programCode_pool_eq (fun d' h => hWF d' (List.mem_cons_of_mem d h)),
      Decl.code_pool_eq (hWF d List.mem_cons_self), List.flatMap_cons, List.foldl_append]

/-! ## Counting -/

/-- The name a constant holds, if it is a name. -/
def Const.name? : Const → Option Bytes
  | .name x => some x
  | _ => none

/-- Whether a constant is a literal's value rather than a name. -/
def Const.isLiteral : Const → Bool
  | .name _ => false
  | _ => true

/-- The names of a pool, in order. -/
def poolNames (pool : List Const) : List Bytes := pool.filterMap Const.name?

/-- The constants of a pool that are literals' values. -/
def literalCount (pool : List Const) : Nat := pool.countP Const.isLiteral

@[simp] theorem poolNames_nil : poolNames [] = [] := rfl

@[simp] theorem poolNames_cons (c : Const) (pool : List Const) :
    poolNames (c :: pool) = c.name?.toList ++ poolNames pool := by
  cases c <;> rfl

@[simp] theorem poolNames_append (a b : List Const) : poolNames (a ++ b) = poolNames a ++ poolNames b :=
  List.filterMap_append

@[simp] theorem literalCount_nil : literalCount [] = 0 := rfl

@[simp] theorem literalCount_cons (c : Const) (pool : List Const) :
    literalCount (c :: pool) = literalCount pool + if c.isLiteral then 1 else 0 :=
  List.countP_cons

@[simp] theorem literalCount_append (a b : List Const) :
    literalCount (a ++ b) = literalCount a + literalCount b :=
  List.countP_append

theorem length_eq_literalCount_add (pool : List Const) :
    pool.length = literalCount pool + (poolNames pool).length := by
  induction pool with
  | nil => rfl
  | cons c pool ih =>
    cases c <;> simp [Const.isLiteral, Const.name?] <;> omega

theorem nameIndex?_eq_none_iff {pool : List Const} {x : Bytes} :
    nameIndex? pool x = none ↔ x ∉ poolNames pool := by
  unfold nameIndex? poolNames
  rw [List.findIdx?_eq_none_iff, List.mem_filterMap]
  constructor
  · rintro h ⟨c, hc, hName⟩
    cases c with
    | name y =>
      cases hName
      exact absurd (h _ hc) (by simp [Const.isName])
    | _ => cases hName
  · intro h c hc
    cases c with
    | name y =>
      simp only [Const.isName, beq_eq_false_iff_ne]
      rintro rfl
      exact h ⟨_, hc, rfl⟩
    | _ => rfl

theorem nodup_eraseDups : ∀ (l : List Bytes), l.eraseDups.Nodup
  | [] => List.nodup_nil
  | a :: l => by
    have : (l.filter fun b => !b == a).length < l.length + 1 :=
      Nat.lt_succ_of_le (List.length_filter_le _ l)
    rw [List.eraseDups_cons]
    refine List.nodup_cons.mpr ⟨fun h => ?_, nodup_eraseDups _⟩
    simp at h
termination_by l => l.length

/-- One token: a literal adds a literal, a name is added when new, and names stay distinct. -/
theorem tokenConst_spec {pool : List Const} (hNodup : (poolNames pool).Nodup) (t : Token) :
    (poolNames (tokenConst pool t)).Nodup ∧
      (∀ x, x ∈ poolNames (tokenConst pool t) ↔ x ∈ poolNames pool ∨ x ∈ nameTexts [t]) ∧
      literalCount (tokenConst pool t) =
        literalCount pool + [t].countP (fun t => t.kind == .number || t.kind == .string) := by
  unfold tokenConst
  split
  · rename_i h
    simp [h, nameTexts, Const.name?, Const.isLiteral, hNodup]
  · rename_i h
    simp [h, nameTexts, Const.name?, Const.isLiteral, hNodup]
  · rename_i h
    unfold addName
    cases hIdx : nameIndex? pool t.text with
    | some i =>
      have hMem : t.text ∈ poolNames pool := Decidable.byContradiction fun hNot => by
        rw [← nameIndex?_eq_none_iff, hIdx] at hNot
        cases hNot
      refine ⟨hNodup, fun x => ?_, by simp [h]⟩
      simp only [nameTexts, List.filter_cons, h, beq_self_eq_true, if_true, List.filter_nil,
        List.map_cons, List.map_nil, List.mem_singleton]
      exact ⟨Or.inl, fun hx => hx.elim id fun hx => hx ▸ hMem⟩
    | none =>
      have hNotMem := nameIndex?_eq_none_iff.mp hIdx
      refine ⟨?_, fun x => ?_, ?_⟩
      · simp only [poolNames_append, poolNames_cons, Const.name?, Option.toList_some, poolNames_nil,
          List.append_nil]
        exact List.nodup_append.mpr ⟨hNodup, by simp, fun a ha b hb => by
          rw [List.mem_singleton] at hb
          exact fun hab => hNotMem (hb ▸ hab ▸ ha)⟩
      · simp [h, nameTexts, Const.name?]
      · simp [h, Const.isLiteral]
  · rename_i hNum hStr hIdent
    have hId : (t.kind == .ident) = false := beq_eq_false_iff_ne.mpr hIdent
    have hLit : (t.kind == .number || t.kind == .string) = false := by
      rw [beq_eq_false_iff_ne.mpr hNum, beq_eq_false_iff_ne.mpr hStr]
      rfl
    refine ⟨hNodup, fun x => ?_, ?_⟩
    · simp [nameTexts, hId]
    · simp [hLit]

/-- A run of tokens from a pool with distinct names. -/
theorem foldl_tokenConst_spec (ts : List Token) : ∀ (pool : List Const), (poolNames pool).Nodup →
    (poolNames (ts.foldl tokenConst pool)).Nodup ∧
      (∀ x, x ∈ poolNames (ts.foldl tokenConst pool) ↔ x ∈ poolNames pool ∨ x ∈ nameTexts ts) ∧
      literalCount (ts.foldl tokenConst pool) =
        literalCount pool + ts.countP (fun t => t.kind == .number || t.kind == .string) := by
  induction ts with
  | nil => intro pool hNodup; simp [hNodup, nameTexts]
  | cons t ts ih =>
    intro pool hNodup
    obtain ⟨hNodup₁, hNames₁, hLits₁⟩ := tokenConst_spec hNodup t
    obtain ⟨hNodup₂, hNames₂, hLits₂⟩ := ih _ hNodup₁
    refine ⟨hNodup₂, fun x => ?_, ?_⟩
    · rw [List.foldl_cons, hNames₂, hNames₁, or_assoc]
      by_cases hId : t.kind = .ident <;> simp [nameTexts, hId]
    · rw [List.foldl_cons, hLits₂, hLits₁]
      simp only [List.countP_cons, List.countP_nil]
      omega

theorem foldl_tokenConst_length (ts : List Token) : (ts.foldl tokenConst []).length = constantCount ts := by
  obtain ⟨hNodup, hNames, hLits⟩ := foldl_tokenConst_spec ts [] List.nodup_nil
  -- The names of the pool are those of the tokens, each once, as in `eraseDups`.
  have hPerm : List.Perm (poolNames (ts.foldl tokenConst [])) (nameTexts ts).eraseDups :=
    (List.perm_ext_iff_of_nodup hNodup (nodup_eraseDups _)).mpr fun x => by
      rw [hNames, List.mem_eraseDups]
      simp
  rw [length_eq_literalCount_add, hLits, hPerm.length_eq]
  simp [literalCount, constantCount]

/-- The pool of a derivation's code has one constant per literal and one per distinct name. -/
theorem programCode_pool_length {prog : List Decl} {toks : List Token} (h : Derives prog toks) :
    (programCode prog []).2.length = constantCount toks := by
  obtain ⟨hWF, t, ht, rfl⟩ := h
  rw [← foldl_tokenConst_length, programCode_pool_eq hWF, List.foldl_append, List.foldl_cons,
    List.foldl_nil, tokenConst_of_ne (by rw [ht]; decide) (by rw [ht]; decide) (by rw [ht]; decide)]

end StackScript
