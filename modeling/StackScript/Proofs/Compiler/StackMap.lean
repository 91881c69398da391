import StackScript.Proofs.Compiler.Correctness
import StackScript.Proofs.Bytecode.Layout
import StackScript.Proofs.Compiler.Emission

/-! # The stack map of a derivation's code

The postfix code of a derivation is whole instructions, and the depth of the stack along it is
known before it runs. `Profile xs m k n` says that code run on `m` values over any base finds
every value it takes, leaves `k` values over the base, and in between holds from none to `n`
over the base, reaching `n`. An expression's code has the profile `0 1 need` and a declaration's
`0 0 need` (`Expr.code_profile`, `Decl.code_profile`): it never reaches below the depth it
started from, and it rises by exactly its need. Profiles compose along code (`Profile.append`),
and a profile over a higher base is a profile shifted up (`Profile.shift`).

Each instruction of the code that names a constant names one of the pool the code leaves, and a
name where it reads or writes a global (`Instr.Names`).
-/

namespace StackScript

set_option autoImplicit false

/-- Code run on `m` values over any base depth finds every value it takes, leaves `k` values over
the base, and in between holds from none to `n` values over the base, reaching `n`. -/
structure Profile (xs : List Instr) (m k n : Nat) : Prop where
  balanced : ∀ b, Balanced xs (b + m)
  after : ∀ b, depthAfter xs (b + m) = b + k
  bounded : ∀ o b p, p ∈ stackMap xs o (b + m) → b ≤ p.2 ∧ p.2 ≤ b + n
  peak : ∀ o b, ∃ o', (o', b + n) ∈ stackMap xs o (b + m)

namespace Profile

/-- One instruction takes its operands and leaves its results. -/
theorem single (x : Instr) : Profile [x] x.op.pops x.op.pushes (max x.op.pops x.op.pushes) where
  balanced b := by simp
  after b := by simp [Instr.after]
  bounded o b p hp := by
    simp only [stackMap_cons, stackMap_nil, List.mem_cons, List.not_mem_nil, or_false] at hp
    rcases hp with rfl | rfl <;> simp [Instr.after]
  peak o b := by
    rcases le_total x.op.pops x.op.pushes with h | h
    · refine ⟨o + x.bytes.length, ?_⟩
      simp [Instr.after, max_eq_right h]
    · exact ⟨o, by simp [max_eq_left h]⟩

/-- Code followed by code that takes what it leaves. -/
theorem append {xs ys : List Instr} {m k k' n₁ n₂ : Nat} (h₁ : Profile xs m k n₁)
    (h₂ : Profile ys k k' n₂) : Profile (xs ++ ys) m k' (max n₁ n₂) where
  balanced b := balanced_append.mpr ⟨h₁.balanced b, h₁.after b ▸ h₂.balanced b⟩
  after b := by rw [depthAfter_append, h₁.after, h₂.after]
  bounded o b p hp := by
    rcases mem_stackMap_append.mp hp with hp | hp
    · have := h₁.bounded o b p hp
      omega
    · rw [h₁.after] at hp
      have := h₂.bounded _ b p hp
      omega
  peak o b := by
    rcases le_total n₁ n₂ with h | h
    · obtain ⟨o', hp⟩ := h₂.peak (o + (encode xs).length) b
      refine ⟨o', mem_stackMap_append.mpr (Or.inr ?_)⟩
      rw [h₁.after, max_eq_right h]
      exact hp
    · obtain ⟨o', hp⟩ := h₁.peak o b
      refine ⟨o', mem_stackMap_append.mpr (Or.inl ?_)⟩
      rw [max_eq_left h]
      exact hp

/-- The same code over a base `j` values higher. -/
theorem shift {xs : List Instr} {m k n : Nat} (h : Profile xs m k n) (j : Nat) :
    Profile xs (m + j) (k + j) (n + j) where
  balanced b := by
    rw [show b + (m + j) = b + j + m by omega]
    exact h.balanced (b + j)
  after b := by
    rw [show b + (m + j) = b + j + m by omega, h.after]
    omega
  bounded o b p hp := by
    rw [show b + (m + j) = b + j + m by omega] at hp
    have := h.bounded o (b + j) p hp
    omega
  peak o b := by
    obtain ⟨o', hp⟩ := h.peak o (b + j)
    refine ⟨o', ?_⟩
    rw [show b + (m + j) = b + j + m by omega, show b + (n + j) = b + j + n by omega]
    exact hp

theorem single_of {x : Instr} {m k n : Nat} (hm : x.op.pops = m) (hk : x.op.pushes = k)
    (hn : max m k = n) : Profile [x] m k n := by
  subst hm hk hn
  exact single x

theorem peak_eq {xs : List Instr} {m k n n' : Nat} (h : Profile xs m k n) (hn : n = n') :
    Profile xs m k n' :=
  hn ▸ h

end Profile

/-- An instruction whose operand, if it names a constant, names one of the pool `P`, and a name
where the instruction reads or writes a global. -/
def Instr.Names (P : List Const) (x : Instr) : Prop :=
  x.op.usesConstant = true → ∃ i < P.length, x.operand = [i.toUInt8] ∧
    (x.op ≠ .constant → ∃ y, P[i]? = some (.name y))

theorem Instr.Names.mono {P P' : List Const} {x : Instr} (h : x.Names P) (hP : P <+: P') :
    x.Names P' := by
  intro hx
  obtain ⟨i, hi, hOperand, hName⟩ := h hx
  refine ⟨i, lt_of_lt_of_le hi hP.length_le, hOperand, fun hOp => ?_⟩
  obtain ⟨y, hy⟩ := hName hOp
  exact ⟨y, prefix_getElem? hP hy⟩

theorem Instr.names_plain {P : List Const} {x : Instr} (h : x.op.usesConstant = false) : x.Names P :=
  fun hx => absurd (h.symm.trans hx) Bool.false_ne_true

theorem Instr.names_name (pool : List Const) (op : Op) (hOp : op.operands = 1) (x : Bytes) :
    Instr.Names (addName pool x).2 ⟨op, [(addName pool x).1.toUInt8], by simp [hOp]⟩ := by
  have hx := addName_getElem? pool x
  exact fun _ => ⟨_, (List.getElem?_eq_some_iff.mp hx).1, rfl, fun _ => ⟨x, hx⟩⟩

theorem Expr.one_le_need : ∀ e : Expr, 1 ≤ e.need
  | .number _ | .string _ | .literal _ | .ident _ => le_rfl
  | .assign _ _ e | .unary _ e | .group _ e _ => e.one_le_need
  | .binary _ _ r => le_max_of_le_right (Nat.le_add_left 1 r.need)

/-- The instructions of a binary operator take its two operands and leave one value. -/
theorem postfixOps_profile {k : TokenKind} (hk : 0 < infixPrecedence k) :
    ∃ ys, (postfixOps k).map Op.code = encode ys ∧ Profile ys 2 1 2 ∧
      ∀ y ∈ ys, y.op.inDeclaration = true ∧ y.op.usesConstant = false := by
  -- Each operator is one instruction on two values, or a test followed by a negation.
  cases k <;> simp only [infixPrecedence, Nat.lt_irrefl] at hk
  all_goals first
    | exact ⟨[⟨_, [], rfl⟩], rfl, Profile.single_of rfl rfl rfl,
        by simp [Op.inDeclaration, Op.usesConstant]⟩
    | exact ⟨[⟨_, [], rfl⟩, ⟨.not, [], rfl⟩], rfl,
        ((Profile.single_of rfl rfl rfl).append (Profile.single_of rfl rfl rfl)).peak_eq rfl,
        by simp [Op.inDeclaration, Op.usesConstant]⟩

/-- The code of an expression of the grammar, run from any depth, ends one value higher, never
reaches below where it started and rises by exactly the expression's need; each instruction is
one of declarations and names a constant of the pool the code leaves. -/
theorem Expr.code_profile : ∀ (e : Expr), e.WF → ∀ pool : List Const, ∃ xs,
    (e.code pool).1 = encode xs ∧ Profile xs 0 1 e.need ∧
      ∀ x ∈ xs, x.op.inDeclaration = true ∧ x.Names (e.code pool).2
  | .number _, _, pool | .string _, _, pool =>
    ⟨[⟨.constant, [pool.length.toUInt8], rfl⟩], rfl, Profile.single_of rfl rfl rfl, by
      simp only [List.mem_singleton, forall_eq]
      exact ⟨rfl, fun _ => ⟨pool.length, by simp [Expr.code], rfl, fun h => absurd rfl h⟩⟩⟩
  | .literal t, _, pool => by
    refine ⟨[⟨if t.kind = .falseKw then .falseLit else if t.kind = .nilKw then .nil else .trueLit, [],
      by split_ifs <;> rfl⟩], rfl, Profile.single_of (by split_ifs <;> rfl) (by split_ifs <;> rfl) rfl, ?_⟩
    simp only [List.mem_singleton, forall_eq]
    exact ⟨by split_ifs <;> rfl, Instr.names_plain (by split_ifs <;> rfl)⟩
  | .ident x, _, pool => by
    refine ⟨[⟨.getGlobal, [(addName pool x.text).1.toUInt8], rfl⟩], rfl, Profile.single_of rfl rfl rfl, ?_⟩
    simp only [List.mem_singleton, forall_eq]
    exact ⟨rfl, Instr.names_name pool _ rfl x.text⟩
  | .assign x _ e, hWF, pool => by
    obtain ⟨xs, hCode, hProfile, hInstrs⟩ := e.code_profile hWF.2.2 (addName pool x.text).2
    refine ⟨xs ++ [⟨.setGlobal, [(addName pool x.text).1.toUInt8], rfl⟩], ?_,
      (hProfile.append (Profile.single_of (m := 1) (k := 1) rfl rfl rfl)).peak_eq
        (max_eq_left e.one_le_need), ?_⟩
    · rw [Expr.code_assign, hCode]
      simp [Instr.bytes]
    · intro y hy
      rcases List.mem_append.mp hy with hy | hy
      · exact hInstrs y hy
      · rw [List.mem_singleton] at hy
        subst hy
        exact ⟨rfl, (Instr.names_name pool _ rfl x.text).mono (e.prefix_code _)⟩
  | .unary op e, hWF, pool => by
    obtain ⟨xs, hCode, hProfile, hInstrs⟩ := e.code_profile hWF.2.1 pool
    refine ⟨xs ++ [⟨if op.kind = .minus then .negate else .not, [], by split_ifs <;> rfl⟩], ?_,
      (hProfile.append (Profile.single_of (m := 1) (k := 1) (by split_ifs <;> rfl)
        (by split_ifs <;> rfl) rfl)).peak_eq (max_eq_left e.one_le_need), ?_⟩
    · rw [Expr.code_unary, hCode]
      simp [Instr.bytes]
    · intro y hy
      rcases List.mem_append.mp hy with hy | hy
      · exact hInstrs y hy
      · rw [List.mem_singleton] at hy
        subst hy
        exact ⟨by split_ifs <;> rfl, Instr.names_plain (by split_ifs <;> rfl)⟩
  | .binary op l r, hWF, pool => by
    obtain ⟨xs₁, hCode₁, hProfile₁, hInstrs₁⟩ := l.code_profile hWF.2.1 pool
    obtain ⟨xs₂, hCode₂, hProfile₂, hInstrs₂⟩ := r.code_profile hWF.2.2.1 (l.code pool).2
    obtain ⟨ys, hOps, hProfileOps, hInstrsOps⟩ := postfixOps_profile hWF.1
    -- The right operand runs over the left one's value, and the operator takes both.
    have hPeak : max (max l.need (r.need + 1)) 2 = max l.need (r.need + 1) :=
      max_eq_left (le_trans (by have := r.one_le_need; omega) (le_max_right _ _))
    refine ⟨xs₁ ++ xs₂ ++ ys, ?_,
      ((hProfile₁.append (hProfile₂.shift 1)).append hProfileOps).peak_eq hPeak, ?_⟩
    · rw [Expr.code_binary, hCode₁, hCode₂, hOps]
      simp
    · intro y hy
      simp only [List.mem_append] at hy
      rcases hy with (hy | hy) | hy
      · exact ⟨(hInstrs₁ y hy).1, (hInstrs₁ y hy).2.mono (r.prefix_code _)⟩
      · exact hInstrs₂ y hy
      · exact ⟨(hInstrsOps y hy).1, Instr.names_plain (hInstrsOps y hy).2⟩
  | .group _ e _, hWF, pool => e.code_profile hWF.2.2 pool

/-- The code of a declaration of the grammar, run from any depth, ends where it started, never
reaches below it and rises by exactly the declaration's need. -/
theorem Decl.code_profile (d : Decl) (hWF : d.WF) (pool : List Const) : ∃ xs,
    (d.code pool).1 = encode xs ∧ Profile xs 0 0 d.need ∧
      ∀ x ∈ xs, x.op.inDeclaration = true ∧ x.Names (d.code pool).2 := by
  -- Each declaration is a value followed by the instruction that consumes it.
  have hEnd : ∀ (xs : List Instr) (e : Expr) (op : Op) (operand : List UInt8)
      (h : operand.length = op.operands), Profile xs 0 1 e.need → op.pops = 1 → op.pushes = 0 →
      Profile (xs ++ [⟨op, operand, h⟩]) 0 0 e.need := fun xs e op operand h hProfile h1 h0 =>
    (hProfile.append (Profile.single_of h1 h0 rfl)).peak_eq (max_eq_left e.one_le_need)
  cases d with
  | var kw x init semi =>
    cases init with
    | none =>
      refine ⟨[⟨.nil, [], rfl⟩, ⟨.defineGlobal, [(addName pool x.text).1.toUInt8], rfl⟩], rfl,
        (Profile.single_of rfl rfl rfl).append (Profile.single_of rfl rfl rfl), ?_⟩
      simp only [List.mem_cons, List.not_mem_nil, or_false, forall_eq_or_imp, forall_eq]
      exact ⟨⟨rfl, Instr.names_plain rfl⟩, rfl, Instr.names_name pool _ rfl x.text⟩
    | some init =>
      obtain ⟨_, e⟩ := init
      obtain ⟨xs, hCode, hProfile, hInstrs⟩ := e.code_profile hWF.2.2.2.1 (addName pool x.text).2
      refine ⟨xs ++ [⟨.defineGlobal, [(addName pool x.text).1.toUInt8], rfl⟩], ?_,
        hEnd _ e _ _ _ hProfile rfl rfl, ?_⟩
      · rw [Decl.code_var_some, hCode]
        simp [Instr.bytes]
      · intro y hy
        rcases List.mem_append.mp hy with hy | hy
        · exact hInstrs y hy
        · rw [List.mem_singleton] at hy
          subst hy
          exact ⟨rfl, (Instr.names_name pool _ rfl x.text).mono (e.prefix_code _)⟩
  | info kw e semi =>
    obtain ⟨xs, hCode, hProfile, hInstrs⟩ := e.code_profile hWF.2.1 pool
    refine ⟨xs ++ [⟨.info, [], rfl⟩], by simp [hCode, Instr.bytes], hEnd _ e _ _ _ hProfile rfl rfl, ?_⟩
    intro y hy
    rcases List.mem_append.mp hy with hy | hy
    · exact hInstrs y hy
    · rw [List.mem_singleton] at hy
      subst hy
      exact ⟨rfl, Instr.names_plain rfl⟩
  | expr e semi =>
    obtain ⟨xs, hCode, hProfile, hInstrs⟩ := e.code_profile hWF.1 pool
    refine ⟨xs ++ [⟨.pop, [], rfl⟩], by simp [hCode, Instr.bytes], hEnd _ e _ _ _ hProfile rfl rfl, ?_⟩
    intro y hy
    rcases List.mem_append.mp hy with hy | hy
    · exact hInstrs y hy
    · rw [List.mem_singleton] at hy
      subst hy
      exact ⟨rfl, Instr.names_plain rfl⟩

theorem Profile.nil : Profile [] 0 0 0 where
  balanced _ := trivial
  after _ := rfl
  bounded o b p hp := by
    simp only [stackMap_nil, Nat.add_zero, List.mem_singleton] at hp
    subst hp
    exact ⟨le_rfl, le_rfl⟩
  peak o b := ⟨o, by simp⟩

theorem programCode_append (pre post : List Decl) (pool : List Const) :
    programCode (pre ++ post) pool =
      ((programCode pre pool).1 ++ (programCode post (programCode pre pool).2).1,
        (programCode post (programCode pre pool).2).2) := by
  induction pre generalizing pool with
  | nil => rfl
  | cons d pre ih => simp [ih]

/-- The code of a derivation, run from any depth, ends where it started, never reaches below it
and rises by exactly the program's need. -/
theorem programCode_profile : ∀ (prog : List Decl), (∀ d ∈ prog, d.WF) → ∀ pool : List Const,
    ∃ xs, (programCode prog pool).1 = encode xs ∧ Profile xs 0 0 (programNeed prog) ∧
      ∀ x ∈ xs, x.op.inDeclaration = true ∧ x.Names (programCode prog pool).2
  | [], _, _ => ⟨[], rfl, Profile.nil, by simp⟩
  | d :: ds, hWF, pool => by
    obtain ⟨xs, hCode, hProfile, hInstrs⟩ := d.code_profile (hWF d (List.mem_cons_self ..)) pool
    obtain ⟨ys, hCodes, hProfiles, hNames⟩ :=
      programCode_profile ds (fun d' h => hWF d' (List.mem_cons_of_mem _ h)) (d.code pool).2
    refine ⟨xs ++ ys, by simp [hCode, hCodes], hProfile.append hProfiles, fun x hx => ?_⟩
    rcases List.mem_append.mp hx with hx | hx
    · exact ⟨(hInstrs x hx).1, (hInstrs x hx).2.mono (prefix_programCode ds _)⟩
    · exact hNames x hx

end StackScript
