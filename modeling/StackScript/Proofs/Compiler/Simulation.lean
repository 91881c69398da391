import StackScript.Proofs.Compiler.Run
import StackScript.Proofs.Syntax.Scan

/-! # The compiler follows the reference parser

The compiler and `Expr.parse` walk a token stream in lockstep. From a clean state reading a
stream, the compiler ends where the reference parser does, having emitted the postfix code of
the tree it read and grown its pool as that code does (`parsePrecedence_sim`); when the parser
fails, or the pool outgrows 256 constants, the compiler has recorded an error.

The induction runs on the compiler's own fuel, as the parser's does: a parse at fuel `n + 1`
reads its operands at fuel `n`, and its operator loop runs at fuel `n` for as many steps as
there are tokens.
-/

namespace StackScript

set_option autoImplicit false

open Compiler

/-! ## Pools only grow -/

theorem addName_pool (pool : List Const) (x : Bytes) : ∃ extra, (addName pool x).2 = pool ++ extra := by
  unfold addName
  split
  · exact ⟨[], (List.append_nil _).symm⟩
  · exact ⟨_, rfl⟩

theorem Expr.code_pool : ∀ (e : Expr) (pool : List Const), ∃ extra, (e.code pool).2 = pool ++ extra
  | .number _, _ | .string _, _ => ⟨_, rfl⟩
  | .literal _, _ => ⟨[], (List.append_nil _).symm⟩
  | .ident x, pool => addName_pool pool x.text
  | .assign x _ e, pool => by
    obtain ⟨a, ha⟩ := addName_pool pool x.text
    obtain ⟨b, hb⟩ := e.code_pool (addName pool x.text).2
    exact ⟨a ++ b, by show (e.code (addName pool x.text).2).2 = _; rw [hb, ha, List.append_assoc]⟩
  | .unary _ e, pool => e.code_pool pool
  | .binary _ l r, pool => by
    obtain ⟨a, ha⟩ := l.code_pool pool
    obtain ⟨b, hb⟩ := r.code_pool (l.code pool).2
    exact ⟨a ++ b, by show (r.code (l.code pool).2).2 = _; rw [hb, ha, List.append_assoc]⟩
  | .group _ e _, pool => e.code_pool pool

/-- The operator loop only extends the tree it starts from, so the pool of its result holds the
pool of that tree. -/
theorem parseInfixWith_pool {sub : Nat → List Token → Option (Expr × List Token)} :
    ∀ (steps p : Nat) (lhs : Expr) (ts : List Token) (e : Expr) (rest : List Token),
      parseInfixWith sub steps p lhs ts = some (e, rest) →
      ∀ pool, ∃ extra, (e.code pool).2 = (lhs.code pool).2 ++ extra := by
  intro steps
  induction steps with
  | zero =>
    intro p lhs ts e rest h pool
    cases h
    exact ⟨[], (List.append_nil _).symm⟩
  | succ steps ih =>
    intro p lhs ts e rest h pool
    simp only [parseInfixWith] at h
    split at h
    · cases hAdv : advance? ts with
      | none => simp [hAdv] at h
      | some ts₁ =>
        rw [hAdv] at h
        simp only at h
        cases hR : sub (infixPrecedence (pop ts).1.kind + 1) ts₁ with
        | none => simp [hR] at h
        | some res =>
          obtain ⟨r, ts₂⟩ := res
          rw [hR] at h
          obtain ⟨a, ha⟩ := ih p _ ts₂ e rest h pool
          obtain ⟨b, hb⟩ := r.code_pool (lhs.code pool).2
          refine ⟨b ++ a, ?_⟩
          rw [ha, ← List.append_assoc, ← hb]
          rfl
    · split at h
      · cases h
      · cases h
        exact ⟨[], (List.append_nil _).symm⟩

theorem binaryOps_eq_postfixOps : Compiler.binaryOps = postfixOps := by
  funext k
  cases k <;> rfl

/-! ## Errors stay recorded -/

namespace Compiler

theorem keeps_infixLoop {fuel : Nat} (hP : ∀ p, Keeps (parsePrecedence fuel p)) :
    ∀ steps p c, Keeps (infixLoop fuel steps p c)
  | 0, p, c => by
    rw [infixLoop]
    exact keeps_pure _
  | steps + 1, p, c => by
    intro s
    rw [infixLoop, run_get_bind]
    exact keeps_ite (keeps_advance.bind fun _ => (hP _).bind fun _ => (keeps_forM_emitOp _).bind
      fun _ => keeps_infixLoop hP steps p c)
      (keeps_ite ((keeps_accept _).bind fun _ => keeps_ite (keeps_error _) (keeps_pure _))
        (keeps_pure _)) s

/-- The whole parse follows the move to its first token. -/
theorem parsePrecedence_follows_advance {fuel : Nat} (hP : ∀ p, Keeps (parsePrecedence fuel p))
    (p : Nat) (s : Compiler) : Follows (advance.run s).2 ((parsePrecedence (fuel + 1) p).run s).2 := by
  have hL := keeps_infixLoop hP
  rw [parsePrecedence, run_bind, run_get_bind]
  generalize (advance.run s).2 = s₁
  have hTail : ∀ {α : Type} (m : M α), Keeps m → Keeps (m >>= fun _ => get >>= fun s =>
      infixLoop fuel (s.tokens.length + 1) p (decide (p ≤ assignPrecedence))) :=
    fun m hm => hm.bind fun _ => keeps_get.bind fun _ => hL _ _ _
  dsimp only
  split
  · exact hTail _ ((hP _).bind fun _ => keeps_consume _ _) s₁
  · exact hTail _ ((hP _).bind fun _ => keeps_emitOp _) s₁
  · exact hTail _ ((hP _).bind fun _ => keeps_emitOp _) s₁
  · exact hTail _ (keeps_emitConstant _) s₁
  · -- A string literal interns its body first.
    rw [run_get_bind]
    rw [run_bind, run_set]
    refine Follows.trans ?_ (hTail _ (keeps_emitConstant _) _)
    exact ⟨id, Heap.grows_intern _ _⟩
  · exact hTail _ (keeps_emitOp _) s₁
  · exact hTail _ (keeps_emitOp _) s₁
  · exact hTail _ (keeps_emitOp _) s₁
  · refine ((keeps_nameConstant _).bind fun arg => ?_) s₁
    refine keeps_ite ((keeps_accept _).bind fun b => ?_) (keeps_pure _ |>.bind fun b => ?_) <;>
    exact keeps_ite (hTail _ (((hP _).bind fun _ => keeps_emitOp _).bind fun _ => keeps_emit _))
      (hTail _ ((keeps_emitOp _).bind fun _ => keeps_emit _))
  · exact keeps_error _ s₁

theorem keeps_parse : ∀ fuel, (∀ p, Keeps (parsePrecedence fuel p)) ∧
    ∀ steps p c, Keeps (infixLoop fuel steps p c) := by
  intro fuel
  induction fuel with
  | zero =>
    have hP : ∀ p, Keeps (parsePrecedence 0 p) := fun p => by
      rw [parsePrecedence]
      exact keeps_pure _
    exact ⟨hP, keeps_infixLoop hP⟩
  | succ fuel ih =>
    have hP : ∀ p, Keeps (parsePrecedence (fuel + 1) p) := fun p s =>
      (keeps_advance s).trans (parsePrecedence_follows_advance ih.1 p s)
    exact ⟨hP, keeps_infixLoop hP⟩

/-! ## Outcomes -/

/-- After emitting `res.1` behind the code `base`, with the pool `res.2`: the compiler reads
`rest` with that code and pool, or, when the pool has outgrown the chunk, has recorded an
error. -/
def Reached (base : List UInt8) (res : List UInt8 × List Const) (rest : List Token) (s : Compiler) :
    Prop :=
  if res.2.length ≤ Chunk.maxConstants then At s rest (base ++ res.1) res.2 else s.hadError = true

/-- After the code of `e`, read from the pool `pool`. -/
def Emitted (base : List UInt8) (pool : List Const) (e : Expr) (rest : List Token) (s : Compiler) :
    Prop :=
  Reached base (e.code pool) rest s

/-- What the compiler leaves for an answer of the reference parser: a recorded error for a
failure. -/
def Outcome (base : List UInt8) (pool : List Const) : Option (Expr × List Token) → Compiler → Prop
  | none, s => s.hadError = true
  | some (e, rest), s => Emitted base pool e rest s

variable {s s' : Compiler} {base : List UInt8} {pool : List Const} {ts : List Token}
  {res res' : List UInt8 × List Const} {rest rest' : List Token}

theorem Reached.of_hadError (h : s.hadError = true) (hBig : Chunk.maxConstants < res.2.length) :
    Reached base res rest s := by
  rw [Reached, if_neg (Nat.not_le_of_lt hBig)]
  exact h

theorem Reached.at (h : Reached base res rest s) (hFit : res.2.length ≤ Chunk.maxConstants) :
    At s rest (base ++ res.1) res.2 := by
  rw [Reached, if_pos hFit] at h
  exact h

theorem Reached.hadError (h : Reached base res rest s) (hBig : ¬ res.2.length ≤ Chunk.maxConstants) :
    s.hadError = true := by
  rw [Reached, if_neg hBig] at h
  exact h

/-- Without an error the pool has not outgrown the chunk. -/
theorem Reached.fits (h : Reached base res rest s) (hClean : s.hadError = false) :
    res.2.length ≤ Chunk.maxConstants :=
  Decidable.byContradiction fun hBig => absurd (h.hadError hBig) (by rw [hClean]; decide)

/-- A step that keeps errors, and from the clean state moves on to the next clean state with the
same pool. -/
theorem Reached.step {α : Type} {m : M α} (h : Reached base res rest s) (hPool : res'.2 = res.2)
    (hKeeps : Keeps m) (hStep : At s rest (base ++ res.1) res.2 → At (m.run s).2 rest' (base ++ res'.1) res'.2) :
    Reached base res' rest' (m.run s).2 := by
  by_cases hFit : res.2.length ≤ Chunk.maxConstants
  · rw [Reached, if_pos (hPool ▸ hFit)]
    exact hStep (h.at hFit)
  · rw [Reached, if_neg (hPool ▸ hFit)]
    exact hKeeps.hadError (h.hadError hFit)

/-- A step that keeps errors, and records one from the clean state. -/
theorem Reached.records {α : Type} {m : M α} (h : Reached base res rest s) (hKeeps : Keeps m)
    (hRec : At s rest (base ++ res.1) res.2 → (m.run s).2.hadError = true) : (m.run s).2.hadError = true := by
  by_cases hFit : res.2.length ≤ Chunk.maxConstants
  · exact hRec (h.at hFit)
  · exact hKeeps.hadError (h.hadError hFit)

/-- The code of a subtree read behind the code `c` continues it. -/
theorem Reached.of_emitted {c : List UInt8} {p : List Const} {e : Expr}
    (h : Emitted (base ++ c) p e rest s) : Reached base (c ++ (e.code p).1, (e.code p).2) rest s := by
  simpa only [Emitted, Reached, List.append_assoc] using h

theorem Outcome.of_hadError {r : Option (Expr × List Token)} (h : s.hadError = true)
    (hBig : ∀ e rest, r = some (e, rest) → Chunk.maxConstants < (e.code pool).2.length) :
    Outcome base pool r s := by
  match r with
  | none => exact h
  | some (e, rest) => exact Reached.of_hadError h (hBig e rest rfl)

/-! ## The operator loop -/

/-- What the parser reads leaves a shorter stream that still ends with the end of input. -/
theorem parse_rest {fuel q : Nat} {e : Expr} {rest : List Token} (hEnds : EndsEof ts)
    (hq : q ≤ unaryPrecedence) (h : Expr.parse fuel q ts = some (e, rest)) :
    EndsEof rest ∧ rest.length < ts.length := by
  have hParses := Expr.parse_sound _ _ _ e rest hEnds hq h
  have hYield := List.length_pos_iff.mpr e.yield_ne_nil
  refine ⟨hParses.endsEof hEnds, ?_⟩
  rw [hParses.1, List.length_append]
  omega

/-- The compiler follows the reference parser at fuel `fuel`, from every clean state. -/
def SimExpr (fuel : Nat) : Prop :=
  ∀ (q : Nat) (s : Compiler) (ts : List Token) (base : List UInt8) (pool : List Const),
    At s ts base pool → EndsEof ts → ts.length ≤ fuel → q ≤ unaryPrecedence →
    Outcome base pool (Expr.parse fuel q ts) ((parsePrecedence fuel q).run s).2

theorem infixLoop_sim {fuel : Nat} (hSub : SimExpr fuel) :
    ∀ (steps p : Nat) (lhs : Expr) (ts : List Token) (s : Compiler) (base : List UInt8)
      (pool : List Const), Emitted base pool lhs ts s → EndsEof ts → ts.length ≤ fuel →
      Outcome base pool (parseInfixWith (Expr.parse fuel) steps p lhs ts)
        ((infixLoop fuel steps p (decide (p ≤ assignPrecedence))).run s).2 := by
  have hKeeps := keeps_parse fuel
  intro steps
  induction steps with
  | zero =>
    intro p lhs ts s base pool hEmit _ _
    rw [infixLoop]
    exact hEmit
  | succ steps ih =>
    intro p lhs ts s base pool hEmit hEnds hLen
    by_cases hBig : Chunk.maxConstants < (lhs.code pool).2.length
    · -- The pool overflowed already: the error stays, and every extension overflows too.
      refine Outcome.of_hadError ((hKeeps.2 _ _ _).hadError (hEmit.hadError (Nat.not_le_of_lt hBig)))
        fun e rest hLoop => ?_
      obtain ⟨extra, hExtra⟩ := parseInfixWith_pool _ _ _ _ _ _ hLoop pool
      rw [hExtra, List.length_append]
      omega
    have hAt := hEmit.at (Nat.le_of_not_lt hBig)
    rw [infixLoop, run_get_bind]
    simp only [parseInfixWith, ← hAt.current]
    have hOpB : ((decide (infixPrecedence s.current.kind ≠ 0) &&
        decide (p ≤ infixPrecedence s.current.kind)) = true) ↔
        (infixPrecedence s.current.kind ≠ 0 ∧ p ≤ infixPrecedence s.current.kind) := by simp
    have hpB : decide (p ≤ assignPrecedence) = true ↔ p ≤ assignPrecedence := decide_eq_true_iff
    by_cases hOp : infixPrecedence s.current.kind ≠ 0 ∧ p ≤ infixPrecedence s.current.kind
    · -- An operator: its right operand at one level tighter, then the rest of the loop.
      rw [if_pos hOp, if_pos (hOpB.mpr hOp)]
      have hNotEof : s.current.kind ≠ .eof := fun hEof => hOp.1 (by rw [hEof]; rfl)
      cases hAdv : advance? ts with
      | none =>
        rw [run_bind]
        exact ((hKeeps.1 _).bind fun _ => (keeps_forM_emitOp _).bind fun _ => hKeeps.2 _ _ _).hadError
          (hAt.advance_records hAdv)
      | some ts₁ =>
        obtain ⟨hAt₁, -⟩ := hAt.advance hAdv
        obtain ⟨hts, hEnds₁⟩ := advance?_sound hEnds (by rw [← hAt.current]; exact hNotEof) hAdv
        have hLen₁ : ts₁.length ≤ fuel := by
          rw [hts, List.length_cons] at hLen
          omega
        have hq : infixPrecedence s.current.kind + 1 ≤ unaryPrecedence := by
          have := infixPrecedence_le s.current.kind
          rw [unaryPrecedence_eq]
          omega
        have hRight := hSub _ _ _ _ _ hAt₁ hEnds₁ hLen₁ hq
        simp only [run_bind]
        generalize ((parsePrecedence fuel (infixPrecedence s.current.kind + 1)).run
          (advance.run s).2).2 = s₂ at hRight ⊢
        cases hR : Expr.parse fuel (infixPrecedence s.current.kind + 1) ts₁ with
        | none =>
          rw [hR] at hRight
          exact ((keeps_forM_emitOp _).bind fun _ => hKeeps.2 _ _ _).hadError hRight
        | some res =>
          obtain ⟨r, ts₂⟩ := res
          rw [hR] at hRight
          obtain ⟨hEnds₂, hShorter⟩ := parse_rest hEnds₁ hq hR
          have hLen₂ : ts₂.length ≤ fuel := by omega
          -- The tree so far, extended by the operator and its right operand.
          have hCode : (Expr.binary s.current lhs r).code pool =
              ((lhs.code pool).1 ++ (r.code (lhs.code pool).2).1 ++
                (binaryOps s.current.kind).map Op.code, (r.code (lhs.code pool).2).2) := by
            rw [binaryOps_eq_postfixOps]
            rfl
          have hEmit₃ : Emitted base pool (.binary s.current lhs r) ts₂
              (((binaryOps s.current.kind).forM emitOp).run s₂).2 :=
            (Reached.of_emitted hRight).step (by rw [hCode]) (keeps_forM_emitOp _) fun hAt₂ => by
              rw [hCode, ← List.append_assoc]
              exact hAt₂.of_emits (emits_forM_emitOp _ s₂)
          exact ih p _ ts₂ _ base pool hEmit₃ hEnds₂ hLen₂
    · rw [if_neg hOp, if_neg (mt hOpB.mp hOp)]
      by_cases hAssign : p ≤ assignPrecedence ∧ s.current.kind = .assign
      · -- A stray `=` where an assignment may stand.
        rw [if_pos hAssign, if_pos (hpB.mpr hAssign.1)]
        show ((accept .assign >>= fun stray => if stray = true then error _ else pure ()).run s).2.hadError = true
        rw [run_bind, run_accept_of_eq hAssign.2]
        dsimp only
        rw [if_pos rfl]
        cases hAdv : advance? ts with
        | none => exact (keeps_error _).hadError (hAt.advance_records hAdv)
        | some ts₁ =>
          obtain ⟨hAt₁, -⟩ := hAt.advance hAdv
          simp only [error, run_get_bind]
          exact errorAt_records _ _ hAt₁.panicMode
      · rw [if_neg hAssign]
        by_cases hp : p ≤ assignPrecedence
        · rw [if_pos (hpB.mpr hp)]
          show Emitted base pool lhs ts ((accept .assign >>= fun stray =>
            if stray = true then error _ else pure ()).run s).2
          rw [run_bind, run_accept_of_ne (fun hEq => hAssign ⟨hp, hEq⟩)]
          exact hEmit
        · rw [if_neg (mt hpB.mp hp)]
          exact hEmit

/-- After a prefix tree `h`, the operator loop with the compiler's step count. -/
theorem loop_after_head {fuel p : Nat} (hSub : SimExpr fuel) {h : Expr}
    (hEmit : Emitted base pool h ts s) (hEnds : EndsEof ts) (hLen : ts.length ≤ fuel) :
    Outcome base pool (parseInfixWith (Expr.parse fuel) ((pop ts).2.length + 1) p h ts)
      ((get >>= fun x => infixLoop fuel (x.tokens.length + 1) p (decide (p ≤ assignPrecedence))).run
        s).2 := by
  rw [run_get_bind]
  by_cases hBig : Chunk.maxConstants < (h.code pool).2.length
  · refine Outcome.of_hadError (((keeps_parse fuel).2 _ _ _).hadError (hEmit.hadError (Nat.not_le_of_lt hBig)))
      fun e rest hLoop => ?_
    obtain ⟨extra, hExtra⟩ := parseInfixWith_pool _ _ _ _ _ _ hLoop pool
    rw [hExtra, List.length_append]
    omega
  · rw [(hEmit.at (Nat.le_of_not_lt hBig)).tokens]
    exact infixLoop_sim hSub _ p h ts s base pool hEmit hEnds hLen

/-- A parse from a reached state: the clean one, or one whose pool has overflowed already. -/
theorem Reached.parse {fuel q : Nat} (hSub : SimExpr fuel) (h : Reached base res rest s)
    (hEnds : EndsEof rest) (hLen : rest.length ≤ fuel) (hq : q ≤ unaryPrecedence) :
    Outcome (base ++ res.1) res.2 (Expr.parse fuel q rest) ((parsePrecedence fuel q).run s).2 := by
  by_cases hFit : res.2.length ≤ Chunk.maxConstants
  · exact hSub q s rest _ _ (h.at hFit) hEnds hLen hq
  · refine Outcome.of_hadError (((keeps_parse fuel).1 q).hadError (h.hadError hFit)) fun e _ _ => ?_
    obtain ⟨extra, hExtra⟩ := e.code_pool res.2
    rw [hExtra, List.length_append]
    omega

theorem emitted_number (hAt : At s ts base pool) (t : Token) :
    Emitted base pool (.number t) ts ((emitConstant (.number (numberValue t.text))).run s).2 := by
  have hLen : ((Expr.number t).code pool).2.length = pool.length + 1 := by
    simp only [Expr.code, List.length_append, List.length_singleton]
  by_cases hFull : Chunk.maxConstants ≤ pool.length
  · exact Reached.of_hadError (hAt.emitConstant_records hFull) (by omega)
  · rw [Emitted, Reached, if_pos (by omega)]
    exact hAt.emitConstant rfl (fun _ => rfl) (Nat.lt_of_not_le hFull)

theorem emitted_string (hAt : At s ts base pool) (t : Token) {heap : Heap} {str : Str}
    (hI : s.heap.intern (stringBody t.text) = (heap, str)) :
    Emitted base pool (.string t) ts ((emitConstant (.obj (.str str))).run { s with heap }).2 := by
  have hAt₁ := hAt.intern (stringBody t.text)
  have hFound := (hAt.rel.heap.intern (stringBody t.text)).2.1 (stringBody t.text)
  rw [hI] at hAt₁ hFound
  have hLen : ((Expr.string t).code pool).2.length = pool.length + 1 := by
    simp only [Expr.code, List.length_append, List.length_singleton]
  by_cases hFull : Chunk.maxConstants ≤ pool.length
  · exact Reached.of_hadError (hAt₁.emitConstant_records hFull) (by omega)
  · rw [Emitted, Reached, if_pos (by omega)]
    exact hAt₁.emitConstant ⟨str, by simpa using hFound, rfl⟩ (fun _ => rfl) (Nat.lt_of_not_le hFull)

theorem emitted_literal (hAt : At s ts base pool) (t : Token) (op : Op)
    (hOp : op = if t.kind = .falseKw then Op.falseLit else if t.kind = .nilKw then Op.nil else Op.trueLit) :
    Emitted base pool (.literal t) ts ((emitOp op).run s).2 := by
  rw [Emitted, Reached, if_pos (show ((Expr.literal t).code pool).2.length ≤ _ from hAt.bound), hOp]
  exact hAt.emitOp _

theorem emitted_unary {e : Expr} (hIn : Emitted base pool e rest s) (t : Token) (op : Op)
    (hOp : op = if t.kind = .minus then Op.negate else Op.not) :
    Emitted base pool (.unary t e) rest ((emitOp op).run s).2 :=
  Reached.step hIn rfl (keeps_emitOp op) fun hAt => by
    simpa only [Expr.code, hOp, List.append_assoc] using hAt.emitOp op

/-- A name's constant: the pool grows as `addName` says, and the index is the one it gives. -/
theorem At.nameConstant_reached (hAt : At s ts base pool) (t : Token) :
    Reached base ([], (addName pool t.text).2) ts ((Compiler.nameConstant t).run s).2 ∧
      ((addName pool t.text).2.length ≤ Chunk.maxConstants →
        ((Compiler.nameConstant t).run s).1 = (addName pool t.text).1) := by
  by_cases hFit : (addName pool t.text).2.length ≤ Chunk.maxConstants
  · obtain ⟨hArg, hAt₂⟩ := hAt.nameConstant t hFit
    refine ⟨?_, fun _ => hArg⟩
    rw [Reached, if_pos hFit, List.append_nil]
    exact hAt₂
  · exact ⟨Reached.of_hadError (hAt.nameConstant_records t (Nat.lt_of_not_le hFit))
      (Nat.lt_of_not_le hFit), fun h => absurd h hFit⟩

theorem emitted_ident {x : Token} {arg : Nat} (hName : Reached base ([], (addName pool x.text).2) rest s)
    (hArg : (addName pool x.text).2.length ≤ Chunk.maxConstants → arg = (addName pool x.text).1) :
    Emitted base pool (.ident x) rest ((emit arg.toUInt8).run ((emitOp .getGlobal).run s).2).2 := by
  have hGet : Reached base ([Op.getGlobal.code], (addName pool x.text).2) rest ((emitOp .getGlobal).run s).2 :=
    hName.step rfl (keeps_emitOp _) fun hAt => by simpa using hAt.emitOp Op.getGlobal
  have hCode : (Expr.ident x).code pool =
      ([Op.getGlobal.code, (addName pool x.text).1.toUInt8], (addName pool x.text).2) := rfl
  refine hGet.step rfl (keeps_emit _) fun hAt => ?_
  rw [hCode, hArg hAt.bound]
  simpa using hAt.emit (addName pool x.text).1.toUInt8

theorem emitted_assign {x q : Token} {arg : Nat} {e : Expr}
    (hIn : Emitted (base ++ []) (addName pool x.text).2 e rest s)
    (hArg : (addName pool x.text).2.length ≤ Chunk.maxConstants → arg = (addName pool x.text).1) :
    Emitted base pool (.assign x q e) rest ((emit arg.toUInt8).run ((emitOp .setGlobal).run s).2).2 := by
  have hCode : (Expr.assign x q e).code pool = ((e.code (addName pool x.text).2).1 ++
      [Op.setGlobal.code, (addName pool x.text).1.toUInt8], (e.code (addName pool x.text).2).2) := rfl
  -- The name's constant comes before the value's, so the pool after it fits when the last one does.
  have hName : (e.code (addName pool x.text).2).2.length ≤ Chunk.maxConstants →
      (addName pool x.text).2.length ≤ Chunk.maxConstants := fun h => by
    obtain ⟨extra, hExtra⟩ := e.code_pool (addName pool x.text).2
    rw [hExtra, List.length_append] at h
    omega
  have hSet : Reached base ((e.code (addName pool x.text).2).1 ++ [Op.setGlobal.code],
      (e.code (addName pool x.text).2).2) rest ((emitOp .setGlobal).run s).2 :=
    (Reached.of_emitted hIn).step rfl (keeps_emitOp _) fun hAt => by simpa using hAt.emitOp Op.setGlobal
  refine hSet.step (by rw [hCode]) (keeps_emit _) fun hAt => ?_
  rw [hCode, hArg (hName hAt.bound)]
  simpa using hAt.emit (addName pool x.text).1.toUInt8

theorem parsePrecedence_sim_succ {fuel : Nat} (hSub : SimExpr fuel) : SimExpr (fuel + 1) := by
  have hKeeps := keeps_parse fuel
  -- Every prefix is followed by the operator loop, which keeps errors.
  have hTail : ∀ p, Keeps (get >>= fun x => infixLoop fuel (x.tokens.length + 1) p
      (decide (p ≤ assignPrecedence))) :=
    fun p => keeps_get.bind fun _ => hKeeps.2 _ _ _
  intro q s ts base pool hAt hEnds hLen hq
  cases hAdv : advance? ts with
  | none =>
    have hRef : Expr.parse (fuel + 1) q ts = none := by simp only [Expr.parse, hAdv]
    rw [hRef]
    exact (parsePrecedence_follows_advance hKeeps.1 q s).hadError (hAt.advance_records hAdv)
  | some ts₁ =>
    obtain ⟨hAt₁, hPrev⟩ := hAt.advance hAdv
    have hNext : (pop ts).1.kind ≠ .eof → EndsEof ts₁ ∧ ts₁.length ≤ fuel := fun hk => by
      obtain ⟨hts, hEnds₁⟩ := advance?_sound hEnds hk hAdv
      rw [hts, List.length_cons] at hLen
      exact ⟨hEnds₁, by omega⟩
    simp only [Expr.parse, hAdv]
    rw [parsePrecedence, run_bind, run_get_bind]
    dsimp only
    rw [hPrev]
    generalize (advance.run s).2 = s₁ at hAt₁ ⊢
    generalize (pop ts).1 = t at hNext ⊢
    cases hk : t.kind
    case lparen =>
      obtain ⟨hEnds₁, hLen₁⟩ := hNext (by rw [hk]; decide)
      have hIn := hSub assignPrecedence s₁ ts₁ base pool hAt₁ hEnds₁ hLen₁ (by decide)
      rw [run_bind]
      generalize ((parsePrecedence fuel assignPrecedence).run s₁).2 = s₂ at hIn ⊢
      cases hR : Expr.parse fuel assignPrecedence ts₁ with
      | none =>
        rw [hR] at hIn
        exact ((keeps_consume _ _).bind fun _ => hTail q).hadError hIn
      | some res =>
        obtain ⟨e, ts₂⟩ := res
        rw [hR] at hIn
        change Emitted base pool e ts₂ s₂ at hIn
        obtain ⟨hEnds₂, hLen₂⟩ := parse_rest hEnds₁ (by decide) hR
        dsimp only
        rw [run_bind]
        by_cases hRp : (pop ts₂).1.kind = .rparen
        · rw [if_pos hRp]
          cases hAdv₂ : advance? ts₂ with
          | none =>
            exact (hTail q).hadError (hIn.records (keeps_consume _ _) fun hAt₂ =>
              hAt₂.consume_records_of_advance hRp hAdv₂)
          | some ts₃ =>
            obtain ⟨hts, hEnds₃⟩ := advance?_sound hEnds₂ (by rw [hRp]; decide) hAdv₂
            have hGroup : Emitted base pool (.group t e (pop ts₂).1) ts₃
                ((consume .rparen "Expect ')' after expression.").run s₂).2 :=
              hIn.step rfl (keeps_consume _ _) fun hAt₂ => hAt₂.consume hRp hAdv₂
            exact loop_after_head hSub hGroup hEnds₃ (by rw [hts, List.length_cons] at hLen₂; omega)
        · rw [if_neg hRp]
          exact (hTail q).hadError (hIn.records (keeps_consume _ _) fun hAt₂ => hAt₂.consume_records hRp)
    case minus | bang =>
      obtain ⟨hEnds₁, hLen₁⟩ := hNext (by rw [hk]; decide)
      have hIn := hSub unaryPrecedence s₁ ts₁ base pool hAt₁ hEnds₁ hLen₁ (Nat.le_refl _)
      rw [run_bind]
      generalize ((parsePrecedence fuel unaryPrecedence).run s₁).2 = s₂ at hIn ⊢
      cases hR : Expr.parse fuel unaryPrecedence ts₁ with
      | none =>
        rw [hR] at hIn
        exact ((keeps_emitOp _).bind fun _ => hTail q).hadError hIn
      | some res =>
        obtain ⟨e, ts₂⟩ := res
        rw [hR] at hIn
        obtain ⟨hEnds₂, hLen₂⟩ := parse_rest hEnds₁ (Nat.le_refl _) hR
        dsimp only
        rw [run_bind]
        exact loop_after_head hSub (emitted_unary hIn t _ (by simp [hk])) hEnds₂ (by omega)
    case number =>
      obtain ⟨hEnds₁, hLen₁⟩ := hNext (by rw [hk]; decide)
      rw [run_bind]
      exact loop_after_head hSub (emitted_number hAt₁ t) hEnds₁ hLen₁
    case string =>
      obtain ⟨hEnds₁, hLen₁⟩ := hNext (by rw [hk]; decide)
      rw [run_get_bind, show (t.text.drop 1).take (t.text.length - 2) = stringBody t.text from rfl]
      cases hI : s₁.heap.intern (stringBody t.text) with
      | mk heap str =>
        dsimp only
        rw [run_bind, run_set, run_bind]
        exact loop_after_head hSub (emitted_string hAt₁ t hI) hEnds₁ hLen₁
    case falseKw | nilKw | trueKw =>
      obtain ⟨hEnds₁, hLen₁⟩ := hNext (by rw [hk]; decide)
      rw [run_bind]
      exact loop_after_head hSub (emitted_literal hAt₁ t _ (by simp [hk])) hEnds₁ hLen₁
    case ident =>
      obtain ⟨hEnds₁, hLen₁⟩ := hNext (by rw [hk]; decide)
      obtain ⟨hName, hArg⟩ := hAt₁.nameConstant_reached t
      have hCur : ((nameConstant t).run s₁).2.current = (pop ts₁).1 :=
        (nameConstant_current t s₁).trans hAt₁.current
      rw [run_bind]
      generalize ((nameConstant t).run s₁).1 = arg at hArg ⊢
      generalize ((nameConstant t).run s₁).2 = s₂ at hName hCur ⊢
      dsimp only
      -- The value of an assignment, with the same pool threading as its reference tree.
      have hValue : ∀ m : M Unit, Keeps m → Keeps (m >>= fun _ => emitOp .setGlobal >>= fun _ =>
          emit arg.toUInt8 >>= fun _ => get >>= fun x =>
            infixLoop fuel (x.tokens.length + 1) q (decide (q ≤ assignPrecedence))) :=
        fun m hm => hm.bind fun _ => (keeps_emitOp _).bind fun _ => (keeps_emit _).bind fun _ => hTail q
      by_cases hAs : q ≤ assignPrecedence ∧ (pop ts₁).1.kind = .assign
      · rw [if_pos hAs, if_pos hAs.1, run_bind, run_accept_of_eq (by rw [hCur]; exact hAs.2)]
        dsimp only
        rw [if_pos rfl]
        cases hAdv₂ : advance? ts₁ with
        | none =>
          exact (hValue _ ((keeps_parse fuel).1 _)).hadError
            (hName.records keeps_advance fun hAt₂ => hAt₂.advance_records hAdv₂)
        | some ts₂ =>
          obtain ⟨hts, hEnds₂⟩ := advance?_sound hEnds₁ (by rw [hAs.2]; decide) hAdv₂
          have hLen₂ : ts₂.length ≤ fuel := by
            rw [hts, List.length_cons] at hLen₁
            omega
          have hName₂ := hName.step rfl keeps_advance fun hAt₂ => (hAt₂.advance hAdv₂).1
          have hIn := hName₂.parse (q := assignPrecedence) hSub hEnds₂ hLen₂ (by decide)
          dsimp only
          rw [run_bind]
          generalize ((parsePrecedence fuel assignPrecedence).run (advance.run s₂).2).2 = s₄ at hIn ⊢
          cases hR : Expr.parse fuel assignPrecedence ts₂ with
          | none =>
            rw [hR] at hIn
            exact ((keeps_emitOp _).bind fun _ => (keeps_emit _).bind fun _ => hTail q).hadError hIn
          | some res =>
            obtain ⟨e, ts₃⟩ := res
            rw [hR] at hIn
            obtain ⟨hEnds₃, hLen₃⟩ := parse_rest hEnds₂ (by decide) hR
            dsimp only
            rw [run_bind, run_bind]
            exact loop_after_head hSub (emitted_assign hIn hArg) hEnds₃ (by omega)
      · rw [if_neg hAs, run_accept_or_false (by rw [hCur]; exact fun hp h => hAs ⟨hp, h⟩)]
        rw [if_neg Bool.false_ne_true, run_bind, run_bind]
        exact loop_after_head hSub (emitted_ident hName hArg) hEnds₁ hLen₁
    all_goals
      -- No expression starts with any other token.
      simp only [error, run_get_bind]
      exact errorAt_records _ _ hAt₁.panicMode

/-- From every clean state, the compiler's parse of an expression follows the reference
parser at the same fuel. -/
theorem parsePrecedence_sim : ∀ fuel, SimExpr fuel
  | 0 => fun _ _ _ _ _ _ hEnds hLen _ =>
    absurd (List.eq_nil_of_length_eq_zero (Nat.le_zero.mp hLen)) hEnds.ne_nil
  | fuel + 1 => parsePrecedence_sim_succ (parsePrecedence_sim fuel)

end Compiler

end StackScript
