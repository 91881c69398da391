import StackScript.Proofs.Compiler.Run
import StackScript.Proofs.Bytecode.Layout
import StackScript.Proofs.Syntax.Lexemes

/-! # What every compile emits

Whether a compile succeeds or not, its chunk is made of whole instructions, each placed at the
line of the token before it: the lines never go back and lie between the first and the last line
of the source, no instruction addresses a stack slot, and the return comes last and only there.

The argument is an invariant of compile states. `Compiler.Invariant I` collects what a property
`I` of states needs to hold through every part of the compiler: steps that leave the code and the
tokens alone keep it, and so do moving to the next token and emitting one instruction whole. The
parse functions, mutually recursive, then keep it by induction on their fuel
(`maintains_parse`), and the statements and declarations built on them follow. A declaration
may start where the property holds only weakly (`J`), provided the first move to a token makes it
hold (`declarations_of_weak`).

`Laid` is the invariant here: the code so far is placed instructions, and the tokens still to
come stand in the order of their lines. Emitting needs the previous token to be one of the
source's, which it is once a declaration has moved past its first token.
-/

namespace StackScript

set_option autoImplicit false

namespace Compiler

/-! ## Steps that leave code and tokens alone -/

/-- `s'` has the code, the lines and the place in the tokens of `s`. -/
structure Still (s s' : Compiler) : Prop where
  code : s'.chunk.code = s.chunk.code
  lines : s'.chunk.lines = s.chunk.lines
  previous : s'.previous = s.previous
  current : s'.current = s.current
  tokens : s'.tokens = s.tokens

theorem Still.refl (s : Compiler) : Still s s := ⟨rfl, rfl, rfl, rfl, rfl⟩

theorem Still.trans {s₁ s₂ s₃ : Compiler} (h₁₂ : Still s₁ s₂) (h₂₃ : Still s₂ s₃) : Still s₁ s₃ :=
  ⟨h₂₃.code.trans h₁₂.code, h₂₃.lines.trans h₁₂.lines, h₂₃.previous.trans h₁₂.previous,
    h₂₃.current.trans h₁₂.current, h₂₃.tokens.trans h₁₂.tokens⟩

/-- A step that leaves the code, the lines and the tokens alone. -/
def Quiet {α : Type} (m : M α) : Prop := ∀ s : Compiler, Still s (m.run s).2

theorem Quiet.bind {α β : Type} {a : M α} {f : α → M β} (ha : Quiet a) (hf : ∀ x, Quiet (f x)) :
    Quiet (a >>= f) :=
  fun s => (ha s).trans (hf _ _)

theorem quiet_pure {α : Type} (a : α) : Quiet (pure a : M α) := Still.refl

theorem quiet_get : Quiet (get : M Compiler) := Still.refl

theorem quiet_ite {α : Type} {c : Prop} [Decidable c] {a b : M α} (ha : Quiet a) (hb : Quiet b) :
    Quiet (if c then a else b) := by
  split
  · exact ha
  · exact hb

theorem quiet_errorAt (t : Token) (message : String) : Quiet (errorAt t message) := by
  intro s
  rw [run_errorAt]
  split
  · exact Still.refl s
  · exact ⟨rfl, rfl, rfl, rfl, rfl⟩

theorem quiet_error (message : String) : Quiet (error message) :=
  quiet_get.bind fun _ => quiet_errorAt _ _

theorem quiet_errorAtCurrent (message : String) : Quiet (errorAtCurrent message) :=
  quiet_get.bind fun _ => quiet_errorAt _ _

theorem quiet_addConstant (v : Value) : Quiet (addConstant v) := by
  intro s
  dsimp only [addConstant, run_bind, run_get, run_set]
  refine Still.trans ?_ (quiet_ite ((quiet_error _).bind fun _ => quiet_pure _) (quiet_pure _) _)
  exact ⟨rfl, rfl, rfl, rfl, rfl⟩

theorem quiet_nameConstant (t : Token) : Quiet (nameConstant t) := by
  intro s
  -- Interning the name and recording its constant touch neither code nor tokens.
  have hIntern : Still s { s with heap := (s.heap.intern t.text).1 } := ⟨rfl, rfl, rfl, rfl, rfl⟩
  rw [Compiler.nameConstant, run_get_bind]
  simp only [run_bind, run_set]
  split
  · exact hIntern
  · rw [run_bind]
    have h₁ := hIntern.trans
      (quiet_addConstant (.obj (.str (s.heap.intern t.text).2)) { s with heap := (s.heap.intern t.text).1 })
    split
    · exact h₁.trans ⟨rfl, rfl, rfl, rfl, rfl⟩
    · exact h₁

/-! ## Properties that every step keeps -/

/-- Every run of `m` from a state where `I` holds ends in a state where it holds. -/
def Maintains {α : Type} (I : Compiler → Prop) (m : M α) : Prop := ∀ s, I s → I (m.run s).2

section Maintains

variable {I : Compiler → Prop}

theorem Maintains.bind {α β : Type} {a : M α} {f : α → M β} (ha : Maintains I a)
    (hf : ∀ x, Maintains I (f x)) : Maintains I (a >>= f) :=
  fun s hs => hf _ _ (ha s hs)

theorem maintains_pure {α : Type} (a : α) : Maintains I (pure a : M α) := fun _ hs => hs

theorem maintains_get : Maintains I (get : M Compiler) := fun _ hs => hs

theorem maintains_ite {α : Type} {c : Prop} [Decidable c] {a b : M α} (ha : Maintains I a)
    (hb : Maintains I b) : Maintains I (if c then a else b) := by
  split
  · exact ha
  · exact hb

end Maintains

/-- What a property of compile states needs in order to hold through a whole compile: steps that
leave code and tokens alone keep it, and so do moving to the next token and emitting one
instruction whole, with its operand if it takes one. -/
structure Invariant (I : Compiler → Prop) : Prop where
  still : ∀ {s s' : Compiler}, Still s s' → I s → I s'
  moves : Maintains I Compiler.advance
  plain : ∀ op : Op, op.operands = 0 → op ≠ .ret → Maintains I (Compiler.emitOp op)
  withOperand : ∀ (op : Op) (b : UInt8), op.usesConstant = true →
    Maintains I (Compiler.emitOp op >>= fun _ => Compiler.emit b)

section Invariant

variable {I : Compiler → Prop}

theorem Invariant.quiet (hI : Invariant I) {α : Type} {m : M α} (hm : Quiet m) : Maintains I m :=
  fun s hs => hI.still (hm s) hs

theorem maintains_accept (hI : Invariant I) (k : TokenKind) : Maintains I (accept k) :=
  (hI.quiet quiet_get).bind fun _ =>
    maintains_ite (hI.moves.bind fun _ => maintains_pure _) (maintains_pure _)

theorem maintains_consume (hI : Invariant I) (k : TokenKind) (message : String) :
    Maintains I (consume k message) :=
  (hI.quiet quiet_get).bind fun _ => maintains_ite hI.moves (hI.quiet (quiet_errorAtCurrent _))

theorem maintains_emitConstant (hI : Invariant I) (v : Value) : Maintains I (emitConstant v) :=
  (hI.quiet (quiet_addConstant v)).bind fun _ => hI.withOperand _ _ rfl

/-- A part that runs before an instruction whose operand was computed earlier. -/
theorem maintains_then_withOperand (hI : Invariant I) {α : Type} {a : M α} (ha : Maintains I a)
    (op : Op) (b : UInt8) (hOp : op.usesConstant = true) :
    Maintains I ((a >>= fun _ => emitOp op) >>= fun _ => emit b) :=
  fun s hs => hI.withOperand op b hOp _ (ha s hs)

theorem maintains_binaryOps (hI : Invariant I) (k : TokenKind) :
    Maintains I ((binaryOps k).forM emitOp) := by
  -- Every instruction of an operator takes no operand and is no return.
  have hPlain : ∀ op ∈ binaryOps k, op.operands = 0 ∧ op ≠ .ret := by
    cases k <;> simp [binaryOps, Op.operands]
  generalize binaryOps k = ops at hPlain
  induction ops with
  | nil => exact maintains_pure _
  | cons op ops ih =>
    have hOp := hPlain op (List.mem_cons_self ..)
    exact (hI.plain op hOp.1 hOp.2).bind fun _ =>
      ih fun op' h' => hPlain op' (List.mem_cons_of_mem _ h')

theorem maintains_infixLoop (hI : Invariant I) {fuel : Nat}
    (hP : ∀ p, Maintains I (parsePrecedence fuel p)) :
    ∀ steps p c, Maintains I (infixLoop fuel steps p c)
  | 0, p, c => by
    rw [infixLoop]
    exact maintains_pure _
  | steps + 1, p, c => by
    intro s hs
    rw [infixLoop, run_get_bind]
    exact maintains_ite (hI.moves.bind fun _ => (hP _).bind fun _ => (maintains_binaryOps hI _).bind
      fun _ => maintains_infixLoop hI hP steps p c)
      (maintains_ite ((maintains_accept hI _).bind fun _ => maintains_ite (hI.quiet (quiet_error _))
        (maintains_pure _)) (maintains_pure _)) s hs

/-- The whole parse keeps the property from the move to its first token on. -/
theorem maintains_after_advance (hI : Invariant I) {fuel : Nat}
    (hP : ∀ p, Maintains I (parsePrecedence fuel p)) (p : Nat) (s : Compiler)
    (hs : I (advance.run s).2) : I ((parsePrecedence (fuel + 1) p).run s).2 := by
  have hL := maintains_infixLoop hI hP
  rw [parsePrecedence, run_bind, run_get_bind]
  generalize (advance.run s).2 = s₁ at hs
  have hTail : ∀ {α : Type} (m : M α), Maintains I m → Maintains I (m >>= fun _ => get >>= fun s =>
      infixLoop fuel (s.tokens.length + 1) p (decide (p ≤ assignPrecedence))) :=
    fun m hm => hm.bind fun _ => maintains_get.bind fun _ => hL _ _ _
  dsimp only
  split
  · exact hTail _ ((hP _).bind fun _ => maintains_consume hI _ _) s₁ hs
  · exact hTail _ ((hP _).bind fun _ => hI.plain _ (by split <;> rfl) (by split <;> decide)) s₁ hs
  · exact hTail _ ((hP _).bind fun _ => hI.plain _ (by split <;> rfl) (by split <;> decide)) s₁ hs
  · exact hTail _ (maintains_emitConstant hI _) s₁ hs
  · -- A string literal interns its body first.
    rw [run_get_bind, run_bind, run_set]
    exact hTail _ (maintains_emitConstant hI _) _ (hI.still (s := s₁) ⟨rfl, rfl, rfl, rfl, rfl⟩ hs)
  all_goals first
    | exact hTail _ (hI.plain _ (by split_ifs <;> rfl) (by split_ifs <;> decide)) s₁ hs
    | exact hI.quiet (quiet_error _) s₁ hs
    | skip
  refine ((hI.quiet (quiet_nameConstant _)).bind fun arg => ?_) s₁ hs
  refine maintains_ite ((maintains_accept hI _).bind fun b => ?_) ((maintains_pure _).bind fun b => ?_) <;>
  exact maintains_ite (hTail _ (maintains_then_withOperand hI (hP _) _ _ rfl))
    (hTail _ (hI.withOperand _ _ rfl))

theorem maintains_parse (hI : Invariant I) : ∀ fuel, (∀ p, Maintains I (parsePrecedence fuel p)) ∧
    ∀ steps p c, Maintains I (infixLoop fuel steps p c) := by
  intro fuel
  induction fuel with
  | zero =>
    have hP : ∀ p, Maintains I (parsePrecedence 0 p) := fun p => by
      rw [parsePrecedence]
      exact maintains_pure _
    exact ⟨hP, maintains_infixLoop hI hP⟩
  | succ fuel ih =>
    have hP : ∀ p, Maintains I (parsePrecedence (fuel + 1) p) := fun p s hs =>
      maintains_after_advance hI ih.1 p s (hI.moves s hs)
    exact ⟨hP, maintains_infixLoop hI hP⟩

theorem maintains_expression (hI : Invariant I) : Maintains I expression :=
  maintains_get.bind fun _ => (maintains_parse hI _).1 _

theorem maintains_synchronize_go (hI : Invariant I) : ∀ fuel, Maintains I (synchronize.go fuel)
  | 0 => maintains_pure _
  | fuel + 1 => by
    rw [synchronize.go]
    exact maintains_get.bind fun _ =>
      maintains_ite (maintains_pure _) (hI.moves.bind fun _ => maintains_synchronize_go hI fuel)

theorem maintains_settle (hI : Invariant I) :
    Maintains I (get >>= fun x => if x.panicMode = true then synchronize else pure ()) := by
  refine maintains_get.bind fun _ => maintains_ite ?_ (maintains_pure _)
  intro s hs
  rw [synchronize, run_bind, run_modify, run_get_bind]
  exact maintains_synchronize_go hI _ _ (hI.still (s := s) ⟨rfl, rfl, rfl, rfl, rfl⟩ hs)

theorem maintains_infoStatement (hI : Invariant I) : Maintains I infoStatement :=
  (maintains_expression hI).bind fun _ => (maintains_consume hI _ _).bind fun _ =>
    hI.plain _ rfl (by decide)

theorem maintains_expressionStatement (hI : Invariant I) : Maintains I expressionStatement :=
  (maintains_expression hI).bind fun _ => (maintains_consume hI _ _).bind fun _ =>
    hI.plain _ rfl (by decide)

theorem maintains_varDeclaration (hI : Invariant I) : Maintains I varDeclaration :=
  ((maintains_consume hI _ _).bind fun _ => maintains_get.bind fun _ =>
    hI.quiet (quiet_nameConstant _)).bind fun _ => (maintains_accept hI _).bind fun _ =>
      maintains_ite ((maintains_expression hI).bind fun _ => (maintains_consume hI _ _).bind fun _ =>
          hI.withOperand _ _ rfl)
        ((hI.plain _ rfl (by decide)).bind fun _ => (maintains_consume hI _ _).bind fun _ =>
          hI.withOperand _ _ rfl)

theorem maintains_statement (hI : Invariant I) : Maintains I statement :=
  (maintains_accept hI _).bind fun _ =>
    maintains_ite (maintains_infoStatement hI) (maintains_expressionStatement hI)

theorem maintains_declaration (hI : Invariant I) : Maintains I declaration :=
  (maintains_accept hI _).bind fun _ =>
    maintains_ite ((maintains_varDeclaration hI).bind fun _ => maintains_settle hI)
      ((maintains_statement hI).bind fun _ => maintains_settle hI)

theorem maintains_declarations (hI : Invariant I) : ∀ fuel, Maintains I (declarations fuel)
  | 0 => maintains_pure _
  | fuel + 1 => (maintains_accept hI _).bind fun _ =>
    maintains_ite (maintains_pure _) ((maintains_declaration hI).bind fun _ => maintains_declarations hI fuel)

/-- Where the property holds only weakly at the start of a declaration, and moving to the first
token makes it hold, the declaration ends where it holds. -/
theorem expression_of_weak (hI : Invariant I) {J : Compiler → Prop}
    (hEnter : ∀ s, J s → I (advance.run s).2) {s : Compiler} (hs : J s) : I (expression.run s).2 := by
  rw [expression, run_get_bind]
  exact maintains_after_advance hI (maintains_parse hI _).1 _ s (hEnter s hs)

theorem statement_of_weak (hI : Invariant I) {J : Compiler → Prop}
    (hEnter : ∀ s, J s → I (advance.run s).2) {s : Compiler} (hs : J s) : I (statement.run s).2 := by
  rw [statement, run_bind]
  by_cases hk : s.current.kind = .infoKw
  · rw [run_accept_of_eq hk]
    exact maintains_infoStatement hI _ (hEnter s hs)
  · rw [run_accept_of_ne hk]
    exact ((maintains_consume hI _ _).bind fun _ => hI.plain _ rfl (by decide)) _
      (expression_of_weak hI hEnter hs)

theorem declaration_of_weak (hI : Invariant I) {J : Compiler → Prop}
    (hEnter : ∀ s, J s → I (advance.run s).2) {s : Compiler} (hs : J s) :
    I (declaration.run s).2 := by
  rw [declaration, run_bind]
  dsimp only
  by_cases hk : s.current.kind = .varKw
  · rw [run_accept_of_eq hk, if_pos rfl]
    exact ((maintains_varDeclaration hI).bind fun _ => maintains_settle hI) _ (hEnter s hs)
  · rw [run_accept_of_ne hk, if_neg Bool.false_ne_true, run_bind]
    exact maintains_settle hI _ (statement_of_weak hI hEnter hs)

theorem declarations_of_weak (hI : Invariant I) {J : Compiler → Prop}
    (hEnter : ∀ s, J s → I (advance.run s).2) (fuel : Nat) {s : Compiler} (hs : J s) :
    I ((declarations (fuel + 1)).run s).2 := by
  rw [declarations, run_bind]
  by_cases hk : s.current.kind = .eof
  · rw [run_accept_of_eq hk]
    exact hEnter s hs
  · rw [run_accept_of_ne hk]
    exact maintains_declarations hI fuel _ (declaration_of_weak hI hEnter hs)

end Invariant

end Compiler

/-! ## Emitting at the previous token's line -/

/-- The instructions of declarations: all but the return and the two slot instructions. -/
def Op.inDeclaration : Op → Bool
  | .ret | .getLocal | .setLocal => false
  | _ => true

theorem Op.inDeclaration_of_plain {op : Op} (h : op.operands = 0) (hRet : op ≠ .ret) :
    op.inDeclaration = true := by
  cases op <;> simp_all [Op.operands, Op.inDeclaration]

theorem Op.inDeclaration_of_usesConstant {op : Op} (h : op.usesConstant = true) :
    op.inDeclaration = true ∧ op.operands = 1 := by
  cases op <;> simp_all [Op.usesConstant, Op.inDeclaration, Op.operands]

namespace Compiler

/-- `s'` is `s` with the instruction `x` written at the line of the previous token. -/
structure Writes (s s' : Compiler) (x : Instr) : Prop where
  code : s'.chunk.code.toList = s.chunk.code.toList ++ x.bytes
  lines : s'.chunk.lines.toList = s.chunk.lines.toList ++ (Placed.mk x s.previous.pos.line).lines
  previous : s'.previous = s.previous
  current : s'.current = s.current
  tokens : s'.tokens = s.tokens

theorem writes_emitOp (op : Op) (h : op.operands = 0) (s : Compiler) :
    Writes s ((emitOp op).run s).2 ⟨op, [], h.symm⟩ :=
  ⟨by simp [emitOp, run_emit, Chunk.write, Instr.bytes],
    by simp [emitOp, run_emit, Chunk.write, Placed.lines, Instr.bytes], rfl, rfl, rfl⟩

theorem writes_emitWith (op : Op) (h : op.operands = 1) (b : UInt8) (s : Compiler) :
    Writes s ((emitOp op >>= fun _ => emit b).run s).2 ⟨op, [b], by simp [h]⟩ := by
  rw [run_bind]
  exact ⟨by simp [emitOp, run_emit, Chunk.write, Instr.bytes],
    by simp [emitOp, run_emit, Chunk.write, Placed.lines, Instr.bytes, List.replicate_succ],
    rfl, rfl, rfl⟩

/-! ## The invariant of compiles -/

/-- A compile state for a source whose last line is `hi`: the code so far is whole instructions
of declarations, placed at lines that never go back, from the first line up to the previous
token's; the previous token is no later than the current one, and the tokens still to come stand
at lines that never go back, from the current token's up to `hi`. -/
structure Laid (hi : Nat) (s : Compiler) : Prop where
  placed : ∃ ps, s.chunk.Places ps ∧ (ps.map Placed.line).Pairwise (· ≤ ·) ∧
    ∀ p ∈ ps, p.instr.op.inDeclaration = true ∧ 1 ≤ p.line ∧ p.line ≤ s.previous.pos.line
  previous_le : s.previous.pos.line ≤ s.current.pos.line
  current_le : ∀ t ∈ s.tokens, s.current.pos.line ≤ t.pos.line
  sorted : s.tokens.Pairwise (fun a b => a.pos.line ≤ b.pos.line)
  bounded : ∀ t ∈ s.tokens, 1 ≤ t.pos.line ∧ t.pos.line ≤ hi
  current_le_hi : s.current.pos.line ≤ hi
  ne_nil : s.tokens ≠ []

/-- The current token is one of the source's. -/
def Ready (hi : Nat) (s : Compiler) : Prop := Laid hi s ∧ 1 ≤ s.current.pos.line

/-- The previous token is one of the source's, so code can be placed at its line. -/
def Primed (hi : Nat) (s : Compiler) : Prop := Laid hi s ∧ 1 ≤ s.previous.pos.line

variable {hi : Nat}

theorem Laid.still {s s' : Compiler} (h : Still s s') (hs : Laid hi s) : Laid hi s' where
  placed := by
    obtain ⟨ps, hPlaces, hSorted, hPs⟩ := hs.placed
    exact ⟨ps, ⟨h.code ▸ hPlaces.code, h.lines ▸ hPlaces.lines⟩, hSorted, h.previous ▸ hPs⟩
  previous_le := h.previous ▸ h.current ▸ hs.previous_le
  current_le := h.current ▸ h.tokens ▸ hs.current_le
  sorted := h.tokens ▸ hs.sorted
  bounded := h.tokens ▸ hs.bounded
  current_le_hi := h.current ▸ hs.current_le_hi
  ne_nil := h.tokens ▸ hs.ne_nil

/-- Writing an instruction of a declaration at the previous token's line, which is a line of the
source, keeps the code laid out. -/
theorem Laid.write {s s' : Compiler} {x : Instr} (hs : Laid hi s) (hPrimed : 1 ≤ s.previous.pos.line)
    (hx : x.op.inDeclaration = true) (hw : Writes s s' x) : Laid hi s' where
  placed := by
    obtain ⟨ps, hPlaces, hSorted, hPs⟩ := hs.placed
    refine ⟨ps ++ [⟨x, s.previous.pos.line⟩], ⟨?_, ?_⟩, ?_, ?_⟩
    · rw [hw.code, hPlaces.code]
      simp [encode]
    · rw [hw.lines, hPlaces.lines]
      simp
    · rw [List.map_append, List.pairwise_append]
      refine ⟨hSorted, List.pairwise_singleton _ _, ?_⟩
      intro a ha b hb
      obtain ⟨p, hp, rfl⟩ := List.mem_map.mp ha
      rw [List.map_singleton, List.mem_singleton] at hb
      rw [hb]
      exact (hPs p hp).2.2
    · intro p hp
      rw [hw.previous]
      rcases List.mem_append.mp hp with hp | hp
      · exact hPs p hp
      · rw [List.mem_singleton] at hp
        subst hp
        exact ⟨hx, hPrimed, le_rfl⟩
  previous_le := hw.previous ▸ hw.current ▸ hs.previous_le
  current_le := hw.current ▸ hw.tokens ▸ hs.current_le
  sorted := hw.tokens ▸ hs.sorted
  bounded := hw.tokens ▸ hs.bounded
  current_le_hi := hw.current ▸ hs.current_le_hi
  ne_nil := hw.tokens ▸ hs.ne_nil

/-- The next token of a nonempty stream in line order comes from it, no later than any token
after it, which stay in line order. -/
theorem pop_sorted {ts : List Token} (hNe : ts ≠ [])
    (hSorted : ts.Pairwise (fun a b => a.pos.line ≤ b.pos.line)) :
    (pop ts).1 ∈ ts ∧ (pop ts).2 ≠ [] ∧ (pop ts).2.Pairwise (fun a b => a.pos.line ≤ b.pos.line) ∧
      ∀ u ∈ (pop ts).2, u ∈ ts ∧ (pop ts).1.pos.line ≤ u.pos.line := by
  match ts, hNe with
  | [t], _ => simp [pop]
  | t :: u :: r, _ =>
    rw [List.pairwise_cons] at hSorted
    refine ⟨List.mem_cons_self .., List.cons_ne_nil _ _, hSorted.2, fun v hv => ?_⟩
    exact ⟨List.mem_cons_of_mem _ hv, hSorted.1 v hv⟩

/-- Taking the next token of the stream as the current one. -/
theorem Laid.pop {s : Compiler} (hs : Laid hi s) :
    Ready hi { s with current := (pop s.tokens).1, tokens := (pop s.tokens).2, pulls := s.pulls + 1 } := by
  obtain ⟨hMem, hNe, hSorted, hRest⟩ := pop_sorted hs.ne_nil hs.sorted
  refine ⟨⟨hs.placed, le_trans hs.previous_le (hs.current_le _ hMem), fun u hu => (hRest u hu).2,
    hSorted, fun u hu => hs.bounded u (hRest u hu).1, (hs.bounded _ hMem).2, hNe⟩,
    (hs.bounded _ hMem).1⟩

/-- The current token becoming the previous one. -/
theorem Laid.shift {s : Compiler} (hs : Laid hi s) : Laid hi { s with previous := s.current } := by
  obtain ⟨ps, hPlaces, hSorted, hPs⟩ := hs.placed
  exact ⟨⟨ps, hPlaces, hSorted, fun p hp => ⟨(hPs p hp).1, (hPs p hp).2.1,
    le_trans (hPs p hp).2.2 hs.previous_le⟩⟩, le_rfl, hs.current_le, hs.sorted, hs.bounded,
    hs.current_le_hi, hs.ne_nil⟩

theorem ready_skip : ∀ (fuel : Nat) (s : Compiler), Laid hi s → (0 < fuel ∨ 1 ≤ s.current.pos.line) →
    Ready hi ((advance.skip fuel).run s).2 ∧ ((advance.skip fuel).run s).2.previous = s.previous
  | 0, s, hs, h => by
    have hCur : 1 ≤ s.current.pos.line := by simpa using h
    exact ⟨⟨hs, hCur⟩, rfl⟩
  | fuel + 1, s, hs, _ => by
    dsimp only [advance.skip, run_bind, run_get, run_set]
    have hPop := hs.pop
    by_cases hErr : ((pop s.tokens).1.kind == TokenKind.error) = true
    · -- A scanner error is reported, and the move goes on past it.
      simp only [hErr, if_true]
      rw [run_bind]
      have hQuiet := quiet_errorAtCurrent ((Bytes.toString? (pop s.tokens).1.text).getD "")
        { s with current := (pop s.tokens).1, tokens := (pop s.tokens).2, pulls := s.pulls + 1 }
      obtain ⟨hReady, hPrev⟩ := ready_skip fuel _ (hPop.1.still hQuiet)
        (Or.inr (hQuiet.current ▸ hPop.2))
      exact ⟨hReady, hPrev.trans hQuiet.previous⟩
    · simp only [hErr, Bool.false_eq_true, if_false]
      exact ⟨hPop, rfl⟩

/-- Moving to the next token: the old current token becomes the previous one, and the new current
token is one of the source's. -/
theorem ready_advance {s : Compiler} (hs : Laid hi s) :
    Ready hi (advance.run s).2 ∧ (advance.run s).2.previous = s.current := by
  simp only [advance, run_bind, run_modify, run_get]
  exact ready_skip _ _ hs.shift (Or.inl (Nat.succ_pos _))

theorem invariant_primed : Invariant (Primed hi) where
  still h hs := ⟨hs.1.still h, h.previous ▸ hs.2⟩
  moves s hs := by
    obtain ⟨hReady, hPrev⟩ := ready_advance hs.1
    exact ⟨hReady.1, hPrev ▸ le_trans hs.2 hs.1.previous_le⟩
  plain op h0 hRet s hs :=
    ⟨hs.1.write hs.2 (Op.inDeclaration_of_plain h0 hRet) (writes_emitOp op h0 s), hs.2⟩
  withOperand op b hOp s hs :=
    ⟨hs.1.write hs.2 (Op.inDeclaration_of_usesConstant hOp).1
      (writes_emitWith op (Op.inDeclaration_of_usesConstant hOp).2 b s), hs.2⟩

theorem laid_start (tokens : List Token) (heap : Heap) (name : String) (hNe : tokens ≠ [])
    (hSorted : tokens.Pairwise (fun a b => a.pos.line ≤ b.pos.line))
    (hBounds : ∀ t ∈ tokens, 1 ≤ t.pos.line ∧ t.pos.line ≤ hi) : Laid hi (start tokens heap name) :=
  ⟨⟨[], ⟨rfl, rfl⟩, List.Pairwise.nil, by simp⟩, le_rfl, fun _ _ => Nat.zero_le _, hSorted, hBounds,
    Nat.zero_le _, hNe⟩

theorem primed_advance {s : Compiler} (hs : Ready hi s) : Primed hi (advance.run s).2 := by
  obtain ⟨hReady, hPrev⟩ := ready_advance hs.1
  exact ⟨hReady.1, hPrev ▸ hs.2⟩

end Compiler

/-- The return as code holds it. -/
def Instr.ret : Instr := ⟨.ret, [], rfl⟩

open Compiler in
/-- Every compile, whether it succeeds or not, leaves a chunk of whole instructions of
declarations followed by the return, each placed at a line of the source, from the first to the
last, and the lines never go back. -/
theorem compile_placed (src : Bytes) (heap : Heap) (name : String) :
    ∃ (ps : List Placed) (line : Nat), (compile src heap name).chunk.Places (ps ++ [Placed.mk Instr.ret line]) ∧
      ((ps ++ [Placed.mk Instr.ret line]).map Placed.line).Pairwise (· ≤ ·) ∧
      (∀ p ∈ ps ++ [Placed.mk Instr.ret line], 1 ≤ p.line ∧ p.line ≤ src.count 10 + 1) ∧
      ∀ p ∈ ps, p.instr.op.inDeclaration = true := by
  obtain ⟨hNe, hSorted, hBounds⟩ := Scanner.scan_lines src
  simp only [compile]
  generalize (Scanner.scan src).1 = toks at hNe hSorted hBounds ⊢
  generalize (if name.isEmpty then "<script>" else name) = name
  -- The first move makes the first token current, and the declarations then keep the code laid.
  have hReady := (ready_advance (laid_start toks heap name hNe hSorted hBounds)).1
  rw [run_bind, run_bind]
  generalize hs : ((declarations (toks.length + 1)).run (advance.run (start toks heap name)).2).2 = s
  have hPrimed : Primed (src.count 10 + 1) s :=
    hs ▸ declarations_of_weak invariant_primed (fun _ h => primed_advance h) _ hReady
  obtain ⟨ps, hPlaces, hLines, hPs⟩ := hPrimed.1.placed
  have hLast : s.previous.pos.line ≤ src.count 10 + 1 :=
    le_trans hPrimed.1.previous_le hPrimed.1.current_le_hi
  have hw := writes_emitOp .ret rfl s
  refine ⟨ps, s.previous.pos.line, ⟨?_, ?_⟩, ?_, ?_, fun p hp => (hPs p hp).1⟩
  · rw [hw.code, hPlaces.code]
    simp [encode, Instr.ret]
  · rw [hw.lines, hPlaces.lines]
    simp [Instr.ret]
  · rw [List.map_append, List.pairwise_append]
    refine ⟨hLines, List.pairwise_singleton _ _, ?_⟩
    intro a ha b hb
    obtain ⟨p, hp, rfl⟩ := List.mem_map.mp ha
    rw [List.map_singleton, List.mem_singleton] at hb
    rw [hb]
    exact (hPs p hp).2.2
  · intro p hp
    rcases List.mem_append.mp hp with hp | hp
    · exact ⟨(hPs p hp).2.1, le_trans (hPs p hp).2.2 hLast⟩
    · rw [List.mem_singleton] at hp
      subst hp
      exact ⟨hPrimed.2, hLast⟩

end StackScript
