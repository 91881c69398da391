import StackScript.Proofs.Compiler.Simulation
import StackScript.Proofs.Compiler.Constants

namespace StackScript

set_option autoImplicit false

open Compiler

/-! ## Derivations hold no error token -/

theorem Expr.kind_ne_error : ∀ {e : Expr}, e.WF → ∀ t ∈ e.yield, t.kind ≠ .error
  | .number _, hWF, _, ht | .string _, hWF, _, ht | .ident _, hWF, _, ht => by
    rw [List.mem_singleton.mp ht, hWF]
    decide
  | .literal _, hWF, _, ht => by
    rw [List.mem_singleton.mp ht]
    rcases hWF with h | h | h <;> rw [h] <;> decide
  | .assign x q e, ⟨hx, hq, hWF⟩, t, ht => by
    rcases List.mem_cons.mp ht with rfl | ht
    · rw [hx]; decide
    rcases List.mem_cons.mp ht with rfl | ht
    · rw [hq]; decide
    exact Expr.kind_ne_error hWF t ht
  | .unary op e, ⟨hOp, hWF, _⟩, t, ht => by
    rcases List.mem_cons.mp ht with rfl | ht
    · rcases hOp with h | h <;> rw [h] <;> decide
    exact Expr.kind_ne_error hWF t ht
  | .binary op l r, ⟨hOp, hl, hr, _, _⟩, t, ht => by
    rcases List.mem_append.mp ht with ht | ht
    · exact Expr.kind_ne_error hl t ht
    rcases List.mem_cons.mp ht with rfl | ht
    · -- An operator has a precedence, which the error kind has not.
      intro h
      rw [h] at hOp
      exact absurd hOp (by decide)
    exact Expr.kind_ne_error hr t ht
  | .group lp e rp, ⟨hlp, hrp, hWF⟩, t, ht => by
    rcases List.mem_append.mp ht with ht | ht
    · rcases List.mem_cons.mp ht with rfl | ht
      · rw [hlp]; decide
      exact Expr.kind_ne_error hWF t ht
    rw [List.mem_singleton.mp ht, hrp]
    decide

theorem Decl.kind_ne_error {d : Decl} (hWF : d.WF) : ∀ t ∈ d.yield, t.kind ≠ .error := by
  intro t ht
  match d, hWF with
  | .var kw x none semi, ⟨hKw, hx, hSemi⟩ =>
    simp only [Decl.yield, List.mem_cons, List.not_mem_nil, or_false] at ht
    rcases ht with rfl | rfl | rfl <;> simp [hKw, hx, hSemi]
  | .var kw x (some (d, e)) semi, ⟨hKw, hx, hd, hWF, hSemi⟩ =>
    simp only [Decl.yield, List.cons_append, List.mem_cons, List.mem_append, List.not_mem_nil, or_false] at ht
    rcases ht with rfl | rfl | rfl | ht | rfl
    · simp [hKw]
    · simp [hx]
    · simp [hd]
    · exact Expr.kind_ne_error hWF t ht
    · simp [hSemi]
  | .info kw e semi, ⟨hKw, hWF, hSemi⟩ =>
    simp only [Decl.yield, List.cons_append, List.mem_cons, List.mem_append, List.not_mem_nil, or_false] at ht
    rcases ht with rfl | ht | rfl
    · simp [hKw]
    · exact Expr.kind_ne_error hWF t ht
    · simp [hSemi]
  | .expr e semi, ⟨hWF, hSemi⟩ =>
    simp only [Decl.yield, List.mem_append, List.mem_cons, List.not_mem_nil, or_false] at ht
    rcases ht with ht | rfl
    · exact Expr.kind_ne_error hWF t ht
    · simp [hSemi]

/-- A derived token list holds no error token. -/
theorem Derives.kind_ne_error {prog : List Decl} {toks : List Token} (h : Derives prog toks) :
    ∀ t ∈ toks, t.kind ≠ .error := by
  obtain ⟨hWF, u, hu, rfl⟩ := h
  intro t ht
  rcases List.mem_append.mp ht with ht | ht
  · obtain ⟨d, hd, ht⟩ := List.mem_flatMap.mp ht
    exact Decl.kind_ne_error (hWF d hd) t ht
  · rw [List.mem_singleton.mp ht, hu]
    decide

theorem pop_fst_mem {ts : List Token} (h : ts ≠ []) : (pop ts).1 ∈ ts := by
  match ts, h with
  | [t], _ => exact List.mem_singleton_self t
  | t :: u :: r, _ => exact List.mem_cons_self

theorem Decl.yield_ne_nil (d : Decl) : d.yield ≠ [] := by
  cases d with
  | var _ _ init _ => cases init <;> simp [Decl.yield]
  | info => simp [Decl.yield]
  | expr => simp [Decl.yield]

theorem Decl.code_pool : ∀ (d : Decl) (pool : List Const), ∃ extra, (d.code pool).2 = pool ++ extra
  | .var _ x none _, pool => addName_pool pool x.text
  | .var _ x (some (_, e)) _, pool => by
    obtain ⟨a, ha⟩ := addName_pool pool x.text
    obtain ⟨b, hb⟩ := e.code_pool (addName pool x.text).2
    exact ⟨a ++ b, by show (e.code (addName pool x.text).2).2 = _; rw [hb, ha, List.append_assoc]⟩
  | .info _ e _, pool | .expr e _, pool => e.code_pool pool

theorem programCode_pool : ∀ (prog : List Decl) (pool : List Const),
    ∃ extra, (programCode prog pool).2 = pool ++ extra
  | [], pool => ⟨[], (List.append_nil _).symm⟩
  | d :: prog, pool => by
    obtain ⟨a, ha⟩ := Decl.code_pool d pool
    obtain ⟨b, hb⟩ := programCode_pool prog (d.code pool).2
    exact ⟨a ++ b, by show (programCode prog (d.code pool).2).2 = _; rw [hb, ha, List.append_assoc]⟩

namespace Compiler

/-! ## Recovering after an error -/

theorem keeps_synchronize_go : ∀ fuel, Keeps (synchronize.go fuel)
  | 0 => keeps_pure _
  | fuel + 1 => by
    rw [synchronize.go]
    exact keeps_get.bind fun _ => keeps_ite (keeps_pure _) (keeps_advance.bind fun _ => keeps_synchronize_go fuel)

theorem keeps_synchronize : Keeps synchronize := by
  intro s
  rw [synchronize, run_bind, run_modify, run_get_bind]
  refine Follows.trans ?_ (keeps_synchronize_go _ _)
  exact Follows.of_heap rfl id

theorem keeps_expression : Keeps expression :=
  keeps_get.bind fun _ => (keeps_parse _).1 _

theorem keeps_settle : Keeps (get >>= fun x => if x.panicMode = true then synchronize else pure ()) :=
  keeps_get.bind fun _ => keeps_ite keeps_synchronize (keeps_pure _)

variable {s : Compiler} {base : List UInt8} {pool : List Const} {ts rest : List Token}
  {res : List UInt8 × List Const}

/-- With no error being suppressed, a declaration ends without recovery. -/
theorem Reached.settle (h : Reached base res rest s) :
    Reached base res rest ((get >>= fun x => if x.panicMode = true then synchronize else pure ()).run s).2 :=
  h.step rfl keeps_settle fun hAt => by
    rw [run_get_bind, if_neg (by rw [hAt.panicMode]; exact Bool.false_ne_true)]
    exact hAt

theorem At.reached (hAt : At s ts base pool) : Reached base ([], pool) ts s := by
  rw [Reached, if_pos hAt.bound, List.append_nil]
  exact hAt

/-- An expression with the compiler's fuel, from a reached state. -/
theorem Reached.expression (h : Reached base res rest s) (hEnds : EndsEof rest) :
    Outcome (base ++ res.1) res.2 (parseExpression rest) (expression.run s).2 := by
  rw [Compiler.expression, run_get_bind]
  by_cases hFit : res.2.length ≤ Chunk.maxConstants
  · have hAt := h.at hFit
    rw [hAt.tokens]
    exact parsePrecedence_sim _ _ _ _ _ _ hAt hEnds (Nat.le_succ_of_le (length_le_pop rest)) (by decide)
  · refine Outcome.of_hadError (((keeps_parse _).1 _).hadError (h.hadError hFit)) fun e _ _ => ?_
    obtain ⟨extra, hExtra⟩ := e.code_pool res.2
    rw [hExtra, List.length_append]
    omega

/-! ## Declarations -/

/-- What the compiler leaves for an answer of the reference parser of declarations. -/
def DeclOutcome (base : List UInt8) (pool : List Const) : Option (Decl × List Token) → Compiler → Prop
  | none, s => s.hadError = true
  | some (d, rest), s => Reached base (d.code pool) rest s

/-- The `;` that ends a declaration, and what the compiler does after it. -/
theorem semicolon_sim {mk : Token → Decl} {k : M Unit} {message : String}
    (h : Reached base res rest s) (hPool : ∀ semi, ((mk semi).code pool).2 = res.2) (hk : Keeps k)
    (hStep : ∀ {s' : Compiler} {rest' : List Token} (semi : Token),
      At s' rest' (base ++ res.1) res.2 → Reached base ((mk semi).code pool) rest' (k.run s').2) :
    DeclOutcome base pool (semicolonThen mk rest) ((consume .semicolon message >>= fun _ => k).run s).2 := by
  rw [run_bind, semicolonThen]
  by_cases hSemi : (pop rest).1.kind = .semicolon
  · rw [if_pos hSemi]
    cases hAdv : advance? rest with
    | none =>
      exact hk.hadError (h.records (keeps_consume _ _) fun hAt => hAt.consume_records_of_advance hSemi hAdv)
    | some rest' =>
      by_cases hFit : res.2.length ≤ Chunk.maxConstants
      · exact hStep _ ((h.at hFit).consume hSemi hAdv)
      · exact Reached.of_hadError (hk.hadError ((keeps_consume _ _).hadError (h.hadError hFit)))
          (by rw [hPool]; omega)
  · rw [if_neg hSemi]
    exact hk.hadError (h.records (keeps_consume _ _) fun hAt => hAt.consume_records hSemi)

/-- An expression and the `;` after it, then what the compiler does after the `;`. -/
theorem parseThenSemicolon_sim {mk : Expr → Token → Decl} {k : M Unit} {message : String}
    (h : Reached base res rest s) (hEnds : EndsEof rest)
    (hPool : ∀ e semi, ((mk e semi).code pool).2 = (e.code res.2).2) (hk : Keeps k)
    (hStep : ∀ {s' : Compiler} {rest' : List Token} (e : Expr) (semi : Token),
      At s' rest' (base ++ (res.1 ++ (e.code res.2).1)) (e.code res.2).2 →
        Reached base ((mk e semi).code pool) rest' (k.run s').2) :
    DeclOutcome base pool (parseThenSemicolon mk rest)
      ((expression >>= fun _ => consume .semicolon message >>= fun _ => k).run s).2 := by
  have hIn := h.expression hEnds
  rw [run_bind]
  generalize (expression.run s).2 = s₁ at hIn ⊢
  unfold parseThenSemicolon
  cases hR : parseExpression rest with
  | none =>
    rw [hR] at hIn
    exact ((keeps_consume _ _).bind fun _ => hk).hadError hIn
  | some r =>
    obtain ⟨e, rest₁⟩ := r
    rw [hR] at hIn
    exact semicolon_sim (Reached.of_emitted hIn) (fun semi => hPool e semi) hk fun semi => hStep e semi

/-- Emitting the last instructions of a declaration from the clean state. -/
theorem At.reached_of_code {d : Decl} {code : List UInt8} {p : List Const} (hAt : At s rest code p)
    (hCode : base ++ (d.code pool).1 = code) (hPool : (d.code pool).2 = p) :
    Reached base (d.code pool) rest s := by
  rw [Reached, if_pos (hPool ▸ hAt.bound), hCode, hPool]
  exact hAt

theorem keeps_infoStatement : Keeps infoStatement :=
  keeps_expression.bind fun _ => (keeps_consume _ _).bind fun _ => keeps_emitOp _

theorem keeps_expressionStatement : Keeps expressionStatement :=
  keeps_expression.bind fun _ => (keeps_consume _ _).bind fun _ => keeps_emitOp _

theorem keeps_parseVariable (message : String) : Keeps (parseVariable message) :=
  (keeps_consume _ _).bind fun _ => keeps_get.bind fun _ => keeps_nameConstant _

/-- What a variable declaration does after reading the name. -/
theorem keeps_defineTail (global : Nat) : Keeps (do
    if ← accept .define then expression else emitOp .nil
    consume .semicolon "Expect ';' after variable declaration."
    emitOp .defineGlobal
    emit global.toUInt8) :=
  (keeps_accept _).bind fun _ =>
    keeps_ite (keeps_expression.bind fun _ => (keeps_consume _ _).bind fun _ =>
        (keeps_emitOp _).bind fun _ => keeps_emit _)
      ((keeps_emitOp _).bind fun _ => (keeps_consume _ _).bind fun _ =>
        (keeps_emitOp _).bind fun _ => keeps_emit _)

theorem keeps_varDeclaration : Keeps varDeclaration :=
  (keeps_parseVariable _).bind keeps_defineTail

theorem keeps_statement : Keeps statement :=
  (keeps_accept _).bind fun _ => keeps_ite keeps_infoStatement keeps_expressionStatement

theorem infoStatement_sim (hAt : At s ts base pool) (hEnds : EndsEof ts) (kw : Token) :
    DeclOutcome base pool (parseThenSemicolon (.info kw) ts) (infoStatement.run s).2 :=
  parseThenSemicolon_sim hAt.reached hEnds (fun _ _ => rfl) (keeps_emitOp _) fun e semi hAt' =>
    (hAt'.emitOp Op.info).reached_of_code (by simp [Decl.code]) rfl

theorem expressionStatement_sim (hAt : At s ts base pool) (hEnds : EndsEof ts) :
    DeclOutcome base pool (parseThenSemicolon .expr ts) (expressionStatement.run s).2 :=
  parseThenSemicolon_sim hAt.reached hEnds (fun _ _ => rfl) (keeps_emitOp _) fun e semi hAt' =>
    (hAt'.emitOp Op.pop).reached_of_code (by simp [Decl.code]) rfl

theorem statement_sim (hAt : At s ts base pool) (hEnds : EndsEof ts) :
    DeclOutcome base pool (Decl.parseStatement ts) (statement.run s).2 := by
  rw [statement, run_bind]
  unfold Decl.parseStatement
  dsimp only
  by_cases hInfo : (pop ts).1.kind = .infoKw
  · rw [if_pos hInfo, hAt.accept_of_eq hInfo]
    dsimp only
    rw [if_pos rfl]
    cases hAdv : advance? ts with
    | none => exact keeps_infoStatement.hadError (hAt.advance_records hAdv)
    | some ts₁ =>
      obtain ⟨-, hEnds₁⟩ := advance?_sound hEnds (by rw [hInfo]; decide) hAdv
      exact infoStatement_sim (hAt.advance hAdv).1 hEnds₁ _
  · rw [if_neg hInfo, hAt.accept_of_ne hInfo]
    dsimp only
    rw [if_neg Bool.false_ne_true]
    exact expressionStatement_sim hAt hEnds

/-- A variable's name: moving past it and finding its constant. -/
theorem At.parseVariable (hAt : At s ts base pool) (message : String) {ts₁ : List Token}
    (hIdent : (pop ts).1.kind = .ident) (hAdv : advance? ts = some ts₁) :
    Reached base ([], (addName pool (pop ts).1.text).2) ts₁ ((Compiler.parseVariable message).run s).2 ∧
      ((addName pool (pop ts).1.text).2.length ≤ Chunk.maxConstants →
        ((Compiler.parseVariable message).run s).1 = (addName pool (pop ts).1.text).1) ∧
      ((Compiler.parseVariable message).run s).2.current = (pop ts₁).1 := by
  rw [Compiler.parseVariable, run_bind, run_consume_of_eq (by rw [hAt.current]; exact hIdent),
    run_get_bind]
  obtain ⟨hAt₁, hPrev⟩ := hAt.advance hAdv
  rw [hPrev]
  obtain ⟨hName, hArg⟩ := hAt₁.nameConstant_reached (pop ts).1
  exact ⟨hName, hArg, (nameConstant_current _ _).trans hAt₁.current⟩

theorem varDeclaration_sim (hAt : At s ts base pool) (hEnds : EndsEof ts) (kw : Token) :
    DeclOutcome base pool (Decl.parseVar kw ts) (varDeclaration.run s).2 := by
  rw [varDeclaration, run_bind]
  unfold Decl.parseVar
  dsimp only
  by_cases hIdent : (pop ts).1.kind = .ident
  · rw [if_pos hIdent]
    cases hAdv : advance? ts with
    | none =>
      refine (keeps_defineTail _).hadError ?_
      rw [Compiler.parseVariable, run_bind]
      exact (keeps_get.bind fun _ => keeps_nameConstant _).hadError (hAt.consume_records_of_advance hIdent hAdv)
    | some ts₁ =>
      obtain ⟨-, hEnds₁⟩ := advance?_sound hEnds (by rw [hIdent]; decide) hAdv
      obtain ⟨hName, hArg, hCur⟩ := hAt.parseVariable "Expect variable name." hIdent hAdv
      generalize ((Compiler.parseVariable "Expect variable name.").run s).1 = arg at hArg ⊢
      generalize ((Compiler.parseVariable "Expect variable name.").run s).2 = s₁ at hName hCur ⊢
      simp only [Option.bind_eq_bind, Option.bind_some]
      -- The constant of the name comes first, so it fits when the pool after the value does.
      have hArg' : ∀ e : Expr, (e.code (addName pool (pop ts).1.text).2).2.length ≤ Chunk.maxConstants →
          arg = (addName pool (pop ts).1.text).1 := fun e h => hArg <| by
        obtain ⟨extra, hExtra⟩ := e.code_pool (addName pool (pop ts).1.text).2
        rw [hExtra, List.length_append] at h
        omega
      by_cases hDef : (pop ts₁).1.kind = .define
      · rw [if_pos hDef, run_bind, run_accept_of_eq (by rw [hCur]; exact hDef)]
        dsimp only
        rw [if_pos rfl]
        cases hAdv₁ : advance? ts₁ with
        | none =>
          exact (keeps_expression.bind fun _ => (keeps_consume _ _).bind fun _ =>
            (keeps_emitOp _).bind fun _ => keeps_emit _).hadError
              (hName.records keeps_advance fun hAt₁ => hAt₁.advance_records hAdv₁)
        | some ts₂ =>
          obtain ⟨-, hEnds₂⟩ := advance?_sound hEnds₁ (by rw [hDef]; decide) hAdv₁
          simp only [Option.bind_some]
          refine parseThenSemicolon_sim (hName.step rfl keeps_advance fun hAt₁ => (hAt₁.advance hAdv₁).1)
            hEnds₂ (fun _ _ => rfl) ((keeps_emitOp _).bind fun _ => keeps_emit _) fun e semi hAt₂ => ?_
          rw [run_bind, hArg' e hAt₂.bound]
          exact ((hAt₂.emitOp _).emit _).reached_of_code (by simp [Decl.code]) rfl
      · rw [if_neg hDef, run_bind, run_accept_of_ne (by rw [hCur]; exact hDef)]
        dsimp only
        rw [if_neg Bool.false_ne_true, run_bind]
        have hNil : Reached base ([Op.nil.code], (addName pool (pop ts).1.text).2) ts₁ ((emitOp .nil).run s₁).2 :=
          hName.step rfl (keeps_emitOp _) fun hAt₁ => by simpa using hAt₁.emitOp Op.nil
        refine semicolon_sim hNil (fun _ => rfl) ((keeps_emitOp _).bind fun _ => keeps_emit _) fun semi hAt₂ => ?_
        rw [run_bind, hArg hAt₂.bound]
        exact ((hAt₂.emitOp _).emit _).reached_of_code (by simp [Decl.code]) rfl
  · rw [if_neg hIdent]
    refine (keeps_defineTail _).hadError ?_
    rw [Compiler.parseVariable, run_bind]
    exact (keeps_get.bind fun _ => keeps_nameConstant _).hadError (hAt.consume_records hIdent)

/-- Recovery runs only after an error, which it keeps. -/
theorem DeclOutcome.settle {r : Option (Decl × List Token)} (h : DeclOutcome base pool r s) :
    DeclOutcome base pool r ((get >>= fun x => if x.panicMode = true then synchronize else pure ()).run s).2 :=
  match r, h with
  | none, h => keeps_settle.hadError h
  | some (_, _), h => Reached.settle h

theorem declaration_sim (hAt : At s ts base pool) (hEnds : EndsEof ts) :
    DeclOutcome base pool (Decl.parse ts) (declaration.run s).2 := by
  rw [declaration, run_bind]
  unfold Decl.parse
  dsimp only
  by_cases hVar : (pop ts).1.kind = .varKw
  · rw [if_pos hVar, hAt.accept_of_eq hVar]
    dsimp only
    rw [if_pos rfl, run_bind]
    cases hAdv : advance? ts with
    | none => exact keeps_settle.hadError (keeps_varDeclaration.hadError (hAt.advance_records hAdv))
    | some ts₁ =>
      obtain ⟨-, hEnds₁⟩ := advance?_sound hEnds (by rw [hVar]; decide) hAdv
      exact (varDeclaration_sim (hAt.advance hAdv).1 hEnds₁ _).settle
  · rw [if_neg hVar, hAt.accept_of_ne hVar]
    dsimp only
    rw [if_neg Bool.false_ne_true, run_bind]
    exact (statement_sim hAt hEnds).settle

theorem keeps_declaration : Keeps declaration :=
  (keeps_accept _).bind fun _ =>
    keeps_ite (keeps_varDeclaration.bind fun _ => keeps_settle) (keeps_statement.bind fun _ => keeps_settle)

theorem keeps_declarations : ∀ fuel, Keeps (declarations fuel)
  | 0 => keeps_pure _
  | fuel + 1 => (keeps_accept _).bind fun _ =>
    keeps_ite (keeps_pure _) (keeps_declaration.bind fun _ => keeps_declarations fuel)

/-! ## Programs -/

/-- What the compiler leaves for an answer of the reference parser of programs. -/
def ProgOutcome (base : List UInt8) (pool : List Const) : Option (List Decl) → Compiler → Prop
  | none, s => s.hadError = true
  | some prog, s => ∃ rest, Reached base (programCode prog pool) rest s

theorem Reached.append_base {c : List UInt8} {r : List UInt8 × List Const}
    (h : Reached (base ++ c) r rest s) : Reached base (c ++ r.1, r.2) rest s := by
  simpa only [Reached, List.append_assoc] using h

/-- The declarations of a terminated stream, read by the compiler's loop with the same fuel as
`parseProgram`. -/
theorem declarations_sim : ∀ (fuel : Nat) (s : Compiler) (ts : List Token) (base : List UInt8)
    (pool : List Const), At s ts base pool → Terminated ts → ts.length ≤ fuel →
      ProgOutcome base pool (parseProgram fuel ts) ((declarations fuel).run s).2
  | 0, _, _, _, _, _, hTerm, hLen =>
    absurd (List.eq_nil_of_length_eq_zero (Nat.le_zero.mp hLen)) hTerm.endsEof.ne_nil
  | fuel + 1, s, ts, base, pool, hAt, hTerm, hLen => by
    rw [declarations, run_bind]
    simp only [parseProgram]
    by_cases hEof : (pop ts).1.kind = .eof
    · -- The end of input: the loop stops having moved past it.
      rw [if_pos hEof, hAt.accept_of_eq hEof]
      dsimp only
      rw [if_pos rfl]
      cases hAdv : advance? ts with
      | none => exact hAt.advance_records hAdv
      | some ts₁ => exact ⟨ts₁, (hAt.advance hAdv).1.reached⟩
    · rw [if_neg hEof, hAt.accept_of_ne hEof]
      dsimp only
      rw [if_neg Bool.false_ne_true, run_bind]
      have hDecl := declaration_sim hAt hTerm.endsEof
      generalize (declaration.run s).2 = s₁ at hDecl ⊢
      cases hR : Decl.parse ts with
      | none =>
        rw [hR] at hDecl
        exact (keeps_declarations fuel).hadError hDecl
      | some r =>
        obtain ⟨d, ts₁⟩ := r
        rw [hR] at hDecl
        simp only [Option.bind_eq_bind, Option.bind_some]
        obtain ⟨hts, -, hEnds₁⟩ := Decl.parse_sound hTerm.endsEof hR
        by_cases hFit : (d.code pool).2.length ≤ Chunk.maxConstants
        · have hTerm₁ : Terminated ts₁ := (hts ▸ hTerm).of_append hEnds₁.ne_nil
          have hLen₁ : ts₁.length ≤ fuel := by
            have := congrArg List.length hts
            have := List.length_pos_iff.mpr d.yield_ne_nil
            simp only [List.length_append] at *
            omega
          have ih := declarations_sim fuel s₁ ts₁ _ _ (hDecl.at hFit) hTerm₁ hLen₁
          cases hP : parseProgram fuel ts₁ with
          | none =>
            rw [hP] at ih
            exact ih
          | some prog =>
            rw [hP] at ih
            obtain ⟨rest, hRest⟩ := ih
            exact ⟨rest, hRest.append_base⟩
        · -- The pool overflowed in this declaration, and every program after it keeps it so.
          have hErr := (keeps_declarations fuel).hadError (hDecl.hadError hFit)
          cases hP : parseProgram fuel ts₁ with
          | none => exact hErr
          | some prog =>
            refine ⟨[], Reached.of_hadError hErr ?_⟩
            obtain ⟨extra, hExtra⟩ := programCode_pool prog (d.code pool).2
            show Chunk.maxConstants < (programCode prog (d.code pool).2).2.length
            rw [hExtra, List.length_append]
            omega

/-! ## Compiling a source -/

/-- After moving to the first token, which is no error, the compiler is clean with nothing
emitted. -/
theorem start_at (name : String) {toks : List Token} {heap : Heap} (hHeap : heap.WF)
    (hErr : (pop toks).1.kind ≠ .error) : At (advance.run (start toks heap name)).2 toks [] [] := by
  rw [run_advance hErr]
  exact ⟨rfl, rfl, rfl, rfl, rfl,
    ⟨hHeap, rfl, (fun _ _ h => nomatch h), (fun _ _ _ => rfl), (fun _ h => nomatch h)⟩, by decide⟩

/-- What a compile leaves for the answer of the reference parser: an error for a failure, else the
program's code and the return, with its pool. -/
def RunOutcome : Option (List Decl) → Compiler → Prop
  | none, s => s.hadError = true
  | some prog, s => ∃ rest, Reached [] ((programCode prog []).1 ++ [Op.ret.code], (programCode prog []).2) rest s

theorem run_sim (name : String) {toks : List Token} {heap : Heap} (hHeap : heap.WF) (hTerm : Terminated toks) :
    RunOutcome (parseProgram (toks.length + 1) toks)
      (((do advance; declarations (toks.length + 1); emitOp .ret : M Unit)).run (start toks heap name)).2 := by
  rw [run_bind]
  by_cases hErr : (pop toks).1.kind = .error
  · -- An error token first: nothing derives the stream, and the error stays.
    have hNone : parseProgram (toks.length + 1) toks = none := by
      cases hP : parseProgram (toks.length + 1) toks with
      | none => rfl
      | some prog =>
        obtain ⟨hWF, t, ht, hts⟩ := parseProgram_sound _ _ _ hTerm hP
        exact absurd hErr (Derives.kind_ne_error ⟨hWF, t, ht, hts⟩ _ (pop_fst_mem hTerm.endsEof.ne_nil))
    rw [hNone]
    exact ((keeps_declarations _).bind fun _ => keeps_emitOp _).hadError (advance_records rfl hErr)
  · have hProg := declarations_sim _ _ _ _ _ (start_at name hHeap hErr) hTerm (Nat.le_succ _)
    rw [run_bind]
    generalize ((declarations (toks.length + 1)).run (advance.run (start toks heap name)).2).2 = s at hProg ⊢
    cases hP : parseProgram (toks.length + 1) toks with
    | none =>
      rw [hP] at hProg
      exact (keeps_emitOp _).hadError hProg
    | some prog =>
      rw [hP] at hProg
      obtain ⟨rest, hReached⟩ := hProg
      refine ⟨rest, hReached.step rfl (keeps_emitOp _) fun hAt => ?_⟩
      simpa using hAt.emitOp Op.ret

end Compiler

/-- Compiling only adds strings to the heap. -/
theorem compile_grows (src : Bytes) (heap : Heap) (name : String) : heap.Grows (compile src heap name).heap := by
  simp only [compile]
  exact ((keeps_advance.bind fun _ => (keeps_declarations _).bind fun _ => keeps_emitOp _)
    (start _ heap _)).heap

/-- A clean compile of a source the grammar derives holds the program's postfix code and the
return, with a pool that fits the chunk and whose constants the chunk holds as the values they
denote in the heap after the compile. -/
theorem compile_chunk (src : Bytes) (heap : Heap) (name : String) (hHeap : heap.WF) {prog : List Decl}
    (hProg : Derives prog (Scanner.scan src).1) (hClean : (compile src heap name).failure = none) :
    (compile src heap name).chunk.code.toList = (programCode prog []).1 ++ [Op.ret.code] ∧
      (programCode prog []).2.length ≤ Chunk.maxConstants ∧
      (compile src heap name).chunk.constants.size = (programCode prog []).2.length ∧
      ∀ (i : Nat) (k : Const), (programCode prog []).2[i]? = some k →
        ∃ v, (compile src heap name).chunk.constants[i]? = some v ∧ k.Denotes (compile src heap name).heap v := by
  have hTerm := Scanner.scan_terminated src
  have hRun := run_sim (if name.isEmpty then "<script>" else name) hHeap hTerm
  simp only [compile] at hClean ⊢
  generalize (Scanner.scan src).1 = toks at hTerm hRun hProg hClean ⊢
  rw [parseProgram_complete prog toks _ hProg (Nat.le_succ _)] at hRun
  obtain ⟨rest, hReached⟩ := hRun
  generalize ((do advance; declarations (toks.length + 1); emitOp .ret : M Unit).run
    (start toks heap (if name.isEmpty then "<script>" else name))).2 = s at hReached hClean ⊢
  have hFits := hReached.fits (by cases h : s.hadError <;> simp_all)
  have hAt := hReached.at hFits
  exact ⟨by rw [hAt.code, List.nil_append], hFits, hAt.rel.size, hAt.rel.consts⟩

end StackScript
