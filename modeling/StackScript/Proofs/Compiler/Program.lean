import StackScript.Proofs.Compiler.Parse

/-! # Reading declarations and programs

`Decl.parse` and `parseProgram` read declarations the way the compiler does, each expression
with the compiler's fuel, and stop at the end of input. They are sound and complete for
`Derives` on streams whose only end-of-input token is the last one, which makes the derivation
of a token list unique (`derives_unique`).
-/

namespace StackScript

set_option autoImplicit false

open Compiler (pop)

/-- The `;` that ends a declaration, then the stream after it; `mk` makes the declaration. -/
def semicolonThen (mk : Token → Decl) (ts : List Token) : Option (Decl × List Token) :=
  let semi := (pop ts).1
  if semi.kind = .semicolon then (advance? ts).map fun ts => (mk semi, ts) else none

/-- An expression at the loosest level, with the fuel the compiler gives it. -/
def parseExpression (ts : List Token) : Option (Expr × List Token) :=
  Expr.parse ((pop ts).2.length + 2) assignPrecedence ts

/-- An expression and the `;` after it; `mk` makes the declaration. -/
def parseThenSemicolon (mk : Expr → Token → Decl) (ts : List Token) : Option (Decl × List Token) := do
  let (e, ts) ← parseExpression ts
  semicolonThen (mk e) ts

/-- The rest of a variable declaration after `var`. -/
def Decl.parseVar (kw : Token) (ts : List Token) : Option (Decl × List Token) :=
  let x := (pop ts).1
  if x.kind = .ident then do
    let ts ← advance? ts
    let d := (pop ts).1
    if d.kind = .define then do
      let ts ← advance? ts
      parseThenSemicolon (fun e => .var kw x (some (d, e))) ts
    else semicolonThen (.var kw x none) ts
  else none

/-- An `info` statement or an expression statement. -/
def Decl.parseStatement (ts : List Token) : Option (Decl × List Token) :=
  let kw := (pop ts).1
  if kw.kind = .infoKw then (advance? ts).bind (parseThenSemicolon (.info kw))
  else parseThenSemicolon .expr ts

/-- Reads one declaration from a stream whose current token is its first. -/
def Decl.parse (ts : List Token) : Option (Decl × List Token) :=
  let kw := (pop ts).1
  if kw.kind = .varKw then (advance? ts).bind (Decl.parseVar kw) else Decl.parseStatement ts

/-- Reads declarations up to the end of input, at most `fuel` of them less one. -/
def parseProgram : Nat → List Token → Option (List Decl)
  | 0, _ => none
  | fuel + 1, ts =>
    if (pop ts).1.kind = .eof then (advance? ts).map fun _ => []
    else do
      let (d, ts) ← Decl.parse ts
      let prog ← parseProgram fuel ts
      pure (d :: prog)

/-- A stream whose last token, and only that one, is the end of input: what the scanner
makes. -/
def Terminated (ts : List Token) : Prop :=
  ∃ r t, ts = r ++ [t] ∧ t.kind = .eof ∧ ∀ u ∈ r, u.kind ≠ .eof

theorem Terminated.endsEof {ts : List Token} (h : Terminated ts) : EndsEof ts :=
  let ⟨r, t, hts, ht, _⟩ := h
  ⟨r, t, hts, ht⟩

theorem Terminated.of_append {a b : List Token} (h : Terminated (a ++ b)) (hb : b ≠ []) :
    Terminated b := by
  obtain ⟨r, t, hEq, ht, hr⟩ := h
  obtain ⟨b', x, rfl⟩ := (List.eq_nil_or_concat b).resolve_left hb
  rw [List.concat_eq_append] at hEq ⊢
  rw [← List.append_assoc] at hEq
  obtain ⟨hInit, hLast⟩ := List.append_inj' hEq rfl
  cases hLast
  exact ⟨b', _, rfl, ht, fun u hu => hr u (hInit ▸ List.mem_append_right a hu)⟩

/-- At the end of input a terminated stream has nothing after it. -/
theorem Terminated.eq_single {ts : List Token} (h : Terminated ts) (hEof : (pop ts).1.kind = .eof) :
    ∃ t, ts = [t] ∧ t.kind = .eof := by
  obtain ⟨r, t, rfl, ht, hr⟩ := h
  cases r with
  | nil => exact ⟨t, rfl, ht⟩
  | cons u r =>
    rw [List.cons_append, pop_cons_fst] at hEof
    exact absurd hEof (hr u List.mem_cons_self)

/-! ## Soundness -/

theorem semicolonThen_sound {mk : Token → Decl} {ts rest : List Token} {d : Decl}
    (hEnds : EndsEof ts) (h : semicolonThen mk ts = some (d, rest)) :
    ∃ semi, d = mk semi ∧ semi.kind = .semicolon ∧ ts = semi :: rest ∧ EndsEof rest := by
  obtain ⟨semi, ts₁, hPop⟩ : ∃ semi ts₁, pop ts = (semi, ts₁) := ⟨_, _, rfl⟩
  simp only [semicolonThen, hPop] at h
  split at h
  · rename_i hSemi
    obtain ⟨ts', hAdv, hEq⟩ := Option.map_eq_some_iff.mp h
    cases hEq
    obtain ⟨rfl, -⟩ := advance?_eq_some_of_pop hPop hAdv
    obtain ⟨hts, hEnds₁⟩ := hEnds.split hPop (by rw [hSemi]; decide)
    exact ⟨semi, rfl, hSemi, hts, hEnds₁⟩
  · cases h

theorem parseExpression_sound {ts rest : List Token} {e : Expr} (hEnds : EndsEof ts)
    (h : parseExpression ts = some (e, rest)) :
    ts = e.yield ++ rest ∧ e.WF ∧ (pop rest).1.kind ≠ .error ∧ EndsEof rest := by
  have hParses := Expr.parse_sound _ _ ts e rest hEnds (by decide) h
  exact ⟨hParses.1, hParses.2.1, hParses.2.2.2.not_error, hParses.endsEof hEnds⟩

/-- After a keyword the stream goes on with its rest. -/
theorem advance?_sound {ts ts' : List Token} (hEnds : EndsEof ts) (hk : (pop ts).1.kind ≠ .eof)
    (h : advance? ts = some ts') : ts = (pop ts).1 :: ts' ∧ EndsEof ts' := by
  obtain ⟨rfl, -⟩ := advance?_eq_some.mp h
  exact hEnds.pop_eq hk

theorem parseThenSemicolon_sound {mk : Expr → Token → Decl} {ts rest : List Token} {d : Decl}
    (hEnds : EndsEof ts) (h : parseThenSemicolon mk ts = some (d, rest)) :
    ∃ e semi, d = mk e semi ∧ e.WF ∧ semi.kind = .semicolon ∧ ts = e.yield ++ semi :: rest ∧
      EndsEof rest := by
  obtain ⟨⟨e, ts₁⟩, hExpr, h⟩ := Option.bind_eq_some_iff.mp h
  obtain ⟨hts, hWF, -, hEnds₁⟩ := parseExpression_sound hEnds hExpr
  obtain ⟨semi, rfl, hSemi, hts₁, hRest⟩ := semicolonThen_sound hEnds₁ h
  exact ⟨e, semi, rfl, hWF, hSemi, hts₁ ▸ hts, hRest⟩

/-- What `Decl.parse` reads is a declaration of the grammar. -/
theorem Decl.parse_sound {ts rest : List Token} {d : Decl} (hEnds : EndsEof ts)
    (h : Decl.parse ts = some (d, rest)) : ts = d.yield ++ rest ∧ d.WF ∧ EndsEof rest := by
  dsimp only [Decl.parse] at h
  split at h
  · -- `var`
    rename_i hVar
    obtain ⟨ts₁, hAdv₁, h⟩ := Option.bind_eq_some_iff.mp h
    obtain ⟨hts, hEnds₁⟩ := advance?_sound hEnds (by rw [hVar]; decide) hAdv₁
    dsimp only [Decl.parseVar] at h
    split at h
    · rename_i hIdent
      obtain ⟨ts₂, hAdv₂, h⟩ := Option.bind_eq_some_iff.mp h
      obtain ⟨hts₁, hEnds₂⟩ := advance?_sound hEnds₁ (by rw [hIdent]; decide) hAdv₂
      split at h
      · rename_i hDefine
        obtain ⟨ts₃, hAdv₃, h⟩ := Option.bind_eq_some_iff.mp h
        obtain ⟨hts₂, hEnds₃⟩ := advance?_sound hEnds₂ (by rw [hDefine]; decide) hAdv₃
        obtain ⟨e, semi, rfl, hWF, hSemi, hts₃, hRest⟩ := parseThenSemicolon_sound hEnds₃ h
        refine ⟨?_, ⟨hVar, hIdent, hDefine, hWF, hSemi⟩, hRest⟩
        rw [hts, hts₁, hts₂, hts₃]
        simp [Decl.yield]
      · obtain ⟨semi, rfl, hSemi, hts₂, hRest⟩ := semicolonThen_sound hEnds₂ h
        refine ⟨?_, ⟨hVar, hIdent, hSemi⟩, hRest⟩
        rw [hts, hts₁, hts₂]
        rfl
    · cases h
  · dsimp only [Decl.parseStatement] at h
    split at h
    · -- `info`
      rename_i hInfo
      obtain ⟨ts₁, hAdv₁, h⟩ := Option.bind_eq_some_iff.mp h
      obtain ⟨hts, hEnds₁⟩ := advance?_sound hEnds (by rw [hInfo]; decide) hAdv₁
      obtain ⟨e, semi, rfl, hWF, hSemi, hts₁, hRest⟩ := parseThenSemicolon_sound hEnds₁ h
      refine ⟨?_, ⟨hInfo, hWF, hSemi⟩, hRest⟩
      rw [hts, hts₁]
      simp [Decl.yield]
    · -- an expression statement
      obtain ⟨e, semi, rfl, hWF, hSemi, hts, hRest⟩ := parseThenSemicolon_sound hEnds h
      refine ⟨?_, ⟨hWF, hSemi⟩, hRest⟩
      rw [hts]
      simp [Decl.yield]

theorem parseProgram_sound :
    ∀ (fuel : Nat) (ts : List Token) (prog : List Decl), Terminated ts →
      parseProgram fuel ts = some prog → Derives prog ts := by
  intro fuel
  induction fuel with
  | zero => intro ts prog _ h; cases h
  | succ fuel ih =>
    intro ts prog hTerm h
    dsimp only [parseProgram] at h
    split at h
    · rename_i hEof
      obtain ⟨_, -, rfl⟩ := Option.map_eq_some_iff.mp h
      obtain ⟨t, rfl, ht⟩ := hTerm.eq_single hEof
      exact ⟨by simp, t, ht, rfl⟩
    · obtain ⟨⟨d, ts₁⟩, hDecl, h⟩ := Option.bind_eq_some_iff.mp h
      obtain ⟨prog', hProg, h⟩ := Option.bind_eq_some_iff.mp h
      cases h
      obtain ⟨hts, hWF, hEnds₁⟩ := Decl.parse_sound hTerm.endsEof hDecl
      obtain ⟨hAll, t, ht, hts₁⟩ := ih ts₁ prog' (hts ▸ hTerm |>.of_append hEnds₁.ne_nil) hProg
      refine ⟨?_, t, ht, ?_⟩
      · intro d' hMem
        rcases List.mem_cons.mp hMem with rfl | hMem
        · exact hWF
        · exact hAll d' hMem
      · rw [hts, hts₁]
        simp

/-! ## Completeness -/

theorem Decl.first_token {d : Decl} (hWF : d.WF) :
    ∃ t r, d.yield = t :: r ∧ t.kind ≠ .error ∧ t.kind ≠ .eof := by
  match d, hWF with
  | .var kw x none semi, ⟨hKw, _⟩ => exact ⟨kw, _, rfl, by rw [hKw]; decide, by rw [hKw]; decide⟩
  | .var kw x (some (_, _)) semi, ⟨hKw, _⟩ =>
    exact ⟨kw, _, rfl, by rw [hKw]; decide, by rw [hKw]; decide⟩
  | .info kw e semi, ⟨hKw, _⟩ => exact ⟨kw, _, rfl, by rw [hKw]; decide, by rw [hKw]; decide⟩
  | .expr e semi, ⟨hWF, _⟩ =>
    obtain ⟨t, r, hYield, hStarts⟩ := e.first_token hWF
    exact ⟨t, r ++ [semi], by simp [Decl.yield, hYield], ne_of_startsExpr hStarts rfl,
      ne_of_startsExpr hStarts rfl⟩

/-- A stream that goes on after a declaration: its next token is one the grammar reads. -/
def Continues (rest : List Token) : Prop := rest ≠ [] ∧ (pop rest).1.kind ≠ .error

theorem semicolonThen_complete {mk : Token → Decl} {semi : Token} {rest : List Token}
    (hSemi : semi.kind = .semicolon) (hRest : Continues rest) :
    semicolonThen mk (semi :: rest) = some (mk semi, rest) := by
  simp only [semicolonThen, pop_cons_fst, hSemi, advance?_cons hRest.1 hRest.2]
  rfl

theorem ends_semicolon {p : Nat} {semi : Token} {r : List Token} (h : semi.kind = .semicolon) :
    Ends p (semi :: r) :=
  ⟨semi, r, rfl, by rw [h]; decide, by simp [continues, h, infixPrecedence]⟩

theorem parseExpression_complete {e : Expr} {semi : Token} {rest : List Token} (hWF : e.WF)
    (hSemi : semi.kind = .semicolon) (hEnds : EndsEof (e.yield ++ semi :: rest)) :
    parseExpression (e.yield ++ semi :: rest) = some (e, semi :: rest) := by
  refine Expr.parse_complete _ e _ _ hWF (e.assignPrecedence_le hWF) (ends_semicolon hSemi) hEnds ?_
  have := length_le_pop (e.yield ++ semi :: rest)
  omega

theorem parseThenSemicolon_complete {mk : Expr → Token → Decl} {e : Expr} {semi : Token}
    {rest : List Token} (hWF : e.WF) (hSemi : semi.kind = .semicolon)
    (hEnds : EndsEof (e.yield ++ semi :: rest)) (hRest : Continues rest) :
    parseThenSemicolon mk (e.yield ++ semi :: rest) = some (mk e semi, rest) := by
  simp only [parseThenSemicolon, parseExpression_complete hWF hSemi hEnds, Option.bind_eq_bind,
    Option.bind_some]
  exact semicolonThen_complete hSemi hRest

/-- `Decl.parse` reads every declaration of the grammar that the stream starts with. -/
theorem Decl.parse_complete {d : Decl} {rest : List Token} (hWF : d.WF)
    (hEnds : EndsEof (d.yield ++ rest)) (hRest : Continues rest) :
    Decl.parse (d.yield ++ rest) = some (d, rest) := by
  match d, hWF with
  | .var kw x none semi, ⟨hKw, hX, hSemi⟩ =>
    have hx : advance? (kw :: x :: semi :: rest) = some (x :: semi :: rest) :=
      advance?_cons (List.cons_ne_nil _ _) (by simp [hX])
    have hs : advance? (x :: semi :: rest) = some (semi :: rest) :=
      advance?_cons (List.cons_ne_nil _ _) (by simp [hSemi])
    simp only [Decl.yield, List.cons_append, List.nil_append, Decl.parse, Decl.parseVar, pop_cons_fst,
      hKw, hX, hSemi, if_true, hx, hs, Option.bind_eq_bind, Option.bind_some, reduceCtorEq, if_false]
    exact semicolonThen_complete hSemi hRest
  | .var kw x (some (d, e)) semi, ⟨hKw, hX, hD, hWF, hSemi⟩ =>
    obtain ⟨hFirst, -⟩ := e.pop_yield_append hWF (semi :: rest)
    have hx : advance? (kw :: x :: d :: (e.yield ++ semi :: rest)) =
        some (x :: d :: (e.yield ++ semi :: rest)) :=
      advance?_cons (List.cons_ne_nil _ _) (by simp [hX])
    have hd : advance? (x :: d :: (e.yield ++ semi :: rest)) = some (d :: (e.yield ++ semi :: rest)) :=
      advance?_cons (List.cons_ne_nil _ _) (by simp [hD])
    have he : advance? (d :: (e.yield ++ semi :: rest)) = some (e.yield ++ semi :: rest) :=
      advance?_cons (by simp) hFirst
    simp only [Decl.yield, List.cons_append, List.append_assoc, List.nil_append] at hEnds ⊢
    simp only [Decl.parse, Decl.parseVar, pop_cons_fst, hKw, hX, hD, if_true, hx, hd, he,
      Option.bind_eq_bind, Option.bind_some]
    exact parseThenSemicolon_complete hWF hSemi (EndsEof.of_append (a := [kw, x, d]) hEnds (by simp)) hRest
  | .info kw e semi, ⟨hKw, hWF, hSemi⟩ =>
    obtain ⟨hFirst, -⟩ := e.pop_yield_append hWF (semi :: rest)
    have he : advance? (kw :: (e.yield ++ semi :: rest)) = some (e.yield ++ semi :: rest) :=
      advance?_cons (by simp) hFirst
    simp only [Decl.yield, List.cons_append, List.append_assoc, List.nil_append] at hEnds ⊢
    simp only [Decl.parse, Decl.parseStatement, pop_cons_fst, hKw, if_true, he, Option.bind_some,
      reduceCtorEq, if_false]
    exact parseThenSemicolon_complete hWF hSemi (EndsEof.of_append (a := [kw]) hEnds (by simp)) hRest
  | .expr e semi, ⟨hWF, hSemi⟩ =>
    obtain ⟨t, r, hYield, hStarts⟩ := e.first_token hWF
    have hKind : (pop (e.yield ++ semi :: rest)).1 = t := by
      rw [hYield, List.cons_append, pop_cons_fst]
    have hNotVar : t.kind ≠ .varKw ∧ t.kind ≠ .infoKw :=
      ⟨ne_of_startsExpr hStarts rfl, ne_of_startsExpr hStarts rfl⟩
    simp only [Decl.yield, List.append_assoc, List.singleton_append] at hEnds ⊢
    simp only [Decl.parse, Decl.parseStatement, hKind, hNotVar.1, hNotVar.2, if_false]
    exact parseThenSemicolon_complete hWF hSemi hEnds hRest

/-- `parseProgram` reads every derivation, given fuel for the tokens. -/
theorem parseProgram_complete :
    ∀ (prog : List Decl) (ts : List Token) (fuel : Nat), Derives prog ts → ts.length ≤ fuel →
      parseProgram fuel ts = some prog := by
  intro prog
  induction prog with
  | nil =>
    rintro ts fuel ⟨-, t, ht, rfl⟩ hLen
    obtain ⟨fuel, rfl⟩ : ∃ f, fuel = f + 1 := ⟨fuel - 1, by simp at hLen; omega⟩
    simp [parseProgram, pop, ht, advance?]
  | cons d prog ih =>
    rintro ts fuel ⟨hAll, t, ht, rfl⟩ hLen
    have hWF := hAll d List.mem_cons_self
    have hTail : Derives prog (prog.flatMap Decl.yield ++ [t]) :=
      ⟨fun d' h => hAll d' (List.mem_cons_of_mem d h), t, ht, rfl⟩
    obtain ⟨u, r, hYield, -, hEof⟩ := d.first_token hWF
    -- The next declaration, or the end of input, follows.
    have hCont : Continues (prog.flatMap Decl.yield ++ [t]) := by
      refine ⟨by simp, ?_⟩
      cases prog with
      | nil => simp [pop, ht]
      | cons d' prog =>
        obtain ⟨u', r', hYield', hErr', -⟩ := d'.first_token (hAll d' (by simp))
        simp [hYield', hErr']
    obtain ⟨fuel, rfl⟩ : ∃ f, fuel = f + 1 := ⟨fuel - 1, by simp at hLen; omega⟩
    have hEnds : EndsEof (d.yield ++ (prog.flatMap Decl.yield ++ [t])) :=
      ⟨d.yield ++ prog.flatMap Decl.yield, t, by simp, ht⟩
    have hDecl := Decl.parse_complete hWF hEnds hCont
    have hLen' : (prog.flatMap Decl.yield ++ [t]).length ≤ fuel := by
      simp only [List.flatMap_cons, List.append_assoc, List.length_append, hYield,
        List.length_cons] at hLen ⊢
      omega
    simp only [List.flatMap_cons, List.append_assoc]
    simp only [parseProgram, hYield, List.cons_append, pop_cons_fst, hEof, if_false]
    rw [← List.cons_append, ← hYield, hDecl]
    simp [ih _ fuel hTail hLen']

/-- A token list has at most one derivation. -/
theorem derives_unique {prog prog' : List Decl} {ts : List Token} (h : Derives prog ts)
    (h' : Derives prog' ts) : prog = prog' := by
  have := parseProgram_complete prog ts ts.length h (Nat.le_refl _)
  rw [parseProgram_complete prog' ts ts.length h' (Nat.le_refl _)] at this
  exact (Option.some.inj this).symm

end StackScript
