import StackScript.Proofs.Compiler.Recovery
import StackScript.Proofs.Compiler.Evaluation

/-! # The reports of a program of declarations

A program whose tokens are declarations, each of the grammar or malformed with a clear end,
reports exactly one error for each malformed declaration, at one of its tokens, and none for the
others, in the order of the declarations (`Layout.compile_reports`). Two conditions make the
malformed declarations independent of each other: the declaration after a malformed one does not
start with a token that would continue what it left open (`Resumes`), and the constants fit with
one more for a `var` that lacks its name (`ConstantsFit`).
-/

namespace StackScript

set_option autoImplicit false

open Scanner Compiler

/-- Tokens that a declaration of the grammar derives. -/
def IsDecl (d : List Token) : Prop := ∃ D : Decl, D.WF ∧ D.yield = d

/-- Tokens that no declaration of the grammar derives, whose only `;` is their last token, with
no scanner error, and with no keyword that starts a statement after their first token. -/
structure Malformed (d : List Token) : Prop where
  not_decl : ∀ D : Decl, D.WF → D.yield ≠ d
  ends : ∃ body semi, d = body ++ [semi] ∧ semi.kind = .semicolon ∧ ∀ t ∈ body, t.kind ≠ .semicolon
  no_error : ∀ t ∈ d, t.kind ≠ .error
  keywords : ∀ t ∈ d.tail, startsStatement t.kind = false

/-- The first token continues nothing a malformed declaration may leave open: it is no binary
operator, `=`, `)` or `;`. -/
def Resumes (d : List Token) : Prop :=
  ∀ t ∈ d.head?, continues assignPrecedence t.kind = false ∧ t.kind ≠ .rparen ∧ t.kind ≠ .semicolon

/-- The report a declaration makes: none for one of the grammar, one error at one of its tokens
for a malformed one. -/
def Accounts (d : List Token) (o : Option Diagnostic) : Prop :=
  (IsDecl d → o = none) ∧ (Malformed d → ∃ t ∈ d, ∃ message, o = some (Diagnostic.atToken t message))

theorem Malformed.not_isDecl {d : List Token} (h : Malformed d) : ¬IsDecl d := by
  rintro ⟨D, hWF, hYield⟩
  exact h.not_decl D hWF hYield

/-- The token after a declaration: the first of the next one, or the end. -/
theorem pop_flatten_append {post : List (List Token)} {eof : Token} (hPost : ∀ d ∈ post, d ≠ []) :
    (post = [] ∧ (pop (post.flatten ++ [eof])).1 = eof) ∨
      ∃ d post', post = d :: post' ∧ (pop (post.flatten ++ [eof])).1 ∈ d.head? := by
  match post, hPost with
  | [], _ => exact Or.inl ⟨rfl, rfl⟩
  | d :: post', hPost =>
    obtain ⟨a, d', rfl⟩ := List.exists_cons_of_ne_nil (hPost _ List.mem_cons_self)
    refine Or.inr ⟨a :: d', post', rfl, ?_⟩
    simp

/-- The tokens `L` of a source, laid out as the declarations `ds` and the end `eof`. -/
structure Layout (L : List Token) (ds : List (List Token)) (eof : Token) : Prop where
  split : L = ds.flatten ++ [eof]
  eof_kind : eof.kind = .eof
  no_eof : ∀ t ∈ ds.flatten, t.kind ≠ .eof
  var_text : ∀ t ∈ L, t.kind = .varKw → t.text = Bytes.ofString "var"
  sorted : L.Pairwise (fun a b => a.pos.place ≤ b.pos.place)
  fits : ConstantsFit L
  each : ∀ d ∈ ds, IsDecl d ∨ Malformed d
  chain : List.IsChain (fun d d' => Malformed d → Resumes d') ds

namespace Layout

variable {L : List Token} {ds : List (List Token)} {eof : Token}

theorem ne_nil (hLay : Layout L ds eof) {d : List Token} (hd : d ∈ ds) : d ≠ [] := by
  rcases hLay.each d hd with ⟨D, -, rfl⟩ | hBad
  · exact D.yield_ne_nil
  · obtain ⟨body, semi, rfl, -⟩ := hBad.ends
    simp

theorem no_error (hLay : Layout L ds eof) : ∀ t ∈ L, t.kind ≠ .error := by
  intro t ht
  rw [hLay.split, List.mem_append, List.mem_flatten, List.mem_singleton] at ht
  rcases ht with ⟨d, hd, ht⟩ | rfl
  · rcases hLay.each d hd with ⟨D, hWF, rfl⟩ | hBad
    · exact Decl.kind_ne_error hWF t ht
    · exact hBad.no_error t ht
  · rw [hLay.eof_kind]
    decide

theorem ends_rest (hLay : Layout L ds eof) (post : List (List Token)) : EndsEof (post.flatten ++ [eof]) :=
  ⟨post.flatten, eof, rfl, hLay.eof_kind⟩

/-- The site of a malformed declaration `d = body ++ [semi]` of a layout, between the declarations
`pre` and `post`, with the reports and the error flag a compiler has on reaching it. -/
def site (hLay : Layout L ds eof) {pre post : List (List Token)} {d body : List Token} {semi : Token}
    (hds : ds = pre ++ d :: post) (hBad : Malformed d) (hSplit : d = body ++ [semi])
    (hSemi : semi.kind = .semicolon) (hBody : ∀ t ∈ body, t.kind ≠ .semicolon)
    (reports : Array Diagnostic) (failed : Bool) : DeclSite where
  tokens := L
  before := pre.flatten
  body := body
  semi := semi
  rest := post.flatten ++ [eof]
  reports := reports
  failed := failed
  split := by rw [hLay.split, hds, hSplit]; simp
  semi_kind := hSemi
  body_semi := hBody
  no_error := hLay.no_error
  no_eof t ht := hLay.no_eof t (List.mem_flatten.mpr ⟨d, by rw [hds]; simp, by rw [hSplit]; exact ht⟩)
  keywords := by rw [← hSplit]; exact hBad.keywords
  ends := hLay.ends_rest post
  resumes := by
    -- The next token starts the next declaration, which resumes, or is the end.
    have hPost : ∀ d' ∈ post, d' ≠ [] := fun d' hd' => hLay.ne_nil (by rw [hds]; simp [hd'])
    rcases pop_flatten_append hPost with ⟨rfl, hPop⟩ | ⟨d₂, post', rfl, hPop⟩
    · rw [hPop, hLay.eof_kind]
      decide
    · have hChain := hLay.chain
      rw [hds] at hChain
      exact (List.isChain_append_cons_cons.mp hChain).2.1 hBad _ hPop
  fits := hLay.fits
  var_text := hLay.var_text

/-- One declaration of a layout: the compiler reads it, makes the report it accounts for, and
stands at the next declaration as it stood at this one. -/
theorem declaration_reports (hLay : Layout L ds eof) {pre post : List (List Token)} {d : List Token}
    {s : Compiler} (hds : ds = pre ++ d :: post) (hSpot : Spot (d ++ (post.flatten ++ [eof])) s)
    (hPanic : s.panicMode = false) (hOpen : Open L s) (hCh : Charged L pre.flatten 0 s) :
    ∃ o, Accounts d o ∧ Spot (post.flatten ++ [eof]) (declaration.run s).2 ∧
      (declaration.run s).2.panicMode = false ∧ Charged L (pre ++ [d]).flatten 0 (declaration.run s).2 ∧
      (declaration.run s).2.diagnostics.toList = s.diagnostics.toList ++ o.toList := by
  have hd : d ∈ ds := by
    rw [hds]
    simp
  rcases hLay.each _ hd with ⟨D, hWF, rfl⟩ | hBad
  · -- A declaration of the grammar reports nothing.
    obtain ⟨pool, hRel, hCharges⟩ := hCh
    have hCharges' := hCharges.fold D.yield
    rw [← Decl.code_pool_eq hWF] at hCharges'
    have hBound := hCharges'.length_le ⟨post.flatten ++ [eof], by rw [hLay.split, hds]; simp⟩ hLay.fits
    have hSuffix : post.flatten ++ [eof] <:+ L := ⟨pre.flatten ++ D.yield, by rw [hLay.split, hds]; simp⟩
    have hRest : Continues (post.flatten ++ [eof]) :=
      ⟨by simp, hLay.no_error _ (hSuffix.subset (pop_fst_mem (by simp)))⟩
    obtain ⟨hSpot₁, hPanic₁, hDiag₁, hRel₁⟩ := wellformed_declaration hLay.sorted hWF hRest
      (hLay.ends_rest post) hOpen hSpot hPanic hRel (by omega)
    refine ⟨none, ⟨fun _ => rfl, fun hBad => absurd ⟨D, hWF, rfl⟩ hBad.not_isDecl⟩, hSpot₁, hPanic₁,
      ⟨_, hRel₁, by simpa using hCharges'.weaken le_rfl⟩, by simp [hDiag₁]⟩
  · -- A malformed declaration reports once.
    obtain ⟨body, semi, hSplit, hSemi, hBody⟩ := hBad.ends
    let F := hLay.site hds hBad hSplit hSemi hBody s.diagnostics s.hadError
    have hDecl : F.decl = d := hSplit.symm
    have hStart : F.Start s := ⟨by rw [hDecl]; exact hSpot, hPanic, rfl, rfl, hCh⟩
    obtain ⟨hSpot₁, hPanic₁, hCh₁, t, ht, message, hDiag₁⟩ :=
      DeclSite.malformed_declaration (by rw [hDecl]; exact hBad.not_decl) hStart
    rw [hDecl] at hCh₁ ht
    have hCh₂ : Charged L (pre.flatten ++ d) 0 (declaration.run s).2 := hCh₁
    refine ⟨some (Diagnostic.atToken t message),
      ⟨fun hIs => absurd hIs hBad.not_isDecl, fun _ => ⟨t, ht, message, rfl⟩⟩, hSpot₁, hPanic₁,
      by simpa using hCh₂, ?_⟩
    rw [hDiag₁, Array.toList_push]
    rfl

/-- Each declaration reports as it should, and the compiler moves on to the next. -/
theorem reports (hLay : Layout L ds eof) : ∀ (post pre : List (List Token)) (fuel : Nat) (s : Compiler),
    ds = pre ++ post → post.length < fuel → Spot (post.flatten ++ [eof]) s → s.panicMode = false →
      Open L s → Charged L pre.flatten 0 s →
      ∃ os, List.Forall₂ Accounts post os ∧
        ((declarations fuel).run s).2.diagnostics.toList = s.diagnostics.toList ++ os.reduceOption
  | [], pre, fuel, s, _, hFuel, hSpot, _, _, _ => by
    obtain ⟨fuel, rfl⟩ : ∃ f, fuel = f + 1 := ⟨fuel - 1, by simp at hFuel; omega⟩
    refine ⟨[], List.Forall₂.nil, ?_⟩
    have hTokens : s.tokens = [eof] := hSpot.2
    rw [declarations, run_bind, run_accept_of_eq (by rw [hSpot.1]; exact hLay.eof_kind),
      run_advance (by rw [hTokens]; simp [pop, hLay.eof_kind])]
    simp only [List.reduceOption_nil, List.append_nil]
    rfl
  | d :: post, pre, fuel, s, hds, hFuel, hSpot, hPanic, hOpen, hCh => by
    obtain ⟨fuel, rfl⟩ : ∃ f, fuel = f + 1 := ⟨fuel - 1, by simp at hFuel; omega⟩
    obtain ⟨a, d', rfl⟩ := List.exists_cons_of_ne_nil (hLay.ne_nil (show d ∈ ds by rw [hds]; simp))
    have hSpot' : Spot ((a :: d') ++ (post.flatten ++ [eof])) s := by simpa using hSpot
    -- Before the end, the loop reads the next declaration and goes on.
    have hNotEof : s.current.kind ≠ .eof := by
      rw [List.cons_append] at hSpot'
      rw [hSpot'.current_eq]
      exact hLay.no_eof a (by rw [hds]; simp)
    rw [declarations, run_bind, run_accept_of_ne hNotEof]
    show ∃ os, List.Forall₂ Accounts ((a :: d') :: post) os ∧
      ((declarations fuel).run (declaration.run s).2).2.diagnostics.toList = s.diagnostics.toList ++ os.reduceOption
    obtain ⟨o, hAcc, hSpot₁, hPanic₁, hCh₁, hDiag₁⟩ := hLay.declaration_reports hds hSpot' hPanic hOpen hCh
    obtain ⟨os, hAccs, hDiag⟩ := reports hLay post (pre ++ [a :: d']) fuel _ (by rw [hds]; simp)
      (by simp at hFuel; omega) hSpot₁ hPanic₁ (open_declaration hLay.sorted s hOpen) hCh₁
    refine ⟨o :: os, List.Forall₂.cons hAcc hAccs, ?_⟩
    rw [hDiag, hDiag₁]
    cases o <;> simp

theorem length_lt (hLay : Layout L ds eof) : ds.length < L.length + 1 := by
  have hOne : ∀ n ∈ ds.map List.length, 1 ≤ n := by
    intro n hn
    obtain ⟨d, hd, rfl⟩ := List.mem_map.mp hn
    exact List.length_pos_iff.mpr (hLay.ne_nil hd)
  have hLe := List.length_le_sum_of_one_le _ hOne
  rw [List.length_map, ← List.length_flatten] at hLe
  rw [hLay.split, List.length_append]
  omega

/-- The scanner's tokens, read as declarations and the end. -/
theorem of_scan {src : Bytes} (hSplit : (scan src).1 = ds.flatten ++ [eof]) (hEach : ∀ d ∈ ds, IsDecl d ∨ Malformed d)
    (hChain : List.IsChain (fun d d' => Malformed d → Resumes d') ds) (hFit : ConstantsFit (scan src).1) :
    Layout (scan src).1 ds eof := by
  obtain ⟨r, t, hts, ht, hr⟩ := scan_terminated src
  rw [hSplit] at hts
  obtain ⟨rfl, hLast⟩ := List.append_inj' hts rfl
  obtain rfl := List.singleton_inj.mp hLast
  exact ⟨hSplit, ht, hr, ((scan_iff_lexes src _).mp rfl).var_text, scan_places src, hFit, hEach, hChain⟩

/-- In a source laid out as declarations, each malformed declaration reports exactly one error,
at one of its tokens, and the others report nothing, in the order of the declarations. -/
theorem compile_reports {src : Bytes} (hLay : Layout (scan src).1 ds eof) {heap : Heap} (hHeap : heap.WF)
    (name : String) :
    ∃ os, List.Forall₂ Accounts ds os ∧ (compileState src heap name).diagnostics.toList = os.reduceOption := by
  have hNe : (scan src).1 ≠ [] := by simp [hLay.split]
  have hErr : (pop (scan src).1).1.kind ≠ .error := hLay.no_error _ (pop_fst_mem hNe)
  have hAt := start_at (if name.isEmpty then "<script>" else name) hHeap hErr
  have hOpen := reported_advance hLay.sorted _ (reported_start hNe heap (if name.isEmpty then "<script>" else name))
  have hSpot : Spot (ds.flatten ++ [eof]) (advance.run (start (scan src).1 heap
      (if name.isEmpty then "<script>" else name))).2 := by
    rw [← hLay.split]
    exact ⟨hAt.current, hAt.tokens⟩
  obtain ⟨os, hAcc, hDiag⟩ := hLay.reports ds [] _ _ rfl hLay.length_lt hSpot hAt.panicMode hOpen
    ⟨[], hAt.rel, List.nodup_nil, by simp, by simp⟩
  refine ⟨os, hAcc, ?_⟩
  -- The final return adds code only; the first move reported nothing.
  have hRun : (compileState src heap name).diagnostics = ((declarations ((scan src).1.length + 1)).run
      (advance.run (start (scan src).1 heap (if name.isEmpty then "<script>" else name))).2).2.diagnostics := by
    simp only [compileState, run_bind, emitOp, run_emit]
  rw [hRun, hDiag, run_advance hErr]
  simp only [start, Array.toList_empty, List.nil_append]

end Layout

/-- The diagnostics of a compile: those of its failure, or none. -/
theorem compile_diagnostics (src : Bytes) (heap : Heap) (name : String) :
    ((compile src heap name).failure.map CompileFailure.diagnostics).getD [] =
      (compileState src heap name).diagnostics.toList := by
  have hIff := (reported_compileState src heap name).hadError
  rw [compile_failure]
  cases hErr : (compileState src heap name).hadError
  · rw [hErr] at hIff
    simp only [Bool.false_eq_true, false_iff, ne_eq, not_not] at hIff
    simp [hIff]
  · simp

/-- Where the parser reads no declaration from tokens before the end, they are no declaration of
the grammar. -/
theorem Decl.yield_ne_of_parse {d : List Token} {eof : Token} (hEof : eof.kind = .eof)
    (h : Decl.parse (d ++ [eof]) = none) : ∀ D : Decl, D.WF → D.yield ≠ d := by
  rintro D hWF rfl
  have hComplete := Decl.parse_complete hWF ⟨D.yield, eof, rfl, hEof⟩ ⟨by simp, by simp [pop, hEof]⟩
  rw [h] at hComplete
  cases hComplete

/-- A compile fails exactly when it reported an error, and then its failure carries every report;
the reports come in reading order, each at a token of the source; and in a source of declarations,
each of the grammar or malformed with a clear end, with the constants fitting and no declaration
after a malformed one continuing it, each malformed declaration reports exactly one error, at one
of its tokens, and the others report nothing. -/
theorem compile_reports_recover (src : Bytes) (heap : Heap) (name : String) :
    (((compile src heap name).failure = none ↔ (compileState src heap name).diagnostics = #[]) ∧
      (∀ f, (compile src heap name).failure = some f →
        f.diagnostics = (compileState src heap name).diagnostics.toList) ∧
      (compileState src heap name).diagnostics.toList.Pairwise (fun a b => a.place ≤ b.place) ∧
      ∀ d ∈ (compileState src heap name).diagnostics.toList, ∃ t ∈ (scan src).1, ∃ message,
        d = Diagnostic.atToken t message) ∧
    ∀ (ds : List (List Token)) (eof : Token), (scan src).1 = ds.flatten ++ [eof] → heap.WF →
      (∀ d ∈ ds, IsDecl d ∨ Malformed d) → List.IsChain (fun d d' => Malformed d → Resumes d') ds →
      ConstantsFit (scan src).1 →
      ∃ os, List.Forall₂ Accounts ds os ∧
        ((compile src heap name).failure.map CompileFailure.diagnostics).getD [] = os.reduceOption := by
  refine ⟨compile_reports_in_order src heap name, fun ds eof hSplit hHeap hEach hChain hFit => ?_⟩
  rw [compile_diagnostics]
  exact (Layout.of_scan hSplit hEach hChain hFit).compile_reports hHeap name

/-- `-; 1;`: the first declaration lacks its operand and reports once, the second reports nothing. -/
theorem compile_reports_recover_minus_one :
    let ds : List (List Token) :=
      [[⟨.minus, Bytes.ofString "-", ⟨0, 1, 1⟩⟩, ⟨.semicolon, Bytes.ofString ";", ⟨1, 1, 2⟩⟩],
        [⟨.number, Bytes.ofString "1", ⟨3, 1, 4⟩⟩, ⟨.semicolon, Bytes.ofString ";", ⟨4, 1, 5⟩⟩]]
    ∃ os, List.Forall₂ Accounts ds os ∧
      ((compile (Bytes.ofString "-; 1;") Heap.empty "").failure.map CompileFailure.diagnostics).getD [] =
        os.reduceOption := by
  intro ds
  have hEof : (⟨.eof, [], ⟨5, 1, 6⟩⟩ : Token).kind = .eof := rfl
  have hBad : Malformed [⟨.minus, Bytes.ofString "-", ⟨0, 1, 1⟩⟩, ⟨.semicolon, Bytes.ofString ";", ⟨1, 1, 2⟩⟩] :=
    ⟨Decl.yield_ne_of_parse hEof (by decide +kernel), ⟨[⟨.minus, Bytes.ofString "-", ⟨0, 1, 1⟩⟩],
      ⟨.semicolon, Bytes.ofString ";", ⟨1, 1, 2⟩⟩, rfl, rfl, by decide⟩, by decide, by decide⟩
  have hEach : ∀ d ∈ ds, IsDecl d ∨ Malformed d := by
    intro d hd
    rcases List.mem_pair.mp hd with rfl | rfl
    · exact Or.inr hBad
    · exact Or.inl ⟨.expr (.number ⟨.number, Bytes.ofString "1", ⟨3, 1, 4⟩⟩) ⟨.semicolon, Bytes.ofString ";", ⟨4, 1, 5⟩⟩,
        ⟨rfl, rfl⟩, rfl⟩
  exact (compile_reports_recover (Bytes.ofString "-; 1;") Heap.empty "").2 ds ⟨.eof, [], ⟨5, 1, 6⟩⟩
    (by decide +kernel) Heap.wf_empty
    hEach (List.isChain_pair.mpr fun _ t ht => by cases ht; decide) ⟨by decide +kernel, fun _ => by decide +kernel⟩

/-- `-; -;`: both declarations lack their operand, but the second `-` continues the first one as
a subtraction, so the compile reports once. -/
theorem compile_reports_once_for_two_malformed :
    let ds : List (List Token) :=
      [[⟨.minus, Bytes.ofString "-", ⟨0, 1, 1⟩⟩, ⟨.semicolon, Bytes.ofString ";", ⟨1, 1, 2⟩⟩],
        [⟨.minus, Bytes.ofString "-", ⟨3, 1, 4⟩⟩, ⟨.semicolon, Bytes.ofString ";", ⟨4, 1, 5⟩⟩]]
    (scan (Bytes.ofString "-; -;")).1 = ds.flatten ++ [⟨.eof, [], ⟨5, 1, 6⟩⟩] ∧ (∀ d ∈ ds, Malformed d) ∧
      constantCount (scan (Bytes.ofString "-; -;")).1 ≤ Chunk.maxConstants ∧
      (compile (Bytes.ofString "-; -;") Heap.empty "").failure.map CompileFailure.diagnostics =
        some [Diagnostic.atToken ⟨.semicolon, Bytes.ofString ";", ⟨1, 1, 2⟩⟩ "Expect expression."] := by
  intro ds
  have hEof : (⟨.eof, [], ⟨5, 1, 6⟩⟩ : Token).kind = .eof := rfl
  refine ⟨by decide +kernel, fun d hd => ?_, by decide +kernel, by rw [compile_eq_evalCompile]; decide +kernel⟩
  rcases List.mem_pair.mp hd with rfl | rfl
  · exact ⟨Decl.yield_ne_of_parse hEof (by decide +kernel), ⟨[⟨.minus, Bytes.ofString "-", ⟨0, 1, 1⟩⟩],
      ⟨.semicolon, Bytes.ofString ";", ⟨1, 1, 2⟩⟩, rfl, rfl, by decide⟩, by decide, by decide⟩
  · exact ⟨Decl.yield_ne_of_parse hEof (by decide +kernel), ⟨[⟨.minus, Bytes.ofString "-", ⟨3, 1, 4⟩⟩],
      ⟨.semicolon, Bytes.ofString ";", ⟨4, 1, 5⟩⟩, rfl, rfl, by decide⟩, by decide, by decide⟩

end StackScript
