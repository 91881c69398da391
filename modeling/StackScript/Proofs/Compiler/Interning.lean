import StackScript.Proofs.Compiler.Pulls
import StackScript.Proofs.Compiler.StackSafety
import StackScript.Proofs.Heap.Calls

/-! # What a compile and a run intern

A compile adds strings to its heap in two places: the name of a global it declares, reads or
assigns, and the body of a string literal. A run adds one more kind: the result of `+` on two
strings. Each is interned, so the heap holds each content once and counts them
(`Heap.Interns`).

A name is the text of the previous token, an IDENT token everywhere but in one place: a `var`
declaration whose name is missing reports the error and still takes a name, the keyword `var`
itself (`compile_interns_var_keyword`). So a compile interns IDENT names, STRING bodies and,
only when it fails, the keyword; one that succeeds interns exactly the IDENT names and STRING
bodies of its source (`compile_heap_interns`, `interpret_interned_contents`).
-/

namespace StackScript

set_option autoImplicit false

namespace Heap

open Heap (Call)

theorem serveAll_append (h : Heap) (cs ds : List Call) :
    (h.serveAll (cs ++ ds)).1 = ((h.serveAll cs).1.serveAll ds).1 := by
  induction cs generalizing h with
  | nil => rfl
  | cons c cs ih => exact ih _

/-- The heap after interning contents in order. -/
def internAll (h : Heap) (xs : List Bytes) : Heap := (h.serveAll (xs.map .copyString)).1

theorem internAll_concat (h : Heap) (xs : List Bytes) (x : Bytes) :
    h.internAll (xs ++ [x]) = ((h.internAll xs).intern x).1 := by
  rw [internAll, List.map_append, serveAll_append]
  rfl

/-- Interning keeps a heap in step with the contents asked for. -/
theorem Interns.internAll {h : Heap} {asked : List Bytes} {answers : List (Option Str)}
    (hI : h.Interns asked answers) (xs : List Bytes) :
    ∃ answers', (h.internAll xs).Interns (asked ++ xs) answers' := by
  have hAsked : internedBy (xs.map .copyString) = xs := by
    simp [internedBy, Call.interns, Call.chars, List.filter_map, Function.comp_def]
  exact ⟨_, hAsked ▸ hI.serveAll (xs.map .copyString)⟩

end Heap

namespace Compiler

section Stream

variable {ts : List Token}

theorem pop_snd_suffix (h : ts ≠ []) : (pop ts).2 <:+ ts ∧ (pop ts).2 ≠ [] := by
  match ts, h with
  | [t], _ => exact ⟨List.suffix_refl _, List.cons_ne_nil _ _⟩
  | t :: u :: r, _ => exact ⟨List.suffix_cons _ _, List.cons_ne_nil _ _⟩

end Stream

/-! ## The invariant -/

variable (T : List Token) (h₀ : Heap)

/-- Where a content interned by a compile of the tokens `T` comes from: an IDENT token's name, a
STRING token's body, or, once the compile has failed, a `var` keyword. -/
def Sourced (failed : Bool) (x : Bytes) : Prop :=
  (∃ t ∈ T, t.kind = .ident ∧ t.text = x) ∨ (∃ t ∈ T, t.kind = .string ∧ stringBody t.text = x) ∨
    (failed = true ∧ ∃ t ∈ T, t.kind = .varKw ∧ t.text = x)

/-- A compile of `T` from the heap `h₀`: it reads a suffix of `T`, an error is suppressed only
after one was recorded, and its heap is `h₀` with sourced contents interned. -/
structure Tracked (s : Compiler) : Prop where
  suffix : s.tokens <:+ T
  ne_nil : s.tokens ≠ []
  panic : s.panicMode = true → s.hadError = true
  logged : ∃ xs, s.heap = h₀.internAll xs ∧ ∀ x ∈ xs, Sourced T s.hadError x

/-- A tracked compile that stands at a token of `T`. -/
def Reading (s : Compiler) : Prop := Tracked T h₀ s ∧ s.current ∈ T

/-- `s'` stands where `s` stands with the same heap; errors stay recorded, and one is
suppressed only after one was recorded. -/
structure Calm (s s' : Compiler) : Prop where
  tokens : s'.tokens = s.tokens
  previous : s'.previous = s.previous
  current : s'.current = s.current
  heap : s'.heap = s.heap
  hadError : s.hadError = true → s'.hadError = true
  panic : (s.panicMode = true → s.hadError = true) → s'.panicMode = true → s'.hadError = true

variable {T h₀} {s s' : Compiler}

theorem Sourced.mono {e e' : Bool} {x : Bytes} (hx : Sourced T e x) (h : e = true → e' = true) :
    Sourced T e' x := by
  rcases hx with hx | hx | ⟨he, hx⟩
  · exact Or.inl hx
  · exact Or.inr (Or.inl hx)
  · exact Or.inr (Or.inr ⟨h he, hx⟩)

theorem Calm.refl (s : Compiler) : Calm s s := ⟨rfl, rfl, rfl, rfl, id, id⟩

theorem Calm.trans {s₁ s₂ s₃ : Compiler} (h₁₂ : Calm s₁ s₂) (h₂₃ : Calm s₂ s₃) : Calm s₁ s₃ :=
  ⟨h₂₃.tokens.trans h₁₂.tokens, h₂₃.previous.trans h₁₂.previous, h₂₃.current.trans h₁₂.current,
    h₂₃.heap.trans h₁₂.heap, fun h => h₂₃.hadError (h₁₂.hadError h), fun h => h₂₃.panic (h₁₂.panic h)⟩

theorem Tracked.calm (hs : Tracked T h₀ s) (h : Calm s s') : Tracked T h₀ s' := by
  obtain ⟨xs, hHeap, hxs⟩ := hs.logged
  exact ⟨h.tokens ▸ hs.suffix, h.tokens ▸ hs.ne_nil, h.panic hs.panic,
    ⟨xs, h.heap.trans hHeap, fun x hx => (hxs x hx).mono h.hadError⟩⟩

theorem Reading.calm (hs : Reading T h₀ s) (h : Calm s s') : Reading T h₀ s' :=
  ⟨hs.1.calm h, h.current ▸ hs.2⟩

/-- Interning a sourced content. -/
theorem Tracked.intern (hs : Tracked T h₀ s) {x : Bytes} (hx : Sourced T s.hadError x) :
    Tracked T h₀ { s with heap := (s.heap.intern x).1 } := by
  obtain ⟨xs, hHeap, hxs⟩ := hs.logged
  refine ⟨hs.suffix, hs.ne_nil, hs.panic, xs ++ [x], by rw [Heap.internAll_concat, hHeap], ?_⟩
  intro y hy
  rcases List.mem_append.mp hy with hy | hy
  · exact hxs y hy
  · rw [List.mem_singleton.mp hy]
    exact hx

theorem leads_calm {α : Type} {m : M α} (hm : ∀ s, Calm s (m.run s).2) :
    Leads (Reading T h₀) (Reading T h₀) m :=
  fun s hs => hs.calm (hm s)

/-! ## Steps that leave the heap -/

theorem calm_errorAt (t : Token) (message : String) (s : Compiler) :
    Calm s ((errorAt t message).run s).2 := by
  rw [run_errorAt]
  split
  · exact Calm.refl s
  · exact ⟨rfl, rfl, rfl, rfl, fun _ => rfl, fun _ _ => rfl⟩

/-- A report at a compile whose suppressed errors were recorded leaves an error recorded. -/
theorem errorAt_hadError (t : Token) (message : String) (hPanic : s.panicMode = true → s.hadError = true) :
    ((errorAt t message).run s).2.hadError = true := by
  rw [run_errorAt]
  split
  · exact hPanic ‹_›
  · rfl

theorem calm_error (message : String) (s : Compiler) : Calm s ((error message).run s).2 :=
  calm_errorAt s.previous message s

theorem calm_errorAtCurrent (message : String) (s : Compiler) :
    Calm s ((errorAtCurrent message).run s).2 :=
  calm_errorAt s.current message s

theorem calm_emit (b : UInt8) (s : Compiler) : Calm s ((emit b).run s).2 := ⟨rfl, rfl, rfl, rfl, id, id⟩

theorem calm_forM_emitOp : ∀ (ops : List Op) (s : Compiler), Calm s ((ops.forM emitOp).run s).2
  | [], s => Calm.refl s
  | op :: ops, s => (calm_emit op.code s).trans (calm_forM_emitOp ops _)

theorem calm_addConstant (v : Value) (s : Compiler) : Calm s ((addConstant v).run s).2 := by
  rw [addConstant, run_get_bind]
  simp only [run_bind, run_set]
  split
  · exact (⟨rfl, rfl, rfl, rfl, id, id⟩ : Calm s { s with chunk := (s.chunk.addConstant v).1 }).trans
      (calm_errorAt _ _ _)
  · exact ⟨rfl, rfl, rfl, rfl, id, id⟩

theorem calm_emitConstant (v : Value) (s : Compiler) : Calm s ((emitConstant v).run s).2 :=
  (calm_addConstant v s).trans ((calm_emit _ _).trans (calm_emit _ _))

/-- Past the interning, looking up or adding a name's constant leaves the heap. -/
theorem calm_nameConstant (t : Token) (s : Compiler) :
    Calm { s with heap := (s.heap.intern t.text).1 } ((nameConstant t).run s).2 := by
  rw [Compiler.nameConstant, run_get_bind]
  simp only [run_bind, run_set]
  split
  · exact Calm.refl _
  · rw [run_bind]
    have h := calm_addConstant (.obj (.str (s.heap.intern t.text).2)) { s with heap := (s.heap.intern t.text).1 }
    split
    · exact h.trans ⟨rfl, rfl, rfl, rfl, id, id⟩
    · exact h

/-- A name's constant, for a name whose text is sourced. -/
theorem Reading.nameConstant (hs : Reading T h₀ s) {t : Token} (ht : Sourced T s.hadError t.text) :
    Reading T h₀ ((nameConstant t).run s).2 :=
  ⟨(hs.1.intern ht).calm (calm_nameConstant t s), (calm_nameConstant t s).current ▸ hs.2⟩

/-! ## Moves -/

theorem reading_skip : ∀ (fuel : Nat) (s : Compiler), Tracked T h₀ s → (0 < fuel ∨ s.current ∈ T) →
    Reading T h₀ ((advance.skip fuel).run s).2
  | 0, s, hs, hCur => ⟨hs, hCur.resolve_left (Nat.lt_irrefl 0)⟩
  | fuel + 1, s, hs, _ => by
    dsimp only [advance.skip, run_bind, run_get, run_set]
    obtain ⟨hSuffix, hNe⟩ := pop_snd_suffix hs.ne_nil
    -- The token pulled is one of `T`, and so is every token after it.
    have hStep : Reading T h₀
        { s with current := (pop s.tokens).1, tokens := (pop s.tokens).2, pulls := s.pulls + 1 } :=
      ⟨⟨hSuffix.trans hs.suffix, hNe, hs.panic, hs.logged⟩,
        hs.suffix.subset (pop_fst_mem hs.ne_nil)⟩
    by_cases hErr : ((pop s.tokens).1.kind == TokenKind.error) = true
    · simp only [hErr, if_true, run_bind]
      have h := hStep.calm
        (calm_errorAt (pop s.tokens).1 ((Bytes.toString? (pop s.tokens).1.text).getD "") _)
      exact reading_skip fuel _ h.1 (Or.inr h.2)
    · simp only [hErr, Bool.false_eq_true, if_false, run_pure]
      exact hStep

theorem reading_advance : Leads (Tracked T h₀) (Reading T h₀) advance := by
  intro s hs
  simp only [advance, run_bind, run_modify, run_get]
  exact reading_skip _ { s with previous := s.current } ⟨hs.suffix, hs.ne_nil, hs.panic, hs.logged⟩
    (Or.inl (Nat.succ_pos _))

/-- After a move from a token of `T`, the previous token is that token. -/
theorem Reading.advance (hs : Reading T h₀ s) :
    Reading T h₀ (advance.run s).2 ∧ (advance.run s).2.previous = s.current :=
  ⟨reading_advance s hs.1, advance_previous s⟩

theorem reading_move : Leads (Reading T h₀) (Reading T h₀) advance := fun _ hs => hs.advance.1

theorem reading_accept (k : TokenKind) : Leads (Reading T h₀) (Reading T h₀) (accept k) := by
  intro s hs
  by_cases hk : s.current.kind = k
  · rw [run_accept_of_eq hk]
    exact hs.advance.1
  · rw [run_accept_of_ne hk]
    exact hs

theorem reading_consume (k : TokenKind) (message : String) :
    Leads (Reading T h₀) (Reading T h₀) (consume k message) := by
  intro s hs
  by_cases hk : s.current.kind = k
  · rw [run_consume_of_eq hk]
    exact hs.advance.1
  · simp only [consume, run_bind, run_check, beq_iff_eq, hk, if_false]
    exact hs.calm (calm_errorAt _ _ _)

/-! ## Expressions -/

theorem reading_infixLoop {fuel : Nat} (hP : ∀ p, Leads (Reading T h₀) (Reading T h₀) (parsePrecedence fuel p)) :
    ∀ steps p c, Leads (Reading T h₀) (Reading T h₀) (infixLoop fuel steps p c)
  | 0, p, c => by
    rw [infixLoop]
    exact leads_pure _
  | steps + 1, p, c => by
    intro s hs
    rw [infixLoop, run_get_bind]
    refine leads_ite ?_ (leads_ite ((reading_accept _).bind fun _ =>
      leads_ite (leads_calm (calm_error _)) (leads_pure _)) (leads_pure _)) s hs
    exact (reading_move.bind fun _ => (hP _).bind fun _ =>
      (leads_calm (calm_forM_emitOp _)).bind fun _ => reading_infixLoop hP steps p c)

/-- After the move to its first token, a parse interns the name or the body of that token, which
is an IDENT or STRING token of `T`. -/
theorem reading_after_advance {fuel : Nat} (hP : ∀ p, Leads (Reading T h₀) (Reading T h₀) (parsePrecedence fuel p))
    (p : Nat) (s : Compiler) (hs : Reading T h₀ s) :
    Reading T h₀ ((parsePrecedence (fuel + 1) p).run s).2 := by
  have hLoop := reading_infixLoop hP
  obtain ⟨hs₁, hPrev⟩ := hs.advance
  have hMem : (advance.run s).2.previous ∈ T := hPrev ▸ hs.2
  rw [parsePrecedence, run_bind, run_get_bind]
  generalize (advance.run s).2 = s₁ at hs₁ hMem
  have hTail : ∀ {α : Type} (m : M α), Leads (Reading T h₀) (Reading T h₀) m →
      Leads (Reading T h₀) (Reading T h₀) (m >>= fun _ => get >>= fun s =>
        infixLoop fuel (s.tokens.length + 1) p (decide (p ≤ assignPrecedence))) :=
    fun m hm => hm.bind fun _ => leads_get.bind fun _ => hLoop _ _ _
  have hEmit : ∀ op : Op, Leads (Reading T h₀) (Reading T h₀) (emitOp op) := fun _ => leads_calm (calm_emit _)
  dsimp only
  split
  · exact hTail _ ((hP _).bind fun _ => reading_consume _ _) s₁ hs₁
  · exact hTail _ ((hP _).bind fun _ => hEmit _) s₁ hs₁
  · exact hTail _ ((hP _).bind fun _ => hEmit _) s₁ hs₁
  · exact hTail _ (leads_calm (calm_emitConstant _)) s₁ hs₁
  · -- A string literal interns its body.
    rename_i hString
    rw [run_get_bind, run_bind, run_set]
    exact hTail _ (leads_calm (calm_emitConstant _)) _
      ⟨hs₁.1.intern (Or.inr (Or.inl ⟨_, hMem, hString, rfl⟩)), hs₁.2⟩
  · exact hTail _ (hEmit _) s₁ hs₁
  · exact hTail _ (hEmit _) s₁ hs₁
  · exact hTail _ (hEmit _) s₁ hs₁
  · -- A name interns its text.
    rename_i hIdent
    rw [run_bind]
    have h₂ := hs₁.nameConstant (t := s₁.previous) (Or.inl ⟨_, hMem, hIdent, rfl⟩)
    generalize (nameConstant s₁.previous).run s₁ = r at h₂ ⊢
    obtain ⟨arg, s₂⟩ := r
    refine leads_ite ((reading_accept _).bind fun b => ?_) ((leads_pure _).bind fun b => ?_) s₂ h₂ <;>
    exact leads_ite (hTail _ (((hP _).bind fun _ => hEmit _).bind fun _ => leads_calm (calm_emit _)))
      (hTail _ ((hEmit _).bind fun _ => leads_calm (calm_emit _)))
  · exact hs₁.calm (calm_error _ _)

theorem reading_parse : ∀ fuel, (∀ p, Leads (Reading T h₀) (Reading T h₀) (parsePrecedence fuel p)) ∧
    ∀ steps p c, Leads (Reading T h₀) (Reading T h₀) (infixLoop fuel steps p c)
  | 0 =>
    have hP : ∀ p, Leads (Reading T h₀) (Reading T h₀) (parsePrecedence 0 p) := fun _ s hs => by
      rw [parsePrecedence]
      exact hs
    ⟨hP, reading_infixLoop hP⟩
  | fuel + 1 =>
    have hP : ∀ p, Leads (Reading T h₀) (Reading T h₀) (parsePrecedence (fuel + 1) p) :=
      fun p s hs => reading_after_advance (reading_parse fuel).1 p s hs
    ⟨hP, reading_infixLoop hP⟩

theorem reading_expression : Leads (Reading T h₀) (Reading T h₀) expression := by
  intro s hs
  rw [expression, run_get_bind]
  exact (reading_parse _).1 _ s hs

/-! ## Declarations -/

/-- The name of a declaration: an IDENT token, or the keyword `var` itself when the name is
missing, which is reported first. -/
theorem reading_parseVariable (hs : Reading T h₀ s) (hPrev : s.previous ∈ T)
    (hVar : s.previous.kind = .varKw) :
    Reading T h₀ ((parseVariable "Expect variable name.").run s).2 := by
  rw [parseVariable, run_bind, run_get_bind]
  by_cases hk : s.current.kind = .ident
  · rw [run_consume_of_eq hk]
    obtain ⟨hs₁, hPrev₁⟩ := hs.advance
    exact hs₁.nameConstant (Or.inl ⟨s.current, hs.2, hk, by rw [hPrev₁]⟩)
  · simp only [consume, run_bind, run_check, beq_iff_eq, hk, if_false]
    have hCalm := calm_errorAt s.current "Expect variable name." s
    have hFailed := errorAt_hadError s.current "Expect variable name." hs.1.panic
    refine (hs.calm hCalm).nameConstant (Or.inr (Or.inr ⟨hFailed, s.previous, hPrev, hVar, ?_⟩))
    rw [show (errorAtCurrent "Expect variable name.").run s = (errorAt s.current "Expect variable name.").run s
      from rfl, hCalm.previous]

theorem reading_varDeclaration :
    Leads (fun s => Reading T h₀ s ∧ s.previous ∈ T ∧ s.previous.kind = .varKw) (Reading T h₀)
      varDeclaration := by
  rintro s ⟨hs, hPrev, hVar⟩
  rw [varDeclaration, run_bind]
  exact ((reading_accept _).bind fun _ => leads_ite (reading_expression.bind fun _ => hDefine)
    ((leads_calm (calm_emit _)).bind fun _ => hDefine)) _ (reading_parseVariable hs hPrev hVar)
where
  hDefine {global : Nat} : Leads (Reading T h₀) (Reading T h₀)
      (consume .semicolon "Expect ';' after variable declaration." >>= fun _ =>
        emitOp .defineGlobal >>= fun _ => emit global.toUInt8) :=
    (reading_consume _ _).bind fun _ => (leads_calm (calm_emit _)).bind fun _ => leads_calm (calm_emit _)

theorem reading_statement : Leads (Reading T h₀) (Reading T h₀) statement :=
  (reading_accept _).bind fun _ =>
    leads_ite (reading_expression.bind fun _ => (reading_consume _ _).bind fun _ => leads_calm (calm_emit _))
      (reading_expression.bind fun _ => (reading_consume _ _).bind fun _ => leads_calm (calm_emit _))

theorem reading_synchronize_go : ∀ fuel, Leads (Reading T h₀) (Reading T h₀) (synchronize.go fuel)
  | 0 => leads_pure _
  | fuel + 1 => by
    rw [synchronize.go]
    exact leads_get.bind fun _ => leads_ite (leads_pure _)
      (reading_move.bind fun _ => reading_synchronize_go fuel)

theorem reading_declaration : Leads (Reading T h₀) (Reading T h₀) declaration := by
  intro s hs
  have hSettle : Leads (Reading T h₀) (Reading T h₀)
      (get >>= fun x => if x.panicMode = true then synchronize else pure ()) := by
    refine leads_get.bind fun _ => leads_ite ?_ (leads_pure _)
    intro s hs
    rw [synchronize, run_bind, run_modify, run_get_bind]
    exact reading_synchronize_go _ _ (hs.calm ⟨rfl, rfl, rfl, rfl, id, fun _ h => absurd h Bool.false_ne_true⟩)
  -- Open the join point of the `if` first, so that the settling step is met syntactically.
  rw [declaration, run_bind]
  dsimp only
  by_cases hk : s.current.kind = .varKw
  · -- The keyword is the previous token when the declaration's name is read.
    rw [run_accept_of_eq hk, if_pos rfl, run_bind]
    obtain ⟨hs₁, hPrev⟩ := hs.advance
    exact hSettle _ (reading_varDeclaration _ ⟨hs₁, hPrev ▸ hs.2, by rw [hPrev, hk]⟩)
  · rw [run_accept_of_ne hk, if_neg Bool.false_ne_true, run_bind]
    exact hSettle _ (reading_statement s hs)

theorem reading_declarations : ∀ fuel, Leads (Reading T h₀) (Reading T h₀) (declarations fuel)
  | 0 => leads_pure _
  | fuel + 1 => (reading_accept _).bind fun _ =>
    leads_ite (leads_pure _) (reading_declaration.bind fun _ => reading_declarations fuel)

end Compiler

/-- Every compile's heap is its first heap with contents interned, each an IDENT token's name, a
STRING token's body, or, when the compile fails, a `var` keyword. -/
theorem compileState_tracked (src : Bytes) (heap : Heap) (name : String) :
    Compiler.Tracked (Scanner.scan src).1 heap (compileState src heap name) := by
  have hT := Scanner.scan_terminated src
  have hStart : Compiler.Tracked (Scanner.scan src).1 heap
      (Compiler.start (Scanner.scan src).1 heap (if name.isEmpty then "<script>" else name)) :=
    ⟨List.suffix_refl _, hT.ne_nil, fun h => absurd h Bool.false_ne_true, [], rfl, fun _ h => by simp at h⟩
  exact ((Compiler.reading_advance.bind fun _ => (Compiler.reading_declarations _).bind fun _ =>
    Compiler.leads_calm (Compiler.calm_emit _)) _ hStart).1

/-! ## Compiles that succeed -/

theorem tokenConst_extends (pool : List Const) (t : Token) : pool <+: tokenConst pool t := by
  unfold tokenConst
  split
  · exact List.prefix_append _ _
  · exact List.prefix_append _ _
  · unfold addName
    split
    · exact List.prefix_refl _
    · exact List.prefix_append _ _
  · exact List.prefix_refl _

theorem foldl_tokenConst_extends : ∀ (ts : List Token) (pool : List Const), pool <+: ts.foldl tokenConst pool
  | [], _ => List.prefix_refl _
  | t :: ts, pool => (tokenConst_extends pool t).trans (foldl_tokenConst_extends ts _)

/-- A string literal among the tokens leaves its body in the pool. -/
theorem string_mem_foldl_tokenConst {ts : List Token} {t : Token} (ht : t ∈ ts) (hk : t.kind = .string)
    (pool : List Const) : Const.string (stringBody t.text) ∈ ts.foldl tokenConst pool := by
  induction ts generalizing pool with
  | nil => cases ht
  | cons u ts ih =>
    rw [List.foldl_cons]
    rcases List.mem_cons.mp ht with rfl | ht
    · have hMem : Const.string (stringBody t.text) ∈ tokenConst pool t := by
        simp [tokenConst, hk]
      exact (foldl_tokenConst_extends ts _).subset hMem
    · exact ih ht _

/-- A name among the tokens leaves itself in the pool. -/
theorem name_mem_foldl_tokenConst {ts : List Token} {t : Token} (ht : t ∈ ts) (hk : t.kind = .ident) :
    Const.name t.text ∈ ts.foldl tokenConst [] := by
  have hName : t.text ∈ poolNames (ts.foldl tokenConst []) :=
    ((foldl_tokenConst_spec ts [] List.nodup_nil).2.1 t.text).mpr
      (Or.inr (List.mem_map.mpr ⟨t, List.mem_filter.mpr ⟨ht, by simp [hk]⟩, rfl⟩))
  obtain ⟨c, hc, hName⟩ := List.mem_filterMap.mp hName
  cases c with
  | name y =>
    cases hName
    exact hc
  | _ => cases hName

/-- A compile that succeeds leaves every IDENT name and STRING body of its source in the heap:
each is a constant of the chunk. -/
theorem compile_holds_sources {src : Bytes} {heap : Heap} {name : String} (hHeap : heap.WF)
    (hClean : (compile src heap name).failure = none) {t : Token} (ht : t ∈ (Scanner.scan src).1) :
    (t.kind = .ident → ∃ str, (compile src heap name).heap.lookup? t.text = some str) ∧
      (t.kind = .string → ∃ str, (compile src heap name).heap.lookup? (stringBody t.text) = some str) := by
  obtain ⟨prog, hProg⟩ := compile_derives hHeap hClean
  obtain ⟨-, -, -, hConsts⟩ := compile_chunk src heap name hHeap hProg hClean
  obtain ⟨hWF, e, he, hToks⟩ := hProg
  rw [programCode_pool_eq hWF] at hConsts
  -- A name or a string literal is no end of input: it is a token of the declarations.
  have hBody : ∀ k, t.kind = k → k ≠ .eof → t ∈ prog.flatMap Decl.yield := fun k hk hNe => by
    rw [hToks] at ht
    rcases List.mem_append.mp ht with ht | ht
    · exact ht
    · rw [List.mem_singleton.mp ht, he] at hk
      exact absurd hk.symm hNe
  have hHeld : ∀ c, c ∈ (prog.flatMap Decl.yield).foldl tokenConst [] → ∀ x, (c = .name x ∨ c = .string x) →
      ∃ str, (compile src heap name).heap.lookup? x = some str := by
    intro c hc x hx
    obtain ⟨i, hi⟩ := List.mem_iff_getElem?.mp hc
    obtain ⟨v, -, hDen⟩ := hConsts i c hi
    rcases hx with rfl | rfl
    · obtain ⟨str, hl, -⟩ := hDen
      exact ⟨str, hl⟩
    · obtain ⟨str, hl, -⟩ := hDen
      exact ⟨str, hl⟩
  refine ⟨fun hk => ?_, fun hk => ?_⟩
  · exact hHeld _ (name_mem_foldl_tokenConst (hBody _ hk (by decide)) hk) _ (Or.inl rfl)
  · exact hHeld _ (string_mem_foldl_tokenConst (hBody _ hk (by decide)) hk []) _ (Or.inr rfl)

/-- What a compile adds to a heap that is in step with the contents asked of it so far: it
interns contents `xs`, each an IDENT token's name, a STRING token's body, or, only when the compile
fails, the keyword `var` of a declaration whose name is missing; a compile that succeeds holds
every IDENT name and STRING body of its source. -/
theorem compile_heap_interns (src : Bytes) (heap : Heap) (name : String) {asked : List Bytes}
    {answers : List (Option Str)} (hI : heap.Interns asked answers) :
    ∃ xs answers', (compile src heap name).heap.Interns (asked ++ xs) answers' ∧
      (∀ x ∈ xs, (∃ t ∈ (Scanner.scan src).1, t.kind = .ident ∧ t.text = x) ∨
        (∃ t ∈ (Scanner.scan src).1, t.kind = .string ∧ stringBody t.text = x) ∨
        ((compile src heap name).failure ≠ none ∧
          ∃ t ∈ (Scanner.scan src).1, t.kind = .varKw ∧ t.text = x)) ∧
      ((compile src heap name).failure = none → ∀ t ∈ (Scanner.scan src).1,
        (t.kind = .ident → t.text ∈ asked ++ xs) ∧ (t.kind = .string → stringBody t.text ∈ asked ++ xs)) := by
  obtain ⟨-, -, -, xs, hHeap, hxs⟩ := compileState_tracked src heap name
  obtain ⟨answers', hI'⟩ := hI.internAll xs
  -- Stated of the compile's heap, so that lookups in it meet `hI'` without unfolding the compile.
  rw [← hHeap, ← compile_heap_eq] at hI'
  have hFailed : (compile src heap name).failure ≠ none ↔ (compileState src heap name).hadError = true := by
    rw [compile_failure]
    cases (compileState src heap name).hadError <;> simp
  -- A content the heap holds was asked for before or since.
  have hAsked : ∀ x, (∃ str, (compile src heap name).heap.lookup? x = some str) → x ∈ asked ++ xs := by
    rintro x ⟨str, hl⟩
    obtain ⟨hMem, rfl⟩ := (hI'.lookup?_eq_some_iff).mp hl
    rw [← List.mem_eraseDups, ← hI'.objects_chars]
    exact List.mem_map_of_mem hMem
  refine ⟨xs, answers', hI', fun x hx => ?_, fun hClean t ht => ?_⟩
  · rcases hxs x hx with h | h | ⟨hFail, h⟩
    · exact Or.inl h
    · exact Or.inr (Or.inl h)
    · exact Or.inr (Or.inr ⟨hFailed.mpr hFail, h⟩)
  · have hHeld := compile_holds_sources hI.wf hClean ht
    exact ⟨fun hk => hAsked _ (hHeld.1 hk), fun hk => hAsked _ (hHeld.2 hk)⟩

namespace Machine

/-- Only `+` on two strings touches the heap: it interns their concatenation. -/
theorem execute_heap (m : Machine) (c : Chunk) (op : Op) :
    (m.execute c op).1.heap = m.heap ∨ ∃ a b : Str, (m.execute c op).1.heap = (m.heap.concat a b).1 := by
  cases op
  case add =>
    simp only [execute]
    split
    · exact .inr ⟨_, _, rfl⟩
    all_goals exact .inl rfl
  all_goals refine .inl ?_
  case constant =>
    obtain ⟨r, hr⟩ := readConstant_eq m c
    cases r <;> simp only [execute, hr, push]
  case getGlobal | setGlobal | defineGlobal =>
    obtain ⟨r, hr⟩ := readName_eq m c
    cases r with
    | error f => simp only [execute, hr]
    | ok k => simp only [execute, hr]; (try split) <;> rfl
  all_goals simp only [execute]
  all_goals (try split) <;> rfl

theorem step_heap (m : Machine) (c : Chunk) :
    (m.step c).1.heap = m.heap ∨ ∃ a b : Str, (m.step c).1.heap = (m.heap.concat a b).1 := by
  rcases hs : m.step c with ⟨s, o⟩
  -- Every check before the instruction only counts it or faults.
  rcases step_cases hs with ⟨-, rfl, -⟩ | ⟨-, rfl, -⟩ | ⟨-, op, -, hExec⟩
  · exact .inl rfl
  · exact .inl rfl
  · have hHeap := execute_heap (m.dispatch c) c op
    rw [hExec, dispatch_heap] at hHeap
    exact hHeap

/-- A run's heap is its first heap with concatenations interned, one per string `+` executed. -/
theorem runFor_heap : ∀ (fuel : Nat) (m : Machine) (c : Chunk), ∃ cs : List Heap.Call,
    (∀ call ∈ cs, ∃ a b, call = .concat a b) ∧ (runFor fuel m c).1.heap = (m.heap.serveAll cs).1
  | 0, m, _ => ⟨[], fun _ h => by simp at h, rfl⟩
  | fuel + 1, m, c => by
    have hHeap := step_heap m c
    rcases hStep : m.step c with ⟨m', o⟩
    rw [hStep] at hHeap
    obtain ⟨cs₁, hcs₁, hEq₁⟩ : ∃ cs : List Heap.Call, (∀ call ∈ cs, ∃ a b, call = .concat a b) ∧
        m'.heap = (m.heap.serveAll cs).1 := by
      rcases hHeap with h | ⟨a, b, h⟩
      · exact ⟨[], fun _ h => by simp at h, h⟩
      · exact ⟨[.concat a b], fun _ h => ⟨a, b, List.mem_singleton.mp h⟩, h⟩
    unfold runFor
    rw [hStep]
    cases o with
    | fault f => exact ⟨cs₁, hcs₁, hEq₁⟩
    | halt => exact ⟨cs₁, hcs₁, hEq₁⟩
    | pause => exact ⟨cs₁, hcs₁, hEq₁⟩
    | proceed =>
      obtain ⟨cs₂, hcs₂, hEq₂⟩ := runFor_heap fuel m' c
      refine ⟨cs₁ ++ cs₂, fun call h => ?_, ?_⟩
      · rcases List.mem_append.mp h with h | h
        · exact hcs₁ _ h
        · exact hcs₂ _ h
      · rw [hEq₂, hEq₁, Heap.serveAll_append]

theorem run_heap (m : Machine) (c : Chunk) : ∃ cs : List Heap.Call,
    (∀ call ∈ cs, ∃ a b, call = .concat a b) ∧ (m.run c).1.heap = (m.heap.serveAll cs).1 := by
  obtain ⟨cs, hcs, hEq⟩ := runFor_heap (c.code.size + 1) m.reset c
  refine ⟨cs, hcs, ?_⟩
  unfold run start
  split <;> (rename_i hRun; rw [hRun] at hEq; exact hEq)

/-- A run adds to a heap in step with what was asked of it the concatenations it makes. -/
theorem run_interns (m : Machine) (c : Chunk) {asked : List Bytes} {answers : List (Option Str)}
    (hI : m.heap.Interns asked answers) :
    ∃ ys answers', (m.run c).1.heap.Interns (asked ++ ys) answers' ∧
      ∀ y ∈ ys, ∃ a b : Str, y = a.chars ++ b.chars := by
  obtain ⟨cs, hcs, hEq⟩ := run_heap m c
  refine ⟨_, _, hEq ▸ hI.serveAll cs, fun y hy => ?_⟩
  obtain ⟨call, hCall, rfl⟩ := List.mem_map.mp hy
  obtain ⟨a, b, rfl⟩ := hcs call (List.mem_filter.mp hCall).1
  exact ⟨a, b, rfl⟩

end Machine

-- The machine ends with the name, the two literals and their concatenation.
example : (Machine.new.interpret (Bytes.ofString "var s := \"a\" + \"b\";")).1.heap.objects.toList.map Str.chars =
    [Bytes.ofString "s", Bytes.ofString "a", Bytes.ofString "b", Bytes.ofString "ab"] := by
  simp only [Machine.interpret, Machine.compile, compile_eq_evalCompile]
  decide +kernel

end StackScript
