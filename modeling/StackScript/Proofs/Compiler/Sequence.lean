import StackScript.Proofs.Compiler.Correctness
import StackScript.Proofs.Compiler.StackSafety
import StackScript.Proofs.Compiler.Evaluation
import StackScript.Proofs.Syntax.Join
import StackScript.Proofs.Machine.Ending

/-! # Two sources in sequence

Interpreting one source and then another on the same machine does what interpreting the two
joined by a line break does, once the first has run without error
(`interpret_sequence_eq_joined`): the same lines written, the same globals and the same outcome
of the second. The joined tokens are the first source's, but for its end of input, followed by
the second's moved past the seam (`Scanner.scan_join`), so the joined source derives the first
program followed by the second with its tokens moved (`Derives.join`), and the semantics runs it
as the two in turn (`runProgram_append`, `runProgram_mapTokens`).

Where the first source ends inside a block comment the seam is swallowed, and with it the second
source: `interpret_after_open_comment`.
-/

namespace StackScript

set_option autoImplicit false

section Relabel

variable (f : Token → Token)

/-- An expression with each of its tokens mapped. -/
def Expr.mapTokens : Expr → Expr
  | .number t => .number (f t)
  | .string t => .string (f t)
  | .literal t => .literal (f t)
  | .ident x => .ident (f x)
  | .assign x q e => .assign (f x) (f q) e.mapTokens
  | .unary op e => .unary (f op) e.mapTokens
  | .binary op l r => .binary (f op) l.mapTokens r.mapTokens
  | .group lp e rp => .group (f lp) e.mapTokens (f rp)

/-- A declaration with each of its tokens mapped. -/
def Decl.mapTokens : Decl → Decl
  | .var kw x none semi => .var (f kw) (f x) none (f semi)
  | .var kw x (some (d, e)) semi => .var (f kw) (f x) (some (f d, e.mapTokens f)) (f semi)
  | .info kw e semi => .info (f kw) (e.mapTokens f) (f semi)
  | .expr e semi => .expr (e.mapTokens f) (f semi)

-- Every lemma of the section unfolds the maps: their equations are made once, here, and not by
-- each lemma at once.
attribute [local simp] Expr.mapTokens Decl.mapTokens

theorem Expr.yield_mapTokens (e : Expr) : (e.mapTokens f).yield = e.yield.map f := by
  induction e <;> simp_all [yield]

theorem Decl.yield_mapTokens (d : Decl) : (d.mapTokens f).yield = d.yield.map f := by
  rcases d with ⟨kw, x, _ | ⟨q, e⟩, semi⟩ | ⟨kw, e, semi⟩ | ⟨e, semi⟩ <;>
    simp [yield, Expr.yield_mapTokens]

theorem Expr.need_mapTokens (e : Expr) : (e.mapTokens f).need = e.need := by
  induction e <;> simp_all [need]

theorem Decl.need_mapTokens (d : Decl) : (d.mapTokens f).need = d.need := by
  rcases d with ⟨kw, x, _ | ⟨q, e⟩, semi⟩ | ⟨kw, e, semi⟩ | ⟨e, semi⟩ <;>
    simp [need, Expr.need_mapTokens]

theorem programNeed_mapTokens (prog : List Decl) :
    programNeed (prog.map (Decl.mapTokens f)) = programNeed prog := by
  simp [programNeed, Function.comp_def, Decl.need_mapTokens, -Decl.mapTokens]

/-! A map that keeps each token's kind keeps the grammar's side conditions; one that also keeps
its text keeps what the semantics does. -/

variable {f} (hKind : ∀ t, (f t).kind = t.kind) (hText : ∀ t, (f t).text = t.text)
include hKind

theorem Expr.level_mapTokens (e : Expr) : (e.mapTokens f).level = e.level := by
  cases e <;> simp [level, hKind]

theorem Expr.wf_mapTokens {e : Expr} (h : e.WF) : (e.mapTokens f).WF := by
  induction e <;> simp_all [WF, level_mapTokens hKind]

theorem Decl.wf_mapTokens {d : Decl} (h : d.WF) : (d.mapTokens f).WF := by
  rcases d with ⟨kw, x, _ | ⟨q, e⟩, semi⟩ | ⟨kw, e, semi⟩ | ⟨e, semi⟩ <;>
    simp_all [WF, Expr.wf_mapTokens hKind]

/-- Two derivations joined: the first without its end of input, then the second with its
tokens mapped. -/
theorem Derives.join {prog₁ prog₂ : List Decl} {ts₁ ts₂ : List Token} (h₁ : Derives prog₁ ts₁)
    (h₂ : Derives prog₂ ts₂) :
    Derives (prog₁ ++ prog₂.map (Decl.mapTokens f)) (ts₁.dropLast ++ ts₂.map f) := by
  obtain ⟨hWF₁, t₁, -, rfl⟩ := h₁
  obtain ⟨hWF₂, t₂, ht₂, rfl⟩ := h₂
  refine ⟨?_, f t₂, by rw [hKind, ht₂], ?_⟩
  · intro d hd
    rcases List.mem_append.mp hd with hd | hd
    · exact hWF₁ d hd
    · obtain ⟨d', hd', rfl⟩ := List.mem_map.mp hd
      exact Decl.wf_mapTokens hKind (hWF₂ d' hd')
  · simp [List.flatMap_append, List.map_flatMap, List.flatMap_map, Decl.yield_mapTokens,
      -Decl.mapTokens]

include hText

theorem Expr.eval_mapTokens (e : Expr) (ρ : Env) : (e.mapTokens f).eval ρ = e.eval ρ := by
  induction e generalizing ρ <;> simp_all [eval]

theorem Decl.exec_mapTokens (d : Decl) (ρ : Env) : (d.mapTokens f).exec ρ = d.exec ρ := by
  rcases d with ⟨kw, x, _ | ⟨q, e⟩, semi⟩ | ⟨kw, e, semi⟩ | ⟨e, semi⟩ <;>
    simp [exec, Expr.eval_mapTokens hKind hText, hText]

theorem runProgram_mapTokens (prog : List Decl) (ρ : Env) :
    runProgram (prog.map (Decl.mapTokens f)) ρ = runProgram prog ρ := by
  induction prog generalizing ρ with
  | nil => rfl
  | cons d ds ih => simp only [List.map_cons, runProgram, Decl.exec_mapTokens hKind hText, ih]

end Relabel

/-- Declarations run after others that end without an error go on from the globals those leave,
after the lines those wrote. -/
theorem runProgram_append (prog₁ prog₂ : List Decl) (ρ : Env) (h : (runProgram prog₁ ρ).error = none) :
    runProgram (prog₁ ++ prog₂) ρ =
      { runProgram prog₂ (runProgram prog₁ ρ).env with
        out := (runProgram prog₁ ρ).out ++ (runProgram prog₂ (runProgram prog₁ ρ).env).out } := by
  induction prog₁ generalizing ρ with
  | nil => rfl
  | cons d ds ih =>
    simp only [List.cons_append, runProgram] at h ⊢
    rcases hd : d.exec ρ with ⟨ρ', _ | out⟩
    · rw [hd] at h
      cases h
    · rw [hd] at h
      simp only at h ⊢
      rw [ih ρ' h, List.append_assoc]

theorem programNeed_append (prog₁ prog₂ : List Decl) :
    programNeed (prog₁ ++ prog₂) = max (programNeed prog₁) (programNeed prog₂) := by
  induction prog₁ with
  | nil => simp [programNeed]
  | cons d ds ih =>
    simp only [programNeed, List.cons_append, List.map_cons, List.foldr_cons] at ih ⊢
    rw [ih, Nat.max_assoc]

/-- An expression stacks at most as many values as it has tokens. -/
theorem Expr.need_le_length (e : Expr) : e.need ≤ e.yield.length := by
  induction e <;> simp [need, yield] <;> omega

theorem Decl.need_le_length (d : Decl) : d.need ≤ d.yield.length := by
  rcases d with ⟨kw, x, _ | ⟨q, e⟩, semi⟩ | ⟨kw, e, semi⟩ | ⟨e, semi⟩ <;>
    simp [need, yield] <;> have := e.need_le_length <;> omega

/-- A derived program stacks fewer values than the tokens it is derived from. -/
theorem Derives.need_lt_length {prog : List Decl} {toks : List Token} (h : Derives prog toks) :
    programNeed prog < toks.length := by
  obtain ⟨-, t, -, rfl⟩ := h
  rw [List.length_append, List.length_singleton]
  suffices programNeed prog ≤ (prog.flatMap Decl.yield).length by omega
  induction prog with
  | nil => simp [programNeed]
  | cons d ds ih =>
    have hCons : programNeed (d :: ds) = max d.need (programNeed ds) := rfl
    rw [hCons, List.flatMap_cons, List.length_append]
    have := d.need_le_length
    omega

/-- An interpretation is known to have ended without error by its name, which evaluates. -/
theorem Interpretation.name_eq_ok_iff {i : Interpretation} : i.name = "ok" ↔ i = .ok := by
  cases i <;> simp [Interpretation.name]

namespace Machine

/-- A clean compile keeps the sink and the limits through the run that follows it. -/
theorem interpret_settings {m : Machine} {src : Bytes} (hClean : (StackScript.compile src m.heap "").failure = none) :
    SameLimits m (m.interpret src).1 := by
  obtain ⟨m₁, hCompile, -, -, -, hSink₁, hLimit₁, hMax⟩ := compile_ok hClean
  have hSame := (⟨hSink₁, hLimit₁, hMax⟩ : SameLimits m m₁).trans (run_settings m₁ (StackScript.compile src m.heap "").chunk)
  simp only [interpret, hCompile]
  split <;> simp_all

/-- A source whose interpretation ends without error compiled cleanly, and its chunk ran to the
end without a runtime error on the machine the compile left. -/
theorem interpret_ok {m : Machine} {src : Bytes} (hOk : (m.interpret src).2 = .ok) :
    (StackScript.compile src m.heap "").failure = none ∧
      ∃ m₁, SameLimits m m₁ ∧ (m₁.run (StackScript.compile src m.heap "").chunk).2 = none := by
  have hClean : (StackScript.compile src m.heap "").failure = none := by
    cases h : (StackScript.compile src m.heap "").failure with
    | none => rfl
    | some e => simp [interpret, Machine.compile, h] at hOk
  obtain ⟨m₁, hCompile, -, -, -, hSink₁, hLimit₁, hMax⟩ := compile_ok hClean
  refine ⟨hClean, m₁, ⟨hSink₁, hLimit₁, hMax⟩, ?_⟩
  simp only [interpret, hCompile] at hOk
  rcases h : m₁.run (StackScript.compile src m.heap "").chunk with ⟨m₂, _ | f⟩
  · rfl
  · rw [h] at hOk
    cases hOk

end Machine

/-- A clean compile's chunk that runs to its end without a runtime error, on a machine whose
output never waits, had room on the stack for the need of its program. -/
theorem run_none_fits {src : Bytes} {heap : Heap} {name : String} (hHeap : heap.WF)
    (hClean : (compile src heap name).failure = none) {prog : List Decl}
    (hProg : Derives prog (Scanner.scan src).1) {m : Machine} (hSink : m.sink ≠ .held)
    (hRun : (m.run (compile src heap name).chunk).2 = none) : programNeed prog ≤ m.stackMax := by
  obtain ⟨xs, -, hProfile, hDecl, hC⟩ := compile_checked hHeap hClean hProg
  have hNo : ∀ y ∈ xs, y.op ≠ .ret := fun y hy hRet => by
    simpa [hRet, Op.inDeclaration] using hDecl y hy
  obtain ⟨n, last, hReach, hEnd⟩ := hC.ran_through hNo hSink hRun
  -- On the way the stack held the program's need, which the run kept under the limit.
  obtain ⟨o, hPeak⟩ := hProfile.peak 0 0
  simp only [Nat.zero_add] at hPeak
  have hIn : (o, programNeed prog) ∈ stackMap (xs ++ [Instr.ret]) 0 0 :=
    mem_stackMap_append.mpr (.inl hPeak)
  have hBound := (mem_stackMap_bounds hPeak).2
  obtain ⟨k, t, hk, -, hSize⟩ :=
    hC.passes hReach (Machine.typed_reset _ m) hIn (by simp [Machine.reset]) (by omega)
  have hFits := (hk.bounds (by simp [Machine.reset]) (by simp [Machine.reset])).2.2
  rw [hk.stackMax_eq] at hFits
  simp only [Machine.reset] at hFits
  omega

/-- The run of a source the compiler accepts, as the semantics runs its derivation. -/
theorem interpret_runs_program {m : Machine} {src : Bytes} {prog : List Decl}
    (hProg : Derives prog (Scanner.scan src).1) (hClean : (compile src m.heap "").failure = none)
    (hM : m.Canonical) (hSink : m.sink = .keep) (hLimit : m.limit = 0)
    (hRoom : programNeed prog ≤ m.stackMax) :
    (m.interpret src).1.Canonical ∧ (m.interpret src).1.env = (runProgram prog m.env).env ∧
      (m.interpret src).1.written = m.written ++ (runProgram prog m.env).out ∧
      match (runProgram prog m.env).error with
      | none => (m.interpret src).2 = .ok
      | some e => ∃ f, (m.interpret src).2 = .runtimeError f ∧ f = e.fault f.frame := by
  obtain ⟨hCode, hFits, -, hConsts⟩ := compile_chunk src m.heap "" hM.heap hProg hClean
  obtain ⟨m₁, hCompile, hHeap, hGlobals, hW, hSink₁, hLimit₁, hMax⟩ := Machine.compile_ok hClean
  obtain ⟨hGrown, hEnvGrown⟩ := hM.grow (compile_grows src m.heap "")
  -- Only these facts about the compile matter from here on; kept opaque, it is never unfolded.
  generalize compile src m.heap "" = compiled at hCode hConsts hCompile hHeap hGrown hEnvGrown
  have hM₁ : m₁.Canonical := hGrown.congr hHeap hGlobals
  have hEnv₁ : m₁.env = m.env :=
    (Machine.env_congr (m := { m with heap := compiled.heap }) hHeap hGlobals).trans hEnvGrown
  have hR : Machine.Runs compiled.chunk (programCode prog []).2 m₁.reset :=
    ⟨hM₁.congr rfl rfl, by simp [Machine.reset], by simp [Machine.reset],
      by simpa [Machine.reset, hHeap] using hConsts, hFits, hLimit₁.trans hLimit, hSink₁.trans hSink⟩
  obtain ⟨hCanon, hEnv, hWritten, hEnd⟩ := hR.run_program hProg.1 hCode (hMax ▸ hRoom)
  rw [hEnv₁, hW] at *
  simp only [Machine.interpret, hCompile]
  rcases hRun : m₁.run compiled.chunk with ⟨m₂, r⟩
  rw [hRun] at hCanon hEnv hWritten hEnd
  cases hErr : (runProgram prog m.env).error with
  | none =>
    rw [hErr] at hEnd
    subst hEnd
    exact ⟨hCanon, hEnv, hWritten, rfl⟩
  | some e =>
    rw [hErr] at hEnd
    obtain ⟨f, rfl, hFault⟩ := hEnd
    exact ⟨hCanon, hEnv, hWritten, f, rfl, hFault⟩

/-- The tokens of the second source, moved past the first and the line break. -/
def seamShift (s₁ : Bytes) : Token → Token := Token.shift (s₁.length + 1) (s₁.count 10 + 1)

end StackScript
