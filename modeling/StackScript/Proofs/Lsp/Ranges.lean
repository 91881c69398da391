import StackScript.Proofs.Compiler.Diagnostics
import StackScript.Proofs.Compiler.Evaluation
import StackScript.Lsp.Features

/-! # Where the editor's diagnostics point

Every token of a source stands where the tokenisation puts it (`Scanner.scan_sited`): the end of
input after the whole source, a scanner error at a byte that is no line feed, and every other
token at its own text. A compile error is reported at such a token, so the language server's
mark for it starts at the token's line and byte column, from zero.

How far the mark reaches is read off the diagnostic alone: nothing at the end of input, one byte
for a scanner error, and for a lexeme its length added to the start column. The mark then ends
just past the lexeme exactly when the lexeme holds no line feed (`diagnose_covers`). A string
literal may hold line feeds, and then the mark ends on the line where the string starts
(`diagnose_string_across_lines`).
-/

namespace StackScript

set_option autoImplicit false

namespace Scanner

/-- No gap piece starts where a whole gap ends. -/
theorem GapRun.not_startsGap {g rest : Bytes} (h : GapRun g rest) : ¬ StartsGap rest := by
  induction h with
  | stop hStop => exact hStop
  | piece _ _ ih => exact ih

theorem TokenKind.ofWord_ne_error (w : Bytes) : TokenKind.ofWord w ≠ .error := by
  unfold TokenKind.ofWord
  split
  · rename_i e he
    have hKinds : ∀ q ∈ TokenKind.keywords, q.2 ≠ .error := by decide
    exact hKinds e (List.mem_of_find?_eq_some he)
  · decide

theorem Lexeme.kind_ne_error {w : Bytes} {k : TokenKind} (h : Lexeme w k) : k ≠ .error := by
  cases h with
  | fixed hMem =>
    have hKinds : ∀ e ∈ fixedLexemes, e.2 ≠ .error := by decide
    exact hKinds _ hMem
  | number => decide
  | word => exact TokenKind.ofWord_ne_error _
  | string => decide

/-- Where a token stands in the source `src`: the end of input after all of it, a scanner error
at a byte that is no line feed, and any other token at its own text, which is not empty. -/
structure Sited (src : Bytes) (t : Token) : Prop where
  eof : t.kind = .eof → t.pos = Position.after src
  error : t.kind = .error → ∃ pre b rest, src = pre ++ b :: rest ∧ b ≠ 10 ∧ t.pos = Position.after pre
  text : t.kind ≠ .eof → t.kind ≠ .error →
    ∃ pre rest, src = pre ++ t.text ++ rest ∧ t.text ≠ [] ∧ t.pos = Position.after pre

/-- The token of a munch after a gap stands where the munch starts. -/
theorem munch_sited {pre g w rest text : Bytes} {k : TokenKind} (hGap : GapRun g (w ++ rest))
    (hMunch : Munch w rest k text) :
    Sited (pre ++ (g ++ w ++ rest)) ⟨k, text, Position.after (pre ++ g)⟩ := by
  have hSrc : pre ++ (g ++ w ++ rest) = (pre ++ g) ++ w ++ rest := by simp
  refine ⟨fun hk => absurd hk hMunch.kind_ne_eof, fun hk => ?_, fun _ hk => ?_⟩
  · -- An error covers an unmatched quote or one byte that starts neither a lexeme nor a gap.
    cases hMunch with
    | lexeme hL => exact absurd hk hL.1.kind_ne_error
    | @unterminated q r hq _ _ =>
      refine ⟨pre ++ g, q, r, by rw [hSrc]; simp, ?_, rfl⟩
      rcases hq with rfl | rfl <;> decide
    | @unexpected b _ _ _ =>
      refine ⟨pre ++ g, b, rest, by rw [hSrc]; simp, ?_, rfl⟩
      rintro rfl
      exact hGap.not_startsGap (.inl ⟨10, rest, rfl, rfl⟩)
  · cases hMunch with
    | lexeme hL => exact ⟨pre ++ g, rest, hSrc, hL.1.ne_nil, rfl⟩
    | unterminated | unexpected => exact absurd rfl hk

/-- Every token of a tokenisation stands where it says. -/
theorem Lexes.sited {pre r : Bytes} {ts : List Token} (h : Lexes pre r ts) : ∀ t ∈ ts, Sited (pre ++ r) t := by
  induction h with
  | @eof pre g _ =>
    intro t ht
    rw [List.mem_singleton.mp ht]
    exact ⟨fun _ => rfl, fun hk => (nomatch hk), fun hk _ => absurd rfl hk⟩
  | @token pre g w rest text k ts hGap hMunch _ ih =>
    intro t ht
    rcases List.mem_cons.mp ht with rfl | ht
    · exact munch_sited hGap hMunch
    · have hSrc : pre ++ g ++ w ++ rest = pre ++ (g ++ w ++ rest) := by simp
      exact hSrc ▸ ih t ht

/-- Every token of a source stands where it says. -/
theorem scan_sited (src : Bytes) : ∀ t ∈ (scan src).1, Sited src t :=
  ((scan_iff_lexes src _).mp rfl).sited

end Scanner

namespace Lsp

/-- The place of the byte after `pre`: its line and byte column, both from zero. -/
def Place.after (pre : Bytes) : Place := ⟨pre.count 10, (pre.reverse.takeWhile (· != 10)).length⟩

theorem Place.after_eq_position (pre : Bytes) :
    Place.after pre = ⟨(Position.after pre).line - 1, (Position.after pre).column - 1⟩ := by
  simp [Place.after, Position.after]

/-- Bytes without a line feed move the place along its line. -/
theorem Place.after_append_of_not_mem (pre w : Bytes) (hw : (10 : UInt8) ∉ w) :
    Place.after (pre ++ w) = ⟨(Place.after pre).line, (Place.after pre).character + w.length⟩ := by
  have hStay : ∀ b ∈ w.reverse, (b != 10) = true := by
    intro b hb
    have hb' : b ≠ 10 := fun h => hw (h ▸ List.mem_reverse.mp hb)
    simpa using hb'
  simp only [Place.after, List.count_append, List.count_eq_zero.mpr hw, List.reverse_append,
    List.takeWhile_append_of_pos hStay, List.length_append, List.length_reverse, Nat.add_zero,
    Place.mk.injEq, true_and]
  omega

/-- Bytes with a line feed move the place to a later line. -/
theorem Place.line_lt_after_append (pre w : Bytes) (hw : (10 : UInt8) ∈ w) :
    (Place.after pre).line < (Place.after (pre ++ w)).line := by
  have hPos := List.count_pos_iff.mpr hw
  simp only [Place.after, List.count_append]
  omega

/-- The mark of one compile error, as the language server places it. -/
def Mark.ofDiagnostic (d : Diagnostic) : Mark :=
  let start : Place := ⟨d.line - 1, d.column - 1⟩
  let width := if d.atEnd then 0 else if d.lexeme.isEmpty then 1 else d.lexeme.length
  ⟨start, { start with character := start.character + width }, d.message⟩

theorem diagnose_eq (text : Bytes) :
    diagnose text =
      (((compile text Heap.empty "").failure.map CompileFailure.diagnostics).getD []).map Mark.ofDiagnostic := by
  unfold diagnose
  cases (compile text Heap.empty "").failure <;> rfl

/-- How a mark covers the token that a diagnostic was reported at in `text`: the end of input by
the empty range at the end of the text; a scanner error by the one byte it was reported at,
which is no line feed; a token with a lexeme by a range from the lexeme's first byte that ends
just past its last byte exactly when the lexeme holds no line feed. -/
structure Covers (text : Bytes) (d : Diagnostic) (mk : Mark) : Prop where
  atEnd : d.atEnd = true → mk.start = Place.after text ∧ mk.stop = mk.start
  scanError : d.atEnd = false → d.lexeme = [] →
    ∃ pre b rest, text = pre ++ b :: rest ∧ b ≠ 10 ∧ mk.start = Place.after pre ∧
      mk.stop = Place.after (pre ++ [b])
  lexeme : d.lexeme ≠ [] →
    ∃ pre rest, text = pre ++ d.lexeme ++ rest ∧ mk.start = Place.after pre ∧
      (mk.stop = Place.after (pre ++ d.lexeme) ↔ (10 : UInt8) ∉ d.lexeme)

/-- The mark of an error reported at a token covers that token as `Covers` says. -/
theorem covers_atToken {text : Bytes} {t : Token} (hSite : Scanner.Sited text t) (message : String) :
    Covers text (Diagnostic.atToken t message) (Mark.ofDiagnostic (Diagnostic.atToken t message)) := by
  have hStart : ∀ pre, t.pos = Position.after pre →
      (Mark.ofDiagnostic (Diagnostic.atToken t message)).start = Place.after pre := by
    intro pre hPos
    simp [Mark.ofDiagnostic, Diagnostic.atToken, hPos, Place.after_eq_position]
  by_cases hEof : t.kind = .eof
  · have hPos := hSite.eof hEof
    refine ⟨fun _ => ⟨hStart text hPos, ?_⟩, fun h => by simp [Diagnostic.atToken, hEof] at h,
      fun h => by simp [Diagnostic.atToken, hEof] at h⟩
    simp [Mark.ofDiagnostic, Diagnostic.atToken, hEof]
  by_cases hErr : t.kind = .error
  · obtain ⟨pre, b, rest, hText, hb, hPos⟩ := hSite.error hErr
    refine ⟨fun h => by simp [Diagnostic.atToken, hErr] at h, fun _ _ => ⟨pre, b, rest, hText, hb,
      hStart pre hPos, ?_⟩, fun h => by simp [Diagnostic.atToken, hErr] at h⟩
    -- One byte that is no line feed moves the place one column along.
    rw [Place.after_append_of_not_mem pre [b] (by simpa [eq_comm] using hb), ← hStart pre hPos]
    simp [Mark.ofDiagnostic, Diagnostic.atToken, hErr]
  · obtain ⟨pre, rest, hText, hNe, hPos⟩ := hSite.text hEof hErr
    have hLexeme : (Diagnostic.atToken t message).lexeme = t.text := by
      simp [Diagnostic.atToken, hEof, hErr]
    have hStop : (Mark.ofDiagnostic (Diagnostic.atToken t message)).stop =
        ⟨(Place.after pre).line, (Place.after pre).character + t.text.length⟩ := by
      rw [← hStart pre hPos]
      simp [Mark.ofDiagnostic, Diagnostic.atToken, hEof, hErr, hNe]
    refine ⟨fun h => by simp [Diagnostic.atToken, hEof] at h, fun _ h => absurd (hLexeme ▸ h) hNe,
      fun _ => ⟨pre, rest, hLexeme ▸ hText, hStart pre hPos, ?_⟩⟩
    rw [hLexeme, hStop]
    constructor
    · -- A mark that stays on its line cannot reach past a line feed.
      intro hEq hMem
      have hLt := Place.line_lt_after_append pre t.text hMem
      rw [← hEq] at hLt
      exact Nat.lt_irrefl _ hLt
    · intro hNo
      rw [Place.after_append_of_not_mem pre t.text hNo]

/-- **The editor's marks for the compile errors of a text.** There is one mark for each
diagnostic of the compile, in the same order and with the same message, and it covers the token
the diagnostic was reported at: it starts at that token's line and byte column, from zero; it is
empty at the end of the text for an error at the end of input and one byte long for a scanner
error; for a lexeme it ends just past the lexeme exactly when the lexeme holds no line feed. -/
theorem diagnose_covers (text : Bytes) :
    List.Forall₂ (fun d mk => mk.message = d.message ∧ Covers text d mk)
      (((compile text Heap.empty "").failure.map CompileFailure.diagnostics).getD []) (diagnose text) := by
  rw [diagnose_eq, List.forall₂_map_right_iff]
  refine List.forall₂_same.mpr fun d hd => ⟨rfl, ?_⟩
  obtain ⟨-, hFailure, -, hAt⟩ := compile_reports_in_order text Heap.empty ""
  -- A diagnostic of a failed compile is one of the compile's reports, each at a token.
  have hReport : d ∈ (compileState text Heap.empty "").diagnostics.toList := by
    cases hf : (compile text Heap.empty "").failure with
    | none => simp [hf] at hd
    | some f =>
      rw [hf] at hd
      simpa [hFailure f hf] using hd
  obtain ⟨t, ht, message, rfl⟩ := hAt d hReport
  exact covers_atToken (Scanner.scan_sited text t ht) message

/-- A string literal that spans two lines, named where a variable's name should stand: the mark
of the error starts at the string and stays on its first line, nine bytes into it, while the
string ends on the second line, two bytes into it. -/
theorem diagnose_string_across_lines :
    (compile (Bytes.ofString "var \"a\nb\";") Heap.empty "").failure.map
        (·.diagnostics.map (·.lexeme)) = some [Bytes.ofString "\"a\nb\""] ∧
      (diagnose (Bytes.ofString "var \"a\nb\";")).map (fun mk => (mk.start, mk.stop)) =
        [(⟨0, 4⟩, ⟨0, 9⟩)] ∧
      Place.after (Bytes.ofString "var " ++ Bytes.ofString "\"a\nb\"") = ⟨1, 2⟩ := by
  refine ⟨?_, ?_, by decide +kernel⟩
  · rw [compile_eq_evalCompile]
    decide +kernel
  · rw [diagnose_eq, compile_eq_evalCompile]
    decide +kernel

end Lsp

end StackScript
