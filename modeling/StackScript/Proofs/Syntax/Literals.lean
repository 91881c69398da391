import StackScript.Proofs.Syntax.Lexemes
import StackScript.Proofs.Text.Utf8
import StackScript.Proofs.Compiler.Grammar

/-! # The text of string and name tokens

Every token that is neither an error nor the end of input is a lexeme that stands in the input
(`Scanner.Lexes.lexeme_infix`). A string token is a quote, a body without that quote, and the
quote again, so its body is well-formed UTF-8 when the input is (`Scanner.stringBody_utf8`); a
name is made of ASCII letters, digits and underscores, so it is well-formed UTF-8 whatever the
input (`Scanner.ident_utf8`). Both are no longer than the input.
-/

namespace StackScript

set_option autoImplicit false

namespace Scanner

theorem TokenKind.ofWord_ne_string (w : Bytes) : TokenKind.ofWord w ≠ .string := by
  unfold TokenKind.ofWord
  split
  · rename_i e he
    have hKinds : ∀ q ∈ TokenKind.keywords, q.2 ≠ .string := by decide
    exact hKinds e (List.mem_of_find?_eq_some he)
  · decide

/-- A lexeme of the string kind is a quote, a body without that quote, and the quote again. -/
theorem Lexeme.string_shape {w : Bytes} {k : TokenKind} (h : Lexeme w k) (hk : k = .string) :
    ∃ q body, IsQuote q ∧ q ∉ body ∧ w = q :: body ++ [q] := by
  cases h with
  | fixed hMem =>
    have hKinds : ∀ e ∈ fixedLexemes, e.2 ≠ .string := by decide
    exact absurd hk (hKinds _ hMem)
  | number => cases hk
  | word => exact absurd hk (TokenKind.ofWord_ne_string _)
  | string hq hBody => exact ⟨_, _, hq, hBody, rfl⟩

/-- A lexeme of the name kind is a word, all of ASCII bytes. -/
theorem Lexeme.ascii_of_ident {w : Bytes} {k : TokenKind} (h : Lexeme w k) (hk : k = .ident) :
    ∀ x ∈ w, x < 0x80 := by
  cases h with
  | fixed hMem =>
    have hKinds : ∀ e ∈ fixedLexemes, e.2 ≠ .ident := by decide
    exact absurd hk (hKinds _ hMem)
  | number => cases hk
  | string => cases hk
  | @word b r hb hr =>
    -- letters, digits and the underscore all lie below 0x80
    have hWord : ∀ c, isWordByte c = true → c < 0x80 := by
      intro c hc
      simp only [isWordByte, isLetter, isDigit, Bool.or_eq_true, Bool.and_eq_true, decide_eq_true_eq,
        beq_iff_eq, UInt8.le_iff_toNat_le, UInt8.lt_iff_toNat_lt, ← UInt8.toNat_inj, UInt8.reduceToNat] at hc ⊢
      omega
    intro x hx
    rcases List.mem_cons.mp hx with rfl | hx
    · exact hWord x (by simp [isWordByte, hb])
    · exact hWord x (hr x hx)

/-- Every token but an error and the end of input is a lexeme that stands in the rest of the
input it was read from. -/
theorem Lexes.lexeme_infix {pre r : Bytes} {ts : List Token} (h : Lexes pre r ts) :
    ∀ t ∈ ts, t.kind ≠ .error → t.kind ≠ .eof → Lexeme t.text t.kind ∧ t.text <:+: r := by
  induction h with
  | eof hRun =>
    intro t ht _ hEof
    rw [List.mem_singleton] at ht
    subst ht
    exact absurd rfl hEof
  | @token pre g w rest text k ts hRun hMunch _ ih =>
    intro t ht hErr hEof
    rcases List.mem_cons.mp ht with rfl | ht
    · cases hMunch with
      | lexeme hLong => exact ⟨hLong.1, ⟨g, rest, rfl⟩⟩
      | unterminated => exact absurd rfl hErr
      | unexpected => exact absurd rfl hErr
    · obtain ⟨hLex, hInfix⟩ := ih t ht hErr hEof
      exact ⟨hLex, hInfix.trans (List.suffix_append _ _).isInfix⟩

variable {src : Bytes} {t : Token}

/-- The body of a string token stands in the source: it is well-formed UTF-8 when the source is,
and no longer than the source. -/
theorem stringBody_utf8 (hSrc : Bytes.isUtf8 src = true) (ht : t ∈ (scan src).1) (hk : t.kind = .string) :
    Bytes.isUtf8 (stringBody t.text) = true ∧ (stringBody t.text).length ≤ src.length := by
  have hLexes := (scan_iff_lexes src _).mp rfl
  obtain ⟨hLex, ⟨before, after, hSplit⟩⟩ :=
    hLexes.lexeme_infix t ht (by rw [hk]; decide) (by rw [hk]; decide)
  obtain ⟨q, body, hq, -, hText⟩ := hLex.string_shape hk
  have hBody : stringBody t.text = body := by
    simp [hText, stringBody]
  have hAscii : q < 0x80 := by
    rcases hq with rfl | rfl <;> decide
  rw [hBody]
  rw [hText] at hSplit
  -- the source is the bytes before, the opening quote, the body, the closing quote, the rest
  have hSrc' : src = before ++ q :: (body ++ q :: after) := by
    rw [← hSplit]
    simp
  rw [hSrc', Bytes.isUtf8_append_ascii hAscii, Bytes.isUtf8_append_ascii hAscii] at hSrc
  simp only [Bool.and_eq_true] at hSrc
  refine ⟨hSrc.2.1, ?_⟩
  rw [hSrc']
  simp
  omega

/-- A name token is well-formed UTF-8 and no longer than the source. -/
theorem ident_utf8 (ht : t ∈ (scan src).1) (hk : t.kind = .ident) :
    Bytes.isUtf8 t.text = true ∧ t.text.length ≤ src.length := by
  have hLexes := (scan_iff_lexes src _).mp rfl
  obtain ⟨hLex, hInfix⟩ := hLexes.lexeme_infix t ht (by rw [hk]; decide) (by rw [hk]; decide)
  exact ⟨Bytes.isUtf8_of_ascii (hLex.ascii_of_ident hk), hInfix.length_le⟩

end Scanner

end StackScript
