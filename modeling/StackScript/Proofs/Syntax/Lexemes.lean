import Mathlib
import StackScript.Proofs.Syntax.Scan

/-! # The scanner reads the longest lexeme after each gap

A declarative account of tokenisation, and the theorem that the scanner follows it.

A gap is a maximal run of gap pieces (`Scanner.GapRun`): blanks, line comments from `//` up to
the next line feed or the end, and block comments from `/*` through the first `*/` that starts
after the opening, or to the end. After a gap comes the longest lexeme (`Scanner.Longest`): a
punctuator, an operator of one or two bytes, a number, a word (of the keyword kind it spells, if
any), or a string from a quote through the next same quote. Where no lexeme starts, an error
token covers an unmatched quote through the end of input, or else one byte (`Scanner.Munch`).
`Scanner.Lexes` strings these together up to the end of input, each token at the position of
its first byte, given in closed form by `Position.after`.

Main statement, `Scanner.scan_iff_lexes`: the tokens the scanner returns are the one
tokenisation that `Lexes` describes. The proof pairs each part of the scanner with its part of
the description both ways: what the scanner does meets the description (`*_sound`), and what
the description allows the scanner does (`*_complete`), so the description has one solution.
-/

namespace StackScript

set_option autoImplicit false

/-! ## Positions in closed form -/

namespace Position

/-- The position after the bytes `pre`: the offset is their number, the line one more than the
line feeds among them, the column one more than the bytes after the last line feed. -/
def after (pre : Bytes) : Position :=
  ⟨pre.length, pre.count 10 + 1, (pre.reverse.takeWhile (· != 10)).length + 1⟩

@[simp] theorem past_nil (p : Position) : p.past [] = p := rfl

@[simp] theorem past_cons (p : Position) (b : UInt8) (bs : Bytes) : p.past (b :: bs) = (p.next b).past bs :=
  rfl

theorem past_append (p : Position) (a b : Bytes) : p.past (a ++ b) = (p.past a).past b :=
  List.foldl_append

/-- Counting byte by byte from the first position gives the closed form. -/
theorem initial_past (pre : Bytes) : initial.past pre = after pre := by
  induction pre using List.reverseRecOn with
  | nil => rfl
  | append_singleton pre b ih =>
    rw [past_append, ih]
    by_cases hb : b = 10
    · subst hb
      simp [after, past, next, List.count_append]
    · have hb' : (b == 10) = false := by simpa using hb
      simp [after, past, next, List.count_append, hb, hb']

theorem past_after (pre bs : Bytes) : (after pre).past bs = after (pre ++ bs) := by
  rw [← initial_past, ← initial_past, past_append]

end Position

namespace Scanner

/-! ## Gaps -/

/-- The bytes `*/` that close a block comment. -/
def blockClose : Bytes := [42, 47]

/-- Whether the input starts a gap piece: a blank, `//` or `/*`. -/
def StartsGap (r : Bytes) : Prop :=
  (∃ b r', r = b :: r' ∧ isBlank b = true) ∨ (∃ r', r = 47 :: 47 :: r') ∨ ∃ r', r = 47 :: 42 :: r'

/-- A gap piece, followed by `rest`: a blank; a line comment up to a line feed or the end; a block
comment through the first `*/` after its opening, or an unclosed one to the end. -/
inductive GapPiece : Bytes → Bytes → Prop
  | blank {b : UInt8} {rest : Bytes} : isBlank b = true → GapPiece [b] rest
  | lineComment {c rest : Bytes} : 10 ∉ c → (rest = [] ∨ ∃ r, rest = 10 :: r) →
      GapPiece (47 :: 47 :: c) rest
  | blockComment {c rest : Bytes} : ¬ blockClose <:+: c → GapPiece (47 :: 42 :: (c ++ blockClose)) rest
  | openComment {c : Bytes} : ¬ blockClose <:+: c → GapPiece (47 :: 42 :: c) []

/-- `g` is the whole gap before `rest`: gap pieces one after another, up to bytes that start
none. -/
inductive GapRun : Bytes → Bytes → Prop
  | stop {rest : Bytes} : ¬ StartsGap rest → GapRun [] rest
  | piece {p g rest : Bytes} : GapPiece p (g ++ rest) → GapRun g rest → GapRun (p ++ g) rest

/-! The first step of the skipper from between pieces, by the first bytes. -/

theorem skipGap_blank {b : UInt8} (hb : isBlank b = true) (r : Bytes) (p : Position) :
    skipGap .blanks (b :: r) p = skipGap .blanks r (p.next b) := by
  cases r <;> simp [skipGap, hb]

theorem skipGap_line (r : Bytes) (p : Position) :
    skipGap .blanks (47 :: 47 :: r) p = skipGap .lineComment r ((p.next 47).next 47) := by
  simp [skipGap, isBlank]

theorem skipGap_block (r : Bytes) (p : Position) :
    skipGap .blanks (47 :: 42 :: r) p = skipGap (.blockComment false) r ((p.next 47).next 42) := by
  simp [skipGap, isBlank]

theorem skipGap_stop {r : Bytes} (h : ¬ StartsGap r) (p : Position) : skipGap .blanks r p = (r, p) := by
  match r with
  | [] => rfl
  | [b] =>
    have hBlank : isBlank b = false := by
      cases hb : isBlank b
      · rfl
      · exact absurd (.inl ⟨b, [], rfl, hb⟩) h
    simp [skipGap, hBlank]
  | b :: c :: r =>
    have hBlank : isBlank b = false := by
      cases hb : isBlank b
      · rfl
      · exact absurd (.inl ⟨b, c :: r, rfl, hb⟩) h
    -- A slash alone is no gap: the byte after it starts no comment.
    have hComment : b = 47 → c ≠ 47 ∧ c ≠ 42 := by
      rintro rfl
      exact ⟨fun hc => h (.inr (.inl ⟨r, by rw [hc]⟩)), fun hc => h (.inr (.inr ⟨r, by rw [hc]⟩))⟩
    by_cases hb : b = 47
    · obtain ⟨h47, h42⟩ := hComment hb
      subst hb
      simp [skipGap, hBlank, h47, h42]
    · simp [skipGap, hBlank, hb]

theorem skipGap_lineComment {c : Bytes} (hc : (10 : UInt8) ∉ c) (r : Bytes) (p : Position) :
    skipGap .lineComment (c ++ r) p = skipGap .lineComment r (p.past c) := by
  induction c generalizing p with
  | nil => rfl
  | cons b c ih =>
    have hb : (b == 10) = false := by
      simpa using fun h : b = 10 => hc (h ▸ List.mem_cons_self)
    simp only [List.cons_append, skipGap, hb, Bool.false_eq_true, if_false, Position.past_cons]
    exact ih (fun h => hc (List.mem_cons_of_mem _ h)) _

/-- A line comment ends at a line feed, which the gap goes on with, or at the end. -/
theorem skipGap_lineComment_end {rest : Bytes} (h : rest = [] ∨ ∃ r, rest = 10 :: r) (p : Position) :
    skipGap .lineComment rest p = skipGap .blanks rest p := by
  rcases h with rfl | ⟨r, rfl⟩
  · rfl
  · rw [skipGap_blank (by decide)]
    simp [skipGap]

/-- Inside a block comment with no `*/`, the skipper remembers whether the last byte was a
star. -/
theorem skipGap_blockComment {c : Bytes} (hc : ¬ blockClose <:+: c) (a : Bool)
    (ha : a = true → c.head? ≠ some 47) (r : Bytes) (p : Position) :
    skipGap (.blockComment a) (c ++ r) p =
      skipGap (.blockComment (c.getLast?.elim a (· == 42))) r (p.past c) := by
  induction c generalizing a p with
  | nil => rfl
  | cons b c ih =>
    have hClose : (a && b == 47) = false := by
      cases a
      · rfl
      · simpa using ha rfl
    -- A star followed by a slash would close the comment inside `c`.
    have hNext : (b == 42) = true → c.head? ≠ some 47 := by
      intro hb hHead
      rw [beq_iff_eq] at hb
      subst hb
      obtain ⟨c', rfl⟩ : ∃ c', c = 47 :: c' := by
        cases c with
        | nil => cases hHead
        | cons x c' => cases hHead; exact ⟨c', rfl⟩
      exact hc (List.infix_cons_iff.mpr (.inl ⟨c', rfl⟩))
    simp only [List.cons_append, skipGap, hClose, Bool.false_eq_true, if_false, Position.past_cons]
    rw [ih (fun h => hc (List.infix_cons_iff.mpr (.inr h))) (b == 42) hNext]
    cases hLast : c.getLast? <;> simp [List.getLast?_cons, hLast]

theorem skipGap_piece {g r : Bytes} (h : GapPiece g r) (p : Position) :
    skipGap .blanks (g ++ r) p = skipGap .blanks r (p.past g) := by
  cases h with
  | blank hb => exact skipGap_blank hb r p
  | lineComment hc hEnd =>
    rw [List.cons_append, List.cons_append, skipGap_line, skipGap_lineComment hc,
      skipGap_lineComment_end hEnd]
    rfl
  | blockComment hc =>
    rename_i c
    rw [List.cons_append, List.cons_append, skipGap_block, List.append_assoc,
      skipGap_blockComment hc false (fun h => nomatch h)]
    -- The closing star, then the slash after it.
    cases c.getLast?.elim false (· == 42) <;>
      simp [blockClose, skipGap, Position.past_append]
  | openComment hc =>
    rename_i c
    have hEnd := skipGap_blockComment hc false (fun h => nomatch h) [] ((p.next 47).next 42)
    rw [List.append_nil] at hEnd
    rw [List.cons_append, List.cons_append, List.append_nil, skipGap_block, hEnd]
    cases c.getLast?.elim false (· == 42) <;> rfl

/-- The gap the description gives is the gap the scanner skips. -/
theorem skipGap_complete {g rest : Bytes} (h : GapRun g rest) (p : Position) :
    skipGap .blanks (g ++ rest) p = (rest, p.past g) := by
  induction h generalizing p with
  | stop hStop => exact skipGap_stop hStop p
  | piece hPiece _ ih =>
    rw [List.append_assoc, skipGap_piece hPiece, ih, Position.past_append]

/-- The bytes before the first `*/` of a list that holds one. -/
theorem exists_first_close {l : Bytes} (h : blockClose <:+: l) :
    ∃ c r, l = c ++ blockClose ++ r ∧ ¬ blockClose <:+: c := by
  induction l with
  | nil => exact absurd h.length_le (by simp [blockClose])
  | cons x l ih =>
    by_cases hHead : blockClose <+: x :: l
    · obtain ⟨r, hr⟩ := hHead
      exact ⟨[], r, hr.symm, fun hc => absurd hc.length_le (by simp [blockClose])⟩
    · obtain ⟨c, r, rfl, hc⟩ := ih ((List.infix_cons_iff.mp h).resolve_left hHead)
      refine ⟨x :: c, r, rfl, fun hx => ?_⟩
      rcases List.infix_cons_iff.mp hx with hPre | hIn
      · exact hHead (hPre.trans (by simp [List.prefix_append]))
      · exact hc hIn

/-- Bytes that start a gap start it with one whole piece. -/
theorem startsGap_piece {r : Bytes} (h : StartsGap r) : ∃ g r', r = g ++ r' ∧ g ≠ [] ∧ GapPiece g r' := by
  rcases h with ⟨b, r', rfl, hb⟩ | ⟨r', rfl⟩ | ⟨r', rfl⟩
  · exact ⟨[b], r', rfl, List.cons_ne_nil _ _, .blank hb⟩
  · -- A line comment runs to the next line feed.
    refine ⟨47 :: 47 :: r'.takeWhile (· != 10), r'.dropWhile (· != 10), by simp, List.cons_ne_nil _ _,
      .lineComment (fun hMem => by simpa using List.mem_takeWhile_imp hMem) ?_⟩
    cases hDrop : r'.dropWhile (· != 10) with
    | nil => exact .inl rfl
    | cons x r'' =>
      have hx := List.head_dropWhile_not (· != 10) (l := r') (by simp [hDrop])
      simp only [hDrop, List.head_cons] at hx
      have hx10 : x = 10 := by simpa using hx
      exact .inr ⟨r'', by rw [hx10]⟩
  · -- A block comment runs to the first closing, or to the end.
    by_cases hClose : blockClose <:+: r'
    · obtain ⟨c, r'', rfl, hc⟩ := exists_first_close hClose
      exact ⟨47 :: 42 :: (c ++ blockClose), r'', by simp, List.cons_ne_nil _ _, .blockComment hc⟩
    · exact ⟨47 :: 42 :: r', [], by simp, List.cons_ne_nil _ _, .openComment hClose⟩

/-- The scanner skips a whole gap. -/
theorem skipGap_sound (r : Bytes) (p : Position) :
    ∃ g, r = g ++ (skipGap .blanks r p).1 ∧ (skipGap .blanks r p).2 = p.past g ∧
      GapRun g (skipGap .blanks r p).1 := by
  induction hLen : r.length using Nat.strong_induction_on generalizing r p with
  | _ n ih =>
    by_cases hStarts : StartsGap r
    · obtain ⟨g, r', rfl, hg, hPiece⟩ := startsGap_piece hStarts
      have hShorter : r'.length < n := by
        rw [← hLen, List.length_append]
        have := List.length_pos_iff.mpr hg
        omega
      obtain ⟨g', hSplit, hPos, hRun⟩ := ih _ hShorter r' (p.past g) rfl
      rw [skipGap_piece hPiece]
      refine ⟨g ++ g', by rw [List.append_assoc, ← hSplit], by rw [hPos, Position.past_append], ?_⟩
      exact .piece (by rw [← hSplit]; exact hPiece) hRun
    · rw [skipGap_stop hStarts]
      exact ⟨[], rfl, rfl, .stop hStarts⟩

/-! ## Lexemes -/

/-- The lexemes of fixed spelling: the punctuators, the two-byte operators and their one-byte
forms. -/
def fixedLexemes : List (String × TokenKind) :=
  [("(", .lparen), (")", .rparen), ("\x7b", .lbrace), ("\x7d", .rbrace), (",", .comma), (".", .dot),
   ("-", .minus), ("+", .plus), (";", .semicolon), ("/", .slash), ("*", .star),
   (":=", .define), ("!=", .notEqual), ("==", .equal), ("<=", .lessEqual), (">=", .greaterEqual),
   (":", .colon), ("!", .bang), ("=", .assign), ("<", .less), (">", .greater)]

/-- A quote: `"` or `'`. -/
def IsQuote (b : UInt8) : Prop := b = 34 ∨ b = 39

/-- The lexemes, each with the kind of token it makes: a fixed lexeme; a number, digits with an
optional point and digits; a word of letters, digits and underscores that starts with a letter or
underscore, of the keyword kind it spells or else a name; a string from a quote through the next
same quote. -/
inductive Lexeme : Bytes → TokenKind → Prop
  | fixed {s : String} {k : TokenKind} : (s, k) ∈ fixedLexemes → Lexeme (Bytes.ofString s) k
  | number {ds fr : Bytes} : ds ≠ [] → (∀ d ∈ ds, isDigit d = true) →
      (fr = [] ∨ ∃ e, fr = 46 :: e ∧ e ≠ [] ∧ ∀ d ∈ e, isDigit d = true) → Lexeme (ds ++ fr) .number
  | word {b : UInt8} {r : Bytes} : isLetter b = true → (∀ c ∈ r, isWordByte c = true) →
      Lexeme (b :: r) (TokenKind.ofWord (b :: r))
  | string {q : UInt8} {body : Bytes} : IsQuote q → q ∉ body → Lexeme (q :: body ++ [q]) .string

/-- `w`, of kind `k`, is the longest lexeme at the head of `input`. -/
def Longest (w : Bytes) (k : TokenKind) (input : Bytes) : Prop :=
  Lexeme w k ∧ w <+: input ∧ ∀ w' k', Lexeme w' k' → w' <+: input → w'.length ≤ w.length

/-- No lexeme starts the input. -/
def NoLexeme (input : Bytes) : Prop := ∀ w k, Lexeme w k → ¬ w <+: input

/-- What comes after a gap, with the rest of the input: the longest lexeme, which is the token's
text; otherwise an error, for an unmatched quote through the end of input or else for one byte. -/
inductive Munch : Bytes → Bytes → TokenKind → Bytes → Prop
  | lexeme {w rest : Bytes} {k : TokenKind} : Longest w k (w ++ rest) → Munch w rest k w
  | unterminated {q : UInt8} {r : Bytes} : IsQuote q → q ∉ r → NoLexeme (q :: r) →
      Munch (q :: r) [] .error (Bytes.ofString "Unterminated string.")
  | unexpected {b : UInt8} {rest : Bytes} : ¬ IsQuote b → NoLexeme (b :: rest) →
      Munch [b] rest .error (Bytes.ofString "Unexpected character.")

/-! ### The fixed lexemes and the scanner's tables -/

/-- The fixed lexemes as bytes. -/
def fixedBytes : List (Bytes × TokenKind) :=
  [([40], .lparen), ([41], .rparen), ([123], .lbrace), ([125], .rbrace), ([44], .comma),
   ([46], .dot), ([45], .minus), ([43], .plus), ([59], .semicolon), ([47], .slash), ([42], .star),
   ([58, 61], .define), ([33, 61], .notEqual), ([61, 61], .equal), ([60, 61], .lessEqual),
   ([62, 61], .greaterEqual), ([58], .colon), ([33], .bang), ([61], .assign), ([60], .less),
   ([62], .greater)]

theorem fixedLexemes_bytes : fixedLexemes.map (fun e => (Bytes.ofString e.1, e.2)) = fixedBytes := by
  decide +kernel

theorem mem_fixedBytes {w : Bytes} {k : TokenKind} :
    (w, k) ∈ fixedBytes ↔ ∃ s, (s, k) ∈ fixedLexemes ∧ Bytes.ofString s = w := by
  rw [← fixedLexemes_bytes, List.mem_map]
  constructor
  · rintro ⟨⟨s, k'⟩, hMem, hEq⟩
    obtain ⟨rfl, rfl⟩ := Prod.mk.inj hEq
    exact ⟨s, hMem, rfl⟩
  · rintro ⟨s, hMem, rfl⟩
    exact ⟨(s, k), hMem, rfl⟩

/-- Whether bytes and a kind are a fixed lexeme by the scanner's tables: a one-byte mark, or the
first byte of a pair with or without the `=` after it. -/
def fixedShape : Bytes → TokenKind → Bool
  | [b], k => single b == some k || (pair b).map Prod.snd == some k
  | [b, c], k => c == 61 && (pair b).map Prod.fst == some k
  | _, _ => false

theorem fixedBytes_shape : ∀ e ∈ fixedBytes, fixedShape e.1 e.2 = true := by decide

theorem fixedShape_iff {w : Bytes} {k : TokenKind} :
    fixedShape w k = true ↔ (∃ b, w = [b] ∧ single b = some k) ∨ (∃ b two, w = [b] ∧ pair b = some (two, k)) ∨
      ∃ b one, w = [b, 61] ∧ pair b = some (k, one) := by
  constructor
  · intro h
    match w with
    | [b] =>
      simp only [fixedShape, Bool.or_eq_true, beq_iff_eq] at h
      rcases h with h | h
      · exact .inl ⟨b, rfl, h⟩
      · obtain ⟨⟨two, k'⟩, hp, rfl⟩ := Option.map_eq_some_iff.mp h
        exact .inr (.inl ⟨b, two, rfl, hp⟩)
    | [b, c] =>
      simp only [fixedShape, Bool.and_eq_true, beq_iff_eq] at h
      obtain ⟨rfl, h⟩ := h
      obtain ⟨⟨k', one⟩, hp, rfl⟩ := Option.map_eq_some_iff.mp h
      exact .inr (.inr ⟨b, one, rfl, hp⟩)
  · rintro (⟨b, rfl, h⟩ | ⟨b, two, rfl, h⟩ | ⟨b, one, rfl, h⟩) <;> simp [fixedShape, h]

instance : DecidablePred IsQuote := fun b => inferInstanceAs (Decidable (b = 34 ∨ b = 39))

/-- A fixed lexeme starts with no digit, letter or quote, with a byte that is not both a mark and
the first byte of a pair, and is no end of input. -/
theorem fixedBytes_heads : ∀ e ∈ fixedBytes, e.2 ≠ .eof ∧ ∀ x ∈ e.1.head?,
    isDigit x = false ∧ isLetter x = false ∧ ¬ IsQuote x ∧ (single x = none ∨ pair x = none) := by
  decide +kernel

/-- The scanner's tables of one-byte marks and of pairs list only fixed lexemes. -/
theorem tables_listed : ∀ n : Fin 256,
    ((single (UInt8.ofNat n)).all fun k => fixedBytes.contains ([UInt8.ofNat n], k)) = true ∧
    ((pair (UInt8.ofNat n)).all fun p =>
      fixedBytes.contains ([UInt8.ofNat n, 61], p.1) && fixedBytes.contains ([UInt8.ofNat n], p.2)) = true := by
  decide +kernel

theorem single_mem {b : UInt8} {k : TokenKind} (h : single b = some k) : ([b], k) ∈ fixedBytes := by
  have hListed := (tables_listed ⟨b.toNat, b.toNat_lt⟩).1
  simpa [h] using hListed

theorem pair_mem {b : UInt8} {two one : TokenKind} (h : pair b = some (two, one)) :
    ([b, 61], two) ∈ fixedBytes ∧ ([b], one) ∈ fixedBytes := by
  have hListed := (tables_listed ⟨b.toNat, b.toNat_lt⟩).2
  simpa [h] using hListed

theorem head_class {w : Bytes} {k : TokenKind} (h : (w, k) ∈ fixedBytes) {x : UInt8} {r : Bytes}
    (hw : w = x :: r) : isDigit x = false ∧ isLetter x = false ∧ ¬ IsQuote x ∧ (single x = none ∨ pair x = none) :=
  (fixedBytes_heads _ h).2 x (by rw [hw]; rfl)

/-- The one-byte marks: no pair, digit, letter or quote starts with one. -/
theorem single_some {b : UInt8} {k : TokenKind} (h : single b = some k) :
    pair b = none ∧ isDigit b = false ∧ isLetter b = false ∧ ¬ IsQuote b := by
  obtain ⟨hDigit, hLetter, hQuote, hNone⟩ := head_class (single_mem h) rfl
  exact ⟨hNone.resolve_left (by rw [h]; exact Option.some_ne_none k), hDigit, hLetter, hQuote⟩

/-- The first bytes of pairs: no mark, digit, letter or quote. -/
theorem pair_some {b : UInt8} {two one : TokenKind} (h : pair b = some (two, one)) :
    single b = none ∧ isDigit b = false ∧ isLetter b = false ∧ ¬ IsQuote b := by
  obtain ⟨hDigit, hLetter, hQuote, hNone⟩ := head_class (pair_mem h).2 rfl
  exact ⟨hNone.resolve_right (by rw [h]; exact Option.some_ne_none _), hDigit, hLetter, hQuote⟩

theorem digit_class {b : UInt8} (h : isDigit b = true) : isLetter b = false ∧ ¬ IsQuote b := by
  simp only [isDigit, isLetter, IsQuote] at h ⊢
  simp [UInt8.le_iff_toNat_le, ← UInt8.toNat_inj] at *
  omega

theorem letter_class {b : UInt8} (h : isLetter b = true) : ¬ IsQuote b := by
  simp only [isLetter, IsQuote] at h ⊢
  simp [UInt8.le_iff_toNat_le, ← UInt8.toNat_inj] at *
  omega

/-! ### What a lexeme at a byte can be -/

/-- A prefix whose bytes all have a property lies within the longest such prefix. -/
theorem prefix_takeWhile {p : UInt8 → Bool} {l r : Bytes} (h : l <+: r) (hl : ∀ x ∈ l, p x = true) :
    l <+: r.takeWhile p := by
  induction l generalizing r with
  | nil => exact List.nil_prefix
  | cons x l ih =>
    match r, h with
    | y :: r, h =>
      obtain ⟨rfl, hTail⟩ := List.cons_prefix_cons.mp h
      rw [List.takeWhile_cons_of_pos (hl x List.mem_cons_self)]
      exact List.cons_prefix_cons.mpr ⟨rfl, ih hTail fun z hz => hl z (List.mem_cons_of_mem _ hz)⟩

/-- A run of bytes with a property, followed by a byte without it, is the longest such prefix. -/
theorem eq_takeWhile {p : UInt8 → Bool} {l r : Bytes} {x : UInt8} (h : l ++ [x] <+: r)
    (hl : ∀ y ∈ l, p y = true) (hx : p x = false) : l = r.takeWhile p := by
  induction l generalizing r with
  | nil =>
    match r, h with
    | y :: r, h =>
      obtain ⟨rfl, -⟩ := List.cons_prefix_cons.mp h
      rw [List.takeWhile_cons_of_neg (by simp [hx])]
  | cons z l ih =>
    match r, h with
    | y :: r, h =>
      obtain ⟨rfl, hTail⟩ := List.cons_prefix_cons.mp h
      rw [List.takeWhile_cons_of_pos (hl z List.mem_cons_self),
        ← ih hTail fun y hy => hl y (List.mem_cons_of_mem _ hy)]

theorem lexeme_of_mem {w : Bytes} {k : TokenKind} (h : (w, k) ∈ fixedBytes) : Lexeme w k := by
  obtain ⟨s, hMem, rfl⟩ := mem_fixedBytes.mp h
  exact .fixed hMem

theorem Lexeme.ne_nil {w : Bytes} {k : TokenKind} (h : Lexeme w k) : w ≠ [] := by
  cases h with
  | fixed hMem =>
    intro hNil
    have hEmpty := mem_fixedBytes.mpr ⟨_, hMem, hNil⟩
    simp [fixedBytes] at hEmpty
  | number hds _ _ => simp [hds]
  | word _ _ => exact List.cons_ne_nil _ _
  | string _ _ => exact List.cons_ne_nil _ _

/-- A lexeme at the head of `b :: r` starts with `b`. -/
theorem Lexeme.eq_cons {w : Bytes} {k : TokenKind} {b : UInt8} {r : Bytes} (h : Lexeme w k)
    (hw : w <+: b :: r) : ∃ w', w = b :: w' ∧ w' <+: r := by
  match w, h.ne_nil with
  | x :: w', _ =>
    obtain ⟨rfl, hw'⟩ := List.cons_prefix_cons.mp hw
    exact ⟨w', rfl, hw'⟩

/-- What a lexeme that starts with the byte `b` can be. -/
theorem Lexeme.head_cases {w w' : Bytes} {k : TokenKind} {b : UInt8} (h : Lexeme w k) (hw : w = b :: w') :
    (b :: w', k) ∈ fixedBytes ∨
    (isDigit b = true ∧ k = .number ∧ ∃ ds fr, b :: w' = ds ++ fr ∧ ds ≠ [] ∧ (∀ d ∈ ds, isDigit d = true) ∧
      (fr = [] ∨ ∃ e, fr = 46 :: e ∧ e ≠ [] ∧ ∀ d ∈ e, isDigit d = true)) ∨
    (isLetter b = true ∧ k = TokenKind.ofWord (b :: w') ∧ ∀ c ∈ w', isWordByte c = true) ∨
    (IsQuote b ∧ k = .string ∧ ∃ body, w' = body ++ [b] ∧ b ∉ body) := by
  cases h with
  | fixed hMem => exact .inl (mem_fixedBytes.mpr ⟨_, hMem, hw⟩)
  | number hds hDigits hfr =>
    rename_i ds fr
    refine .inr (.inl ⟨?_, rfl, ds, fr, hw.symm, hds, hDigits, hfr⟩)
    match ds, hds with
    | d :: ds, _ =>
      obtain ⟨rfl, -⟩ := List.cons.inj ((List.cons_append ..).symm.trans hw)
      exact hDigits _ List.mem_cons_self
  | word hb hr =>
    obtain ⟨rfl, rfl⟩ := List.cons.inj hw
    exact .inr (.inr (.inl ⟨hb, rfl, hr⟩))
  | string hq hBody =>
    rename_i q body
    obtain ⟨rfl, rfl⟩ := List.cons.inj hw
    exact .inr (.inr (.inr ⟨hq, rfl, body, rfl, hBody⟩))

variable {w : Bytes} {k : TokenKind} {b : UInt8} {r : Bytes}

/-- The shape of a fixed lexeme that starts with `b`. -/
theorem fixed_head {w' : Bytes} (h : (b :: w', k) ∈ fixedBytes) :
    (w' = [] ∧ single b = some k) ∨ (∃ two, w' = [] ∧ pair b = some (two, k)) ∨
      ∃ one, w' = [61] ∧ pair b = some (k, one) := by
  rcases fixedShape_iff.mp (fixedBytes_shape _ h) with ⟨x, hx, hs⟩ | ⟨x, two, hx, hp⟩ | ⟨x, one, hx, hp⟩
  · obtain ⟨rfl, rfl⟩ := List.cons.inj hx
    exact .inl ⟨rfl, hs⟩
  · obtain ⟨rfl, rfl⟩ := List.cons.inj hx
    exact .inr (.inl ⟨two, rfl, hp⟩)
  · obtain ⟨rfl, rfl⟩ := List.cons.inj hx
    exact .inr (.inr ⟨one, rfl, hp⟩)

theorem Lexeme.of_single {k₀ : TokenKind} (h : Lexeme w k) (hw : w <+: b :: r) (hb : single b = some k₀) :
    w = [b] ∧ k = k₀ := by
  obtain ⟨hPair, hDigit, hLetter, hQuote⟩ := single_some hb
  obtain ⟨w', rfl, -⟩ := h.eq_cons hw
  rcases (h.head_cases rfl) with hMem | ⟨hd, -⟩ | ⟨hl, -⟩ | ⟨hq, -⟩
  · rcases fixed_head hMem with ⟨rfl, hs⟩ | ⟨_, -, hp⟩ | ⟨_, -, hp⟩
    · exact ⟨rfl, Option.some.inj (hs.symm.trans hb)⟩
    · rw [hPair] at hp; cases hp
    · rw [hPair] at hp; cases hp
  · rw [hDigit] at hd; cases hd
  · rw [hLetter] at hl; cases hl
  · exact absurd hq hQuote

theorem Lexeme.of_pair {two one : TokenKind} (h : Lexeme w k) (hw : w <+: b :: r)
    (hb : pair b = some (two, one)) : (w = [b, 61] ∧ k = two) ∨ (w = [b] ∧ k = one) := by
  obtain ⟨hSingle, hDigit, hLetter, hQuote⟩ := pair_some hb
  obtain ⟨w', rfl, -⟩ := h.eq_cons hw
  rcases (h.head_cases rfl) with hMem | ⟨hd, -⟩ | ⟨hl, -⟩ | ⟨hq, -⟩
  · rcases fixed_head hMem with ⟨-, hs⟩ | ⟨_, rfl, hp⟩ | ⟨_, rfl, hp⟩
    · rw [hSingle] at hs; cases hs
    · rw [hb] at hp
      cases hp
      exact .inr ⟨rfl, rfl⟩
    · rw [hb] at hp
      cases hp
      exact .inl ⟨rfl, rfl⟩
  · rw [hDigit] at hd; cases hd
  · rw [hLetter] at hl; cases hl
  · exact absurd hq hQuote

theorem Lexeme.of_digit (h : Lexeme w k) (hw : w <+: b :: r) (hb : isDigit b = true) :
    k = .number ∧ ∃ ds fr, w = ds ++ fr ∧ ds ≠ [] ∧ (∀ d ∈ ds, isDigit d = true) ∧
      (fr = [] ∨ ∃ e, fr = 46 :: e ∧ e ≠ [] ∧ ∀ d ∈ e, isDigit d = true) := by
  obtain ⟨w', rfl, -⟩ := h.eq_cons hw
  rcases (h.head_cases rfl) with hMem | ⟨-, hk, hShape⟩ | ⟨hl, -⟩ | ⟨hq, -⟩
  · rw [(head_class hMem rfl).1] at hb; cases hb
  · exact ⟨hk, hShape⟩
  · rw [(digit_class hb).1] at hl; cases hl
  · exact absurd hq (digit_class hb).2

theorem Lexeme.of_letter (h : Lexeme w k) (hw : w <+: b :: r) (hb : isLetter b = true) :
    k = TokenKind.ofWord w ∧ ∃ w', w = b :: w' ∧ ∀ c ∈ w', isWordByte c = true := by
  obtain ⟨w', rfl, -⟩ := h.eq_cons hw
  rcases (h.head_cases rfl) with hMem | ⟨hd, -⟩ | ⟨-, hk, hWord⟩ | ⟨hq, -⟩
  · rw [(head_class hMem rfl).2.1] at hb; cases hb
  · rw [(digit_class hd).1] at hb; cases hb
  · exact ⟨hk, w', rfl, hWord⟩
  · exact absurd hq (letter_class hb)

theorem Lexeme.of_quote (h : Lexeme w k) (hw : w <+: b :: r) (hb : IsQuote b) :
    k = .string ∧ ∃ body, w = b :: body ++ [b] ∧ b ∉ body := by
  obtain ⟨w', rfl, -⟩ := h.eq_cons hw
  rcases (h.head_cases rfl) with hMem | ⟨hd, -⟩ | ⟨hl, -⟩ | ⟨-, hk, body, rfl, hBody⟩
  · exact absurd hb (head_class hMem rfl).2.2.1
  · exact absurd hb (digit_class hd).2
  · exact absurd hb (letter_class hl)
  · exact ⟨hk, body, rfl, hBody⟩

/-- No lexeme starts with a byte that is no mark, no first byte of a pair, no digit, letter or
quote. -/
theorem Lexeme.of_other (h : Lexeme w k) (hw : w <+: b :: r) (hs : single b = none) (hp : pair b = none)
    (hd : isDigit b = false) (hl : isLetter b = false) (hq : ¬ IsQuote b) : False := by
  obtain ⟨w', rfl, -⟩ := h.eq_cons hw
  rcases (h.head_cases rfl) with hMem | ⟨hd', -⟩ | ⟨hl', -⟩ | ⟨hq', -⟩
  · rcases fixed_head hMem with ⟨-, hs'⟩ | ⟨_, -, hp'⟩ | ⟨_, -, hp'⟩
    · rw [hs] at hs'; cases hs'
    · rw [hp] at hp'; cases hp'
    · rw [hp] at hp'; cases hp'
  · rw [hd] at hd'; cases hd'
  · rw [hl] at hl'; cases hl'
  · exact hq hq'

/-- One byte string is a lexeme of one kind only. -/
theorem Lexeme.kind_unique {k' : TokenKind} (h : Lexeme w k) (h' : Lexeme w k') : k = k' := by
  match w, h.ne_nil with
  | b :: w', _ =>
  have hw : b :: w' <+: b :: w' := List.prefix_refl _
  cases hs : single b with
  | some k₀ => exact (h.of_single hw hs).2.trans (h'.of_single hw hs).2.symm
  | none =>
  cases hp : pair b with
  | some e =>
    obtain ⟨two, one⟩ := e
    rcases h.of_pair hw hp with ⟨hw₁, rfl⟩ | ⟨hw₁, rfl⟩ <;>
      rcases h'.of_pair hw hp with ⟨hw₂, rfl⟩ | ⟨hw₂, rfl⟩
    · rfl
    · cases hw₁.symm.trans hw₂
    · cases hw₁.symm.trans hw₂
    · rfl
  | none =>
    by_cases hd : isDigit b = true
    · exact (h.of_digit hw hd).1.trans (h'.of_digit hw hd).1.symm
    by_cases hl : isLetter b = true
    · exact (h.of_letter hw hl).1.trans (h'.of_letter hw hl).1.symm
    by_cases hq : IsQuote b
    · exact (h.of_quote hw hq).1.trans (h'.of_quote hw hq).1.symm
    exact (h.of_other hw hs hp (by simpa using hd) (by simpa using hl) hq).elim

/-! ### The token after a gap -/

theorem munch_single (h : single b = some k) (r : Bytes) : Munch [b] r k [b] :=
  .lexeme ⟨lexeme_of_mem (single_mem h), List.prefix_append _ _,
    fun _ _ hw' hPre => by rw [(hw'.of_single hPre h).1]⟩

theorem munch_pair_two {two one : TokenKind} (h : pair b = some (two, one)) (r : Bytes) :
    Munch [b, 61] r two [b, 61] :=
  .lexeme ⟨lexeme_of_mem (pair_mem h).1, List.prefix_append _ _, fun _ _ hw' hPre => by
    rcases hw'.of_pair hPre h with ⟨rfl, -⟩ | ⟨rfl, -⟩ <;> simp⟩

theorem munch_pair_one {two one : TokenKind} (h : pair b = some (two, one)) (hr : ∀ r', r ≠ 61 :: r') :
    Munch [b] r one [b] :=
  .lexeme ⟨lexeme_of_mem (pair_mem h).2, List.prefix_append _ _, fun _ _ hw' hPre => by
    rcases hw'.of_pair hPre h with ⟨rfl, -⟩ | ⟨rfl, -⟩
    · -- The two-byte form needs the `=` that is not there.
      obtain ⟨t, ht⟩ := hPre
      exact absurd (List.cons.inj ht).2.symm (hr t)
    · exact Nat.le_refl _⟩

theorem munch_string {body : Bytes} (hq : IsQuote b) (hBody : b ∉ body) (rest : Bytes) :
    Munch (b :: body ++ [b]) rest .string (b :: body ++ [b]) :=
  .lexeme ⟨.string hq hBody, List.prefix_append _ _, fun _ _ hw' hPre => by
    obtain ⟨-, body', rfl, hBody'⟩ := hw'.of_quote hPre hq
    -- Both bodies are the bytes before the first closing quote.
    have hBefore : ∀ {l : Bytes}, b ∉ l → l ++ [b] <+: body ++ b :: rest →
        l = (body ++ b :: rest).takeWhile (· != b) := fun hl hPre =>
      eq_takeWhile hPre (fun y hy => by simpa using fun h : y = b => hl (h ▸ hy)) (by simp)
    have hTail : body' ++ [b] <+: body ++ b :: rest := by simpa using hPre
    have hSame : body' = body :=
      (hBefore hBody' hTail).trans (hBefore hBody (by simp)).symm
    rw [hSame]⟩

theorem munch_unterminated (hq : IsQuote b) (hr : b ∉ r) :
    Munch (b :: r) [] .error (Bytes.ofString "Unterminated string.") :=
  .unterminated hq hr fun _ _ hw' hPre => by
    obtain ⟨-, body', rfl, -⟩ := hw'.of_quote hPre hq
    exact hr ((List.cons_prefix_cons.mp hPre).2.subset (by simp))

theorem munch_word (hb : isLetter b = true) (r : Bytes) :
    Munch (b :: r.takeWhile isWordByte) (r.dropWhile isWordByte)
      (TokenKind.ofWord (b :: r.takeWhile isWordByte)) (b :: r.takeWhile isWordByte) :=
  .lexeme ⟨.word hb fun _ hc => List.mem_takeWhile_imp hc, List.prefix_append _ _, fun w' _ hw' hPre => by
    have hPre' : w' <+: b :: r := by simpa using hPre
    obtain ⟨-, w'', rfl, hWord⟩ := hw'.of_letter hPre' hb
    simpa using (prefix_takeWhile (List.cons_prefix_cons.mp hPre').2 hWord).length_le⟩

theorem munch_unexpected (hs : single b = none) (hp : pair b = none) (hd : isDigit b = false)
    (hl : isLetter b = false) (hq : ¬ IsQuote b) (r : Bytes) :
    Munch [b] r .error (Bytes.ofString "Unexpected character.") :=
  .unexpected hq fun _ _ hw' hPre => hw'.of_other hPre hs hp hd hl hq

/-- The digits of a number after its first: the run of digits, and the point with the next run
when a digit follows the point. -/
theorem numberTail_cases (r : Bytes) :
    (numberTail r = r.takeWhile isDigit ∧ ∀ e A, r.dropWhile isDigit = 46 :: e :: A → isDigit e = false) ∨
    ∃ e A, r.dropWhile isDigit = 46 :: e :: A ∧ isDigit e = true ∧
      numberTail r = r.takeWhile isDigit ++ 46 :: e :: A.takeWhile isDigit := by
  unfold numberTail
  split
  · rename_i d e A hDrop
    by_cases hFrac : d = 46 ∧ isDigit e = true
    · obtain ⟨rfl, he⟩ := hFrac
      refine .inr ⟨e, A, hDrop, he, ?_⟩
      simp [hDrop, he]
    · have hNot : (d == 46 && isDigit e) = false := by
        simpa [Bool.and_eq_true, beq_iff_eq] using hFrac
      refine .inl ⟨by simp [hNot], fun e' A' h => ?_⟩
      rw [hDrop] at h
      obtain ⟨rfl, rfl, rfl⟩ : d = 46 ∧ e = e' ∧ A = A' := by simpa using h
      simpa using hFrac
  · rename_i hShort
    exact .inl ⟨rfl, fun e A h => absurd h (hShort 46 e A)⟩

theorem prefix_numberTail (r : Bytes) : numberTail r <+: r := by
  rcases numberTail_cases r with ⟨hTail, -⟩ | ⟨e, A, hDrop, -, hTail⟩
  · rw [hTail]
    exact List.takeWhile_prefix _
  · rw [hTail]
    conv => rhs; rw [← List.takeWhile_append_dropWhile (p := isDigit) (l := r), hDrop]
    exact (List.prefix_append_right_inj _).mpr
      (List.cons_prefix_cons.mpr ⟨rfl, List.cons_prefix_cons.mpr ⟨rfl, List.takeWhile_prefix _⟩⟩)

/-- The number the scanner reads is a number lexeme. -/
theorem number_lexeme (hb : isDigit b = true) (r : Bytes) : Lexeme (b :: numberTail r) .number := by
  have hRun : ∀ d ∈ b :: r.takeWhile isDigit, isDigit d = true := by
    intro d hd
    rcases List.mem_cons.mp hd with rfl | hd
    · exact hb
    · exact List.mem_takeWhile_imp hd
  rcases numberTail_cases r with ⟨hTail, -⟩ | ⟨e, A, -, he, hTail⟩
  · rw [hTail, ← List.append_nil (b :: _)]
    exact .number (List.cons_ne_nil _ _) hRun (.inl rfl)
  · rw [hTail, ← List.cons_append]
    refine .number (List.cons_ne_nil _ _) hRun (.inr ⟨_, rfl, List.cons_ne_nil _ _, fun d hd => ?_⟩)
    rcases List.mem_cons.mp hd with rfl | hd
    · exact he
    · exact List.mem_takeWhile_imp hd

/-- No number lexeme at the head of `b :: r` is longer than the one the scanner reads. -/
theorem number_longest (hb : isDigit b = true) {w' : Bytes} {k' : TokenKind} (hw' : Lexeme w' k')
    (hPre : w' <+: b :: r) : w'.length ≤ (b :: numberTail r).length := by
  obtain ⟨-, ds, fr, rfl, -, hDigits, hfr⟩ := hw'.of_digit hPre hb
  have hRun : (b :: r).takeWhile isDigit = b :: r.takeWhile isDigit := List.takeWhile_cons_of_pos hb
  have hTailLen : (r.takeWhile isDigit).length ≤ (numberTail r).length := by
    rcases numberTail_cases r with ⟨hTail, -⟩ | ⟨e, A, -, -, hTail⟩ <;> simp [hTail]
  rcases hfr with rfl | ⟨e', rfl, he', hDigits'⟩
  · -- Digits alone lie within the run of digits.
    have hPre' : ds <+: b :: r := by simpa using hPre
    have := (prefix_takeWhile hPre' hDigits).length_le
    rw [hRun] at this
    simp only [List.append_nil, List.length_cons] at this ⊢
    omega
  · -- Digits and a fraction: the digits are the whole run, so the point and a digit follow it.
    have hPoint : ds ++ [46] <+: b :: r := List.IsPrefix.trans (by simp) hPre
    have hds : ds = b :: r.takeWhile isDigit := by
      rw [← hRun]
      exact eq_takeWhile hPoint hDigits (by decide)
    subst hds
    have hSplit : b :: r = (b :: r.takeWhile isDigit) ++ r.dropWhile isDigit := by simp
    rw [hSplit] at hPre
    have hFrac := (List.prefix_append_right_inj _).mp hPre
    obtain ⟨y, e'', rfl⟩ : ∃ y e'', e' = y :: e'' := List.exists_cons_of_ne_nil he'
    rcases numberTail_cases r with ⟨-, hNone⟩ | ⟨e, A, hDrop, -, hTail⟩
    · obtain ⟨t, ht⟩ := hFrac
      exact absurd (hDigits' y List.mem_cons_self) (by rw [hNone y (e'' ++ t) (by rw [← ht]; rfl)]; decide)
    · rw [hDrop] at hFrac
      obtain ⟨-, hAfterPoint⟩ := List.cons_prefix_cons.mp hFrac
      obtain ⟨rfl, hAfterDigit⟩ := List.cons_prefix_cons.mp hAfterPoint
      have := (prefix_takeWhile hAfterDigit fun d hd => hDigits' d (List.mem_cons_of_mem _ hd)).length_le
      simp only [List.length_cons, List.length_append, hTail] at this ⊢
      omega

theorem numberTail_append_drop (r : Bytes) : numberTail r ++ r.drop (numberTail r).length = r :=
  calc numberTail r ++ r.drop (numberTail r).length
      = r.take (numberTail r).length ++ r.drop (numberTail r).length := by
        rw [← List.prefix_iff_eq_take.mp (prefix_numberTail r)]
    _ = r := List.take_append_drop _ _

theorem munch_number (hb : isDigit b = true) (r : Bytes) :
    Munch (b :: numberTail r) (r.drop (numberTail r).length) .number (b :: numberTail r) := by
  have hSplit : (b :: numberTail r) ++ r.drop (numberTail r).length = b :: r := by
    rw [List.cons_append, numberTail_append_drop]
  refine .lexeme ⟨number_lexeme hb r, List.prefix_append _ _, fun w' k' hw' hPre => ?_⟩
  rw [hSplit] at hPre
  exact number_longest hb hw' hPre

/-- What the scanner reads after a gap meets the description: a token of some kind and text,
covering the bytes `w`, with the rest after them. -/
theorem token_sound (b : UInt8) (r : Bytes) (p : Position) :
    ∃ w rest k text, b :: r = w ++ rest ∧ Munch w rest k text ∧
      token (b :: r) p = (⟨k, text, p⟩, rest, p.past w) := by
  cases hs : single b with
  | some k => exact ⟨[b], r, k, [b], rfl, munch_single hs r, by simp [token, hs]⟩
  | none =>
  cases hp : pair b with
  | some e =>
    obtain ⟨two, one⟩ := e
    cases r with
    | nil => exact ⟨[b], [], one, [b], rfl, munch_pair_one hp (by simp), by simp [token, hs, hp]⟩
    | cons c r =>
      by_cases hc : c = 61
      · subst hc
        exact ⟨[b, 61], r, two, [b, 61], rfl, munch_pair_two hp r, by simp [token, hs, hp]⟩
      · exact ⟨[b], c :: r, one, [b], rfl, munch_pair_one hp (by simp [hc]), by simp [token, hs, hp, hc]⟩
  | none =>
  by_cases hq : IsQuote b
  · have hq' : (b == 34 || b == 39) = true := by rcases hq with rfl | rfl <;> rfl
    cases hDrop : r.dropWhile (· != b) with
    | nil =>
      -- No closing quote: the error covers the rest of the input.
      have hr : b ∉ r := fun hMem => by
        have := List.dropWhile_eq_nil_iff.mp hDrop b hMem
        simp at this
      exact ⟨b :: r, [], .error, _, by simp, munch_unterminated hq hr,
        by simp [token, hs, hp, hq', hDrop]; rfl⟩
    | cons x r' =>
      have hx : x = b := by
        have := List.head_dropWhile_not (· != b) (l := r) (by simp [hDrop])
        simpa [hDrop] using this
      subst hx
      have hBody : x ∉ r.takeWhile (· != x) := fun hMem => by
        simpa using List.mem_takeWhile_imp hMem
      refine ⟨x :: r.takeWhile (· != x) ++ [x], r', .string, _, ?_, munch_string hq hBody r',
        by simp [token, hs, hp, hq', hDrop]⟩
      conv => lhs; rw [← List.takeWhile_append_dropWhile (p := (· != x)) (l := r), hDrop]
      simp
  · have hq' : (b == 34 || b == 39) = false := by
      simpa [IsQuote] using hq
    by_cases hl : isLetter b = true
    · exact ⟨_, _, _, _, by simp, munch_word hl r, by simp [token, hs, hp, hq', hl]⟩
    by_cases hd : isDigit b = true
    · refine ⟨_, _, _, _, ?_, munch_number hd r, by simp [token, hs, hp, hq', hl, hd]⟩
      rw [List.cons_append, numberTail_append_drop]
    · exact ⟨[b], r, .error, _, rfl, munch_unexpected hs hp (by simpa using hd) (by simpa using hl) hq r,
        by simp [token, hs, hp, hq', hl, hd]; rfl⟩

theorem TokenKind.ofWord_ne_eof (w : Bytes) : TokenKind.ofWord w ≠ .eof := by
  unfold TokenKind.ofWord
  split
  · rename_i e he
    have hKinds : ∀ q ∈ TokenKind.keywords, q.2 ≠ .eof := by decide
    exact hKinds e (List.mem_of_find?_eq_some he)
  · decide

theorem Lexeme.kind_ne_eof (h : Lexeme w k) : k ≠ .eof := by
  cases h with
  | fixed hMem => exact (fixedBytes_heads _ (mem_fixedBytes.mpr ⟨_, hMem, rfl⟩)).1
  | number => decide
  | word => exact TokenKind.ofWord_ne_eof _
  | string => decide

theorem Munch.kind_ne_eof {rest text : Bytes} (h : Munch w rest k text) : k ≠ .eof := by
  cases h with
  | lexeme hL => exact hL.1.kind_ne_eof
  | unterminated => decide
  | unexpected => decide

theorem Munch.ne_nil {rest text : Bytes} (h : Munch w rest k text) : w ≠ [] := by
  cases h with
  | lexeme hL => exact hL.1.ne_nil
  | unterminated => exact List.cons_ne_nil _ _
  | unexpected => exact List.cons_ne_nil _ _

theorem NoLexeme.not_longest {input : Bytes} (hNo : NoLexeme input) (h : Longest w k input) : False :=
  hNo _ _ h.1 h.2.1

/-- Two longest lexemes of one input are one lexeme of one kind. -/
theorem Longest.unique {w' input : Bytes} {k' : TokenKind} (h : Longest w k input) (h' : Longest w' k' input) :
    w = w' ∧ k = k' := by
  obtain ⟨hLex, hPre, hMax⟩ := h
  obtain ⟨hLex', hPre', hMax'⟩ := h'
  have hLen := Nat.le_antisymm (hMax' _ _ hLex hPre) (hMax _ _ hLex' hPre')
  have hw : w = w' := (List.prefix_of_prefix_length_le hPre hPre' hLen.le).eq_of_length hLen
  subst hw
  exact ⟨rfl, hLex.kind_unique hLex'⟩

/-- The description of what follows a gap has one answer for each input. -/
theorem Munch.unique {w' rest rest' text text' : Bytes} {k' : TokenKind} (h : Munch w rest k text)
    (h' : Munch w' rest' k' text') (hEq : w ++ rest = w' ++ rest') :
    w = w' ∧ rest = rest' ∧ k = k' ∧ text = text' := by
  cases h with
  | lexeme hL =>
    cases h' with
    | lexeme hL' =>
      rw [hEq] at hL
      obtain ⟨rfl, rfl⟩ := hL.unique hL'
      exact ⟨rfl, List.append_cancel_left hEq, rfl, rfl⟩
    | unterminated _ _ hNo => exact (hNo.not_longest (by rwa [hEq, List.append_nil] at hL)).elim
    | unexpected _ hNo => exact (hNo.not_longest (by rwa [hEq, List.singleton_append] at hL)).elim
  | unterminated hq _ hNo =>
    cases h' with
    | lexeme hL' => exact (hNo.not_longest (by rwa [← hEq, List.append_nil] at hL')).elim
    | unterminated => simp only [List.append_nil] at hEq; exact ⟨hEq, rfl, rfl, rfl⟩
    | unexpected hq' _ =>
      obtain ⟨rfl, -⟩ := List.cons.inj hEq
      exact absurd hq hq'
  | unexpected hq hNo =>
    cases h' with
    | lexeme hL' => exact (hNo.not_longest (by rwa [← hEq, List.singleton_append] at hL')).elim
    | unterminated hq' _ _ =>
      obtain ⟨rfl, -⟩ := List.cons.inj hEq
      exact absurd hq' hq
    | unexpected =>
      obtain ⟨rfl, rfl⟩ := List.cons.inj hEq
      exact ⟨rfl, rfl, rfl, rfl⟩

/-- What the description allows after a gap is what the scanner reads. -/
theorem token_complete {rest text : Bytes} (h : Munch w rest k text) (p : Position) :
    token (w ++ rest) p = (⟨k, text, p⟩, rest, p.past w) := by
  match w, h.ne_nil with
  | b :: w', _ =>
    obtain ⟨w₀, rest₀, k₀, text₀, hSplit, h₀, hToken⟩ := token_sound b (w' ++ rest) p
    obtain ⟨hw, hRest, hk, hText⟩ := h.unique h₀ hSplit
    rw [List.cons_append, hToken, ← hw, ← hRest, ← hk, ← hText]

/-! ## Tokenisation -/

/-- `Lexes pre r ts`: after the bytes `pre`, the rest `r` of the input splits into gaps and
munches up to the end, and `ts` are their tokens, each at the position of its first byte, ending
with the end of input after the last gap. -/
inductive Lexes : Bytes → Bytes → List Token → Prop
  | eof {pre g : Bytes} : GapRun g [] → Lexes pre g [⟨.eof, [], Position.after (pre ++ g)⟩]
  | token {pre g w rest text : Bytes} {k : TokenKind} {ts : List Token} :
      GapRun g (w ++ rest) → Munch w rest k text → Lexes (pre ++ g ++ w) rest ts →
      Lexes pre (g ++ w ++ rest) (⟨k, text, Position.after (pre ++ g)⟩ :: ts)

theorem next_eof {g : Bytes} (h : GapRun g []) (pre : Bytes) :
    (⟨g, Position.after pre⟩ : Scanner).next =
      (⟨.eof, [], Position.after (pre ++ g)⟩, ⟨[], Position.after (pre ++ g)⟩) := by
  have hGap := skipGap_complete h (Position.after pre)
  rw [List.append_nil] at hGap
  simp [next, hGap, token, Position.past_after]

theorem next_munch {g w rest text : Bytes} {k : TokenKind} (hGap : GapRun g (w ++ rest))
    (hMunch : Munch w rest k text) (pre : Bytes) :
    (⟨g ++ w ++ rest, Position.after pre⟩ : Scanner).next =
      (⟨k, text, Position.after (pre ++ g)⟩, ⟨rest, Position.after (pre ++ g ++ w)⟩) := by
  simp [next, skipGap_complete hGap, token_complete hMunch, Position.past_after]

/-- Given enough fuel, the scanner's tokens from any point of the input are a tokenisation. -/
theorem lexes_tokensWithin (fuel : Nat) (pre r : Bytes) (hLen : r.length < fuel) :
    Lexes pre r (tokensWithin fuel ⟨r, Position.after pre⟩).1 := by
  -- Each step consumes a gap and a nonempty munch, so the fuel outlasts the input.
  induction fuel generalizing pre r with
  | zero => omega
  | succ fuel ih =>
    obtain ⟨g, hSplit, -, hRun⟩ := skipGap_sound r (Position.after pre)
    generalize (skipGap .blanks r (Position.after pre)).1 = r₁ at hSplit hRun
    cases r₁ with
    | nil =>
      rw [List.append_nil] at hSplit
      subst hSplit
      simp [tokensWithin, next_eof hRun]
      exact .eof hRun
    | cons b r₂ =>
      obtain ⟨w, rest, k, text, hb, hMunch, -⟩ := token_sound b r₂ (Position.after (pre ++ g))
      rw [hb] at hSplit hRun
      rw [← List.append_assoc] at hSplit
      subst hSplit
      have hRest : rest.length < fuel := by
        have := List.length_pos_of_ne_nil hMunch.ne_nil
        simp only [List.length_append] at hLen
        omega
      rw [tokensWithin, next_munch hRun hMunch]
      simp only [hMunch.kind_ne_eof, beq_iff_eq, if_false]
      exact .token hRun hMunch (ih _ _ hRest)

/-- A tokenisation is what the scanner returns, given enough fuel. -/
theorem tokensWithin_of_lexes {pre r : Bytes} {ts : List Token} (h : Lexes pre r ts) (fuel : Nat)
    (hLen : r.length < fuel) : (tokensWithin fuel ⟨r, Position.after pre⟩).1 = ts := by
  induction h generalizing fuel with
  | eof hRun =>
    obtain ⟨fuel, rfl⟩ := Nat.exists_eq_add_one_of_ne_zero (Nat.ne_zero_of_lt hLen)
    simp [tokensWithin, next_eof hRun]
  | token hRun hMunch _ ih =>
    obtain ⟨fuel, rfl⟩ := Nat.exists_eq_add_one_of_ne_zero (Nat.ne_zero_of_lt hLen)
    have hRest := List.length_pos_of_ne_nil hMunch.ne_nil
    simp only [List.length_append] at hLen
    rw [tokensWithin, next_munch hRun hMunch]
    simp only [hMunch.kind_ne_eof, beq_iff_eq, if_false, ih fuel (by omega)]

/-- The scanner's tokens are exactly the tokenisation of the input: the gaps are maximal runs of
blanks and comments, each token is the longest lexeme after its gap (or the error the
description gives), its text is the lexeme, and its position is the offset, line and column of
its first byte; the list ends with the end-of-input token after the last gap. -/
theorem scan_iff_lexes (s : Bytes) (ts : List Token) : (scan s).1 = ts ↔ Lexes [] s ts := by
  have hStart : ofSource s = ⟨s, Position.after []⟩ := rfl
  rw [scan, hStart]
  constructor
  · rintro rfl
    exact lexes_tokensWithin _ [] s (Nat.lt_succ_self _)
  · intro h
    exact tokensWithin_of_lexes h _ (Nat.lt_succ_self _)

/-- The tokens of a tokenisation stand at lines that never go back, from the line where it
starts to the line where the input ends. -/
theorem Lexes.lines {pre r : Bytes} {ts : List Token} (h : Lexes pre r ts) :
    ts ≠ [] ∧ ts.Pairwise (fun a b => a.pos.line ≤ b.pos.line) ∧
      ∀ t ∈ ts, pre.count 10 + 1 ≤ t.pos.line ∧ t.pos.line ≤ (pre ++ r).count 10 + 1 := by
  induction h with
  | eof hRun =>
    refine ⟨List.cons_ne_nil _ _, List.pairwise_singleton _ _, ?_⟩
    intro t ht
    rw [List.mem_singleton] at ht
    subst ht
    simp [Position.after, List.count_append]
  | @token pre g w rest text k ts hRun hMunch _ ih =>
    obtain ⟨-, hSorted, hBounds⟩ := ih
    -- The token's line counts the line feeds before it, and the rest count at least as many.
    have hHead : (Position.after (pre ++ g)).line = (pre ++ g).count 10 + 1 := rfl
    refine ⟨List.cons_ne_nil _ _, List.pairwise_cons.mpr ⟨fun b hb => ?_, hSorted⟩, ?_⟩
    · show (pre ++ g).count 10 + 1 ≤ b.pos.line
      have := (hBounds b hb).1
      simp only [List.count_append] at this ⊢
      omega
    · intro t ht
      rcases List.mem_cons.mp ht with rfl | ht
      · simp only [hHead, List.count_append]
        omega
      · have := hBounds t ht
        simp only [List.count_append] at this ⊢
        omega

/-- The scanner's tokens stand at lines that never go back, each from the first line of the
source to the last. -/
theorem scan_lines (s : Bytes) :
    (scan s).1 ≠ [] ∧ (scan s).1.Pairwise (fun a b => a.pos.line ≤ b.pos.line) ∧
      ∀ t ∈ (scan s).1, 1 ≤ t.pos.line ∧ t.pos.line ≤ s.count 10 + 1 := by
  have hStart : ofSource s = ⟨s, Position.after []⟩ := rfl
  obtain ⟨hNe, hSorted, hBounds⟩ := (lexes_tokensWithin _ [] s (Nat.lt_succ_self _)).lines
  rw [scan, hStart]
  refine ⟨hNe, hSorted, fun t ht => ?_⟩
  have := hBounds t ht
  simp only [List.count_nil, List.nil_append] at this
  omega

end Scanner

end StackScript
