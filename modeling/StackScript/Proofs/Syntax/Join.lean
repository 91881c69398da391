import StackScript.Proofs.Syntax.Lexemes

/-! # Sources joined by a line feed

Two sources joined by a line feed scan as the tokens of the first without its end of input,
followed by the tokens of the second moved down past the first and the line feed
(`Scanner.scan_join`). Two things in the first source can reach across the line feed: a string
left open, which the scanner reads through the end of the input as an error token, and a block
comment left open, which the gap skipper reads through the end without a word. The first shows
in the tokens; the second only in the gap after the last token (`Scanner.endsInComment`).

Each step of the scanner is compared with the same step on the longer input: a gap that stops
at a token stops there again (`skipGap_append_line`), a gap that runs to the end goes on through
the line feed into the second source unless it ends inside a block comment
(`skipGap_run_off`), and a token that is not an error ends where it ended before
(`token_append_line`). The tokens of the second source start at a position that only shifts
offsets and lines, which the scanner carries along (`tokensWithin_shift`).
-/

namespace StackScript

set_option autoImplicit false

namespace Position

/-- A position moved `bytes` bytes and `lines` lines further on, in the same column. -/
def shift (bytes lines : Nat) (p : Position) : Position := ⟨p.offset + bytes, p.line + lines, p.column⟩

theorem next_shift (bytes lines : Nat) (p : Position) (b : UInt8) :
    (p.shift bytes lines).next b = (p.next b).shift bytes lines := by
  unfold next shift
  cases b == 10 <;> simp <;> omega

theorem past_shift (bytes lines : Nat) (bs : Bytes) :
    ∀ p : Position, (p.shift bytes lines).past bs = (p.past bs).shift bytes lines := by
  induction bs with
  | nil => intro p; rfl
  | cons b bs ih => intro p; rw [past_cons, past_cons, next_shift, ih]

end Position

/-- A token moved `bytes` bytes and `lines` lines further on, in the same column. -/
def Token.shift (bytes lines : Nat) (t : Token) : Token := { t with pos := t.pos.shift bytes lines }

@[simp] theorem Token.shift_kind (bytes lines : Nat) (t : Token) : (t.shift bytes lines).kind = t.kind :=
  rfl

@[simp] theorem Token.shift_text (bytes lines : Nat) (t : Token) : (t.shift bytes lines).text = t.text :=
  rfl

namespace Scanner

/-- Whether the gap skipper, started in `g`, reads all of `r` and is then inside a block
comment. -/
def gapOpen : Gap → Bytes → Bool
  | .blanks, [] => false
  | .blanks, b :: r =>
    if isBlank b then gapOpen .blanks r
    else if b == 47 then
      match r with
      | c :: r' =>
        if c == 47 then gapOpen .lineComment r'
        else if c == 42 then gapOpen (.blockComment false) r'
        else false
      | [] => false
    else false
  | .lineComment, [] => false
  | .lineComment, b :: r => if b == 10 then gapOpen .blanks r else gapOpen .lineComment r
  | .blockComment _, [] => true
  | .blockComment afterStar, b :: r =>
    if afterStar && b == 47 then gapOpen .blanks r else gapOpen (.blockComment (b == 42)) r

/-- The gap a scanner reads last, right before the end of input, within `fuel` steps. -/
def lastGap : Nat → Scanner → Bytes
  | 0, s => s.rest
  | fuel + 1, s => if s.next.1.kind == .eof then s.rest else lastGap fuel s.next.2

/-- A source ends inside a block comment: the gap after its last token runs to its end inside
one, which then goes on over whatever follows. -/
def endsInComment (src : Bytes) : Bool := gapOpen .blanks (lastGap (src.length + 1) (ofSource src))

example : endsInComment (Bytes.ofString "info 1; /* no end") = true := by decide +kernel

example : endsInComment (Bytes.ofString "info '/*'; /* closed */ // and a line") = false := by
  decide +kernel

theorem gapOpen_blank {b : UInt8} (hb : isBlank b = true) (r : Bytes) :
    gapOpen .blanks (b :: r) = gapOpen .blanks r := by
  cases r <;> simp [gapOpen, hb]

/-! ## One step on the longer input -/

section Append

variable (ys : Bytes)

/-- A gap that stops at a token inside `r` stops there whatever follows a line feed after `r`. -/
theorem skipGap_append_line (g : Gap) (r : Bytes) (p : Position) (h : (skipGap g r p).1 ≠ []) :
    skipGap g (r ++ 10 :: ys) p = ((skipGap g r p).1 ++ 10 :: ys, (skipGap g r p).2) := by
  fun_induction skipGap g r p with
  | case2 b r p hb ih =>
    rw [List.cons_append, skipGap_blank hb]
    exact ih h
  | case7 b r p hb h47 => cases r <;> simp_all [skipGap]
  | _ => simp_all [skipGap]

/-- A gap that runs to the end of `r` outside a block comment ends with the line feed after
`r`, and the skipper goes on with the bytes after it. -/
theorem skipGap_run_off (g : Gap) (r : Bytes) (p : Position) (h : (skipGap g r p).1 = [])
    (hOpen : gapOpen g r = false) :
    skipGap g (r ++ 10 :: ys) p = skipGap .blanks ys ((skipGap g r p).2.next 10) := by
  fun_induction skipGap g r p with
  | case1 p => exact skipGap_blank (by decide) ys p
  | case2 b r p hb ih =>
    rw [List.cons_append, skipGap_blank hb]
    exact ih h (by rwa [gapOpen_blank hb] at hOpen)
  | case13 a b r p hNot ih => cases a <;> simp_all [skipGap, gapOpen]
  | _ => simp_all [skipGap, gapOpen]

/-- Reading while a test holds stops at a byte that fails it: what follows that byte is not
read. -/
theorem while_append_stop {f : UInt8 → Bool} {x : UInt8} (hx : f x = false) :
    ∀ r : Bytes, (r ++ x :: ys).takeWhile f = r.takeWhile f ∧
      (r ++ x :: ys).dropWhile f = r.dropWhile f ++ x :: ys
  | [] => by simp [hx]
  | a :: r => by
    obtain ⟨hTake, hDrop⟩ := while_append_stop hx r
    by_cases ha : f a <;> simp [ha, hTake, hDrop]

/-- Reading while a test holds, when it stops inside `r`, reads nothing after `r`. -/
theorem while_append_of_stopped {f : UInt8 → Bool} :
    ∀ {r : Bytes}, r.dropWhile f ≠ [] → (r ++ ys).takeWhile f = r.takeWhile f ∧
      (r ++ ys).dropWhile f = r.dropWhile f ++ ys
  | [], h => absurd rfl h
  | a :: r, h => by
    by_cases ha : f a
    · simp only [List.dropWhile_cons, ha, if_true] at h
      obtain ⟨hTake, hDrop⟩ := while_append_of_stopped h
      simp [ha, hTake, hDrop]
    · simp [ha]

theorem numberTail_append_line (r : Bytes) : numberTail (r ++ 10 :: ys) = numberTail r := by
  obtain ⟨hTake, hDrop⟩ := while_append_stop ys (f := isDigit) (x := 10) (by decide) r
  unfold numberTail
  rw [hTake, hDrop]
  rcases r.dropWhile isDigit with _ | ⟨d, _ | ⟨e, t⟩⟩
  · cases ys <;> simp
  · simp [isDigit]
  · -- A fraction's digits stop at the line feed too.
    have hTail := (while_append_stop ys (f := isDigit) (x := 10) (by decide) (e :: t)).1
    simp only [List.cons_append, List.tail_cons] at hTail ⊢
    rw [hTail]

/-- A token other than an error reads the same bytes whatever follows a line feed after them. -/
theorem token_append_line (b : UInt8) (r : Bytes) (p : Position)
    (hErr : (token (b :: r) p).1.kind ≠ .error) :
    token (b :: (r ++ 10 :: ys)) p =
      ((token (b :: r) p).1, (token (b :: r) p).2.1 ++ 10 :: ys, (token (b :: r) p).2.2) := by
  simp only [token] at hErr ⊢
  rcases hSingle : single b with _ | k
  · rcases hPair : pair b with _ | ⟨two, one⟩
    · simp only [hSingle, hPair] at hErr ⊢
      by_cases hQuote : (b == 34 || b == 39) = true
      · -- A string that closes inside `r`; one that does not is an error.
        simp only [hQuote, if_true] at hErr ⊢
        rcases hClose : r.dropWhile (· != b) with _ | ⟨q, r'⟩
        · simp [hClose] at hErr
        · obtain ⟨hTake, hDrop⟩ := while_append_of_stopped (10 :: ys) (f := (· != b)) (r := r)
            (by simp [hClose])
          simp [hTake, hDrop, hClose]
      · simp only [hQuote, Bool.false_eq_true, if_false] at hErr ⊢
        by_cases hLetter : isLetter b = true
        · obtain ⟨hTake, hDrop⟩ := while_append_stop ys (f := isWordByte) (x := 10) (by decide) r
          simp [hLetter, hTake, hDrop]
        · by_cases hDigit : isDigit b = true
          · have hLe := (prefix_numberTail r).length_le
            simp [hLetter, hDigit, numberTail_append_line, List.drop_append_of_le_length hLe]
          · simp [hLetter, hDigit] at hErr
    · simp only
      cases r with
      | nil => simp
      | cons c r => simp only [List.cons_append]; split <;> rfl
  · simp

/-- The token read at a gap that runs to the end is the end of input, after the gap. -/
theorem next_eq_eof {s : Scanner} (h : s.next.1.kind = .eof) :
    (skipGap .blanks s.rest s.pos).1 = [] ∧ s.next.1 = ⟨.eof, [], (skipGap .blanks s.rest s.pos).2⟩ := by
  simp only [next] at h ⊢
  rcases hGap : skipGap .blanks s.rest s.pos with ⟨_ | ⟨b, r⟩, q⟩
  · exact ⟨rfl, rfl⟩
  · obtain ⟨w, rest, k, text, -, hMunch, hToken⟩ := token_sound b r q
    rw [hGap, hToken] at h
    exact absurd h hMunch.kind_ne_eof

/-- A step that reads a token other than an error reads it the same with a line feed and more
after the bytes. -/
theorem next_append_line (r : Bytes) (p : Position) (hEof : (next ⟨r, p⟩).1.kind ≠ .eof)
    (hErr : (next ⟨r, p⟩).1.kind ≠ .error) :
    next ⟨r ++ 10 :: ys, p⟩ = ((next ⟨r, p⟩).1, ⟨(next ⟨r, p⟩).2.rest ++ 10 :: ys, (next ⟨r, p⟩).2.pos⟩) := by
  simp only [next] at hEof hErr ⊢
  rcases hGap : skipGap .blanks r p with ⟨_ | ⟨b, x⟩, q⟩
  · rw [hGap] at hEof
    exact absurd rfl hEof
  · rw [hGap] at hErr
    rw [skipGap_append_line ys .blanks r p (by simp [hGap]), hGap]
    simp only [List.cons_append, token_append_line ys b x q hErr]

end Append

/-! ## Positions shifted down -/

section Shift

variable (bytes lines : Nat)

theorem skipGap_shift (g : Gap) (r : Bytes) (p : Position) :
    skipGap g r (p.shift bytes lines) = ((skipGap g r p).1, (skipGap g r p).2.shift bytes lines) := by
  fun_induction skipGap g r p with
  | case2 b r p hb ih => rw [skipGap_blank hb, Position.next_shift, ih]
  | case7 b r p hb h47 => cases r <;> simp [skipGap, hb, h47]
  | _ => simp_all [skipGap, Position.next_shift]

theorem token_shift (r : Bytes) (p : Position) :
    token r (p.shift bytes lines) =
      ((token r p).1.shift bytes lines, (token r p).2.1, (token r p).2.2.shift bytes lines) := by
  cases r with
  | nil => rfl
  | cons b r =>
    obtain ⟨w, rest, k, text, hSplit, hMunch, -⟩ := token_sound b r p
    rw [hSplit, token_complete hMunch, token_complete hMunch, Position.past_shift]
    rfl

theorem next_shift (r : Bytes) (p : Position) :
    next ⟨r, p.shift bytes lines⟩ =
      ((next ⟨r, p⟩).1.shift bytes lines, ⟨(next ⟨r, p⟩).2.rest, (next ⟨r, p⟩).2.pos.shift bytes lines⟩) := by
  simp only [next, skipGap_shift, token_shift]

/-- Scanning from a shifted position gives the same tokens, shifted. -/
theorem tokensWithin_shift : ∀ (fuel : Nat) (r : Bytes) (p : Position),
    (tokensWithin fuel ⟨r, p.shift bytes lines⟩).1 = (tokensWithin fuel ⟨r, p⟩).1.map (Token.shift bytes lines)
  | 0, _, _ => rfl
  | fuel + 1, r, p => by
    have ih := tokensWithin_shift fuel (next ⟨r, p⟩).2.rest (next ⟨r, p⟩).2.pos
    simp only [tokensWithin, next_shift, Token.shift_kind]
    split <;> simp [ih]

end Shift

/-! ## Whole scans -/

/-- More steps than bytes change nothing: the end of input comes first. -/
theorem tokensWithin_fuel : ∀ (fuel fuel' : Nat) (s : Scanner), s.rest.length < fuel → fuel ≤ fuel' →
    (tokensWithin fuel' s).1 = (tokensWithin fuel s).1
  | 0, _, _, h, _ => absurd h (Nat.not_lt_zero _)
  | fuel + 1, 0, _, _, h => absurd h (by omega)
  | fuel + 1, fuel' + 1, s, hLen, hLe => by
    simp only [tokensWithin]
    split
    · rfl
    · rename_i hEof
      have hNext := next_length (s := s) (by simpa using hEof)
      rw [tokensWithin_fuel fuel fuel' s.next.2 (by omega) (by omega)]

theorem tokensWithin_succ_congr {s s' : Scanner} (h : s.next = s'.next) (fuel : Nat) :
    tokensWithin (fuel + 1) s = tokensWithin (fuel + 1) s' := by
  simp only [tokensWithin, h]

/-- Scanning on past a line feed after bytes whose tokens hold no error and whose last gap does
not end inside a block comment: their tokens up to the end of input, then the tokens after the
line feed, from the position after it. -/
theorem tokensWithin_join (ys : Bytes) {F : Nat} (hF : ys.length < F) :
    ∀ (fuel : Nat) (r : Bytes) (p : Position), r.length < fuel →
      (∀ t ∈ (tokensWithin fuel ⟨r, p⟩).1, t.kind ≠ .error) →
      gapOpen .blanks (lastGap fuel ⟨r, p⟩) = false →
      ∃ front q, (tokensWithin fuel ⟨r, p⟩).1 = front ++ [⟨.eof, [], q⟩] ∧
        (tokensWithin (fuel + F) ⟨r ++ 10 :: ys, p⟩).1 = front ++ (tokensWithin F ⟨ys, q.next 10⟩).1
  | 0, _, _, hLen, _, _ => absurd hLen (Nat.not_lt_zero _)
  | fuel + 1, r, p, hLen, hErr, hOpen => by
    by_cases hEof : (next ⟨r, p⟩).1.kind = .eof
    · -- The bytes are one gap: the line feed ends it, and the tokens after it follow.
      obtain ⟨hGap, hTok⟩ := next_eq_eof hEof
      simp only [lastGap, hEof, beq_self_eq_true, if_true] at hOpen
      have hNext : next ⟨r ++ 10 :: ys, p⟩ = next ⟨ys, (skipGap .blanks r p).2.next 10⟩ := by
        simp only [next, skipGap_run_off ys .blanks r p hGap hOpen]
      refine ⟨[], (skipGap .blanks r p).2, by simp [tokensWithin, hTok], ?_⟩
      rw [show fuel + 1 + F = fuel + F + 1 by omega, tokensWithin_succ_congr hNext,
        tokensWithin_fuel F _ _ hF (by omega), List.nil_append]
    · -- One token, then the rest of the bytes.
      have hTokens : (tokensWithin (fuel + 1) ⟨r, p⟩).1 =
          (next ⟨r, p⟩).1 :: (tokensWithin fuel (next ⟨r, p⟩).2).1 := by
        simp [tokensWithin, hEof]
      have hErr₁ : (next ⟨r, p⟩).1.kind ≠ .error := hErr _ (by rw [hTokens]; exact List.mem_cons_self)
      have hShorter := next_length (s := ⟨r, p⟩) hEof
      obtain ⟨front, q, hFront, hJoin⟩ := tokensWithin_join ys hF fuel (next ⟨r, p⟩).2.rest
        (next ⟨r, p⟩).2.pos (by simp only at hShorter; omega)
        (fun t ht => hErr t (by rw [hTokens]; exact List.mem_cons_of_mem _ ht))
        (by simpa [lastGap, hEof] using hOpen)
      refine ⟨(next ⟨r, p⟩).1 :: front, q, by rw [hTokens, hFront]; rfl, ?_⟩
      rw [show fuel + 1 + F = fuel + F + 1 by omega]
      simp only [tokensWithin, next_append_line ys r p hEof hErr₁, hEof, beq_iff_eq, if_false]
      rw [hJoin]
      rfl

/-- A tokenisation ends with the end of input, after all of the input. -/
theorem Lexes.last {pre r : Bytes} {ts : List Token} (h : Lexes pre r ts) :
    ∃ front, ts = front ++ [⟨.eof, [], Position.after (pre ++ r)⟩] := by
  induction h with
  | eof hRun => exact ⟨[], rfl⟩
  | @token pre g w rest text k ts hRun hMunch _ ih =>
    obtain ⟨front, hFront⟩ := ih
    exact ⟨⟨k, text, Position.after (pre ++ g)⟩ :: front, by rw [hFront]; simp [List.append_assoc]⟩

/-- Two sources joined by a line feed scan as the tokens of the first, without its end of input,
then those of the second moved down past the first and the line feed: when the first holds no
error token and does not end inside a block comment. -/
theorem scan_join {s₁ s₂ : Bytes} (hErr : ∀ t ∈ (scan s₁).1, t.kind ≠ .error)
    (hOpen : endsInComment s₁ = false) :
    (scan (s₁ ++ 10 :: s₂)).1 =
      (scan s₁).1.dropLast ++ (scan s₂).1.map (Token.shift (s₁.length + 1) (s₁.count 10 + 1)) := by
  obtain ⟨front, q, h₁, hJoin⟩ := tokensWithin_join s₂ (Nat.lt_succ_self _) (s₁.length + 1) s₁
    Position.initial (Nat.lt_succ_self _) hErr hOpen
  obtain ⟨front', h₁'⟩ := ((scan_iff_lexes s₁ _).mp rfl).last
  have hScan : (scan s₁).1 = front ++ [⟨.eof, [], q⟩] := h₁
  -- The end of input of the first source stands after all of it, so the second starts on the
  -- next line, in its first column.
  have hq : q = Position.after s₁ := by
    have hLast := (List.append_inj' (hScan.symm.trans h₁') rfl).2
    simpa using hLast
  have hStart : q.next 10 = Position.initial.shift (s₁.length + 1) (s₁.count 10 + 1) := by
    rw [hq]
    simp [Position.after, Position.next, Position.initial, Position.shift]
    omega
  have hLen : (s₁ ++ 10 :: s₂).length + 1 = (s₁.length + 1) + (s₂.length + 1) := by
    simp only [List.length_append, List.length_cons]
    omega
  rw [hScan, List.dropLast_concat]
  unfold scan ofSource
  rw [hLen, hJoin, hStart, tokensWithin_shift]

end Scanner

end StackScript
