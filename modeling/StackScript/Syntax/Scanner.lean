import StackScript.Syntax.Token

/-! # The scanner

The source is a byte string. Between tokens the scanner skips gaps: blanks (space, tab,
carriage return, line feed), line comments from `//` up to the next line feed, and block
comments from `/*` through the next `*/` (or to the end). A token is then the longest match of
one of: a one-byte punctuation mark; `:=`, `!=`, `==`, `<=`, `>=` or their first byte alone; a
string from `"` or `'` through the same quote (line feeds included); a word of letters,
underscores and digits that starts with a letter or underscore; a number, digits with an
optional `.` and digits. Any other byte is an error token of its own. After the last byte the
scanner answers end of input, at the same place, as often as it is asked.

Positions count bytes: the offset from 0, the line from 1 (each line feed starts a new one) and
the column from 1.
-/

namespace StackScript

namespace Position

/-- The position of the first byte. -/
def initial : Position := ⟨0, 1, 1⟩

/-- The position after the byte `b`. -/
def next (p : Position) (b : UInt8) : Position :=
  if b == 10 then ⟨p.offset + 1, p.line + 1, 1⟩ else ⟨p.offset + 1, p.line, p.column + 1⟩

/-- The position after the bytes `bs`. -/
def past (p : Position) (bs : Bytes) : Position := bs.foldl next p

end Position

namespace Scanner

/-- A blank byte: space, tab, carriage return or line feed. -/
def isBlank (b : UInt8) : Bool := b == 32 || b == 9 || b == 13 || b == 10

/-- A letter or underscore, the bytes that start a word. -/
def isLetter (b : UInt8) : Bool := (97 ≤ b && b ≤ 122) || (65 ≤ b && b ≤ 90) || b == 95

/-- A decimal digit. -/
def isDigit (b : UInt8) : Bool := 48 ≤ b && b ≤ 57

/-- A byte that continues a word. -/
def isWordByte (b : UInt8) : Bool := isLetter b || isDigit b

/-- What the gap skipper is inside of; inside a block comment, whether the byte before was
a star. -/
inductive Gap where
  | blanks
  | lineComment
  | blockComment (afterStar : Bool)

/-- Skips a gap: blanks and comments. Returns the rest and its position. -/
def skipGap : Gap → Bytes → Position → Bytes × Position
  | .blanks, [], p => ([], p)
  | .blanks, b :: r, p =>
    if isBlank b then skipGap .blanks r (p.next b)
    else if b == 47 then
      match r with
      | c :: r' =>
        if c == 47 then skipGap .lineComment r' ((p.next b).next c)
        else if c == 42 then skipGap (.blockComment false) r' ((p.next b).next c)
        else (b :: r, p)
      | [] => (b :: r, p)
    else (b :: r, p)
  | .lineComment, [], p => ([], p)
  | .lineComment, b :: r, p =>
    -- The line feed that ends the comment is itself a blank.
    if b == 10 then skipGap .blanks r (p.next b) else skipGap .lineComment r (p.next b)
  | .blockComment _, [], p => ([], p)
  | .blockComment afterStar, b :: r, p =>
    if afterStar && b == 47 then skipGap .blanks r (p.next b)
    else skipGap (.blockComment (b == 42)) r (p.next b)

/-- The kind of a one-byte punctuation token. -/
def single (b : UInt8) : Option TokenKind :=
  if b == 40 then some .lparen else if b == 41 then some .rparen
  else if b == 123 then some .lbrace else if b == 125 then some .rbrace
  else if b == 44 then some .comma else if b == 46 then some .dot
  else if b == 45 then some .minus else if b == 43 then some .plus
  else if b == 59 then some .semicolon else if b == 47 then some .slash
  else if b == 42 then some .star else none

/-- The kinds of a token that may be followed by `=`: with the `=`, and alone. -/
def pair (b : UInt8) : Option (TokenKind × TokenKind) :=
  if b == 58 then some (.define, .colon) else if b == 33 then some (.notEqual, .bang)
  else if b == 61 then some (.equal, .assign) else if b == 60 then some (.lessEqual, .less)
  else if b == 62 then some (.greaterEqual, .greater) else none

/-- The message of the error token for a byte that starts no token. -/
def unexpected : Bytes := Bytes.ofString "Unexpected character."

/-- The message of the error token for a string without its closing quote. -/
def unterminated : Bytes := Bytes.ofString "Unterminated string."

/-- The digits of a number after its first digit, with the fraction when a digit follows the
point. -/
def numberTail (r : Bytes) : Bytes :=
  let ds := r.takeWhile isDigit
  match r.dropWhile isDigit with
  | d :: e :: _ => if d == 46 && isDigit e then ds ++ d :: (r.dropWhile isDigit).tail.takeWhile isDigit else ds
  | _ => ds

/-- Scans the token at the head of the bytes, which stand after a gap. Returns the token and
the rest with its position. -/
def token : Bytes → Position → Token × Bytes × Position
  | [], p => (⟨.eof, [], p⟩, [], p)
  | b :: r, p =>
    match single b with
    | some k => (⟨k, [b], p⟩, r, p.next b)
    | none =>
    match pair b with
    | some (two, one) =>
      match r with
      | c :: r' => if c == 61 then (⟨two, [b, c], p⟩, r', (p.next b).next c) else (⟨one, [b], p⟩, r, p.next b)
      | [] => (⟨one, [b], p⟩, r, p.next b)
    | none =>
    if b == 34 || b == 39 then
      let body := r.takeWhile (· != b)
      match r.dropWhile (· != b) with
      | _ :: r' =>
        let text := b :: body ++ [b]
        (⟨.string, text, p⟩, r', p.past text)
      | [] => (⟨.error, unterminated, p⟩, [], p.past (b :: r))
    else if isLetter b then
      let word := b :: r.takeWhile isWordByte
      (⟨TokenKind.ofWord word, word, p⟩, r.dropWhile isWordByte, p.past word)
    else if isDigit b then
      let text := b :: numberTail r
      (⟨.number, text, p⟩, r.drop (text.length - 1), p.past text)
    else (⟨.error, unexpected, p⟩, r, p.next b)

end Scanner

/-- The scanner's state: the bytes not yet read and the position of the first of them. -/
structure Scanner where
  rest : Bytes
  pos : Position

namespace Scanner

/-- The scanner at the start of a source. -/
def ofSource (src : Bytes) : Scanner := ⟨src, Position.initial⟩

/-- The next token and the scanner after it. -/
def next (s : Scanner) : Token × Scanner :=
  let (r, p) := skipGap .blanks s.rest s.pos
  let (t, r', p') := token r p
  (t, ⟨r', p'⟩)

/-- The tokens up to and including the first end of input, within `fuel` steps. -/
def tokensWithin : Nat → Scanner → List Token × Scanner
  | 0, s => ([], s)
  | fuel + 1, s =>
    let (t, s') := s.next
    if t.kind == .eof then ([t], s')
    else
      let (ts, s'') := tokensWithin fuel s'
      (t :: ts, s'')

/-- Every token of a source up to and including the first end of input, with the scanner
after it. Each token before the end takes at least one byte, so one step per byte suffices. -/
def scan (src : Bytes) : List Token × Scanner :=
  tokensWithin (src.length + 1) (ofSource src)

end Scanner

end StackScript
