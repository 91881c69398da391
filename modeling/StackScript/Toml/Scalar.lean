import StackScript.Toml.Lexer
import StackScript.Number.Read

/-! # TOML scalars

The values of the scalar items: strings with their escapes, integers, floats and dates. The
lexer cuts numbers and dates as runs of the characters they may hold; the checks here decide
whether a run is a value: underscores only between digits, no leading zeros, a digit after
every period, integers within 64 bits, finite doubles, and dates and times of the accepted
shapes with fields in range. Each check fails with the message the document reader reports.
-/

namespace StackScript

namespace Toml

/-- Drops the line ending that directly follows the opening delimiter of a multi-line
string. -/
def stripFirstNewline : List Char → List Char
  | '\n' :: r => r
  | '\r' :: '\n' :: r => r
  | s => s

/-- Whether a character may stand between a line-ending backslash and the next line's text. -/
def isGapChar (c : Char) : Bool := c == ' ' || c == '\t' || c == '\r' || c == '\n'

/-- Removes every backslash that ends a line of a multi-line basic string, with the blanks and
line endings that follow it; a doubled backslash stays as it is. A backslash followed by blanks
but no line ending stays, to be refused as an escape. -/
def stripEscapedNewlines : List Char → List Char
  | [] => []
  | '\\' :: '\\' :: r => '\\' :: '\\' :: stripEscapedNewlines r
  | '\\' :: r =>
    let gap := r.takeWhile isGapChar
    if gap.contains '\n' then stripEscapedNewlines (r.drop gap.length)
    else '\\' :: stripEscapedNewlines r
  | c :: r => c :: stripEscapedNewlines r
termination_by s => s.length
decreasing_by all_goals simp only [List.length_drop, List.length_cons]; omega

/-- The value of a hexadecimal digit. -/
def hexValue (c : Char) : Nat :=
  if isDigit c then c.toNat - '0'.toNat
  else if 'a' ≤ c && c ≤ 'f' then c.toNat - 'a'.toNat + 10
  else c.toNat - 'A'.toNat + 10

/-- The value of digits in a base. -/
def digitsValue (base : Nat) (ds : List Char) : Nat :=
  ds.foldl (fun n c => base * n + hexValue c) 0

/-- Whether a number is a Unicode scalar value. -/
def isScalar (n : Nat) : Bool := n < 0xD800 || (0xDFFF < n && n < 0x110000)

/-- The character that the `n` hexadecimal digits of an escape stand for. -/
def hexChar (n : Nat) (cs : List Char) : Except String Char :=
  let ds := cs.take n
  let v := digitsValue 16 ds
  if ds.length == n && isScalar v then pure (Char.ofNat v)
  else .error ("Escaped character '\\u" ++ String.ofList ds ++ "' is not valid UTF-8.")

/-- The character that the escape `\c` stands for, given what follows `c`, and how many of
the following characters it takes; an escaped blank is refused. -/
def escapeOf (c : Char) (r : List Char) : Except String (Char × Nat) :=
  match c with
  | 'b' => pure ('\x08', 0)
  | 't' => pure ('\t', 0)
  | 'n' => pure ('\n', 0)
  | 'f' => pure ('\x0c', 0)
  | 'r' => pure ('\r', 0)
  | 'e' => pure ('\x1b', 0)
  | '"' => pure ('"', 0)
  | '\\' => pure ('\\', 0)
  | 'x' => do pure (← hexChar 2 r, 2)
  | 'u' => do pure (← hexChar 4 r, 4)
  | 'U' => do pure (← hexChar 8 r, 8)
  | ' ' | '\t' => .error ("invalid escape: '\\" ++ c.toString ++ "'")
  | _ => .error ("BUG: Expected valid escape code after \\, but got " ++ quoteChar c ++ ".")

/-- Replaces the escapes of a basic string by the characters they stand for. -/
def replaceEscapes : List Char → Except String (List Char)
  | [] => pure []
  | '\\' :: c :: r => do
    let (e, n) ← escapeOf c r
    pure (e :: (← replaceEscapes (r.drop n)))
  | ['\\'] => .error "BUG: Escape sequence at end of string."
  | c :: r => do pure (c :: (← replaceEscapes r))
termination_by s => s.length
decreasing_by all_goals simp only [List.length_drop, List.length_cons]; omega

/-- Whether every underscore stands between two characters that may surround one and the run
does not end in one. -/
def underscoresFit (s : List Char) : Bool :=
  if ["nan", "+nan", "-nan", "inf", "-inf", "+inf"].contains (String.ofList s) then true
  else
    let step (acc : Option Bool) (c : Char) : Option Bool :=
      match acc with
      | none => none
      | some accept => if c == '_' && !accept then none else some (isHex c)
    (s.foldl step (some false)).getD false

/-- Whether a run has a leading zero: a zero followed by more characters other than a base
letter, also after a sign. -/
def leadingZero (s : List Char) : Bool :=
  match s with
  | '0' :: c :: _ => !(c == 'b' || c == 'o' || c == 'x')
  | '-' :: '0' :: _ :: _ | '+' :: '0' :: _ :: _ => true
  | _ => false

/-- Whether every period is followed by a digit. -/
def periodsFit : List Char → Bool
  | [] => true
  | ['.'] => false
  | '.' :: c :: r => isDigit c && periodsFit (c :: r)
  | _ :: r => periodsFit r

/-- The integer an integer item spells, within 64 bits. -/
def integerValue (s : List Char) : Except String Int :=
  let shown := quoteText s
  if !underscoresFit s then
    .error ("Invalid integer " ++ shown ++ ": underscores must be surrounded by digits")
  else if leadingZero s then .error ("Invalid integer " ++ shown ++ ": cannot have leading zeroes")
  else
    let digits := s.filter (· != '_')
    let (neg, body) : Bool × List Char := match digits with
      | '-' :: r => (true, r)
      | '+' :: r => (false, r)
      | r => (false, r)
    let magnitude : Nat := match body with
      | '0' :: 'x' :: r => digitsValue 16 r
      | '0' :: 'o' :: r => digitsValue 8 r
      | '0' :: 'b' :: r => digitsValue 2 r
      | r => digitsValue 10 r
    let v : Int := if neg then -(magnitude : Int) else magnitude
    if v < -(Int.pow 2 63) || v ≥ Int.pow 2 63 then .error (String.ofList s ++ " is out of range for int64")
    else pure v

/-- Whether a text is a decimal float numeral: digits, maybe a fraction, maybe an exponent,
with an optional sign in front. -/
def floatShape (s : List Char) : Bool :=
  let body := match s with
    | '-' :: r | '+' :: r => r
    | r => r
  let (whole, rest) := (body.takeWhile isDigit, body.dropWhile isDigit)
  let (frac, rest) : List Char × List Char := match rest with
    | '.' :: r => (r.takeWhile isDigit, r.dropWhile isDigit)
    | r => ([], r)
  let exponentOk := match rest with
    | [] => true
    | e :: r =>
      (e == 'e' || e == 'E') &&
        (let r := match r with
          | '-' :: t | '+' :: t => t
          | t => t
         !r.isEmpty && r.all isDigit)
  !(whole.isEmpty && frac.isEmpty) && exponentOk

/-- The double a float item spells; a finite numeral that rounds past the largest double is
out of range. -/
def floatValue (s : List Char) : Except String Float :=
  let shown := quoteText s
  let parts := (s.splitOnP fun c => c == '.' || c == 'e' || c == 'E').filter (!·.isEmpty)
  if !parts.all underscoresFit then
    .error ("Invalid float " ++ shown ++ ": underscores must be surrounded by digits")
  else if (parts.head?.map leadingZero).getD false then
    .error ("Invalid float " ++ shown ++ ": cannot have leading zeroes")
  else if !periodsFit s then
    .error ("Invalid float " ++ shown ++ ": '.' must be followed by one or more digits")
  else
    let text := String.ofList (s.filter (· != '_'))
    if ["nan", "+nan", "-nan"].contains text then pure ((readNumber? "nan").getD 0)
    else if ["inf", "+inf"].contains text then pure ((readNumber? "inf").getD 0)
    else if text == "-inf" then pure ((readNumber? "-inf").getD 0)
    else if !floatShape text.toList then .error ("Invalid float value: " ++ shown)
    else match readNumber? text with
      | some x => if x.isInf then .error (String.ofList s ++ " is out of range for float64") else pure x
      | none => .error ("Invalid float value: " ++ shown)

/-- Whether `n` digits lead the input, and their value. -/
def fixedDigits (n : Nat) (cs : List Char) : Option (Nat × List Char) :=
  let ds := cs.take n
  if ds.length == n && ds.all isDigit then some (digitsValue 10 ds, cs.drop n) else none

/-- The days of a month of a year. -/
def daysIn (year month : Nat) : Nat :=
  if month == 2 then (if year % 4 == 0 && (year % 100 != 0 || year % 400 == 0) then 29 else 28)
  else if month == 4 || month == 6 || month == 9 || month == 11 then 30 else 31

/-- Reads `YYYY-MM-DD` with the day valid for the month. -/
def readDate (cs : List Char) : Option (List Char) := do
  let (y, cs) ← fixedDigits 4 cs
  let cs ← match cs with | '-' :: r => some r | _ => none
  let (m, cs) ← fixedDigits 2 cs
  let cs ← match cs with | '-' :: r => some r | _ => none
  let (d, cs) ← fixedDigits 2 cs
  if 1 ≤ m && m ≤ 12 && 1 ≤ d && d ≤ daysIn y m then some cs else none

/-- Reads `HH:MM`, then `:SS` with an optional fraction when `seconds` asks for them. -/
def readTime (seconds : Bool) (cs : List Char) : Option (List Char) := do
  let (h, cs) ← fixedDigits 2 cs
  let cs ← match cs with | ':' :: r => some r | _ => none
  let (m, cs) ← fixedDigits 2 cs
  if !(h < 24 && m < 60) then none
  else if !seconds then some cs
  else do
    let cs ← match cs with | ':' :: r => some r | _ => none
    let (s, cs) ← fixedDigits 2 cs
    if s ≥ 60 then none
    else match cs with
      | '.' :: c :: r => if isDigit c then some (r.dropWhile isDigit) else some cs
      | _ => some cs

/-- Reads a time offset: `Z` or a signed `HH:MM`. -/
def readOffset (cs : List Char) : Option (List Char) :=
  match cs with
  | 'Z' :: r => some r
  | s :: r =>
    if s == '+' || s == '-' then do
      let (h, r) ← fixedDigits 2 r
      let r ← match r with | ':' :: t => some t | _ => none
      let (m, r) ← fixedDigits 2 r
      if h ≤ 24 && m ≤ 60 then some r else none
    else none
  | [] => none

/-- Whether a reader accepts the whole input. -/
def whole (read : List Char → Option (List Char)) (cs : List Char) : Bool :=
  match read cs with
  | some [] => true
  | _ => false

/-- Whether a run is an offset date-time, a local date-time, a local date or a local time; the
seconds of a time may be left out. -/
def dateShape (s : List Char) : Bool :=
  let dateTime (secs : Bool) (offset : Bool) : List Char → Option (List Char) := fun cs => do
    let cs ← readDate cs
    let cs ← match cs with | 'T' :: r => some r | _ => none
    let cs ← readTime secs cs
    if offset then readOffset cs else some cs
  [dateTime true true, dateTime true false, readDate, readTime true,
   dateTime false true, dateTime false false, readTime false].any fun r => whole r s

/-- The date or time a datetime item spells, with `t` and a space written `T` and `z`
written `Z`. -/
def datetimeValue (s : List Char) : Except String String :=
  let t := s.map fun c => if c == 't' || c == ' ' then 'T' else if c == 'z' then 'Z' else c
  if dateShape t then pure (String.ofList t) else .error ("invalid datetime: " ++ quoteText t)

end Toml

end StackScript
