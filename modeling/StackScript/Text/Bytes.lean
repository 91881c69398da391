/-! # Byte strings

Source text, string objects and program output are byte strings: nothing in the language
requires them to be valid UTF-8, and columns and lengths count bytes. This module holds the
byte-string type, the UTF-8 bytes of a `String`, the well-formedness check of UTF-8 (the
shortest form of each scalar value, no surrogates, nothing above U+10FFFF) with its decoder,
and the quoted form used in messages.
-/

namespace StackScript

/-- A byte string. -/
abbrev Bytes := List UInt8

namespace Bytes

/-- The UTF-8 bytes of a string. -/
def ofString (s : String) : Bytes := s.toUTF8.toList

/-- A continuation byte of a UTF-8 sequence. -/
def isCont (b : UInt8) : Bool := 0x80 ≤ b && b ≤ 0xBF

/-- The range allowed for the second byte after a three- or four-byte lead: narrower after
`E0`, `ED`, `F0` and `F4`, which excludes overlong forms, surrogates and values above U+10FFFF. -/
def secondOk (lead b : UInt8) : Bool :=
  if lead == 0xE0 then 0xA0 ≤ b && b ≤ 0xBF
  else if lead == 0xED then 0x80 ≤ b && b ≤ 0x9F
  else if lead == 0xF0 then 0x90 ≤ b && b ≤ 0xBF
  else if lead == 0xF4 then 0x80 ≤ b && b ≤ 0x8F
  else isCont b

/-- The payload bits of a continuation byte. -/
def low6 (b : UInt8) : Nat := b.toNat % 64

/-- Decodes well-formed UTF-8 into its characters; `none` at the first ill-formed sequence. -/
def chars? : Bytes → Option (List Char)
  | [] => some []
  | b0 :: r0 =>
    if b0 < 0x80 then
      (chars? r0).map (Char.ofNat b0.toNat :: ·)
    else if 0xC2 ≤ b0 && b0 ≤ 0xDF then
      match r0 with
      | b1 :: r1 =>
        if isCont b1 then
          (chars? r1).map (Char.ofNat ((b0.toNat % 32) * 64 + low6 b1) :: ·)
        else none
      | [] => none
    else if 0xE0 ≤ b0 && b0 ≤ 0xEF then
      match r0 with
      | b1 :: b2 :: r2 =>
        if secondOk b0 b1 && isCont b2 then
          (chars? r2).map
            (Char.ofNat ((b0.toNat % 16) * 4096 + low6 b1 * 64 + low6 b2) :: ·)
        else none
      | _ => none
    else if 0xF0 ≤ b0 && b0 ≤ 0xF4 then
      match r0 with
      | b1 :: b2 :: b3 :: r3 =>
        if secondOk b0 b1 && isCont b2 && isCont b3 then
          (chars? r3).map
            (Char.ofNat ((b0.toNat % 8) * 262144 + low6 b1 * 4096 + low6 b2 * 64 + low6 b3) :: ·)
        else none
      | _ => none
    else none

/-- Whether a byte string is well-formed UTF-8. -/
def isUtf8 (b : Bytes) : Bool := (chars? b).isSome

/-- The text of well-formed UTF-8. -/
def toString? (b : Bytes) : Option String := (chars? b).map String.ofList

/-- Two hexadecimal digits, upper case. -/
def hexUpper (n : Nat) : String :=
  let digit (d : Nat) : Char := if d < 10 then Char.ofNat (48 + d) else Char.ofNat (55 + d)
  String.ofList [digit (n / 16 % 16), digit (n % 16)]

/-- Two hexadecimal digits, lower case. -/
def hexLower (n : Nat) : String :=
  let digit (d : Nat) : Char := if d < 10 then Char.ofNat (48 + d) else Char.ofNat (87 + d)
  String.ofList [digit (n / 16 % 16), digit (n % 16)]

/-- Lower-case hexadecimal text of a byte string, two digits a byte. -/
def toHex (b : Bytes) : String := String.join (b.map (fun x => hexLower x.toNat))

/-- The escape of one ASCII byte inside a double-quoted literal. -/
def quoteAscii (b : UInt8) : String :=
  if b == 0x22 then "\\\""
  else if b == 0x5C then "\\\\"
  else if b == 0x07 then "\\a"
  else if b == 0x08 then "\\b"
  else if b == 0x0C then "\\f"
  else if b == 0x0A then "\\n"
  else if b == 0x0D then "\\r"
  else if b == 0x09 then "\\t"
  else if b == 0x0B then "\\v"
  else if b < 0x20 || b == 0x7F then "\\x" ++ hexLower b.toNat
  else String.singleton (Char.ofNat b.toNat)

/-- Whether a non-ASCII character is shown as itself in a quoted literal: the C1 controls,
the no-break space, the soft hyphen and the byte-order mark are escaped. -/
def showsAsItself (c : Char) : Bool :=
  !(c.toNat < 0xA1 || c.toNat == 0xAD || c.toNat == 0xFEFF)

/-- The escape of a non-ASCII character that is not shown as itself. -/
def quoteRune (c : Char) : String :=
  let n := c.toNat
  if n < 0x10000 then
    "\\u" ++ hexLower (n / 256) ++ hexLower (n % 256)
  else
    "\\U" ++ hexLower (n / 16777216) ++ hexLower (n / 65536 % 256) ++ hexLower (n / 256 % 256)
      ++ hexLower (n % 256)

/-- A non-ASCII character inside a quoted literal. -/
def showRune (c : Char) : String := if showsAsItself c then c.toString else quoteRune c

/-- The character that a non-ASCII lead byte starts, with the number of bytes after the lead
that it takes; `none` when no well-formed sequence starts there. -/
def leadRune (b : UInt8) : Bytes → Option (Char × Nat)
  | b1 :: r1 =>
    match chars? [b, b1] with
    | some [c] => some (c, 1)
    | _ =>
      match r1 with
      | b2 :: r2 =>
        match chars? [b, b1, b2] with
        | some [c] => some (c, 2)
        | _ =>
          match r2 with
          | b3 :: _ =>
            match chars? [b, b1, b2, b3] with
            | some [c] => some (c, 3)
            | _ => none
          | [] => none
      | [] => none
  | [] => none

/-- The body of a double-quoted literal: ASCII escapes, well-formed characters as themselves,
and every byte of an ill-formed sequence as a hexadecimal escape. -/
def quoteBody : Bytes → String
  | [] => ""
  | b :: r =>
    if b < 0x80 then quoteAscii b ++ quoteBody r
    else
      match leadRune b r with
      | some (c, n) => showRune c ++ quoteBody (r.drop n)
      | none => "\\x" ++ hexLower b.toNat ++ quoteBody r
termination_by bs => bs.length
decreasing_by all_goals simp only [List.length_drop, List.length_cons]; omega

/-- A byte string as a double-quoted literal. -/
def quote (b : Bytes) : String := "\"" ++ quoteBody b ++ "\""

end Bytes

end StackScript
