import StackScript.Text.Bytes

/-! # White space

The Unicode white space characters (tab, line feed, vertical tab, form feed, carriage return,
space, U+0085, U+00A0, U+1680, U+2000 to U+200A, U+2028, U+2029, U+202F, U+205F and U+3000)
found at the ends of UTF-8 text, and the text trimmed of them. Bytes that are not well-formed
UTF-8 are never white space.
-/

namespace StackScript

namespace Bytes

/-- The length of the white space character that starts some bytes, if one does. -/
def spaceAtStart : Bytes → Option Nat
  | b :: rest =>
    if (9 ≤ b && b ≤ 13) || b == 32 then some 1
    else match b, rest with
      | 0xC2, 0x85 :: _ | 0xC2, 0xA0 :: _ => some 2
      | 0xE1, 0x9A :: 0x80 :: _ => some 3
      | 0xE2, 0x80 :: c :: _ =>
        if c ≤ 0x8A || c == 0xA8 || c == 0xA9 || c == 0xAF then some 3 else none
      | 0xE2, 0x81 :: 0x9F :: _ => some 3
      | 0xE3, 0x80 :: 0x80 :: _ => some 3
      | _, _ => none
  | [] => none

/-- Drops white space at the start, `fuel` bounding the characters dropped. -/
def trimStart : Nat → Bytes → Bytes
  | 0, b => b
  | fuel + 1, b =>
    match spaceAtStart b with
    | some n => trimStart fuel (b.drop n)
    | none => b

/-- The length of the white space character that ends some bytes, if one does. -/
def spaceAtEnd (b : Bytes) : Option Nat :=
  match b.reverse with
  | x :: rest =>
    if (9 ≤ x && x ≤ 13) || x == 32 then some 1
    else match x, rest with
      | 0x85, 0xC2 :: _ | 0xA0, 0xC2 :: _ => some 2
      | 0x80, 0x9A :: 0xE1 :: _ => some 3
      | c, 0x80 :: 0xE2 :: _ =>
        if (0x80 ≤ c && c ≤ 0x8A) || c == 0xA8 || c == 0xA9 || c == 0xAF then some 3 else none
      | 0x9F, 0x81 :: 0xE2 :: _ => some 3
      | 0x80, 0x80 :: 0xE3 :: _ => some 3
      | _, _ => none
  | [] => none

/-- Drops white space at the end, `fuel` bounding the characters dropped. -/
def trimEnd : Nat → Bytes → Bytes
  | 0, b => b
  | fuel + 1, b =>
    match spaceAtEnd b with
    | some n => trimEnd fuel (b.take (b.length - n))
    | none => b

/-- A line without the white space at its ends. -/
def trimSpace (b : Bytes) : Bytes := trimEnd b.length (trimStart b.length b)

end Bytes

end StackScript
