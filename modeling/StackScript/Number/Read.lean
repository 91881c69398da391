/-! # Reading decimal numbers

A decimal literal `digits ('.' digits)? (('e'|'E') sign? digits)?` reads as the double nearest
to its value, ties to even; values beyond the largest double become infinite and values below
half the smallest subnormal become zero. The general reader also takes a sign, a leading `.`,
and the words `inf`, `infinity` and `nan` in any case.
-/

namespace StackScript

namespace NumberRead

/-- The value of a digit character. -/
def digitVal (c : Char) : Nat := c.toNat - 48

/-- Splits a leading run of decimal digits. -/
def spanDigits (cs : List Char) : List Char × List Char :=
  (cs.takeWhile Char.isDigit, cs.dropWhile Char.isDigit)

/-- The number that a list of decimal digits denotes. -/
def digitsValue (ds : List Char) : Nat := ds.foldl (fun acc c => acc * 10 + digitVal c) 0

/-- The double nearest to `mantissa · 10^exp`. -/
def scaled (mantissa : Nat) (exp : Int) : Float :=
  if exp < 0 then Float.ofScientific mantissa true exp.natAbs
  else Float.ofScientific mantissa false exp.toNat

/-- Reads an unsigned decimal with optional fraction and exponent, rounding `digits · 10^exp`
by `round`; the whole text must match. -/
def unsignedWith? (round : Nat → Int → Float) (cs : List Char) : Option Float :=
  let (intPart, rest) := spanDigits cs
  let (fracPart, rest) := match rest with
    | '.' :: r => spanDigits r
    | r => ([], r)
  if intPart.isEmpty && fracPart.isEmpty then none
  else
    let expPart : Option Int := match rest with
      | [] => some 0
      | c :: r =>
        if c = 'e' || c = 'E' then
          let (neg, r) := match r with
            | '-' :: r' => (true, r')
            | '+' :: r' => (false, r')
            | r' => (false, r')
          let (ds, tail) := spanDigits r
          if ds.isEmpty || !tail.isEmpty then none
          else
            let v : Int := digitsValue ds
            some (if neg then -v else v)
        else none
    expPart.map fun e =>
      round (digitsValue (intPart ++ fracPart)) (e - (fracPart.length : Int))

/-- Whether two texts are equal ignoring ASCII case. -/
def sameWord (a : List Char) (b : String) : Bool :=
  a.map Char.toLower == b.toList

end NumberRead

/-- Reads a number written as a decimal, with optional sign, or as `inf`, `infinity` or `nan`,
rounding decimals by `round`. -/
def readNumberWith? (round : Nat → Int → Float) (s : String) : Option Float :=
  let cs := s.toList
  let (neg, body) := match cs with
    | '-' :: r => (true, r)
    | '+' :: r => (false, r)
    | r => (false, r)
  let signed (x : Float) : Float := if neg then -x else x
  if NumberRead.sameWord body "inf" || NumberRead.sameWord body "infinity" then
    some (signed (1.0 / 0.0))
  else if NumberRead.sameWord body "nan" then some (0.0 / 0.0)
  else (NumberRead.unsignedWith? round body).map signed

/-- Reads a number as a double. -/
def readNumber? (s : String) : Option Float := readNumberWith? NumberRead.scaled s

end StackScript
