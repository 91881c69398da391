import StackScript.Number.Shortest
import StackScript.Number.Read

/-! # Narrow binary formats

Half precision (binary16) and single precision (binary32) as they meet doubles. Every value of
a narrow format is also a double, so reading a narrow encoding into a double is exact. A finite
double belongs to a narrow format when its magnitude is `k · 2^j` with `k` below `2^precision`,
`j` no lower than the exponent of the format's least subnormal, and its leading bit no higher
than the format's largest exponent; its encoding in the format is then found by exact
arithmetic on its mantissa.
-/

namespace StackScript

/-- A binary interchange format: the bits of its significand (the hidden bit included) and the
width of its exponent field. -/
structure Format where
  precision : Nat
  exponentBits : Nat

namespace Format

/-- Half precision. -/
def half : Format := ⟨11, 5⟩

/-- Single precision. -/
def single : Format := ⟨24, 8⟩

/-- The bits of the stored fraction. -/
def fractionBits (f : Format) : Nat := f.precision - 1

/-- The exponent bias, which is also the largest exponent of a finite value. -/
def bias (f : Format) : Nat := Nat.pow 2 (f.exponentBits - 1) - 1

/-- The exponent field of infinities and NaNs. -/
def topField (f : Format) : Nat := Nat.pow 2 f.exponentBits - 1

/-- The least subnormal of the format is `2 ^ leastExponent`. -/
def leastExponent (f : Format) : Int := 1 - (f.bias : Int) - f.fractionBits

/-- The bits of the quiet NaN that doubles take for every NaN. -/
def quietNaN : Nat := 0x7FF8000000000000

/-- The bits of the double that an encoding in the format stands for. A value of a narrow format
is a double, and a normal one: the leading bit of a subnormal value moves into the hidden bit. -/
def widen (f : Format) (bits : Nat) : Nat :=
  let frac := bits % Nat.pow 2 f.fractionBits
  let field := bits / Nat.pow 2 f.fractionBits % Nat.pow 2 f.exponentBits
  let sign := bits / Nat.pow 2 (f.fractionBits + f.exponentBits) % 2 * Nat.pow 2 63
  if field == f.topField then
    if frac == 0 then sign + 2047 * Nat.pow 2 52 else quietNaN
  else if field == 0 then
    if frac == 0 then sign
    else
      let lead := Nat.log2 frac
      sign + (f.leastExponent + lead + 1023).toNat * Nat.pow 2 52 +
        (frac - Nat.pow 2 lead) * Nat.pow 2 (52 - lead)
  else sign + (field + 1023 - f.bias) * Nat.pow 2 52 + frac * Nat.pow 2 (52 - f.fractionBits)

/-- The double an encoding in the format stands for. -/
def toFloat (f : Format) (bits : Nat) : Float := Float.ofBits (UInt64.ofNat (f.widen bits))

/-- `k` with `m · 2^q = k · 2^j`, when there is a whole one. -/
def rescale (m : Nat) (q j : Int) : Option Nat :=
  if j ≤ q then some (m * Nat.pow 2 (q - j).toNat)
  else if m % Nat.pow 2 (j - q).toNat == 0 then some (m / Nat.pow 2 (j - q).toNat)
  else none

/-- The encoding of a finite double in the format, when the format holds it exactly. -/
def encode? (f : Format) (x : Float) : Option Nat :=
  let b := Binary.ofFloat x
  let sign := if x.toBits >>> 63 == 1 then Nat.pow 2 (f.fractionBits + f.exponentBits) else 0
  if b.mantissa == 0 then some sign
  else
    let lead : Int := b.exponent + (Nat.log2 b.mantissa : Int)
    -- The spacing of the format's values next to the magnitude.
    let step := max f.leastExponent (lead - f.fractionBits)
    if lead > f.bias then none
    else (rescale b.mantissa b.exponent step).map fun k =>
      sign + (max (lead + f.bias) 1 - 1).toNat * Nat.pow 2 f.fractionBits + k

/-- The position of the leading bit of `n / d`, for positive `n` and `d`: the `L` with
`2^L ≤ n / d < 2^(L+1)`. -/
def leadBit (n d : Nat) : Int :=
  let guess : Int := (Nat.log2 n : Int) - (Nat.log2 d : Int)
  -- The quotient lies in [2^(guess-1), 2^(guess+1)); one comparison settles which.
  let atLeast (l : Int) : Bool :=
    if l ≥ 0 then n ≥ d * Nat.pow 2 l.toNat else n * Nat.pow 2 (-l).toNat ≥ d
  if atLeast guess then guess else guess - 1

/-- `n / d · 2^(-j)` split into its whole part and whether the rest is below, at or above one
half. -/
def quotientAt (n d : Nat) (j : Int) : Nat × Ordering :=
  let (num, den) := if j ≥ 0 then (n, d * Nat.pow 2 j.toNat) else (n * Nat.pow 2 (-j).toNat, d)
  (num / den, compare (2 * (num % den)) den)

/-- The value of the format nearest to `m · 10^e` (ties to even), as a double; values beyond
the format's largest become infinite. -/
def nearest (f : Format) (m : Nat) (e : Int) : Float :=
  if m == 0 then 0
  else
    let (n, d) := if e ≥ 0 then (m * Nat.pow 10 e.toNat, 1) else (m, Nat.pow 10 (-e).toNat)
    let j := max f.leastExponent (leadBit n d - f.fractionBits)
    let (q, rest) := quotientAt n d j
    let q := match rest with
      | .lt => q
      | .gt => q + 1
      | .eq => if q % 2 == 0 then q else q + 1
    if leadBit q 1 + j > f.bias then 1 / 0 else Float.scaleB (Float.ofNat q) j

end Format

/-- Reads a number as a single-precision value, widened to a double. -/
def readSingle? (s : String) : Option Float := readNumberWith? Format.single.nearest s

end StackScript
