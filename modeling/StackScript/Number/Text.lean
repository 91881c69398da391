import StackScript.Number.Shortest

/-! # The text of a number

Numbers print with the fewest significant digits that read back to the same double
(`Decimal.shortest`). The layout decides between positional and exponent form by the decimal
exponent of the leading digit: exponent form below `-4` and from `6` on, the exponent with an
explicit sign and at least two digits. Zero keeps its sign; the non-finite values print as
`NaN`, `+Inf` and `-Inf`.
-/

namespace StackScript

/-- How a number's shortest digits are laid out as text. -/
structure NumberLayout where
  /-- The smallest leading-digit exponent written positionally. -/
  positionalFrom : Int
  /-- The first leading-digit exponent written in exponent form again. -/
  positionalUntil : Int
  /-- The least number of exponent digits. -/
  exponentDigits : Nat
  nanText : String
  infText : String
  negInfText : String

namespace NumberLayout

/-- Positional from `1e-4` up to below `1e6`; two exponent digits; `NaN`, `+Inf`, `-Inf`. -/
def standard : NumberLayout :=
  ⟨-4, 6, 2, "NaN", "+Inf", "-Inf"⟩

/-- `n` zeros. -/
def zeros (n : Nat) : String := String.ofList (List.replicate n '0')

/-- The digits `ds` with the decimal point after `dp` of them (`dp` may be outside). -/
def positional (ds : List Char) (dp : Int) : String :=
  if dp ≤ 0 then "0." ++ zeros dp.natAbs ++ String.ofList ds
  else if dp.toNat ≥ ds.length then String.ofList ds ++ zeros (dp.toNat - ds.length)
  else String.ofList (ds.take dp.toNat) ++ "." ++ String.ofList (ds.drop dp.toNat)

/-- The digits `ds` as `d.ddd` followed by the exponent `exp`. -/
def scientific (L : NumberLayout) (ds : List Char) (exp : Int) : String :=
  let mant := match ds with
    | [] => "0"
    | [d] => String.singleton d
    | d :: rest => String.singleton d ++ "." ++ String.ofList rest
  let e := Nat.toDigits 10 exp.natAbs
  let padded := List.replicate (L.exponentDigits - e.length) '0' ++ e
  mant ++ "e" ++ (if exp < 0 then "-" else "+") ++ String.ofList padded

/-- The text of a finite positive decimal. -/
def decimalText (L : NumberLayout) (d : Decimal) : String :=
  let ds := Nat.toDigits 10 d.digits
  let dp : Int := ds.length + d.exponent
  let exp := dp - 1
  if exp < L.positionalFrom || exp ≥ L.positionalUntil then L.scientific ds exp
  else positional ds dp

/-- The text of a double. -/
def render (L : NumberLayout) (x : Float) : String :=
  if x.isNaN then L.nanText
  else if x.isInf then (if x > 0 then L.infText else L.negInfText)
  else
    let b := Binary.ofFloat x
    let sign := if x.toBits.toNat ≥ Nat.pow 2 63 then "-" else ""
    if b.mantissa = 0 then sign ++ "0"
    else sign ++ L.decimalText (Decimal.shortest b)

end NumberLayout

/-- The text of a number as the language prints it. -/
def numberText (x : Float) : String := NumberLayout.standard.render x

end StackScript
