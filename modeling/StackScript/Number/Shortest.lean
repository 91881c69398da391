/-! # Shortest decimal digits of a double

A finite positive double is `m · 2^q`. The reals that round to it form an interval around it,
closed when `m` is even (round-half-even keeps the even mantissa) and open otherwise; its lower
half is half as wide at the bottom of a binade. `Decimal.shortest` returns the decimal
`d · 10^k` with the fewest significant digits inside that interval, and of two such on one
grid the nearer one. All arithmetic is exact, on natural numbers.
-/

namespace StackScript

/-- A decimal `digits · 10^exponent`. -/
structure Decimal where
  digits : Nat
  exponent : Int
deriving Repr, DecidableEq

/-- A finite nonnegative double split into mantissa and binary exponent, with the flag that
its lower neighbour is nearer than its upper one (the bottom of a binade). -/
structure Binary where
  mantissa : Nat
  exponent : Int
  lowerCloser : Bool
deriving Repr, DecidableEq

namespace Binary

/-- The mantissa and exponent of the magnitude of a finite double. -/
def ofFloat (x : Float) : Binary :=
  let bits : Nat := x.toBits.toNat
  let frac : Nat := bits % Nat.pow 2 52
  let biased : Nat := bits / Nat.pow 2 52 % 2048
  if biased = 0 then ⟨frac, -1074, false⟩
  else ⟨frac + Nat.pow 2 52, (biased : Int) - 1075, frac == 0 && biased > 1⟩

end Binary

namespace Decimal

/-- `10 ^ n` for an integer exponent clipped at zero. -/
def pow10 (n : Int) : Nat := Nat.pow 10 n.toNat

/-- `2 ^ n` for an integer exponent clipped at zero. -/
def pow2 (n : Int) : Nat := Nat.pow 2 n.toNat

/-- The number of decimal digits of a positive number. -/
def digitCount (n : Nat) : Nat := (Nat.toDigits 10 n).length

/-- Compares `d · 10^k` with `b · 2^e` exactly. -/
def compareScaled (d : Nat) (k : Int) (b : Nat) (e : Int) : Ordering :=
  compare (d * pow10 k * pow2 (-e)) (b * pow2 e * pow10 (-k))

/-- The exponent `E` with `10^E ≤ m · 2^q < 10^(E+1)`, for `m > 0`. -/
def leadExponent (m : Nat) (q : Int) : Int :=
  let num := m * pow2 q
  let den := pow2 (-q)
  let e0 : Int := (digitCount num : Int) - (digitCount den : Int)
  -- The quotient lies in [10^(e0-1), 10^(e0+1)); one comparison settles which decade.
  if compareScaled 1 e0 m q != .gt then e0 else e0 - 1

/-- `⌊m · 2^q / 10^k⌋`. -/
def floorAt (m : Nat) (q k : Int) : Nat :=
  (m * pow2 q * pow10 (-k)) / (pow2 (-q) * pow10 k)

/-- Whether `d · 10^k` lies in the rounding interval of `m · 2^q`. The interval's ends are
`(4m - 2) · 2^(q-2)` (or `4m - 1` at the bottom of a binade) and `(4m + 2) · 2^(q-2)`. -/
def inInterval (x : Binary) (d : Nat) (k : Int) : Bool :=
  let lo := if x.lowerCloser then 4 * x.mantissa - 1 else 4 * x.mantissa - 2
  let hi := 4 * x.mantissa + 2
  let closed := x.mantissa % 2 == 0
  let aboveLo := match compareScaled d k lo (x.exponent - 2) with
    | .gt => true
    | .eq => closed
    | .lt => false
  let belowHi := match compareScaled d k hi (x.exponent - 2) with
    | .lt => true
    | .eq => closed
    | .gt => false
  aboveLo && belowHi

/-- The candidate on the grid `10^k` for `x`: of the two neighbours of `x` on that grid, the
ones inside the interval, the nearer preferred and an exact tie going to the even digit. -/
def onGrid (x : Binary) (k : Int) : Option Nat :=
  let lo := floorAt x.mantissa x.exponent k
  let okLo := inInterval x lo k
  let okHi := inInterval x (lo + 1) k
  if okLo && okHi then
    -- Compare `2x` with the midpoint `(2 lo + 1) · 10^k`.
    match compareScaled (2 * lo + 1) k (2 * x.mantissa) x.exponent with
    | .lt => some (lo + 1)
    | .gt => some lo
    | .eq => some (if lo % 2 == 0 then lo else lo + 1)
  else if okLo then some lo
  else if okHi then some (lo + 1)
  else none

/-- Drops trailing zero digits, raising the exponent. -/
def trim (d : Nat) (k : Int) : Decimal :=
  if h : 0 < d ∧ d % 10 = 0 then trim (d / 10) (k + 1) else ⟨d, k⟩
termination_by d
decreasing_by omega

/-- The shortest decimal inside the rounding interval of a positive binary value: grids of
1, 2, … significant digits are tried in turn and the first one with a candidate wins. -/
def shortest (x : Binary) : Decimal :=
  let e := leadExponent x.mantissa x.exponent
  let found := (List.range 17).findSome? fun (i : Nat) =>
    let k := e - (i : Int)
    (onGrid x k).map fun d => (d, k)
  match found with
  | some (d, k) => trim d k
  | none =>
    let k := e - 16
    trim (floorAt x.mantissa x.exponent k) k

end Decimal

end StackScript
