/-!
# Shortest decimals

The decimal with the fewest digits that a binary floating-point number is the nearest
one to. A finite number is read off its bits as `significand * 2 ^ exponent`. The
reals that round to it form an interval around it, with its ends when the significand
is even. For one digit, two digits and so on, the two neighbours of the number on that
decimal grid are tried in exact arithmetic: the first grid with a neighbour inside
the interval gives the digits, and of two such neighbours the nearer.
-/

namespace DesignAtlas.Decimal

/-- A positive binary number `significand * 2 ^ exponent`. -/
structure Binary where
  significand : Nat
  exponent : Int
  /-- The next smaller number is only half as far away as the next greater one. -/
  closerBelow : Bool
  deriving DecidableEq, Repr

/-- What the bits of a floating-point number say. -/
inductive Reading where
  | nan
  | infinite (negative : Bool)
  | zero (negative : Bool)
  | finite (negative : Bool) (value : Binary)
  deriving DecidableEq, Repr

/-- Reads a floating-point number. -/
def Reading.ofFloat (x : Float) : Reading :=
  let bits := x.toBits.toNat
  let negative := bits / Nat.pow 2 63 == 1
  let exponent : Nat := bits / Nat.pow 2 52 % Nat.pow 2 11
  let fraction := bits % Nat.pow 2 52
  if exponent == 2047 then
    if fraction == 0 then .infinite negative else .nan
  else if exponent == 0 then
    if fraction == 0 then .zero negative
    else .finite negative ⟨fraction, -1074, false⟩
  else
    .finite negative
      ⟨Nat.pow 2 52 + fraction, (exponent : Int) - 1075, fraction == 0 && 1 < exponent⟩

/-- The factors that compare `a * 10 ^ e` with `b * 2 ^ p` in whole numbers: the
first goes with `a`, the second with `b`. -/
def scales (e p : Int) : Nat × Nat :=
  (Nat.pow 10 e.toNat * Nat.pow 2 (-p).toNat, Nat.pow 10 (-e).toNat * Nat.pow 2 p.toNat)

/-- Whether `c * 10 ^ e` rounds to the number. Quarters of the last binary place are
the unit, so that the ends of the interval are whole. -/
def Binary.isNearestTo (x : Binary) (c : Nat) (e : Int) : Bool :=
  let (f, g) := scales e (x.exponent - 2)
  let centre := 4 * x.significand
  let low := (centre - if x.closerBelow then 1 else 2) * g
  let high := (centre + 2) * g
  let here := c * f
  if x.significand % 2 == 0 then low ≤ here && here ≤ high else low < here && here < high

/-- How many places after the point are zero before the first digit of a number
below one, given as a fraction, together with that digit. -/
def leadingPlaces : Nat → Nat → Nat → Nat
  | 0, _, _ => 0
  | n + 1, num, den => if den ≤ num * 10 then 1 else 1 + leadingPlaces n (num * 10) den

/-- The power of ten of the first digit. -/
def Binary.magnitude (x : Binary) : Int :=
  let (f, g) := scales 0 x.exponent
  let num := x.significand * g
  if f ≤ num then ((Nat.toDigits 10 (num / f)).length : Int) - 1
  else -(leadingPlaces 400 num f : Int)

/-- The shortest decimal on the grid of `n` digits, if it has one: digits and the
power of ten of the last of them. -/
def Binary.onGrid (x : Binary) (n : Nat) : Option (Nat × Int) :=
  let e := x.magnitude + 1 - n
  let (f, g) := scales e x.exponent
  let below := x.significand * g / f
  match x.isNearestTo below e, x.isNearestTo (below + 1) e with
  | true, true =>
    let twice := 2 * (x.significand * g)
    let middle := (2 * below + 1) * f
    if twice < middle || (twice == middle && below % 2 == 0) then some (below, e)
    else some (below + 1, e)
  | true, false => some (below, e)
  | false, true => some (below + 1, e)
  | false, false => none

/-- The fewest digits that read back as the number, and the power of ten of the last
of them. Seventeen digits always do. -/
def Binary.shortest (x : Binary) : Nat × Int :=
  ((List.range 17).findSome? fun n => x.onGrid (n + 1)).getD (0, 0)

end DesignAtlas.Decimal
