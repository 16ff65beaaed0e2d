import RiftLang.Decimal.Binary

/-!
# Shortest decimals

The decimal with the fewest digits that reads back as a given floating-point number.

* `Roundings` — a finite magnitude together with the reals that round to it.
* `Roundings.shortest` — the search: for one digit, two digits, … it tests the two neighbours of the
  value among the decimals of that length. The first length with a hit wins, and of two hits the
  nearer one.
* `Tie` — which of two equally near ones is taken.
-/

namespace RiftLang

/-- The number `digits * 10 ^ exponent`. -/
structure ScaledDecimal where
  /-- The digits, read as a natural number. -/
  digits : Nat
  /-- The power of ten that scales them. -/
  exponent : Int
  deriving DecidableEq, Repr, Inhabited

namespace ScaledDecimal

/-- The numerator of a decimal as a quotient. -/
def num (d : ScaledDecimal) : Nat :=
  d.digits * Nat.pow 10 d.exponent.toNat

/-- The denominator of a decimal as a quotient. -/
def den (d : ScaledDecimal) : Nat :=
  Nat.pow 10 (-d.exponent).toNat

/-- The decimal one unit of the last digit higher. -/
def succ (d : ScaledDecimal) : ScaledDecimal :=
  { d with digits := d.digits + 1 }

end ScaledDecimal

/-- Which of two equally near decimals is taken. -/
inductive Tie where
  /-- The larger one. -/
  | up
  /-- The one whose last digit is even. -/
  | even
  deriving DecidableEq, Repr, Inhabited

/-- A finite magnitude and the ends of the interval of reals that round to it, as quotients by one
denominator. -/
structure Roundings where
  /-- The numerator of the magnitude. -/
  value : Nat
  /-- The numerator of the point halfway to the magnitude below. -/
  low : Nat
  /-- The numerator of the point halfway to the magnitude above. -/
  high : Nat
  /-- The denominator. -/
  den : Nat
  /-- Whether the two ends round to the magnitude too: a tie goes to the even mantissa. -/
  isClosed : Bool
  deriving DecidableEq, Repr, Inhabited

namespace Roundings

/-- The magnitude of the given bits, which have no sign and are those of a finite number.

The unit of the mantissa is `2 ^ (e - 1075)`, and its quarters tell all three numerators apart.
Below a power of two the magnitudes are half as far apart as above it, unless they are subnormal. -/
def ofBits (bits : Nat) : Roundings :=
  let biased := bits / leastMantissa
  let fraction := bits % leastMantissa
  let mantissa := if biased = 0 then fraction else leastMantissa + fraction
  let gapBelow := if fraction = 0 && 1 < biased then 1 else 2
  let e := max biased 1
  let scale := Nat.pow 2 (e - 1077)
  { value := 4 * mantissa * scale
    low := (4 * mantissa - gapBelow) * scale
    high := (4 * mantissa + 2) * scale
    den := Nat.pow 2 (1077 - e)
    isClosed := mantissa % 2 = 0 }

/-- Does a decimal round to the magnitude? -/
def contains (r : Roundings) (d : ScaledDecimal) : Bool :=
  let point := d.num * r.den
  if r.isClosed then r.low * d.den ≤ point && point ≤ r.high * d.den
  else r.low * d.den < point && point < r.high * d.den

/-- The least `p` such that a positive magnitude is below `10 ^ p`. -/
def decimalTop (r : Roundings) : Int :=
  if r.den ≤ r.value then decimalLength (r.value / r.den)
  else 1 - (decimalLength ((r.den - 1) / r.value) : Int)

/-- The greatest decimal with the given exponent that is not above the magnitude. -/
def floorAt (r : Roundings) (exponent : Int) : ScaledDecimal :=
  let unit : ScaledDecimal := ⟨1, exponent⟩
  ⟨r.value * unit.den / (r.den * unit.num), exponent⟩

/-- The nearer of two neighbours of the magnitude, `below` and the next decimal. -/
def nearer (r : Roundings) (tie : Tie) (below : ScaledDecimal) : ScaledDecimal :=
  let middle : ScaledDecimal := ⟨2 * below.digits + 1, below.exponent⟩
  match compare (2 * r.value * middle.den) (middle.num * r.den) with
  | .lt => below
  | .gt => below.succ
  | .eq =>
    match tie with
    | .up => below.succ
    | .even => if below.digits % 2 = 0 then below else below.succ

/-- The neighbour with the given exponent that reads back as the magnitude, the nearer one if both
do. -/
def neighbour? (r : Roundings) (tie : Tie) (exponent : Int) : Option ScaledDecimal :=
  let below := r.floorAt exponent
  match r.contains below, r.contains below.succ with
  | true, true => some (r.nearer tie below)
  | true, false => some below
  | false, true => some below.succ
  | false, false => none

/-- The decimal with the fewest digits that reads back as a positive magnitude. Seventeen digits are
always enough; if they were not, the answer would be the greatest decimal of that length not above
it. -/
def shortest (r : Roundings) (tie : Tie) : ScaledDecimal :=
  let top := r.decimalTop
  let exponents := (List.range 17).map fun n => top - ((n + 1 : Nat) : Int)
  (exponents.findSome? (r.neighbour? tie)).getD (r.floorAt (top - 17))

end Roundings

end RiftLang
