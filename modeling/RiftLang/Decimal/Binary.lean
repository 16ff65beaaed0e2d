/-!
# From decimal to binary

Floating-point numbers of 64 bits have a sign, an exponent and a mantissa of up to 53 bits.

* `nearestFloat` — the floating-point number nearest to a quotient of natural numbers. A tie goes to
  the even mantissa, and a value too large for the format to infinity.
* `decimalFloat` — the number nearest to `digits * 10 ^ exponent`.

All arithmetic is exact, on natural numbers; only the finished bits become a floating-point number.
-/

namespace RiftLang

/-! ## The format -/

/-- `2 ^ 52`, the least mantissa of a number that is not subnormal. -/
def leastMantissa : Nat := 0x10000000000000

/-- `2 ^ 53`, the first mantissa that is too long. -/
def mantissaBound : Nat := 0x20000000000000

/-- The bits of positive infinity: the last exponent and an empty fraction. -/
def infinityBits : Nat := 0x7ff0000000000000

/-- The bits of a number that is none: the last exponent and a fraction that is not empty. -/
def nanBits : Nat := 0x7ff8000000000000

/-- The bit of the sign. -/
def signBit (negative : Bool) : Nat :=
  if negative then 0x8000000000000000 else 0

/-! ## Rounding to nearest -/

/-- A quotient rounded to the nearest integer, a tie to the even one. -/
def roundEven (num den : Nat) : Nat :=
  let q := num / den
  let r := num % den
  if 2 * r < den then q
  else if den < 2 * r then q + 1
  else q + q % 2

/-- The bits of the magnitude nearest to `num / den`, for positive `num` and `den`.

The quotient lies between `2 ^ (e - 1)` and `2 ^ (e + 1)`, where `e` is the difference of the binary
logarithms. The exponent is chosen to make the mantissa 53 bits long, unless that is below the least
exponent of the format. A mantissa that is rounded up to 54 bits carries into the exponent. -/
def magnitudeBits (num den : Nat) : Nat :=
  let scaled (q : Int) : Nat × Nat := (num * Nat.pow 2 (-q).toNat, den * Nat.pow 2 q.toNat)
  let low : Int := (num.log2 : Int) - den.log2 - 53
  let q := max (if (scaled low).1 / (scaled low).2 < mantissaBound then low else low + 1) (-1074)
  let m := roundEven (scaled q).1 (scaled q).2
  let bits :=
    if m < leastMantissa then m else (q + 1075).toNat * leastMantissa + (m - leastMantissa)
  min bits infinityBits

/-- The number nearest to a quotient, with the given sign. -/
def nearestFloat (negative : Bool) (num den : Nat) : Float :=
  let magnitude := if num = 0 then 0 else magnitudeBits num den
  Float.ofBits (UInt64.ofNat (signBit negative + magnitude))

/-- How many decimal digits a number has; none for zero. -/
def decimalLength (n : Nat) : Nat :=
  if n = 0 then 0 else (Nat.toDigits 10 n).length

/-- The number nearest to `digits * 10 ^ exponent`, with the given sign. A value of `10 ^ 310` or
more is past the largest number, and one below `10 ^ -330` closer to zero than to the least positive
number, so neither power is ever computed. -/
def decimalFloat (negative : Bool) (digits : Nat) (exponent : Int) : Float :=
  let top := (decimalLength digits : Int) + exponent
  if digits = 0 || top < -330 then nearestFloat negative 0 1
  else if 311 < top then Float.ofBits (UInt64.ofNat (signBit negative + infinityBits))
  else nearestFloat negative (digits * Nat.pow 10 exponent.toNat) (Nat.pow 10 (-exponent).toNat)

end RiftLang
