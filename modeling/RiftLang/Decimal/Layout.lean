import RiftLang.Decimal.Shortest

/-!
# Layouts of floating-point numbers

How the shortest digits of a number are written down.

* `FloatLayout` — the decisions that formats differ in.
* `FloatLayout.render` — the text of a number.

In positional notation there is a digit on each side of the point. In exponent notation one digit
stands before the point, and the point is left out when nothing follows it.
-/

namespace RiftLang

/-- The decisions in which formats of floating-point numbers differ. A value is measured by its
decimal top, the least `p` with `x < 10 ^ p`. -/
structure FloatLayout where
  /-- Which of two equally near decimals of the same length is written. -/
  tie : Tie
  /-- The least top of a value in positional notation. -/
  lowestTop : Int
  /-- The greatest top of a value in positional notation. -/
  highestTop : Int
  /-- Whether an exponent that is not negative takes a plus sign. -/
  signsExponent : Bool
  /-- The text of positive infinity. -/
  infinity : String
  /-- The text of negative infinity. -/
  negativeInfinity : String
  /-- The text of a number that is none. -/
  nan : String
  deriving DecidableEq, Repr

/-- Decimal digits without the zeros at their end. -/
def significantDigits (n : Nat) : List Char :=
  ((Nat.toDigits 10 n).reverse.dropWhile (· == '0')).reverse

namespace FloatLayout

/-- Positional notation of digits whose point stands after the first `top` of them. -/
def positional (digits : List Char) (top : Int) : List Char :=
  let zeros (n : Int) : List Char := List.replicate n.toNat '0'
  if top ≤ 0 then
    '0' :: '.' :: zeros (-top) ++ digits
  else
    let whole := digits.take top.toNat ++ zeros (top - digits.length)
    let fraction := digits.drop top.toNat
    whole ++ '.' :: (if fraction.isEmpty then ['0'] else fraction)

/-- Exponent notation: one digit before the point. -/
def scientific (layout : FloatLayout) (digits : List Char) (top : Int) : List Char :=
  let exponent := top - 1
  let fraction := digits.drop 1
  let sign := if exponent < 0 then ['-'] else if layout.signsExponent then ['+'] else []
  digits.take 1 ++ (if fraction.isEmpty then [] else '.' :: fraction) ++
    'e' :: sign ++ Nat.toDigits 10 exponent.natAbs

/-- The text of a finite value without its sign. -/
def magnitude (layout : FloatLayout) (x : Roundings) : List Char :=
  if x.value = 0 then
    ['0', '.', '0']
  else
    let d := x.shortest layout.tie
    let digits := significantDigits d.digits
    let top := (decimalLength d.digits : Int) + d.exponent
    if layout.lowestTop ≤ top && top ≤ layout.highestTop then positional digits top
    else layout.scientific digits top

/-- The text of a number. -/
def render (layout : FloatLayout) (x : Float) : String :=
  let bits := x.toBits.toNat
  let negative := signBit true ≤ bits
  let magnitude := bits % signBit true
  if infinityBits ≤ magnitude then
    if infinityBits < magnitude then layout.nan
    else if negative then layout.negativeInfinity
    else layout.infinity
  else
    String.ofList ((if negative then ['-'] else []) ++ layout.magnitude
      (Roundings.ofBits magnitude))

end FloatLayout

end RiftLang
