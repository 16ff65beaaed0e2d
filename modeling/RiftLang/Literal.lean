import RiftLang.Decimal.Binary
import RiftLang.Text.Escape

/-!
# Reading literals

The values that the texts of numbers and booleans stand for. The grammar only ever captures plain
forms, but the readers take any text and say what is wrong with it.

* `LiteralFault` — why a text is not a literal, with its wording in `LiteralFault.text`.
* `readInteger` — an optional sign and decimal digits, in 64 bits with sign.
* `readFloat` — an optional sign, digits with an optional point and an optional exponent, or the
  name of an infinity or of the number that is none. The value is the nearest one.
* `readBoolean` — `true` or `false`.
-/

namespace RiftLang

/-- Why a text does not stand for a value. -/
inductive LiteralFault where
  /-- There is no digit where an integer should be. -/
  | emptyInteger
  /-- A character of an integer is no digit. -/
  | invalidDigit
  /-- The integer exceeds the greatest of 64 bits with sign. -/
  | tooLarge
  /-- The integer is less than the least of 64 bits with sign. -/
  | tooSmall
  /-- There is nothing where a number should be. -/
  | emptyFloat
  /-- The text is no number. -/
  | invalidFloat
  /-- The text is neither of the two truth values. -/
  | notBoolean
  /-- No operator is written like this. -/
  | unknownVariant
  /-- A backslash stands before a character that makes no escape with it. -/
  | undefinedEscape
  deriving DecidableEq, Repr, Inhabited

/-- The wording of a fault. -/
def LiteralFault.text : LiteralFault → String
  | emptyInteger => "cannot parse integer from empty string"
  | invalidDigit => "invalid digit found in string"
  | tooLarge => "number too large to fit in target type"
  | tooSmall => "number too small to fit in target type"
  | emptyFloat => "cannot parse float from empty string"
  | invalidFloat => "invalid float literal"
  | notBoolean => "provided string was not `true` or `false`"
  | unknownVariant => "Matching variant not found"
  | undefinedEscape => "undefined escape sequence"

/-! ## Integers -/

/-- The value of a decimal digit. -/
def digitValue? (c : Char) : Option Nat :=
  if c.isDigit then some (c.toNat - '0'.toNat) else none

/-- The value of digits that follow digits worth `value`, up to a limit. The first character that is
no digit or passes the limit decides the fault. -/
def readDigits (limit : Nat) (overflow : LiteralFault) :
    List Char → (value : Nat) → Except LiteralFault Nat
  | [], value => .ok value
  | c :: rest, value =>
    match digitValue? c with
    | none => .error .invalidDigit
    | some d =>
      let value := 10 * value + d
      if limit < value then .error overflow else readDigits limit overflow rest value

/-- Digits after a sign; there has to be one. -/
def readMagnitude (limit : Nat) (overflow : LiteralFault) (digits : List Char) :
    Except LiteralFault Nat :=
  if digits.isEmpty then .error .invalidDigit else readDigits limit overflow digits 0

/-- The magnitude of the least integer of 64 bits, `2 ^ 63`. -/
def leastMagnitude : Nat := 0x8000000000000000

/-- The greatest integer of 64 bits, `2 ^ 63 - 1`. -/
def greatestInteger : Nat := 0x7fffffffffffffff

/-- The integer that a text stands for. -/
def readInteger (s : List Char) : Except LiteralFault Int64 :=
  match s with
  | [] => .error .emptyInteger
  | '-' :: digits =>
    (readMagnitude leastMagnitude .tooSmall digits).map fun n => Int64.ofInt (-(n : Int))
  | '+' :: digits => (readMagnitude greatestInteger .tooLarge digits).map fun n => Int64.ofInt n
  | digits => (readMagnitude greatestInteger .tooLarge digits).map fun n => Int64.ofInt n

/-! ## Floating-point numbers -/

/-- The value of decimal digits, whatever their number. -/
def digitsValue (digits : List Char) : Nat :=
  digits.foldl (fun value c => 10 * value + (c.toNat - '0'.toNat)) 0

/-- Splits off a sign; the flag tells a minus. -/
def splitSign : List Char → Bool × List Char
  | '-' :: rest => (true, rest)
  | '+' :: rest => (false, rest)
  | cs => (false, cs)

/-- The exponent after a number: none, or the letter e, an optional sign and at least one digit.
Nothing may follow. -/
def readExponent? : List Char → Option Int
  | [] => some 0
  | c :: rest =>
    if c = 'e' || c = 'E' then
      let (negative, digits) := splitSign rest
      if digits.isEmpty || !digits.all Char.isDigit then none
      else some (if negative then -(digitsValue digits : Int) else digitsValue digits)
    else
      none

/-- An unsigned decimal number: its digits as a natural number and the power of ten that scales
them. -/
def readDecimal? (s : List Char) : Option (Nat × Int) :=
  let whole := s.takeWhile Char.isDigit
  let rest := s.dropWhile Char.isDigit
  let (fraction, rest) := match rest with
    | '.' :: tail => (tail.takeWhile Char.isDigit, tail.dropWhile Char.isDigit)
    | _ => ([], rest)
  if whole.isEmpty && fraction.isEmpty then none
  else (readExponent? rest).map fun e => (digitsValue (whole ++ fraction), e - fraction.length)

/-- The value of a name that stands for a number, in any case. -/
def namedFloat? (negative : Bool) (s : List Char) : Option Float :=
  let name := String.ofList (s.map Char.toLower)
  if name = "inf" || name = "infinity" then
    some (Float.ofBits (UInt64.ofNat (signBit negative + infinityBits)))
  else if name = "nan" then
    some (Float.ofBits (UInt64.ofNat nanBits))
  else
    none

/-- The floating-point number that a text stands for. -/
def readFloat (s : List Char) : Except LiteralFault Float :=
  if s.isEmpty then
    .error .emptyFloat
  else
    let (negative, magnitude) := splitSign s
    match readDecimal? magnitude with
    | some (digits, exponent) => .ok (decimalFloat negative digits exponent)
    | none =>
      match namedFloat? negative magnitude with
      | some x => .ok x
      | none => .error .invalidFloat

/-! ## Booleans -/

/-- The truth value that a text stands for. -/
def readBoolean (s : String) : Except LiteralFault Bool :=
  if s = "true" then .ok true
  else if s = "false" then .ok false
  else .error .notBoolean

end RiftLang
