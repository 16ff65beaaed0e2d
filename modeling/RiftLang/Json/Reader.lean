/-!
# Reading JSON text

Readers for the parts of JSON text, in the strict form of the format. A reader takes the characters
that are left and gives what it read and the characters after it, or `none` if the text does not
fit.

* `Reader` — the type of readers.
* `readString`, `readNatural`, `readFlag` — strings, natural numbers below `2 ^ 64`, truth values.
* `skipValue` — passes over a value that does not matter, which has to be well formed all the same.
  In strings that do not matter, halves of surrogate pairs may stand alone; where the text is wanted
  they are refused.

Every text is finite, so a bound on the number of steps that is larger than the text is never met.
-/

namespace RiftLang.Json

/-! ## Characters and strings -/

/-- Reads a value from the front of a text. -/
abbrev Reader (α : Type) := List Char → Option (α × List Char)

/-- Leaves out the blanks of JSON at the front. -/
def skipBlanks (s : List Char) : List Char :=
  s.dropWhile fun c => c = ' ' || c = '\t' || c = '\n' || c = '\r'

/-- Takes off the given characters. -/
def expectChars : List Char → List Char → Option (List Char)
  | [], s => some s
  | _ :: _, [] => none
  | c :: cs, d :: s => if c = d then expectChars cs s else none

/-- The value of a hexadecimal digit. -/
def hexValue? (c : Char) : Option Nat :=
  if c.isDigit then some (c.toNat - '0'.toNat)
  else if 'a' ≤ c && c ≤ 'f' then some (c.toNat - 'a'.toNat + 10)
  else if 'A' ≤ c && c ≤ 'F' then some (c.toNat - 'A'.toNat + 10)
  else none

/-- Four hexadecimal digits. -/
def readHex : Reader Nat
  | a :: b :: c :: d :: rest => do
    let a ← hexValue? a
    let b ← hexValue? b
    let c ← hexValue? c
    let d ← hexValue? d
    return (((a * 16 + b) * 16 + c) * 16 + d, rest)
  | _ => none

/-- The character of an escape by letter. -/
def jsonEscapeValue? : Char → Option Char
  | '"' => some '"'
  | '\\' => some '\\'
  | '/' => some '/'
  | 'b' => some '\x08'
  | 'f' => some '\x0c'
  | 'n' => some '\n'
  | 'r' => some '\r'
  | 't' => some '\t'
  | _ => none

/-- An escape by code, after the letter that announces it. A code in the range of the first halves
of pairs has to be followed by a second half. -/
def readCode : Reader Char := fun s => do
  let (high, s) ← readHex s
  if 0xdc00 ≤ high && high ≤ 0xdfff then
    none
  else if 0xd800 ≤ high && high ≤ 0xdbff then
    let s ← expectChars ['\\', 'u'] s
    let (low, s) ← readHex s
    if 0xdc00 ≤ low && low ≤ 0xdfff then
      some (Char.ofNat (0x10000 + (high - 0xd800) * 0x400 + (low - 0xdc00)), s)
    else
      none
  else
    some (Char.ofNat high, s)

/-- One character of a string or, at the closing quote, nothing. Control characters have to be
escaped. -/
def readStringChar (readCode : Reader Char) : Reader (Option Char)
  | '"' :: rest => some (none, rest)
  | '\\' :: 'u' :: rest => (readCode rest).map fun (c, rest) => (some c, rest)
  | '\\' :: c :: rest => (jsonEscapeValue? c).map fun c => (some c, rest)
  | c :: rest => if c = '\\' || c.toNat < 0x20 then none else some (some c, rest)
  | [] => none

/-- The rest of a string after its opening quote, in at most `n` characters. -/
def readStringRest (readCode : Reader Char) : (n : Nat) → Reader (List Char)
  | 0, _ => none
  | n + 1, s => do
    match ← readStringChar readCode s with
    | (none, rest) => return ([], rest)
    | (some c, rest) =>
      let (cs, rest) ← readStringRest readCode n rest
      return (c :: cs, rest)

/-- A string after its opening quote. -/
def readString : Reader String := fun s =>
  (readStringRest readCode (s.length + 1) s).map fun (cs, rest) => (String.ofList cs, rest)

/-- A string whose content does not matter, after its opening quote. Halves of pairs may stand
alone. -/
def skipString (s : List Char) : Option (List Char) :=
  let anyCode : Reader Char := fun s => (readHex s).map fun (_, rest) => (' ', rest)
  (readStringRest anyCode (s.length + 1) s).map (·.2)

/-! ## Numbers -/

/-- At least one digit. -/
def skipDigits (s : List Char) : Option (List Char) :=
  match s with
  | c :: rest => if c.isDigit then some (rest.dropWhile Char.isDigit) else none
  | [] => none

/-- The digits before the point of a number: a zero alone, or digits without a zero in front. -/
def skipWhole (s : List Char) : Option (List Char) :=
  match s with
  | '0' :: rest => if rest.head?.any Char.isDigit then none else some rest
  | _ => skipDigits s

/-- The fraction of a number, if it has one. -/
def skipFraction (s : List Char) : Option (List Char) :=
  match s with
  | '.' :: rest => skipDigits rest
  | _ => some s

/-- The exponent of a number, if it has one. -/
def skipExponent (s : List Char) : Option (List Char) :=
  match s with
  | c :: rest =>
    if c = 'e' || c = 'E' then
      match rest with
      | '+' :: rest => skipDigits rest
      | '-' :: rest => skipDigits rest
      | _ => skipDigits rest
    else
      some s
  | [] => some []

/-- A number whose value does not matter. -/
def skipNumber (s : List Char) : Option (List Char) := do
  let s := match s with | '-' :: rest => rest | _ => s
  skipExponent (← skipFraction (← skipWhole s))

/-- `2 ^ 64`, the first number that does not fit into 64 bits. -/
def naturalBound : Nat := 0x10000000000000000

/-- A natural number below `2 ^ 64`, without fraction or exponent. -/
def readNatural : Reader Nat := fun s => do
  let rest ← skipWhole s
  let digits := s.take (s.length - rest.length)
  let value := digits.foldl (fun value c => 10 * value + (c.toNat - '0'.toNat)) 0
  if rest.head?.any (fun c => c = '.' || c = 'e' || c = 'E') || naturalBound ≤ value then none
  else some (value, rest)

/-- A truth value. -/
def readFlag : Reader Bool := fun s =>
  match s with
  | 't' :: rest => (expectChars ['r', 'u', 'e'] rest).map (true, ·)
  | 'f' :: rest => (expectChars ['a', 'l', 's', 'e'] rest).map (false, ·)
  | _ => none

/-! ## Values that do not matter -/

mutual

/-- A value that does not matter, with at most `n` values and separators in it. -/
def skipValue : (n : Nat) → List Char → Option (List Char)
  | 0, _ => none
  | n + 1, s =>
    match skipBlanks s with
    | 'n' :: rest => expectChars ['u', 'l', 'l'] rest
    | 't' :: rest => expectChars ['r', 'u', 'e'] rest
    | 'f' :: rest => expectChars ['a', 'l', 's', 'e'] rest
    | '"' :: rest => skipString rest
    | '[' :: rest =>
      match skipBlanks rest with
      | ']' :: rest => some rest
      | _ => skipItems n rest
    | '{' :: rest =>
      match skipBlanks rest with
      | '}' :: rest => some rest
      | _ => skipMembers n rest
    | rest => skipNumber rest

/-- The items of an array up to its end. -/
def skipItems : (n : Nat) → List Char → Option (List Char)
  | 0, _ => none
  | n + 1, s => do
    let s ← skipValue n s
    match skipBlanks s with
    | ',' :: rest => skipItems n rest
    | ']' :: rest => some rest
    | _ => none

/-- The fields of an object up to its end. -/
def skipMembers : (n : Nat) → List Char → Option (List Char)
  | 0, _ => none
  | n + 1, s => do
    let s ← expectChars ['"'] (skipBlanks s)
    let s ← skipString s
    let s ← expectChars [':'] (skipBlanks s)
    let s ← skipValue n s
    match skipBlanks s with
    | ',' :: rest => skipMembers n rest
    | '}' :: rest => some rest
    | _ => none

end

end RiftLang.Json
