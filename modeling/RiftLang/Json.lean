import RiftLang.Decimal.Layout

/-!
# JSON values

* `Json` — values whose object fields keep their order.
* `Json.render` — the compact text of a value, without blanks.

In strings a quote and a backslash take a backslash, five control characters have escapes by letter,
and the other control characters below the space are written by their code in four hexadecimal
digits. Everything else is written as it is. Infinities and the number that is none have no form in
JSON and are written as null.
-/

namespace RiftLang

/-- A JSON value. The fields of an object are kept in order. -/
inductive Json where
  | null
  | bool (value : Bool)
  | int (value : Int)
  | float (value : Float)
  | str (text : String)
  | arr (items : List Json)
  | obj (fields : List (String × Json))
  deriving Inhabited

namespace Json

/-- Floating-point numbers in JSON: positional from `0.00001` up to `10 ^ 16`, exponents have a
sign, and a tie goes to the even digit. -/
def floatLayout : FloatLayout where
  tie := .even
  lowestTop := -4
  highestTop := 16
  signsExponent := true
  infinity := "null"
  negativeInfinity := "null"
  nan := "null"

/-- A hexadecimal digit. -/
def hexDigit (n : Nat) : Char :=
  Nat.digitChar n

/-- The form of one character in a string. -/
def escapeChar (c : Char) : List Char :=
  match c with
  | '"' => ['\\', '"']
  | '\\' => ['\\', '\\']
  | '\x08' => ['\\', 'b']
  | '\x0c' => ['\\', 'f']
  | '\n' => ['\\', 'n']
  | '\r' => ['\\', 'r']
  | '\t' => ['\\', 't']
  | c =>
    if c.toNat < 0x20 then
      ['\\', 'u', '0', '0', hexDigit (c.toNat / 16), hexDigit (c.toNat % 16)]
    else
      [c]

/-- A string with its quotes. -/
def renderString (s : String) : String :=
  String.ofList ('"' :: s.toList.flatMap escapeChar ++ ['"'])

mutual

/-- The compact text of a value. -/
def render : Json → String
  | null => "null"
  | bool b => if b then "true" else "false"
  | int n => toString n
  | float x => floatLayout.render x
  | str s => renderString s
  | arr items => "[" ++ renderItems items ++ "]"
  | obj fields => "\x7b" ++ renderFields fields ++ "\x7d"

/-- The items of an array with commas between them. -/
def renderItems : List Json → String
  | [] => ""
  | [item] => render item
  | item :: rest => render item ++ "," ++ renderItems rest

/-- The fields of an object with commas between them. -/
def renderFields : List (String × Json) → String
  | [] => ""
  | [(name, value)] => renderString name ++ ":" ++ render value
  | (name, value) :: rest => renderString name ++ ":" ++ render value ++ "," ++ renderFields rest

end

end Json

end RiftLang
