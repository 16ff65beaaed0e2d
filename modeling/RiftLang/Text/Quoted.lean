import RiftLang.Text.Unprintable

/-!
# Quoted text

The form in which listings, reports and the Lisp form of a program show text: between double quotes,
with whatever cannot be shown written as an escape.

* `quotedChar` — the form of one character.
* `quoted` — the form of a text.

A quote and a backslash take a backslash. Tab, carriage return, line feed and the null character
have escapes by letter. Other characters without a visible form are written by code point, in
lower-case hexadecimal digits between braces. An apostrophe is shown as it is.
-/

namespace RiftLang

/-- A number in lower-case hexadecimal digits, without padding. -/
def hexDigits (n : Nat) : List Char :=
  Nat.toDigits 16 n

/-- A character without a visible form that has no escape by letter. -/
def isHidden (c : Char) : Bool :=
  if c.toNat < 0x80 then c.toNat < 0x20 || c.toNat == 0x7f else isUnprintable c

/-- The form of one character in quoted text. -/
def quotedChar (c : Char) : List Char :=
  match c with
  | '"' => ['\\', '"']
  | '\\' => ['\\', '\\']
  | '\t' => ['\\', 't']
  | '\r' => ['\\', 'r']
  | '\n' => ['\\', 'n']
  | '\x00' => ['\\', '0']
  | c => if isHidden c then ['\\', 'u', '{'] ++ hexDigits c.toNat ++ ['}'] else [c]

/-- The quoted form of a text. -/
def quoted (s : String) : String :=
  String.ofList ('"' :: s.toList.flatMap quotedChar ++ ['"'])

end RiftLang
