/-!
# Escapes in strings

Inside a string literal a backslash and the character after it stand for one character.

* `escapeValue?` — what each escape stands for.
* `decodeEscapes` — the text that the body of a string literal stands for, if all its escapes are
  defined. A backslash at the very end begins an escape that is never completed.
-/

namespace RiftLang

/-- The character that a backslash and the given character stand for. -/
def escapeValue? : Char → Option Char
  | 'n' => some '\n'
  | 't' => some '\t'
  | 'r' => some '\r'
  | 'f' => some '\x0c'
  | 'b' => some '\x08'
  | 'a' => some '\x07'
  | 'v' => some '\x0b'
  | '\\' => some '\\'
  | '?' => some '?'
  | '"' => some '"'
  | '\'' => some '\''
  | _ => none

/-- The characters that the body of a string literal stands for. -/
def decodeEscapes : List Char → Option (List Char)
  | [] => some []
  | '\\' :: c :: rest => do
    let value ← escapeValue? c
    let values ← decodeEscapes rest
    return value :: values
  | c :: rest =>
    if c = '\\' then none else (decodeEscapes rest).map (c :: ·)

/-- The text that the body of a string literal stands for. -/
def unescape (raw : String) : Option String :=
  (decodeEscapes raw.toList).map String.ofList

end RiftLang
