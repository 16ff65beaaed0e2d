import RiftLang.Json
import RiftLang.Json.Reader
import RiftLang.Proofs.Characters

/-!
# Reading compact JSON back

JSON values as they are written by `Json.render`, without blanks between their parts, and without
floating-point numbers.

* `Json.isExact` — no floating-point number is in the value. Their texts are left out here: an
  infinity, for one, is written like null.
* `Json.readValue`, `Json.ofText?` — the value of a compact text.
* `Json.readValue_render` — a value is read back from its text, whatever comes after it: the text
  shows where it ends, if it does not run on into more digits.

A string may hold any text, JSON text too. What keeps it apart is that no quote and no backslash of
the content stands bare, so the first bare quote is the closing one.
-/

namespace RiftLang.Json

/-! ## Values without floating-point numbers -/

mutual

/-- Is there no floating-point number in the value? -/
@[simp] def isExact : Json → Bool
  | null | bool _ | int _ | str _ => true
  | float _ => false
  | arr items => areExact items
  | obj fields => areFieldsExact fields

/-- Is there no floating-point number in any of the values? -/
@[simp] def areExact : List Json → Bool
  | [] => true
  | item :: rest => isExact item && areExact rest

/-- Is there no floating-point number in any of the fields? -/
@[simp] def areFieldsExact : List (String × Json) → Bool
  | [] => true
  | (_, value) :: rest => isExact value && areFieldsExact rest

end

/-- Values have no floating-point number among them if none of them has. -/
theorem areExact_iff {items : List Json} :
    areExact items = true ↔ ∀ item ∈ items, item.isExact = true := by
  induction items with
  | nil => simp [areExact]
  | cons item rest ih => simp [areExact, ih]

/-! ## Readers -/

/-- At least one digit. -/
def readUnsigned : Reader Nat := fun s =>
  let digits := s.takeWhile Char.isDigit
  if digits.isEmpty then none else some (digitsValue digits, s.dropWhile Char.isDigit)

/-- An integer: digits, perhaps after a minus. -/
def readInt : Reader Int
  | '-' :: s => (readUnsigned s).map fun (magnitude, rest) => (-(magnitude : Int), rest)
  | s => (readUnsigned s).map fun (magnitude, rest) => ((magnitude : Int), rest)

mutual

/-- A value in compact form, with at most `n` values and separators in it. -/
def readValue : (n : Nat) → Reader Json
  | 0, _ => none
  | n + 1, s =>
    match s with
    | 'n' :: rest => (expectChars ['u', 'l', 'l'] rest).map fun rest => (null, rest)
    | 't' :: rest => (expectChars ['r', 'u', 'e'] rest).map fun rest => (bool true, rest)
    | 'f' :: rest => (expectChars ['a', 'l', 's', 'e'] rest).map fun rest => (bool false, rest)
    | '"' :: rest => (readString rest).map fun (text, rest) => (str text, rest)
    | '[' :: rest =>
      match rest with
      | ']' :: rest => some (arr [], rest)
      | _ => (readItems n rest).map fun (items, rest) => (arr items, rest)
    | '{' :: rest =>
      match rest with
      | '}' :: rest => some (obj [], rest)
      | _ => (readFields n rest).map fun (fields, rest) => (obj fields, rest)
    | _ => (readInt s).map fun (value, rest) => (int value, rest)

/-- The items of an array up to its end. -/
def readItems : (n : Nat) → Reader (List Json)
  | 0, _ => none
  | n + 1, s => do
    let (item, s) ← readValue n s
    match s with
    | ',' :: rest =>
      let (items, rest) ← readItems n rest
      return (item :: items, rest)
    | ']' :: rest => return ([item], rest)
    | _ => none

/-- The fields of an object up to its end. -/
def readFields : (n : Nat) → Reader (List (String × Json))
  | 0, _ => none
  | n + 1, s => do
    let s ← expectChars ['"'] s
    let (name, s) ← readString s
    let s ← expectChars [':'] s
    let (value, s) ← readValue n s
    match s with
    | ',' :: rest =>
      let (fields, rest) ← readFields n rest
      return ((name, value) :: fields, rest)
    | '}' :: rest => return ([(name, value)], rest)
    | _ => none

end

/-- The value of a whole text. -/
def ofText? (text : String) : Option Json := do
  match ← readValue (text.toList.length + 1) text.toList with
  | (value, []) => some value
  | _ => none

/-! ## Characters between quotes -/

/-- The characters up to the closing quote, at most `n`. -/
def readUntilQuote (readChar : Reader (Option Char)) : (n : Nat) → Reader (List Char)
  | 0, _ => none
  | n + 1, s => do
    match ← readChar s with
    | (none, rest) => return ([], rest)
    | (some c, rest) =>
      let (cs, rest) ← readUntilQuote readChar n rest
      return (c :: cs, rest)

section quotes

variable {readChar : Reader (Option Char)} {form : Char → List Char}

/-- Characters written in a form that is read back one by one are read back up to the closing quote.
The induction is on the characters; `n` only has to exceed their number. -/
theorem readUntilQuote_flatMap (hchar : ∀ c s, readChar (form c ++ s) = some (some c, s))
    (hquote : ∀ s, readChar ('"' :: s) = some (none, s)) (cs s : List Char) {n : Nat}
    (h : cs.length < n) :
    readUntilQuote readChar n (cs.flatMap form ++ '"' :: s) = some (cs, s) := by
  induction cs generalizing n with
  | nil =>
      obtain ⟨n, rfl⟩ := Nat.exists_eq_succ_of_ne_zero (Nat.ne_zero_of_lt h)
      simp [readUntilQuote, hquote]
  | cons c cs ih =>
      obtain ⟨n, rfl⟩ := Nat.exists_eq_succ_of_ne_zero (Nat.ne_zero_of_lt h)
      have hrest := ih (n := n) (by simpa using h)
      rw [List.flatMap_cons, List.append_assoc, readUntilQuote, hchar]
      simp [hrest]

/-- No form is empty, or the closing quote would be read as the character. -/
theorem length_le_length_flatMap (hchar : ∀ c s, readChar (form c ++ s) = some (some c, s))
    (hquote : ∀ s, readChar ('"' :: s) = some (none, s)) (cs : List Char) :
    cs.length ≤ (cs.flatMap form).length := by
  have hform : ∀ c, form c ≠ [] := by
    intro c hc
    have hread := hchar c ['"']
    rw [hc, List.nil_append, hquote] at hread
    cases hread
  induction cs with
  | nil => simp
  | cons c cs ih =>
      have hpos := List.length_pos_iff.2 (hform c)
      simp only [List.flatMap_cons, List.length_append, List.length_cons]
      omega

/-- Characters in their forms are read back up to the closing quote. -/
theorem readUntilQuote_length (hchar : ∀ c s, readChar (form c ++ s) = some (some c, s))
    (hquote : ∀ s, readChar ('"' :: s) = some (none, s)) (cs s : List Char) :
    readUntilQuote readChar ((cs.flatMap form ++ '"' :: s).length + 1)
      (cs.flatMap form ++ '"' :: s) =
      some (cs, s) := by
  have hlength := length_le_length_flatMap hchar hquote cs
  refine readUntilQuote_flatMap hchar hquote cs s ?_
  rw [List.length_append]
  omega

end quotes

/-! ## Strings -/

/-- The rest of a string is read with the reader of its characters up to the quote. -/
theorem readStringRest_eq (readCode : Reader Char) (n : Nat) :
    readStringRest readCode n = readUntilQuote (readStringChar readCode) n := by
  induction n with
  | zero => rfl
  | succ n ih =>
      funext s
      rcases hchar : readStringChar readCode s with _ | ⟨_ | c, rest⟩ <;>
        simp [readStringRest, readUntilQuote, hchar, ih]

/-- A hexadecimal digit is read back. -/
theorem hexValue?_hexDigit {n : Nat} (h : n < 16) : hexValue? (hexDigit n) = some n := by
  have hall : ∀ n < 16, hexValue? (hexDigit n) = some n := by decide
  exact hall n h

/-- A control character is read back from the four digits that stand for it. -/
theorem readCode_escape {c : Char} (h : c.toNat < 0x20) (s : List Char) :
    readCode ('0' :: '0' :: hexDigit (c.toNat / 16) :: hexDigit (c.toNat % 16) :: s) =
      some (c, s) := by
  have hhigh := hexValue?_hexDigit (n := c.toNat / 16) (by omega)
  have hlow := hexValue?_hexDigit (n := c.toNat % 16) (by omega)
  have hcode : ((0 * 16 + 0) * 16 + c.toNat / 16) * 16 + c.toNat % 16 = c.toNat := by omega
  have hzero : hexValue? '0' = some 0 := rfl
  have hread : readHex ('0' :: '0' :: hexDigit (c.toNat / 16) :: hexDigit (c.toNat % 16) :: s) =
      some (c.toNat, s) := by
    simp only [readHex, hzero, hhigh, hlow, Option.bind_eq_bind, Option.bind_some, hcode]
    rfl
  have hwhole : ¬ (0xdc00 ≤ c.toNat) ∧ ¬ (0xd800 ≤ c.toNat) := by omega
  simp [readCode, hread, hwhole]

/-- The form of a character is read as the character. -/
theorem readStringChar_escapeChar (c : Char) (s : List Char) :
    readStringChar readCode (escapeChar c ++ s) = some (some c, s) := by
  unfold escapeChar
  split
  iterate 7 rfl
  split
  · next hlow =>
      show (readCode ('0' :: '0' :: _ :: _ :: s)).map _ = _
      rw [readCode_escape hlow]
      rfl
  · next hquote hbackslash _ _ _ _ _ hshown =>
      simp only [readStringChar.eq_def, List.cons_append, List.nil_append]
      split <;> simp_all

/-- A string is read back from its form, whatever it holds. -/
theorem readString_renderString (text : String) (s : List Char) :
    ∃ body, (renderString text).toList ++ s = '"' :: body ∧ readString body = some (text, s) := by
  refine ⟨text.toList.flatMap escapeChar ++ '"' :: s, by simp [renderString], ?_⟩
  rw [readString, readStringRest_eq, readUntilQuote_length readStringChar_escapeChar (fun _ => rfl)]
  simp

/-! ## Numbers -/

/-- The text does not go on with a digit. -/
def EndsDigits (s : List Char) : Prop :=
  ∀ c ∈ s.head?, c.isDigit = false

/-- A number is read back from its digits, unless more digits follow. -/
theorem readUnsigned_toDigits (n : Nat) {s : List Char} (hs : EndsDigits s) :
    readUnsigned (Nat.toDigits 10 n ++ s) = some (n, s) := by
  have hdigits : ∀ c ∈ Nat.toDigits 10 n, c.isDigit = true := fun c hc => isDigit_of_mem_toDigits hc
  have htake := takeWhile_append_of_head hdigits s hs
  have hdrop := dropWhile_append_of_head hdigits s hs
  simp [readUnsigned, htake, hdrop, digitsValue_toDigits]

/-- An integer is read back from its text. -/
theorem readInt_render (k : Int) {s : List Char} (hs : EndsDigits s) :
    readInt ((int k).render.toList ++ s) = some (k, s) := by
  rw [render, toList_toString_int]
  split
  · next hk =>
      have hread := readUnsigned_toDigits k.toNat hs
      obtain ⟨c, digits, hdigits⟩ :=
        List.exists_cons_of_ne_nil (Nat.toDigits_ne_nil (n := k.toNat) (b := 10))
      have hc : c.isDigit = true := isDigit_of_mem_toDigits (hdigits ▸ List.mem_cons_self)
      have hminus : c ≠ '-' := ne_of_isDigit hc rfl
      rw [hdigits, List.cons_append] at hread ⊢
      simp [readInt, hminus, hread, Int.max_eq_left hk]
  · next hk =>
      have hmagnitude : ((-k).toNat : Int) = -k := Int.toNat_of_nonneg (by omega)
      simp [readInt, readUnsigned_toDigits _ hs, hmagnitude]

/-! ## Values -/

/-- An integer is read back from its text, unless more digits follow. -/
theorem readValue_int (n : Nat) (k : Int) {s : List Char} (hs : EndsDigits s) :
    readValue (n + 1) ((int k).render.toList ++ s) = some (int k, s) := by
  have hread := readInt_render k hs
  have hfirst : ∃ c rest, (int k).render.toList ++ s = c :: rest ∧
      (c = '-' ∨ c.isDigit = true) := by
    rw [render, toList_toString_int]
    split
    · obtain ⟨c, digits, hdigits⟩ :=
        List.exists_cons_of_ne_nil (Nat.toDigits_ne_nil (n := k.toNat) (b := 10))
      exact ⟨c, digits ++ s, by rw [hdigits, List.cons_append],
        .inr (isDigit_of_mem_toDigits (hdigits ▸ List.mem_cons_self))⟩
    · exact ⟨'-', _, rfl, .inl rfl⟩
  obtain ⟨c, rest, heq, hc⟩ := hfirst
  rw [heq] at hread ⊢
  -- Neither a minus nor a digit begins a value of another sort.
  have hother : c ≠ 'n' ∧ c ≠ 't' ∧ c ≠ 'f' ∧ c ≠ '"' ∧ c ≠ '[' ∧ c ≠ '\x7b' := by
    refine ⟨?_, ?_, ?_, ?_, ?_, ?_⟩ <;> rintro rfl <;> exact absurd hc (by decide)
  simp [readValue, hother, hread]

/-- An array is read once its items are: no item begins with the closing bracket. -/
theorem readValue_arr {n : Nat} {body s : List Char} {items : List Json}
    (h : readItems n body = some (items, s)) :
    readValue (n + 1) ('[' :: body) = some (arr items, s) := by
  have hbody : ∀ rest, body ≠ ']' :: rest := by
    rintro rest rfl
    match n with
    | 0 | 1 | _ + 2 => exact absurd h nofun
  rw [readValue, h]
  · rfl
  · exact hbody

/-- An object is read once its fields are. -/
theorem readValue_obj {n : Nat} {body s : List Char} {fields : List (String × Json)}
    (h : readFields n body = some (fields, s)) :
    readValue (n + 1) ('\x7b' :: body) = some (obj fields, s) := by
  have hbody : ∀ rest, body ≠ '\x7d' :: rest := by
    rintro rest rfl
    match n with
    | 0 | _ + 1 => exact absurd h nofun
  rw [readValue, h]
  · rfl
  · exact hbody

/-- Items are written with a comma after each but the last. -/
theorem toList_renderItems_cons (item : Json) {rest : List Json} (h : rest ≠ []) :
    (renderItems (item :: rest)).toList = item.render.toList ++ ',' ::
      (renderItems rest).toList := by
  simp [renderItems]

/-- Fields are written as name, colon and value, with a comma after each but the last. -/
theorem toList_renderFields_cons (name : String) (value : Json) {rest : List (String × Json)}
    (h : rest ≠ []) :
    (renderFields ((name, value) :: rest)).toList =
      (renderString name).toList ++ ':' ::
        (value.render.toList ++ ',' :: (renderFields rest).toList) := by
  simp [renderFields]

mutual

/-- A value is read back from its text, whatever comes after it. -/
theorem readValue_render : ∀ (j : Json) (n : Nat) (s : List Char), j.isExact = true →
    j.render.toList.length ≤ n → EndsDigits s →
    readValue (n + 1) (j.render.toList ++ s) = some (j, s)
  | null, _, _, _, _, _ => rfl
  | bool true, _, _, _, _, _ => rfl
  | bool false, _, _, _, _, _ => rfl
  | int k, n, _, _, _, hs => readValue_int n k hs
  | str text, n, s, _, _, _ => by
      obtain ⟨body, hbody, hread⟩ := readString_renderString text s
      rw [render, hbody, readValue, hread]
      rfl
  | arr [], _, _, _, _, _ => rfl
  | arr (item :: items), n, s, hexact, hlength, _ => by
      have htext : (arr (item :: items)).render.toList ++ s =
          '[' :: ((renderItems (item :: items)).toList ++ ']' :: s) := by simp [render]
      have hrender : (arr (item :: items)).render.toList.length =
          (renderItems (item :: items)).toList.length + 2 := by simp [render]
      obtain ⟨m, rfl⟩ : ∃ m, n = m + 1 := ⟨n - 1, by omega⟩
      rw [htext]
      exact readValue_arr (readItems_render (item :: items) m s (List.cons_ne_nil _ _)
        hexact (by omega))
  | obj [], _, _, _, _, _ => rfl
  | obj (field :: fields), n, s, hexact, hlength, _ => by
      have htext : (obj (field :: fields)).render.toList ++ s =
          '\x7b' :: ((renderFields (field :: fields)).toList ++ '\x7d' :: s) := by simp [render]
      have hrender : (obj (field :: fields)).render.toList.length =
          (renderFields (field :: fields)).toList.length + 2 := by simp [render]
      obtain ⟨m, rfl⟩ : ∃ m, n = m + 1 := ⟨n - 1, by omega⟩
      rw [htext]
      exact readValue_obj (readFields_render (field :: fields) m s (List.cons_ne_nil _ _)
        hexact (by omega))

/-- The items of an array are read back up to its end. -/
theorem readItems_render : ∀ (items : List Json) (n : Nat) (s : List Char), items ≠ [] →
    areExact items = true → (renderItems items).toList.length < n →
    readItems (n + 1) ((renderItems items).toList ++ ']' :: s) = some (items, s)
  | [], _, _, hne, _, _ => (hne rfl).elim
  | item :: rest, n, s, _, hexact, hlength => by
      obtain ⟨m, rfl⟩ : ∃ m, n = m + 1 := ⟨n - 1, by omega⟩
      obtain ⟨hitem, hrest⟩ := Bool.and_eq_true_iff.1 hexact
      by_cases hlast : rest = []
      · subst hlast
        have hread := readValue_render item m (']' :: s) hitem (Nat.le_of_lt_succ hlength)
          (forall_mem_head_cons rfl)
        simp [readItems, renderItems, hread]
      · have htext := toList_renderItems_cons item hlast
        rw [htext, List.length_append, List.length_cons] at hlength
        have hread := readValue_render item m (',' :: ((renderItems rest).toList ++ ']' :: s)) hitem
          (by omega) (forall_mem_head_cons rfl)
        have hreadRest := readItems_render rest m s hlast hrest (by omega)
        rw [htext, List.append_assoc, List.cons_append, readItems, hread]
        simp [hreadRest]

/-- The fields of an object are read back up to its end. -/
theorem readFields_render : ∀ (fields : List (String × Json)) (n : Nat) (s : List Char),
    fields ≠ [] →
    areFieldsExact fields = true → (renderFields fields).toList.length < n →
    readFields (n + 1) ((renderFields fields).toList ++ '\x7d' :: s) = some (fields, s)
  | [], _, _, hne, _, _ => (hne rfl).elim
  | (name, value) :: rest, n, s, _, hexact, hlength => by
      obtain ⟨m, rfl⟩ : ∃ m, n = m + 1 := ⟨n - 1, by omega⟩
      obtain ⟨hvalue, hrest⟩ := Bool.and_eq_true_iff.1 hexact
      by_cases hlast : rest = []
      · subst hlast
        have htext : (renderFields [(name, value)]).toList ++ '\x7d' :: s =
            (renderString name).toList ++ ':' :: (value.render.toList ++ '\x7d' :: s) :=
              by simp [renderFields]
        have hbound : value.render.toList.length ≤ m := by
          simp [renderFields] at hlength
          omega
        have hread :=
          readValue_render value m ('\x7d' :: s) hvalue hbound (forall_mem_head_cons rfl)
        obtain ⟨body, hbody, hname⟩ :=
          readString_renderString name (':' :: (value.render.toList ++ '\x7d' :: s))
        rw [htext, hbody, readFields]
        simp [expectChars, hname, hread]
      · have htext := toList_renderFields_cons name value hlast
        rw [htext, List.length_append, List.length_cons, List.length_append, List.length_cons]
          at hlength
        have hread :=
          readValue_render value m (',' :: ((renderFields rest).toList ++ '\x7d' :: s)) hvalue
          (by omega) (forall_mem_head_cons rfl)
        have hreadRest := readFields_render rest m s hlast hrest (by omega)
        obtain ⟨body, hbody, hname⟩ := readString_renderString name
          (':' :: (value.render.toList ++ ',' :: ((renderFields rest).toList ++ '\x7d' :: s)))
        have hsplit : (renderFields ((name, value) :: rest)).toList ++ '\x7d' :: s =
            '"' :: body := by
          rw [htext, ← hbody]
          simp
        rw [hsplit, readFields]
        simp [expectChars, hname, hread, hreadRest]

end

/-- A value is read back from its text. -/
theorem ofText?_render {j : Json} (h : j.isExact = true) : ofText? j.render = some j := by
  have hread := readValue_render j j.render.toList.length [] h (Nat.le_refl _) nofun
  rw [List.append_nil] at hread
  simp [ofText?, hread]

end RiftLang.Json
