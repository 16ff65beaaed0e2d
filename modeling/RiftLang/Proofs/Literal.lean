import Mathlib.Tactic.Linarith
import RiftLang.Proofs.Characters
import RiftLang.Proofs.Meaning

/-!
# Reading the texts of literals

The grammar captures texts of plain forms only. Of these the readers refuse nothing but integers
that do not fit in 64 bits.

* `IsWhole`, `IsDecimal`, `IsScientific` — the forms of numbers.
* `isOutOfRange`, `rangeFault` — an integer that does not fit, and the fault that it is.
* `readNumeral_whole`, `readNumeral_decimal`, `readNumeral_scientific` — what the readers say of
  each form.
* `exists_decodeEscapes` — a string whose escapes are defined stands for a text.
-/

namespace RiftLang

/-! ## The forms of numbers -/

/-- Digits, at least one, with or without a minus before them. -/
def IsWhole (text : List Char) : Prop :=
  ∃ sign digits, text = sign ++ digits ∧ (sign = [] ∨ sign = ['-']) ∧ digits ≠ [] ∧
    ∀ c ∈ digits, c.isDigit = true

/-- A whole number, a point and digits. -/
def IsDecimal (text : List Char) : Prop :=
  ∃ whole fraction, text = whole ++ '.' :: fraction ∧ IsWhole whole ∧
    ∀ c ∈ fraction, c.isDigit = true

/-- A number, the letter e and a whole number. -/
def IsScientific (text : List Char) : Prop :=
  ∃ number e exponent, text = number ++ e :: exponent ∧ (IsWhole number ∨ IsDecimal number) ∧
    (e = 'e' ∨ e = 'E') ∧ IsWhole exponent

/-- The value of a text without point and exponent. -/
def integerValue : List Char → Int
  | '-' :: digits => -(digitsValue digits : Int)
  | digits => digitsValue digits

/-- Written without point and exponent, and no integer of 64 bits with sign. -/
def isOutOfRange (text : List Char) : Bool :=
  text.all (fun c => c != '.' && c != 'e' && c != 'E') &&
    (integerValue text < -2 ^ 63 || 2 ^ 63 ≤ integerValue text)

/-- On which side an integer does not fit. -/
def rangeFault : List Char → LiteralFault
  | '-' :: _ => .tooSmall
  | _ => .tooLarge

/-! ## Integers -/

/-- The value of digits after digits worth `value`. -/
def digitsFrom (value : Nat) (digits : List Char) : Nat :=
  digits.foldl (fun value c => 10 * value + (c.toNat - '0'.toNat)) value

/-- More digits do not lower a value. So a number that is out of range stays so, and reading may
stop at the first digit too many. -/
theorem le_digitsFrom (value : Nat) (digits : List Char) : value ≤ digitsFrom value digits := by
  induction digits generalizing value with
  | nil => exact le_rfl
  | cons c digits ih =>
      have hstep := ih (10 * value + (c.toNat - '0'.toNat))
      show value ≤ digitsFrom (10 * value + (c.toNat - '0'.toNat)) digits
      omega

/-- Digits are read up to the limit, no matter where it is passed. -/
theorem readDigits_eq {limit : Nat} (overflow : LiteralFault) {digits : List Char}
    (hdigits : ∀ c ∈ digits, c.isDigit = true) {value : Nat} (hvalue : value ≤ limit) :
    readDigits limit overflow digits value =
      if limit < digitsFrom value digits then .error overflow
        else .ok (digitsFrom value digits) := by
  induction digits generalizing value with
  | nil => exact (if_neg (Nat.not_lt.2 hvalue)).symm
  | cons c digits ih =>
      have hc : digitValue? c = some (c.toNat - '0'.toNat) := if_pos (hdigits c List.mem_cons_self)
      have hfrom : digitsFrom value (c :: digits) =
          digitsFrom (10 * value + (c.toNat - '0'.toNat)) digits :=
        rfl
      rw [hfrom]
      simp only [readDigits, hc]
      by_cases hlimit : limit < 10 * value + (c.toNat - '0'.toNat)
      · have hle := le_digitsFrom (10 * value + (c.toNat - '0'.toNat)) digits
        rw [if_pos hlimit, if_pos (hlimit.trans_le hle)]
      · rw [if_neg hlimit]
        exact ih (fun c hc => hdigits c (List.mem_cons_of_mem _ hc)) (Nat.not_lt.1 hlimit)

/-- Digits are read as their value, or refused if that exceeds the limit, though the reader only
ever compares what it has read so far. -/
theorem readMagnitude_eq (limit : Nat) (overflow : LiteralFault) {digits : List Char}
    (hne : digits ≠ []) (hdigits : ∀ c ∈ digits, c.isDigit = true) :
    readMagnitude limit overflow digits =
      if limit < digitsValue digits then .error overflow else .ok (digitsValue digits) := by
  have hempty : digits.isEmpty = false := by simpa using hne
  rw [readMagnitude, hempty]
  exact readDigits_eq overflow hdigits (Nat.zero_le limit)

/-- A whole number has neither point nor exponent. -/
theorem IsWhole.mem {text : List Char} (h : IsWhole text) {c : Char} (hc : c ∈ text) :
    c ≠ '.' ∧ c ≠ 'e' ∧ c ≠ 'E' := by
  obtain ⟨sign, digits, rfl, hsign, -, hdigits⟩ := h
  rcases List.mem_append.1 hc with hc | hc
  · obtain rfl : c = '-' := by
      rcases hsign with rfl | rfl
      · cases hc
      · simpa using hc
    decide
  · have hdigit := hdigits c hc
    exact ⟨ne_of_isDigit hdigit rfl, ne_of_isDigit hdigit rfl, ne_of_isDigit hdigit rfl⟩

/-- A number with a point has no exponent. -/
theorem IsDecimal.mem {text : List Char} (h : IsDecimal text) {c : Char} (hc : c ∈ text) :
    c ≠ 'e' ∧ c ≠ 'E' := by
  obtain ⟨whole, fraction, rfl, hwhole, hfraction⟩ := h
  rcases List.mem_append.1 hc with hc | hc
  · exact (hwhole.mem hc).2
  · rcases List.mem_cons.1 hc with rfl | hc
    · decide
    · have hdigit := hfraction c hc
      exact ⟨ne_of_isDigit hdigit rfl, ne_of_isDigit hdigit rfl⟩

/-- A whole number is out of range just if it does not fit. -/
theorem IsWhole.isOutOfRange_iff {text : List Char} (h : IsWhole text) :
    isOutOfRange text = true ↔ integerValue text < -2 ^ 63 ∨ 2 ^ 63 ≤ integerValue text := by
  have hall : text.all (fun c => c != '.' && c != 'e' && c != 'E') = true := by
    refine List.all_eq_true.2 fun c hc => ?_
    obtain ⟨h₁, h₂, h₃⟩ := h.mem hc
    simp [h₁, h₂, h₃]
  simp [isOutOfRange, hall]

section unsigned

variable {c : Char} {digits : List Char}

/-- The value of a text without a minus is that of its digits. -/
theorem integerValue_unsigned (hc : c ≠ '-') :
    integerValue (c :: digits) = digitsValue (c :: digits) := by
  unfold integerValue
  split
  · rename_i heq
    exact absurd (List.cons.inj heq).1 hc
  · rfl

/-- A text without a minus can only be too large. -/
theorem rangeFault_unsigned (hc : c ≠ '-') : rangeFault (c :: digits) = .tooLarge := by
  unfold rangeFault
  split
  · rename_i heq
    exact absurd (List.cons.inj heq).1 hc
  · rfl

/-- Without a sign, the digits are read up to the greatest integer. -/
theorem readInteger_unsigned (hminus : c ≠ '-') (hplus : c ≠ '+') :
    readInteger (c :: digits) =
      (readMagnitude greatestInteger .tooLarge (c :: digits)).map fun n =>
        Int64.ofInt (n : Int) := by
  unfold readInteger
  split
  · rename_i heq
    cases heq
  · rename_i heq
    exact absurd (List.cons.inj heq).1 hminus
  · rename_i heq
    exact absurd (List.cons.inj heq).1 hplus
  · rcases readMagnitude greatestInteger .tooLarge (c :: digits) with _ | n <;> rfl

end unsigned

/-- Integers are read unless they are out of range. -/
theorem readInteger_whole {text : List Char} (h : IsWhole text) :
    readInteger text =
      if isOutOfRange text then .error (rangeFault text)
        else .ok (Int64.ofInt (integerValue text)) := by
  have hrange := h.isOutOfRange_iff
  obtain ⟨sign, digits, rfl, rfl | rfl, hne, hdigits⟩ := h
  · obtain ⟨c, digits, rfl⟩ := List.exists_cons_of_ne_nil hne
    have hc := hdigits c List.mem_cons_self
    have hminus : c ≠ '-' := ne_of_isDigit hc rfl
    rw [List.nil_append] at hrange ⊢
    rw [readInteger_unsigned hminus (ne_of_isDigit hc rfl), readMagnitude_eq _ _ hne hdigits,
      rangeFault_unsigned hminus]
    rw [integerValue_unsigned hminus] at hrange ⊢
    have hlimit : isOutOfRange (c :: digits) = true ↔
        greatestInteger < digitsValue (c :: digits) := by
      rw [hrange, greatestInteger]
      omega
    by_cases hout : isOutOfRange (c :: digits) = true
    · rw [if_pos hout, if_pos (hlimit.1 hout)]
      rfl
    · rw [if_neg hout, if_neg fun hlt => hout (hlimit.2 hlt)]
      rfl
  · simp only [List.cons_append, List.nil_append, readInteger, integerValue, rangeFault] at hrange ⊢
    rw [readMagnitude_eq _ _ hne hdigits]
    have hlimit : isOutOfRange ('-' :: digits) = true ↔ leastMagnitude < digitsValue digits := by
      rw [hrange, leastMagnitude]
      omega
    by_cases hout : isOutOfRange ('-' :: digits) = true
    · rw [if_pos hout, if_pos (hlimit.1 hout)]
      rfl
    · rw [if_neg hout, if_neg fun hlt => hout (hlimit.2 hlt)]
      rfl

/-! ## Floating-point numbers -/

/-- An exponent that may follow a number: none, or the letter e and a whole number. -/
def IsExponent (text : List Char) : Prop :=
  text = [] ∨ ∃ e exponent, text = e :: exponent ∧ (e = 'e' ∨ e = 'E') ∧ IsWhole exponent

/-- An exponent begins neither with a digit nor with a point, so the digits before it end there. -/
theorem IsExponent.head {text : List Char} (h : IsExponent text) :
    ∀ c ∈ text.head?, c.isDigit = false ∧ c ≠ '.' := by
  rcases h with rfl | ⟨e, exponent, rfl, rfl | rfl, -⟩ <;> simp

/-- Behind its sign, a number goes on with its digits. -/
theorem splitSign_of_sign {sign digits : List Char} (hsign : sign = [] ∨ sign = ['-'])
    (hhead : ∀ c ∈ digits.head?, c.isDigit = true) :
    (splitSign (sign ++ digits)).2 = digits := by
  rcases hsign with rfl | rfl
  · cases digits with
    | nil => rfl
    | cons c digits =>
      have hc := hhead c rfl
      have hminus : c ≠ '-' := ne_of_isDigit hc rfl
      have hplus : c ≠ '+' := ne_of_isDigit hc rfl
      simp [splitSign, hminus, hplus]
  · rfl

/-- A text that begins with digits has a digit for its head. -/
theorem head_of_all_digits {digits : List Char} (hne : digits ≠ [])
    (hdigits : ∀ c ∈ digits, c.isDigit = true) (rest : List Char) :
    ∀ c ∈ (digits ++ rest).head?, c.isDigit = true := by
  obtain ⟨c, digits, rfl⟩ := List.exists_cons_of_ne_nil hne
  simpa using hdigits c List.mem_cons_self

/-- An exponent of the grammar is read as one. -/
theorem exists_readExponent {text : List Char} (h : IsExponent text) :
    ∃ e, readExponent? text = some e := by
  rcases h with rfl | ⟨e, exponent, rfl, he, sign, digits, rfl, hsign, hne, hdigits⟩
  · exact ⟨0, rfl⟩
  · have hsplit : (splitSign (sign ++ digits)).2 = digits :=
      splitSign_of_sign hsign (by simpa using head_of_all_digits hne hdigits [])
    have hall : digits.all Char.isDigit = true := List.all_eq_true.2 hdigits
    simp [readExponent?, he, hsplit, hne, hall]

/-- Digits, perhaps with a point and digits after them, and an exponent make a number. -/
theorem exists_readDecimal {whole point exponent : List Char} (hne : whole ≠ [])
    (hwhole : ∀ c ∈ whole, c.isDigit = true)
    (hpoint : point = [] ∨ ∃ fraction, point = '.' :: fraction ∧ ∀ c ∈ fraction, c.isDigit = true)
    (hexponent : IsExponent exponent) :
    ∃ value, readDecimal? (whole ++ (point ++ exponent)) = some value := by
  obtain ⟨e, he⟩ := exists_readExponent hexponent
  have hempty : whole.isEmpty = false := by simpa using hne
  rcases hpoint with rfl | ⟨fraction, rfl, hfraction⟩
  · have hhead : ∀ c ∈ exponent.head?, c.isDigit = false := fun c hc => (hexponent.head c hc).1
    -- `simp` takes the second branch of the match because of this
    have hstop : ∀ fraction, exponent ≠ '.' :: fraction := by
      rintro fraction rfl
      exact (hexponent.head '.' rfl).2 rfl
    have htake := takeWhile_append_of_head hwhole exponent hhead
    have hdrop := dropWhile_append_of_head hwhole exponent hhead
    unfold readDecimal?
    simp [htake, hdrop, hempty, he]
  · have htake := takeWhile_append_of_head hwhole ('.' :: (fraction ++ exponent)) (by simp)
    have hdrop := dropWhile_append_of_head hwhole ('.' :: (fraction ++ exponent)) (by simp)
    have htake' := takeWhile_append_of_head hfraction exponent fun c hc => (hexponent.head c hc).1
    have hdrop' := dropWhile_append_of_head hfraction exponent fun c hc => (hexponent.head c hc).1
    unfold readDecimal?
    simp [htake, hdrop, htake', hdrop', hempty, he]

/-- Numbers with a point or an exponent are read, whatever their size. -/
theorem exists_readFloat {sign whole point exponent : List Char} (hsign : sign = [] ∨ sign = ['-'])
    (hne : whole ≠ []) (hwhole : ∀ c ∈ whole, c.isDigit = true)
    (hpoint : point = [] ∨ ∃ fraction, point = '.' :: fraction ∧ ∀ c ∈ fraction, c.isDigit = true)
    (hexponent : IsExponent exponent) :
    ∃ x, readFloat (sign ++ (whole ++ (point ++ exponent))) = .ok x := by
  obtain ⟨value, hvalue⟩ := exists_readDecimal hne hwhole hpoint hexponent
  have hsplit : (splitSign (sign ++ (whole ++ (point ++ exponent)))).2 =
      whole ++ (point ++ exponent) :=
    splitSign_of_sign hsign (head_of_all_digits hne hwhole _)
  have hempty : (sign ++ (whole ++ (point ++ exponent))).isEmpty = false := by
    simp [hne]
  simp only [readFloat, hempty, Bool.false_eq_true, if_false, hsplit, hvalue]
  exact ⟨_, rfl⟩

/-! ## Numbers of every form -/

/-- A text of digits is read as an integer, or refused with the side on which it is out of range. -/
theorem readNumeral_whole {text : List Char} (h : IsWhole text) :
    readNumeral text =
      if isOutOfRange text then .error (rangeFault text)
      else .ok (.integer (Int64.ofInt (integerValue text))) := by
  have hexponent : (text.any fun c => c == 'e' || c == 'E') = false := by
    refine List.any_eq_false.2 fun c hc => ?_
    simp [(h.mem hc).2.1, (h.mem hc).2.2]
  have hpoint : text.contains '.' = false := by
    rw [List.contains_eq_mem, decide_eq_false_iff_not]
    exact fun hc => (h.mem hc).1 rfl
  simp only [readNumeral, hexponent, hpoint, readInteger_whole h, Bool.false_eq_true, if_false]
  split <;> rfl

/-- A text with a point and no exponent is read as a decimal, and never out of range. -/
theorem readNumeral_decimal {text : List Char} (h : IsDecimal text) :
    ∃ x, readFloat text = .ok x ∧ readNumeral text = .ok (.decimal x) ∧
      isOutOfRange text = false := by
  have hexponent : (text.any fun c => c == 'e' || c == 'E') = false := by
    refine List.any_eq_false.2 fun c hc => ?_
    simp [(h.mem hc).1, (h.mem hc).2]
  obtain ⟨whole, fraction, rfl, hwhole, hfraction⟩ := h
  obtain ⟨sign, digits, rfl, hsign, hne, hdigits⟩ := hwhole
  obtain ⟨x, hx⟩ := exists_readFloat hsign hne hdigits (.inr ⟨fraction, rfl, hfraction⟩) (.inl rfl)
  simp only [List.append_nil, ← List.append_assoc] at hx
  refine ⟨x, hx, ?_, ?_⟩
  · simp only [readNumeral, hexponent, hx]
    simp
  · simp [isOutOfRange]

/-- A text with an exponent is read as scientific, and never out of range. -/
theorem readNumeral_scientific {text : List Char} (h : IsScientific text) :
    ∃ x, readFloat text = .ok x ∧ readNumeral text = .ok (.scientific x) ∧
      isOutOfRange text = false := by
  obtain ⟨number, e, exponent, rfl, hnumber, he, hexponent⟩ := h
  have hletter : ((number ++ e :: exponent).any fun c => c == 'e' || c == 'E') = true := by
    rcases he with rfl | rfl <;> simp
  have hfloat : ∃ x, readFloat (number ++ e :: exponent) = .ok x := by
    rcases hnumber with ⟨sign, digits, rfl, hsign, hne, hdigits⟩ |
      ⟨whole, fraction, rfl, ⟨sign, digits, rfl, hsign, hne, hdigits⟩, hfraction⟩
    · obtain ⟨x, hx⟩ :=
        exists_readFloat hsign hne hdigits (.inl rfl) (.inr ⟨e, exponent, rfl, he, hexponent⟩)
      exact ⟨x, by simpa using hx⟩
    · obtain ⟨x, hx⟩ := exists_readFloat hsign hne hdigits (.inr ⟨fraction, rfl, hfraction⟩)
        (.inr ⟨e, exponent, rfl, he, hexponent⟩)
      exact ⟨x, by simpa using hx⟩
  obtain ⟨x, hx⟩ := hfloat
  refine ⟨x, hx, ?_, ?_⟩
  · simp only [readNumeral, hletter, if_true, hx]
    rfl
  · rcases he with rfl | rfl <;> simp [isOutOfRange]

/-! ## Strings -/

/-- A character of the body of a string: a plain one, or an escape that is defined. -/
def IsStringChar (text : List Char) : Prop :=
  (∃ c, text = [c] ∧ c ≠ '\\') ∨ ∃ c, text = ['\\', c] ∧ (escapeValue? c).isSome = true

/-- A body of defined escapes and plain characters stands for a text. -/
theorem exists_decodeEscapes {items : List (List Char)} (h : ∀ item ∈ items, IsStringChar item) :
    ∃ cs, decodeEscapes items.flatten = some cs := by
  induction items with
  | nil => exact ⟨[], rfl⟩
  | cons item items ih =>
      obtain ⟨cs, hcs⟩ := ih fun item hitem => h item (List.mem_cons_of_mem _ hitem)
      rcases h item List.mem_cons_self with ⟨c, rfl, hc⟩ | ⟨c, rfl, hc⟩
      · exact ⟨c :: cs, by simp [decodeEscapes, hc, hcs]⟩
      · obtain ⟨value, hvalue⟩ := Option.isSome_iff_exists.1 hc
        exact ⟨value :: cs, by simp [decodeEscapes, hvalue, hcs]⟩

end RiftLang
