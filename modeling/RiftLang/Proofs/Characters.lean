import RiftLang.Literal

/-!
# Characters of texts

How texts are taken apart again.

* `forall_mem_head_cons` — what is said of the next character of a text.
* `takeWhile_append_of_head`, `dropWhile_append_of_head` — characters of one sort are taken up to
  the first of another sort.
* `toList_toString_int`, `digitsValue_toDigits` — the text of an integer, and the value of its
  digits.
-/

namespace RiftLang

/-- What holds of a character holds of the head of every text that it begins. -/
theorem forall_mem_head_cons {p : Char → Prop} {c : Char} {s : List Char} (hc : p c) :
    ∀ c' ∈ (c :: s).head?, p c' := by
  intro c' hc'
  obtain rfl := Option.some.inj hc'
  exact hc

section sort

variable {test : Char → Bool} {cs : List Char}

/-- Characters that pass a test are taken whole, if the text after them begins with one that does
not. -/
theorem takeWhile_append_of_head (hcs : ∀ c ∈ cs, test c = true) (rest : List Char)
    (hrest : ∀ c ∈ rest.head?, test c = false) : (cs ++ rest).takeWhile test = cs := by
  rw [List.takeWhile_append_of_pos hcs]
  cases rest with
  | nil => simp
  | cons c rest => simp [hrest c rfl]

/-- Characters that pass a test are dropped whole, if the text after them begins with one that does
not. -/
theorem dropWhile_append_of_head (hcs : ∀ c ∈ cs, test c = true) (rest : List Char)
    (hrest : ∀ c ∈ rest.head?, test c = false) : (cs ++ rest).dropWhile test = rest := by
  rw [List.dropWhile_append_of_pos hcs]
  cases rest with
  | nil => rfl
  | cons c rest => simp [hrest c rfl]

end sort

/-! ## Decimal digits -/

/-- A digit is none of the characters that are no digits. -/
theorem ne_of_isDigit {c d : Char} (h : c.isDigit = true) (hd : d.isDigit = false) : c ≠ d := by
  rintro rfl
  simp [h] at hd

/-- A number is written with digits only. -/
theorem isDigit_of_mem_toDigits {n : Nat} {c : Char} (h : c ∈ Nat.toDigits 10 n) :
    c.isDigit = true :=
  Nat.isDigit_of_mem_toDigits (by decide) (by decide) h

/-- Reading the digits of a number gives the number. -/
theorem digitsValue_toDigits (n : Nat) : digitsValue (Nat.toDigits 10 n) = n :=
  Nat.ofDigitChars_ten_toDigits

/-- An integer is written with the digits of its absolute value, after a minus if it is negative. -/
theorem toList_toString_int (k : Int) :
    (toString k).toList = if 0 ≤ k then Nat.toDigits 10 k.toNat else '-' ::
      Nat.toDigits 10 (-k).toNat := by
  rw [Int.toString_eq_repr, Int.repr_eq_if]
  split
  · exact Nat.toList_repr
  · rw [String.toList_append, Nat.toList_repr]
    rfl

end RiftLang
