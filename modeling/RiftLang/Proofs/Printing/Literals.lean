import RiftLang.Proofs.Printing.Lexemes

/-!
# Printed literals

* `takes_boolean`, `takes_string`, `takes_integer` — booleans, strings and integers are read back.
-/

namespace RiftLang

open Peg

variable {s rest : List Char}

/-! ## Booleans -/

/-- The word of a truth value is taken for it, where a name would end. -/
theorem takes_boolean (b : Bool) (hrest : EndsName rest) :
    Takes (.call .boolean) ((boolText b).toList ++ rest) [.node (.boolean b)] rest := by
  cases b with
  | true =>
      exact Takes.callNode rfl ((takes_word "true" rest).choice_left.text.seq
        ((takes_absent_nameChar hrest).after takes_action.last)) rfl
  | false =>
      have hfail : Parses table (.word "true") ("false".toList ++ rest) none :=
        parses_none_of_failsAt rfl
      exact Takes.callNode rfl (((takes_word "false" rest).choice_left.choice_right hfail).text.seq
        ((takes_absent_nameChar hrest).after takes_action.last)) rfl

/-! ## Strings -/

/-- A character is decoded from the form that it is written in. -/
theorem decodeEscapes_escapedChar (c : Char) :
    decodeEscapes (escapedChar c ++ s) = (decodeEscapes s).map (c :: ·) := by
  unfold escapedChar
  split
  · rcases hs : decodeEscapes s <;> simp [decodeEscapes, escapeValue?, hs]
  · rcases hs : decodeEscapes s <;> simp [decodeEscapes, escapeValue?, hs]
  · rcases hs : decodeEscapes s <;> simp [decodeEscapes, escapeValue?, hs]
  · next h _ _ =>
      have hc : c ≠ '\\' := h
      simp [decodeEscapes, hc]

/-- So are characters in a row. -/
theorem decodeEscapes_flatMap (cs : List Char) :
    decodeEscapes (cs.flatMap escapedChar) = some cs := by
  induction cs with
  | nil => rfl
  | cons c cs ih => rw [List.flatMap_cons, decodeEscapes_escapedChar, ih, Option.map_some]

/-- Escaping backslashes, quotes and line feeds is undone by decoding. -/
theorem unescape_flatMap (text : String) :
    unescape (String.ofList (text.toList.flatMap escapedChar)) = some text := by
  rw [unescape, String.toList_ofList, decodeEscapes_flatMap, Option.map_some, String.ofList_toList]

/-- A backslash and a character that may follow it are taken as one character of a string. -/
theorem takes_escape {c : Char}
    (hc : ['n', 't', 'r', 'f', 'b', 'a', 'v', '\\', '?', '"', '\''].contains c = true) :
    Takes (.call .stringChar) ('\\' :: c :: rest) [] rest :=
  Takes.call (r := .stringChar)
    (Takes.choice_left (Takes.call (r := .stringEscape)
      ((takes_char '\\' _).after (takes_one hc).last) rfl)) rfl

/-- A character is taken in the form that it is written in. -/
theorem takes_stringChar (c : Char) :
    Takes (.call .stringChar) (escapedChar c ++ rest) [] rest := by
  unfold escapedChar
  split
  · exact takes_escape rfl
  · exact takes_escape rfl
  · exact takes_escape rfl
  · next hbackslash hquote hline =>
      have hescape : Parses table (.call .stringEscape) (c :: rest) none :=
        .call_fail (.seq_fail_left (.one_fail (forall_mem_head_cons (beq_false_of_ne hbackslash))))
      have hplain : Parses table (oneOf ['\\', '\n', '"']) (c :: rest) none :=
        .one_fail (forall_mem_head_cons (by simpa using ⟨hbackslash, hline, hquote⟩))
      exact Takes.call (r := .stringChar)
        (Takes.choice_right hescape ((takes_absent hplain).after (takes_one rfl).last)) rfl

/-- Characters are taken in that form up to the closing quote. -/
theorem takes_stringChars (cs : List Char) :
    Takes (.star (.call .stringChar)) (cs.flatMap escapedChar ++ '"' :: rest) [] ('"' :: rest) := by
  induction cs with
  | nil =>
      have hescape : Parses table (.call .stringEscape) ('"' :: rest) none :=
        parses_none_of_failsAt (s := '"' :: rest) rfl
      exact takes_star_nil
        (.call_fail (.choice_right hescape (.seq_fail_left (.absent_fail (.one rfl)))))
  | cons c cs ih =>
      rw [List.flatMap_cons, List.append_assoc]
      exact (takes_stringChar c).star_cons ih

/-- A text is taken from its quotes, and stands for itself. -/
theorem takes_string (text : String) :
    Takes (.call .string) ('"' :: text.toList.flatMap escapedChar ++ ['"'] ++ rest)
      [.node (.string text)] rest := by
  have hsplit : '"' :: text.toList.flatMap escapedChar ++ ['"'] ++ rest =
      '"' :: (text.toList.flatMap escapedChar ++ '"' :: rest) := by simp
  have hraw := unescape_flatMap text
  rw [hsplit]
  refine Takes.callNode rfl ((takes_char '"' _).after ((takes_stringChars _).text.seq
    ((takes_char '"' _).after takes_action.last))) ?_
  simp only [List.append_nil, construct, hraw]
  rfl

/-! ## Integers -/

/-- The text of an integer: no digit but a zero begins with zero. -/
def IsInteger (cs : List Char) : Prop :=
  cs = ['0'] ∨ ∃ sign c digits, cs = sign ++ c :: digits ∧ (sign = [] ∨ sign = ['-']) ∧
    (c.isDigit = true ∧ c ≠ '0') ∧ ∀ c ∈ digits, c.isDigit = true

/-- A positive number is written without a leading zero. -/
theorem exists_toDigits {n : Nat} (h : 0 < n) :
    ∃ c digits, Nat.toDigits 10 n = c :: digits ∧ c ≠ '0' := by
  induction n using Nat.strongRecOn with
  | ind n ih =>
      by_cases hn : n < 10
      · have hne : ∀ n < 10, 0 < n → n.digitChar ≠ '0' := by decide
        exact ⟨n.digitChar, [], Nat.toDigits_of_lt_base hn, hne n hn h⟩
      · obtain ⟨c, digits, hdigits, hc⟩ := ih (n / 10) (by omega) (by omega)
        refine ⟨c, digits ++ [(n % 10).digitChar], ?_, hc⟩
        rw [Nat.toDigits_of_base_le (by omega) (by omega), hdigits]
        rfl

/-- The digits of a positive number, with or without a minus, are the text of an integer. -/
theorem isInteger_toDigits {sign : List Char} {n : Nat} (hn : 0 < n)
    (hsign : sign = [] ∨ sign = ['-']) :
    IsInteger (sign ++ Nat.toDigits 10 n) := by
  obtain ⟨c, digits, hdigits, hc⟩ := exists_toDigits hn
  have hall : ∀ c' ∈ c :: digits, c'.isDigit = true := by
    rw [← hdigits]
    exact fun c' hc' => isDigit_of_mem_toDigits hc'
  refine .inr ⟨sign, c, digits, by rw [hdigits], hsign, ⟨hall c List.mem_cons_self, hc⟩,
    fun c' hc' => ?_⟩
  exact hall c' (List.mem_cons_of_mem _ hc')

/-- An integer is written with the digits of its absolute value, after a minus if it is negative. -/
theorem toList_text_integer (n : Int64) :
    (Numeral.integer n).text.toList =
      if 0 ≤ n.toInt then Nat.toDigits 10 n.toInt.toNat else '-' ::
        Nat.toDigits 10 (-n.toInt).toNat :=
  toList_toString_int n.toInt

/-- What is written for an integer is the text of one, and has its value. -/
theorem isInteger_text (n : Int64) : IsInteger (Numeral.integer n).text.toList ∧
    integerValue (Numeral.integer n).text.toList = n.toInt := by
  rw [toList_text_integer]
  rcases lt_trichotomy n.toInt 0 with hn | hn | hn
  · rw [if_neg (by omega)]
    have hinteger : IsInteger (['-'] ++ Nat.toDigits 10 (-n.toInt).toNat) :=
      isInteger_toDigits (by omega) (.inr rfl)
    refine ⟨hinteger, ?_⟩
    rw [integerValue, digitsValue_toDigits]
    omega
  · rw [hn]
    exact ⟨.inl rfl, rfl⟩
  · rw [if_pos (by omega)]
    obtain ⟨c, digits, hdigits, -⟩ := exists_toDigits (n := n.toInt.toNat) (by omega)
    have hinteger : IsInteger ([] ++ Nat.toDigits 10 n.toInt.toNat) :=
      isInteger_toDigits (by omega) (.inl rfl)
    refine ⟨hinteger, ?_⟩
    have hc : c.isDigit = true := isDigit_of_mem_toDigits (hdigits ▸ List.mem_cons_self)
    have hminus : c ≠ '-' := ne_of_isDigit hc rfl
    rw [hdigits, integerValue_unsigned hminus, ← hdigits, digitsValue_toDigits]
    omega

/-- The text of an integer is digits, with or without a minus. -/
theorem IsInteger.isWhole {cs : List Char} (h : IsInteger cs) : IsWhole cs := by
  rcases h with rfl | ⟨sign, c, digits, rfl, hsign, ⟨hc, -⟩, hdigits⟩
  · exact ⟨[], ['0'], rfl, .inl rfl, by simp, List.forall_mem_singleton.2 rfl⟩
  · exact ⟨sign, c :: digits, rfl, hsign, by simp, List.forall_mem_cons.2 ⟨hc, hdigits⟩⟩

/-- The text of an integer is read as the integer. -/
theorem readNumeral_text (n : Int64) :
    readNumeral (Numeral.integer n).text.toList = .ok (.integer n) := by
  obtain ⟨hinteger, hvalue⟩ := isInteger_text n
  have hrange : isOutOfRange (Numeral.integer n).text.toList = false := by
    rw [Bool.eq_false_iff, ne_eq, hinteger.isWhole.isOutOfRange_iff, hvalue]
    have hlower := n.le_toInt
    have hupper := n.toInt_lt
    omega
  rw [readNumeral_whole hinteger.isWhole, hrange, hvalue, Int64.ofInt_toInt]
  rfl

/-- The text does not go on with a number. -/
def EndsNumber (s : List Char) : Prop :=
  ∀ c ∈ s.head?, c.isDigit = false ∧ c ≠ '.' ∧ c ≠ 'e' ∧ c ≠ 'E'

/-- Digits are taken up to where a number ends. -/
theorem takes_digits {digits : List Char} (hdigits : ∀ c ∈ digits, c.isDigit = true)
    (hrest : EndsNumber rest) : Takes (.star (.call .digit)) (digits ++ rest) [] rest := by
  induction digits with
  | nil =>
      refine takes_star_nil (.call_fail (.one_fail fun c hc => ?_))
      rw [any_digit]
      exact (hrest c hc).1
  | cons c digits ih =>
      have htail := ih fun c hc => hdigits c (List.mem_cons_of_mem _ hc)
      refine Takes.star_cons (Takes.call (r := .digit) (takes_one ?_) rfl) htail
      rw [any_digit]
      exact hdigits c List.mem_cons_self

/-- The text of an integer is taken whole, up to where a number ends. -/
theorem takes_wholeNumber {cs : List Char} (h : IsInteger cs) (hrest : EndsNumber rest) :
    Takes (.call .wholeNumber) (cs ++ rest) [] rest := by
  rcases h with rfl | ⟨sign, c, digits, rfl, hsign, ⟨hc, hzero⟩, hdigits⟩
  · exact Takes.call (r := .wholeNumber) (takes_char '0' rest).choice_left rfl
  · have hfirst : ([('1', '9')].any fun r => r.1 ≤ c && c ≤ r.2) = true := by
      rw [any_nonzeroDigit]
      simpa [hc] using hzero
    have hhead : Takes (within [('1', '9')]) (c :: (digits ++ rest)) [] (digits ++ rest) :=
      takes_one hfirst
    have hdigits' := hhead.after (takes_digits hdigits hrest).last
    have hnumber : Takes (seqs [opt (.char '-'), within [('1', '9')], .star (.call .digit)])
        (sign ++ c :: digits ++ rest) [] rest := by
      rcases hsign with rfl | rfl
      · have hminus : Parses table (.char '-') (c :: (digits ++ rest)) none :=
          .one_fail (forall_mem_head_cons (beq_false_of_ne (ne_of_isDigit hc rfl)))
        exact (takes_opt_none hminus).after hdigits'
      · exact (takes_char '-' _).opt.after hdigits'
    have hzero' : Parses table (.char '0') (sign ++ c :: digits ++ rest) none := by
      rcases hsign with rfl | rfl
      · exact .one_fail (forall_mem_head_cons (beq_false_of_ne hzero))
      · exact .one_fail (forall_mem_head_cons rfl)
    exact Takes.call (r := .wholeNumber) (hnumber.choice_right hzero') rfl

/-- An integer is taken up to where a number ends, and stands for itself: it is in range, and
neither a point nor an exponent follows. -/
theorem takes_integer (n : Int64) (hrest : EndsNumber rest) :
    Takes (.call .numeric) ((Numeral.integer n).text.toList ++ rest)
      [.node (.numeric (.integer n))] rest := by
  have hinteger := Takes.call (r := .integer) (takes_wholeNumber (isInteger_text n).1 hrest) rfl
  have hdecimal : Parses table (.call .decimal) ((Numeral.integer n).text.toList ++ rest) none := by
    refine .call_fail (hinteger.seq_none
      (.seq_fail_left (.one_fail fun c hc => beq_false_of_ne ?_)))
    exact (hrest c hc).2.1
  have hscientific : Parses table (.call .scientific)
      ((Numeral.integer n).text.toList ++ rest) none := by
    have hnumber : Takes (choices [.call .decimal, .call .integer])
        ((Numeral.integer n).text.toList ++ rest) [] rest :=
      hinteger.choice_left.choice_right hdecimal
    refine .call_fail (hnumber.seq_none (.seq_fail_left (.one_fail fun c hc => ?_)))
    simpa using (hrest c hc).2.2
  refine Takes.callNode rfl
    (((hinteger.choice_left.choice_right hdecimal).choice_right hscientific).text.seq
    takes_action.last) ?_
  rw [String.ofList_toList]
  simp only [List.append_nil, construct, readNumeral_text]
  rfl

end RiftLang
