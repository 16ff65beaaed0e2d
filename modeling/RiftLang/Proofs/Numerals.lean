import RiftLang.Proofs.Meaning.Attempts
import RiftLang.Proofs.Peg.Munch

/-!
# Numbers are matched as far as they go

The rule of numbers tries three forms in order, each of which begins with the next. What it matches
is the longest number that the text begins with, and the marks of forms that were given up do not
count.

* `numerals` — the texts of numbers, as a regular expression has them.
* `munches_numeric` — the rule of numbers matches the longest of them.
* `isReadAs_of_mem` — what the text of a number is read as.
* `numeric_matches_longest` — where the rule matches, what it consumes, and what its tokens build.
-/

namespace RiftLang

open Peg

/-! ## The texts of numbers -/

/-- A digit other than zero. -/
def isNonzeroDigit (c : Char) : Bool :=
  c.isDigit && c != '0'

/-- A positive integer: `[1-9][0-9]*`. -/
def positives : Language Char :=
  charOf isNonzeroDigit * charsOf Char.isDigit

/-- An integer: `0|-?[1-9][0-9]*`. -/
def integers : Language Char :=
  charOf (· == '0') + (charOf (· == '-') + 1) * positives

/-- A point with digits, or with none: `\.[0-9]*`. -/
def points : Language Char :=
  charOf (· == '.') * charsOf Char.isDigit

/-- An exponent: `[eE](0|-?[1-9][0-9]*)`. -/
def exponents : Language Char :=
  charOf (['e', 'E'].contains ·) * integers

/-- A number: `(0|-?[1-9][0-9]*)(\.[0-9]*)?([eE](0|-?[1-9][0-9]*))?`. -/
def numerals : Language Char :=
  integers * (points + 1) * (exponents + 1)

/-- A number is an integer with or without a point, with or without an exponent; those with an
exponent are written first, as the grammar tries them. -/
theorem numerals_eq :
    numerals = (integers * points + integers) * exponents + (integers * points + integers) := by
  unfold numerals
  rw [mul_add, mul_one, mul_add, mul_one]

section texts

variable {t : List Char}

/-- A text of an integer has the form of one. -/
theorem isWhole_of_mem (h : t ∈ integers) : IsWhole t := by
  rcases h with ⟨c, rfl, hc⟩ | h
  · obtain rfl := eq_of_beq hc
    exact ⟨[], ['0'], rfl, .inl rfl, by simp, by simp⟩
  · obtain ⟨sign, hsign, digits, hdigits, rfl⟩ := Language.mem_mul.1 h
    obtain ⟨c, more, rfl, hc, hmore⟩ := mem_charOf_mul.1 hdigits
    have hfirst : c.isDigit = true := (Bool.and_eq_true_iff.1 hc).1
    refine ⟨sign, c :: more, rfl, ?_, by simp, List.forall_mem_cons.2 ⟨hfirst, hmore⟩⟩
    exact (mem_charOf_add_one.1 hsign).symm

/-- A text of an integer and a point has the form of a decimal. -/
theorem isDecimal_of_mem (h : t ∈ integers * points) : IsDecimal t := by
  obtain ⟨whole, hwhole, fraction, hfraction, rfl⟩ := Language.mem_mul.1 h
  obtain ⟨c, digits, rfl, hc, hdigits⟩ := mem_charOf_mul.1 hfraction
  obtain rfl := eq_of_beq hc
  exact ⟨whole, digits, rfl, isWhole_of_mem hwhole, hdigits⟩

/-- A text with an exponent has the form of a scientific number. -/
theorem isScientific_of_mem (h : t ∈ (integers * points + integers) * exponents) :
    IsScientific t := by
  obtain ⟨number, hnumber, tail, htail, rfl⟩ := Language.mem_mul.1 h
  obtain ⟨e, exponent, rfl, he, hexponent⟩ := mem_charOf_mul.1 htail
  refine ⟨number, e, exponent, rfl, ?_, by simpa using he, isWhole_of_mem hexponent⟩
  rcases hnumber with hnumber | hnumber
  · right
    exact isDecimal_of_mem hnumber
  · left
    exact isWhole_of_mem hnumber

/-- What comes before an exponent has none. -/
theorem notMem_of_mem_base (h : t ∈ integers * points + integers) : 'e' ∉ t ∧ 'E' ∉ t := by
  rcases h with h | h
  · have hmem {c : Char} (hc : c ∈ t) := (isDecimal_of_mem h).mem hc
    exact ⟨fun hc => (hmem hc).1 rfl, fun hc => (hmem hc).2 rfl⟩
  · have hmem {c : Char} (hc : c ∈ t) := (isWhole_of_mem h).mem hc
    exact ⟨fun hc => (hmem hc).2.1 rfl, fun hc => (hmem hc).2.2 rfl⟩

/-- There is no point in an integer. -/
theorem point_notMem_of_mem_integers (h : t ∈ integers) : '.' ∉ t :=
  fun hc => ((isWhole_of_mem h).mem hc).1 rfl

/-- There is a point in a decimal. -/
theorem point_mem_of_mem (h : t ∈ integers * points) : '.' ∈ t := by
  obtain ⟨whole, fraction, rfl, -⟩ := isDecimal_of_mem h
  simp

/-- There is the letter of the exponent in a scientific number. -/
theorem exponent_mem_of_mem (h : t ∈ (integers * points + integers) * exponents) :
    'e' ∈ t ∨ 'E' ∈ t := by
  obtain ⟨number, e, exponent, rfl, -, rfl | rfl, -⟩ := isScientific_of_mem h
  · left
    simp
  · right
    simp

end texts

/-! ## The rules of numbers -/

/-- A digit is matched where there is one. -/
theorem munches_digit : Munches table (.call .digit) (charOf Char.isDigit) := by
  have htest : (fun c : Char => [('0', '9')].any fun r => r.1 ≤ c && c ≤ r.2) = Char.isDigit :=
    funext any_digit
  have hbody : Munches table (table .digit) (charOf _) := munches_one _
  rw [htest] at hbody
  exact hbody.call

/-- A digit other than zero is matched where there is one. -/
theorem munches_nonzeroDigit : Munches table (within [('1', '9')]) (charOf isNonzeroDigit) := by
  have htest : (fun c : Char => [('1', '9')].any fun r => r.1 ≤ c && c ≤ r.2) = isNonzeroDigit :=
    funext any_nonzeroDigit
  rw [← htest]
  exact munches_one _

/-- A positive integer is matched as far as its digits go. -/
theorem munches_positive : Munches table (seqs [within [('1', '9')], .star (.call .digit)])
    positives :=
  munches_nonzeroDigit.seq (munches_digit.star_charOf.seq_one munches_empty) continues_charOf

/-- The first digit does not occur in a sign, so it tells where the sign ends. -/
theorem munches_signed :
    Munches table (seqs [opt (.char '-'), within [('1', '9')], .star (.call .digit)])
      ((charOf (· == '-') + 1) * positives) := by
  have hsign : Munches table (opt (.char '-')) (charOf (· == '-') + 1) := by
    apply (munches_one _).choice munches_empty
    intro s t _ u hu _ _
    rw [(Language.mem_one u).1 hu]
    exact Nat.zero_le _
  apply hsign.seq munches_positive
  apply continues_of_notMem
  intro v hv
  obtain ⟨c, more, rfl, hc, -⟩ := mem_charOf_mul.1 hv
  refine ⟨c, more, rfl, ?_⟩
  intro u hu hmem
  rcases mem_charOf_add_one.1 hu with rfl | rfl
  · obtain rfl := List.mem_singleton.1 hmem
    exact absurd hc (by decide)
  · cases hmem

/-- Zero begins no other integer. -/
theorem head?_ne_zero_of_mem {t : List Char} (h : t ∈ (charOf (· == '-') + 1) * positives) :
    t.head? ≠ some '0' := by
  obtain ⟨sign, hsign, digits, hdigits, rfl⟩ := Language.mem_mul.1 h
  obtain ⟨c, more, rfl, hc, -⟩ := mem_charOf_mul.1 hdigits
  intro hhead
  rcases mem_charOf_add_one.1 hsign with rfl | rfl
  · cases hhead
  · obtain rfl : c = '0' := Option.some.inj hhead
    exact absurd hc (by decide)

/-- An integer is matched as far as it goes: a zero alone, or all digits after one that is no
zero. -/
theorem munches_integer : Munches table (.call .integer) integers := by
  have hwhole : Munches table (table .wholeNumber) integers := by
    apply (munches_one _).choice munches_signed
    intro s t ht u hu hts hus
    obtain ⟨zero, rfl, hzero⟩ := ht
    obtain rfl := eq_of_beq hzero
    by_contra hlt
    obtain ⟨more, rfl⟩ := List.prefix_of_prefix_length_le hts hus (Nat.le_of_not_le hlt)
    exact head?_ne_zero_of_mem hu rfl
  exact hwhole.call.call

/-- A decimal is matched as far as its digits go. -/
theorem munches_decimal : Munches table (.call .decimal) (integers * points) := by
  have hpoint : Munches table (seqs [.char '.', .star (.call .digit), .action (.mark .decimal)])
      points :=
    (munches_one _).seq (munches_digit.star_charOf.seq_one (munches_action.seq_one munches_empty))
      continues_charOf
  have hdecimal : Munches table (table .decimal) (integers * points) := by
    apply munches_integer.seq hpoint
    apply continues_of_notMem
    intro v hv
    obtain ⟨c, more, rfl, hc, -⟩ := mem_charOf_mul.1 hv
    obtain rfl := eq_of_beq hc
    exact ⟨'.', more, rfl, fun u hu => point_notMem_of_mem_integers hu⟩
  exact hdecimal.call

/-- A number without an exponent: an integer is shorter than a decimal, for it has no point. -/
theorem munches_base : Munches table (choices [.call .decimal, .call .integer])
    (integers * points + integers) := by
  have hinteger : Munches table (choices [.call .integer]) integers := by
    have hlast := munches_integer.choice munches_fail fun _ _ _ u hu =>
      absurd hu (Language.notMem_zero u)
    rwa [add_zero] at hlast
  apply munches_decimal.choice hinteger
  intro s t ht u hu hts hus
  exact (length_lt_of_notMem hts hus (point_mem_of_mem ht) (point_notMem_of_mem_integers hu)).le

/-- A scientific number is matched as far as the digits of its exponent go. -/
theorem munches_scientific :
    Munches table (.call .scientific) ((integers * points + integers) * exponents) := by
  have hexponent : Munches table
      (seqs [oneOf ['e', 'E'], .call .integer, .action (.mark .scientific)]) exponents :=
    (munches_one _).seq (munches_integer.seq_one (munches_action.seq_one munches_empty))
      continues_charOf
  have hscientific : Munches table (table .scientific)
      ((integers * points + integers) * exponents) := by
    apply munches_base.seq hexponent
    apply continues_of_notMem
    intro v hv
    obtain ⟨e, more, rfl, he, -⟩ := mem_charOf_mul.1 hv
    refine ⟨e, more, rfl, fun u hu => ?_⟩
    rcases (by simpa using he : e = 'e' ∨ e = 'E') with rfl | rfl
    · exact (notMem_of_mem_base hu).1
    · exact (notMem_of_mem_base hu).2
  exact hscientific.call

/-- The rule of numbers matches the longest number. -/
theorem munches_numeric : Munches table (.call .numeric) numerals := by
  have hforms : Munches table (choices [.call .scientific, .call .decimal, .call .integer])
      numerals := by
    rw [numerals_eq]
    apply munches_scientific.choice munches_base
    intro s t ht u hu hts hus
    obtain ⟨he, hE⟩ := notMem_of_mem_base hu
    rcases exponent_mem_of_mem ht with hmem | hmem
    · exact (length_lt_of_notMem hts hus hmem he).le
    · exact (length_lt_of_notMem hts hus hmem hE).le
  have hclosing : Munches table (seqs [.action .attach, .action .finish]) 1 :=
    munches_action.seq_one (munches_action.seq_one munches_empty)
  have hnode : Munches table (table .numeric) (1 * numerals) :=
    munches_action.seq (hforms.text.seq_one hclosing) continues_one
  rw [one_mul] at hnode
  exact hnode.call

/-! ## What numbers are read as -/

/-- What the text of a number is read as, in terms of the text. -/
structure IsReadAs (t : List Char) (value : Except LiteralFault Numeral) : Prop where
  /-- It is scientific if it has an exponent. -/
  scientific : (∃ x, readFloat t = .ok x ∧ value = .ok (.scientific x)) ↔ 'e' ∈ t ∨ 'E' ∈ t
  /-- It is a decimal if it has a point but no exponent. -/
  decimal : (∃ x, readFloat t = .ok x ∧ value = .ok (.decimal x)) ↔ '.' ∈ t ∧ 'e' ∉ t ∧ 'E' ∉ t
  /-- Otherwise it is an integer, namely the one that is written. -/
  integer : ∀ n, value = .ok (.integer n) ↔ '.' ∉ t ∧ 'e' ∉ t ∧ 'E' ∉ t ∧ n.toInt = integerValue t
  /-- It does not fit if it is past the greatest integer of 64 bits. -/
  tooLarge : value = .error .tooLarge ↔ '.' ∉ t ∧ 'e' ∉ t ∧ 'E' ∉ t ∧ 2 ^ 63 - 1 < integerValue t
  /-- It does not fit either if it is below the least one. -/
  tooSmall : value = .error .tooSmall ↔ '.' ∉ t ∧ 'e' ∉ t ∧ 'E' ∉ t ∧ integerValue t < -2 ^ 63

/-- An integer does not fit on the side that its sign tells. -/
theorem IsWhole.rangeFault_eq {t : List Char} (h : IsWhole t)
    (hout : integerValue t < -2 ^ 63 ∨ 2 ^ 63 ≤ integerValue t) :
    rangeFault t = if integerValue t < 0 then .tooSmall else .tooLarge := by
  obtain ⟨sign, digits, rfl, rfl | rfl, hne, hdigits⟩ := h
  · obtain ⟨c, digits, rfl⟩ := List.exists_cons_of_ne_nil hne
    have hminus : c ≠ '-' := ne_of_isDigit (hdigits c List.mem_cons_self) rfl
    rw [List.nil_append, rangeFault_unsigned hminus, integerValue_unsigned hminus,
      if_neg (by omega)]
  · have hvalue : integerValue (['-'] ++ digits) = -(digitsValue digits : Int) := rfl
    rw [hvalue] at hout ⊢
    rw [if_pos (by omega)]
    rfl

/-- An integer that fits is read as the number that it writes. -/
theorem IsWhole.readNumeral_eq_ok_iff {t : List Char} (h : IsWhole t) {value : Numeral} :
    readNumeral t = .ok value ↔ ∃ n, value = .integer n ∧ n.toInt = integerValue t := by
  rw [readNumeral_whole h]
  split
  · next hout =>
      have hrange := h.isOutOfRange_iff.1 hout
      refine iff_of_false nofun ?_
      rintro ⟨n, -, hn⟩
      have hleast := n.le_toInt
      have hgreatest := n.toInt_lt
      omega
  · next hin =>
      have hrange := mt h.isOutOfRange_iff.2 hin
      have hvalue : (Int64.ofInt (integerValue t)).toInt = integerValue t :=
        Int64.toInt_ofInt_of_le (by omega) (by omega)
      constructor
      · rintro ⟨⟩
        exact ⟨_, rfl, hvalue⟩
      · rintro ⟨n, rfl, hn⟩
        rw [← hn, Int64.ofInt_toInt]

/-- An integer that does not fit is reported on the side on which it does not. -/
theorem IsWhole.readNumeral_eq_error_iff {t : List Char} (h : IsWhole t) {fault : LiteralFault} :
    readNumeral t = .error fault ↔
      integerValue t < -2 ^ 63 ∧ fault = .tooSmall ∨ 2 ^ 63 ≤ integerValue t ∧
        fault = .tooLarge := by
  rw [readNumeral_whole h]
  split
  · next hout =>
      have hrange := h.isOutOfRange_iff.1 hout
      rw [h.rangeFault_eq hrange, Except.error.injEq]
      split <;> grind
  · next hin =>
      have hrange := mt h.isOutOfRange_iff.2 hin
      exact iff_of_false nofun (by omega)

/-- A whole number is read as an integer, or is out of range. -/
theorem IsWhole.isReadAs {t : List Char} (h : IsWhole t) : IsReadAs t (readNumeral t) := by
  have hpoint : '.' ∉ t := fun hc => (h.mem hc).1 rfl
  have he : 'e' ∉ t := fun hc => (h.mem hc).2.1 rfl
  have hE : 'E' ∉ t := fun hc => (h.mem hc).2.2 rfl
  constructor
  · simp [h.readNumeral_eq_ok_iff, he, hE]
  · simp [h.readNumeral_eq_ok_iff, hpoint]
  · simp [h.readNumeral_eq_ok_iff, hpoint, he, hE]
  · simp [h.readNumeral_eq_error_iff, hpoint, he, hE]
    omega
  · simp [h.readNumeral_eq_error_iff, hpoint, he, hE]

/-- A number with a point is read as a decimal. -/
theorem IsDecimal.isReadAs {t : List Char} (h : IsDecimal t) (hpoint : '.' ∈ t) :
    IsReadAs t (readNumeral t) := by
  have he : 'e' ∉ t := fun hc => (h.mem hc).1 rfl
  have hE : 'E' ∉ t := fun hc => (h.mem hc).2 rfl
  obtain ⟨x, hx, hread, -⟩ := readNumeral_decimal h
  rw [hread]
  constructor <;> simp [hx, hpoint, he, hE]

/-- A number with an exponent is read as scientific. -/
theorem IsScientific.isReadAs {t : List Char} (h : IsScientific t) (he : 'e' ∈ t ∨ 'E' ∈ t) :
    IsReadAs t (readNumeral t) := by
  obtain ⟨x, hx, hread, -⟩ := readNumeral_scientific h
  rw [hread]
  rcases he with he | he
  · constructor <;> simp [hx, he]
  · constructor <;> simp [hx, he]

/-- What a number is read as shows in its text. -/
theorem isReadAs_of_mem {t : List Char} (h : t ∈ numerals) : IsReadAs t (readNumeral t) := by
  rw [numerals_eq] at h
  rcases h with h | h | h
  · exact (isScientific_of_mem h).isReadAs (exponent_mem_of_mem h)
  · exact (isDecimal_of_mem h).isReadAs (point_mem_of_mem h)
  · exact (isWhole_of_mem h).isReadAs

/-! ## Matching a number -/

section numeric

variable {source : Array Char} {p : Nat} {w : Derivation} {rest : List Char}

/-- A number stands for what its text is read as. -/
theorem fragments_of_parses_numeric {s : List Char}
    (h : Parses table (.call .numeric) s (some (w, rest))) :
    w.fragments = (literalValue .numeric (String.ofList w.chars) (readNumeral w.chars)).map
      fun value => [.node (.numeric value)] := by
  obtain ⟨d, hbody, rfl⟩ := parses_call_iff.1 h
  obtain ⟨hparts, -, -⟩ :=
    exists_text_of_shape_numeric (hbody.shape fun _ _ _ _ hrule _ => isOf_of_parses (.call hrule))
  exact fragments_numeric hparts

/-- Replaying the tokens of a number adds what its text is read as, or stops because it cannot be
read. -/
theorem steps_numeric (h : Parses table (.call .numeric) (restFrom source p) (some (w, rest)))
    (depth : Nat) (f : Frame) (outer : List Frame) (captured : Option (Nat × Nat))
    (built : List Rift) :
    let outcome := (Replay.mk (f :: outer) captured built).steps source (w.tokens p depth)
    (∀ n, Adds f outer built (.node (.numeric n)) outcome ↔ readNumeral w.chars = .ok n) ∧
    ∀ fault, outcome = .error (.invalidLiteral .numeric (String.ofList w.chars) fault)
      ↔ readNumeral w.chars = .error fault := by
  intro outcome
  obtain ⟨hok, herror⟩ := adds_of_parses h rfl rfl depth f outer captured built
  have hfragments := fragments_of_parses_numeric h
  cases hread : readNumeral w.chars with
  | ok n =>
      have hadds : Adds f outer built (.node (.numeric n)) outcome := by
        apply hok
        rw [hfragments, hread]
        rfl
      constructor
      · intro m
        constructor
        · intro hm
          have hnode : Fragment.node (.numeric n) = .node (.numeric m) := hadds.unique hm
          cases hnode
          rfl
        · rintro ⟨⟩
          exact hadds
      · intro fault
        exact iff_of_false (hadds.ne_error _) nofun
  | error fault =>
      have hstopped : outcome =
          .error (.invalidLiteral .numeric (String.ofList w.chars) fault) := by
        apply herror
        rw [hfragments, hread]
        rfl
      constructor
      · intro m
        exact iff_of_false (fun hm => hm.ne_error _ hstopped) nofun
      · intro fault'
        rw [hstopped]
        constructor
        · rintro ⟨⟩
          rfl
        · rintro ⟨⟩
          rfl

end numeric

/-- At any offset of a source, whatever was recorded and remembered before, the rule of numbers
matches if a number begins there, and then consumes the longest one. Replaying the tokens that it
records inside a node that is open adds the value of the text to the node: a scientific number or a
decimal if the text has that form, and otherwise the integer that it writes, unless that does not
fit. -/
theorem numeric_matches_longest {c : Cursor} (hc : c.Reliable Grammar.rift Grammar.body) {p : Nat}
    (hp : p ≤ c.source.size) :
    ∃ matched d, (Pattern.call .numeric).eval (Grammar.rift.run (Grammar.callBound c.source.size))
        { c with position := p } = some (matched, d) ∧
      (matched = true ↔ ∃ t ∈ numerals, t <+: restFrom c.source p) ∧
      (matched = true → ∃ t value, IsLongest numerals (restFrom c.source p) t ∧
        d.position = p + t.length ∧
        IsReadAs t value ∧ ∀ f outer captured built,
          let outcome := (Replay.mk (f :: outer) captured built).steps c.source
            (d.log.between c.tokenCount d.tokenCount)
          (∀ n, Adds f outer built (.node (.numeric n)) outcome ↔ value = .ok n) ∧
          ∀ fault, outcome = .error (.invalidLiteral .numeric (String.ofList t) fault) ↔
            value = .error fault) := by
  obtain ⟨d, res, hd, hres, hmatch⟩ := exists_attempt hc hp .numeric
  refine ⟨res.isSome, d, hd, ?_⟩
  cases res with
  | none =>
      have hnone : ¬ ∃ t ∈ numerals, t <+: restFrom c.source p := by
        rintro ⟨t, ht, hstart⟩
        exact munches_numeric.not_prefix _ hres t ht hstart
      exact ⟨iff_of_false nofun hnone, nofun⟩
  | some m =>
      obtain ⟨w, rest⟩ := m
      obtain ⟨hposition, htokens⟩ := hmatch w rest rfl
      have hlongest := munches_numeric.isLongest _ w rest hres
      refine ⟨iff_of_true rfl ⟨w.chars, hlongest.mem, hlongest.isPrefix⟩, fun _ => ?_⟩
      refine ⟨w.chars, readNumeral w.chars, hlongest, hposition, isReadAs_of_mem hlongest.mem, ?_⟩
      intro f outer captured built
      rw [htokens]
      exact steps_numeric hres c.depth f outer captured built

/-- The point belongs to the number, but the letter after it begins no exponent. The mark that the
scientific form has left behind does not count. -/
theorem numeric_matches_longest_without_exponent :
    let c := Cursor.ofString "a=1.e" 4
    ∃ d x, (Pattern.call .numeric).eval (Grammar.rift.run (Grammar.callBound c.source.size))
      { c with position := 2 }
        = some (true, d) ∧
      d.position = 4 ∧
      Adds (.begin .tuple 0) [] [] (.node (.numeric (.decimal x)))
        ((Replay.mk [.begin .tuple 0] none []).steps c.source
          (d.log.between c.tokenCount d.tokenCount)) := by
  intro c
  have hc : c.Reliable Grammar.rift Grammar.body := Cursor.reliable_ofChars _ 4
  obtain ⟨matched, d, hd, -, hmatch⟩ := numeric_matches_longest (p := 2) hc (by decide)
  have hcheck : ((Pattern.call .numeric).eval (Grammar.rift.run (Grammar.callBound c.source.size))
      { c with position := 2 }).map (fun result => (result.1, result.2.position)) =
        some (true, 4) := by
    decide +kernel
  rw [hd] at hcheck
  obtain ⟨rfl, hposition⟩ : matched = true ∧ d.position = 4 := Prod.mk.inj (Option.some.inj hcheck)
  obtain ⟨t, value, hlongest, hstop, hread, hreplay⟩ := hmatch rfl
  have ht : t = ['1', '.'] := by
    have hlength : t.length = 2 := by omega
    have hstart : t = (restFrom c.source 2).take t.length :=
      List.prefix_iff_eq_take.1 hlongest.isPrefix
    rw [hlength] at hstart
    exact hstart
  obtain ⟨x, -, hx⟩ := hread.decimal.2 (by rw [ht]; decide)
  exact ⟨d, x, hd, hposition, ((hreplay _ _ _ _).1 _).2 hx⟩

end RiftLang
