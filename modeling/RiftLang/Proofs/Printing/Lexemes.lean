import RiftLang.Proofs.Literal
import RiftLang.Proofs.Meaning.Takes
import RiftLang.Proofs.Peg.Glance
import RiftLang.Proofs.Printing

/-!
# Printed words

Blanks, names and literals are read back where nothing that would go on with them follows.

* `Solid`, `afterBlanks` — what comes after blanks.
* `IsWord`, `takes_name` — names; `Keyword` — why a name is not taken for a word of the language.
* `takes_string`, `takes_numeric`, `takes_boolean` — literals.
-/

namespace RiftLang

open Peg

variable {s rest : List Char}

/-! ## Blanks -/

/-- The text begins neither with a blank nor with a comment. -/
def Solid (s : List Char) : Prop :=
  ∀ c ∈ s.head?, isBlank c = false ∧ c ≠ '#'

/-- What is left of a text after its blanks. -/
def afterBlanks (s : List Char) : List Char :=
  s.dropWhile isBlank

/-- A blank at the front is one of the blanks. -/
@[simp] theorem afterBlanks_cons {c : Char} (hc : isBlank c = true) :
    afterBlanks (c :: s) = afterBlanks s :=
  List.dropWhile_cons_of_pos hc

/-- A text that does not begin with a blank has none to drop. -/
theorem afterBlanks_solid (h : Solid s) : afterBlanks s = s := by
  cases s with
  | nil => rfl
  | cons c s => exact List.dropWhile_cons_of_neg (by simpa using (h c rfl).1)

/-- A character that is neither blank nor the beginning of a comment is not layout. -/
theorem solid_cons {c : Char} (hc : isBlank c = false) (hne : c ≠ '#') : Solid (c :: s) :=
  forall_mem_head_cons ⟨hc, hne⟩

/-- The choice of blanks is one test. -/
theorem oneOf_blank : oneOf [' ', '\t', '\r', '\n'] = .one isBlank :=
  congrArg Peg.one (Pattern.one.inj pattern_blank)

/-- A blank is taken as layout. -/
theorem takes_blank {c : Char} (hc : isBlank c = true) :
    Takes (.choice (.call .blank) (.call .comment)) (c :: s) [] s := by
  have hblank : Takes (oneOf [' ', '\t', '\r', '\n']) (c :: s) [] s := by
    rw [oneOf_blank]
    exact takes_one hc
  exact (Takes.call (r := .blank) hblank rfl).choice_left

/-- No layout is read where a text begins neither with a blank nor with a comment. -/
theorem parses_blank_none (h : Solid s) :
    Parses table (.choice (.call .blank) (.call .comment)) s none := by
  refine .choice_right (.call_fail ?_) (.call_fail (.seq_fail_left ?_))
  · show Parses table (oneOf [' ', '\t', '\r', '\n']) _ _
    rw [oneOf_blank]
    exact .one_fail fun c hc => (h c hc).1
  · exact .one_fail fun c hc => by simpa using (h c hc).2

/-- Blanks are taken as layout, up to such a text. -/
theorem takes_blanks {ws : List Char} (hws : ∀ c ∈ ws, isBlank c = true) (h : Solid s) :
    Takes (.star (.choice (.call .blank) (.call .comment))) (ws ++ s) [] s := by
  induction ws with
  | nil => exact takes_star_nil (parses_blank_none h)
  | cons c ws ih =>
      have hrest := ih fun c hc => hws c (List.mem_cons_of_mem _ hc)
      exact (takes_blank (hws c List.mem_cons_self)).star_cons hrest

/-- The same, where layout may but need not be. -/
theorem takes_sp_append {ws : List Char} (hws : ∀ c ∈ ws, isBlank c = true) (h : Solid s) :
    Takes sp (ws ++ s) [] s :=
  Takes.call (r := .space) (takes_blanks hws h) rfl

/-- Where it may but need not be, layout is not missed. -/
theorem takes_sp (h : Solid s) : Takes sp s [] s :=
  takes_sp_append (List.forall_mem_nil _) h

/-- A single blank is taken there. -/
theorem takes_sp_blank {c : Char} (hc : isBlank c = true) (h : Solid s) : Takes sp (c :: s) [] s :=
  takes_sp_append (List.forall_mem_singleton.2 hc) h

/-- All blanks are taken there, unless a comment follows them. -/
theorem takes_sp_afterBlanks (h : (afterBlanks s).head? ≠ some '#') :
    Takes sp s [] (afterBlanks s) := by
  have hsolid : Solid (afterBlanks s) := by
    intro c hc
    refine ⟨?_, fun hne => h (hne ▸ hc)⟩
    have hhead := List.head?_dropWhile_not isBlank s
    rw [show s.dropWhile isBlank = afterBlanks s from rfl, hc] at hhead
    simpa using hhead
  have hsplit : s = s.takeWhile isBlank ++ afterBlanks s := List.takeWhile_append_dropWhile.symm
  have htake : Takes sp (s.takeWhile isBlank ++ afterBlanks s) [] (afterBlanks s) :=
    takes_sp_append (List.all_eq_true.1 List.all_takeWhile) hsolid
  rwa [← hsplit] at htake

/-- A single blank is taken where there must be layout. -/
theorem takes_someSpace {c : Char} (hc : isBlank c = true) (h : Solid s) :
    Takes (.call .someSpace) (c :: s) [] s :=
  Takes.call (r := .someSpace) ((takes_blank hc).plus (takes_blanks (List.forall_mem_nil _) h)) rfl

/-! ## Names -/

/-- A plain name, perhaps with an `@` before it. -/
def IsWord (cs : List Char) : Prop :=
  isPlainName cs = true ∨ ∃ cs', cs = '@' :: cs' ∧ isPlainName cs' = true

/-- The text does not go on with a name. -/
def EndsName (s : List Char) : Prop :=
  ∀ c ∈ s.head?, isNameChar c = false

/-- The choice of characters that may begin a name, as one test. -/
theorem nameStart_eq : nameStart = .one isNameStart :=
  congrArg Peg.one (Pattern.one.inj pattern_nameStart)

/-- The choice of characters that may go on with a name, as one test. -/
theorem nameChar_eq : nameChar = .one isNameChar :=
  congrArg Peg.one (Pattern.one.inj pattern_nameChar)

/-- Characters that pass a test are taken by its repetition, up to one that does not. -/
theorem takes_star_one {test : Char → Bool} {cs : List Char} (hcs : ∀ c ∈ cs, test c = true)
    (hrest : ∀ c ∈ rest.head?, test c = false) :
    Takes (.star (.one test)) (cs ++ rest) [] rest := by
  induction cs with
  | nil => exact takes_star_nil (.one_fail hrest)
  | cons c cs ih =>
      have htail := ih fun c hc => hcs c (List.mem_cons_of_mem _ hc)
      exact (takes_one (hcs c List.mem_cons_self)).star_cons htail

/-- A plain name has a first character, and the others after it. -/
theorem exists_of_isPlainName {cs : List Char} (h : isPlainName cs = true) :
    ∃ c cs', cs = c :: cs' ∧ isNameStart c = true ∧ ∀ c ∈ cs', isNameChar c = true := by
  cases cs with
  | nil => cases h
  | cons c cs =>
      obtain ⟨hc, hcs⟩ := Bool.and_eq_true_iff.1 h
      exact ⟨c, cs, rfl, hc, List.all_eq_true.1 hcs⟩

/-- A character that may begin a name may go on with one. -/
theorem isNameChar_of_isNameStart {c : Char} (h : isNameStart c = true) : isNameChar c = true := by
  simp only [isNameStart, isNameChar, Char.isAlphanum, Bool.or_eq_true] at h ⊢
  tauto

/-- The characters of names are none of the others. -/
theorem ne_of_isNameChar {c d : Char} (h : isNameChar c = true) (hd : isNameChar d = false) :
    c ≠ d := by
  rintro rfl
  exact absurd (h.symm.trans hd) (by simp)

/-- A text that begins with a character of a name begins neither with a blank nor with a comment. -/
theorem solid_of_isNameChar {c : Char} (h : isNameChar c = true) : Solid (c :: s) := by
  refine solid_cons ?_ (ne_of_isNameChar h rfl)
  simp only [isBlank, beq_false_of_ne (ne_of_isNameChar h (d := ' ') rfl),
    beq_false_of_ne (ne_of_isNameChar h (d := '\t') rfl),
    beq_false_of_ne (ne_of_isNameChar h (d := '\r') rfl),
    beq_false_of_ne (ne_of_isNameChar h (d := '\n') rfl), Bool.or_false]

/-- A word begins with one of the characters that names begin with. -/
theorem IsWord.head_mem {cs : List Char} (h : IsWord cs) (u : List Char) :
    ∃ c ∈ nameFirsts, (cs ++ u).head? = some c := by
  rcases h with h | ⟨cs, rfl, -⟩
  · obtain ⟨c, cs, rfl, hc, -⟩ := exists_of_isPlainName h
    exact ⟨c, mem_nameFirsts (.inr hc), rfl⟩
  · exact ⟨'@', mem_nameFirsts (.inl rfl), rfl⟩

/-- A head that is one of some characters is one of the heads that they make. -/
theorem mem_map_some {nexts : List Char} {next : Option Char} (h : ∃ c ∈ nexts, next = some c) :
    next ∈ nexts.map some := by
  obtain ⟨c, hc, rfl⟩ := h
  exact List.mem_map_of_mem hc

/-- A plain name is taken up to where it ends. -/
theorem takes_plainName {cs : List Char} (h : isPlainName cs = true) (hrest : EndsName rest) :
    Takes (seqs [nameStart, .star nameChar]) (cs ++ rest) [] rest := by
  obtain ⟨c, cs, rfl, hc, hcs⟩ := exists_of_isPlainName h
  rw [nameStart_eq, nameChar_eq]
  exact (takes_one hc).after (takes_star_one hcs hrest).last

/-- A word is taken as a name up to where it ends, reserved or not, and stands for its text. -/
theorem takes_word_name {cs : List Char} (h : IsWord cs) (hrest : EndsName rest) :
    Takes (.call .name) (cs ++ rest) [.text (String.ofList cs)] rest := by
  have hname : Takes (seqs [opt (.char '@'), nameStart, .star nameChar]) (cs ++ rest) [] rest := by
    rcases h with h | ⟨cs, rfl, h⟩
    · have hfail : Parses table (.char '@') (cs ++ rest) none := by
        obtain ⟨c, cs, rfl, hc, -⟩ := exists_of_isPlainName h
        refine .one_fail (forall_mem_head_cons (beq_false_of_ne ?_))
        rintro rfl
        cases hc
      exact (takes_opt_none hfail).after (takes_plainName h hrest)
    · exact (takes_char '@' _).opt.after (takes_plainName h hrest)
  exact Takes.call (r := .name) hname.text rfl

/-- A name is a word. -/
theorem isWord_of_isName {name : String} (h : isName name = true) : IsWord name.toList := by
  unfold isName at h
  split at h
  · next cs heq => exact .inr ⟨cs, heq, h⟩
  · exact .inl (Bool.and_eq_true_iff.1 h).1

/-- A name is not reserved. -/
theorem not_mem_reservedWords {name : String} (h : isName name = true) :
    name.toList ∉ reservedWords := by
  unfold isName at h
  split at h
  · next cs heq =>
      rw [heq]
      simp [reservedWords]
  · have hnot := (Bool.and_eq_true_iff.1 h).2
    simpa using hnot

/-- A name is taken up to where it ends, and stands for itself. -/
theorem takes_name {name : String} (h : isName name = true) (hrest : EndsName rest) :
    Takes (.call .name) (name.toList ++ rest) [.text name] rest := by
  have htake := takes_word_name (isWord_of_isName h) hrest
  rwa [String.ofList_toList] at htake

/-! ## Words of the language -/

/-- Behind its first character a word goes on with characters of names. -/
theorem IsWord.isNameChar_of_mem_tail {cs : List Char} (h : IsWord cs) {c : Char}
    (hc : c ∈ cs.tail) :
    isNameChar c = true := by
  rcases h with h | ⟨cs, rfl, h⟩
  · obtain ⟨c', cs, rfl, -, hcs⟩ := exists_of_isPlainName h
    exact hcs c hc
  · obtain ⟨c', cs, rfl, hc', hcs⟩ := exists_of_isPlainName h
    rcases List.mem_cons.1 hc with rfl | hc
    · exact isNameChar_of_isNameStart hc'
    · exact hcs c hc

/-- Where a name that is not a given word stands, the word does not, or a name goes on after it. -/
theorem IsWord.not_keyword {w : String} (hw : w.toList.all isNameChar = true) (hpos : w.toList ≠ [])
    {cs : List Char} (h : IsWord cs) (hne : cs ≠ w.toList) (hrest : EndsName rest) :
    Parses table (.word w) (cs ++ rest) none ∨
      ∃ c u, cs ++ rest = w.toList ++ c :: u ∧ isNameChar c = true := by
  by_cases hprefix : w.toList <+: cs ++ rest
  · right
    obtain ⟨u, hu⟩ := hprefix
    rcases List.append_eq_append_iff.1 hu with ⟨v, hcs, hv⟩ | ⟨v, hword, hv⟩
    · cases v with
      | nil => exact absurd (by simpa using hcs) hne
      | cons c v =>
          refine ⟨c, v ++ rest, by simp [hcs], h.isNameChar_of_mem_tail ?_⟩
          obtain ⟨c', cs', hcons⟩ := List.exists_cons_of_ne_nil hpos
          rw [hcs, hcons]
          simp
    · cases v with
      | nil => exact absurd (by simpa using hword.symm) hne
      | cons c v =>
          have hc : isNameChar c = true := List.all_eq_true.1 hw c (by simp [hword])
          have hend : isNameChar c = false := hrest c (by simp [hv])
          exact absurd (hc.symm.trans hend) (by simp)
  · exact .inl (.word_fail hprefix)

/-- A word that a name goes on after is none. -/
theorem parses_absent_nameChar {c : Char} (hc : isNameChar c = true) (e : Peg) :
    Parses table (.seq (.absent nameChar) e) (c :: s) none := by
  rw [nameChar_eq]
  exact .seq_fail_left (.absent_fail (.one hc))

/-- Where a name ends, the test that it ends takes nothing. -/
theorem takes_absent_nameChar (h : EndsName s) : Takes (.absent nameChar) s [] s := by
  rw [nameChar_eq]
  exact takes_absent (.one_fail h)

/-- A name other than the two is no boolean. -/
theorem parses_boolean_none {cs : List Char} (h : IsWord cs) (hreserved : cs ∉ reservedWords)
    (hrest : EndsName rest) : Parses table (.call .boolean) (cs ++ rest) none := by
  have htrue := h.not_keyword (w := "true") rfl (by decide)
    (by rintro rfl; exact hreserved (by decide)) hrest
  have hfalse := h.not_keyword (w := "false") rfl (by decide)
    (by rintro rfl; exact hreserved (by decide)) hrest
  refine .call_fail (takes_action.seq_none ?_)
  rcases htrue with htrue | ⟨c, u, hu, hc⟩
  · rcases hfalse with hfalse | ⟨c, u, hu, hc⟩
    · exact .seq_fail_left (.text_fail (.choice_right htrue (.choice_right hfalse .fail)))
    · rw [hu] at htrue ⊢
      exact ((takes_word "false" _).choice_left.choice_right htrue).text.seq_none
        (parses_absent_nameChar hc _)
  · rw [hu]
    exact (takes_word "true" _).choice_left.text.seq_none (parses_absent_nameChar hc _)

/-- A name other than `if` begins no conditional. -/
theorem parses_conditional_none {cs : List Char} (h : IsWord cs) (hif : cs ≠ ['i', 'f'])
    (hrest : EndsName rest) : Parses table (.call .conditional) (cs ++ rest) none := by
  refine .call_fail (takes_action.seq_none ?_)
  rcases h.not_keyword (w := "if") rfl (by decide) hif hrest with hnone | ⟨c, u, hu, hc⟩
  · exact .seq_fail_left hnone
  · rw [hu]
    exact (takes_word "if" _).seq_none (parses_absent_nameChar hc _)

/-! ## References -/

/-- A name without unit is written as it is. -/
theorem Ref.chars_of_isLocal {r : Ref} (h : r.isLocal = true) : r.chars = r.rawName.toList := by
  rw [chars, text, Option.isNone_iff_eq_none.1 h]

/-- A name with a unit is written as the unit, a colon and the name. -/
theorem Ref.chars_qualified (unit rawName : String) :
    Ref.chars ⟨some unit, rawName⟩ ++ rest = unit.toList ++ ':' :: (rawName.toList ++ rest) := by
  simp [chars, text]

/-- A name without unit is taken and attached, and stands for its text. -/
theorem takes_localName {r : Ref} (h : r.isLocalName = true) (hrest : EndsName rest) :
    Takes (seqs [.call .name, .action .attach]) (r.chars ++ rest) [.text r.rawName] rest := by
  obtain ⟨hlocal, hnamed⟩ := Bool.and_eq_true_iff.1 h
  rw [Ref.chars_of_isLocal hlocal]
  exact (takes_name (Bool.and_eq_true_iff.1 hnamed).2 hrest).seq takes_action.last

/-- Any word can be read as a name without unit. -/
theorem takes_localWord {cs : List Char} (h : IsWord cs) (hrest : EndsName rest) :
    Takes (.call .localReference) (cs ++ rest)
      [.node (.reference (.ofName (String.ofList cs)))] rest :=
  Takes.callNode rfl ((takes_word_name h hrest).seq takes_action.last) rfl

/-- A name without unit is the one made of its text: an `@` before it belongs to the name. -/
theorem Ref.ofName_of_isLocalName {r : Ref} (h : r.isLocalName = true) :
    Ref.ofName r.rawName = r := by
  obtain ⟨unit, rawName⟩ := r
  obtain rfl : unit = none := Option.isNone_iff_eq_none.1 (Bool.and_eq_true_iff.1 h).1
  rfl

/-- A name without unit is taken as a reference to it. -/
theorem takes_localReference {r : Ref} (h : r.isLocalName = true) (hrest : EndsName rest) :
    Takes (.call .localReference) (r.chars ++ rest) [.node (.reference r)] rest :=
  Takes.callNode rfl (takes_localName h hrest) (by rw [construct, Ref.ofName_of_isLocalName h])

/-- So is the name of a rift. -/
theorem takes_riftName {r : Ref} (h : r.isLocalName = true) (hrest : EndsName rest) :
    Takes (.call .riftName) (r.chars ++ rest) [.node (.reference r)] rest :=
  Takes.callNode rfl (takes_localName h hrest) (by rw [construct, Ref.ofName_of_isLocalName h])

/-- A name ends before a character that is none of names. -/
theorem endsName_cons {c : Char} (hc : isNameChar c = false) : EndsName (c :: s) :=
  forall_mem_head_cons hc

/-- A word that no colon follows is taken as a reference without unit. -/
theorem takes_wordReference {cs : List Char} (h : IsWord cs) (hrest : EndsName rest)
    (hcolon : rest.head? ≠ some ':') :
    Takes (.call .reference) (cs ++ rest)
      [.node (.reference (.ofName (String.ofList cs)))] rest := by
  have hnone :
      Parses table (seqs [.action (.mark .qualified), .char ':', .call .name, .action .attach])
      rest none := by
    refine takes_action.seq_none (.seq_fail_left (.one_fail fun c hc => beq_false_of_ne ?_))
    rintro rfl
    exact hcolon hc
  exact Takes.callNode rfl
    ((takes_word_name h hrest).seq (takes_action.after (takes_opt_none hnone).last)) rfl

/-- A name with or without unit is taken as a reference, if no colon follows it. -/
theorem takes_reference {r : Ref} (h : r.isNamed = true) (hrest : EndsName rest)
    (hcolon : rest.head? ≠ some ':') :
    Takes (.call .reference) (r.chars ++ rest) [.node (.reference r)] rest := by
  obtain ⟨unit, rawName⟩ := r
  obtain ⟨hunit, hname⟩ := Bool.and_eq_true_iff.1 h
  cases unit with
  | none =>
      have htake := takes_wordReference (isWord_of_isName hname) hrest hcolon
      rwa [String.ofList_toList] at htake
  | some unit =>
      have hqualified :
          Takes (seqs [.action (.mark .qualified), .char ':', .call .name, .action .attach])
          (':' :: (rawName.toList ++ rest)) [.text rawName] rest :=
        takes_action.after ((takes_char ':' _).after
          ((takes_name hname hrest).seq takes_action.last))
      rw [Ref.chars_qualified]
      exact Takes.callNode rfl
        ((takes_name hunit (endsName_cons rfl)).seq (takes_action.after hqualified.opt.last)) rfl

end RiftLang
