import RiftLang.Proofs.Layout.Text

/-!
# Texts that mirror each other

Two texts that differ only in the layout between their words, and in what comes after the brace that
closes them.

* `parses_string_append` — a string is read without a look past its closing quote.
* `Mirrors` — such texts, with the number of braces that are still to be closed.
* `Mirrors.of_char`, `of_opening`, `of_closing`, `solid_or`, `quoted_or` — what one text begins with
  shows on the other.
-/

namespace RiftLang

open Peg

/-! ## Strings -/

section strings

variable {s s' : List Char} {d : Derivation}

/-- A character of a string is read without a look at what follows it. -/
theorem parses_stringChar_append (h : Parses table (.call .stringChar) s (some (d, s')))
    (u : List Char) :
    Parses table (.call .stringChar) (d.chars ++ u) (some (d, u)) := by
  obtain ⟨body, hbody, rfl⟩ := parses_call_iff.1 h
  refine .call ?_
  rcases parses_choice_iff.1 hbody with hescape | ⟨-, hplain⟩
  · obtain ⟨escape, hescape', rfl⟩ := parses_call_iff.1 hescape
    obtain ⟨mark, s₁, tail, hmark, htail, rfl⟩ := parses_seq_iff.1 hescape'
    obtain ⟨letter, s₂, last, hletter, hlast, rfl⟩ := parses_seq_iff.1 htail
    obtain ⟨rfl, -⟩ := parses_empty_iff.1 hlast
    obtain ⟨c, -, hc, rfl⟩ := parses_one_iff.1 hmark
    obtain ⟨c', -, hc', rfl⟩ := parses_one_iff.1 hletter
    exact .choice_left (.call (.seq (.one hc) (.seq (.one hc') .empty)))
  · obtain ⟨none', s₁, tail, habsent, htail, rfl⟩ := parses_seq_iff.1 hplain
    obtain ⟨letter, s₂, last, hletter, hlast, rfl⟩ := parses_seq_iff.1 htail
    obtain ⟨rfl, -⟩ := parses_empty_iff.1 hlast
    obtain ⟨hnone, rfl, rfl⟩ := parses_absent_iff.1 habsent
    obtain ⟨c, rfl, hc, rfl⟩ := parses_one_iff.1 hletter
    have htest : (['\\', '\n', '"'].contains c) = false := by
      cases hnone with
      | one_fail hnone => exact hnone c rfl
    have hescape : Parses table (.call .stringEscape) (c :: u) none := by
      refine .call_fail (.seq_fail_left (.one_fail (forall_mem_head_cons (beq_false_of_ne ?_))))
      rintro rfl
      cases htest
    exact .choice_right hescape (.seq (.absent (.one_fail (forall_mem_head_cons htest)))
      (.seq (.one rfl) .empty))

/-- The inside of a string is read as before if a quote and any other text follow it. -/
theorem parses_stringChars_append (h : Parses table (.star (.call .stringChar)) s (some (d, s')))
    (u : List Char) :
    Parses table (.star (.call .stringChar)) (d.chars ++ '"' :: u) (some (d, '"' :: u)) := by
  have hchain := chain_of_parses h
  clear h
  induction hchain with
  | nil _ =>
      have hescape : Parses table (.call .stringEscape) ('"' :: u) none :=
        parses_none_of_failsAt (by rfl)
      exact .star_stop
        (.call_fail (.choice_right hescape (.seq_fail_left (.absent_fail (.one rfl)))))
  | cons hitem _ ih =>
      rw [Derivation.chars, List.append_assoc]
      exact .star (parses_stringChar_append hitem.1 _) ih

/-- A string is read without a look past its closing quote. -/
theorem parses_string_append (h : Parses table (.call .string) s (some (d, s'))) (u : List Char) :
    Parses table (.call .string) (d.chars ++ u) (some (d, u)) := by
  obtain ⟨body, hbody, rfl⟩ := parses_call_iff.1 h
  obtain ⟨begin, s₁, tail₁, hbegin, htail₁, rfl⟩ := parses_seq_iff.1 hbody
  obtain ⟨quote, s₂, tail₂, hquote, htail₂, rfl⟩ := parses_seq_iff.1 htail₁
  obtain ⟨text, s₃, tail₃, htext, htail₃, rfl⟩ := parses_seq_iff.1 htail₂
  obtain ⟨quote', s₄, tail₄, hquote', htail₄, rfl⟩ := parses_seq_iff.1 htail₃
  obtain ⟨attach, s₅, tail₅, hattach, htail₅, rfl⟩ := parses_seq_iff.1 htail₄
  obtain ⟨finish, s₆, last, hfinish, hlast, rfl⟩ := parses_seq_iff.1 htail₅
  obtain ⟨rfl, -⟩ := parses_action_iff.1 hbegin
  obtain ⟨rfl, -⟩ := parses_action_iff.1 hattach
  obtain ⟨rfl, -⟩ := parses_action_iff.1 hfinish
  obtain ⟨rfl, -⟩ := parses_empty_iff.1 hlast
  obtain ⟨c, -, hc, rfl⟩ := parses_one_iff.1 hquote
  obtain ⟨c', -, hc', rfl⟩ := parses_one_iff.1 hquote'
  obtain rfl : c = '"' := eq_of_beq hc
  obtain rfl : c' = '"' := eq_of_beq hc'
  obtain ⟨chars, hchars, rfl⟩ := parses_text_iff.1 htext
  have hclosed : Parses table (seqs [.char '"', .action .attach, .action .finish]) ('"' :: u) _ :=
    .seq (.one hc') (.seq .action (.seq .action .empty))
  have hall : Parses table (.call .string) ('"' :: (chars.chars ++ '"' :: u)) _ :=
    .call (.seq .action (.seq (.one hc)
      (.seq (.text (parses_stringChars_append hchars u)) hclosed)))
  simpa [Derivation.chars] using hall

/-- A string begins with a quote. -/
theorem head_of_parses_string (h : Parses table (.call .string) s (some (d, s'))) :
    s.head? = some '"' := by
  obtain ⟨body, hbody, rfl⟩ := parses_call_iff.1 h
  obtain ⟨begin, s₁, tail₁, hbegin, htail₁, rfl⟩ := parses_seq_iff.1 hbody
  obtain ⟨quote, s₂, tail₂, hquote, -, rfl⟩ := parses_seq_iff.1 htail₁
  obtain ⟨-, rfl⟩ := parses_action_iff.1 hbegin
  obtain ⟨c, rfl, hc, -⟩ := parses_one_iff.1 hquote
  exact congrArg some (eq_of_beq hc)

/-- Where there is no quote there is no string. -/
theorem parses_string_none (h : s.head? ≠ some '"') : Parses table (.call .string) s none := by
  refine .call_fail (takes_action.seq_none
    (.seq_fail_left (.one_fail fun c hc => beq_false_of_ne ?_)))
  rintro rfl
  exact h hc

end strings

/-! ## Blanks and comments -/

section space

variable {s u : List Char} {d : Derivation} {r : Rule}

/-- Where something is read as layout the text begins with it. -/
theorem not_solid_of_parses (h : Parses table sp s (some (d, u))) (hd : d.chars ≠ []) :
    ¬ Solid s := by
  intro hs
  obtain ⟨d', hd', -⟩ := takes_sp hs
  cases h.unique hd'
  exact hd (List.append_cancel_right (hd'.eq_append.symm.trans (List.nil_append s).symm))

/-- Where there is some layout both rules for it read the same. -/
theorem exists_parses_of_sp (hr : r.isSpace = true) (h : Parses table sp s (some (d, u)))
    (hd : d.chars ≠ []) :
    ∃ d', Parses table (.call r) s (some (d', u)) := by
  cases r with
  | space => exact ⟨d, h⟩
  | someSpace =>
      obtain ⟨body, hbody, rfl⟩ := parses_call_iff.1 h
      cases hbody with
      | star_stop _ => exact absurd rfl hd
      | star hfirst hrest => exact ⟨_, .call (.plus hfirst hrest)⟩
  | _ => cases hr

/-- What the one rule for layout reads the other reads, too. -/
theorem exists_parses_sp (hr : r.isSpace = true) (h : Parses table (.call r) s (some (d, u))) :
    ∃ d', Parses table sp s (some (d', u)) := by
  cases r with
  | space => exact ⟨d, h⟩
  | someSpace =>
      obtain ⟨body, hbody, rfl⟩ := parses_call_iff.1 h
      obtain ⟨d₁, s₁, d₂, hfirst, hrest, rfl⟩ := parses_plus_iff.1 hbody
      exact ⟨_, .call (.star hfirst hrest)⟩
  | _ => cases hr

/-- Where there is no layout a rule for it either always fails or always takes nothing. -/
theorem parses_space_of_solid (hr : r.isSpace = true) :
    (∀ s, Solid s → Parses table (.call r) s none) ∨ ∀ s, Solid s →
      ∃ d, Parses table (.call r) s (some (d, s)) := by
  cases r with
  | space =>
      refine .inr fun s hs => ?_
      obtain ⟨d, hd, -⟩ := takes_sp hs
      exact ⟨d, hd⟩
  | someSpace => exact .inl fun s hs => .call_fail (.plus_fail (parses_blank_none hs))
  | _ => cases hr

end space

/-! ## Texts that mirror each other -/

/-- The characters that do not stand for themselves: layout, quotes and braces. -/
def markers : List Char :=
  [' ', '\t', '\r', '\n', '#', '"', '{', '}']

/-- A character that is no marker is not layout. -/
theorem solid_of_not_mem_markers {c : Char} {s : List Char} (hc : c ∉ markers) :
    Solid (c :: s) := by
  refine solid_cons ?_ ?_
  · simp only [markers, List.mem_cons, not_or] at hc
    simp only [isBlank, Bool.or_eq_false_iff, beq_eq_false_iff_ne]
    exact ⟨⟨⟨hc.1, hc.2.1⟩, hc.2.2.1⟩, hc.2.2.2.1⟩
  · rintro rfl
    exact hc (by decide)

/-- The texts are alike up to the places where so many braces have been closed, or up to their ends:
words and strings are the same, and where there is layout in one there is some in the other. After
the last brace come `v` and `v'`. -/
inductive Mirrors (v v' : List Char) : Nat → List Char → List Char → Prop where
  /-- All braces are closed, and the texts after the last one follow. -/
  | outside : Mirrors v v' 0 v v'
  /-- Both texts end with braces still to be closed. -/
  | finish {n : Nat} : Mirrors v v' (n + 1) [] []
  /-- The same character, which stands for itself. -/
  | char {n : Nat} {c : Char} {s s' : List Char} (hc : c ∉ markers)
    (h : Mirrors v v' (n + 1) s s') :
      Mirrors v v' (n + 1) (c :: s) (c :: s')
  /-- A brace is opened. -/
  | opening {n : Nat} {s s' : List Char} (h : Mirrors v v' (n + 2) s s') :
      Mirrors v v' (n + 1) ('{' :: s) ('{' :: s')
  /-- A brace is closed. -/
  | closing {n : Nat} {s s' : List Char} (h : Mirrors v v' n s s') :
      Mirrors v v' (n + 1) ('}' :: s) ('}' :: s')
  /-- The same string. Braces and layout in it stand for themselves. -/
  | quoted {n : Nat} {s s' u u' : List Char} {d : Derivation}
    (hs : Parses table (.call .string) s (some (d, u)))
    (hs' : Parses table (.call .string) s' (some (d, u'))) (h : Mirrors v v' (n + 1) u u') :
      Mirrors v v' (n + 1) s s'
  /-- Layout in both texts, not necessarily the same. -/
  | layout {n : Nat} {s s' u u' : List Char} {d d' : Derivation}
    (hs : Parses table sp s (some (d, u))) (hs' : Parses table sp s' (some (d', u')))
    (hd : d.chars ≠ []) (hd' : d'.chars ≠ []) (h : Mirrors v v' (n + 1) u u') :
      Mirrors v v' (n + 1) s s'

namespace Mirrors

variable {v v' s s' : List Char} {n : Nat} {c : Char}

/-- Texts mirror each other, with the two ends exchanged. -/
theorem symm (h : Mirrors v v' n s s') : Mirrors v' v n s' s := by
  induction h with
  | outside => exact .outside
  | finish => exact .finish
  | char hc _ ih => exact .char hc ih
  | opening _ ih => exact .opening ih
  | closing _ ih => exact .closing ih
  | quoted hs hs' _ ih => exact .quoted hs' hs ih
  | layout hs hs' hd hd' _ ih => exact .layout hs' hs hd' hd ih

/-- Outside of all braces nothing is known but where that is. -/
theorem of_outside (h : Mirrors v v' 0 s s') : s = v ∧ s' = v' := by
  cases h with
  | outside => exact ⟨rfl, rfl⟩

/-- A text that begins neither with layout nor with a string goes on with the same character as the
other. -/
theorem of_cons (h : Mirrors v v' (n + 1) (c :: s) s') (hquote : c ≠ '"')
    (hsolid : Solid (c :: s)) :
    ∃ u, s' = c :: u ∧
      (c ∉ markers ∧ Mirrors v v' (n + 1) s u ∨ c = '{' ∧ Mirrors v v' (n + 2) s u ∨
        c = '}' ∧ Mirrors v v' n s u) := by
  cases h with
  | char hc h => exact ⟨_, rfl, .inl ⟨hc, h⟩⟩
  | opening h => exact ⟨_, rfl, .inr (.inl ⟨rfl, h⟩)⟩
  | closing h => exact ⟨_, rfl, .inr (.inr ⟨rfl, h⟩)⟩
  | quoted hs _ _ => exact absurd (Option.some.inj (head_of_parses_string hs)) hquote
  | layout hs _ hd _ _ => exact absurd hsolid (not_solid_of_parses hs hd)

/-- A character of a word is in both texts. -/
theorem of_char (h : Mirrors v v' (n + 1) (c :: s) s') (hc : c ∉ markers) :
    ∃ u, s' = c :: u ∧ Mirrors v v' (n + 1) s u := by
  have hquote : c ≠ '"' := (ne_of_mem_of_not_mem (by decide) hc).symm
  obtain ⟨u, rfl, ⟨-, h⟩ | ⟨rfl, -⟩ | ⟨rfl, -⟩⟩ := h.of_cons hquote (solid_of_not_mem_markers hc)
  · exact ⟨u, rfl, h⟩
  · exact absurd (by decide) hc
  · exact absurd (by decide) hc

/-- An opening brace is mirrored by one, and one brace more is to be closed on both sides. -/
theorem of_opening (h : Mirrors v v' (n + 1) ('{' :: s) s') :
    ∃ u, s' = '{' :: u ∧ Mirrors v v' (n + 2) s u := by
  obtain ⟨u, rfl, ⟨hc, -⟩ | ⟨-, h⟩ | ⟨hc, -⟩⟩ := h.of_cons (by decide) (solid_cons rfl (by decide))
  · exact absurd (by decide) hc
  · exact ⟨u, rfl, h⟩
  · cases hc

/-- A closing brace is mirrored by one, and one brace less is to be closed on both sides. -/
theorem of_closing (h : Mirrors v v' (n + 1) ('}' :: s) s') :
    ∃ u, s' = '}' :: u ∧ Mirrors v v' n s u := by
  obtain ⟨u, rfl, ⟨hc, -⟩ | ⟨hc, -⟩ | ⟨-, h⟩⟩ := h.of_cons (by decide) (solid_cons rfl (by decide))
  · exact absurd (by decide) hc
  · cases hc
  · exact ⟨u, rfl, h⟩

/-- A word is in both texts. -/
theorem of_word {cs : List Char} (h : Mirrors v v' (n + 1) (cs ++ s) s')
    (hcs : ∀ c ∈ cs, c ∉ markers) :
    ∃ u, s' = cs ++ u ∧ Mirrors v v' (n + 1) s u := by
  induction cs generalizing s' with
  | nil => exact ⟨s', rfl, h⟩
  | cons c cs ih =>
      obtain ⟨hc, hcs⟩ := List.forall_mem_cons.1 hcs
      obtain ⟨u, rfl, htail⟩ := h.of_char hc
      obtain ⟨u, rfl, hrest⟩ := ih htail hcs
      exact ⟨u, rfl, hrest⟩

/-- The same characters, none of them a marker, may be put in front of texts that mirror each
other. -/
theorem word {cs : List Char} (hcs : ∀ c ∈ cs, c ∉ markers) (h : Mirrors v v' (n + 1) s s') :
    Mirrors v v' (n + 1) (cs ++ s) (cs ++ s') := by
  induction cs with
  | nil => exact h
  | cons c cs ih =>
      obtain ⟨hc, hcs⟩ := List.forall_mem_cons.1 hcs
      exact .char hc (ih hcs)

/-- Either both texts begin with layout, or neither does. -/
theorem solid_or (h : Mirrors v v' (n + 1) s s') :
    Solid s ∧ Solid s' ∨ ∃ d u d' u', Parses table sp s (some (d, u)) ∧
      Parses table sp s' (some (d', u')) ∧
      d.chars ≠ [] ∧ d'.chars ≠ [] ∧ Mirrors v v' (n + 1) u u' := by
  have hquoted : ∀ {s u : List Char} {d : Derivation},
      Parses table (.call .string) s (some (d, u)) → Solid s := by
    intro s u d hs
    cases s with
    | nil => exact solid_nil
    | cons c s =>
        obtain rfl := Option.some.inj (head_of_parses_string hs)
        exact solid_cons rfl (by decide)
  cases h with
  | finish => exact .inl ⟨solid_nil, solid_nil⟩
  | char hc _ => exact .inl ⟨solid_of_not_mem_markers hc, solid_of_not_mem_markers hc⟩
  | opening _ => exact .inl ⟨solid_cons rfl (by decide), solid_cons rfl (by decide)⟩
  | closing _ => exact .inl ⟨solid_cons rfl (by decide), solid_cons rfl (by decide)⟩
  | quoted hs hs' _ => exact .inl ⟨hquoted hs, hquoted hs'⟩
  | layout hs hs' hd hd' h => exact .inr ⟨_, _, _, _, hs, hs', hd, hd', h⟩

/-- Where one text does not begin with layout, neither does the other. -/
theorem solid (h : Mirrors v v' (n + 1) s s') (hs : Solid s) : Solid s' := by
  rcases h.solid_or with ⟨-, hs'⟩ | ⟨_, _, _, _, hsp, -, hd, -⟩
  · exact hs'
  · exact absurd hs (not_solid_of_parses hsp hd)

/-- Either the same string is read at the beginning of both texts, or neither begins with a
quote. -/
theorem quoted_or (h : Mirrors v v' (n + 1) s s') :
    (∃ d u u', Parses table (.call .string) s (some (d, u)) ∧
      Parses table (.call .string) s' (some (d, u')) ∧
      Mirrors v v' (n + 1) u u') ∨ s.head? ≠ some '"' ∧ s'.head? ≠ some '"' := by
  have hchar : ∀ {c : Char} {s : List Char}, c ∉ markers → (c :: s).head? ≠ some '"' := by
    rintro c s hc ⟨⟩
    exact hc (by decide)
  have hlayout : ∀ {s u : List Char} {d : Derivation}, Parses table sp s (some (d, u)) →
      d.chars ≠ [] →
      s.head? ≠ some '"' := by
    intro s u d hs hd hquote
    refine not_solid_of_parses hs hd fun c hc => ?_
    obtain rfl := Option.some.inj (hquote.symm.trans hc)
    decide
  cases h with
  | finish => exact .inr ⟨by simp, by simp⟩
  | char hc _ => exact .inr ⟨hchar hc, hchar hc⟩
  | opening _ => exact .inr ⟨by simp, by simp⟩
  | closing _ => exact .inr ⟨by simp, by simp⟩
  | quoted hs hs' h => exact .inl ⟨_, _, _, hs, hs', h⟩
  | layout hs hs' hd hd' _ => exact .inr ⟨hlayout hs hd, hlayout hs' hd'⟩

/-- Inside of braces both texts end together. -/
theorem eq_nil (h : Mirrors v v' (n + 1) [] s') : s' = [] := by
  cases h with
  | finish => rfl
  | quoted hs _ _ => cases head_of_parses_string hs
  | layout hs _ hd _ _ => exact absurd solid_nil (not_solid_of_parses hs hd)

end Mirrors

end RiftLang
