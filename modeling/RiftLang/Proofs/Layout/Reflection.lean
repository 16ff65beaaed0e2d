import RiftLang.Proofs.Layout.Mirrors

/-!
# Texts that mirror each other are read alike

An expression comes to the same on both texts, and no attempt inside a pair of braces looks past the
closing one.

* `Peg.Leads` — an expression that begins inside so many braces ends inside so many, looks at no
  character outside of them and does not tell one layout from another.
* `leads_table` — rules do so, apart from those for the insides of strings and of layout.
* `Reflects` — the outcome on a text is the outcome on another, up to layout.
* `Parses.reflects` — it is, if the texts mirror each other. The induction is on the derivation,
  with a lemma for each way in which more than one attempt counts (`Reflects.choice_right`, …).
-/

namespace RiftLang

open Peg

/-! ## Expressions that keep inside of braces -/

/-- How many braces are to be closed after a character that passes the test, if so many are before
it. The test tells no marker apart from other markers, but for one kind of brace. -/
inductive Steps (test : Char → Bool) : Nat → Nat → Prop where
  /-- The test passes no marker. -/
  | stay {n : Nat} (h : ∀ c ∈ markers, test c = false) : Steps test (n + 1) (n + 1)
  /-- It passes the opening brace only. -/
  | opening {n : Nat} (h : ∀ c, test c = true → c = '{') : Steps test (n + 1) (n + 2)
  /-- It passes the closing brace only. -/
  | closing {n : Nat} (h : ∀ c, test c = true → c = '}') : Steps test (n + 1) n

/-- Is the rule one whose text has no words with layout between them? -/
def Rule.isTight : Rule → Bool
  | .name | .string | .stringChar | .stringEscape | .scientific | .decimal | .integer
  | .wholeNumber | .digit | .comment | .blank => true
  | _ => false

/-- Rules for layout in a row are not tight: what they read is layout. -/
theorem isTight_of_isSpace {r : Rule} (hr : r.isSpace = true) : r.isTight = false := by
  cases r <;> first | rfl | cases hr

/-- Is the rule for more than the inside of a string or of layout? -/
def Rule.isBalanced : Rule → Bool
  | .stringChar | .stringEscape | .comment | .blank => false
  | _ => true

namespace Peg

/-- Only rules without layout between words are called. -/
def isTight : Peg → Bool
  | empty | fail | one _ | word _ | action _ | absent _ => true
  | seq a b | choice a b => a.isTight && b.isTight
  | star a | plus a | text a => a.isTight
  | call r => r.isTight

/-- A tight rule calls tight rules only. -/
theorem isTight_table {r : Rule} (h : r.isTight = true) : (table r).isTight = true := by
  cases r <;> first | rfl | cases h

/-- The expression, where it begins with so many braces to be closed, ends with so many to be
closed. It looks at no character outside of them, it does not tell one layout from another, and
texts captured have none. -/
def Leads : Peg → Nat → Nat → Prop
  | empty, i, j | action _, i, j => j = i
  | fail, _, _ => True
  | one test, i, j => Steps test i j
  | word w, i, j => j = i ∧ 0 < i ∧ ∀ c ∈ w.toList, c ∉ markers
  | seq a b, i, j => ∃ k, a.Leads i k ∧ b.Leads k j
  | choice a b, i, j => a.Leads i j ∧ b.Leads i j
  | star a, i, j | plus a, i, j => j = i ∧ a.Leads i i
  -- That there is no character at all shows on either text.
  | absent a, i, j => j = i ∧ ((∃ k, a.Leads i k) ∨ 0 < i ∧ a = any)
  | text a, i, j => a.Leads i j ∧ a.isTight = true
  | call r, i, j => j = i ∧ 0 < i ∧ r.isBalanced = true

/-- The expression has no braces of its own. -/
def isFlat : Peg → Bool
  | empty | fail | action _ => true
  | one test => markers.all fun c => !test c
  | word w => w.toList.all fun c => !markers.contains c
  | seq a b | choice a b => a.isFlat && b.isFlat
  | star a | plus a | absent a => a.isFlat
  | text a => a.isFlat && a.isTight
  | call r => r.isBalanced

/-- An expression without braces of its own ends inside as many braces as it began in. -/
theorem leads_of_isFlat {e : Peg} (h : e.isFlat = true) (n : Nat) : e.Leads (n + 1) (n + 1) := by
  induction e with
  | empty | action _ => rfl
  | fail => trivial
  | one test => exact .stay fun c hc => Bool.not_eq_true' _ ▸ List.all_eq_true.1 h c hc
  | word w => exact ⟨rfl, n.succ_pos, fun c hc => by simpa using List.all_eq_true.1 h c hc⟩
  | seq a b iha ihb =>
      obtain ⟨ha, hb⟩ := Bool.and_eq_true_iff.1 h
      exact ⟨n + 1, iha ha, ihb hb⟩
  | choice a b iha ihb =>
      obtain ⟨ha, hb⟩ := Bool.and_eq_true_iff.1 h
      exact ⟨iha ha, ihb hb⟩
  | star a ih | plus a ih => exact ⟨rfl, ih h⟩
  | absent a ih => exact ⟨rfl, .inl ⟨n + 1, ih h⟩⟩
  | text a ih =>
      obtain ⟨ha, htight⟩ := Bool.and_eq_true_iff.1 h
      exact ⟨ih ha, htight⟩
  | call r => exact ⟨rfl, n.succ_pos, h⟩

/-- An opening brace is one more to be closed. -/
theorem leads_opening (n : Nat) : (char '{').Leads (n + 1) (n + 2) :=
  .opening fun _ hc => eq_of_beq hc

/-- A closing brace is one less to be closed. -/
theorem leads_closing (n : Nat) : (char '}').Leads (n + 1) n :=
  .closing fun _ hc => eq_of_beq hc

/-- The lines of a block, after the brace that opens it. -/
theorem leads_lines (n : Nat) :
    (seqs [sp, star (seqs [call .line, choice (call .someSpace) (ahead (char '}'))]), char '}',
      .action .finish]).Leads (n + 1) n := by
  have hend : (ahead (char '}')).Leads (n + 1) (n + 1) :=
    ⟨rfl, .inl ⟨n + 1, rfl, .inl ⟨n, leads_closing n⟩⟩⟩
  have hspace : (choice (call .someSpace) (ahead (char '}'))).Leads (n + 1) (n + 1) :=
    ⟨leads_of_isFlat rfl n, hend⟩
  exact ⟨n + 1, leads_of_isFlat rfl n, n + 1,
    ⟨rfl, n + 1, leads_of_isFlat rfl n, n + 1, hspace, rfl⟩, n, leads_closing n, n, rfl, rfl⟩

/-- Rules keep inside of the braces around them and close those that they open. -/
theorem leads_table {r : Rule} (hr : r.isBalanced = true) (hspace : r.isSpace = false)
    (hstring : r ≠ .string) (n : Nat) : (table r).Leads (n + 1) (n + 1) := by
  cases r with
  | source =>
      have hend : (absent any).Leads (n + 1) (n + 1) := ⟨rfl, .inr ⟨n.succ_pos, rfl⟩⟩
      exact ⟨n + 1, leads_of_isFlat rfl n, n + 1, leads_of_isFlat rfl n, n + 1, hend, rfl⟩
  | block => exact ⟨n + 1, rfl, n + 2, leads_opening n, leads_lines (n + 1)⟩
  | map =>
      have hitems :
          (opt (seqs [call .mapEntry, star (seqs [sp, char ',', sp, call .mapEntry]), sp])).Leads
            (n + 2)
          (n + 2) := leads_of_isFlat rfl (n + 1)
      exact ⟨n + 1, rfl, n + 2, leads_opening n, n + 2, leads_of_isFlat rfl (n + 1), n + 2,
        hitems, n + 1, leads_closing (n + 1), n + 1, rfl, rfl⟩
  | string => exact absurd rfl hstring
  | space | someSpace => cases hspace
  | stringChar | stringEscape | comment | blank => cases hr
  | _ => exact leads_of_isFlat rfl n

end Peg

/-! ## Outcomes on texts that mirror each other -/

section reflects

variable {v v' s s' : List Char} {i j n : Nat} {e : Peg} {res : Option (Derivation × List Char)}

/-- The derivations stand for the same and, if there is no layout between words, span the same. -/
structure Derivation.Retells (d' d : Derivation) (tight : Bool) : Prop where
  /-- Both stand for the same. -/
  fragments : d'.fragments = d.fragments
  /-- Without layout between words, both span the same. -/
  chars : tight = true → d'.chars = d.chars

namespace Derivation

variable {d d' e e' : Derivation} {tight tight' : Bool}

/-- A derivation retells itself. -/
theorem Retells.refl (d : Derivation) (tight : Bool) : d.Retells d tight :=
  ⟨rfl, fun _ => rfl⟩

/-- Derivations in a row retell others in a row. They span the same if both do. -/
theorem Retells.append (h : d'.Retells d tight) (h' : e'.Retells e tight') :
    (d'.append e').Retells (d.append e) (tight && tight') where
  fragments := by
    rw [Derivation.fragments, Derivation.fragments, h.fragments, h'.fragments]
  chars ht := by
    obtain ⟨ht, ht'⟩ := Bool.and_eq_true_iff.1 ht
    rw [Derivation.chars, Derivation.chars, h.chars ht, h'.chars ht']

/-- Less may be asked of a derivation that retells another. -/
theorem Retells.of_imp (h : d'.Retells d tight) (himp : tight' = true → tight = true) :
    d'.Retells d tight' :=
  ⟨h.fragments, fun ht => h.chars (himp ht)⟩

/-- A repetition of the same expression. -/
theorem Retells.cons (h : d'.Retells d tight) (h' : e'.Retells e tight) :
    (d'.append e').Retells (d.append e) tight :=
  (h.append h').of_imp fun ht => Bool.and_eq_true_iff.2 ⟨ht, ht⟩

end Derivation

/-- The expression has on the text `s'` the outcome that it has on another: it fails where it fails
there, and else stands for the same and leaves a text that mirrors what it leaves there. -/
def Reflects (v v' : List Char) (e : Peg) (j : Nat) (s' : List Char) :
    Option (Derivation × List Char) → Prop
  | none => Parses table e s' none
  | some (d, u) => ∃ d' u', Parses table e s' (some (d', u')) ∧ Mirrors v v' j u u' ∧
    d'.Retells d e.isTight

/-- A character that a test consumes stands on both sides, and the texts after it mirror each other
inside as many braces as the test says. -/
theorem Mirrors.of_step {test : Char → Bool} {c : Char} (h : Mirrors v v' i (c :: s) s')
    (hstep : Steps test i j) (hc : test c = true) : ∃ u, s' = c :: u ∧ Mirrors v v' j s u := by
  cases hstep with
  | stay hrejects =>
      refine h.of_char fun hmem => ?_
      cases (hrejects c hmem).symm.trans hc
  | opening hbrace =>
      obtain rfl := hbrace c hc
      exact h.of_opening
  | closing hbrace =>
      obtain rfl := hbrace c hc
      exact h.of_closing

/-- One character is read alike in texts that mirror each other: the heads are the same or the test
refuses both. -/
theorem reflects_one {test : Char → Bool} (h : Parses table (.one test) s res)
    (hstep : Steps test i j) (hm : Mirrors v v' i s s') : Reflects v v' (.one test) j s' res := by
  cases h with
  | one hc =>
      obtain ⟨u, rfl, hu⟩ := hm.of_step hstep hc
      exact ⟨_, u, .one hc, hu, .refl _ _⟩
  | one_fail hnone =>
      -- A character that passes the test here would pass it there.
      refine .one_fail fun c hc => Bool.eq_false_iff.2 fun htest => ?_
      obtain ⟨s', rfl⟩ := List.head?_eq_some_iff.1 hc
      obtain ⟨u, rfl, -⟩ := hm.symm.of_step hstep htest
      cases (hnone c rfl).symm.trans htest

/-- A word without markers is read on both texts or on neither. -/
theorem reflects_word {w : String} (h : Parses table (.word w) s res) (he : (Peg.word w).Leads i j)
    (hm : Mirrors v v' i s s') : Reflects v v' (.word w) j s' res := by
  obtain ⟨rfl, hpos, hw⟩ := he
  obtain ⟨n, rfl⟩ := Nat.exists_eq_add_one_of_ne_zero hpos.ne'
  cases h with
  | word =>
      obtain ⟨u, rfl, hu⟩ := hm.of_word hw
      exact ⟨_, u, .word, hu, .refl _ _⟩
  | word_fail hnone =>
      refine .word_fail fun hprefix => ?_
      obtain ⟨u', rfl⟩ := hprefix
      obtain ⟨u, rfl, -⟩ := hm.symm.of_word hw
      exact hnone (List.prefix_append _ _)

/-- Inside of braces, one text ends where the other does. -/
theorem reflects_absent_any (hpos : 0 < i) (h : Parses table (.absent any) s res)
    (hm : Mirrors v v' i s s') :
    Reflects v v' (.absent any) i s' res := by
  obtain ⟨n, rfl⟩ := Nat.exists_eq_add_one_of_ne_zero hpos.ne'
  cases h with
  | absent hany =>
      cases s with
      | nil =>
          obtain rfl := hm.eq_nil
          exact ⟨_, [], .absent hany, hm, .refl _ _⟩
      | cons c s => cases hany.unique (.one rfl)
  | absent_fail hany =>
      cases s' with
      | nil =>
          obtain rfl := hm.symm.eq_nil
          exact .absent_fail hany
      | cons c s' => exact .absent_fail (.one rfl)

/-- The second of two alternatives, after the first has failed on both texts. -/
theorem Reflects.choice_right {a b : Peg} (hnone : Parses table a s' none)
    (h : Reflects v v' b j s' res) :
    Reflects v v' (.choice a b) j s' res := by
  rcases res with _ | ⟨d, u⟩
  · exact .choice_right hnone h
  · obtain ⟨d', u', h', hm', hd⟩ := h
    exact ⟨d', u', .choice_right hnone h', hm', hd.of_imp fun ht => (Bool.and_eq_true_iff.1 ht).2⟩

/-- A captured text has no layout between words, so it is the same on both texts. -/
theorem Reflects.text {a : Peg} {d : Derivation} {u : List Char} (htight : a.isTight = true)
    (h : Reflects v v' a j s' (some (d, u))) :
    Reflects v v' (.text a) j s' (some (.capture .text d, u)) := by
  obtain ⟨d', u', h', hm', hd⟩ := h
  refine ⟨_, u', .text h', hm', ?_, fun _ => hd.chars htight⟩
  rw [Derivation.fragments, Derivation.fragments, hd.chars htight]

/-- Layout is read as layout. -/
theorem reflects_space {r : Rule} (hr : r.isSpace = true) (h : Parses table (.call r) s res)
    (hm : Mirrors v v' (n + 1) s s') : Reflects v v' (.call r) (n + 1) s' res := by
  have hretells : ∀ {s s' u u' : List Char} {d d' : Derivation},
      Parses table (.call r) s (some (d, u)) →
      Parses table (.call r) s' (some (d', u')) → d'.Retells d r.isTight := by
    intro s s' u u' d d' h h'
    refine ⟨?_, fun ht => absurd ((isTight_of_isSpace hr).symm.trans ht) Bool.false_ne_true⟩
    rw [fragments_of_parses hr h, fragments_of_parses hr h']
  rcases hm.solid_or with ⟨hs, hs'⟩ | ⟨_, u, _, u', hs, hs', hd, hd', hu⟩
  · rcases parses_space_of_solid hr with hnone | hnothing
    · cases h.unique (hnone s hs)
      exact hnone s' hs'
    · obtain ⟨d, hd⟩ := hnothing s hs
      obtain ⟨d', hd'⟩ := hnothing s' hs'
      cases h.unique hd
      exact ⟨d', s', hd', hm, hretells hd hd'⟩
  · obtain ⟨d, hd⟩ := exists_parses_of_sp hr hs hd
    obtain ⟨d', hd'⟩ := exists_parses_of_sp hr hs' hd'
    cases h.unique hd
    exact ⟨d', u', hd', hu, hretells hd hd'⟩

/-- Strings are read as they are. -/
theorem reflects_string (h : Parses table (.call .string) s res) (hm : Mirrors v v' (n + 1) s s') :
    Reflects v v' (.call .string) (n + 1) s' res := by
  rcases hm.quoted_or with ⟨d, u, u', hs, hs', hu⟩ | ⟨hhead, hhead'⟩
  · cases h.unique hs
    exact ⟨d, u', hs', hu, .refl _ _⟩
  · cases h.unique (parses_string_none hhead)
    exact parses_string_none hhead'

/-- A rule reads both texts alike if its expression does. Layout and strings are read as a whole. -/
theorem reflects_call {r : Rule} (h : Parses table (table r) s res) (he : (Peg.call r).Leads i j)
    (hm : Mirrors v v' i s s') (hbody : (table r).Leads i i → Reflects v v' (table r) i s' res) :
    Reflects v v' (.call r) j s' (res.map fun m => (.capture (.rule r) m.1, m.2)) := by
  obtain ⟨rfl, hpos, hr⟩ := he
  obtain ⟨n, rfl⟩ := Nat.exists_eq_add_one_of_ne_zero hpos.ne'
  have hcall : Parses table (.call r) s (res.map fun m => (.capture (.rule r) m.1, m.2)) := by
    rcases res with _ | ⟨d, u⟩
    · exact .call_fail h
    · exact .call h
  by_cases hspace : r.isSpace = true
  · exact reflects_space hspace hcall hm
  by_cases hstring : r = .string
  · obtain rfl := hstring
    exact reflects_string hcall hm
  have hreflects := hbody (leads_table hr (Bool.eq_false_iff.2 hspace) hstring n)
  rcases res with _ | ⟨d, u⟩
  · exact .call_fail hreflects
  · obtain ⟨d', u', h', hm', hd⟩ := hreflects
    refine ⟨_, u', .call h', hm', ?_, fun ht => hd.chars (isTight_table ht)⟩
    rw [Derivation.fragments, Derivation.fragments, hd.fragments]

/-- The outcome of an expression on a text is its outcome on a text that mirrors it. -/
theorem Parses.reflects (h : Parses table e s res) (he : e.Leads i j) (hm : Mirrors v v' i s s') :
    Reflects v v' e j s' res := by
  induction h generalizing i j s' with
  | empty =>
      obtain rfl : j = i := he
      exact ⟨_, s', .empty, hm, .refl _ _⟩
  | fail => exact .fail
  | one hc => exact reflects_one (.one hc) he hm
  | one_fail hnone => exact reflects_one (.one_fail hnone) he hm
  | word => exact reflects_word .word he hm
  | word_fail hnone => exact reflects_word (.word_fail hnone) he hm
  | seq _ _ iha ihb =>
      obtain ⟨k, ha, hb⟩ := he
      obtain ⟨d₁, u₁, h₁, hm₁, hd₁⟩ := iha ha hm
      obtain ⟨d₂, u₂, h₂, hm₂, hd₂⟩ := ihb hb hm₁
      exact ⟨_, u₂, .seq h₁ h₂, hm₂, hd₁.append hd₂⟩
  | seq_fail_left _ iha =>
      obtain ⟨k, ha, -⟩ := he
      exact .seq_fail_left (iha ha hm)
  | seq_fail_right _ _ iha ihb =>
      obtain ⟨k, ha, hb⟩ := he
      obtain ⟨d₁, u₁, h₁, hm₁, -⟩ := iha ha hm
      exact .seq_fail_right h₁ (ihb hb hm₁)
  | choice_left _ iha =>
      obtain ⟨d, u, h, hm', hd⟩ := iha he.1 hm
      exact ⟨d, u, .choice_left h, hm', hd.of_imp fun ht => (Bool.and_eq_true_iff.1 ht).1⟩
  | choice_right _ _ iha ihb => exact (ihb he.2 hm).choice_right (iha he.1 hm)
  | star_stop _ iha =>
      obtain ⟨rfl, ha⟩ := he
      exact ⟨_, s', .star_stop (iha ha hm), hm, .refl _ _⟩
  | star _ _ iha ihs =>
      obtain ⟨rfl, ha⟩ := he
      obtain ⟨d₁, u₁, h₁, hm₁, hd₁⟩ := iha ha hm
      obtain ⟨d₂, u₂, h₂, hm₂, hd₂⟩ := ihs ⟨rfl, ha⟩ hm₁
      exact ⟨_, u₂, .star h₁ h₂, hm₂, hd₁.cons hd₂⟩
  | plus _ _ iha ihs =>
      obtain ⟨rfl, ha⟩ := he
      obtain ⟨d₁, u₁, h₁, hm₁, hd₁⟩ := iha ha hm
      obtain ⟨d₂, u₂, h₂, hm₂, hd₂⟩ := ihs ⟨rfl, ha⟩ hm₁
      exact ⟨_, u₂, .plus h₁ h₂, hm₂, hd₁.cons hd₂⟩
  | plus_fail _ iha =>
      obtain ⟨rfl, ha⟩ := he
      exact .plus_fail (iha ha hm)
  | absent ha iha =>
      obtain ⟨rfl, ⟨k, hk⟩ | ⟨hpos, rfl⟩⟩ := he
      · exact ⟨_, s', .absent (iha hk hm), hm, .refl _ _⟩
      · exact reflects_absent_any hpos (.absent ha) hm
  | absent_fail ha iha =>
      obtain ⟨rfl, ⟨k, hk⟩ | ⟨hpos, rfl⟩⟩ := he
      · obtain ⟨d, u, h, -⟩ := iha hk hm
        exact .absent_fail h
      · exact reflects_absent_any hpos (.absent_fail ha) hm
  | text _ iha => exact (iha he.1 hm).text he.2
  | text_fail _ iha => exact .text_fail (iha he.1 hm)
  | call h ih => exact reflects_call h he hm fun hlead => ih hlead (he.1 ▸ hm)
  | call_fail h ih => exact reflects_call h he hm fun hlead => ih hlead (he.1 ▸ hm)
  | action =>
      obtain rfl : j = i := he
      exact ⟨_, s', .action, hm, .refl _ _⟩

end reflects

end RiftLang
