import RiftLang.Proofs.Layout.Reflection

/-!
# Texts with other layout

What is left of a matched text when layout in it is replaced mirrors the text.

* `Derivation.Respaces` — the text of a derivation with other layout in places where it has some.
* `Parses.mirrors` — such a text mirrors the one that was matched.
-/

namespace RiftLang

open Peg

variable {v v' s u u' cs : List Char} {d : Derivation} {e : Peg} {r : Rule} {i j n : Nat}

/-- The text is what the derivation spans, with other layout in places where it has some. -/
def Derivation.Respaces : Derivation → List Char → Prop
  | leaf l, cs => cs = l
  | action _, cs => cs = []
  | append first second, cs => ∃ cs₁ cs₂, first.Respaces cs₁ ∧ second.Respaces cs₂ ∧ cs = cs₁ ++ cs₂
  | capture symbol body, cs => body.Respaces cs ∨
    (∃ r, symbol = .rule r ∧ r.isSpace = true) ∧ body.chars ≠ [] ∧ IsLayout cs ∧ cs ≠ []

/-- The text that a derivation spans is one of its own respacings. -/
theorem Derivation.respaces_self (d : Derivation) : d.Respaces d.chars := by
  induction d with
  | leaf _ | action _ => rfl
  | append d e ihd ihe => exact ⟨_, _, ihd, ihe, rfl⟩
  | capture symbol body ih => exact .inl ih

/-- A text without layout between words stays as it is. -/
theorem Derivation.Respaces.eq_of_isTight (hd : d.Respaces cs) (h : Parses table e s (some (d, u)))
    (he : e.isTight = true) : cs = d.chars := by
  generalize hres : some (d, u) = res at h
  induction h generalizing d u cs with
  | empty | one _ | word | star_stop _ | absent _ | action =>
      cases hres
      exact hd
  | seq _ _ iha ihb =>
      cases hres
      obtain ⟨cs₁, cs₂, h₁, h₂, rfl⟩ := hd
      obtain ⟨ha, hb⟩ := Bool.and_eq_true_iff.1 he
      exact congrArg₂ _ (iha h₁ ha rfl) (ihb h₂ hb rfl)
  | choice_left _ iha => exact iha hd (Bool.and_eq_true_iff.1 he).1 hres
  | choice_right _ _ _ ihb => exact ihb hd (Bool.and_eq_true_iff.1 he).2 hres
  | star _ _ iha ihs | plus _ _ iha ihs =>
      cases hres
      obtain ⟨cs₁, cs₂, h₁, h₂, rfl⟩ := hd
      exact congrArg₂ _ (iha h₁ he rfl) (ihs h₂ he rfl)
  | text _ iha =>
      cases hres
      rcases hd with hd | ⟨⟨_, ⟨⟩, -⟩, -⟩
      have hbody := iha hd he rfl
      exact hbody
  | @call r _ _ _ _ ih =>
      cases hres
      replace he : r.isTight = true := he
      rcases hd with hd | ⟨⟨_, ⟨⟩, hspace⟩, -⟩
      · have hbody := ih hd (isTight_table he) rfl
        exact hbody
      · cases (isTight_of_isSpace hspace).symm.trans he
  | _ => cases hres

/-! ## Layout -/

/-- What the rules for layout stand for calls tight rules only, so nothing inside them can be
respaced in turn. -/
theorem isTight_table_of_isSpace (hr : r.isSpace = true) : (table r).isTight = true := by
  cases r <;> first | rfl | cases hr

/-- What is consumed of a text is the part before what is left of it. -/
theorem chars_of_parses {s : List Char} (h : Parses table e (cs ++ s) (some (d, s))) :
    d.chars = cs :=
  (List.append_cancel_right h.eq_append).symm

/-- Layout in one text and layout in the other, before texts that mirror each other. -/
theorem mirrors_space (hr : r.isSpace = true) (h : Parses table (.call r) s (some (d, u)))
    (hd : d.Respaces cs) (hm : Mirrors v v' (n + 1) u u') : Mirrors v v' (n + 1) s (cs ++ u') := by
  have hrun := isRun_of_parses hr h
  have hsolid : Solid u' := hm.solid hrun.solid
  obtain ⟨d₁, h₁⟩ := exists_parses_sp hr h
  have hs : s = d₁.chars ++ u := h₁.eq_append
  have hchars : d₁.chars = d.chars := List.append_cancel_right (hs.symm.trans h.eq_append)
  obtain ⟨body, hbody, rfl⟩ := parses_call_iff.1 h
  -- It is enough that the other text has layout where this one has.
  suffices hother : d₁.chars = [] ∧ cs = [] ∨
      d₁.chars ≠ [] ∧ cs ≠ [] ∧ ∃ d', Parses table sp (cs ++ u') (some (d', u')) by
    obtain ⟨hnil, rfl⟩ | ⟨hne, hne', d', hd'⟩ := hother
    · rw [hs, hnil]
      exact hm
    · exact .layout h₁ hd' hne (by rwa [chars_of_parses hd']) hm
  rcases hd with hd | ⟨-, hne, hlayout, hne'⟩
  · obtain rfl : cs = d₁.chars :=
      (hd.eq_of_isTight hbody (isTight_table_of_isSpace hr)).trans hchars.symm
    by_cases hnil : d₁.chars = []
    · exact .inl ⟨hnil, hnil⟩
    · refine .inr ⟨hnil, hnil, ?_⟩
      cases u with
      | nil =>
          obtain rfl := hm.eq_nil
          exact ⟨d₁, hs ▸ h₁⟩
      | cons c u =>
          have hlayout : IsLayout d₁.chars := hchars ▸ hrun.isLayout (List.cons_ne_nil c u)
          obtain ⟨d', hd', -⟩ := takes_sp_layout hlayout hsolid
          exact ⟨d', hd'⟩
  · obtain ⟨d', hd', -⟩ := takes_sp_layout hlayout hsolid
    exact .inr ⟨hchars.symm ▸ hne, hne', d', hd'⟩

/-! ## Matched texts -/

/-- A matched text mirrors the text with other layout. -/
theorem Parses.mirrors (h : Parses table e s (some (d, u))) (he : e.Leads i j) (hd : d.Respaces cs)
    (hm : Mirrors v v' j u u') : Mirrors v v' i s (cs ++ u') := by
  generalize hres : some (d, u) = res at h
  induction h generalizing d u u' cs i j with
  | empty | action =>
      cases hres
      obtain rfl : j = i := he
      obtain rfl : cs = [] := hd
      exact hm
  | @one test c _ hc =>
      cases hres
      obtain rfl : cs = [c] := hd
      cases he with
      | stay hrejects =>
        exact .char (fun hmem => Bool.false_ne_true ((hrejects c hmem).symm.trans hc)) hm
      | opening hbrace =>
          obtain rfl := hbrace c hc
          exact .opening hm
      | closing hbrace =>
          obtain rfl := hbrace c hc
          exact .closing hm
  | @word w _ =>
      cases hres
      obtain rfl : cs = w.toList := hd
      obtain ⟨rfl, hpos, hw⟩ := he
      obtain ⟨n, rfl⟩ := Nat.exists_eq_add_one_of_ne_zero hpos.ne'
      exact .word hw hm
  | seq _ _ iha ihb =>
      cases hres
      obtain ⟨k, ha, hb⟩ := he
      obtain ⟨cs₁, cs₂, h₁, h₂, rfl⟩ := hd
      rw [List.append_assoc]
      exact iha ha h₁ (ihb hb h₂ hm rfl) rfl
  | choice_left _ iha => exact iha he.1 hd hm hres
  | choice_right _ _ _ ihb => exact ihb he.2 hd hm hres
  | star_stop _ | absent _ =>
      cases hres
      obtain ⟨rfl, -⟩ := he
      obtain rfl : cs = [] := hd
      exact hm
  | star _ _ iha ihs | plus _ _ iha ihs =>
      cases hres
      obtain ⟨rfl, ha⟩ := he
      obtain ⟨cs₁, cs₂, h₁, h₂, rfl⟩ := hd
      rw [List.append_assoc]
      exact iha ha h₁ (ihs ⟨rfl, ha⟩ h₂ hm rfl) rfl
  | text _ iha =>
      cases hres
      rcases hd with hd | ⟨⟨_, ⟨⟩, -⟩, -⟩
      exact iha he.1 hd hm rfl
  | @call r s s' body h ih =>
      cases hres
      obtain ⟨rfl, hpos, hr⟩ := he
      obtain ⟨n, rfl⟩ := Nat.exists_eq_add_one_of_ne_zero hpos.ne'
      by_cases hspace : r.isSpace = true
      · exact mirrors_space hspace (.call h) hd hm
      rcases hd with hd | ⟨⟨_, ⟨⟩, hr'⟩, -⟩
      · by_cases hstring : r = .string
        · obtain rfl := hstring
          obtain rfl := hd.eq_of_isTight h rfl
          exact .quoted (.call h) (parses_string_append (.call h) _) hm
        · exact ih (leads_table hr (Bool.eq_false_iff.2 hspace) hstring n) hd hm rfl
      · exact absurd hr' hspace
  | _ => cases hres

end RiftLang
