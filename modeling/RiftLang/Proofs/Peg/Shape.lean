import RiftLang.Proofs.Peg

/-!
# Shapes of derivations

A derivation has the shape of the expression that it derives, down to the rules called, which are
derivations again. What holds of every rule once it holds of the rules called holds of all
derivations.

* `Chain` — a derivation of a repetition, item by item.
* `Peg.Shape` — the shape that an expression gives a derivation, with a property of the rules
  called.
* `Parses.shape` — the induction over derivations by rules.
-/

namespace RiftLang

/-- A repetition of `item` that ends where `stop` holds. -/
inductive Chain (item : List Char → Derivation → List Char → Prop) (stop : List Char → Prop) :
    List Char → Derivation → List Char → Prop where
  /-- The repetition ends. -/
  | nil {s : List Char} (h : stop s) : Chain item stop s (.leaf []) s
  /-- An item, and the repetition from there. -/
  | cons {s s₁ s' : List Char} {d e : Derivation} (h : item s d s₁) (hs : Chain item stop s₁ e s') :
      Chain item stop s (d.append e) s'

variable {rules : Rule → Peg} {Q : Rule → List Char → Derivation → List Char → Prop}

variable (rules Q) in
/-- The derivation is made as the expression says, and `Q` holds of the rules that it calls. -/
def Peg.Shape : Peg → List Char → Derivation → List Char → Prop
  | empty => fun s d s' => d = .leaf [] ∧ s' = s
  | fail => fun _ _ _ => False
  | one test => fun s d s' => ∃ c, s = c :: s' ∧ test c = true ∧ d = .leaf [c]
  | word w => fun s d s' => s = w.toList ++ s' ∧ d = .leaf w.toList
  | seq a b => fun s d s' =>
    ∃ d₁ s₁ d₂, Shape a s d₁ s₁ ∧ Shape b s₁ d₂ s' ∧ d = d₁.append d₂
  | choice a b => fun s d s' => Shape a s d s' ∨ Parses rules a s none ∧ Shape b s d s'
  | star a => Chain (Shape a) (Parses rules a · none)
  | plus a => fun s d s' =>
    ∃ d₁ s₁ d₂, Shape a s d₁ s₁ ∧ Chain (Shape a) (Parses rules a · none) s₁ d₂ s' ∧
      d = d₁.append d₂
  | absent a => fun s d s' => Parses rules a s none ∧ d = .leaf [] ∧ s' = s
  | text a => fun s d s' => ∃ d₁, Shape a s d₁ s' ∧ d = .capture .text d₁
  | action x => fun s d s' => d = .action x ∧ s' = s
  | call r => fun s d s' => Parses rules (.call r) s (some (d, s')) ∧ Q r s d s'

/-- Items may be described more widely. -/
theorem Chain.mono {item item' : List Char → Derivation → List Char → Prop}
    {stop : List Char → Prop} {s s' : List Char} {d : Derivation} (h : Chain item stop s d s')
    (hitem : ∀ s d s', item s d s' → item' s d s') : Chain item' stop s d s' := by
  induction h with
  | nil h => exact .nil h
  | cons h _ ih => exact .cons (hitem _ _ _ h) ih

/-- The shape with another property that the rules called have. -/
theorem Peg.Shape.mono {Q' : Rule → List Char → Derivation → List Char → Prop} {e : Peg}
    {s s' : List Char} {d : Derivation} (h : e.Shape rules Q s d s')
    (hQ : ∀ r s d s', Parses rules (.call r) s (some (d, s')) → Q r s d s' → Q' r s d s') :
    e.Shape rules Q' s d s' := by
  induction e generalizing s d s' with
  | empty | fail | one _ | word _ | absent _ | action _ => exact h
  | seq a b iha ihb =>
      obtain ⟨d₁, s₁, d₂, h₁, h₂, rfl⟩ := h
      exact ⟨d₁, s₁, d₂, iha h₁, ihb h₂, rfl⟩
  | choice a b iha ihb => exact h.imp iha (.imp_right ihb)
  | star a ih => exact Chain.mono h fun _ _ _ => ih
  | plus a ih =>
      obtain ⟨d₁, s₁, d₂, h₁, h₂, rfl⟩ := h
      exact ⟨d₁, s₁, d₂, ih h₁, h₂.mono fun _ _ _ => ih, rfl⟩
  | text a ih =>
      obtain ⟨d₁, h₁, rfl⟩ := h
      exact ⟨d₁, ih h₁, rfl⟩
  | call r => exact ⟨h.1, hQ _ _ _ _ h.1 h.2⟩

/-- Derivations of a body in a row, up to where it fails, are a derivation of its repetition. -/
theorem Chain.parses {a : Peg} {s s' : List Char} {d : Derivation}
    {item : List Char → Derivation → List Char → Prop}
    (h : Chain item (Parses rules a · none) s d s')
    (hitem : ∀ s d s', item s d s' → Parses rules a s (some (d, s'))) :
    Parses rules (.star a) s (some (d, s')) := by
  induction h with
  | nil h => exact .star_stop h
  | cons h _ ih => exact .star (hitem _ _ _ h) ih

/-- What has the shape that an expression gives is a match of it. -/
theorem Peg.Shape.parses {e : Peg} {s s' : List Char} {d : Derivation}
    (h : e.Shape rules Q s d s') :
    Parses rules e s (some (d, s')) := by
  induction e generalizing s d s' with
  | empty => exact parses_empty_iff.2 h
  | fail => exact h.elim
  | one _ => exact parses_one_iff.2 h
  | word _ => exact parses_word_iff.2 h
  | seq a b iha ihb =>
      obtain ⟨d₁, s₁, d₂, h₁, h₂, rfl⟩ := h
      exact .seq (iha h₁) (ihb h₂)
  | choice a b iha ihb => exact parses_choice_iff.2 (h.imp iha (.imp_right ihb))
  | star a ih => exact Chain.parses h fun _ _ _ => ih
  | plus a ih =>
      obtain ⟨d₁, s₁, d₂, h₁, h₂, rfl⟩ := h
      exact .plus (ih h₁) (h₂.parses fun _ _ _ => ih)
  | absent _ => exact parses_absent_iff.2 h
  | text a ih =>
      obtain ⟨d₁, h₁, rfl⟩ := h
      exact .text (ih h₁)
  | action _ => exact parses_action_iff.2 h
  | call r => exact h.1

/-- Every derivation has the shape of its expression, with a property of rules that passes from the
rules called to the rule that calls them. -/
theorem Parses.shape
    (hrule : ∀ r s d s', Parses rules (rules r) s (some (d, s')) → (rules r).Shape rules Q s d s' →
      Q r s (.capture (.rule r) d) s')
    {e : Peg} {s s' : List Char} {d : Derivation} (h : Parses rules e s (some (d, s'))) :
    e.Shape rules Q s d s' := by
  generalize hres : some (d, s') = res at h
  induction h generalizing d s' with
  | empty | action =>
      cases hres
      exact ⟨rfl, rfl⟩
  | one hc =>
      cases hres
      exact ⟨_, rfl, hc, rfl⟩
  | word =>
      cases hres
      exact ⟨rfl, rfl⟩
  | seq _ _ iha ihb =>
      cases hres
      exact ⟨_, _, _, iha rfl, ihb rfl, rfl⟩
  | choice_left _ ih => exact .inl (ih hres)
  | choice_right ha _ _ ihb => exact .inr ⟨ha, ihb hres⟩
  | star_stop ha =>
      cases hres
      exact .nil ha
  | star _ _ iha ihs =>
      cases hres
      exact .cons (iha rfl) (ihs rfl)
  | plus _ _ iha ihs =>
      cases hres
      exact ⟨_, _, _, iha rfl, ihs rfl, rfl⟩
  | absent ha =>
      cases hres
      exact ⟨ha, rfl, rfl⟩
  | text _ ih =>
      cases hres
      exact ⟨_, ih rfl, rfl⟩
  | call h ih =>
      cases hres
      exact ⟨.call h, hrule _ _ _ _ h (ih rfl)⟩
  | _ => cases hres

/-- The induction over derivations of rules. -/
theorem Parses.rule_induction
    (hrule : ∀ r s d s', Parses rules (rules r) s (some (d, s')) → (rules r).Shape rules Q s d s' →
      Q r s (.capture (.rule r) d) s')
    {r : Rule} {s s' : List Char} {d : Derivation} (h : Parses rules (.call r) s (some (d, s'))) :
    Q r s d s' :=
  (h.shape hrule).2

end RiftLang
