import RiftLang.Proofs.Meaning.Constructs
import RiftLang.Proofs.Meaning.Takes

/-!
# How expressions build what they stand for

What an expression takes from a text it takes from the texts that its parts take, and it stands for
what they stand for. A property that passes from the rules called to the rule that calls them holds
of everything taken.

* `Row` — a repetition, item by item, with what it stands for.
* `Peg.Builds` — an expression stands for fragments in the way that it is made, with a property of
  the rules called.
* `Takes.rule_induction` — the induction over what rules take.
-/

namespace RiftLang

open Peg

/-- A repetition of `item` that ends where `stop` holds, with the fragments of the items in
order. -/
inductive Row (item : List Char → List Fragment → List Char → Prop) (stop : List Char → Prop) :
    List Char → List Fragment → List Char → Prop where
  /-- The repetition ends. -/
  | nil {s : List Char} (h : stop s) : Row item stop s [] s
  /-- An item, and the repetition from there. -/
  | cons {s s₁ s' : List Char} {parts parts' : List Fragment} (h : item s parts s₁)
    (hs : Row item stop s₁ parts' s') :
      Row item stop s (parts ++ parts') s'

/-- What every item of a row says of its fragments holds of all fragments of the row. -/
theorem Row.forall_mem {item : List Char → List Fragment → List Char → Prop}
    {stop : List Char → Prop} {s s' : List Char} {parts : List Fragment}
    (h : Row item stop s parts s') {P : Fragment → Prop}
    (hitem : ∀ s parts s', item s parts s' → ∀ part ∈ parts, P part) : ∀ part ∈ parts, P part := by
  induction h with
  | nil _ => exact List.forall_mem_nil _
  | cons h _ ih => exact List.forall_mem_append.2 ⟨hitem _ _ _ h, ih⟩

variable {Q : Rule → List Char → List Fragment → List Char → Prop}

namespace Peg

variable (Q) in
/-- The expression takes the text up to a rest and stands for fragments in the way that it is made,
and `Q` holds of the rules that it calls. -/
def Builds : Peg → List Char → List Fragment → List Char → Prop
  | empty | action _ => fun s parts s' => parts = [] ∧ s' = s
  | fail => fun _ _ _ => False
  | one test => fun s parts s' => ∃ c, s = c :: s' ∧ test c = true ∧ parts = []
  | word w => fun s parts s' => s = w.toList ++ s' ∧ parts = []
  | seq a b => fun s parts s' =>
    ∃ parts₁ s₁ parts₂, Builds a s parts₁ s₁ ∧ Builds b s₁ parts₂ s' ∧ parts = parts₁ ++ parts₂
  | choice a b => fun s parts s' =>
    Builds a s parts s' ∨ Parses table a s none ∧ Builds b s parts s'
  | star a => Row (Builds a) (Parses table a · none)
  | plus a => fun s parts s' =>
    ∃ parts₁ s₁ parts₂, Builds a s parts₁ s₁ ∧ Row (Builds a) (Parses table a · none) s₁ parts₂ s' ∧
      parts = parts₁ ++ parts₂
  | absent a => fun s parts s' => Parses table a s none ∧ parts = [] ∧ s' = s
  | text a => fun s parts s' => ∃ cs d, s = cs ++ s' ∧ Parses table a s (some (d, s')) ∧
    parts = [.text (String.ofList cs)]
  | call r => fun s parts s' => Takes (.call r) s parts s' ∧ Q r s parts s'

end Peg

variable {s s' : List Char} {d : Derivation} {parts : List Fragment} {e : Peg}

/-- The derivations of a repetition stand for a row of fragments, if each of them stands for an
item. -/
theorem Chain.row {item : List Char → Derivation → List Char → Prop} {stop : List Char → Prop}
    {item' : List Char → List Fragment → List Char → Prop} (h : Chain item stop s d s')
    (hparts : d.fragments = .ok parts)
    (hitem : ∀ s d s' parts, item s d s' → d.fragments = .ok parts → item' s parts s') :
    Row item' stop s parts s' := by
  induction h generalizing parts with
  | nil h =>
      cases hparts
      exact .nil h
  | cons h _ ih =>
      obtain ⟨parts₁, parts₂, h₁, h₂, rfl⟩ := Derivation.fragments_append_eq_ok hparts
      exact .cons (hitem _ _ _ _ h h₁) (ih h₂)

/-- The property of rules in terms of what their derivations stand for. -/
def OfFragments (Q : Rule → List Char → List Fragment → List Char → Prop) (r : Rule) (s : List Char)
    (d : Derivation) (s' : List Char) : Prop :=
  ∀ parts, d.fragments = .ok parts → Q r s parts s'

/-- A derivation stands for what its expression builds. -/
theorem builds_of_shape (h : e.Shape table (OfFragments Q) s d s')
    (hparts : d.fragments = .ok parts) :
    e.Builds Q s parts s' := by
  induction e generalizing s d s' parts with
  | empty | action _ =>
      obtain ⟨rfl, rfl⟩ := h
      cases hparts
      exact ⟨rfl, rfl⟩
  | fail => exact h.elim
  | one _ =>
      obtain ⟨c, rfl, hc, rfl⟩ := h
      cases hparts
      exact ⟨c, rfl, hc, rfl⟩
  | word _ =>
      obtain ⟨rfl, rfl⟩ := h
      cases hparts
      exact ⟨rfl, rfl⟩
  | seq a b iha ihb =>
      obtain ⟨d₁, s₁, d₂, h₁, h₂, rfl⟩ := h
      obtain ⟨parts₁, parts₂, hparts₁, hparts₂, rfl⟩ := Derivation.fragments_append_eq_ok hparts
      exact ⟨parts₁, s₁, parts₂, iha h₁ hparts₁, ihb h₂ hparts₂, rfl⟩
  | choice a b iha ihb => exact h.imp (iha · hparts) (.imp_right (ihb · hparts))
  | star a ih => exact Chain.row h hparts fun _ _ _ _ => ih
  | plus a ih =>
      obtain ⟨d₁, s₁, d₂, h₁, h₂, rfl⟩ := h
      obtain ⟨parts₁, parts₂, hparts₁, hparts₂, rfl⟩ := Derivation.fragments_append_eq_ok hparts
      exact ⟨parts₁, s₁, parts₂, ih h₁ hparts₁, h₂.row hparts₂ fun _ _ _ _ => ih, rfl⟩
  | absent _ =>
      obtain ⟨hnone, rfl, rfl⟩ := h
      cases hparts
      exact ⟨hnone, rfl, rfl⟩
  | text a =>
      obtain ⟨d₁, h₁, rfl⟩ := h
      cases hparts
      exact ⟨d₁.chars, d₁, h₁.parses.eq_append, h₁.parses, rfl⟩
  | call r => exact ⟨⟨d, h.1, hparts⟩, h.2 _ hparts⟩

/-- A row of items that an expression takes is taken by its repetition. -/
theorem Row.takes {item : List Char → List Fragment → List Char → Prop} {a : Peg}
    (h : Row item (Parses table a · none) s parts s')
    (hitem : ∀ s parts s', item s parts s' → Takes a s parts s') :
    Takes (.star a) s parts s' := by
  induction h with
  | nil hstop => exact takes_star_nil hstop
  | cons h _ ih => exact (hitem _ _ _ h).star_cons ih

/-- What an expression builds it takes. -/
theorem Peg.Builds.takes (h : e.Builds Q s parts s') : Takes e s parts s' := by
  induction e generalizing s parts s' with
  | empty =>
      obtain ⟨rfl, rfl⟩ := h
      exact takes_empty
  | action _ =>
      obtain ⟨rfl, rfl⟩ := h
      exact takes_action
  | fail => exact h.elim
  | one _ =>
      obtain ⟨c, rfl, hc, rfl⟩ := h
      exact takes_one hc
  | word w =>
      obtain ⟨rfl, rfl⟩ := h
      exact takes_word w s'
  | seq a b iha ihb =>
      obtain ⟨parts₁, s₁, parts₂, ha, hb, rfl⟩ := h
      exact (iha ha).seq (ihb hb)
  | choice a b iha ihb =>
      rcases h with h | ⟨hnone, h⟩
      · exact (iha h).choice_left
      · exact (ihb h).choice_right hnone
  | star a ih => exact Row.takes h fun _ _ _ => ih
  | plus a ih =>
      obtain ⟨parts₁, s₁, parts₂, ha, hs, rfl⟩ := h
      exact (ih ha).plus (hs.takes fun _ _ _ => ih)
  | absent _ =>
      obtain ⟨hnone, rfl, rfl⟩ := h
      exact takes_absent hnone
  | text _ =>
      obtain ⟨cs, d, hs, hd, rfl⟩ := h
      obtain rfl : cs = d.chars := List.append_cancel_right (hs.symm.trans hd.eq_append)
      exact ⟨_, .text hd, rfl⟩
  | call _ => exact h.1

/-- What a rule takes its expression builds. -/
theorem exists_builds_of_takes {r : Rule} {made : List Fragment} (h : Takes (.call r) s made s') :
    ∃ parts, (table r).Builds (fun _ _ _ _ => True) s parts s' ∧ construct r parts = .ok made := by
  obtain ⟨d, hd, hfragments⟩ := h
  obtain ⟨body, hbody, rfl⟩ := parses_call_iff.1 hd
  rcases hinner : body.fragments with x | parts
  · rw [Derivation.fragments, hinner] at hfragments
    cases hfragments
  · rw [Derivation.fragments, hinner] at hfragments
    have hshape : (table r).Shape table (OfFragments fun _ _ _ _ => True) s body s' :=
      hbody.shape fun _ _ _ _ _ _ _ _ => trivial
    exact ⟨parts, builds_of_shape hshape hinner, hfragments⟩

/-- The induction over what rules take: a property holds of what a rule makes of its parts, once it
holds of the rules called for the parts. -/
theorem Takes.rule_induction
    (hrule : ∀ r s parts made s', (table r).Builds Q s parts s' → construct r parts = .ok made →
      Takes (.call r) s made s' → Q r s made s')
    {r : Rule} (h : Takes (.call r) s parts s') : Q r s parts s' := by
  obtain ⟨d, hd, hparts⟩ := h
  refine Parses.rule_induction (Q := OfFragments Q) ?_ hd parts hparts
  intro r s d s' hd hshape made hmade
  rcases hinner : d.fragments with _ | inner
  · rw [Derivation.fragments, hinner] at hmade
    cases hmade
  · have hconstruct : construct r inner = .ok made := by
      rw [Derivation.fragments, hinner] at hmade
      exact hmade
    exact hrule r s inner made s' (builds_of_shape hshape hinner) hconstruct ⟨_, .call hd, hmade⟩

namespace Peg

/-- What a rule takes is of the fragments that it yields. -/
theorem exists_yields_of_takes {r : Rule} (h : Takes (.call r) s parts s') :
    ∃ ms, r.Yields parts ms := by
  obtain ⟨d, hd, hparts⟩ := h
  exact ⟨_, (isOf_of_parses hd).means.of_fragments_eq hparts⟩

variable (Q) in
/-- Every rule called builds such fragments only, and no text is captured. -/
def AllBuild (P : Fragment → Prop) : Peg → Prop
  | empty | fail | one _ | word _ | action _ | absent _ => True
  | seq a b | choice a b => a.AllBuild P ∧ b.AllBuild P
  | star a | plus a => a.AllBuild P
  | text _ => False
  | call r => ∀ s parts s', Q r s parts s' → ∀ part ∈ parts, P part

/-- If an expression only calls rules that build fragments of a sort, then all that it builds is of
that sort. -/
theorem AllBuild.forall_mem {P : Fragment → Prop} (he : e.AllBuild Q P)
    (h : e.Builds Q s parts s') :
    ∀ part ∈ parts, P part := by
  induction e generalizing s parts s' with
  | empty | action _ =>
      obtain ⟨rfl, -⟩ := h
      exact List.forall_mem_nil _
  | fail => exact h.elim
  | one _ =>
      obtain ⟨_, -, -, rfl⟩ := h
      exact List.forall_mem_nil _
  | word _ =>
      obtain ⟨-, rfl⟩ := h
      exact List.forall_mem_nil _
  | absent _ =>
      obtain ⟨-, rfl, -⟩ := h
      exact List.forall_mem_nil _
  | seq a b iha ihb =>
      obtain ⟨_, _, _, ha, hb, rfl⟩ := h
      exact List.forall_mem_append.2 ⟨iha he.1 ha, ihb he.2 hb⟩
  | choice a b iha ihb => exact h.elim (iha he.1) fun h => ihb he.2 h.2
  | star a ih => exact Row.forall_mem h fun _ _ _ => ih he
  | plus a ih =>
      obtain ⟨_, _, _, ha, hs, rfl⟩ := h
      exact List.forall_mem_append.2 ⟨ih he ha, hs.forall_mem fun _ _ _ => ih he⟩
  | text _ => exact he.elim
  | call r => exact he _ _ _ h.2

/-- What is selected from the fragments has what their being such fragments gives it. -/
theorem AllBuild.forall_mem_filterMap {P : Fragment → Prop} {β : Type} {f : Fragment → Option β}
    {R : β → Prop} (he : e.AllBuild Q P) (h : e.Builds Q s parts s')
    (hselect : ∀ part, P part → ∀ y, f part = some y → R y) :
    ∀ y ∈ parts.filterMap f, R y := by
  intro y hy
  obtain ⟨part, hpart, hselected⟩ := List.mem_filterMap.1 hy
  exact hselect part (he.forall_mem h part hpart) y hselected

/-- Steps in a row are built by the first steps and then by the others. -/
theorem exists_builds_of_seqs_append {steps steps' : List Peg}
    (h : (seqs (steps ++ steps')).Builds Q s parts s') :
    ∃ parts₁ s₁ parts₂, (seqs steps).Builds Q s parts₁ s₁ ∧ (seqs steps').Builds Q s₁ parts₂ s' ∧
      parts = parts₁ ++ parts₂ := by
  induction steps generalizing s parts with
  | nil => exact ⟨[], s, parts, ⟨rfl, rfl⟩, h, rfl⟩
  | cons step steps ih =>
      obtain ⟨p, s₁, q, hstep, hrest, rfl⟩ := h
      obtain ⟨q₁, s₂, q₂, h₁, h₂, rfl⟩ := ih hrest
      exact ⟨p ++ q₁, s₂, q₂, ⟨p, s₁, q₁, hstep, h₁, rfl⟩, h₂, (List.append_assoc ..).symm⟩

/-- Opening and closing a node builds nothing. -/
theorem builds_of_node {kind : NodeKind} {steps : List Peg}
    (h : (node kind steps).Builds Q s parts s') :
    (seqs steps).Builds Q s parts s' := by
  obtain ⟨_, _, _, ⟨rfl, rfl⟩, h, rfl⟩ := h
  obtain ⟨parts, _, _, hsteps, ⟨_, _, _, ⟨rfl, rfl⟩, ⟨rfl, rfl⟩, rfl⟩, rfl⟩ :=
    exists_builds_of_seqs_append h
  simpa using hsteps

end Peg

end RiftLang
