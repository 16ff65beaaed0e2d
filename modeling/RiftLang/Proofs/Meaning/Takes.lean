import RiftLang.Proofs.Meaning
import RiftLang.Proofs.Peg.Table

/-!
# Matching a text for what it stands for

* `Takes` — an expression matches a text up to a given rest, and stands for given fragments.
* One lemma for every way to build an expression, from `Takes.seq` to `Takes.call`.
* `Takes.node` — opening and closing a node does not show in what its steps stand for.
-/

namespace RiftLang

open Peg

/-- The expression matches the text `s` up to `rest` and stands for `parts`. -/
def Takes (e : Peg) (s : List Char) (parts : List Fragment) (rest : List Char) : Prop :=
  ∃ d, Parses table e s (some (d, rest)) ∧ d.fragments = .ok parts

variable {a b : Peg} {s s₁ rest cs : List Char} {parts parts₁ parts₂ made : List Fragment}
  {r : Rule}

/-- An expression does not take what it fails on. -/
theorem Takes.not_none (h : Takes a s parts rest) : ¬ Parses table a s none := by
  obtain ⟨d, hd, -⟩ := h
  exact fun hnone => Option.some_ne_none _ (hd.unique hnone)

/-- The empty expression takes nothing. -/
theorem takes_empty : Takes .empty s [] s :=
  ⟨_, .empty, rfl⟩

/-- A character that passes the test is taken. -/
theorem takes_one {test : Char → Bool} {c : Char} (hc : test c = true) :
    Takes (.one test) (c :: s) [] s :=
  ⟨_, .one hc, rfl⟩

/-- A character is taken by the expression for it. -/
theorem takes_char (c : Char) (s : List Char) : Takes (.char c) (c :: s) [] s :=
  takes_one (by simp)

/-- A word is taken by the expression for it. -/
theorem takes_word (w : String) (s : List Char) : Takes (.word w) (w.toList ++ s) [] s :=
  ⟨_, .word, rfl⟩

/-- An action takes nothing, and stands for nothing by itself. -/
theorem takes_action {x : Action} : Takes (.action x) s [] s :=
  ⟨_, .action, rfl⟩

/-- Where an expression fails, its absence takes nothing. -/
theorem takes_absent (h : Parses table a s none) : Takes (.absent a) s [] s :=
  ⟨_, .absent h, rfl⟩

/-- Two expressions take their texts in a row, and stand for what both stand for. -/
theorem Takes.seq (ha : Takes a s parts₁ s₁) (hb : Takes b s₁ parts₂ rest) :
    Takes (.seq a b) s (parts₁ ++ parts₂) rest := by
  obtain ⟨d, hd, hparts⟩ := ha
  obtain ⟨e, he, hparts'⟩ := hb
  refine ⟨_, .seq hd he, ?_⟩
  rw [Derivation.fragments, hparts, hparts']
  rfl

/-- What stands for nothing may come first. -/
theorem Takes.after (ha : Takes a s [] s₁) (hb : Takes b s₁ parts rest) :
    Takes (.seq a b) s parts rest :=
  ha.seq hb

/-- An expression that fails on what a first one leaves fails after it. -/
theorem Takes.seq_none (ha : Takes a s parts s₁) (hb : Parses table b s₁ none) :
    Parses table (.seq a b) s none := by
  obtain ⟨d, hd, -⟩ := ha
  exact .seq_fail_right hd hb

/-- The last of several expressions. -/
theorem Takes.last (h : Takes a s parts rest) : Takes (.seq a .empty) s parts rest := by
  have hlast := h.seq takes_empty
  rwa [List.append_nil] at hlast

/-- A choice takes what its first branch takes. -/
theorem Takes.choice_left (h : Takes a s parts rest) : Takes (.choice a b) s parts rest := by
  obtain ⟨d, hd, hparts⟩ := h
  exact ⟨d, .choice_left hd, hparts⟩

/-- A choice takes what its second branch takes, where the first fails. -/
theorem Takes.choice_right (ha : Parses table a s none) (h : Takes b s parts rest) :
    Takes (.choice a b) s parts rest := by
  obtain ⟨d, hd, hparts⟩ := h
  exact ⟨d, .choice_right ha hd, hparts⟩

/-- An optional expression takes nothing where it fails. -/
theorem takes_opt_none (h : Parses table a s none) : Takes (.opt a) s [] s :=
  takes_empty.choice_right h

/-- An optional expression takes what the expression takes. -/
theorem Takes.opt (h : Takes a s parts rest) : Takes (.opt a) s parts rest :=
  h.choice_left

/-- A repetition takes nothing where its body fails. -/
theorem takes_star_nil (h : Parses table a s none) : Takes (.star a) s [] s :=
  ⟨_, .star_stop h, rfl⟩

/-- A repetition takes a round, and then what it takes from there. -/
theorem Takes.star_cons (h : Takes a s parts₁ s₁) (hs : Takes (.star a) s₁ parts₂ rest) :
    Takes (.star a) s (parts₁ ++ parts₂) rest := by
  obtain ⟨d, hd, hparts⟩ := h
  obtain ⟨e, he, hparts'⟩ := hs
  refine ⟨_, .star hd he, ?_⟩
  rw [Derivation.fragments, hparts, hparts']
  rfl

/-- The same, where there must be a round. -/
theorem Takes.plus (h : Takes a s parts₁ s₁) (hs : Takes (.star a) s₁ parts₂ rest) :
    Takes (.plus a) s (parts₁ ++ parts₂) rest := by
  obtain ⟨d, hd, hparts⟩ := h
  obtain ⟨e, he, hparts'⟩ := hs
  refine ⟨_, .plus hd he, ?_⟩
  rw [Derivation.fragments, hparts, hparts']
  rfl

/-- A repetition that consumes takes at least one item. -/
theorem Takes.plus_of_star (h : Takes (.star a) s parts rest) (hne : s ≠ rest) :
    Takes (.plus a) s parts rest := by
  obtain ⟨d, hd, hparts⟩ := h
  cases hd with
  | star_stop _ => exact absurd rfl hne
  | star ha hs => exact ⟨_, .plus ha hs, hparts⟩

/-- A captured text stands for itself, whatever its inside stands for. -/
theorem Takes.text (h : Takes a (cs ++ rest) parts rest) :
    Takes (.text a) (cs ++ rest) [.text (String.ofList cs)] rest := by
  obtain ⟨d, hd, -⟩ := h
  obtain rfl : cs = d.chars := List.append_cancel_right hd.eq_append
  exact ⟨_, .text hd, rfl⟩

/-- A rule takes what the table says that it stands for, and makes of the parts what is constructed
of them. -/
theorem Takes.call (h : Takes (table r) s parts rest) (hmade : construct r parts = .ok made) :
    Takes (.call r) s made rest := by
  obtain ⟨d, hd, hparts⟩ := h
  refine ⟨_, .call hd, ?_⟩
  rw [Derivation.fragments, hparts]
  exact hmade

/-! ## Nodes and rules that hand on -/

/-- Steps in a row take what the first steps take and then the others. -/
theorem Takes.seqs_append {steps steps' : List Peg} (h : Takes (seqs steps) s parts₁ s₁)
    (h' : Takes (seqs steps') s₁ parts₂ rest) :
    Takes (seqs (steps ++ steps')) s (parts₁ ++ parts₂) rest := by
  induction steps generalizing s parts₁ with
  | nil =>
      obtain ⟨d, ⟨⟩, hparts⟩ := h
      cases hparts
      exact h'
  | cons step steps ih =>
      obtain ⟨d, hd, hparts⟩ := h
      obtain ⟨d₁, s₂, d₂, h₁, h₂, rfl⟩ := parses_seq_iff.1 hd
      obtain ⟨p₁, p₂, hp₁, hp₂, rfl⟩ := Derivation.fragments_append_eq_ok hparts
      have htail := Takes.seq ⟨d₁, h₁, hp₁⟩ (ih ⟨d₂, h₂, hp₂⟩)
      rwa [← List.append_assoc] at htail

/-- Opening and closing a node stands for nothing. -/
theorem Takes.node {kind : NodeKind} {steps : List Peg} (h : Takes (seqs steps) s parts rest) :
    Takes (node kind steps) s parts rest := by
  have hfinish : Takes (seqs [.action .finish]) rest [] rest := takes_action.last
  have hclosed := h.seqs_append hfinish
  rw [List.append_nil] at hclosed
  exact takes_action.after hclosed

/-- A rule that opens and closes a node takes what the steps between take. -/
theorem Takes.callNode {kind : NodeKind} {steps : List Peg} (hrule : table r = Peg.node kind steps)
    (h : Takes (seqs steps) s parts rest) (hmade : construct r parts = .ok made) :
    Takes (.call r) s made rest := by
  refine Takes.call ?_ hmade
  rw [hrule]
  exact h.node

end RiftLang
