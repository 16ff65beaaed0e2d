import Mathlib.Data.List.Forall2
import RiftLang.Proofs.Backtracking
import RiftLang.Proofs.Cursor.Growth
import RiftLang.Proofs.Nesting.Trees

/-!
# The path to a look

Seen from where a match began, every look shows what the match has opened and recorded on its way
there, after what was open and live before.

* `OpenRule.Divides` — the tokens recorded before a rule was entered end where it begins, and those
  recorded since lie inside it.
* `Cursor.Sees` — a sight shows these rules opened and these tokens recorded since the cursor.
* `Sees.after`, `Sees.within` — sights later in a row of moves, and inside a capture.
* `Moves.sees` — all sights of all moves are of this kind.
-/

namespace RiftLang

/-- Where a token of a derivation lies. -/
theorem Derivation.bounds_of_mem_tokens {d : Derivation} {start depth : Nat} {t : Token}
    (h : t ∈ d.tokens start depth) :
    start ≤ t.start ∧ t.start ≤ t.stop ∧ t.stop ≤ start + d.width ∧ depth ≤ t.depth := by
  obtain ⟨i, hi⟩ := List.mem_iff_getElem?.1 h
  have hstamped : (⟨t, 0 + i⟩ : IndexedToken) ∈ d.stamped start depth 0 :=
    List.mem_map.2 ⟨(t, 0 + i), List.mk_add_mem_zipIdx_iff_getElem?.2 hi, rfl⟩
  have hbounds := bounds_of_mem_stamped hstamped
  exact ⟨hbounds.start_le, hbounds.le_stop, hbounds.stop_le, hbounds.depth_le⟩

/-- Of these tokens, the first `n` were recorded before the rule was entered and end there, and the
others were recorded inside it. -/
def OpenRule.Divides (o : OpenRule) (tokens : List Token) (n : Nat) : Prop :=
  ∃ before inside, tokens = before ++ inside ∧ before.length = n ∧
    (∀ t ∈ before, t.stop ≤ o.start) ∧
    ∀ t ∈ inside, o.start ≤ t.start ∧ o.depth < t.depth

namespace Cursor

/-- From `c` on these rules were opened and these tokens recorded when the sight was taken. -/
structure Sees (c : Cursor) (s : Sight) (opened : List OpenRule) (recorded : List Token) :
    Prop where
  /-- The look is here or farther on. -/
  position_le : c.position ≤ s.offset
  /-- It is not past the end of the source. -/
  offset_le : s.offset ≤ c.source.size
  /-- The rules opened since lie inside those that were open. -/
  openRules_eq : s.openRules = c.openRules.reverse ++ opened
  /-- The tokens recorded since come after those that were live. -/
  tokens_eq : s.tokens = c.view.live ++ recorded
  /-- Open rules begin one after the other, each deeper than the one before. -/
  nested : opened.Pairwise fun o o' => o.start ≤ o'.start ∧ o.depth < o'.depth
  /-- Rules were opened between here and the look, no less deep. -/
  bounds_of_opened : ∀ o ∈ opened, c.position ≤ o.start ∧ o.start ≤ s.offset ∧ c.depth ≤ o.depth
  /-- Tokens span text between here and the look, and are no less deep. -/
  bounds_of_recorded : ∀ t ∈ recorded,
    c.position ≤ t.start ∧ t.start ≤ t.stop ∧ t.stop ≤ s.offset ∧ c.depth ≤ t.depth
  /-- Every open rule was entered after so many tokens. -/
  entered : List.Forall₂ (fun o n => ∃ k, n = c.tokenCount + k ∧ o.Divides recorded k)
    opened s.entries

variable {c c' : Cursor} {d : Derivation} {s : Sight} {sights : List Sight} {opened : List OpenRule}
  {recorded : List Token}

/-- What a cursor would see now, it sees with no rule opened and no token recorded since. -/
theorem InBounds.sees_sight (hc : c.InBounds) : c.Sees c.sight [] [] where
  position_le := Nat.le_refl _
  offset_le := hc.position_le
  openRules_eq := (List.append_nil _).symm
  tokens_eq := (List.append_nil _).symm
  nested := List.Pairwise.nil
  bounds_of_opened := by simp
  bounds_of_recorded := by simp
  entered := List.Forall₂.nil

/-- What is seen later was also seen after what was recorded before. -/
theorem Sees.after (h : c'.Sees s opened recorded) (hc : c.Sound) (hkeeps : c.Keeps c')
    (hrecords : c.Records d c') :
    c.Sees s opened (d.tokens c.position c.depth ++ recorded) where
  position_le := hkeeps.position_le.trans h.position_le
  offset_le := by
    rw [← hkeeps.source_eq]
    exact h.offset_le
  openRules_eq := by
    rw [← hkeeps.openRules_eq]
    exact h.openRules_eq
  tokens_eq := by rw [h.tokens_eq, hrecords.live_eq, List.append_assoc]
  nested := h.nested
  bounds_of_opened o ho := by
    obtain ⟨hle, hle', hdepth⟩ := h.bounds_of_opened o ho
    exact ⟨hkeeps.position_le.trans hle, hle', hkeeps.depth_eq ▸ hdepth⟩
  bounds_of_recorded t ht := by
    rcases List.mem_append.1 ht with ht | ht
    · obtain ⟨hstart, hspan, hstop, hdepth⟩ := Derivation.bounds_of_mem_tokens ht
      rw [← hrecords.position_eq] at hstop
      exact ⟨hstart, hspan, hstop.trans h.position_le, hdepth⟩
    · obtain ⟨hstart, hspan, hstop, hdepth⟩ := h.bounds_of_recorded t ht
      exact ⟨hkeeps.position_le.trans hstart, hspan, hstop, hkeeps.depth_eq ▸ hdepth⟩
  entered := by
    have hcount : c'.tokenCount = c.tokenCount + (d.tokens c.position c.depth).length := by
      rw [← hrecords.steady.sound.length_live, hrecords.live_eq, List.length_append, hc.length_live]
    have hstart : ∀ o ∈ opened, c'.position ≤ o.start := fun o ho => (h.bounds_of_opened o ho).1
    refine ((List.forall₂_and_left _ _).2 ⟨hstart, h.entered⟩).imp ?_
    rintro o n ⟨hle, k, rfl, before, inside, rfl, rfl, hbefore, hinside⟩
    refine ⟨(d.tokens c.position c.depth).length + before.length, by omega,
      d.tokens c.position c.depth ++ before, inside, (List.append_assoc ..).symm,
      List.length_append, fun t ht => ?_, hinside⟩
    rcases List.mem_append.1 ht with ht | ht
    · obtain ⟨-, -, hstop, -⟩ := Derivation.bounds_of_mem_tokens ht
      rw [← hrecords.position_eq] at hstop
      exact hstop.trans hle
    · exact hbefore t ht

/-- What is seen inside a capture is seen from outside, with one more rule open if the capture is of
a rule. -/
theorem Sees.within {symbol : Symbol} (h : (c.enter symbol).Sees s opened recorded) :
    ∃ opened', c.Sees (s.within symbol c.tokenCount) opened' recorded := by
  have hopened : ∀ o ∈ opened, c.position ≤ o.start ∧ o.start ≤ s.offset ∧ c.depth < o.depth :=
    h.bounds_of_opened
  have hrecorded : ∀ t ∈ recorded, c.position ≤ t.start ∧ t.start ≤ t.stop ∧ t.stop ≤ s.offset ∧
      c.depth < t.depth :=
    h.bounds_of_recorded
  have hopened' : ∀ o ∈ opened, c.position ≤ o.start ∧ o.start ≤ s.offset ∧ c.depth ≤ o.depth :=
    fun o ho => by
    obtain ⟨hstart, hstop, hdepth⟩ := hopened o ho
    exact ⟨hstart, hstop, hdepth.le⟩
  have hrecorded' : ∀ t ∈ recorded, c.position ≤ t.start ∧ t.start ≤ t.stop ∧ t.stop ≤ s.offset ∧
      c.depth ≤ t.depth :=
    fun t ht => by
      obtain ⟨hstart, hspan, hstop, hdepth⟩ := hrecorded t ht
      exact ⟨hstart, hspan, hstop, hdepth.le⟩
  cases symbol with
  | text | action _ =>
    exact ⟨opened, h.position_le, h.offset_le, h.openRules_eq, h.tokens_eq, h.nested, hopened',
      hrecorded', h.entered⟩
  | rule r =>
    -- the rule of the capture is entered where the match begins, before anything is recorded
    have hopenRules : s.openRules = (⟨r, c.position, c.depth⟩ :: c.openRules).reverse ++ opened :=
      h.openRules_eq
    have hinside : OpenRule.Divides ⟨r, c.position, c.depth⟩ recorded 0 :=
      ⟨[], recorded, rfl, rfl, by simp, fun t ht => ⟨(hrecorded t ht).1, (hrecorded t ht).2.2.2⟩⟩
    refine ⟨⟨r, c.position, c.depth⟩ :: opened, h.position_le, h.offset_le, ?_, h.tokens_eq, ?_, ?_,
      hrecorded', ?_⟩
    · rw [List.reverse_cons, List.append_assoc] at hopenRules
      exact hopenRules
    · exact List.pairwise_cons.2 ⟨fun o ho => ⟨(hopened o ho).1, (hopened o ho).2.2⟩, h.nested⟩
    · exact List.forall_mem_cons.2 ⟨⟨Nat.le_refl _, h.position_le, Nat.le_refl _⟩, hopened'⟩
    · exact List.Forall₂.cons ⟨0, rfl, hinside⟩ h.entered

/-- Every sight of a match shows what the match has opened and recorded. -/
theorem Moves.sees (h : c.Moves sights c') (hc : c.InBounds) (hsteady : c.Steady) :
    ∀ s ∈ sights, ∃ opened recorded, c.Sees s opened recorded := by
  induction h with
  | stay => simp
  | step test => exact List.forall_mem_singleton.2 ⟨[], [], hc.sees_sight⟩
  | act a => simp
  | replay h => simp
  | trans h _ ih ih' =>
      obtain ⟨d, hrecords⟩ := h.exists_records hsteady
      have hkeeps := h.keeps hc
      refine List.forall_mem_append.2 ⟨ih hc hsteady, fun s hs => ?_⟩
      obtain ⟨opened, recorded, hsees⟩ := ih' hkeeps.inBounds hrecords.steady s hs
      exact ⟨opened, _, hsees.after hsteady.sound hkeeps hrecords⟩
  | restore _ ih => exact ih hc hsteady
  | capture symbol matched _ ih =>
      refine List.forall_mem_map.2 fun s hs => ?_
      obtain ⟨opened, recorded, hsees⟩ := ih (hc.enter symbol) (hsteady.enter symbol) s hs
      obtain ⟨opened', hsees'⟩ := hsees.within
      exact ⟨opened', recorded, hsees'⟩
  | remember r matched _ ih => exact ih hc hsteady

end Cursor

end RiftLang
