import Mathlib.Data.List.Sort
import Mathlib.Order.Nat
import RiftLang.Position

/-!
# Positions by counting

The scan over a source finds the positions that counting gives.

* `Position.after` — the position just after a text: one line more than there are line feeds, and
  one column more than there are characters after the last of them.
* `after_concat` — advancing over a character counts it.
* `lookup_scanPositions` — the invariant of the scan: it carries the position after what it has
  walked over.
* `keys_scanPositions` — the scan finds the wanted offsets and no others.
* `lookup_positionsOf` — an offset that is asked for is found at the position after the text before
  it.
-/

namespace RiftLang

/-- The position just after a text, by counting. -/
def Position.after (text : List Char) : Position where
  line := text.count '\n' + 1
  column := (text.reverse.takeWhile (· ≠ '\n')).length + 1

/-- Before any text, the position is the first. -/
theorem Position.after_nil : after [] = start := rfl

/-- One more character advances the position by that character. -/
theorem Position.after_concat (text : List Char) (c : Char) :
    after (text ++ [c]) = (after text).advance c := by
  unfold after advance
  rw [List.count_append, List.reverse_append]
  by_cases hc : c = '\n'
  · subst hc
    simp
  · simp [hc]

/-! ## The wanted offsets -/

section wanted

variable {o : Nat} {offsets : List Nat}

/-- Dropping repetitions drops no offset altogether. -/
theorem mem_dropRepeats : o ∈ dropRepeats offsets ↔ o ∈ offsets := by
  induction offsets using dropRepeats.induct with
  | case1 b rest ih =>
      simp only [dropRepeats, if_true, ih, List.mem_cons, or_self_left]
  | case2 a b rest hne ih =>
      simp only [dropRepeats, hne, if_false]
      rw [List.mem_cons, ih, ← List.mem_cons]
  | case3 short hshort => rw [dropRepeats.eq_2 short hshort]

/-- What is left of a sorted list increases strictly. -/
theorem pairwise_dropRepeats (h : offsets.Pairwise (· ≤ ·)) :
    (dropRepeats offsets).Pairwise (· < ·) := by
  induction offsets using dropRepeats.induct with
  | case1 b rest ih =>
      simp only [dropRepeats, if_true]
      exact ih h.of_cons
  | case2 a b rest hne ih =>
      simp only [dropRepeats, hne, if_false]
      obtain ⟨hle, hrest⟩ := List.pairwise_cons.1 h
      refine List.pairwise_cons.2 ⟨fun k hk => ?_, ih hrest⟩
      have hlt : a < b := lt_of_le_of_ne (hle b List.mem_cons_self) hne
      rcases List.mem_cons.1 (mem_dropRepeats.1 hk) with rfl | hk
      · exact hlt
      · exact hlt.trans_le ((List.pairwise_cons.1 hrest).1 k hk)
  | case3 short hshort =>
      rw [dropRepeats.eq_2 short hshort]
      rcases short with _ | ⟨a, _ | ⟨b, rest⟩⟩
      · exact List.Pairwise.nil
      · exact List.pairwise_singleton _ a
      · exact absurd rfl (hshort a b rest)

end wanted

/-! ## The scan -/

/-- After `before`, the scan finds for every wanted offset the position after the text before it. -/
theorem lookup_scanPositions {rest before : List Char} {wanted : List Nat} {o : Nat}
    (hwanted : wanted.Pairwise (· < ·)) (hbefore : ∀ k ∈ wanted, before.length ≤ k)
    (ho : o ∈ wanted) :
    (scanPositions rest before.length (.after before) wanted).lookup o
      = some (.after ((before ++ rest).take o)) := by
  induction rest generalizing before wanted with
  | nil =>
      have hall : (before ++ []).take o = before := by
        rw [List.append_nil, List.take_of_length_le (hbefore o ho)]
      have hscan : scanPositions [] before.length (.after before) wanted = wanted.map fun k =>
          (k, .after before) := by
        cases wanted <;> rfl
      rw [hall, hscan]
      exact List.lookup_graph _ ho
  | cons c rest ih =>
      have hnext : scanPositions rest (before.length + 1) ((Position.after before).advance c)
          = scanPositions rest (before ++ [c]).length (.after (before ++ [c])) := by
        rw [Position.after_concat, List.length_append, List.length_singleton]
      have hsplit : before ++ c :: rest = (before ++ [c]) ++ rest := List.append_cons ..
      cases wanted with
      | nil => cases ho
      | cons k wanted =>
        obtain ⟨hlt, hrest⟩ := List.pairwise_cons.1 hwanted
        by_cases hk : k = before.length
        · subst hk
          simp only [scanPositions, if_true, hnext]
          rcases List.mem_cons.1 ho with rfl | ho
          · rw [List.lookup_cons_self, List.take_left' rfl]
          · have hne : (o == before.length) = false := beq_eq_false_iff_ne.2 (hlt o ho).ne'
            rw [List.lookup_cons, hne, hsplit]
            exact ih hrest (fun k hk => by simpa using Nat.succ_le_of_lt (hlt k hk)) ho
        · simp only [scanPositions, hk, if_false, hnext]
          rw [hsplit]
          refine ih hwanted (fun k' hk' => ?_) ho
          have hfirst : before.length < k :=
            lt_of_le_of_ne (hbefore k List.mem_cons_self) (Ne.symm hk)
          rw [List.length_append, List.length_singleton]
          rcases List.mem_cons.1 hk' with rfl | hk'
          · exact hfirst
          · exact hfirst.trans (hlt k' hk')

/-- Whatever is walked over, the offsets that get a position are the wanted ones. -/
theorem keys_scanPositions (text : List Char) (offset : Nat) (p : Position) (wanted : List Nat) :
    (scanPositions text offset p wanted).map Prod.fst = wanted := by
  induction text generalizing offset p wanted with
  | nil =>
      cases wanted with
      | nil => rfl
      | cons o wanted => simp [scanPositions, Function.comp_def]
  | cons c text ih =>
      cases wanted with
      | nil => rfl
      | cons o wanted =>
          unfold scanPositions
          split
          · rw [List.map_cons, ih]
          · exact ih ..

/-! ## The positions of several offsets -/

/-- An offset that is asked for is found at the position after the text before it. -/
theorem lookup_positionsOf (source : Array Char) {offsets : List Nat} {o : Nat} (h : o ∈ offsets) :
    (positionsOf source offsets).lookup o = some (.after (source.toList.take o)) := by
  have hwanted := pairwise_dropRepeats (offsets.pairwise_mergeSort' (· ≤ ·))
  have hmem : o ∈ dropRepeats (offsets.mergeSort (· ≤ ·)) :=
    mem_dropRepeats.2 (List.mem_mergeSort.2 h)
  -- the scan begins at the start, which is the position after no text
  have hfound : (scanPositions source.toList ([] : List Char).length (.after [])
      (dropRepeats (offsets.mergeSort (· ≤ ·)))).lookup o =
        some (.after (([] ++ source.toList).take o)) :=
    lookup_scanPositions hwanted (fun _ _ => Nat.zero_le _) hmem
  rwa [Position.after_nil] at hfound

/-- The position of an offset that is asked for is the position after the text before it. -/
theorem at_positionsOf (source : Array Char) {offsets : List Nat} {o : Nat} (h : o ∈ offsets) :
    (positionsOf source offsets).at o = .after (source.toList.take o) := by
  unfold Positions.at
  rw [lookup_positionsOf source h, Option.getD_some]

end RiftLang
