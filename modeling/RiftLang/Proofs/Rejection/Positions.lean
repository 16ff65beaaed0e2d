import RiftLang.Proofs.Rejection.Report

/-!
# The positions that reports are given

A report names positions by line and column. They come from one scan for all offsets of the reports,
whatever order the offsets are in and however often one of them is asked for.

* `le_advance`, `after_le_after_append` — no character moves a position back.
* `ofFrontier_spans` — every position of a report was found by the scan.
* `positionsOf_counts` — which offsets are found and where, that later offsets are found at later
  positions, and that a report never falls back on the start of the source.
-/

namespace RiftLang

/-! ## The order of positions -/

namespace Position

/-- A position is not after another if its line is before, or its line is the same and its column is
not after. -/
instance : LE Position where
  le p q := p.line < q.line ∨ p.line = q.line ∧ p.column ≤ q.column

/-- Positions are ordered by line, and within a line by column. -/
theorem le_def {p q : Position} : p ≤ q ↔ p.line < q.line ∨ p.line = q.line ∧ p.column ≤ q.column :=
  Iff.rfl

/-- A position is no later than itself. -/
protected theorem le_refl (p : Position) : p ≤ p :=
  .inr ⟨rfl, le_rfl⟩

/-- The order of positions is transitive. -/
protected theorem le_trans {p q r : Position} (hpq : p ≤ q) (hqr : q ≤ r) : p ≤ r := by
  rw [le_def] at *
  omega

/-- A character never leads back. -/
theorem le_advance (p : Position) (c : Char) : p ≤ p.advance c := by
  unfold advance
  by_cases hc : c = '\n'
  · left
    simp [hc]
  · right
    simp [hc]

/-- The position after a text is not after that of a longer text. -/
theorem after_le_after_append (text more : List Char) : after text ≤ after (text ++ more) := by
  induction more generalizing text with
  | nil =>
      rw [List.append_nil]
      exact Position.le_refl _
  | cons c more ih =>
      have hfirst : after text ≤ after (text ++ [c]) := by
        rw [after_concat]
        exact le_advance _ c
      rw [List.append_cons]
      exact Position.le_trans hfirst (ih (text ++ [c]))

/-- The position after more of a text is no earlier. -/
theorem after_take_le_after_take (text : List Char) {o o' : Nat} (h : o ≤ o') :
    after (text.take o) ≤ after (text.take o') := by
  obtain ⟨k, rfl⟩ := Nat.exists_eq_add_of_le h
  rw [List.take_add]
  exact after_le_after_append ..

end Position

/-! ## What the scan finds -/

section positionsOf

variable (source : Array Char) (offsets : List Nat)

/-- No offset is found twice. -/
theorem nodup_keys_positionsOf : ((positionsOf source offsets).map Prod.fst).Nodup := by
  unfold positionsOf
  rw [keys_scanPositions]
  apply List.Pairwise.imp (fun hlt => Nat.ne_of_lt hlt)
  exact pairwise_dropRepeats (offsets.pairwise_mergeSort' (· ≤ ·))

variable {source offsets}

/-- Every offset that is asked for gets a position, and no other. -/
theorem mem_keys_positionsOf {o : Nat} : o ∈ (positionsOf source offsets).map Prod.fst ↔
    o ∈ offsets := by
  unfold positionsOf
  rw [keys_scanPositions, mem_dropRepeats, List.mem_mergeSort]

/-- An offset is found exactly if it is asked for, at the position after the text before it. Past
the end that is the whole text. -/
theorem lookup_positionsOf_iff {o : Nat} {p : Position} :
    (positionsOf source offsets).lookup o = some p
      ↔ o ∈ offsets ∧ p = .after (source.toList.take (min o source.size)) := by
  have htake : source.toList.take (min o source.size) = source.toList.take o := by
    rw [← List.take_take, ← Array.length_toList, List.take_length]
  rw [htake]
  constructor
  · intro hfound
    obtain ⟨before, after, hsplit, -⟩ := List.lookup_eq_some_iff.1 hfound
    have hkey : o ∈ (positionsOf source offsets).map Prod.fst := by simp [hsplit]
    have ho : o ∈ offsets := mem_keys_positionsOf.1 hkey
    rw [lookup_positionsOf source ho] at hfound
    exact ⟨ho, (Option.some.inj hfound).symm⟩
  · rintro ⟨ho, rfl⟩
    exact lookup_positionsOf source ho

/-- A later offset is found at a later position. -/
theorem lookup_positionsOf_le {o o' : Nat} {p p' : Position}
    (hp : (positionsOf source offsets).lookup o = some p)
    (hp' : (positionsOf source offsets).lookup o' = some p') (h : o ≤ o') : p ≤ p' := by
  obtain ⟨-, rfl⟩ := lookup_positionsOf_iff.1 hp
  obtain ⟨-, rfl⟩ := lookup_positionsOf_iff.1 hp'
  apply Position.after_take_le_after_take
  exact min_le_min_right _ h

end positionsOf

/-! ## What reports use -/

/-- The offsets that the reports of a frontier are about. -/
def Frontier.offsets (f : Frontier) (config : Config) : List Nat :=
  f.offset :: (config.limited f.anchors).flatMap fun t => [t.start, t.stop]

/-- The position that an offset of the reports is given is one that the scan found. -/
theorem lookup_at_positionsOf {source : Array Char} {offsets : List Nat} {o : Nat}
    (h : o ∈ offsets) :
    (positionsOf source offsets).lookup o = some ((positionsOf source offsets).at o) := by
  rw [lookup_positionsOf source h, at_positionsOf source h]

/-- Every position of an error is one that the scan found. -/
theorem ofFrontier_spans (source : Array Char) (f : Frontier) (config : Config) :
    let e := SyntaxError.ofFrontier source f config
    let found := positionsOf source (f.offsets config)
    found.lookup f.offset = some e.farthest ∧
    e.diagnostics.map (fun d => (some d.start, some d.stop))
      = (config.limited f.anchors).map fun t => (found.lookup t.start, found.lookup t.stop) := by
  intro e found
  constructor
  · exact lookup_at_positionsOf List.mem_cons_self
  · have hreports : e.diagnostics = (config.limited f.anchors).map fun t =>
        ⟨t.depth, t.symbol, found.at t.start, found.at t.stop, slice source t.start t.stop⟩ := rfl
    rw [hreports, List.map_map]
    apply List.map_congr_left
    intro t ht
    have hmem : ∀ o ∈ [t.start, t.stop], found.lookup o = some (found.at o) := by
      intro o ho
      apply lookup_at_positionsOf
      exact List.mem_cons_of_mem _ (List.mem_flatMap.2 ⟨t, ht, ho⟩)
    simp only [Function.comp_apply]
    rw [hmem t.start (by simp), hmem t.stop (by simp)]

/-- Exactly the offsets that are asked for are found, each of them once, at the position that
counting the lines and the characters before it gives, and so at a later position if the offset is
later. All positions of an error are found. -/
theorem positionsOf_counts (source : Array Char) (offsets : List Nat) :
    ((positionsOf source offsets).map Prod.fst).Nodup ∧
    (∀ o, o ∈ (positionsOf source offsets).map Prod.fst ↔ o ∈ offsets) ∧
    (∀ o p, (positionsOf source offsets).lookup o = some p
      ↔ o ∈ offsets ∧ p = .after (source.toList.take (min o source.size))) ∧
    (∀ o o' p p', (positionsOf source offsets).lookup o = some p →
      (positionsOf source offsets).lookup o' = some p' →
      o ≤ o' → p ≤ p') ∧
    ∀ f config,
      let e := SyntaxError.ofFrontier source f config
      let found := positionsOf source (f.offsets config)
      found.lookup f.offset = some e.farthest ∧
      e.diagnostics.map (fun d => (some d.start, some d.stop))
        = (config.limited f.anchors).map fun t => (found.lookup t.start, found.lookup t.stop) := by
  refine ⟨nodup_keys_positionsOf source offsets, fun o => mem_keys_positionsOf,
    fun o p => lookup_positionsOf_iff, ?_, ofFrontier_spans source⟩
  intro o o' p p' hp hp' hle
  exact lookup_positionsOf_le hp hp' hle

/-- Offsets out of order, twice and past the end: the third line begins after the blank one, and
ends with the source. -/
theorem positionsOf_counts_blank_line :
    (positionsOf #['a', '\n', '\n', 'b'] [9, 3, 0, 3]).lookup 3 = some ⟨3, 1⟩ ∧
    (positionsOf #['a', '\n', '\n', 'b'] [9, 3, 0, 3]).lookup 9 = some ⟨3, 2⟩ ∧
    (⟨3, 1⟩ : Position) ≤ ⟨3, 2⟩ := by
  obtain ⟨-, -, hlookup, hmono, -⟩ := positionsOf_counts #['a', '\n', '\n', 'b'] [9, 3, 0, 3]
  have hthree := (hlookup 3 ⟨3, 1⟩).2 ⟨by decide, by decide⟩
  have hnine := (hlookup 9 ⟨3, 2⟩).2 ⟨by decide, by decide⟩
  exact ⟨hthree, hnine, hmono 3 9 _ _ hthree hnine (by decide)⟩

end RiftLang
