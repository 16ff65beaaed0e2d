import RiftLang.Proofs.Cursor.Checked
import RiftLang.Proofs.Cursor.Course

/-!
# Matching stays in range

Every slot that is written is there or is the next one, every stretch that is read is there, and
nothing is taken away from less. None of this is looked after where it happens: it rests on what
captures, checkpoints and the log keep.

* `Cursor.Nested` — open rules lie inside each other, and the cursor lies inside all of them.
* `Cursor.InRange` — what holds of a cursor between two operations on it.
* `Session.Reached.steady`, `Session.Reached.nested` — both parts of it hold in sessions without a
  commit, whatever was tried, and to whichever checkpoint the cursor went back, be it behind or
  ahead.
* `Passes.exists_reached` — what a match passes through a session reaches as well.
* `matching_stays_in_range` — so it holds where any pattern that a match tries begins or ends.
  Inside the single operations it is the checks that count, and none of them ever fails.

After a commit it need not hold: the slots that are dropped may be those that a snapshot still
needs.
-/

namespace RiftLang

/-! ## Ranges -/

namespace Cursor

/-- Each open rule was entered deeper than the one around it and not before it, and the cursor is
deeper than all of them and not before them. -/
structure Nested (c : Cursor) : Prop where
  /-- Each rule lies inside the next outer one. -/
  pairwise : c.openRules.Pairwise fun inner outer =>
    outer.depth < inner.depth ∧ outer.start ≤ inner.start
  /-- The cursor is deeper than all of them. -/
  depth_lt : ∀ o ∈ c.openRules, o.depth < c.depth
  /-- It stands where each of them was entered, or farther on. -/
  start_le : ∀ o ∈ c.openRules, o.start ≤ c.position

/-- Position, live tokens and snapshot lie within the source and the log, and the open rules lie
inside each other. -/
structure InRange (c : Cursor) : Prop where
  /-- The position is the end of the source or before. -/
  position_le : c.position ≤ c.source.size
  /-- Live tokens were written. -/
  tokenCount_le : c.tokenCount ≤ c.log.size
  /-- The slots that the snapshot still needs are there. -/
  kept_le : ∀ s, c.snapshot = some s → s.kept ≤ c.log.size
  /-- The open rules lie inside each other, and the cursor lies inside them. -/
  nested : c.Nested

variable {c d : Cursor}

/-- Matching leaves the open rules and the depth alone and only goes on. -/
theorem Nested.of_keeps (hc : c.Nested) (h : c.Keeps d) : d.Nested := by
  refine ⟨?_, ?_, ?_⟩
  · rw [h.openRules_eq]
    exact hc.pairwise
  · rw [h.openRules_eq, h.depth_eq]
    exact hc.depth_lt
  · rw [h.openRules_eq]
    intro o ho
    exact (hc.start_le o ho).trans h.position_le

/-- A rule that is entered lies inside those that are open. -/
theorem Nested.enter (hc : c.Nested) (symbol : Symbol) : (c.enter symbol).Nested := by
  have hdepth : ∀ o ∈ c.openRules, o.depth < c.depth + 1 :=
    fun o ho => (hc.depth_lt o ho).trans (Nat.lt_succ_self _)
  cases symbol with
  | rule r =>
      refine ⟨?_, ?_, ?_⟩
      · apply List.pairwise_cons.2
        exact ⟨fun o ho => ⟨hc.depth_lt o ho, hc.start_le o ho⟩, hc.pairwise⟩
      · exact List.forall_mem_cons.2 ⟨Nat.lt_succ_self _, hdepth⟩
      · exact List.forall_mem_cons.2 ⟨Nat.le_refl _, hc.start_le⟩
  | text | action _ => exact ⟨hc.pairwise, hdepth, hc.start_le⟩

end Cursor

/-! ## Sessions -/

section sessions

variable {source : Array Char} {capacity : Nat} {s : Session}

/-- As long as no slots are dropped, everything that the cursor refers to is there. -/
theorem Session.Reached.steady (hs : s.Reached source capacity)
    (hcommitted : s.isCommitted = false) :
    s.cursor.Steady := by
  induction hs with
  | start => exact Cursor.steady_ofChars source capacity
  | @tried s g depth p sights matched c hs h ih =>
      obtain ⟨w, hw⟩ :=
        (p.moves_watch (g.moves_watch depth) _ _ _ _ h).exists_records (ih hcommitted)
      exact hw.steady
  | save _ ih => exact ih hcommitted
  | @back s k hs hk ih =>
      have hsteady := ih hcommitted
      obtain ⟨-, -, hsaved⟩ := hs.inBounds
      exact ⟨hsteady.sound.restore (hsaved k hk).2, hsteady.recalls⟩
  | enter symbol _ ih => exact (ih hcommitted).enter symbol
  | commit _ _ => cases hcommitted

/-- The cursor lies inside the open rules, and so do the checkpoints that it can go back to. -/
theorem Session.Reached.nested (hs : s.Reached source capacity) :
    s.cursor.Nested ∧ ∀ k ∈ s.saved, k.depth = s.cursor.depth ∧
      ∀ o ∈ s.cursor.openRules, o.start ≤ k.position := by
  induction hs with
  | start => exact ⟨⟨.nil, by simp [Cursor.ofChars], by simp [Cursor.ofChars]⟩, by simp⟩
  | @tried s g depth p sights matched c hs h ih =>
      obtain ⟨hnested, hsaved⟩ := ih
      obtain ⟨-, hbounds, -⟩ := hs.inBounds
      have hkeeps := (p.moves_watch (g.moves_watch depth) _ _ _ _ h).keeps hbounds
      refine ⟨hnested.of_keeps hkeeps, ?_⟩
      rw [hkeeps.depth_eq, hkeeps.openRules_eq]
      exact hsaved
  | save _ ih =>
      obtain ⟨hnested, hsaved⟩ := ih
      exact ⟨hnested, List.forall_mem_cons.2 ⟨⟨rfl, hnested.start_le⟩, hsaved⟩⟩
  | @back s k _ hk ih =>
      obtain ⟨hnested, hsaved⟩ := ih
      obtain ⟨hdepth, hstart⟩ := hsaved k hk
      refine ⟨⟨hnested.pairwise, ?_, hstart⟩, ?_⟩
      · show ∀ o ∈ s.cursor.openRules, o.depth < k.depth
        rw [hdepth]
        exact hnested.depth_lt
      · intro k' hk'
        obtain ⟨hdepth', hstart'⟩ := hsaved k' hk'
        exact ⟨hdepth'.trans hdepth.symm, hstart'⟩
  | enter symbol _ ih => exact ⟨ih.1.enter symbol, by simp⟩
  | commit _ ih =>
      obtain ⟨hnested, hsaved⟩ := ih
      refine ⟨⟨hnested.pairwise, hnested.depth_lt, hnested.start_le⟩, ?_⟩
      intro k hk
      exact hsaved k (List.mem_filter.1 hk).1

/-- As long as nothing was committed, the cursor of a session is in range. -/
theorem Session.Reached.inRange (hs : s.Reached source capacity)
    (hcommitted : s.isCommitted = false) :
    s.cursor.InRange := by
  obtain ⟨-, hbounds, -⟩ := hs.inBounds
  have hsteady := hs.steady hcommitted
  exact ⟨hbounds.position_le, hbounds.tokenCount_le, hsteady.sound.kept_le, hs.nested.1⟩

/-! ### In the course of a match -/

variable {g : Grammar} {p q body : Pattern} {captures : List OpenCapture} {matched : Bool}
  {d e : Cursor}

/-- A session that goes on where a pattern has ended. -/
theorem Ends.exists_reached (h : Ends g q s.cursor matched d) (hs : s.Reached source capacity) :
    ∃ s' : Session, s'.Reached source capacity ∧ s'.isCommitted = s.isCommitted ∧
      s'.saved = s.saved ∧ s'.cursor = d := by
  obtain ⟨depth, h⟩ := h
  rw [← q.map_watch (g.map_watch depth)] at h
  obtain ⟨⟨sights, _⟩, hwatch, rfl⟩ := Option.map_eq_some_iff.1 h
  exact ⟨_, .tried hs hwatch, rfl, rfl, rfl⟩

/-- A session can go on where rounds of a repetition lead. -/
theorem Rounds.exists_reached (h : Rounds g body s.cursor d) (hs : s.Reached source capacity) :
    ∃ s' : Session, s'.Reached source capacity ∧ s'.isCommitted = s.isCommitted ∧
      s'.cursor = d := by
  induction h with
  | start => exact ⟨s, hs, rfl, rfl⟩
  | next _ hbody _ ih =>
      obtain ⟨s', hs', hcommitted, rfl⟩ := ih
      obtain ⟨s'', hs'', hcommitted', -, hcursor⟩ := hbody.exists_reached hs'
      exact ⟨s'', hs'', hcommitted'.trans hcommitted, hcursor⟩

/-- Wherever a match tries a pattern, a session can try it as well. -/
theorem Tries.exists_reached (h : Tries g p s.cursor captures q d)
    (hs : s.Reached source capacity) :
    ∃ s' : Session, s'.Reached source capacity ∧ s'.isCommitted = s.isCommitted ∧
      s'.cursor = d := by
  induction h with
  | self => exact ⟨s, hs, rfl, rfl⟩
  | first _ ih | preferred _ ih | absent _ ih | call _ ih => exact ih
  | second _ ha ih =>
      obtain ⟨s', hs', hcommitted, rfl⟩ := ih
      obtain ⟨s'', hs'', hcommitted', -, hcursor⟩ := ha.exists_reached hs'
      exact ⟨s'', hs'', hcommitted'.trans hcommitted, hcursor⟩
  | otherwise _ ha ih =>
      -- the checkpoint of the choice is taken first, so that the session can go back to it
      obtain ⟨s', hs', hcommitted, rfl⟩ := ih
      obtain ⟨s'', hs'', hcommitted', hsaved, rfl⟩ :=
        Ends.exists_reached (s := { s' with saved := s'.cursor.checkpoint :: s'.saved }) ha hs'.save
      refine ⟨_, .back (k := s'.cursor.checkpoint) hs'' ?_, hcommitted'.trans hcommitted, rfl⟩
      rw [hsaved]
      exact List.mem_cons_self
  | round _ hrounds ih =>
      obtain ⟨s', hs', hcommitted, rfl⟩ := ih
      obtain ⟨s'', hs'', hcommitted', hcursor⟩ := hrounds.exists_reached hs'
      exact ⟨s'', hs'', hcommitted'.trans hcommitted, hcursor⟩
  | @rule _ r _ _ _ ih | @memo _ r _ _ _ _ ih =>
      obtain ⟨s', hs', hcommitted, rfl⟩ := ih
      exact ⟨_, .enter (.rule r) hs', hcommitted, rfl⟩
  | text _ ih =>
      obtain ⟨s', hs', hcommitted, rfl⟩ := ih
      exact ⟨_, .enter .text hs', hcommitted, rfl⟩

/-- Wherever a match passes, a session can get to as well. -/
theorem Passes.exists_reached (h : Passes g p s.cursor captures d)
    (hs : s.Reached source capacity) :
    ∃ s' : Session, s'.Reached source capacity ∧ s'.isCommitted = s.isCommitted ∧
      s'.cursor = d := by
  cases h with
  | begin h => exact h.exists_reached hs
  | finish h hq =>
      obtain ⟨s', hs', hcommitted, rfl⟩ := h.exists_reached hs
      obtain ⟨s'', hs'', hcommitted', -, hcursor⟩ := hq.exists_reached hs'
      exact ⟨s'', hs'', hcommitted'.trans hcommitted, hcursor⟩

end sessions

/-- In a session without a commit the cursor is in range, and so is every cursor that a match of any
pattern over any grammar passes through from there. No check fails on the way: with checks the match
does what it does without. -/
theorem matching_stays_in_range {source : Array Char} {capacity : Nat} {s : Session}
    (hs : s.Reached source capacity) (hcommitted : s.isCommitted = false) :
    s.cursor.InRange ∧ ∀ (g : Grammar) (p : Pattern),
      (∀ captures d, Passes g p s.cursor captures d → d.InRange) ∧
      ∀ depth, p.check (g.check depth) s.cursor = .ok (p.eval (g.run depth) s.cursor) := by
  refine ⟨hs.inRange hcommitted, fun g p => ⟨?_, ?_⟩⟩
  · intro captures d hpasses
    obtain ⟨s', hs', hcommitted', rfl⟩ := hpasses.exists_reached hs
    exact hs'.inRange (hcommitted'.trans hcommitted)
  · intro depth
    exact p.check_eq (g.check_eq depth) _ (hs.steady hcommitted)

/-- The cursor goes back, writes over a token and goes ahead again to where two are live; inside a
rule it then matches another one twice, the second time from memory. -/
theorem matching_stays_in_range_ahead :
    let digit := Pattern.memo .digit .any
    let p := Pattern.either (.both digit .fail) (.both digit (.action .attach))
    ∃ s, Session.Reached #['a', 'b', 'c'] 1 s ∧ s.isCommitted = false ∧
      s.cursor.checkpoint = ⟨2, 2, 1⟩ ∧
      s.cursor.openRules = [⟨.name, 2, 0⟩] ∧ s.cursor.InRange ∧
      (p.check (Grammar.check (fun _ => .succeed) 0) s.cursor).map
        (·.map fun r => (r.1, r.2.checkpoint)) =
        .ok (some (true, ⟨3, 4, 1⟩)) := by
  intro digit p
  have hfailed : Session.Reached #['a', 'b', 'c'] 1 _ :=
    .tried (.save .start) (show (Pattern.all [.text .any, .text .any, .char 'x']).watch
      (Grammar.watch (fun _ => .succeed) 0) _ = some (_, false, _) from rfl)
  have hback : Session.Reached #['a', 'b', 'c'] 1 _ :=
    .back (k := ⟨0, 0, 0⟩) (.save hfailed) (List.mem_cons_of_mem _ List.mem_cons_self)
  have hover : Session.Reached #['a', 'b', 'c'] 1 _ :=
    .tried hback (show (Pattern.action .attach).watch (Grammar.watch (fun _ => .succeed) 0) _
      = some (_, true, _) from rfl)
  have hahead : Session.Reached #['a', 'b', 'c'] 1 _ :=
    .enter (.rule .name) (.back (k := ⟨2, 2, 0⟩) hover List.mem_cons_self)
  obtain ⟨hrange, hall⟩ := matching_stays_in_range hahead rfl
  refine ⟨_, hahead, rfl, rfl, rfl, hrange, ?_⟩
  rw [(hall (fun _ => .succeed) p).2 0]
  exact congrArg Except.ok (by decide +kernel)

end RiftLang
