import Mathlib.Data.List.Induction
import RiftLang.Proofs.Backtracking

/-!
# The frontier is the first look at the farthest offset

A cursor keeps its frontier as a number of slots, which later branches overwrite, together with the
tokens displaced from them. What it shows all the same is the sight that was first to reach the
farthest offset.

* `IsFirstFarthest` — the first of the farthest among some sights.
* `Moves.frontier_eq` — along moves the frontier changes with the sights that they take and with
  nothing else.
* `frontier_is_first_farthest_sight` — the frontier in every state that a session gets into,
  whatever was recorded, put back and repeated in it.
-/

namespace RiftLang

/-! ## Sights in a row -/

/-- The frontier after a sight. -/
def Sight.note (frontier : Option Frontier) (s : Sight) : Option Frontier :=
  Frontier.reach frontier s.offset s.openRules.reverse s.tokens

/-- The first of the farthest sights: those before it are nearer, and those after it are no
farther. -/
def IsFirstFarthest (sights : List Sight) (first : Sight) : Prop :=
  ∃ before after, sights = before ++ first :: after ∧ (∀ s ∈ before, s.offset < first.offset) ∧
    ∀ s ∈ after, s.offset ≤ first.offset

/-- No sight is farther than the first of the farthest. -/
theorem IsFirstFarthest.le {sights : List Sight} {first s : Sight}
    (h : IsFirstFarthest sights first) (hs : s ∈ sights) : s.offset ≤ first.offset := by
  obtain ⟨before, after, rfl, hbefore, hafter⟩ := h
  rcases List.mem_append.1 hs with hs | hs
  · exact (hbefore s hs).le
  · rcases List.mem_cons.1 hs with rfl | hs
    · exact Nat.le_refl _
    · exact hafter s hs

/-- A sight counts for the same in a frontier from inside a capture and from outside. -/
theorem note_within (symbol : Symbol) (n : Nat) (frontier : Option Frontier) (s : Sight) :
    (s.within symbol n).note frontier = s.note frontier := by
  have h := s.toFrontier_within symbol n
  unfold Sight.note
  rw [h]

/-- Sights in a row leave the first of the farthest as the frontier. -/
theorem exists_firstFarthest {sights : List Sight} (h : sights ≠ []) :
    ∃ first, IsFirstFarthest sights first ∧
      sights.foldl Sight.note none = some first.toFrontier := by
  induction sights using List.reverseRecOn with
  | nil => exact absurd rfl h
  | append_singleton sights s ih =>
      rw [List.foldl_append]
      by_cases hnil : sights = []
      · subst hnil
        refine ⟨s, ⟨[], [], rfl, by simp, by simp⟩, ?_⟩
        simp [Sight.note, Frontier.reach]
      · obtain ⟨first, ⟨before, after, rfl, hbefore, hafter⟩, hfold⟩ := ih hnil
        rw [hfold]
        by_cases hfar : first.offset < s.offset
        · -- the new sight is the farthest, so all others stand before it
          have hall : ∀ k ∈ before ++ first :: after, k.offset < s.offset := fun k hk =>
            (IsFirstFarthest.le ⟨before, after, rfl, hbefore, hafter⟩ hk).trans_lt hfar
          refine ⟨s, ⟨_, [], rfl, hall, by simp⟩, ?_⟩
          simp [Sight.note, Frontier.reach, hfar]
        · refine ⟨first, ⟨before, after ++ [s], by simp, hbefore, ?_⟩, ?_⟩
          · intro k hk
            rcases List.mem_append.1 hk with hk | hk
            · exact hafter k hk
            · rw [List.mem_singleton.1 hk]
              exact Nat.not_lt.1 hfar
          · simp [Sight.note, Frontier.reach, hfar]

/-! ## Moves -/

namespace Cursor

variable {c d : Cursor} {sights : List Sight}

/-- Reading a character looks once, at the offset where the cursor stands; nothing else touches the
frontier. -/
theorem frontier_step (c : Cursor) (test : Char → Bool) :
    (c.step test).2.view.frontier = c.sight.note c.view.frontier := by
  have hlook : c.look.view.frontier = c.sight.note c.view.frontier := by
    rw [view_look]
    unfold Sight.note sight
    rw [List.reverse_reverse]
    rfl
  unfold step
  dsimp only
  split
  · split
    · exact hlook
    · exact hlook
  · exact hlook

/-- Recording tokens leaves the frontier that shows as it is, though the slots under it are
overwritten. -/
theorem InBounds.frontier_foldl_emit (hc : c.InBounds) (tokens : List Token) :
    (tokens.foldl (fun c t => c.emit { t with depth := t.depth + c.depth }) c).view.frontier =
      c.view.frontier := by
  induction tokens generalizing c with
  | nil => rfl
  | cons t tokens ih =>
      rw [List.foldl_cons, ih (hc.keeps_emit _).inBounds]
      exact frontier_emit hc.tokenCount_le _

/-- Repeating a remembered attempt looks at nothing. -/
theorem InBounds.frontier_replay (hc : c.InBounds) (memo : Memo) :
    (c.replay memo).2.view.frontier = c.view.frontier := by
  cases memo with
  | failed => rfl
  | matched stop tokens => exact hc.frontier_foldl_emit tokens

/-- Leaving a capture leaves the frontier that shows as it is, whether the capture matched or
failed. -/
theorem Keeps.frontier_leave {symbol : Symbol} (h : (c.enter symbol).Keeps d) (matched : Bool) :
    (d.leave symbol c.checkpoint matched).2.view.frontier = d.view.frontier := by
  rw [leave_of_openRules_eq h.openRules_eq]
  cases matched with
  | true =>
    have hclosed : ({ d with openRules := c.openRules, depth := d.depth - 1 } :
        Cursor).view.frontier
        = d.view.frontier := rfl
    rw [← hclosed]
    exact frontier_emit h.inBounds.tokenCount_le _
  | false => rfl

/-- The frontier changes with the sights that are taken, and with nothing else. -/
theorem Moves.frontier_eq (h : c.Moves sights d) (hc : c.InBounds) :
    d.view.frontier = sights.foldl Sight.note c.view.frontier := by
  induction h with
  | stay => rfl
  | step test => exact frontier_step _ test
  | act a => exact frontier_emit hc.tokenCount_le _
  | replay h => exact hc.frontier_replay _
  | trans h _ ih ih' =>
      rw [ih' (h.keeps hc).inBounds, ih hc, List.foldl_append]
  | restore _ ih => exact ih hc
  | @capture c d sights symbol matched h ih =>
      have hnote : (fun f s => (Sight.within symbol c.tokenCount s).note f) = Sight.note := by
        funext f s
        exact note_within symbol c.tokenCount f s
      rw [(h.keeps (hc.enter symbol)).frontier_leave, ih (hc.enter symbol), List.foldl_map, hnote]
      rfl
  | remember r matched _ ih => exact ih hc

end Cursor

/-! ## Sessions -/

/-- As long as nothing was committed, the frontier of a session is what its sights make of it, taken
one after another. The induction is on how the session was reached. -/
theorem Session.Reached.frontier_eq {source : Array Char} {capacity : Nat} {s : Session}
    (hs : s.Reached source capacity) (hcommitted : s.isCommitted = false) :
    s.cursor.view.frontier = s.sights.foldl Sight.note none := by
  induction hs with
  | start => rfl
  | @tried s g depth p sights matched c hs h ih =>
      have hmoves := p.moves_watch (g.moves_watch depth) _ _ _ _ h
      obtain ⟨-, hbounds, -⟩ := hs.inBounds
      rw [hmoves.frontier_eq hbounds, ih hcommitted, List.foldl_append]
  | save _ ih => exact ih hcommitted
  | back _ _ ih => exact ih hcommitted
  | enter symbol _ ih => exact ih hcommitted
  | commit _ _ => cases hcommitted

/-- In every session without a commit the farthest offset looked at and the frontier are those of
the first of the farthest sights, and those of a fresh cursor before there is a sight. Listing
sights changes no outcome. -/
theorem frontier_is_first_farthest_sight :
    (∀ (g : Grammar) (depth : Nat) (p : Pattern) (c : Cursor),
      (p.watch (g.watch depth) c).map Prod.snd = p.eval (g.run depth) c) ∧
    ∀ (source : Array Char) (capacity : Nat) (s : Session), s.Reached source capacity →
      s.isCommitted = false →
      (s.sights = [] → s.cursor.farthest = 0 ∧ s.cursor.frontier = .empty) ∧
      (s.sights ≠ [] → ∃ first, IsFirstFarthest s.sights first ∧
        s.cursor.farthest = first.offset ∧ s.cursor.frontier = first.toFrontier) := by
  refine ⟨fun g depth p c => p.map_watch (g.map_watch depth) c,
    fun source capacity s hs hcommitted => ?_⟩
  have hfrontier := hs.frontier_eq hcommitted
  constructor
  · intro hnil
    rw [hnil] at hfrontier
    rw [Cursor.farthest_eq_view, Cursor.frontier_eq_view, hfrontier]
    exact ⟨rfl, rfl⟩
  · intro hne
    obtain ⟨first, hfirst, hfold⟩ := exists_firstFarthest hne
    rw [hfold] at hfrontier
    refine ⟨first, hfirst, ?_, ?_⟩
    · rw [Cursor.farthest_eq_view, hfrontier]
      rfl
    · rw [Cursor.frontier_eq_view, hfrontier]
      rfl

/-- The token that was live at the farthest sight shows after its slot was written over. -/
theorem frontier_is_first_farthest_sight_overwritten : ∃ s first, Session.Reached #['a', 'b'] 1 s ∧
    s.isCommitted = false ∧ s.sights.length = 2 ∧
    s.cursor.log.toList = [⟨.action .attach, 0, 0, 0⟩] ∧
    IsFirstFarthest s.sights first ∧ s.cursor.frontier = first.toFrontier ∧
    first.toFrontier = ⟨1, [], [⟨.text, 0, 1, 0⟩]⟩ := by
  obtain ⟨s, hs, hcommitted, hlength, hlog, hshown⟩ : ∃ s, Session.Reached #['a', 'b'] 1 s ∧
      s.isCommitted = false ∧ s.sights.length = 2 ∧
      s.cursor.log.toList = [⟨.action .attach, 0, 0, 0⟩] ∧
      s.cursor.frontier = ⟨1, [], [⟨.text, 0, 1, 0⟩]⟩ := by
    have hfailed : Session.Reached #['a', 'b'] 1 _ :=
      .tried (.save .start)
        (show (Pattern.both (.text .any) (.char 'x')).watch (Grammar.watch (fun _ => .succeed) 0) _
        = some (_, false, _) from rfl)
    have hback : Session.Reached #['a', 'b'] 1 _ :=
      .back (k := ⟨0, 0, 0⟩) hfailed List.mem_cons_self
    have hacted : Session.Reached #['a', 'b'] 1 _ :=
      .tried hback (show (Pattern.action .attach).watch (Grammar.watch (fun _ => .succeed) 0) _
        = some (_, true, _) from rfl)
    exact ⟨_, hacted, rfl, rfl, by decide +kernel, by decide +kernel⟩
  have hne : s.sights ≠ [] := by
    intro hnil
    rw [hnil] at hlength
    cases hlength
  obtain ⟨first, hfirst, -, hfrontier⟩ :=
    (frontier_is_first_farthest_sight.2 _ _ s hs hcommitted).2 hne
  exact ⟨s, first, hs, hcommitted, hlength, hlog, hfirst, hfrontier, hfrontier.symm.trans hshown⟩

end RiftLang
