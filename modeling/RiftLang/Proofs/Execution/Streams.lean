import RiftLang.Proofs.Meaning.Replay

/-!
# Token streams one after the other

The replay of any two streams in a row, whether a grammar produces them or not, comes to the replay
of each. Between them the replay carries nothing but the rifts built and the text captured last, and
an outcome that depends on that text is one that lacks it where the second stream is replayed alone.

* `Replay.Extends` — a replay that has earlier rifts behind it, and maybe an earlier text.
* `FollowsOn` — outcomes of two such replays. `Replay.Extends.step` — one token keeps them so, and
  `Replay.Extends.steps` — so does a stream.
* `replay_append` — two streams in a row build the rifts of both, or fail as the second does.
-/

namespace RiftLang

/-- The second replay stands where the first does, after earlier rifts. Where the first has captured
a text, the second has captured it too. -/
structure Replay.Extends (earlier : List Rift) (r r' : Replay) : Prop where
  /-- The same nodes are open. -/
  frames_eq : r'.frames = r.frames
  /-- The earlier rifts lie below those built since. -/
  built_eq : r'.built = r.built ++ earlier
  /-- The same text is captured, if one is. -/
  captured_eq : ∀ span, r.captured = some span → r'.captured = some span

/-- The second outcome is that of the first after earlier rifts. Where a text is missing in the
first, anything may come of the second. -/
inductive FollowsOn (earlier : List Rift) :
    Except BuildError Replay → Except BuildError Replay → Prop where
  /-- Both go on. -/
  | ok {r r' : Replay} (h : r.Extends earlier r') : FollowsOn earlier (.ok r) (.ok r')
  /-- Both stop with the same error. -/
  | error (e : BuildError) : FollowsOn earlier (.error e) (.error e)
  /-- The first lacks a text. In the second there may be one left from an earlier rift. -/
  | missing (offset : Nat) (outcome : Except BuildError Replay) :
      FollowsOn earlier (.error (.missingText offset)) outcome

namespace Replay

variable {source : Array Char} {earlier : List Rift} {r r' : Replay}

/-- A replay without open nodes is the one that starts, after the rifts that it has built. -/
theorem extends_start (h : r.frames = []) : start.Extends r.built r where
  frames_eq := h
  built_eq := rfl
  captured_eq := nofun

namespace Extends

/-- The same change to the innermost open node, or the same error if there is none, keeps a replay
in step with the one that has earlier rifts. -/
theorem onTop (h : r.Extends earlier r') (offset : Nat) (change : Frame → Frame) :
    FollowsOn earlier (r.onTop offset change) (r'.onTop offset change) := by
  unfold Replay.onTop
  rw [h.frames_eq]
  split
  · exact .error _
  · exact .ok ⟨rfl, h.built_eq, h.captured_eq⟩

/-- A node closes alike; a rift that is done comes before the earlier ones, the latest being
first. -/
theorem close (h : r.Extends earlier r') (offset : Nat) :
    FollowsOn earlier (r.close offset) (r'.close offset) := by
  unfold Replay.close
  rw [h.frames_eq]
  split
  · exact .error _
  · next f outer _ =>
    rcases f.assemble with e | fragment
    · exact .error e
    · rcases outer with _ | ⟨parent, outer⟩
      · cases fragment with
        | rift rift => exact .ok ⟨rfl, congrArg (rift :: ·) h.built_eq, h.captured_eq⟩
        | text _ | node _ | block _ | arguments _ | entry _ _ | operator _ => exact .error _
      · exact .ok ⟨rfl, h.built_eq, h.captured_eq⟩

/-- One token comes to the same, unless it asks for a text that only the second replay may have. -/
theorem step (h : r.Extends earlier r') (t : Token) :
    FollowsOn earlier (r.step source t) (r'.step source t) := by
  unfold Replay.step
  split
  · exact .ok h
  · exact .ok ⟨h.frames_eq, h.built_eq, fun span hspan => hspan⟩
  · exact .ok ⟨congrArg (Frame.begin _ t.start :: ·) h.frames_eq, h.built_eq, h.captured_eq⟩
  · rcases hcaptured : r.captured with _ | ⟨first, last⟩
    · exact .missing t.start _
    · rw [h.captured_eq _ hcaptured]
      exact h.onTop _ _
  · exact h.onTop _ _
  · exact h.close _

/-- So it is for a stream. -/
theorem steps (h : r.Extends earlier r') (tokens : List Token) :
    FollowsOn earlier (r.steps source tokens) (r'.steps source tokens) := by
  induction tokens generalizing r r' with
  | nil => exact .ok h
  | cons t tokens ih =>
      simp only [Replay.steps, List.foldlM_cons]
      have hstep : FollowsOn earlier (r.step source t) (r'.step source t) := h.step t
      revert hstep
      generalize r.step source t = outcome, r'.step source t = outcome'
      intro hstep
      cases hstep with
      | ok h => exact ih h
      | error e => exact .error e
      | missing offset _ => exact .missing offset _

end Extends

/-- A replay finishes where no node is open. -/
theorem finish_eq_ok_iff {program : Source} :
    r.finish = .ok program ↔ r.frames = [] ∧ program = ⟨r.built.reverse⟩ := by
  unfold finish
  rcases r.frames with _ | ⟨f, outer⟩ <;> simp [eq_comm]

/-- What finishes after earlier rifts has them in front. -/
theorem Extends.finish (h : r.Extends earlier r') :
    r'.finish = r.finish.map fun program => ⟨earlier.reverse ++ program.rifts⟩ := by
  unfold Replay.finish
  rw [h.frames_eq, h.built_eq, List.reverse_append]
  split <;> rfl

end Replay

/-- A stream of tokens is replayed from the start and then finished. -/
theorem replay_eq_bind (source : Array Char) (tokens : List Token) :
    replay source tokens = (Replay.start.steps source tokens).bind Replay.finish := rfl

/-- Two streams in a row, of which the first builds a program: they build the rifts of the first
followed by those of the second. Where the second fails, they fail with its error, unless the error
is that a text is missing. -/
theorem replay_append {source : Array Char} {ts us : List Token} {a : Source}
    (h : replay source ts = .ok a) :
    (∀ b, replay source us = .ok b → replay source (ts ++ us) = .ok ⟨a.rifts ++ b.rifts⟩) ∧
    ∀ e, replay source us = .error e → (∀ offset, e ≠ .missingText offset) →
      replay source (ts ++ us) = .error e := by
  rw [replay_eq_bind] at h
  rcases hfirst : Replay.start.steps source ts with e | r
  · rw [hfirst] at h
    cases h
  rw [hfirst] at h
  obtain ⟨hframes, rfl⟩ := Replay.finish_eq_ok_iff.1 h
  -- The second stream is replayed from `r`, which is the start but for the rifts built and the text
  -- captured.
  have hsecond : replay source (ts ++ us) = (r.steps source us).bind Replay.finish := by
    rw [replay_eq_bind, Replay.steps_append, hfirst]
    rfl
  have hsteps : FollowsOn r.built (Replay.start.steps source us) (r.steps source us) :=
    (Replay.extends_start hframes).steps us
  rw [hsecond, replay_eq_bind]
  revert hsteps
  generalize Replay.start.steps source us = outcome, r.steps source us = outcome'
  intro hsteps
  cases hsteps with
  | ok hextends =>
      next s s' =>
      have hfinish : s'.finish = s.finish.map fun program => ⟨r.built.reverse ++ program.rifts⟩ :=
        hextends.finish
      refine ⟨fun b hb => ?_, fun e he _ => ?_⟩
      · have hb : s.finish = .ok b := hb
        show s'.finish = _
        rw [hfinish, hb]
        rfl
      · have he : s.finish = .error e := he
        show s'.finish = _
        rw [hfinish, he]
        rfl
  | error e' => exact ⟨nofun, fun e he _ => he⟩
  | missing offset _ =>
      refine ⟨nofun, fun e he hother => ?_⟩
      cases he
      exact absurd rfl (hother offset)

/-- The rifts `a` and `b`, and after `a` a list that closes outside a rift. -/
theorem replay_append_two_rifts :
    let source := #['a', 'b']
    let rift (offset : Nat) : List Token :=
      [⟨.action (.begin .rift), offset, offset, 0⟩,
        ⟨.action (.begin .reference), offset, offset, 0⟩, ⟨.text, offset, offset + 1, 0⟩,
        ⟨.action .attach, offset + 1, offset + 1, 0⟩, ⟨.action .finish, offset + 1, offset + 1, 0⟩,
        ⟨.action (.begin .block), offset + 1, offset + 1, 0⟩, ⟨.action .finish, offset + 1,
        offset + 1, 0⟩, ⟨.action .finish, offset + 1, offset + 1, 0⟩]
    let stray : List Token := [⟨.action (.begin .list), 1, 1, 0⟩, ⟨.action .finish, 2, 2, 0⟩]
    replay source (rift 0) = .ok ⟨[⟨.ofName "a", []⟩]⟩ ∧
      replay source (rift 1) = .ok ⟨[⟨.ofName "b", []⟩]⟩ ∧
      replay source (rift 0 ++ rift 1) = .ok ⟨[⟨.ofName "a", []⟩, ⟨.ofName "b", []⟩]⟩ ∧
      replay source stray = .error (.unexpectedShape .rift 2 (.outsideRift "node")) ∧
      replay source (rift 0 ++ stray) =
        .error (.unexpectedShape .rift 2 (.outsideRift "node")) := by
  intro source rift stray
  have ha : replay source (rift 0) = .ok ⟨[⟨.ofName "a", []⟩]⟩ := rfl
  have hb : replay source (rift 1) = .ok ⟨[⟨.ofName "b", []⟩]⟩ := rfl
  have hstray : replay source stray = .error (.unexpectedShape .rift 2 (.outsideRift "node")) := rfl
  exact ⟨ha, hb, (replay_append ha).1 _ hb, hstray, (replay_append ha).2 _ hstray nofun⟩

end RiftLang
