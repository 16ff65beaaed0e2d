import RiftLang.Cursor.Match
import RiftLang.Proofs.Cursor.View

/-!
# What a match looks at

Matching looks at the source one character at a time. Here every look is kept, with what was open
and live when it was taken, so that what a cursor knows afterwards can be compared with what there
was to see.

* `Sight` — a look: the frontier that it would make, and how many tokens were live when each rule
  was entered.
* `Pattern.watch`, `Grammar.watch` — matching that also lists the sights, the earliest first. A
  remembered attempt is repeated without a look. `Grammar.map_watch` — listing them changes nothing
  else.
* `Cursor.Moves` — the elementary moves that a match is made of, with their sights.
  `Grammar.moves_watch` — every match is made of such moves, whatever it remembers under which rule,
  so what each move keeps all matching keeps.
* `Session` — a cursor that is used for one match after another, with checkpoints taken on the way,
  and every sight so far. `Session.Reached` — the states that it gets into, those in the middle of a
  match included.
-/

namespace RiftLang

/-! ## Sights -/

/-- A look at an offset, with what was open and live at that moment. -/
structure Sight extends Frontier where
  /-- How many tokens were live when each of the rules was entered that this match has opened,
  outermost first. -/
  entries : List Nat
  deriving DecidableEq, Repr

/-- The sight inside a capture that was entered with so many tokens live. -/
def Sight.within (symbol : Symbol) (tokenCount : Nat) (s : Sight) : Sight :=
  match symbol.rule? with
  | some _ => { s with entries := tokenCount :: s.entries }
  | none => s

/-- What a look shows now. -/
def Cursor.sight (c : Cursor) : Sight where
  offset := c.position
  openRules := c.openRules.reverse
  tokens := c.liveTokens
  entries := []

/-- A sight shows the same frontier from inside a capture and from outside. -/
@[simp] theorem Sight.toFrontier_within (symbol : Symbol) (n : Nat) (s : Sight) :
    (s.within symbol n).toFrontier = s.toFrontier := by
  unfold within
  split <;> rfl

/-! ## Matching with sights -/

/-- The sights that a match took, and its outcome; `none` if calls nested too deep to tell. -/
abbrev Watched := Option (List Sight × Bool × Cursor)

/-- The match, after these sights. -/
def Watched.after (sights : List Sight) (w : Watched) : Watched :=
  w.map fun (later, outcome) => (sights ++ later, outcome)

/-- `repeatMatch` with sights. -/
def repeatWatch (body : Cursor → Watched) : (budget : Nat) → Cursor → Watched
  | 0, c => some ([], true, c)
  | budget + 1, c =>
    match body c with
    | none => none
    | some (sights, false, d) => some (sights, true, d.restore c.checkpoint)
    | some (sights, true, d) =>
      if d.position = c.position then some (sights, true, d)
        else (repeatWatch body budget d).after sights

/-- `captureMatch` with sights. -/
def captureWatch (symbol : Symbol) (body : Cursor → Watched) (c : Cursor) : Watched :=
  match body (c.enter symbol) with
  | none => none
  | some (sights, matched, d) =>
    some (sights.map (.within symbol c.tokenCount), d.leave symbol c.checkpoint matched)

/-- `Pattern.eval` with sights. -/
def Pattern.watch (callee : Rule → Cursor → Watched) : Pattern → Cursor → Watched
  | succeed, c => some ([], true, c)
  | one test, c => some ([c.sight], c.step test)
  | both first second, c =>
    match watch callee first c with
    | some (sights, true, d) => (watch callee second d).after sights
    | failed => failed
  | either first second, c =>
    match watch callee first c with
    | some (sights, false, d) =>
      match watch callee second (d.restore c.checkpoint) with
      | some (later, false, e) => some (sights ++ later, false, e.restore c.checkpoint)
      | matched => matched.after sights
    | matched => matched
  | many body, c => repeatWatch (watch callee body) (c.source.size + 1 - c.position) c
  | absent body, c =>
    match watch callee body c with
    | none => none
    | some (sights, matched, d) => some (sights, !matched, d.restore c.checkpoint)
  | rule r body, c => captureWatch (.rule r) (watch callee body) c
  | text body, c => captureWatch .text (watch callee body) c
  | memo r body, c =>
    match c.remembered? r with
    | some known => some ([], c.replay known)
    | none =>
      match captureWatch (.rule r) (watch callee body) c with
      | none => none
      | some (sights, matched, d) => some (sights, matched, d.remember r c.checkpoint matched)
  | action a, c => some ([], true, c.act a)
  | call r, c => callee r c

/-- `Grammar.run` with sights. -/
def Grammar.watch (g : Grammar) : (depth : Nat) → Rule → Cursor → Watched
  | 0, _, _ => none
  | depth + 1, r, c => (g r).watch (g.watch depth) c

/-! ### Listing sights changes nothing else -/

section erasure

variable {body : Cursor → Watched} {run : Cursor → Outcome}

/-- Sights put before others leave the outcome as it is. -/
theorem map_after (sights : List Sight) (w : Watched) :
    (w.after sights).map Prod.snd = w.map Prod.snd := by
  rw [Watched.after, Option.map_map]
  rfl

/-- A capture with sights ends as the capture without, if its body does. -/
theorem map_captureWatch (hbody : ∀ c, (body c).map Prod.snd = run c) (symbol : Symbol)
    (c : Cursor) :
    (captureWatch symbol body c).map Prod.snd = captureMatch symbol run c := by
  unfold captureWatch captureMatch
  rw [← hbody]
  rcases body (c.enter symbol) with _ | ⟨sights, matched, d⟩
  · rfl
  · rfl

/-- A repetition with sights ends as the repetition without, if its body does. -/
theorem map_repeatWatch (hbody : ∀ c, (body c).map Prod.snd = run c) (budget : Nat) (c : Cursor) :
    (repeatWatch body budget c).map Prod.snd = repeatMatch run budget c := by
  induction budget generalizing c with
  | zero => rfl
  | succ budget ih =>
      unfold repeatWatch repeatMatch
      rw [← hbody]
      rcases body c with _ | ⟨sights, _ | _, d⟩
      · rfl
      · rfl
      · by_cases hstop : d.position = c.position
        · simp [hstop, Cursor.checkpoint]
        · simp [hstop, Cursor.checkpoint, map_after, ih]

/-- A pattern with sights ends as the pattern without, if the rules that it calls do. The sights are
only noted on the way. -/
theorem Pattern.map_watch {watched : Rule → Cursor → Watched} {callee : Rule → Cursor → Outcome}
    (hcallee : ∀ r c, (watched r c).map Prod.snd = callee r c) (p : Pattern) (c : Cursor) :
    (p.watch watched c).map Prod.snd = p.eval callee c := by
  induction p generalizing c with
  | succeed => rfl
  | one test => rfl
  | both first second ihf ihs =>
      unfold watch eval
      rw [← ihf]
      rcases first.watch watched c with _ | ⟨sights, _ | _, d⟩
      · rfl
      · rfl
      · exact (map_after _ _).trans (ihs d)
  | either first second ihf ihs =>
      unfold watch eval
      rw [← ihf]
      rcases first.watch watched c with _ | ⟨sights, _ | _, d⟩
      · rfl
      · simp only [Option.map_some, ← ihs]
        rcases second.watch watched (d.restore c.checkpoint) with _ | ⟨later, _ | _, e⟩
        · rfl
        · rfl
        · rfl
      · rfl
  | many body ih => exact map_repeatWatch ih _ c
  | absent body ih =>
      unfold watch eval
      rw [← ih]
      rcases body.watch watched c with _ | ⟨sights, matched, d⟩
      · rfl
      · rfl
  | rule r body ih => exact map_captureWatch ih _ c
  | text body ih => exact map_captureWatch ih _ c
  | memo r body ih =>
      unfold watch eval
      cases c.remembered? r with
      | some known => rfl
      | none =>
        simp only [← map_captureWatch ih]
        rcases captureWatch (.rule r) (body.watch watched) c with _ | ⟨sights, matched, d⟩
        · rfl
        · rfl
  | action a => rfl
  | call r => exact hcallee r c

/-- A rule does what it does, with its sights listed or not. -/
theorem Grammar.map_watch (g : Grammar) (depth : Nat) (r : Rule) (c : Cursor) :
    (g.watch depth r c).map Prod.snd = g.run depth r c := by
  induction depth generalizing r c with
  | zero => rfl
  | succ depth ih => exact (g r).map_watch ih c

end erasure

/-! ## Elementary moves -/

/-- The cursor becomes another by moves of matching, which take these sights. -/
inductive Cursor.Moves : Cursor → List Sight → Cursor → Prop where
  /-- No move. -/
  | stay {c : Cursor} : Moves c [] c
  /-- A character is looked at and, if it passes, consumed. -/
  | step {c : Cursor} (test : Char → Bool) : Moves c [c.sight] (c.step test).2
  /-- An action is recorded. -/
  | act {c : Cursor} (a : Action) : Moves c [] (c.act a)
  /-- A remembered outcome is repeated. Nothing is looked at. -/
  | replay {c : Cursor} {r : Rule} {memo : Memo} (h : c.remembered? r = some memo) :
      Moves c [] (c.replay memo).2
  /-- Moves in a row. -/
  | trans {c d e : Cursor} {sights later : List Sight} (h : Moves c sights d)
    (h' : Moves d later e) :
      Moves c (sights ++ later) e
  /-- Moves that are put back. What was seen was seen. -/
  | restore {c d : Cursor} {sights : List Sight} (h : Moves c sights d) :
      Moves c sights (d.restore c.checkpoint)
  /-- Moves inside a capture, which is entered before and left after them. -/
  | capture {c d : Cursor} {sights : List Sight} (symbol : Symbol) (matched : Bool)
    (h : Moves (c.enter symbol) sights d) :
      Moves c (sights.map (.within symbol c.tokenCount)) (d.leave symbol c.checkpoint matched).2
  /-- Moves whose outcome is remembered. -/
  | remember {c d : Cursor} {sights : List Sight} (r : Rule) (matched : Bool)
    (h : Moves c sights d) :
      Moves c sights (d.remember r c.checkpoint matched)

section moves

variable {c d : Cursor} {sights : List Sight} {matched : Bool} {body : Cursor → Watched}

/-- A match after earlier sights has those sights first, and then its own. -/
theorem Watched.after_eq_some {w : Watched} {earlier : List Sight}
    (h : w.after earlier = some (sights, matched, d)) :
    ∃ later, w = some (later, matched, d) ∧ sights = earlier ++ later := by
  obtain ⟨⟨later, outcome⟩, hw, h⟩ := Option.map_eq_some_iff.1 h
  cases h
  exact ⟨later, hw, rfl⟩

/-- A run is made of moves. -/
def IsMadeOfMoves (body : Cursor → Watched) : Prop :=
  ∀ c sights matched d, body c = some (sights, matched, d) → c.Moves sights d

/-- A capture adds two moves to those of its body: it is entered, and left. -/
theorem IsMadeOfMoves.captureWatch (hbody : IsMadeOfMoves body) (symbol : Symbol) :
    IsMadeOfMoves (RiftLang.captureWatch symbol body) := by
  intro c sights matched d h
  unfold RiftLang.captureWatch at h
  rcases hrun : body (c.enter symbol) with _ | ⟨inner, m, e⟩
  · simp [hrun] at h
  · simp only [hrun, Option.some.injEq, Prod.mk.injEq] at h
    obtain ⟨rfl, hleave⟩ := h
    have hmoves := (hbody _ _ _ _ hrun).capture symbol m
    rw [hleave] at hmoves
    exact hmoves

/-- A repetition is made of the moves of its rounds; the last round may be put back. -/
theorem IsMadeOfMoves.repeatWatch (hbody : IsMadeOfMoves body) (budget : Nat) :
    IsMadeOfMoves (RiftLang.repeatWatch body budget) := by
  induction budget with
  | zero =>
      intro c sights matched d h
      cases h
      exact .stay
  | succ budget ih =>
      intro c sights matched d h
      unfold RiftLang.repeatWatch at h
      rcases hrun : body c with _ | ⟨inner, _ | _, e⟩
      · simp [hrun] at h
      · simp only [hrun, Option.some.injEq, Prod.mk.injEq] at h
        obtain ⟨rfl, -, rfl⟩ := h
        exact (hbody _ _ _ _ hrun).restore
      · simp only [hrun] at h
        split at h
        · cases h
          exact hbody _ _ _ _ hrun
        · obtain ⟨later, hrest, rfl⟩ := Watched.after_eq_some h
          exact (hbody _ _ _ _ hrun).trans (ih _ _ _ _ hrest)

/-- Two patterns in a row make the moves of the first and, if it matches, those of the second. -/
theorem IsMadeOfMoves.both {callee : Rule → Cursor → Watched} {first second : Pattern}
    (hfirst : IsMadeOfMoves (first.watch callee)) (hsecond : IsMadeOfMoves (second.watch callee)) :
    IsMadeOfMoves ((Pattern.both first second).watch callee) := by
  intro c sights matched d h
  unfold Pattern.watch at h
  rcases hrun : first.watch callee c with _ | ⟨inner, _ | _, e⟩
  · simp [hrun] at h
  · simp only [hrun, Option.some.injEq, Prod.mk.injEq] at h
    obtain ⟨rfl, -, rfl⟩ := h
    exact hfirst _ _ _ _ hrun
  · simp only [hrun] at h
    obtain ⟨later, hrest, rfl⟩ := Watched.after_eq_some h
    exact (hfirst _ _ _ _ hrun).trans (hsecond _ _ _ _ hrest)

/-- Two alternatives make the moves of the first and, if it fails, put them back and make those of
the second. -/
theorem IsMadeOfMoves.either {callee : Rule → Cursor → Watched} {first second : Pattern}
    (hfirst : IsMadeOfMoves (first.watch callee)) (hsecond : IsMadeOfMoves (second.watch callee)) :
    IsMadeOfMoves ((Pattern.either first second).watch callee) := by
  intro c sights matched d h
  unfold Pattern.watch at h
  rcases hrun : first.watch callee c with _ | ⟨inner, _ | _, e⟩
  · simp [hrun] at h
  · have hback := (hfirst _ _ _ _ hrun).restore
    simp only [hrun] at h
    rcases hrest : second.watch callee (e.restore c.checkpoint) with _ | ⟨later, _ | _, e'⟩
    · simp [hrest, Watched.after] at h
    · simp only [hrest, Option.some.injEq, Prod.mk.injEq] at h
      obtain ⟨rfl, -, rfl⟩ := h
      exact (hback.trans (hsecond _ _ _ _ hrest)).restore
    · simp only [hrest, Watched.after, Option.map_some, Option.some.injEq, Prod.mk.injEq] at h
      obtain ⟨rfl, -, rfl⟩ := h
      exact hback.trans (hsecond _ _ _ _ hrest)
  · simp only [hrun, Option.some.injEq, Prod.mk.injEq] at h
    obtain ⟨rfl, -, rfl⟩ := h
    exact hfirst _ _ _ _ hrun

/-- A remembered rule repeats what is known of it, or makes the moves of its capture and remembers
them. -/
theorem IsMadeOfMoves.memo {callee : Rule → Cursor → Watched} {body : Pattern}
    (hbody : IsMadeOfMoves (body.watch callee)) (r : Rule) :
    IsMadeOfMoves ((Pattern.memo r body).watch callee) := by
  intro c sights matched d h
  unfold Pattern.watch at h
  rcases hknown : c.remembered? r with _ | known
  · simp only [hknown] at h
    rcases hcapture : RiftLang.captureWatch (.rule r)
      (body.watch callee) c with _ | ⟨inner, m, e⟩
    · simp [hcapture] at h
    · simp only [hcapture, Option.some.injEq, Prod.mk.injEq] at h
      obtain ⟨rfl, -, rfl⟩ := h
      exact (hbody.captureWatch _ _ _ _ _ hcapture).remember r m
  · simp only [hknown, Option.some.injEq, Prod.mk.injEq] at h
    obtain ⟨rfl, hreplay⟩ := h
    have hmoves := Cursor.Moves.replay hknown
    rw [hreplay] at hmoves
    exact hmoves

/-- A pattern is made of moves if the rules that it calls are. So a property that every single move
keeps is kept by every match. -/
theorem Pattern.moves_watch {callee : Rule → Cursor → Watched}
    (hcallee : ∀ r, IsMadeOfMoves (callee r)) (p : Pattern) : IsMadeOfMoves (p.watch callee) := by
  induction p with
  | succeed =>
      intro c sights matched d h
      cases h
      exact .stay
  | one test =>
      intro c sights matched d h
      simp only [watch, Option.some.injEq, Prod.mk.injEq] at h
      obtain ⟨rfl, hstep⟩ := h
      have hmoves := Cursor.Moves.step (c := c) test
      rw [hstep] at hmoves
      exact hmoves
  | both first second ihf ihs => exact ihf.both ihs
  | either first second ihf ihs => exact ihf.either ihs
  | many body ih =>
      intro c
      exact IsMadeOfMoves.repeatWatch ih _ c
  | absent body ih =>
      intro c sights matched d h
      unfold watch at h
      rcases hbody : body.watch callee c with _ | ⟨inner, m, e⟩
      · simp [hbody] at h
      · simp only [hbody, Option.some.injEq, Prod.mk.injEq] at h
        obtain ⟨rfl, -, rfl⟩ := h
        exact (ih _ _ _ _ hbody).restore
  | rule r body ih => exact ih.captureWatch (.rule r)
  | text body ih => exact ih.captureWatch .text
  | memo r body ih => exact ih.memo r
  | action a =>
      intro c sights matched d h
      cases h
      exact .act a
  | call r => exact hcallee r

/-- Whatever a rule of a grammar does is made of moves. -/
theorem Grammar.moves_watch (g : Grammar) (depth : Nat) (r : Rule) :
    IsMadeOfMoves (g.watch depth r) := by
  induction depth generalizing r with
  | zero =>
      intro c sights matched d h
      cases h
  | succ depth ih => exact (g r).moves_watch ih

/-- Whatever a pattern does is made of moves. -/
theorem exists_moves_of_eval {g : Grammar} {depth : Nat} {p : Pattern}
    (h : p.eval (g.run depth) c = some (matched, d)) : ∃ sights, c.Moves sights d := by
  rw [← p.map_watch (g.map_watch depth)] at h
  obtain ⟨⟨sights, _⟩, hwatch, rfl⟩ := Option.map_eq_some_iff.1 h
  exact ⟨sights, p.moves_watch (g.moves_watch depth) _ _ _ _ hwatch⟩

end moves

/-! ## Sessions -/

/-- A cursor in use, with the checkpoints that it can go back to and the sights that it has
taken. -/
structure Session where
  /-- The cursor. -/
  cursor : Cursor
  /-- The checkpoints taken. -/
  saved : List Checkpoint
  /-- The sights so far, the earliest first. -/
  sights : List Sight
  /-- Have the slots of abandoned branches been dropped? -/
  isCommitted : Bool

variable (source : Array Char) (capacity : Nat) in
/-- The states that a session on a source gets into: between two matches, and, by way of `enter`,
inside a capture whose body is under way. -/
inductive Session.Reached : Session → Prop where
  /-- A fresh cursor. -/
  | start : Reached ⟨.ofChars source capacity, [], [], false⟩
  /-- A pattern over any grammar was tried. -/
  | tried {s : Session} {g : Grammar} {depth : Nat} {p : Pattern} {sights : List Sight}
    {matched : Bool} {c : Cursor} (hs : Reached s)
    (h : p.watch (g.watch depth) s.cursor = some (sights, matched, c)) :
      Reached { s with cursor := c, sights := s.sights ++ sights }
  /-- A checkpoint was taken. -/
  | save {s : Session} (hs : Reached s) : Reached { s with saved := s.cursor.checkpoint :: s.saved }
  /-- The cursor went back to a checkpoint taken earlier, be it behind or ahead. -/
  | back {s : Session} {k : Checkpoint} (hs : Reached s) (hk : k ∈ s.saved) :
      Reached { s with cursor := s.cursor.restore k }
  /-- A capture was entered. Its body only goes back to checkpoints of its own. -/
  | enter {s : Session} (symbol : Symbol) (hs : Reached s) :
      Reached { s with cursor := s.cursor.enter symbol, saved := [] }
  /-- The slots past the live tokens were dropped, and with them the checkpoints that need them.
  From here on the snapshot may count on slots that are gone, and the cursor reads those as absent,
  where an indexed slice would stop the program. So the states after a commit include some that a
  program with checked slices does not get to. -/
  | commit {s : Session} (hs : Reached s) :
      Reached
        { s with
          cursor := s.cursor.commit
          saved := s.saved.filter (·.tokenCount ≤ s.cursor.tokenCount)
          isCommitted := true }

end RiftLang
