import Mathlib.Data.List.Perm.Subperm
import Mathlib.Data.List.ProdSigma
import RiftLang.Proofs.Cursor.Memory
import RiftLang.Proofs.Termination

/-!
# Remembered rules are tried once per offset

The outcome of a remembered rule is put into the memory only after its body was tried, so the same
rule could be tried at the same offset again while it is open. It is not: a rule is only called
farther on than where it is open. So whenever an outcome is put into the memory nothing is known
there, and no trial is made twice.

* `Orderly` — what the trials of a match keep: they are those of a history of the memory, and no
  rule that is open was tried again where it is open.
* `Orderly.remember` — the step: trying a rule that is not known, and not open here, puts something
  new into the memory.
* `tally_both_cases`, `tally_either_cases`, `repeatTally_succ_cases`, `tally_memo_cases` — what a
  match with trials is made of, by the form of the pattern. Both of the following are read off them.
* `Tries.orderly`, `orderly_call` — all that is tried in the course of a match is orderly.
* `Tries.exists_tally`, `Tries.exists_trial` — what is tried in the course of a match tallies its
  trials there, so no trial of a remembered rule is missing from those of the match.
* `isMemoized_iff` — which rules are remembered.
* `tried_once_per_offset` — the trials of a run.
-/

namespace RiftLang

/-! ## Orderly trials -/

/-- From the first cursor to the second the memory has changed by these trials alone, and no rule
that was open was tried again where it was entered. -/
structure Orderly (c : Cursor) (done : List Evaluation) (d : Cursor) : Prop where
  /-- The trials are a history of the memory. -/
  history : History c.memos done d.memos
  /-- Remembered rules are tried. -/
  isMemoized : ∀ x ∈ done, x.rule.isMemoized = true
  /-- They are tried within the source. -/
  offset_le : ∀ x ∈ done, x.offset ≤ c.source.size
  /-- They are not tried where they are open. -/
  notOpen : ∀ x ∈ done, ∀ o ∈ c.openRules, o.rule = x.rule → o.start ≠ x.offset

namespace Cursor

/-- Leaving a capture changes nothing of what is remembered. -/
theorem memos_leave (symbol : Symbol) (entry : Checkpoint) (matched : Bool) (c : Cursor) :
    (c.leave symbol entry matched).2.memos = c.memos := by
  unfold leave
  cases matched with
  | true => rfl
  | false => rfl

/-- Repeating an outcome changes nothing of what is remembered. -/
theorem memos_replay (c : Cursor) (memo : Memo) : (c.replay memo).2.memos = c.memos := by
  cases memo with
  | failed => rfl
  | matched stop tokens => exact memos_foldl_emit tokens c

/-- A rule that is open is still open inside a capture. -/
theorem mem_openRules_enter {c : Cursor} {o : OpenRule} (h : o ∈ c.openRules) (symbol : Symbol) :
    o ∈ (c.enter symbol).openRules := by
  unfold enter
  dsimp only
  split
  · exact List.mem_cons_of_mem _ h
  · exact h

end Cursor

namespace Orderly

variable {c d e : Cursor} {done later : List Evaluation}

/-- Nothing was tried. -/
theorem nil (hmemos : d.memos = c.memos) : Orderly c [] d where
  history := by
    rw [hmemos]
    exact .nil _
  isMemoized := fun _ hx => absurd hx List.not_mem_nil
  offset_le := fun _ hx => absurd hx List.not_mem_nil
  notOpen := fun _ hx => absurd hx List.not_mem_nil

/-- The cursor may change as long as the memory does not. -/
theorem of_memos_eq (h : Orderly c done d) (hmemos : e.memos = d.memos) : Orderly c done e where
  history := by
    rw [hmemos]
    exact h.history
  isMemoized := h.isMemoized
  offset_le := h.offset_le
  notOpen := h.notOpen

/-- Two orderly stretches in a row are orderly, if the first keeps the rules open that were open
before it. -/
theorem append (h : Orderly c done d) (h' : Orderly d later e) (hkeeps : c.Keeps d) :
    Orderly c (done ++ later) e where
  history := h.history.append h'.history
  isMemoized := List.forall_mem_append.2 ⟨h.isMemoized, h'.isMemoized⟩
  offset_le := by
    rw [← hkeeps.source_eq]
    exact List.forall_mem_append.2 ⟨hkeeps.source_eq ▸ h.offset_le, h'.offset_le⟩
  notOpen := by
    rw [← hkeeps.openRules_eq]
    exact List.forall_mem_append.2 ⟨hkeeps.openRules_eq ▸ h.notOpen, h'.notOpen⟩

/-- Inside a capture more is open. -/
theorem leave {symbol : Symbol} (h : Orderly (c.enter symbol) done d) (matched : Bool) :
    Orderly c done (d.leave symbol c.checkpoint matched).2 where
  history := by
    rw [Cursor.memos_leave]
    exact h.history
  isMemoized := h.isMemoized
  offset_le := h.offset_le
  notOpen x hx o ho := h.notOpen x hx o (Cursor.mem_openRules_enter ho symbol)

/-- A rule is tried where nothing is known of it and where it is not open. Its outcome is new to the
memory, for nothing that was tried in the meantime was the same rule at the same offset. -/
theorem remember {r : Rule} (h : Orderly (c.enter (.rule r)) done d)
    (hknown : c.remembered? r = none) (hr : r.isMemoized = true)
    (hposition : c.position ≤ c.source.size)
    (hopen : ∀ o ∈ c.openRules, o.rule = r → o.start ≠ c.position) (matched : Bool) (memo : Memo) :
    let closed := (d.leave (.rule r) c.checkpoint matched).2
    Orderly c (done ++ [⟨r, c.position, closed.memos, memo⟩]) (closed.note r c.position memo) := by
  intro closed
  have hclosed : Orderly c done closed := h.leave matched
  have hnew : closed.memos.known? r c.position = none := by
    cases hrecall : closed.memos.known? r c.position with
    | none => rfl
    | some known =>
        rcases hclosed.history.known hrecall with hbefore | ⟨x, hx, hkey, -⟩
        · exact absurd (hknown.symm.trans hbefore) nofun
        · obtain ⟨hrule, hoffset⟩ := Prod.mk.inj hkey
          have hentered : (⟨r, c.position, c.depth⟩ : OpenRule) ∈ (c.enter (.rule r)).openRules :=
            List.mem_cons_self
          exact absurd hoffset.symm (h.notOpen x hx _ hentered hrule.symm)
  let x : Evaluation := ⟨r, c.position, closed.memos, memo⟩
  refine ⟨?_, ?_, ?_, ?_⟩
  · exact hclosed.history.append (.cons (x := x) hnew (.nil x.after))
  · exact List.forall_mem_append.2 ⟨hclosed.isMemoized, List.forall_mem_singleton.2 hr⟩
  · exact List.forall_mem_append.2 ⟨hclosed.offset_le, List.forall_mem_singleton.2 hposition⟩
  · exact List.forall_mem_append.2 ⟨hclosed.notOpen, List.forall_mem_singleton.2 hopen⟩

end Orderly

/-! ## The course of a run -/

/-- A match with trials is a match. -/
theorem ends_of_tally {g : Grammar} {p : Pattern} {n : Nat} {c d : Cursor} {done : List Evaluation}
    {matched : Bool} (h : p.tally (g.tally n) c = some (done, matched, d)) :
    Ends g p c matched d := by
  refine ⟨n, ?_⟩
  rw [← p.map_tally (g.map_tally n), h]
  rfl

/-- A match after earlier trials has those trials first, and then its own. -/
theorem Tallied.after_eq_some {w : Tallied} {earlier done : List Evaluation} {matched : Bool}
    {d : Cursor} (h : w.after earlier = some (done, matched, d)) :
    ∃ later, w = some (later, matched, d) ∧ done = earlier ++ later := by
  obtain ⟨⟨later, outcome⟩, hw, h⟩ := Option.map_eq_some_iff.1 h
  cases h
  exact ⟨later, hw, rfl⟩

/-- What a capture tallies is what its body tallies; entering and leaving try no rule. -/
theorem captureTally_eq_some {symbol : Symbol} {body : Cursor → Tallied} {c d : Cursor}
    {done : List Evaluation} {matched : Bool}
    (h : captureTally symbol body c = some (done, matched, d)) :
    ∃ inner e, body (c.enter symbol) = some (done, inner, e) ∧
      e.leave symbol c.checkpoint inner = (matched, d) := by
  obtain ⟨⟨done, inner, e⟩, hbody, heq⟩ := Option.map_eq_some_iff.1 h
  obtain ⟨rfl, hleave⟩ := Prod.mk.inj heq
  exact ⟨inner, e, hbody, hleave⟩

section cases

variable {g : Grammar} {a b body : Pattern} {n budget : Nat} {c d : Cursor} {r : Rule}
  {done : List Evaluation} {matched : Bool}

/-- Two patterns in a row: either the first has failed, or the trials of the second follow on those
of the first. -/
theorem tally_both_cases (h : (Pattern.both a b).tally (g.tally n) c = some (done, matched, d)) :
    a.tally (g.tally n) c = some (done, false, d) ∨
      ∃ first e later, a.tally (g.tally n) c = some (first, true, e) ∧
        b.tally (g.tally n) e = some (later, matched, d) ∧ done = first ++ later := by
  unfold Pattern.tally at h
  rcases ha : a.tally (g.tally n) c with _ | ⟨first, _ | _, e⟩
  · simp [ha] at h
  · simp only [ha] at h
    cases h
    exact .inl rfl
  · simp only [ha] at h
    obtain ⟨later, hb, rfl⟩ := Tallied.after_eq_some h
    exact .inr ⟨first, e, later, rfl, hb, rfl⟩

/-- Two alternatives: either the first has matched, or the second was tried after the first had
failed and was put back. Going back once more, where the second fails as well, does not change the
memory. -/
theorem tally_either_cases (h : (Pattern.either a b).tally (g.tally n) c =
    some (done, matched, d)) :
    a.tally (g.tally n) c = some (done, true, d) ∨
      ∃ first e later e', a.tally (g.tally n) c = some (first, false, e) ∧
        b.tally (g.tally n) (e.restore c.checkpoint) = some (later, matched, e') ∧
        done = first ++ later ∧
        d.memos = e'.memos := by
  unfold Pattern.tally at h
  rcases ha : a.tally (g.tally n) c with _ | ⟨first, _ | _, e⟩
  · simp [ha] at h
  · simp only [ha] at h
    rcases hb : b.tally (g.tally n) (e.restore c.checkpoint) with _ | ⟨later, _ | _, e'⟩
    · simp [hb, Tallied.after] at h
    · simp only [hb] at h
      cases h
      exact .inr ⟨first, e, later, e', rfl, hb, rfl, rfl⟩
    · simp only [hb, Tallied.after, Option.map_some] at h
      cases h
      exact .inr ⟨first, e, later, _, rfl, hb, rfl, rfl⟩
  · simp only [ha] at h
    cases h
    exact .inl rfl

/-- A repetition with a budget: its round has failed and was put back, or it has matched without
moving, or the trials of the rounds to come follow on its own. -/
theorem repeatTally_succ_cases
    (h : repeatTally (body.tally (g.tally n)) (budget + 1) c = some (done, matched, d)) :
    (∃ e, body.tally (g.tally n) c = some (done, false, e) ∧ d = e.restore c.checkpoint) ∨
      (body.tally (g.tally n) c = some (done, true, d) ∧ d.position = c.position) ∨
      ∃ first e later, body.tally (g.tally n) c = some (first, true, e) ∧ e.position ≠ c.position ∧
        repeatTally (body.tally (g.tally n)) budget e = some (later, matched, d) ∧
        done = first ++ later := by
  unfold repeatTally at h
  rcases hround : body.tally (g.tally n) c with _ | ⟨first, _ | _, e⟩
  · simp [hround] at h
  · simp only [hround] at h
    cases h
    exact .inl ⟨e, rfl, rfl⟩
  · simp only [hround] at h
    split at h
    · next hstop =>
        cases h
        exact .inr (.inl ⟨rfl, hstop⟩)
    · next hmoved =>
        obtain ⟨later, hlater, rfl⟩ := Tallied.after_eq_some h
        exact .inr (.inr ⟨first, e, later, rfl, hmoved, hlater, rfl⟩)

/-- A remembered rule of which nothing is known: its own trial follows on those of its body, and
puts the outcome into the memory. -/
theorem tally_memo_cases (hknown : c.remembered? r = none)
    (h : (Pattern.memo r body).tally (g.tally n) c = some (done, matched, d)) :
    ∃ earlier inner e closed memo, body.tally (g.tally n)
      (c.enter (.rule r)) = some (earlier, inner, e) ∧
      e.leave (.rule r) c.checkpoint inner = (matched, closed) ∧
      done = earlier ++ [⟨r, c.position, closed.memos, memo⟩] ∧
      d = closed.note r c.position memo := by
  unfold Pattern.tally at h
  simp only [hknown] at h
  obtain ⟨⟨earlier, m, closed⟩, hcapture, heq⟩ := Option.map_eq_some_iff.1 h
  cases heq
  obtain ⟨inner, e, hbody, hleave⟩ := captureTally_eq_some hcapture
  exact ⟨earlier, inner, e, closed, _, hbody, hleave, rfl, rfl⟩

end cases

/-- A capture is orderly if what is inside is. -/
theorem Orderly.capture {symbol : Symbol} {body : Cursor → Tallied} {c d : Cursor}
    {done : List Evaluation} {matched : Bool}
    (hbody : ∀ inner e, body (c.enter symbol) = some (done, inner, e) →
      Orderly (c.enter symbol) done e)
    (h : captureTally symbol body c = some (done, matched, d)) : Orderly c done d := by
  obtain ⟨inner, e, he, hleave⟩ := captureTally_eq_some h
  have horderly := (hbody inner e he).leave inner
  rw [hleave] at horderly
  exact horderly

section run

variable {source : String} {capacity : Nat} {r : Rule} {captures : List OpenCapture}
  {q body : Pattern}
  {c d e : Cursor} {done : List Evaluation} {matched : Bool} {n : Nat}

/-- Wherever a match of a rule of the grammar on a fresh cursor tries a pattern, the cursor stands
within source and log. -/
theorem Tries.inBounds (h : Tries Grammar.rift (.call r) (.ofString source capacity) captures q d) :
    d.InBounds := by
  obtain ⟨n, hc⟩ := exists_ensured source capacity r
  obtain ⟨m, hd⟩ := h.ensured hc
  exact hd.inBounds

/-- From there to the end of that pattern, the cursor keeps what moves keep. -/
theorem Tries.keeps (h : Tries Grammar.rift (.call r) (.ofString source capacity) captures q d)
    (hq : q.tally (Grammar.rift.tally n) d = some (done, matched, e)) : d.Keeps e :=
  (ends_of_tally hq).keeps h.inBounds

/-- The rounds of a repetition are orderly if each of them is. -/
theorem Tries.orderly_rounds (h : Tries Grammar.rift (.call r)
    (.ofString source capacity) captures (.many body) c)
    (hbody : ∀ d done matched e, Rounds Grammar.rift body c d →
      body.tally (Grammar.rift.tally n) d = some (done, matched, e) → Orderly d done e)
    {budget : Nat} (hd : Rounds Grammar.rift body c d)
    (hrun : repeatTally (body.tally (Grammar.rift.tally n)) budget d = some (done, matched, e)) :
    Orderly d done e := by
  induction budget generalizing d done with
  | zero =>
      cases hrun
      exact .nil rfl
  | succ budget ih =>
      rcases repeatTally_succ_cases hrun with ⟨d', hround, rfl⟩ | ⟨hround, -⟩ |
        ⟨first, d', later, hround, hmoved, hlater, rfl⟩
      · exact (hbody d _ false d' hd hround).of_memos_eq rfl
      · exact hbody d done true e hd hround
      · have hfirst := hbody d first true d' hd hround
        exact hfirst.append (ih (hd.next (ends_of_tally hround) hmoved) hlater)
          ((h.round hd).keeps hround)

/-- A simple pattern that is tried in the course of a run is orderly if the rules that it calls
are. -/
theorem Tries.orderly (hcall : ∀ captures s d done matched e,
      Tries Grammar.rift (.call r) (.ofString source capacity) captures (.call s) d →
      Grammar.rift.tally n s d = some (done, matched, e) → Orderly d done e)
    (h : Tries Grammar.rift (.call r) (.ofString source capacity) captures q d) (hq : q.IsSimple)
    (hrun : q.tally (Grammar.rift.tally n) d = some (done, matched, e)) : Orderly d done e := by
  induction q generalizing captures d done matched e with
  | succeed =>
      cases hrun
      exact .nil rfl
  | one test =>
      simp only [Pattern.tally, Option.some.injEq, Prod.mk.injEq] at hrun
      obtain ⟨rfl, hstep⟩ := hrun
      apply Orderly.nil
      rw [← d.memos_step test, hstep]
  | both a b iha ihb =>
      rcases tally_both_cases hrun with ha | ⟨first, d', later, ha, hb, rfl⟩
      · exact iha h.first hq.1 ha
      · exact (iha h.first hq.1 ha).append (ihb (h.second (ends_of_tally ha)) hq.2 hb)
          (h.first.keeps ha)
  | either a b iha ihb =>
      rcases tally_either_cases hrun with ha | ⟨first, d', later, e', ha, hb, rfl, hmemos⟩
      · exact iha h.preferred hq.1 ha
      · have hback : Orderly d first (d'.restore d.checkpoint) :=
          (iha h.preferred hq.1 ha).of_memos_eq rfl
        have hkeeps := (h.preferred.keeps ha).restore h.inBounds
        exact (hback.append (ihb (h.otherwise (ends_of_tally ha)) hq.2 hb) hkeeps).of_memos_eq
          hmemos
  | many body ih =>
      refine h.orderly_rounds ?_ .start hrun
      intro d' done' matched' e' hd' hround
      exact ih (h.round hd') hq.2 hround
  | absent body ih =>
      obtain ⟨⟨inner, m, d'⟩, hbody, heq⟩ := Option.map_eq_some_iff.1 hrun
      cases heq
      exact (ih h.absent hq hbody).of_memos_eq rfl
  | text body ih =>
      apply Orderly.capture _ hrun
      intro inner d' hbody
      exact ih h.text hq hbody
  | rule _ _ _ | memo _ _ _ => exact absurd hq id
  | action a =>
      cases hrun
      exact .nil rfl
  | call s => exact hcall captures s d done matched e h hrun

/-- What a repetition tries in a later round is among what it tries in all. -/
theorem Tries.exists_tally_round
    (h : Tries Grammar.rift (.call r) (.ofString source capacity) captures (.many body) d)
    (hrounds : Rounds Grammar.rift body d e)
    (hrun : (Pattern.many body).tally (Grammar.rift.tally n) d = some (done, matched, c)) :
    ∃ later inner e', body.tally (Grammar.rift.tally n) e = some (later, inner, e') ∧
      later ⊆ done := by
  -- after any number of rounds there is a budget for one more, and what is left to try was to be
  -- tried before
  suffices hleft : d.Keeps e ∧ ∃ budget later, d.source.size < budget + e.position ∧
      repeatTally (body.tally (Grammar.rift.tally n)) budget e = some (later, matched, c) ∧
      later ⊆ done by
    obtain ⟨hkeeps, budget, later, hbudget, hlater, hsubset⟩ := hleft
    have hle : e.position ≤ d.source.size := hkeeps.source_eq ▸ hkeeps.inBounds.position_le
    obtain ⟨budget, rfl⟩ : ∃ k, budget = k + 1 := ⟨budget - 1, by omega⟩
    rcases repeatTally_succ_cases hlater with ⟨e', hround, -⟩ | ⟨hround, -⟩ | ⟨first, e', rest,
      hround, -, -, rfl⟩
    · exact ⟨_, _, _, hround, hsubset⟩
    · exact ⟨_, _, _, hround, hsubset⟩
    · exact ⟨_, _, _, hround, (List.append_subset.1 hsubset).1⟩
  induction hrounds with
  | start =>
      refine ⟨h.inBounds.keeps_self, d.source.size + 1 - d.position, done, ?_, hrun,
        List.Subset.refl _⟩
      omega
  | @next e e' hrounds hend hmoved ih =>
      obtain ⟨hkeeps, budget, later, hbudget, hlater, hsubset⟩ := ih
      have hkeeps' : e.Keeps e' := hend.keeps hkeeps.inBounds
      have hlt : e.position < e'.position := Nat.lt_of_le_of_ne hkeeps'.position_le (Ne.symm hmoved)
      have hle : e.position ≤ d.source.size := hkeeps.source_eq ▸ hkeeps.inBounds.position_le
      obtain ⟨budget, rfl⟩ : ∃ k, budget = k + 1 := ⟨budget - 1, by omega⟩
      -- the round that has led to `e'` is the one that is tallied, so it is followed by others
      rcases repeatTally_succ_cases hlater with ⟨f, hround, -⟩ | ⟨hround, hstop⟩ |
        ⟨first, f, rest, hround, -, hrest, rfl⟩
      · cases (hend.unique (ends_of_tally hround)).1
      · obtain ⟨-, rfl⟩ := hend.unique (ends_of_tally hround)
        exact absurd hstop hmoved
      · obtain ⟨-, rfl⟩ := hend.unique (ends_of_tally hround)
        exact ⟨hkeeps.trans hkeeps', budget, rest, by omega, hrest,
          (List.append_subset.1 hsubset).2⟩

/-- Whatever is tried in the course of a run ends, and the trials that it makes are among those of
the run. -/
theorem Tries.exists_tally (h : Tries Grammar.rift (.call r)
    (.ofString source capacity) captures q d)
    (hrun : (Pattern.call r).tally (Grammar.rift.tally n) (.ofString source capacity) =
      some (done, matched, c)) :
    ∃ m later inner e, q.tally (Grammar.rift.tally m) d = some (later, inner, e) ∧
      later ⊆ done := by
  induction h with
  | self => exact ⟨n, done, matched, c, hrun, List.Subset.refl _⟩
  | first h ih =>
      obtain ⟨m, later, inner, e, hboth, hsubset⟩ := ih
      rcases tally_both_cases hboth with ha | ⟨first, e', rest, ha, -, rfl⟩
      · exact ⟨m, _, _, _, ha, hsubset⟩
      · exact ⟨m, _, _, _, ha, (List.append_subset.1 hsubset).1⟩
  | second h hend ih =>
      obtain ⟨m, later, inner, e, hboth, hsubset⟩ := ih
      rcases tally_both_cases hboth with ha | ⟨first, e', rest, ha, hb, rfl⟩
      · cases (hend.unique (ends_of_tally ha)).1
      · obtain ⟨-, rfl⟩ := hend.unique (ends_of_tally ha)
        exact ⟨m, _, _, _, hb, (List.append_subset.1 hsubset).2⟩
  | preferred h ih =>
      obtain ⟨m, later, inner, e, heither, hsubset⟩ := ih
      rcases tally_either_cases heither with ha | ⟨first, e', rest, e'', ha, -, rfl, -⟩
      · exact ⟨m, _, _, _, ha, hsubset⟩
      · exact ⟨m, _, _, _, ha, (List.append_subset.1 hsubset).1⟩
  | otherwise h hend ih =>
      obtain ⟨m, later, inner, e, heither, hsubset⟩ := ih
      rcases tally_either_cases heither with ha | ⟨first, e', rest, e'', ha, hb, rfl, -⟩
      · cases (hend.unique (ends_of_tally ha)).1
      · obtain ⟨-, rfl⟩ := hend.unique (ends_of_tally ha)
        exact ⟨m, _, _, _, hb, (List.append_subset.1 hsubset).2⟩
  | round h hrounds ih =>
      obtain ⟨m, later, inner, e, hmany, hsubset⟩ := ih
      obtain ⟨first, inner', e', hround, hmem⟩ := h.exists_tally_round hrounds hmany
      exact ⟨m, first, inner', e', hround, List.Subset.trans hmem hsubset⟩
  | absent h ih =>
      obtain ⟨m, later, inner, e, habsent, hsubset⟩ := ih
      obtain ⟨⟨trials, inner', e'⟩, hbody, heq⟩ := Option.map_eq_some_iff.1 habsent
      obtain ⟨rfl, -⟩ := Prod.mk.inj heq
      exact ⟨m, trials, inner', e', hbody, hsubset⟩
  | rule h ih | text h ih =>
      obtain ⟨m, later, inner, e, hcapture, hsubset⟩ := ih
      obtain ⟨inner', e', hbody, -⟩ := captureTally_eq_some hcapture
      exact ⟨m, later, inner', e', hbody, hsubset⟩
  | memo h hknown ih =>
      obtain ⟨m, later, inner, e, hmemo, hsubset⟩ := ih
      obtain ⟨earlier, inner', e', closed, memo, hbody, -, rfl, -⟩ := tally_memo_cases hknown hmemo
      exact ⟨m, earlier, inner', e', hbody, (List.append_subset.1 hsubset).1⟩
  | call h ih =>
      obtain ⟨m, later, inner, e, hcall, hsubset⟩ := ih
      cases m with
      | zero => cases hcall
      | succ m => exact ⟨m, later, inner, e, hcall, hsubset⟩

/-- Where a remembered rule is called and nothing is known of it, its body is tried, and the trial
is listed. -/
theorem Tries.exists_trial {s : Rule} (hs : s.isMemoized = true)
    (h : Tries Grammar.rift (.call r) (.ofString source capacity) captures (.call s) d)
    (hknown : d.remembered? s = none)
    (hrun : (Pattern.call r).tally (Grammar.rift.tally n) (.ofString source capacity) =
      some (done, matched, c)) :
    ∃ x ∈ done, x.key = (s, d.position) := by
  have htries := h.call
  have hrift : Grammar.rift s = .memo s (Grammar.body s) := if_pos hs
  rw [hrift] at htries
  obtain ⟨m, later, inner, e, hmemo, hsubset⟩ := htries.exists_tally hrun
  obtain ⟨earlier, -, -, closed, memo, -, -, rfl, -⟩ := tally_memo_cases hknown hmemo
  exact ⟨_, hsubset (List.mem_append_right _ List.mem_cons_self), rfl⟩

variable (source capacity r) in
/-- A rule that is called in the course of a run is orderly. -/
theorem orderly_call (n : Nat) (captures : List OpenCapture) (s : Rule) (d : Cursor)
    (done : List Evaluation) (matched : Bool) (e : Cursor)
    (h : Tries Grammar.rift (.call r) (.ofString source capacity) captures (.call s) d)
    (hrun : Grammar.rift.tally n s d = some (done, matched, e)) : Orderly d done e := by
  induction n generalizing captures s d done matched e with
  | zero => cases hrun
  | succ n ih =>
      replace hrun : (Grammar.rift s).tally (Grammar.rift.tally n) d = some (done, matched, e) :=
        hrun
      have htries := h.call
      unfold Grammar.rift at hrun htries
      by_cases hs : s.isMemoized = true
      · rw [if_pos hs] at hrun htries
        cases hknown : d.remembered? s with
        | some known =>
            unfold Pattern.tally at hrun
            simp only [hknown, Option.some.injEq, Prod.mk.injEq] at hrun
            obtain ⟨rfl, hreplay⟩ := hrun
            apply Orderly.nil
            rw [← d.memos_replay known, hreplay]
        | none =>
            obtain ⟨earlier, inner, d', closed, memo, hbody, hleave, rfl, rfl⟩ :=
              tally_memo_cases hknown hrun
            have hinner : Orderly (d.enter (.rule s)) earlier d' :=
              (htries.memo hknown).orderly ih (Pattern.isSimple_body s) hbody
            have hopen : ∀ o ∈ d.openRules, o.rule = s → o.start ≠ d.position := by
              intro o ho hrule
              exact (h.start_lt ho hrule).ne
            have hstep := hinner.remember hknown hs h.inBounds.position_le hopen inner memo
            rw [hleave] at hstep
            exact hstep
      · rw [if_neg hs] at hrun htries
        apply Orderly.capture _ hrun
        intro inner d' hbody
        exact htries.rule.orderly ih (Pattern.isSimple_body s) hbody

end run

/-! ## Trials of a run -/

/-- Nothing is remembered at first. -/
theorem known?_memos_ofChars (source : Array Char) (capacity : Nat) (r : Rule) (k : Nat) :
    (Cursor.ofChars source capacity).memos.known? r k = none := by
  unfold MemoTable.known?
  rw [Cursor.getD_memos_ofChars]
  rfl

/-- There is a place for every offset, the end of the source included. -/
theorem size_memos_ofChars (source : Array Char) (capacity : Nat) :
    (Cursor.ofChars source capacity).memos.size = source.size + 1 :=
  Array.size_replicate

/-- The rules that are remembered are those of expressions. -/
theorem isMemoized_iff (r : Rule) :
    r.isMemoized = true ↔
      r ∈ [Rule.expr, .operand, .application, .value, .reference, .literal] := by
  cases r <;> decide

/-- Trials of remembered rules within a source, none of them made twice, are few. -/
theorem length_le_of_nodup_keys {done : List Evaluation} {size : Nat}
    (hnodup : (done.map Evaluation.key).Nodup)
    (hdone : ∀ x ∈ done, x.rule.isMemoized = true ∧ x.offset ≤ size) :
    done.length ≤ 6 * (size + 1) := by
  have hsubset : done.map Evaluation.key ⊆
      [Rule.expr, .operand, .application, .value, .reference, .literal]
        ×ˢ List.range (size + 1) := by
    intro key hkey
    obtain ⟨x, hx, rfl⟩ := List.mem_map.1 hkey
    obtain ⟨hrule, hoffset⟩ := hdone x hx
    exact List.mem_product.2 ⟨(isMemoized_iff x.rule).1 hrule,
      List.mem_range.2 (Nat.lt_succ_of_le hoffset)⟩
  have hlength := (List.subperm_of_subset hnodup hsubset).length_le
  rw [List.length_map, List.length_product, List.length_range] at hlength
  exact hlength

/-- Matching a rule of the grammar on a source ends, and its memory is the history of the trials
made on the way: no rule is tried twice at an offset, every trial finds nothing known and puts its
outcome into the memory, what is in the memory at some time stays there as it is, and in the end the
memory holds the outcomes of the trials and nothing else. So there are at most as many trials as
there are remembered rules and offsets.

The remembered rules are the six of expressions, and the bodies of all others are not remembered. No
trial is missing: wherever one of the six is called and its outcome is not known, so that its body
is tried, the trial is listed. -/
theorem tried_once_per_offset (source : String) (capacity : Nat) (r : Rule) :
    ∃ done matched c,
      (Pattern.call r).tally (Grammar.rift.tally (Grammar.callBound source.length))
        (.ofString source capacity) =
        some (done, matched, c) ∧
      (Pattern.call r).eval (Grammar.rift.run (Grammar.callBound source.length))
        (.ofString source capacity) =
        some (matched, c) ∧
      History (Cursor.ofString source capacity).memos done c.memos ∧
      (done.map Evaluation.key).Nodup ∧
      (∀ x ∈ done, x.rule.isMemoized = true ∧ x.offset ≤ source.length ∧
        x.before.known? x.rule x.offset = none ∧ x.after.IsKept c.memos) ∧
      (∀ q k memo, c.memos.known? q k = some memo ↔ ∃ x ∈ done, x.key = (q, k) ∧ x.memo = memo) ∧
      done.length ≤ 6 * (source.length + 1) ∧
      (∀ s, Grammar.rift s =
        if s ∈ [Rule.expr, .operand, .application, .value, .reference, .literal]
          then .memo s (Grammar.body s)
        else .rule s (Grammar.body s)) ∧
      ∀ captures s d,
        Tries Grammar.rift (.call r) (.ofString source capacity) captures (.call s) d →
        s ∈ [Rule.expr, .operand, .application, .value, .reference, .literal] →
        d.remembered? s = none →
        ∃ x ∈ done, x.key = (s, d.position) := by
  have hlength : source.length = source.toList.toArray.size := by
    rw [List.size_toArray, String.length_toList]
  rw [hlength]
  unfold Cursor.ofString
  obtain ⟨t, c, -, hrun, -⟩ := exists_eval_call source.toList.toArray capacity r
  have htally :=
    Pattern.map_tally (Grammar.rift.map_tally (Grammar.callBound source.toList.toArray.size))
      (.call r) (.ofChars source.toList.toArray capacity)
  rw [hrun] at htally
  obtain ⟨⟨done, matched, d⟩, hdone, heq⟩ := Option.map_eq_some_iff.1 htally
  cases heq
  have horderly : Orderly (.ofChars source.toList.toArray capacity) done c :=
    orderly_call source capacity r _ [] r _ done t.matched c .self hdone
  have hhistory := horderly.history
  have hplace : ∀ x ∈ done, x.offset <
      (Cursor.ofChars source.toList.toArray capacity).memos.size := by
    intro x hx
    rw [size_memos_ofChars]
    exact Nat.lt_succ_of_le (horderly.offset_le x hx)
  have hnodup := hhistory.nodup_keys hplace
  refine ⟨done, t.matched, c, hdone, hrun, hhistory, hnodup, ?_, ?_, ?_, ?_, ?_⟩
  · intro x hx
    obtain ⟨hnew, hkept⟩ := hhistory.isKept_after x hx
    exact ⟨horderly.isMemoized x hx, horderly.offset_le x hx, hnew, hkept⟩
  · intro q k memo
    constructor
    · intro hknown
      rcases hhistory.known hknown with hbefore | hx
      · rw [known?_memos_ofChars] at hbefore
        cases hbefore
      · exact hx
    · rintro ⟨x, hx, hkey, rfl⟩
      obtain ⟨rfl, rfl⟩ := Prod.mk.inj hkey
      exact hhistory.known?_eq_some x hx (hplace x hx)
  · exact length_le_of_nodup_keys hnodup fun x hx =>
      ⟨horderly.isMemoized x hx, horderly.offset_le x hx⟩
  · intro s
    simp only [← isMemoized_iff]
    rfl
  · intro captures s d htries hs hknown
    exact htries.exists_trial ((isMemoized_iff s).2 hs) hknown hdone

end RiftLang
