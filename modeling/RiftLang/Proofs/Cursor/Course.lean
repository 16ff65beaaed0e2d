import RiftLang.Proofs.Backtracking

/-!
# The course of a match

A match of a pattern tries smaller patterns on the way, each from some cursor and inside some
captures. What it tries, and between which cursors, is said here for matches that end and matches
that do not.

* `Ends` — the pattern ends, however deep calls have to nest for it.
* `Rounds` — from one cursor to another a repetition has matched and moved.
* `Tries` — in the course of a match this pattern is tried, from that cursor, while those captures
  are open.
* `Passes` — the cursors that a match passes through: wherever a pattern that it tries begins or has
  just ended. In between there are single operations on cursors only.
* `Tries.eval_congr` — nothing is left out: what a match does depends only on the calls that it
  tries.
-/

namespace RiftLang

/-- A capture that was entered and has not been left. -/
structure OpenCapture where
  /-- What its token will say. -/
  symbol : Symbol
  /-- The numbers of the cursor that entered it. -/
  entry : Checkpoint
  deriving DecidableEq, Repr

/-- The pattern ends so, from `c` at `d`, where calls may nest deep enough. -/
def Ends (g : Grammar) (p : Pattern) (c : Cursor) (matched : Bool) (d : Cursor) : Prop :=
  ∃ depth, p.eval (g.run depth) c = some (matched, d)

/-- Rounds of a repetition lead from `c` to the cursor. Each has matched and moved. -/
inductive Rounds (g : Grammar) (body : Pattern) (c : Cursor) : Cursor → Prop where
  /-- Before the first round. -/
  | start : Rounds g body c c
  /-- After one more round, which has matched and moved. -/
  | next {d e : Cursor} (h : Rounds g body c d) (hbody : Ends g body d true e)
    (hmoved : e.position ≠ d.position) :
      Rounds g body c e

/-- A match of `p` from `c` tries this pattern from that cursor while those captures, innermost
first, are open. -/
inductive Tries (g : Grammar) (p : Pattern) (c : Cursor) :
    List OpenCapture → Pattern → Cursor → Prop where
  /-- The match tries its own pattern first. -/
  | self : Tries g p c [] p c
  /-- The first of two in a row. -/
  | first {captures : List OpenCapture} {a b : Pattern} {d : Cursor}
    (h : Tries g p c captures (.both a b) d) :
      Tries g p c captures a d
  /-- The second, where the first has matched. -/
  | second {captures : List OpenCapture} {a b : Pattern} {d e : Cursor}
    (h : Tries g p c captures (.both a b) d) (ha : Ends g a d true e) :
      Tries g p c captures b e
  /-- The first alternative. -/
  | preferred {captures : List OpenCapture} {a b : Pattern} {d : Cursor}
    (h : Tries g p c captures (.either a b) d) :
      Tries g p c captures a d
  /-- The second alternative, after the first has failed and was put back. -/
  | otherwise {captures : List OpenCapture} {a b : Pattern} {d e : Cursor}
    (h : Tries g p c captures (.either a b) d) (ha : Ends g a d false e) :
      Tries g p c captures b (e.restore d.checkpoint)
  /-- A round of a repetition, after some rounds. -/
  | round {captures : List OpenCapture} {body : Pattern} {d e : Cursor}
    (h : Tries g p c captures (.many body) d) (hrounds : Rounds g body d e) :
      Tries g p c captures body e
  /-- What is looked for ahead. -/
  | absent {captures : List OpenCapture} {body : Pattern} {d : Cursor}
    (h : Tries g p c captures (.absent body) d) :
      Tries g p c captures body d
  /-- The body of a rule, inside its capture. -/
  | rule {captures : List OpenCapture} {r : Rule} {body : Pattern} {d : Cursor}
    (h : Tries g p c captures (.rule r body) d) :
      Tries g p c (⟨.rule r, d.checkpoint⟩ :: captures) body (d.enter (.rule r))
  /-- The body of a captured text, inside its capture. -/
  | text {captures : List OpenCapture} {body : Pattern} {d : Cursor}
    (h : Tries g p c captures (.text body) d) :
      Tries g p c (⟨.text, d.checkpoint⟩ :: captures) body (d.enter .text)
  /-- The body of a remembered rule, where nothing is remembered. -/
  | memo {captures : List OpenCapture} {r : Rule} {body : Pattern} {d : Cursor}
    (h : Tries g p c captures (.memo r body) d) (hknown : d.remembered? r = none) :
      Tries g p c (⟨.rule r, d.checkpoint⟩ :: captures) body (d.enter (.rule r))
  /-- What the grammar says a called rule is. -/
  | call {captures : List OpenCapture} {r : Rule} {d : Cursor}
    (h : Tries g p c captures (.call r) d) :
      Tries g p c captures (g r) d

/-- A match of `p` from `c` passes through this cursor while those captures are open. What counts
are the beginnings and the ends of the patterns tried, not the steps inside a single operation. -/
inductive Passes (g : Grammar) (p : Pattern) (c : Cursor) (captures : List OpenCapture) :
    Cursor → Prop where
  /-- Where a pattern begins. -/
  | begin {q : Pattern} {d : Cursor} (h : Tries g p c captures q d) : Passes g p c captures d
  /-- Where it ends, matched or not. -/
  | finish {q : Pattern} {d e : Cursor} {matched : Bool} (h : Tries g p c captures q d)
    (hq : Ends g q d matched e) :
      Passes g p c captures e

section course

variable {g : Grammar} {p q : Pattern} {c d : Cursor} {captures : List OpenCapture} {matched : Bool}

/-- What ends keeps what no match changes. -/
theorem Ends.keeps (h : Ends g p c matched d) (hc : c.InBounds) : c.Keeps d := by
  obtain ⟨depth, h⟩ := h
  obtain ⟨sights, hmoves⟩ := exists_moves_of_eval h
  exact hmoves.keeps hc

/-- Two runs of a body that agree wherever its rounds lead have the same repetition. -/
theorem repeatMatch_congr {body : Pattern} {n : Nat} {run : Cursor → Outcome}
    (hrun : ∀ e, Rounds g body c e → run e = body.eval (g.run n) e) (budget : Nat)
    (hd : Rounds g body c d) :
    repeatMatch run budget d = repeatMatch (body.eval (g.run n)) budget d := by
  induction budget generalizing d with
  | zero => rfl
  | succ budget ih =>
      unfold repeatMatch
      rw [hrun d hd]
      rcases hround : body.eval (g.run n) d with _ | ⟨_ | _, e⟩
      · rfl
      · rfl
      · by_cases hstop : e.position = d.position
        · simp [hstop, Cursor.checkpoint]
        · simp only [hstop, Cursor.checkpoint, if_false]
          exact ih (hd.next ⟨n, hround⟩ hstop)

/-- A pattern that is tried in the course of a match does the same with callees that do the same
wherever the match calls them. -/
theorem Tries.eval_congr (h : Tries g p c captures q d) {n : Nat} {callee : Rule → Cursor → Outcome}
    (hcallee : ∀ captures r e, Tries g p c captures (.call r) e → callee r e = g.run n r e) :
    q.eval callee d = q.eval (g.run n) d := by
  induction q generalizing captures d with
  | succeed | one _ | action _ => rfl
  | both a b iha ihb =>
      unfold Pattern.eval
      rw [iha h.first]
      rcases ha : a.eval (g.run n) d with _ | ⟨_ | _, e⟩
      · rfl
      · rfl
      · exact ihb (h.second ⟨n, ha⟩)
  | either a b iha ihb =>
      unfold Pattern.eval
      rw [iha h.preferred]
      rcases ha : a.eval (g.run n) d with _ | ⟨_ | _, e⟩
      · rfl
      · dsimp only
        rw [ihb (h.otherwise ⟨n, ha⟩)]
      · rfl
  | many body ih => exact repeatMatch_congr (fun e he => ih (h.round he)) _ .start
  | absent body ih =>
      unfold Pattern.eval
      rw [ih h.absent]
  | rule r body ih =>
      unfold Pattern.eval captureMatch
      rw [ih h.rule]
  | text body ih =>
      unfold Pattern.eval captureMatch
      rw [ih h.text]
  | memo r body ih =>
      unfold Pattern.eval captureMatch
      rcases hknown : d.remembered? r with _ | known
      · rw [ih (h.memo hknown)]
      · rfl
  | call r => exact hcallee captures r d h

end course

end RiftLang
