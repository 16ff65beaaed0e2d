import RiftLang.Cursor.Match

/-!
# What a match that has ended was made of

A match that ends has ended in one of the ways that its pattern leaves open. Each form of pattern
has a lemma that says which attempts were made, with what outcomes, and what has become of the
cursor. Whoever follows a match step by step reads its cases off these lemmas.

* `captureMatch_eq_some` — a capture: its body has ended inside it.
* `repeatMatch_succ_cases` — a repetition: its round was the last one, or others have followed.
* `eval_both_cases`, `eval_either_cases`, `eval_absent_eq_some`, `eval_memo_cases` — the patterns in
  which the outcome of one attempt decides about another.
-/

namespace RiftLang

variable {callee : Rule → Cursor → Outcome} {run : Cursor → Outcome} {a b body : Pattern}
  {c d : Cursor} {matched : Bool}

/-- A capture leaves with the verdict of its body. -/
theorem captureMatch_eq_some {symbol : Symbol}
    (h : captureMatch symbol run c = some (matched, d)) :
    ∃ inner e, run (c.enter symbol) = some (inner, e) ∧
      e.leave symbol c.checkpoint inner = (matched, d) := by
  unfold captureMatch at h
  rcases hrun : run (c.enter symbol) with _ | ⟨inner, e⟩
  · simp [hrun] at h
  · simp only [hrun, Option.some.injEq] at h
    exact ⟨inner, e, rfl, h⟩

/-- A repetition with a budget: its round has failed and was put back, or it has matched without
moving, or the repetition has gone on from where the round has ended. -/
theorem repeatMatch_succ_cases {budget : Nat}
    (h : repeatMatch run (budget + 1) c = some (matched, d)) :
    (∃ e, run c = some (false, e) ∧ matched = true ∧ d = e.restore c.checkpoint) ∨
      (run c = some (true, d) ∧ matched = true ∧ d.position = c.position) ∨
      ∃ e, run c = some (true, e) ∧ e.position ≠ c.position ∧
        repeatMatch run budget e = some (matched, d) := by
  unfold repeatMatch at h
  rcases hround : run c with _ | ⟨_ | _, e⟩
  · simp [hround] at h
  · simp only [hround] at h
    cases h
    exact .inl ⟨e, rfl, rfl, rfl⟩
  · simp only [hround] at h
    split at h
    · next hstop =>
        cases h
        exact .inr (.inl ⟨rfl, rfl, hstop⟩)
    · next hmoved => exact .inr (.inr ⟨e, rfl, hmoved, h⟩)

/-- Two patterns in a row: the first has failed, and nothing was put back, or the second has ended
from where the first has matched. -/
theorem eval_both_cases (h : (Pattern.both a b).eval callee c = some (matched, d)) :
    (a.eval callee c = some (false, d) ∧ matched = false) ∨
      ∃ e, a.eval callee c = some (true, e) ∧ b.eval callee e = some (matched, d) := by
  unfold Pattern.eval at h
  rcases ha : a.eval callee c with _ | ⟨_ | _, e⟩
  · simp [ha] at h
  · simp only [ha] at h
    cases h
    exact .inl ⟨rfl, rfl⟩
  · simp only [ha] at h
    exact .inr ⟨e, rfl, h⟩

/-- Two alternatives: the first has matched, or the second has ended from where the first, having
failed, was put back. If the second has failed as well, then it was put back too. -/
theorem eval_either_cases (h : (Pattern.either a b).eval callee c = some (matched, d)) :
    (a.eval callee c = some (true, d) ∧ matched = true) ∨
      ∃ e e', a.eval callee c = some (false, e) ∧
        b.eval callee (e.restore c.checkpoint) = some (matched, e') ∧
        d = if matched then e' else e'.restore c.checkpoint := by
  unfold Pattern.eval at h
  rcases ha : a.eval callee c with _ | ⟨_ | _, e⟩
  · simp [ha] at h
  · simp only [ha] at h
    rcases hb : b.eval callee (e.restore c.checkpoint) with _ | ⟨_ | _, e'⟩
    · simp [hb] at h
    · simp only [hb] at h
      cases h
      exact .inr ⟨e, e', rfl, hb, rfl⟩
    · simp only [hb] at h
      cases h
      exact .inr ⟨e, d, rfl, hb, rfl⟩
  · simp only [ha] at h
    cases h
    exact .inl ⟨rfl, rfl⟩

/-- A lookahead has the opposite verdict of its body, and was put back. -/
theorem eval_absent_eq_some (h : (Pattern.absent body).eval callee c = some (matched, d)) :
    ∃ inner e, body.eval callee c = some (inner, e) ∧ matched = !inner ∧
      d = e.restore c.checkpoint := by
  unfold Pattern.eval at h
  rcases hbody : body.eval callee c with _ | ⟨inner, e⟩
  · simp [hbody] at h
  · simp only [hbody] at h
    cases h
    exact ⟨inner, e, rfl, rfl, rfl⟩

/-- A remembered rule: what is known of it was repeated or, where nothing is known, its capture has
ended and was remembered. -/
theorem eval_memo_cases {r : Rule}
    (h : (Pattern.memo r body).eval callee c = some (matched, d)) :
    (∃ known, c.remembered? r = some known ∧ c.replay known = (matched, d)) ∨
      ∃ e, captureMatch (.rule r) (body.eval callee) c = some (matched, e) ∧
        d = e.remember r c.checkpoint matched := by
  unfold Pattern.eval at h
  rcases hknown : c.remembered? r with _ | known
  · simp only [hknown] at h
    rcases hcapture : captureMatch (.rule r) (body.eval callee) c with _ | ⟨m, e⟩
    · simp [hcapture] at h
    · simp only [hcapture] at h
      cases h
      exact .inr ⟨e, rfl, rfl⟩
  · simp only [hknown, Option.some.injEq] at h
    exact .inl ⟨known, rfl, h⟩

end RiftLang
