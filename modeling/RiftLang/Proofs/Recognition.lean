import RiftLang.Parser
import RiftLang.Proofs.Peg.Table

/-!
# Recognition is the meaning of the rule table

The trace of a rule is its derivation by the rule table: it matches where the table does, stops
where the derivation ends, and leaves the tokens of the derivation.

* `Trace.Shows` — a trace shows an outcome of the table.
* `Peg.reads`, `reads_rift` — every trace of an expression or a rule shows its outcome. There is a
  lemma for each form of expression (`reads_word`, `Reads.seq`, `Reads.star`, …), and `Peg.reads`
  puts them together.
* `exists_trace_rift` — calls nest at most `11 * (n - p) + 11` deep from offset `p` of a source of
  `n` characters: without consuming anything they go down the order of rules.
* `recognize_eq_ok_iff` — what is recognised.
* `matching_is_meaning_of_table` — what matching any rule on a fresh cursor comes to.
-/

namespace RiftLang

open Peg

namespace Derivation

/-- The tokens of a derivation, recorded deeper. -/
theorem map_deepen_tokens (d : Derivation) (start depth k : Nat) :
    (d.tokens start depth).map (.deepen k) = d.tokens start (depth + k) := by
  induction d generalizing start depth with
  | leaf _ | action _ => rfl
  | append d e ihd ihe => simp [tokens, ihd, ihe]
  | capture s d ih => simp [tokens, ih, Token.deepen, Nat.add_right_comm]

end Derivation

namespace Trace

/-- The trace, begun at `p`, shows an outcome. -/
def Shows (t : Trace) (p : Nat) : Option (Derivation × List Char) → Prop
  | none => t.matched = false
  | some (d, _) => t.matched = true ∧ t.stop = p + d.width ∧ t.tokens = d.tokens p 0

variable {t u : Trace} {p : Nat} {d e : Derivation} {s s' : List Char}

/-- A trace after a trace that matched shows the derivation of both. -/
theorem Shows.andThen (ht : t.Shows p (some (d, s))) (hu : u.Shows t.stop (some (e, s'))) :
    (t.andThen u).Shows p (some (d.append e, s')) := by
  obtain ⟨-, hstop, htokens⟩ := ht
  obtain ⟨hm, hstop', htokens'⟩ := hu
  refine ⟨hm, ?_, ?_⟩
  · rw [stop_andThen, hstop', hstop, Derivation.width_append, Nat.add_assoc]
  · simp [Trace.andThen, htokens, htokens', hstop, Derivation.tokens]

/-- A trace inside a capture shows the derivation inside that capture, or the failure. -/
theorem Shows.inside (symbol : Symbol) {res : Option (Derivation × List Char)}
    (ht : t.Shows p res) :
    (t.inside symbol p).Shows p (res.map fun m => (.capture symbol m.1, m.2)) := by
  rcases res with _ | ⟨d, s⟩
  · exact ht
  · obtain ⟨hm, hstop, htokens⟩ := ht
    refine ⟨hm, by simp [Trace.inside, hm, hstop], ?_⟩
    simp [Trace.inside, hm, htokens, hstop, Derivation.tokens, Derivation.map_deepen_tokens]

/-- A trace shows the same of an alternative tried after a failure. -/
theorem Shows.after_rewind {res : Option (Derivation × List Char)} (hu : u.Shows p res) :
    ((t.rewind p).andThen (u.settle p)).Shows p res := by
  rcases res with _ | ⟨d, s⟩
  · have hm : u.matched = false := hu
    simp [Shows, settle_of_failed hm, hm]
  · obtain ⟨hm, hstop, htokens⟩ := hu
    simp [Shows, settle_of_matched hm, hm, hstop, Trace.andThen, Trace.rewind, htokens]

end Trace

/-! ## Traces show the outcomes of the table -/

section shows

variable {source : Array Char} {callee : Rule → Nat → Option Trace}

/-- The rest of the source from an offset. -/
def restFrom (source : Array Char) (p : Nat) : List Char :=
  source.toList.drop p

/-- What an expression leaves is the rest of the source past what it has matched. -/
theorem restFrom_add {p : Nat} {d : Derivation} {s : List Char} {e : Peg}
    (h : Parses table e (restFrom source p) (some (d, s))) :
    s = restFrom source (p + d.width) ∧ p + d.width ≤ max p source.size := by
  have hsplit := h.eq_append
  constructor
  · have hdrop : restFrom source (p + d.width) = (restFrom source p).drop d.width := by
      simp [restFrom]
    rw [hdrop, hsplit]
    exact (List.drop_left' rfl).symm
  · have hlength := congrArg List.length hsplit
    simp only [restFrom, List.length_drop, Array.length_toList, List.length_append] at hlength
    simp only [Derivation.width]
    omega

variable (source) in
/-- The trace of a single character. -/
theorem shows_step (test : Char → Bool) (p : Nat) :
    ∃ res, Parses table (.one test) (restFrom source p) res ∧
      (Trace.step source test p).Shows p res := by
  rcases hp : source[p]? with _ | c
  · have hnil : restFrom source p = [] := by
      simpa [restFrom] using Array.getElem?_eq_none_iff.1 hp
    refine ⟨none, ?_, by simp [Trace.Shows, Trace.step, hp]⟩
    rw [hnil]
    exact .one_fail (by simp)
  · have hcons : restFrom source p = c :: restFrom source (p + 1) := by
      have hlist : source.toList[p]? = some c := by simpa using hp
      obtain ⟨hlt, hget⟩ := List.getElem?_eq_some_iff.1 hlist
      rw [restFrom, List.drop_eq_getElem_cons hlt, hget]
      rfl
    rw [hcons]
    by_cases hc : test c = true
    · exact ⟨_, .one hc, by simp [Trace.Shows, Trace.step, hp, hc, Derivation.tokens]⟩
    · refine ⟨none, .one_fail ?_, by simp [Trace.Shows, Trace.step, hp, hc]⟩
      simpa using hc

variable (source callee) in
/-- The trace of characters in a row. -/
theorem exists_trace_all_char (cs : List Char) (p : Nat) :
    ∃ t, (Pattern.all (cs.map Pattern.char)).trace source callee p = some t ∧
      (t.matched = true ↔ cs <+: restFrom source p) ∧
      (t.matched = true → t.stop = p + cs.length ∧ t.tokens = []) := by
  induction cs generalizing p with
  | nil => exact ⟨_, rfl, by simp, fun _ => ⟨rfl, rfl⟩⟩
  | cons c cs ih =>
      obtain ⟨u, hu, hmatched, hstop⟩ := ih (p + 1)
      obtain ⟨res, hres, hshows⟩ := shows_step source (· == c) p
      rcases res with _ | ⟨d, s⟩
      · have hm : (Trace.step source (· == c) p).matched = false := hshows
        refine ⟨.step source (· == c) p, ?_, ?_, by simp [hm]⟩
        · simp [Pattern.all, Pattern.char, Pattern.trace, hm]
        have hno : ¬ c :: cs <+: restFrom source p := by
          rintro ⟨s, hs⟩
          rw [← hs] at hres
          exact Option.some_ne_none _ ((Parses.one (by simp)).unique hres)
        simp [hm, hno]
      · obtain ⟨hm, hstop', htokens⟩ := hshows
        obtain ⟨hs, -⟩ := restFrom_add hres
        obtain ⟨c', hrest, hc, rfl⟩ := parses_one_iff.1 hres
        obtain rfl := eq_of_beq hc
        rw [hs] at hrest
        have hstop₁ : (Trace.step source (· == c') p).stop = p + 1 := hstop'
        have htokens₁ : (Trace.step source (· == c') p).tokens = [] := rfl
        refine ⟨(Trace.step source (· == c') p).andThen u, ?_, ?_, fun hmu => ?_⟩
        · show Option.bind _ _ = _
          simp only [Pattern.char, Pattern.trace, Option.bind_some, hm, if_true, hstop₁]
          rw [show (List.foldr Pattern.both Pattern.succeed (cs.map Pattern.char)).trace
            source callee
            (p + 1) = some u from hu]
          rfl
        · rw [Trace.matched_andThen, hmatched, hrest, List.cons_prefix_cons]
          simp [Derivation.width, Derivation.chars]
        · obtain ⟨hs, ht⟩ := hstop hmu
          refine ⟨?_, by simp [Trace.andThen, htokens₁, ht]⟩
          rw [Trace.stop_andThen, hs, List.length_cons]
          omega

/-- An attempt shows what its body shows. -/
theorem shows_of_attempt {body : Pattern} {p : Nat} {t : Trace}
    (h : (Pattern.attempt body).trace source callee p = some t) :
    ∃ u, body.trace source callee p = some u ∧ ∀ res, u.Shows p res → t.Shows p res := by
  obtain ⟨u, hu, h⟩ := Option.bind_eq_some_iff.1 h
  refine ⟨u, hu, fun res hres => ?_⟩
  rcases hm : u.matched with _ | _
  · simp only [hm, Bool.false_eq_true, if_false] at h
    obtain ⟨w, hw, rfl⟩ := Option.map_eq_some_iff.1 h
    rcases res with _ | ⟨d, s⟩
    · have hfail : w.Shows p none := by
        cases hw
        rfl
      exact hfail.after_rewind
    · rw [hres.1] at hm
      cases hm
  · simp only [hm, if_true, Option.some.injEq] at h
    exact h ▸ hres

variable (source callee) in
/-- Traces of the expression show its outcomes. -/
def Reads (e : Peg) : Prop :=
  ∀ p t, p ≤ source.size → e.pattern.trace source callee p = some t →
    ∃ res, Parses table e (restFrom source p) res ∧ t.Shows p res

/-- A repetition shows its outcome, given that its body does and that each round consumes: the
budget then outlasts the source. The induction is on the budget. -/
theorem Reads.star {body : Peg} (hbody : Reads source callee body) (hne : body.mayBeEmpty = false)
    {budget p : Nat} {t : Trace} (hp : p ≤ source.size) (hbudget : source.size < budget + p)
    (h : repeatTrace (body.pattern.trace source callee) budget p = some t) :
    ∃ res, Parses table (.star body) (restFrom source p) res ∧ t.Shows p res := by
  induction budget generalizing p t with
  | zero => omega
  | succ budget ih =>
      obtain ⟨u, hu, h⟩ := Option.bind_eq_some_iff.1 h
      obtain ⟨res, hres, hshows⟩ := hbody p u hp hu
      rcases res with _ | ⟨d, s⟩
      · have hm : u.matched = false := hshows
        simp only [hm, Bool.false_eq_true, if_false, Option.some.injEq] at h
        subst h
        exact ⟨_, .star_stop hres, rfl, rfl, rfl⟩
      · obtain ⟨hm, hstop, -⟩ := id hshows
        have hwidth := width_pos_of_parses hres hne
        obtain ⟨hs, hle⟩ := restFrom_add hres
        simp only [hm, if_true, show u.stop ≠ p by omega, if_false] at h
        obtain ⟨w, hw, rfl⟩ := Option.map_eq_some_iff.1 h
        obtain ⟨res', hres', hshows'⟩ := ih (by omega) (by omega) hw
        rcases res' with _ | ⟨e, s'⟩
        · cases hres'
        · rw [hstop, ← hs] at hres'
          exact ⟨_, .star hres hres', hshows.andThen hshows'⟩

/-- Traces of a word show its outcomes. -/
theorem reads_word (w : String) : Reads source callee (.word w) := by
  intro p t hp h
  obtain ⟨u, hu, hshows⟩ := shows_of_attempt h
  obtain ⟨u', hu', hmatched, hstop⟩ := exists_trace_all_char source callee w.toList p
  obtain rfl : u = u' := Option.some.inj (hu.symm.trans hu')
  by_cases hprefix : w.toList <+: restFrom source p
  · obtain ⟨s, hs⟩ := id hprefix
    have hm := hmatched.2 hprefix
    exact ⟨_, hs ▸ .word, hshows (some (.leaf w.toList, s)) ⟨hm, hstop hm⟩⟩
  · refine ⟨none, .word_fail hprefix, hshows none ?_⟩
    exact Bool.eq_false_iff.2 fun hm => hprefix (hmatched.1 hm)

/-- Two expressions in a row: the second is traced from where the first has stopped. -/
theorem Reads.seq {a b : Peg} (ha : Reads source callee a) (hb : Reads source callee b) :
    Reads source callee (.seq a b) := by
  intro p t hp h
  obtain ⟨u, hu, h⟩ := Option.bind_eq_some_iff.1 h
  obtain ⟨res, hres, hshows⟩ := ha p u hp hu
  rcases res with _ | ⟨d, s⟩
  · have hm : u.matched = false := hshows
    simp only [hm, Bool.false_eq_true, if_false, Option.some.injEq] at h
    exact ⟨none, .seq_fail_left hres, h ▸ hm⟩
  · obtain ⟨hm, hstop, -⟩ := id hshows
    obtain ⟨hs, hle⟩ := restFrom_add hres
    simp only [hm, if_true] at h
    obtain ⟨w, hw, rfl⟩ := Option.map_eq_some_iff.1 h
    obtain ⟨res', hres', hshows'⟩ := hb u.stop w (by omega) hw
    rw [hstop, ← hs] at hres'
    rcases res' with _ | ⟨e, s'⟩
    · exact ⟨none, .seq_fail_right hres hres', hshows'⟩
    · exact ⟨_, .seq hres hres', hshows.andThen hshows'⟩

/-- Two alternatives: after the first has failed, the second is traced from the same offset. -/
theorem Reads.choice {a b : Peg} (ha : Reads source callee a) (hb : Reads source callee b) :
    Reads source callee (.choice a b) := by
  intro p t hp h
  obtain ⟨u, hu, h⟩ := Option.bind_eq_some_iff.1 h
  obtain ⟨res, hres, hshows⟩ := ha p u hp hu
  rcases res with _ | ⟨d, s⟩
  · have hm : u.matched = false := hshows
    simp only [hm, Bool.false_eq_true, if_false] at h
    obtain ⟨w, hw, rfl⟩ := Option.map_eq_some_iff.1 h
    obtain ⟨res', hres', hshows'⟩ := hb p w hp hw
    exact ⟨res', .choice_right hres hres', hshows'.after_rewind⟩
  · simp only [hshows.1, if_true, Option.some.injEq] at h
    exact ⟨_, .choice_left hres, h ▸ hshows⟩

/-- At least one round: the first is traced as an attempt, the others as any number of rounds. -/
theorem Reads.plus {body : Peg} (hbody : Reads source callee body) (hne : body.mayBeEmpty = false) :
    Reads source callee (.plus body) := by
  intro p t hp h
  obtain ⟨u, hu, h⟩ := Option.bind_eq_some_iff.1 h
  obtain ⟨u', hu', hattempt⟩ := shows_of_attempt hu
  obtain ⟨res, hres, hshows'⟩ := hbody p u' hp hu'
  have hshows := hattempt res hshows'
  rcases res with _ | ⟨d, s⟩
  · have hm : u.matched = false := hshows
    simp only [hm, Bool.false_eq_true, if_false, Option.some.injEq] at h
    exact ⟨none, .plus_fail hres, h ▸ hm⟩
  · obtain ⟨hm, hstop, -⟩ := id hshows
    obtain ⟨hs, hle⟩ := restFrom_add hres
    simp only [hm, if_true] at h
    obtain ⟨w, hw, rfl⟩ := Option.map_eq_some_iff.1 h
    obtain ⟨res', hres', hshows'⟩ := hbody.star hne (p := u.stop) (by omega) (by omega) hw
    rw [hstop, ← hs] at hres'
    rcases res' with _ | ⟨e, s'⟩
    · cases hres'
    · exact ⟨_, .plus hres hres', hshows.andThen hshows'⟩

/-- A lookahead shows that its body has no outcome, and consumes nothing. -/
theorem Reads.absent {body : Peg} (hbody : Reads source callee body) :
    Reads source callee (.absent body) := by
  intro p t hp h
  obtain ⟨u, hu, rfl⟩ := Option.map_eq_some_iff.1 h
  obtain ⟨res, hres, hshows⟩ := hbody p u hp hu
  rcases res with _ | ⟨d, s⟩
  · have hm : u.matched = false := hshows
    exact ⟨_, .absent hres, by simp [Trace.withVerdict, hm], rfl, rfl⟩
  · exact ⟨none, .absent_fail hres, by simp [Trace.Shows, Trace.withVerdict, hshows.1]⟩

/-- A captured text shows the outcome of its body inside a capture. -/
theorem Reads.text {body : Peg} (hbody : Reads source callee body) :
    Reads source callee (.text body) := by
  intro p t hp h
  obtain ⟨u, hu, rfl⟩ := Option.map_eq_some_iff.1 h
  obtain ⟨res, hres, hshows⟩ := hbody p u hp hu
  refine ⟨_, ?_, hshows.inside .text⟩
  rcases res with _ | ⟨d, s⟩
  · exact .text_fail hres
  · exact .text hres

/-- Traces of expressions whose rules show their outcomes show theirs. -/
theorem Peg.reads (hcallee : ∀ r, Reads source callee (.call r)) (e : Peg)
    (he : e.isProductive = true) : Reads source callee e := by
  induction e with
  | empty =>
      rintro p t - ⟨⟩
      exact ⟨_, .empty, rfl, rfl, rfl⟩
  | fail =>
      rintro p t - ⟨⟩
      exact ⟨_, .fail, rfl⟩
  | one test =>
      rintro p t - ⟨⟩
      exact shows_step source test p
  | word w => exact reads_word w
  | seq a b iha ihb =>
      obtain ⟨ha, hb⟩ := Bool.and_eq_true_iff.1 he
      exact (iha ha).seq (ihb hb)
  | choice a b iha ihb =>
      obtain ⟨ha, hb⟩ := Bool.and_eq_true_iff.1 he
      exact (iha ha).choice (ihb hb)
  | star body ih =>
      obtain ⟨hne, hbody⟩ := Bool.and_eq_true_iff.1 he
      intro p t hp h
      exact (ih hbody).star (by simpa using hne) hp (by omega) h
  | plus body ih =>
      obtain ⟨hne, hbody⟩ := Bool.and_eq_true_iff.1 he
      exact (ih hbody).plus (by simpa using hne)
  | absent body ih => exact (ih he).absent
  | text body ih => exact (ih he).text
  | action a =>
      rintro p t - ⟨⟩
      exact ⟨_, .action, rfl, rfl, rfl⟩
  | call r => exact hcallee r

/-- A rule of Rift, remembered or not, is traced like its expression, as the inside of a capture. -/
theorem trace_rift (r : Rule) (p : Nat) :
    (Grammar.rift r).trace source callee p =
      ((table r).pattern.trace source callee p).map (.inside (.rule r) p) := by
  unfold Grammar.rift
  rw [← body_eq_pattern_table]
  split <;> rfl

/-- Traces of rules show their outcomes by the table. -/
theorem reads_rift (depth : Nat) (r : Rule) :
    Reads source (Grammar.rift.trace source depth) (.call r) := by
  induction depth generalizing r with
  | zero =>
      intro p t hp h
      cases h
  | succ depth ih =>
      intro p t hp h
      replace h : (Grammar.rift r).trace source (Grammar.rift.trace source depth) p = some t := h
      rw [trace_rift] at h
      obtain ⟨u, hu, rfl⟩ := Option.map_eq_some_iff.1 h
      obtain ⟨res, hres, hshows⟩ := (table r).reads ih (isProductive_table r) p u hp hu
      refine ⟨_, ?_, hshows.inside (.rule r)⟩
      rcases res with _ | ⟨d, s⟩
      · exact .call_fail hres
      · exact .call hres

end shows

/-! ## Calls end -/

section total

variable {source : Array Char} {depth : Nat}

/-- A repetition of a body that consumes has a trace, if the body has one wherever its rounds begin.
With each round the rest of the source gets shorter, and so do the calls that may have to nest. -/
theorem exists_repeatTrace {body : Peg} (hne : body.mayBeEmpty = false)
    (hreads : Reads source (Grammar.rift.trace source depth) body)
    (hbody : ∀ p ≤ source.size, 11 * (source.size - p) ≤ depth →
      (∀ q ∈ body.heads, 11 * (source.size - p) + q.rank + 1 ≤ depth) →
      ∃ t, body.pattern.trace source (Grammar.rift.trace source depth) p = some t)
    {budget p : Nat} (hp : p ≤ source.size) (hlater : 11 * (source.size - p) ≤ depth)
    (hheads : ∀ q ∈ body.heads, 11 * (source.size - p) + q.rank + 1 ≤ depth) :
    ∃ t, repeatTrace (body.pattern.trace source (Grammar.rift.trace source depth)) budget p
      = some t := by
  induction budget generalizing p with
  | zero => exact ⟨_, rfl⟩
  | succ budget ih =>
      obtain ⟨t, ht⟩ := hbody p hp hlater hheads
      obtain ⟨res, hres, hshows⟩ := hreads p t hp ht
      rcases res with _ | ⟨d, s⟩
      · have hm : t.matched = false := hshows
        exact ⟨_, by simp [repeatTrace, ht, hm]; rfl⟩
      · obtain ⟨hm, hstop, -⟩ := hshows
        have hwidth := width_pos_of_parses hres hne
        obtain ⟨-, hle⟩ := restFrom_add hres
        obtain ⟨u, hu⟩ := ih (p := t.stop) (by omega) (by omega) fun q _ => by
          have := q.rank_lt
          omega
        exact ⟨_, by simp [repeatTrace, ht, hm, show t.stop ≠ p by omega, hu]; rfl⟩

/-- An attempt has a trace where its body has one. -/
theorem exists_trace_attempt {body : Pattern} {callee : Rule → Nat → Option Trace} {p : Nat}
    (h : ∃ t, body.trace source callee p = some t) :
    ∃ t, (Pattern.attempt body).trace source callee p = some t := by
  obtain ⟨t, ht⟩ := h
  cases hm : t.matched <;> simp [Pattern.attempt, Pattern.fail, Pattern.trace, ht, hm]

/-- Two patterns in a row have a trace where the first has one and, if it matches, the second has
one from where the first stops. -/
theorem exists_trace_both {first second : Pattern} {callee : Rule → Nat → Option Trace} {p : Nat}
    {t : Trace} (ht : first.trace source callee p = some t)
    (hnext : t.matched = true → ∃ u, second.trace source callee t.stop = some u) :
    ∃ u, (Pattern.both first second).trace source callee p = some u := by
  cases hm : t.matched with
  | false => exact ⟨t, by simp [Pattern.trace, ht, hm]⟩
  | true =>
      obtain ⟨u, hu⟩ := hnext hm
      exact ⟨t.andThen u, by simp [Pattern.trace, ht, hm, hu]⟩

/-- One round or more of a body that consumes have a trace under the same conditions: the repetition
begins farther on than the first round. -/
theorem exists_trace_plus {body : Peg} (hne : body.mayBeEmpty = false)
    (hreads : Reads source (Grammar.rift.trace source depth) body)
    (hbody : ∀ p ≤ source.size, 11 * (source.size - p) ≤ depth →
      (∀ q ∈ body.heads, 11 * (source.size - p) + q.rank + 1 ≤ depth) →
      ∃ t, body.pattern.trace source (Grammar.rift.trace source depth) p = some t)
    {p : Nat} (hp : p ≤ source.size) (hlater : 11 * (source.size - p) ≤ depth)
    (hheads : ∀ q ∈ body.heads, 11 * (source.size - p) + q.rank + 1 ≤ depth) :
    ∃ t, (Peg.plus body).pattern.trace source (Grammar.rift.trace source depth) p = some t := by
  obtain ⟨t, ht⟩ := exists_trace_attempt (hbody p hp hlater hheads)
  refine exists_trace_both ht fun hm => ?_
  obtain ⟨t', ht', hattempt⟩ := shows_of_attempt ht
  obtain ⟨res, hres, hshows⟩ := hreads p t' hp ht'
  rcases res with _ | ⟨d, s⟩
  · have hfails : t.matched = false := hattempt none hshows
    simp [hm] at hfails
  · obtain ⟨-, hstop, -⟩ := hattempt _ hshows
    have hwidth := width_pos_of_parses hres hne
    obtain ⟨-, hle⟩ := restFrom_add hres
    refine exists_repeatTrace hne hreads hbody (by omega) (by omega) fun q _ => ?_
    have := q.rank_lt
    omega

/-- An expression has a trace wherever the rules that it tries first have one. -/
theorem Peg.exists_trace
    (hcall : ∀ r, ∀ p ≤ source.size, 11 * (source.size - p) + r.rank + 1 ≤ depth →
      ∃ t, Grammar.rift.trace source depth r p = some t)
    (e : Peg) (he : e.isProductive = true) {p : Nat} (hp : p ≤ source.size)
    (hlater : 11 * (source.size - p) ≤ depth)
    (hheads : ∀ q ∈ e.heads, 11 * (source.size - p) + q.rank + 1 ≤ depth) :
    ∃ t, e.pattern.trace source (Grammar.rift.trace source depth) p = some t := by
  induction e generalizing p with
  | empty | fail | one _ | action _ => exact ⟨_, rfl⟩
  | word w =>
      obtain ⟨t, ht, -⟩ :=
        exists_trace_all_char source (Grammar.rift.trace source depth) w.toList p
      exact exists_trace_attempt ⟨t, ht⟩
  | seq a b iha ihb =>
      obtain ⟨ha, hb⟩ := Bool.and_eq_true_iff.1 he
      obtain ⟨t, ht⟩ := iha ha hp hlater fun q hq => hheads q (List.mem_append_left _ hq)
      refine exists_trace_both ht fun hm => ?_
      obtain ⟨res, hres, hshows⟩ := a.reads (reads_rift depth) ha p t hp ht
      rcases res with _ | ⟨d, s⟩
      · have hfails : t.matched = false := hshows
        simp [hm] at hfails
      · obtain ⟨-, hstop, -⟩ := hshows
        obtain ⟨-, hle⟩ := restFrom_add hres
        refine ihb hb (by omega) (by omega) fun q hq => ?_
        -- the second part is still at the head only if the first may have consumed nothing
        rcases hempty : a.mayBeEmpty with _ | _
        · have hwidth := width_pos_of_parses hres hempty
          have hrank := q.rank_lt
          omega
        · have hq' : q ∈ (Peg.seq a b).heads := by
            simp [heads, hempty, hq]
          have := hheads q hq'
          omega
  | choice a b iha ihb =>
      obtain ⟨ha, hb⟩ := Bool.and_eq_true_iff.1 he
      obtain ⟨t, ht⟩ := iha ha hp hlater fun q hq => hheads q (List.mem_append_left _ hq)
      obtain ⟨u, hu⟩ := ihb hb hp hlater fun q hq => hheads q (List.mem_append_right _ hq)
      cases hm : t.matched <;> simp [pattern, Pattern.trace, ht, hm, hu]
  | star body ih =>
      obtain ⟨hne, hbody⟩ := Bool.and_eq_true_iff.1 he
      exact exists_repeatTrace (by simpa using hne) (body.reads (reads_rift depth) hbody)
        (fun p hp => ih hbody hp) hp hlater hheads
  | plus body ih =>
      obtain ⟨hne, hbody⟩ := Bool.and_eq_true_iff.1 he
      exact exists_trace_plus (by simpa using hne) (body.reads (reads_rift depth) hbody)
        (fun p hp => ih hbody hp) hp hlater hheads
  | absent body ih | text body ih =>
      obtain ⟨t, ht⟩ := ih he hp hlater hheads
      simp [pattern, Pattern.trace, ht]
  | call r => exact hcall r p hp (hheads r List.mem_cons_self)

variable (source) in
/-- A rule has a trace once calls may nest so deep: below itself it calls lower rules, or any rule
farther on. -/
theorem exists_trace_rift {p : Nat} (r : Rule) (hp : p ≤ source.size)
    (hdepth : 11 * (source.size - p) + r.rank + 1 ≤ depth) :
    ∃ t, Grammar.rift.trace source depth r p = some t := by
  induction depth generalizing r p with
  | zero => omega
  | succ depth ih =>
      obtain ⟨t, ht⟩ := Peg.exists_trace (fun r p hp => ih r hp) (table r) (isProductive_table r) hp
        (by omega) fun q hq => by
          have := Rule.rank_lt_of_mem_heads hq
          omega
      refine ⟨t.inside (.rule r) p, ?_⟩
      show (Grammar.rift r).trace source _ p = _
      rw [trace_rift, ht]
      rfl

variable (source) in
/-- The bound on calls that matching uses is enough from every offset. -/
theorem exists_trace_call {p : Nat} (r : Rule) (hp : p ≤ source.size) :
    ∃ t, (Pattern.call r).trace source
      (Grammar.rift.trace source (Grammar.callBound source.size)) p = some t := by
  apply exists_trace_rift source r hp
  have hrank := r.rank_lt
  have hall : Rule.all.length = 38 := rfl
  simp only [Grammar.callBound, hall]
  omega

/-- The bound on calls that matching uses is enough. -/
theorem exists_trace_callBound (source : Array Char) (r : Rule) :
    ∃ t, (Pattern.call r).trace source
      (Grammar.rift.trace source (Grammar.callBound source.size)) 0 = some t :=
  exists_trace_call source r (Nat.zero_le _)

end total

/-! ## Matching a rule -/

/-- Every remembered rule of the grammar is used with its one body. -/
theorem memoizes_rift (r : Rule) : (Grammar.rift r).Memoizes Grammar.body := by
  have hbody : (Grammar.body r).Memoizes Grammar.body := by
    rw [body_eq_pattern_table]
    exact memoizes_pattern _ _
  unfold Grammar.rift
  split
  · exact ⟨rfl, hbody⟩
  · exact hbody

/-- Matching a rule in the course of a run ends, and shows the outcome of the table on the rest of
the source. -/
theorem exists_eval_call_from {c : Cursor} (hc : c.Reliable Grammar.rift Grammar.body)
    (hp : c.position ≤ c.source.size) (r : Rule) :
    ∃ t d res, (Pattern.call r).eval (Grammar.rift.run (Grammar.callBound c.source.size)) c =
      some (t.matched, d) ∧
      c.Follows Grammar.rift Grammar.body t d ∧
      Parses table (.call r) (restFrom c.source c.position) res ∧ t.Shows c.position res := by
  obtain ⟨t, ht⟩ := exists_trace_call c.source r hp
  obtain ⟨d, hd, hfollows⟩ := Pattern.eval_of_trace memoizes_rift (.call r) trivial hc ht
  obtain ⟨res, hres, hshows⟩ := reads_rift _ r c.position t hp ht
  exact ⟨t, d, res, hd, hfollows, hres, hshows⟩

/-- Matching a rule on a fresh cursor ends, and shows its outcome by the table. -/
theorem exists_eval_call (source : Array Char) (capacity : Nat) (r : Rule) :
    ∃ t c res, (Pattern.call r).eval (Grammar.rift.run (Grammar.callBound source.size))
        (Cursor.ofChars source capacity) = some (t.matched, c) ∧
      (Cursor.ofChars source capacity).Follows Grammar.rift Grammar.body t c ∧
      Parses table (.call r) source.toList res ∧ t.Shows 0 res :=
  exists_eval_call_from (Cursor.reliable_ofChars source capacity) (Nat.zero_le _) r

/-- The tokens that a cursor records along a trace are those of the trace, as deep as the cursor
was. -/
theorem Cursor.Follows.between_eq {c d : Cursor} {t : Trace} (hc : c.Sound)
    (h : c.Follows Grammar.rift Grammar.body t d) :
    d.log.between c.tokenCount d.tokenCount = t.tokens.map (.deepen c.depth) := by
  have hlive : d.log.toList.take d.tokenCount = c.view.live ++ t.tokens.map (.deepen c.depth) := by
    rw [← Cursor.live_view, h.live_eq]
  rw [Log.between_eq, ← List.drop_take, hlive]
  exact List.drop_left' hc.length_live

/-- The committed tokens of a cursor that followed a trace from a fresh one are the tokens of the
trace. -/
theorem Cursor.Follows.commit_eq {source : Array Char} {capacity : Nat} {t : Trace} {c : Cursor}
    (h : (Cursor.ofChars source capacity).Follows Grammar.rift Grammar.body t c) :
    c.commit.log.toList = t.tokens := by
  have hlive : c.view.live = t.tokens := by
    have hdeepen : Token.deepen (Cursor.ofChars source capacity).depth = id := by
      funext t
      simp [Token.deepen, Cursor.ofChars]
    rw [h.live_eq, hdeepen, Cursor.view_ofChars, List.map_id, List.nil_append]
  rw [← hlive, Cursor.live_view]
  exact Log.toList_trim c.log c.tokenCount

/-- Where the table has a derivation, matching ends with its width and its tokens. -/
theorem exists_eval_of_parses (source : Array Char) {r : Rule} {d : Derivation} {rest : List Char}
    (h : Parses table (.call r) source.toList (some (d, rest))) (capacity : Nat) :
    ∃ c, (Pattern.call r).eval (Grammar.rift.run (Grammar.callBound source.size))
        (Cursor.ofChars source capacity) = some (true, c) ∧
      c.source = source ∧ c.position = d.width ∧ c.commit.log.toList = d.tokens 0 0 := by
  obtain ⟨t, c, res, hc, hfollows, hres, hshows⟩ := exists_eval_call source capacity r
  obtain rfl := hres.unique h
  obtain ⟨hm, hstop, htokens⟩ := hshows
  refine ⟨c, hm ▸ hc, hfollows.source_eq, ?_, ?_⟩
  · rw [hfollows.position_eq, hstop, Nat.zero_add]
  · rw [hfollows.commit_eq, htokens]

/-- Where the table fails, matching ends without a match. -/
theorem exists_eval_of_parses_none (source : Array Char) {r : Rule}
    (h : Parses table (.call r) source.toList none) (capacity : Nat) :
    ∃ c, (Pattern.call r).eval (Grammar.rift.run (Grammar.callBound source.size))
        (Cursor.ofChars source capacity) = some (false, c) := by
  obtain ⟨t, c, res, hc, -, hres, hshows⟩ := exists_eval_call source capacity r
  obtain rfl := hres.unique h
  have hm : t.matched = false := hshows
  exact ⟨c, hm ▸ hc⟩

/-- The table has an outcome for every rule on every text. -/
theorem exists_parses_call (r : Rule) (s : List Char) : ∃ res, Parses table (.call r) s res := by
  obtain ⟨-, -, res, -, -, hres, -⟩ := exists_eval_call s.toArray 0 r
  exact ⟨res, hres⟩

/-- Where an evaluation with calls nested up to the bound ends, a match is that evaluation. -/
theorem tryMatch_of_eval (c : Cursor) {g : Grammar} {pattern : Pattern} {result : Bool × Cursor}
    (h : pattern.eval (g.run (Grammar.callBound c.source.size)) c = some result) :
    c.tryMatch g pattern = result := by
  simp [Cursor.tryMatch, h]

/-! ## Recognising a source -/

/-- A derivation of the whole source ends at its end. -/
theorem rest_eq_nil_of_parses_source {s rest : List Char} {d : Derivation}
    (h : Parses table (.call .source) s (some (d, rest))) : rest = [] := by
  obtain ⟨_, h, -⟩ := parses_call_iff.1 h
  obtain ⟨_, _, _, -, h, -⟩ := parses_seq_iff.1 h
  obtain ⟨_, _, _, -, h, -⟩ := parses_seq_iff.1 h
  obtain ⟨_, _, _, h, hrest, -⟩ := parses_seq_iff.1 h
  obtain ⟨hany, -, rfl⟩ := parses_absent_iff.1 h
  obtain ⟨-, rfl⟩ := parses_empty_iff.1 hrest
  cases hany with
  | one_fail hnone =>
    cases rest with
    | nil => rfl
    | cons c rest => simp at hnone

/-- Recognising is matching the rule for sources from a fresh cursor. -/
theorem recognize_of_tryMatch {config : Config} {source : String} {matched : Bool} {c : Cursor}
    (h : (Cursor.ofString source config.initialTokenCapacity).tryMatch .rift (.call .source)
      = (matched, c)) :
    recognize config source =
      if matched then .ok ⟨c.source, c.commit.log.toList⟩
      else .error (.ofFrontier c.source c.frontier config) := by
  unfold recognize
  simp only [h]
  cases matched <;> rfl

/-- A source is recognised where the table derives all of it, with the tokens of the derivation. -/
theorem recognize_eq_ok_iff {config : Config} {source : String} {r : Recognized} :
    recognize config source = .ok r ↔
      ∃ d, Parses table (.call .source) source.toList (some (d, [])) ∧
        r = ⟨source.toList.toArray, d.tokens 0 0⟩ := by
  obtain ⟨_ | ⟨d, rest⟩, hres⟩ := exists_parses_call .source source.toList
  · obtain ⟨c, hc⟩ := exists_eval_of_parses_none source.toList.toArray hres
      config.initialTokenCapacity
    have hfail := recognize_of_tryMatch (tryMatch_of_eval (Cursor.ofString _ _) hc)
    constructor
    · intro h
      cases hfail.symm.trans h
    · rintro ⟨d, hd, -⟩
      exact absurd (hd.unique hres) (Option.some_ne_none _)
  · obtain rfl := rest_eq_nil_of_parses_source hres
    obtain ⟨c, hc, hsource, -, htokens⟩ := exists_eval_of_parses source.toList.toArray hres
      config.initialTokenCapacity
    have hok := recognize_of_tryMatch (tryMatch_of_eval (Cursor.ofString _ _) hc)
    rw [hsource, htokens] at hok
    rw [hok]
    constructor
    · rintro ⟨⟩
      exact ⟨d, hres, rfl⟩
    · rintro ⟨e, he, rfl⟩
      cases he.unique hres
      rfl

/-- Matching any rule on a fresh cursor ends. It matches where the table does, and then the cursor
stands at the end of the derivation and commits the tokens of the derivation. Recognised are the
texts that the table derives as a whole source. -/
theorem matching_is_meaning_of_table (source : String) :
    (∀ r capacity, ∃ matched c,
      (Pattern.call r).eval (Grammar.rift.run (Grammar.callBound source.length))
        (Cursor.ofString source capacity) = some (matched, c) ∧
      (Cursor.ofString source capacity).tryMatch .rift (.call r) = (matched, c) ∧
      (matched = true ↔ ∃ d rest, Parses table (.call r) source.toList (some (d, rest))) ∧
      (matched = false ↔ Parses table (.call r) source.toList none) ∧
      ∀ d rest, Parses table (.call r) source.toList (some (d, rest)) →
        c.position = d.width ∧ c.commit.log.toList = d.tokens 0 0) ∧
    ∀ config, (∃ r, recognize config source = .ok r) ↔
      ∃ d, Parses table (.call .source) source.toList (some (d, [])) := by
  refine ⟨fun r capacity => ?_, fun config => ?_⟩
  · have hlength : source.length = source.toList.toArray.size := by
      rw [List.size_toArray, String.length_toList]
    rw [hlength]
    obtain ⟨_ | ⟨d, rest⟩, hres⟩ := exists_parses_call r source.toList
    · obtain ⟨c, hc⟩ := exists_eval_of_parses_none source.toList.toArray hres capacity
      have hno : ∀ d rest, ¬ Parses table (.call r) source.toList (some (d, rest)) :=
        fun d rest h => Option.some_ne_none _ (h.unique hres)
      refine ⟨false, c, hc, tryMatch_of_eval _ hc, ?_, by simp [hres], ?_⟩
      · simp [hno]
      · exact fun d rest h => absurd h (hno d rest)
    · obtain ⟨c, hc, -, hposition, htokens⟩ :=
        exists_eval_of_parses source.toList.toArray hres capacity
      refine ⟨true, c, hc, tryMatch_of_eval _ hc, ?_, ?_, fun d' rest' h => ?_⟩
      · simpa using ⟨d, rest, hres⟩
      · simpa using fun h => Option.some_ne_none _ (hres.unique h)
      · cases h.unique hres
        exact ⟨hposition, htokens⟩
  · constructor
    · rintro ⟨r, h⟩
      obtain ⟨d, hd, -⟩ := recognize_eq_ok_iff.1 h
      exact ⟨d, hd⟩
    · rintro ⟨d, hd⟩
      exact ⟨_, recognize_eq_ok_iff.2 ⟨d, hd, rfl⟩⟩

end RiftLang
