import RiftLang.Proofs.Cursor.Course
import RiftLang.Proofs.Recognition

/-!
# Matching ends

Matching a rule of Rift on a fresh cursor ends, and where calls may nest deep enough the bound on
them does not show.

The argument runs backwards. What a rule does from an offset depends on nothing else, so a rule that
ends has a least depth of calls that is enough for it, and all that it tries needs less. It cannot
come back to itself at the offset where it was entered, or it would need less than it needs.

* `Grammar.run_mono` — more calls never change an outcome.
* `Pattern.IsSimple` — rules are only called in the pattern, and what is repeated consumes.
* `Ensured` — what holds of all that is tried on the way: it has a trace, and no rule that is open
  has one with calls nested so little.
* `Tries.ensured` — it is kept.
* `Ends.unique` — however deep calls may nest, a pattern ends in one way.
* `matching_terminates` — matching ends; a rule is never tried where an attempt on it is open; and a
  repetition only goes on where it has moved.
-/

namespace RiftLang

/-! ## More calls never change an outcome -/

section mono

variable {f g : Rule → Cursor → Outcome} {c d : Cursor} {matched : Bool} {o : Bool × Cursor}

/-- If a run ends, with a given outcome, wherever another does, then so does its repetition. -/
theorem repeatMatch_mono {run run' : Cursor → Outcome} (h : ∀ c o, run c = some o → run' c = some o)
    {budget : Nat} (ho : repeatMatch run budget c = some o) :
    repeatMatch run' budget c = some o := by
  induction budget generalizing c with
  | zero => exact ho
  | succ budget ih =>
      unfold repeatMatch at ho ⊢
      rcases hrun : run c with _ | ⟨_ | _, d⟩
      · simp [hrun] at ho
      · rw [h c _ hrun]
        simpa [hrun] using ho
      · rw [h c _ hrun]
        simp only [hrun] at ho ⊢
        split at ho
        · next hstop => rw [if_pos hstop]; exact ho
        · next hstop => rw [if_neg hstop]; exact ih ho

/-- The same of captures. -/
theorem captureMatch_mono {run run' : Cursor → Outcome}
    (h : ∀ c o, run c = some o → run' c = some o) {symbol : Symbol}
    (ho : captureMatch symbol run c = some o) : captureMatch symbol run' c = some o := by
  unfold captureMatch at ho ⊢
  rcases hrun : run (c.enter symbol) with _ | ⟨m, d⟩
  · simp [hrun] at ho
  · rw [h _ _ hrun]
    simpa [hrun] using ho

/-- Callees that end more often give the same outcome where there was one. -/
theorem Pattern.eval_mono (h : ∀ r c o, f r c = some o → g r c = some o) (p : Pattern)
    (ho : p.eval f c = some o) : p.eval g c = some o := by
  induction p generalizing c o with
  | succeed | one _ | action _ => exact ho
  | both a b iha ihb =>
      unfold eval at ho ⊢
      rcases ha : a.eval f c with _ | ⟨_ | _, d⟩
      · simp [ha] at ho
      · rw [iha ha]
        simpa [ha] using ho
      · rw [iha ha]
        simp only [ha] at ho
        exact ihb ho
  | either a b iha ihb =>
      unfold eval at ho ⊢
      rcases ha : a.eval f c with _ | ⟨_ | _, d⟩
      · simp [ha] at ho
      · rw [iha ha]
        simp only [ha] at ho ⊢
        rcases hb : b.eval f (d.restore c.checkpoint) with _ | o'
        · simp [hb] at ho
        · rw [ihb hb]
          simpa [hb] using ho
      · rw [iha ha]
        simpa [ha] using ho
  | many body ih => exact repeatMatch_mono (fun _ _ => ih) ho
  | absent body ih =>
      unfold eval at ho ⊢
      rcases hbody : body.eval f c with _ | ⟨m, d⟩
      · simp [hbody] at ho
      · rw [ih hbody]
        simpa [hbody] using ho
  | rule r body ih | text body ih => exact captureMatch_mono (fun _ _ => ih) ho
  | memo r body ih =>
      unfold eval at ho ⊢
      rcases hknown : c.remembered? r with _ | known
      · simp only [hknown] at ho ⊢
        rcases hcapture : captureMatch (.rule r) (body.eval f) c with _ | ⟨m, d⟩
        · simp [hcapture] at ho
        · rw [captureMatch_mono (fun _ _ => ih) hcapture]
          simpa [hcapture] using ho
      · simpa [hknown] using ho
  | call r => exact h r c o ho

/-- More calls never change what a rule of any grammar does. -/
theorem Grammar.run_mono (g : Grammar) {m n : Nat} (hmn : m ≤ n) {r : Rule}
    (h : g.run m r c = some o) :
    g.run n r c = some o := by
  induction m generalizing n r c o with
  | zero => cases h
  | succ m ih =>
      obtain ⟨n, rfl⟩ : ∃ k, n = k + 1 := ⟨n - 1, by omega⟩
      apply (g r).eval_mono (fun r c o h => ih (by omega) h)
      exact h

/-- A pattern ends in one way, however deep calls may nest. -/
theorem Ends.unique {h : Grammar} {p : Pattern} {matched' : Bool} {d' : Cursor}
    (hends : Ends h p c matched d) (hends' : Ends h p c matched' d') :
    matched' = matched ∧ d' = d := by
  obtain ⟨m, hm⟩ := hends
  obtain ⟨n, hn⟩ := hends'
  have hmax := p.eval_mono (fun _ _ _ => h.run_mono (Nat.le_max_left m n)) hm
  have hmax' := p.eval_mono (fun _ _ _ => h.run_mono (Nat.le_max_right m n)) hn
  obtain ⟨rfl, rfl⟩ := Prod.mk.inj (Option.some.inj (hmax'.symm.trans hmax))
  exact ⟨rfl, rfl⟩

end mono

/-! ## Repetitions and their budget -/

section budget

variable {c d : Cursor}

/-- The budget of a repetition does not show once there is one round for every character left. -/
theorem repeatMatch_eq_of_le {run : Cursor → Outcome}
    (hrun : ∀ c d, c.InBounds → run c = some (true, d) → c.Keeps d) (hc : c.InBounds)
    {budget budget' : Nat} (hb : c.source.size + 1 - c.position ≤ budget)
    (hb' : c.source.size + 1 - c.position ≤ budget') :
    repeatMatch run budget c = repeatMatch run budget' c := by
  induction budget generalizing c budget' with
  | zero =>
      have hle := hc.position_le
      omega
  | succ budget ih =>
      have hle := hc.position_le
      obtain ⟨budget', rfl⟩ : ∃ k, budget' = k + 1 := ⟨budget' - 1, by omega⟩
      unfold repeatMatch
      rcases hbody : run c with _ | ⟨_ | _, d⟩
      · rfl
      · rfl
      · by_cases hstop : d.position = c.position
        · simp [hstop, Cursor.checkpoint]
        · -- the round has moved, so one less is needed after it
          have hkeeps := hrun c d hc hbody
          have hmoved : c.position < d.position :=
            Nat.lt_of_le_of_ne hkeeps.position_le (Ne.symm hstop)
          have hsource := congrArg Array.size hkeeps.source_eq
          simp only [hstop, Cursor.checkpoint, if_false]
          apply ih hkeeps.inBounds
          · omega
          · omega

end budget

/-! ## Bodies of rules -/

namespace Pattern

/-- Rules are only called in the pattern, and what it repeats is an expression that consumes. -/
def IsSimple : Pattern → Prop
  | both first second | either first second => first.IsSimple ∧ second.IsSimple
  | many body => (∃ e : Peg, body = e.pattern ∧ e.isProductive = true ∧ e.mayBeEmpty = false) ∧
    body.IsSimple
  | absent body | text body => body.IsSimple
  | rule _ _ | memo _ _ => False
  | succeed | one _ | action _ | call _ => True

/-- Characters in a row are simple. -/
theorem isSimple_all_char (cs : List Char) : (all (cs.map char)).IsSimple := by
  induction cs with
  | nil => trivial
  | cons c cs ih => exact ⟨trivial, ih⟩

/-- A productive expression is simple. -/
theorem isSimple_pattern (e : Peg) (he : e.isProductive = true) : e.pattern.IsSimple := by
  induction e with
  | empty | fail | one _ | action _ | call _ => exact trivial
  | word s => exact ⟨isSimple_all_char s.toList, trivial⟩
  | seq a b iha ihb | choice a b iha ihb =>
      obtain ⟨ha, hb⟩ := Bool.and_eq_true_iff.1 he
      exact ⟨iha ha, ihb hb⟩
  | star body ih =>
      obtain ⟨hne, hbody⟩ := Bool.and_eq_true_iff.1 he
      exact ⟨⟨body, rfl, hbody, by simpa using hne⟩, ih hbody⟩
  | plus body ih =>
      obtain ⟨hne, hbody⟩ := Bool.and_eq_true_iff.1 he
      exact ⟨⟨ih hbody, trivial⟩, ⟨body, rfl, hbody, by simpa using hne⟩, ih hbody⟩
  | absent body ih | text body ih => exact ih he

/-- Every rule of the grammar is made of simple patterns. -/
theorem isSimple_body (r : Rule) : (Grammar.body r).IsSimple := by
  rw [Peg.body_eq_pattern_table]
  exact isSimple_pattern _ (Peg.isProductive_table r)

/-- A simple pattern remembers nothing. -/
theorem IsSimple.memoizes {p : Pattern} (hp : p.IsSimple) (bodies : Rule → Pattern) :
    p.Memoizes bodies := by
  induction p with
  | both _ _ iha ihb | either _ _ iha ihb => exact ⟨iha hp.1, ihb hp.2⟩
  | many _ ih => exact ih hp.2
  | absent _ ih | text _ ih => exact ih hp
  | rule _ _ _ | memo _ _ _ => exact absurd hp id
  | succeed | one _ | action _ | call _ => exact trivial

/-- A simple pattern, or what the grammar says a rule is, where the rule is unending. -/
def IsPart (unending : Rule → Prop) : Pattern → Prop
  | rule r body => Grammar.rift r = rule r body ∧ unending r
  | memo r body => Grammar.rift r = memo r body ∧ unending r
  | p => p.IsSimple

variable {unending : Rule → Prop} {r : Rule} {body : Pattern}

/-- A simple pattern is a part, whatever does not end. -/
theorem IsSimple.isPart {p : Pattern} (hp : p.IsSimple) : p.IsPart unending := by
  cases p with
  | rule _ _ | memo _ _ => exact absurd hp id
  | _ => exact hp

/-- What the grammar says a rule is is a part, where that rule does not end. -/
theorem isPart_rift (h : unending r) : (Grammar.rift r).IsPart unending := by
  have hrule : Grammar.rift r = if r.isMemoized then .memo r (Grammar.body r)
      else .rule r (Grammar.body r) := rfl
  split at hrule
  · rw [hrule]
    exact ⟨hrule, h⟩
  · rw [hrule]
    exact ⟨hrule, h⟩

/-- A rule has one body in the grammar, whether it is remembered or not. -/
theorem body_eq_of_rift_eq (h : Grammar.rift r = .rule r body ∨ Grammar.rift r = .memo r body) :
    body = Grammar.body r := by
  unfold Grammar.rift at h
  by_cases hr : r.isMemoized = true
  · simpa [hr, eq_comm] using h
  · simpa [hr, eq_comm] using h

/-- Parts of the grammar remember rules with their bodies only. -/
theorem IsPart.memoizes {p : Pattern} (hp : p.IsPart unending) : p.Memoizes Grammar.body := by
  cases p with
  | rule r body | memo r body =>
      rw [← hp.1]
      exact memoizes_rift r
  | _ => exact IsSimple.memoizes hp _

end Pattern

/-! ## What is tried on the way -/

/-- A rule that has a trace has one for a least depth of calls. -/
theorem Grammar.exists_least_depth {g : Grammar} {source : Array Char} {m p : Nat}
    {r : Rule} {t : Trace} (h : g.trace source m r p = some t) :
    ∃ k < m, g.trace source k r p = none ∧ g.trace source (k + 1) r p = some t := by
  induction m with
  | zero => cases h
  | succ m ih =>
      rcases hm : g.trace source m r p with _ | u
      · exact ⟨m, Nat.lt_succ_self m, hm, h⟩
      · obtain rfl : u = t := Option.some.inj ((g.trace_mono (Nat.le_succ m) hm).symm.trans h)
        obtain ⟨k, hk, hleast⟩ := ih hm
        exact ⟨k, hk.trans (Nat.lt_succ_self m), hleast⟩

/-- A rule without a trace when calls may nest deep has none when they may nest less deep. -/
theorem Grammar.trace_eq_none {g : Grammar} {source : Array Char} {k m p : Nat} {r : Rule}
    (hkm : k ≤ m) (h : g.trace source m r p = none) : g.trace source k r p = none := by
  rcases hk : g.trace source k r p with _ | t
  · rfl
  · rw [g.trace_mono hkm hk] at h
    cases h

/-- The pattern has a trace from the cursor with calls nested `m` deep. No rule that is open, or
that the pattern is to enter, has one with so little from where it is entered. -/
structure Ensured (source : Array Char) (q : Pattern) (d : Cursor) (m : Nat) : Prop where
  /-- The source is the one of the match. -/
  source_eq : d.source = source
  /-- The cursor stands within source and log. -/
  inBounds : d.InBounds
  /-- What is remembered is what trying again would give. -/
  reliable : d.Reliable Grammar.rift Grammar.body
  /-- The pattern has a trace with calls nested so deep. -/
  exists_trace : ∃ t, q.trace d.source (Grammar.rift.trace d.source m) d.position = some t
  /-- A rule that is open has none with calls nested so deep, from where it was entered. -/
  openRules : ∀ o ∈ d.openRules, o.start ≤ d.position ∧
    Grammar.rift.trace d.source m o.rule o.start = none
  /-- The pattern is a part of the grammar. If it is about to enter a rule, then this rule has none
  either. -/
  isPart : q.IsPart fun r => Grammar.rift.trace d.source m r d.position = none

namespace Ensured

variable {source : Array Char} {a b body : Pattern} {d e : Cursor} {m : Nat} {matched : Bool}

/-- What ends follows the trace that it is known to have. -/
theorem exists_follows (h : Ensured source a d m) (ha : Ends Grammar.rift a d matched e) :
    ∃ t, a.trace d.source (Grammar.rift.trace d.source m) d.position = some t ∧
      matched = t.matched ∧
      d.Follows Grammar.rift Grammar.body t e := by
  obtain ⟨t, ht⟩ := h.exists_trace
  obtain ⟨depth, ha⟩ := ha
  have hobeys : Obeys Grammar.rift Grammar.body a (a.eval (Grammar.rift.run depth)) :=
    a.obeys_eval (Grammar.rift.obeys_run memoizes_rift depth) h.isPart.memoizes
  exact ⟨t, ht, hobeys.eq_of_traces h.reliable ⟨m, ht⟩ ha⟩

/-- A simple pattern is ensured where it has a trace, as long as the same rules are open. -/
theorem of_keeps (h : Ensured source a d m) (hkeeps : d.Keeps e)
    (he : e.Reliable Grammar.rift Grammar.body) (hb : b.IsSimple)
    (ht : ∃ t, b.trace d.source (Grammar.rift.trace d.source m) e.position = some t) :
    Ensured source b e m where
  source_eq := hkeeps.source_eq.trans h.source_eq
  inBounds := hkeeps.inBounds
  reliable := he
  exists_trace := by
    rw [hkeeps.source_eq]
    exact ht
  openRules o ho := by
    rw [hkeeps.openRules_eq] at ho
    rw [hkeeps.source_eq]
    obtain ⟨hstart, hnone⟩ := h.openRules o ho
    exact ⟨hstart.trans hkeeps.position_le, hnone⟩
  isPart := hb.isPart

/-- A simple part with a trace of its own is ensured where the whole is. -/
theorem of_self (h : Ensured source a d m) (hb : b.IsSimple)
    (ht : ∃ t, b.trace d.source (Grammar.rift.trace d.source m) d.position = some t) :
    Ensured source b d m :=
  h.of_keeps h.inBounds.keeps_self h.reliable hb ht

/-- The same of a part whose trace is continued to that of the whole. -/
theorem of_bind (h : Ensured source a d m) (hb : b.IsSimple) {f : Trace → Option Trace} {t : Trace}
    (ht : (b.trace d.source (Grammar.rift.trace d.source m) d.position).bind f = some t) :
    Ensured source b d m := by
  obtain ⟨u, hu, -⟩ := Option.bind_eq_some_iff.1 ht
  exact h.of_self hb ⟨u, hu⟩

/-- The same of a part whose trace is changed to that of the whole. -/
theorem of_map (h : Ensured source a d m) (hb : b.IsSimple) {f : Trace → Trace} {t : Trace}
    (ht : (b.trace d.source (Grammar.rift.trace d.source m) d.position).map f = some t) :
    Ensured source b d m := by
  obtain ⟨u, hu, -⟩ := Option.map_eq_some_iff.1 ht
  exact h.of_self hb ⟨u, hu⟩

/-- The body of a rule is ensured once the rule is entered. -/
theorem enter_rule {r : Rule} (h : Ensured source body d m)
    (hr : Grammar.rift.trace d.source m r d.position = none) :
    Ensured source body (d.enter (.rule r)) m where
  source_eq := h.source_eq
  inBounds := h.inBounds.enter _
  reliable := h.reliable.enter _
  exists_trace := h.exists_trace
  openRules o ho := by
    rcases List.mem_cons.1 ho with rfl | ho
    · exact ⟨Nat.le_refl _, hr⟩
    · exact h.openRules o ho
  isPart := h.isPart

/-- Entering a captured text opens no rule, so the body is ensured as the whole was. -/
theorem enter_text (h : Ensured source body d m) : Ensured source body (d.enter .text) m :=
  ⟨h.source_eq, h.inBounds.enter _, h.reliable.enter _, h.exists_trace, h.openRules, h.isPart⟩

/-- What comes after a part is what the part's trace leads to. -/
theorem exists_of_bind (h : Ensured source a d m) {f : Trace → Option Trace} {t : Trace}
    (ht : (a.trace d.source (Grammar.rift.trace d.source m) d.position).bind f = some t)
    (ha : Ends Grammar.rift a d matched e) :
    ∃ u, matched = u.matched ∧ d.Follows Grammar.rift Grammar.body u e ∧ f u = some t := by
  obtain ⟨u, hu, ht⟩ := Option.bind_eq_some_iff.1 ht
  obtain ⟨u', hu', hmatched, hfollows⟩ := h.exists_follows ha
  obtain rfl : u = u' := Option.some.inj (hu.symm.trans hu')
  exact ⟨u, hmatched, hfollows, ht⟩

/-- A rule that is called is ensured with fewer calls, and it has no trace with those. -/
theorem exists_call {r : Rule} (h : Ensured source (.call r) d m) :
    ∃ k, Ensured source (Grammar.rift r) d k := by
  obtain ⟨t, ht⟩ := h.exists_trace
  obtain ⟨k, hk, hnone, hsome⟩ := Grammar.exists_least_depth ht
  refine ⟨k, h.source_eq, h.inBounds, h.reliable, ⟨t, hsome⟩, fun o ho => ?_,
    Pattern.isPart_rift hnone⟩
  obtain ⟨hstart, ho⟩ := h.openRules o ho
  exact ⟨hstart, Grammar.trace_eq_none hk.le ho⟩

/-- After any number of rounds there is a trace of the rounds to come, and a budget for it. -/
theorem exists_repeatTrace (h : Ensured source (.many body) d m)
    (hrounds : Rounds Grammar.rift body d e) :
    d.Keeps e ∧ e.Reliable Grammar.rift Grammar.body ∧
    ∃ budget t, d.source.size < budget + e.position ∧
      repeatTrace (body.trace d.source (Grammar.rift.trace d.source m)) budget e.position =
        some t := by
  have hbody : body.IsSimple := h.isPart.2
  induction hrounds with
  | start =>
      obtain ⟨t, ht⟩ := h.exists_trace
      refine ⟨h.inBounds.keeps_self, h.reliable, d.source.size + 1 - d.position, t, ?_, ht⟩
      omega
  | @next e e' hrounds hend hmoved ih =>
      obtain ⟨hkeeps, he, budget, t, hbudget, ht⟩ := ih
      have hle : e.position ≤ d.source.size := hkeeps.source_eq ▸ hkeeps.inBounds.position_le
      obtain ⟨budget, rfl⟩ : ∃ k, budget = k + 1 := ⟨budget - 1, by omega⟩
      rw [← hkeeps.source_eq] at ht
      obtain ⟨u, hu, -⟩ := Option.bind_eq_some_iff.1 ht
      have hround : Ensured source body e m := h.of_keeps hkeeps he hbody ⟨u, hkeeps.source_eq ▸ hu⟩
      obtain ⟨u, hmatched, hfollows, ht⟩ := hround.exists_of_bind ht hend
      -- the round has matched and moved, so the rest of the trace is that of the rounds after it
      rw [if_pos hmatched.symm, if_neg (hfollows.position_eq ▸ hmoved)] at ht
      obtain ⟨w, hw, -⟩ := Option.map_eq_some_iff.1 ht
      have hkeeps' := hend.keeps hkeeps.inBounds
      have hlt : e.position < e'.position := Nat.lt_of_le_of_ne hkeeps'.position_le (Ne.symm hmoved)
      rw [← hfollows.position_eq, hkeeps.source_eq] at hw
      refine ⟨hkeeps.trans hkeeps', hfollows.reliable, budget, w, ?_, hw⟩
      omega

end Ensured

/-- All that is tried on the way is ensured. -/
theorem Tries.ensured {source : Array Char} {p q : Pattern} {c d : Cursor}
    {captures : List OpenCapture} (h : Tries Grammar.rift p c captures q d) {n : Nat}
    (hc : Ensured source p c n) : ∃ m, Ensured source q d m := by
  induction h with
  | self => exact ⟨n, hc⟩
  | first _ ih | preferred _ ih =>
      obtain ⟨m, hd⟩ := ih
      obtain ⟨t, ht⟩ := hd.exists_trace
      exact ⟨m, hd.of_bind hd.isPart.1 ht⟩
  | second _ ha ih =>
      obtain ⟨m, hd⟩ := ih
      obtain ⟨t, ht⟩ := hd.exists_trace
      obtain ⟨u, hmatched, hfollows, ht⟩ := (hd.of_bind hd.isPart.1 ht).exists_of_bind ht ha
      rw [if_pos hmatched.symm] at ht
      obtain ⟨w, hw, -⟩ := Option.map_eq_some_iff.1 ht
      rw [← hfollows.position_eq] at hw
      exact ⟨m, hd.of_keeps (ha.keeps hd.inBounds) hfollows.reliable hd.isPart.2 ⟨w, hw⟩⟩
  | otherwise _ ha ih =>
      obtain ⟨m, hd⟩ := ih
      obtain ⟨t, ht⟩ := hd.exists_trace
      obtain ⟨u, hmatched, hfollows, ht⟩ := (hd.of_bind hd.isPart.1 ht).exists_of_bind ht ha
      rw [← hmatched] at ht
      obtain ⟨w, hw, -⟩ := Option.map_eq_some_iff.1 ht
      have hback := (ha.keeps hd.inBounds).restore hd.inBounds
      exact ⟨m, hd.of_keeps hback (hfollows.restore hd.reliable.sound).reliable hd.isPart.2 ⟨w, hw⟩⟩
  | round _ hrounds ih =>
      obtain ⟨m, hd⟩ := ih
      obtain ⟨hkeeps, he, budget, t, hbudget, ht⟩ := hd.exists_repeatTrace hrounds
      have hle := hkeeps.source_eq ▸ hkeeps.inBounds.position_le
      obtain ⟨budget, rfl⟩ : ∃ k, budget = k + 1 := ⟨budget - 1, by omega⟩
      obtain ⟨u, hu, -⟩ := Option.bind_eq_some_iff.1 ht
      exact ⟨m, hd.of_keeps hkeeps he hd.isPart.2 ⟨u, hu⟩⟩
  | absent _ ih =>
      obtain ⟨m, hd⟩ := ih
      obtain ⟨t, ht⟩ := hd.exists_trace
      exact ⟨m, hd.of_map hd.isPart ht⟩
  | @text _ body _ _ ih =>
      obtain ⟨m, hd⟩ := ih
      obtain ⟨t, ht⟩ := hd.exists_trace
      have hbody : body.IsSimple := hd.isPart
      exact ⟨m, (hd.of_map hbody ht).enter_text⟩
  | rule _ ih =>
      obtain ⟨m, hd⟩ := ih
      obtain ⟨t, ht⟩ := hd.exists_trace
      obtain ⟨hrule, hnone⟩ := hd.isPart
      obtain rfl := Pattern.body_eq_of_rift_eq (.inl hrule)
      exact ⟨m, (hd.of_map (Pattern.isSimple_body _) ht).enter_rule hnone⟩
  | memo _ _ ih =>
      obtain ⟨m, hd⟩ := ih
      obtain ⟨t, ht⟩ := hd.exists_trace
      obtain ⟨hrule, hnone⟩ := hd.isPart
      obtain rfl := Pattern.body_eq_of_rift_eq (.inr hrule)
      exact ⟨m, (hd.of_map (Pattern.isSimple_body _) ht).enter_rule hnone⟩
  | call _ ih =>
      obtain ⟨m, hd⟩ := ih
      exact hd.exists_call

/-! ## Rules on a fresh cursor -/

section fresh

variable {source : String} {capacity : Nat} {captures : List OpenCapture} {r q : Rule}
  {body : Pattern}
  {d e e' : Cursor}

/-- On a fresh cursor every rule of the grammar is ensured: it has a trace, for some depth of calls,
and no rule is open. -/
theorem exists_ensured (source : String) (capacity : Nat) (r : Rule) :
    ∃ n, Ensured source.toList.toArray (.call r) (.ofString source capacity) n := by
  obtain ⟨t, ht⟩ := exists_trace_callBound source.toList.toArray r
  refine ⟨_, rfl, Cursor.inBounds_ofChars _ _, Cursor.reliable_ofChars _ _, ⟨t, ht⟩, ?_, trivial⟩
  intro o ho
  cases ho

/-- A rule is only called farther on than where an attempt on it is open. -/
theorem Tries.start_lt (h : Tries Grammar.rift (.call r)
    (.ofString source capacity) captures (.call q) d)
    {o : OpenRule} (ho : o ∈ d.openRules) (hq : o.rule = q) : o.start < d.position := by
  obtain ⟨n, hc⟩ := exists_ensured source capacity r
  obtain ⟨m, hd⟩ := h.ensured hc
  obtain ⟨t, ht⟩ := hd.exists_trace
  obtain ⟨hle, hnone⟩ := hd.openRules o ho
  have hne : o.start ≠ d.position := by
    intro hstart
    rw [hq, hstart] at hnone
    exact Option.some_ne_none t (ht.symm.trans hnone)
  exact Nat.lt_of_le_of_ne hle hne

/-- A round of a repetition that matches has moved. -/
theorem Tries.position_lt (h : Tries Grammar.rift (.call r)
    (.ofString source capacity) captures (.many body) d)
    (hrounds : Rounds Grammar.rift body d e) (hround : Ends Grammar.rift body e true e') :
    e.position < e'.position := by
  obtain ⟨n, hc⟩ := exists_ensured source capacity r
  obtain ⟨m, hd⟩ := h.ensured hc
  obtain ⟨k, he⟩ := (h.round hrounds).ensured hc
  obtain ⟨⟨x, rfl, hproductive, hne⟩, -⟩ := hd.isPart
  obtain ⟨t, ht, hmatched, hfollows⟩ := he.exists_follows hround
  obtain ⟨res, hres, hshows⟩ := x.reads (reads_rift k) hproductive _ t he.inBounds.position_le ht
  rcases res with _ | ⟨w, rest⟩
  · have hfailed : t.matched = false := hshows
    rw [hfailed] at hmatched
    cases hmatched
  · obtain ⟨-, hstop, -⟩ := hshows
    have hwidth := Peg.width_pos_of_parses hres hne
    rw [hfollows.position_eq, hstop]
    omega

/-- A repetition does the same with any budget that is as large as what is left of the source. -/
theorem Tries.repeatMatch_eq (h : Tries Grammar.rift (.call r)
    (.ofString source capacity) captures (.many body) d)
    (n : Nat) {budget : Nat} (hbudget : source.length + 1 - d.position ≤ budget) :
    repeatMatch (body.eval (Grammar.rift.run n)) budget d =
      (Pattern.many body).eval (Grammar.rift.run n) d := by
  obtain ⟨n₀, hc⟩ := exists_ensured source capacity r
  obtain ⟨m, hd⟩ := h.ensured hc
  have hsize : d.source.size = source.length := by
    rw [hd.source_eq, List.size_toArray, String.length_toList]
  have hround : ∀ c d, c.InBounds → body.eval (Grammar.rift.run n) c = some (true, d) → c.Keeps d :=
    fun c d hc hround => Ends.keeps ⟨n, hround⟩ hc
  rw [← hsize] at hbudget
  exact repeatMatch_eq_of_le hround hd.inBounds hbudget (Nat.le_refl _)

/-- Matching a rule on a fresh cursor ends: a bound on how deep calls may nest that depends on the
length of the source alone is enough, and a larger one changes nothing. In the course of it no rule
is called at an offset where a match of the same rule is open, and a repetition only goes on from
where a round has moved, so the budget of a repetition never stops it. -/
theorem matching_terminates (source : String) (capacity : Nat) (r : Rule) :
    (∃ outcome, ∀ n, Grammar.callBound source.length ≤ n →
      Grammar.rift.run n r (.ofString source capacity) = some outcome) ∧
    (∀ m n outcome, m ≤ n → Grammar.rift.run m r (.ofString source capacity) = some outcome →
      Grammar.rift.run n r (.ofString source capacity) = some outcome) ∧
    (∀ captures q d, Tries Grammar.rift (.call r) (.ofString source capacity) captures (.call q) d →
      ∀ o ∈ d.openRules, o.rule = q → o.start < d.position) ∧
    ∀ captures body d, Tries Grammar.rift (.call r)
      (.ofString source capacity) captures (.many body) d →
      (∀ e e', Rounds Grammar.rift body d e → Ends Grammar.rift body e true e' →
        e.position < e'.position) ∧
      ∀ n budget, source.length + 1 - d.position ≤ budget →
        repeatMatch (body.eval (Grammar.rift.run n)) budget d =
          (Pattern.many body).eval (Grammar.rift.run n) d := by
  refine ⟨?_, ?_, ?_, ?_⟩
  · obtain ⟨t, c, -, hrun, -⟩ := exists_eval_call source.toList.toArray capacity r
    rw [List.size_toArray, String.length_toList] at hrun
    exact ⟨_, fun n hn => Grammar.rift.run_mono hn hrun⟩
  · intro m n outcome hmn h
    exact Grammar.rift.run_mono hmn h
  · intro captures q d h o ho hq
    exact h.start_lt ho hq
  · intro captures body d h
    exact ⟨fun e e' hrounds hround => h.position_lt hrounds hround,
      fun n budget => h.repeatMatch_eq n⟩

end fresh

end RiftLang
