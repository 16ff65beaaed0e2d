import RiftLang.Proofs.Recognition

/-!
# Remembering attempts does not show

A pattern comes to the same on a fresh cursor whether the outcomes of its rules are remembered or
tried again.

* `Pattern.forget`, `Grammar.forget` — the same patterns, with nothing remembered.
* `Cursor.Agrees` — two cursors show the same, and their farthest looks have the same frontier.
* `trace_forget` — what a pattern does from an offset does not depend on what is remembered.
  Matching follows traces with and without a memory, so nothing else has to be said about the
  memory.
* `memoisation_is_transparent` — the two ways of matching end together and agree.
-/

namespace RiftLang

/-! ## Patterns without a memory -/

/-- The pattern, with every remembered rule tried anew each time. -/
def Pattern.forget : Pattern → Pattern
  | both first second => both first.forget second.forget
  | either first second => either first.forget second.forget
  | many body => many body.forget
  | absent body => absent body.forget
  | rule r body => rule r body.forget
  | text body => text body.forget
  | memo r body => rule r body.forget
  | succeed => succeed
  | one test => one test
  | action a => action a
  | call r => call r

/-- The grammar, with every remembered rule tried anew each time. -/
def Grammar.forget (g : Grammar) : Grammar :=
  fun r => (g r).forget

/-- A pattern that remembers nothing uses no body for a remembered rule, so none but the right
ones. -/
theorem Pattern.memoizes_forget (bodies : Rule → Pattern) (p : Pattern) :
    p.forget.Memoizes bodies := by
  induction p with
  | both _ _ ih₁ ih₂ | either _ _ ih₁ ih₂ => exact ⟨ih₁, ih₂⟩
  | many _ ih | absent _ ih | rule _ _ ih | text _ ih | memo _ _ ih => exact ih
  | succeed | one _ | action _ | call _ => trivial

/-- A pattern without a memory leaves the trace of the pattern. -/
theorem Pattern.trace_forget (source : Array Char) (callee : Rule → Nat → Option Trace)
    (p : Pattern) :
    p.forget.trace source callee = p.trace source callee := by
  induction p with
  | both _ _ ih₁ ih₂ | either _ _ ih₁ ih₂ =>
      funext k
      simp only [forget, trace, ih₁, ih₂]
  | many _ ih | absent _ ih | rule _ _ ih | text _ ih | memo _ _ ih =>
      funext k
      simp only [forget, trace, ih]
  | succeed | one _ | action _ | call _ => rfl

/-- Traces do not tell whether a rule is remembered: they are what trying it would do. -/
theorem Grammar.trace_forget (g : Grammar) (source : Array Char) (depth : Nat) :
    g.forget.trace source depth = g.trace source depth := by
  induction depth with
  | zero => rfl
  | succ depth ih =>
      funext r p
      show (g r).forget.trace source (g.forget.trace source depth) p = _
      rw [ih, Pattern.trace_forget]
      rfl

/-- A pattern has the same traces with a memory and without. -/
theorem traces_forget_iff {g : Grammar} {source : Array Char} {pattern : Pattern} {p : Nat}
    {t : Trace} :
    Traces g.forget source pattern.forget p t ↔ Traces g source pattern p t := by
  simp only [Traces, Grammar.trace_forget, Pattern.trace_forget]

/-! ## Agreement of cursors -/

namespace Cursor

/-- Two cursors show the same. -/
structure Agrees (c d : Cursor) : Prop where
  /-- They stand at the same offset. -/
  position_eq : c.position = d.position
  /-- They count as many live tokens. -/
  tokenCount_eq : c.tokenCount = d.tokenCount
  /-- They are as deep. -/
  depth_eq : c.depth = d.depth
  /-- The same tokens are live. -/
  liveTokens_eq : c.liveTokens = d.liveTokens
  /-- The same rules are open. -/
  openRules_eq : c.openRules = d.openRules
  /-- They have looked as far. -/
  farthest_eq : c.farthest = d.farthest
  /-- The same path has reached the farthest offset first. -/
  frontier_eq : c.frontier = d.frontier

/-- Cursors with the same view agree. -/
theorem Sound.agrees {c d : Cursor} (hc : c.Sound) (hd : d.Sound) (h : c.view = d.view) :
    c.Agrees d where
  position_eq := congrArg View.position h
  tokenCount_eq := by rw [← hc.length_live, ← hd.length_live, h]
  depth_eq := congrArg View.depth h
  liveTokens_eq := congrArg View.live h
  openRules_eq := congrArg View.openRules h
  farthest_eq := by rw [farthest_eq_view, farthest_eq_view, h]
  frontier_eq := by rw [frontier_eq_view, frontier_eq_view, h]

/-- Cursors that follow one trace from one cursor agree, whatever they remember. -/
theorem Follows.agrees {g g' : Grammar} {bodies bodies' : Rule → Pattern} {t : Trace}
    {c d e : Cursor} (hd : c.Follows g bodies t d) (he : c.Follows g' bodies' t e) : d.Agrees e :=
  hd.reliable.sound.agrees he.reliable.sound (hd.view_eq.trans he.view_eq.symm)

end Cursor

/-! ## Transparency -/

/-- Matching the pattern from the cursor ends with a memory where it ends without one, and in the
same way. -/
structure Transparent (g : Grammar) (pattern : Pattern) (start : Cursor) : Prop where
  /-- One ends if the other does. -/
  ends_iff : (∃ depth result, pattern.eval (g.run depth) start = some result) ↔
    ∃ depth result, pattern.forget.eval (g.forget.run depth) start = some result
  /-- They end alike. -/
  agrees : ∀ m n matched matched' c c', pattern.eval (g.run m) start = some (matched, c) →
    pattern.forget.eval (g.forget.run n) start = some (matched', c') →
    matched = matched' ∧ c.Agrees c'

/-- Matching ends where there is a trace. -/
theorem Pattern.ends_iff_exists_traces {g : Grammar} {bodies : Rule → Pattern}
    (hg : ∀ r, (g r).Memoizes bodies) {pattern : Pattern} (hp : pattern.Memoizes bodies)
    {c : Cursor} (hc : c.Reliable g bodies) :
    (∃ depth result, pattern.eval (g.run depth) c = some result) ↔
      ∃ t, Traces g c.source pattern c.position t := by
  constructor
  · rintro ⟨depth, ⟨matched, c'⟩, h⟩
    obtain ⟨t, ht, -⟩ := pattern.obeys_eval (g.obeys_run hg depth) hp c matched c' hc h
    exact ⟨t, ht⟩
  · rintro ⟨t, depth, ht⟩
    obtain ⟨c', h, -⟩ := Pattern.eval_of_trace hg pattern hp hc ht
    exact ⟨depth, _, h⟩

/-- On a fresh cursor, matching with a memory and matching without follow the same trace, so they
show the same. -/
theorem transparent_ofChars {g : Grammar} {bodies : Rule → Pattern}
    (hg : ∀ r, (g r).Memoizes bodies) {pattern : Pattern} (hp : pattern.Memoizes bodies)
    (source : Array Char) (capacity : Nat) :
    Transparent g pattern (Cursor.ofChars source capacity) := by
  have hc : (Cursor.ofChars source capacity).Reliable g bodies := Cursor.reliable_ofChars _ _
  have hc' : (Cursor.ofChars source capacity).Reliable g.forget bodies :=
    Cursor.reliable_ofChars _ _
  have hg' : ∀ r, (g.forget r).Memoizes bodies := fun r => (g r).memoizes_forget bodies
  have hp' : pattern.forget.Memoizes bodies := pattern.memoizes_forget bodies
  constructor
  · rw [Pattern.ends_iff_exists_traces hg hp hc, Pattern.ends_iff_exists_traces hg' hp' hc']
    simp only [traces_forget_iff]
  · intro m n matched matched' c c' h h'
    obtain ⟨t, ht, rfl, hfollows⟩ := pattern.obeys_eval (g.obeys_run hg m) hp _ _ _ hc h
    obtain ⟨rfl, hfollows'⟩ :=
      (pattern.forget.obeys_eval (g.forget.obeys_run hg' n) hp').eq_of_traces hc'
        (traces_forget_iff.2 ht) h'
    exact ⟨rfl, hfollows.agrees hfollows'⟩

/-- A fresh cursor cannot tell a pattern whose rules are remembered, each with one body, from the
same pattern with its rules tried anew. With and without a memory, every rule of Rift ends, and
alike. -/
theorem memoisation_is_transparent (source : String) (capacity : Nat) :
    (∀ (g : Grammar) (bodies : Rule → Pattern), (∀ r, (g r).Memoizes bodies) →
      ∀ pattern : Pattern, pattern.Memoizes bodies →
        Transparent g pattern (Cursor.ofString source capacity)) ∧
    ∀ r, ∃ matched c c',
      (Pattern.call r).eval (Grammar.rift.run (Grammar.callBound source.length))
        (Cursor.ofString source capacity) = some (matched, c) ∧
      (Pattern.call r).eval (Grammar.rift.forget.run (Grammar.callBound source.length))
        (Cursor.ofString source capacity) = some (matched, c') ∧
      c.Agrees c' := by
  refine ⟨fun g bodies hg pattern hp => transparent_ofChars hg hp _ capacity, fun r => ?_⟩
  have hlength : source.length = source.toList.toArray.size := by
    rw [List.size_toArray, String.length_toList]
  rw [hlength]
  obtain ⟨t, ht⟩ := exists_trace_callBound source.toList.toArray r
  have hforget : ∀ q, (Grammar.rift.forget q).Memoizes Grammar.body :=
    fun q => (Grammar.rift q).memoizes_forget _
  obtain ⟨c, hc, hfollows⟩ := Pattern.eval_of_trace memoizes_rift (.call r) trivial
    (Cursor.reliable_ofChars _ capacity) ht
  rw [← Grammar.trace_forget] at ht
  obtain ⟨c', hc', hfollows'⟩ := Pattern.eval_of_trace hforget (.call r) trivial
    (Cursor.reliable_ofChars _ capacity) ht
  exact ⟨t.matched, c, c', hc, hc', hfollows.agrees hfollows'⟩

end RiftLang
