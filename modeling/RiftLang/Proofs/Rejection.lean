import RiftLang.Proofs.Cursor.Path
import RiftLang.Proofs.Farthest
import RiftLang.Proofs.Trace.Width

/-!
# Rejected sources

A source that is rejected is reported from the path to the first of the farthest looks that matching
it took. What is known of that path is put together here.

* `exists_run_of_traces` — recognising a source is settled by the trace of the rule for sources.
* `AlwaysLooks` — a pattern that begins with a look takes one. The rule for sources begins with
  blanks, so every run of it has a farthest look.
* `Sight.IsSourcePath` — how rules and tokens of a look lie: rules are open from the source down,
  tokens were recorded before or inside each of them, and those of rules that are not trivia span
  text.
* `Rejection` — a rejected source with its trace, its sights and the first of the farthest, and
  `exists_rejection`.
-/

namespace RiftLang

/-! ## Runs and traces -/

/-- Matching the rule for sources follows its trace, and so does recognising. -/
theorem exists_run_of_traces (config : Config) {source : String} {t : Trace}
    (ht : Traces .rift source.toList.toArray (.call .source) 0 t) :
    ∃ c, (Pattern.call .source).eval (Grammar.rift.run (Grammar.callBound source.length))
        (.ofString source config.initialTokenCapacity) = some (t.matched, c) ∧
      (Cursor.ofString source config.initialTokenCapacity).tryMatch .rift (.call .source) =
        (t.matched, c) ∧
      c.view.frontier = (View.follow ⟨0, 0, [], [], none⟩ t).frontier ∧
      recognize config source =
        if t.matched then .ok ⟨source.toList.toArray, t.tokens⟩
        else .error (.ofFrontier source.toList.toArray t.frontier config) := by
  have hlength : source.length = source.toList.toArray.size := by
    rw [List.size_toArray, String.length_toList]
  obtain ⟨u, hu⟩ := exists_trace_callBound source.toList.toArray .source
  obtain rfl : u = t := Traces.unique ⟨_, hu⟩ ht
  obtain ⟨c, hc, hfollows⟩ := Pattern.eval_of_trace memoizes_rift (.call .source) trivial
    (Cursor.reliable_ofChars source.toList.toArray config.initialTokenCapacity) hu
  have hview : c.view.frontier = (View.follow ⟨0, 0, [], [], none⟩ u).frontier := by
    rw [hfollows.view_eq, Cursor.view_ofChars]
  have hfrontier : c.frontier = u.frontier := by
    rw [Cursor.frontier_eq_view, hview]
    rfl
  have hsource : c.source = source.toList.toArray := hfollows.source_eq
  have htry : (Cursor.ofString source config.initialTokenCapacity).tryMatch .rift (.call .source) =
      (u.matched, c) :=
    tryMatch_of_eval _ hc
  refine ⟨c, hlength ▸ hc, htry, hview, ?_⟩
  rw [recognize_of_tryMatch htry, hfollows.commit_eq, hfrontier, hsource]

/-! ## There is a look -/

/-- Every trace from this offset takes a look. -/
def AlwaysLooks (f : Nat → Option Trace) (p : Nat) : Prop :=
  ∀ t, f p = some t → t.looks ≠ []

section looks

variable {source : Array Char} {callee : Rule → Nat → Option Trace}
  {first second body : Pattern} {p : Nat}

/-- Reading a character takes a look, whether it passes or not. -/
theorem alwaysLooks_one (test : Char → Bool) :
    AlwaysLooks ((Pattern.one test).trace source callee) p := by
  intro t h
  cases h
  exact List.cons_ne_nil _ _

/-- A capture takes the looks of its body. -/
theorem AlwaysLooks.inside {f : Nat → Option Trace} (hf : AlwaysLooks f p) (symbol : Symbol) :
    AlwaysLooks (fun p => (f p).map (.inside symbol p)) p := by
  intro t h
  obtain ⟨u, hu, rfl⟩ := Option.map_eq_some_iff.1 h
  exact mt List.map_eq_nil_iff.1 (hf u hu)

/-- Two patterns in a row take a look, if the first does. -/
theorem AlwaysLooks.both (hfirst : AlwaysLooks (first.trace source callee) p) :
    AlwaysLooks ((Pattern.both first second).trace source callee) p := by
  intro t h
  obtain ⟨u, hu, h⟩ := Option.bind_eq_some_iff.1 h
  split_ifs at h
  · obtain ⟨w, -, rfl⟩ := Option.map_eq_some_iff.1 h
    exact List.append_ne_nil_of_left_ne_nil (hfirst u hu) _
  · exact Option.some.inj h ▸ hfirst u hu

/-- A choice takes a look, if its first branch does. -/
theorem AlwaysLooks.either (hfirst : AlwaysLooks (first.trace source callee) p) :
    AlwaysLooks ((Pattern.either first second).trace source callee) p := by
  intro t h
  obtain ⟨u, hu, h⟩ := Option.bind_eq_some_iff.1 h
  split_ifs at h
  · exact Option.some.inj h ▸ hfirst u hu
  · obtain ⟨w, -, rfl⟩ := Option.map_eq_some_iff.1 h
    exact List.append_ne_nil_of_left_ne_nil (hfirst u hu) _

/-- A repetition takes a look, if its body does: from within the source there is always a first
round to try. -/
theorem AlwaysLooks.many (hbody : AlwaysLooks (body.trace source callee) p) (hp : p ≤ source.size) :
    AlwaysLooks ((Pattern.many body).trace source callee) p := by
  intro t h
  obtain ⟨budget, hbudget⟩ : ∃ budget, source.size + 1 - p = budget + 1 :=
    ⟨source.size - p, by omega⟩
  unfold Pattern.trace at h
  rw [hbudget] at h
  obtain ⟨u, hu, h⟩ := Option.bind_eq_some_iff.1 h
  split_ifs at h
  · exact Option.some.inj h ▸ hbody u hu
  · obtain ⟨w, -, rfl⟩ := Option.map_eq_some_iff.1 h
    exact List.append_ne_nil_of_left_ne_nil (hbody u hu) _
  · rw [← Option.some.inj h]
    exact hbody u hu

/-- A rule looks if its expression does. -/
theorem alwaysLooks_rift {r : Rule}
    (h : ∀ depth, AlwaysLooks ((Peg.table r).pattern.trace source (Grammar.rift.trace source depth))
      p) (depth : Nat) :
    AlwaysLooks (Grammar.rift.trace source depth r) p := by
  cases depth with
  | zero =>
      intro t h
      cases h
  | succ depth =>
      intro t ht
      replace ht : (Grammar.rift r).trace source (Grammar.rift.trace source depth) p = some t := ht
      rw [trace_rift] at ht
      exact (h depth).inside (.rule r) t ht

/-- The rule for sources first looks for a blank. -/
theorem alwaysLooks_source (depth : Nat) :
    AlwaysLooks (Grammar.rift.trace source depth .source) 0 := by
  have hblank : ∀ depth,
      AlwaysLooks ((Pattern.call .blank).trace source (Grammar.rift.trace source depth)) 0 :=
    alwaysLooks_rift fun depth => alwaysLooks_one _
  have hspace : ∀ depth,
      AlwaysLooks ((Pattern.call .space).trace source (Grammar.rift.trace source depth)) 0 :=
    alwaysLooks_rift fun depth => (hblank depth).either.many (Nat.zero_le _)
  exact alwaysLooks_rift (fun depth => (hspace depth).both) depth

end looks

/-! ## The path to the farthest look -/

/-- How rules and tokens lie on the path to a look, in a source of this length. -/
structure Sight.IsSourcePath (s : Sight) (length : Nat) : Prop where
  /-- The look is at the end of the source or before. -/
  offset_le : s.offset ≤ length
  /-- The outermost rule is the one for sources. -/
  head_eq : s.openRules.head? = some ⟨.source, 0, 0⟩
  /-- Open rules begin one after the other, each deeper than the one before. -/
  nested : s.openRules.Pairwise fun o o' => o.start ≤ o'.start ∧ o.depth < o'.depth
  /-- None of them begins past the look. -/
  start_le : ∀ o ∈ s.openRules, o.start ≤ s.offset
  /-- Neither does a token, and none ends past it. -/
  spans : ∀ t ∈ s.tokens, t.start ≤ t.stop ∧ t.stop ≤ s.offset
  /-- Every token was recorded before or inside an open rule. -/
  entered : List.Forall₂ (fun o n => o.Divides s.tokens n) s.openRules s.entries
  /-- Tokens of rules that are not trivia span text. -/
  wide : ∀ t ∈ s.tokens, t.IsWide

/-- What is seen from a fresh cursor lies so, as long as the rule for sources is entered first. -/
theorem Cursor.Sees.isSourcePath {source : String} {capacity : Nat} {s : Sight}
    {opened : List OpenRule} {recorded : List Token}
    (h : (Cursor.ofString source capacity).Sees s opened recorded)
    (hhead : s.openRules.head? = some ⟨.source, 0, 0⟩) (hwide : ∀ t ∈ s.tokens, t.IsWide) :
    s.IsSourcePath source.length := by
  have hopened : s.openRules = opened := h.openRules_eq
  have hrecorded : s.tokens = recorded := by
    rw [h.tokens_eq, Cursor.ofString, Cursor.view_ofChars, List.nil_append]
  have hsize : (Cursor.ofString source capacity).source.size = source.length := by
    rw [← String.length_toList]
    rfl
  subst hopened hrecorded
  refine ⟨hsize ▸ h.offset_le, hhead, h.nested, fun o ho => (h.bounds_of_opened o ho).2.1,
    fun t ht => ?_, ?_, hwide⟩
  · obtain ⟨-, hspan, hstop, -⟩ := h.bounds_of_recorded t ht
    exact ⟨hspan, hstop⟩
  · refine h.entered.imp ?_
    rintro o n ⟨k, rfl, hdivides⟩
    have hzero : (Cursor.ofString source capacity).tokenCount + k = k := Nat.zero_add k
    rw [hzero]
    exact hdivides

/-- Every sight of a capture shows its rule open. -/
theorem head?_openRules_of_captureWatch {r : Rule} {p : Pattern} {g : Grammar} {depth : Nat}
    {c d : Cursor} {sights : List Sight} {matched : Bool} (hc : c.InBounds) (hsteady : c.Steady)
    (hopen : c.openRules = [])
    (h : captureWatch (.rule r) (p.watch (g.watch depth)) c = some (sights, matched, d)) :
    ∀ s ∈ sights, s.openRules.head? = some ⟨r, c.position, c.depth⟩ := by
  unfold captureWatch at h
  rcases hbody : p.watch (g.watch depth) (c.enter (.rule r)) with _ | ⟨inner, m, e⟩
  · simp [hbody] at h
  · simp only [hbody, Option.some.injEq, Prod.mk.injEq] at h
    obtain ⟨rfl, -⟩ := h
    have hmoves := p.moves_watch (g.moves_watch depth) _ _ _ _ hbody
    refine List.forall_mem_map.2 fun s hs => ?_
    obtain ⟨opened, recorded, hsees⟩ :=
      hmoves.sees (hc.enter (.rule r)) (hsteady.enter (.rule r)) s hs
    have hopenRules : s.openRules = (⟨r, c.position, c.depth⟩ :: c.openRules).reverse ++ opened :=
      hsees.openRules_eq
    rw [hopen] at hopenRules
    show s.openRules.head? = _
    rw [hopenRules]
    rfl

/-! ## Rejections -/

/-- A source is rejected: its trace fails, and the error reports the first of the farthest
sights. -/
structure Rejection (config : Config) (source : String) (e : SyntaxError) (t : Trace)
    (sights : List Sight) (c : Cursor) (first : Sight) : Prop where
  /-- What matching the source does. -/
  traces : Traces .rift source.toList.toArray (.call .source) 0 t
  /-- It fails. -/
  matched_eq : t.matched = false
  /-- The match on a fresh cursor leaves the cursor `c`. -/
  tryMatch_eq : (Cursor.ofString source config.initialTokenCapacity).tryMatch .rift
    (.call .source) = (false, c)
  /-- On the way it takes these sights. -/
  watch_eq : (Pattern.call .source).watch (Grammar.rift.watch (Grammar.callBound source.length))
    (.ofString source config.initialTokenCapacity) = some (sights, false, c)
  /-- This one is the first of the farthest. -/
  firstFarthest : IsFirstFarthest sights first
  /-- It shows the frontier of the trace. -/
  frontier_eq : first.toFrontier = t.frontier
  /-- It is on a path of the grammar. -/
  path : first.IsSourcePath source.length
  /-- The error reports what it shows. -/
  error_eq : e = .ofFrontier source.toList.toArray first.toFrontier config

/-- What is computed of the error holds of the error. -/
theorem exists_error_of_check {config : Config} {source : String} {check : SyntaxError → Bool}
    (h : (match recognize config source with | .error e => check e | .ok _ => false) = true) :
    ∃ e, recognize config source = .error e ∧ check e = true := by
  rcases hr : recognize config source with e | r
  · rw [hr] at h
    exact ⟨e, rfl, h⟩
  · simp [hr] at h

/-- A source that is not recognised has a rejection: a trace that fails, and the first of its
farthest sights. -/
theorem exists_rejection {config : Config} {source : String} {e : SyntaxError}
    (h : recognize config source = .error e) :
    ∃ t sights c first, Rejection config source e t sights c first := by
  obtain ⟨t, ht⟩ := exists_trace_callBound source.toList.toArray .source
  have htraces : Traces .rift source.toList.toArray (.call .source) 0 t := ⟨_, ht⟩
  obtain ⟨c, hc, htry, hview, hrecognize⟩ := exists_run_of_traces config htraces
  rw [h] at hrecognize
  rcases hm : t.matched with _ | _
  · have herror : e = .ofFrontier source.toList.toArray t.frontier config :=
      by simpa [hm] using hrecognize
    -- the same run, with its sights
    rw [hm] at htry
    rw [hm, ← Pattern.map_watch (Grammar.rift.map_watch _)] at hc
    obtain ⟨⟨sights, _⟩, hwatch, rfl⟩ := Option.map_eq_some_iff.1 hc
    have hbounds : (Cursor.ofString source config.initialTokenCapacity).InBounds :=
      Cursor.inBounds_ofChars _ _
    have hsteady : (Cursor.ofString source config.initialTokenCapacity).Steady :=
      Cursor.steady_ofChars _ _
    have hmoves := Pattern.moves_watch (Grammar.rift.moves_watch _) _ _ _ _ _ hwatch
    -- there is a look, so one of the sights is the first of the farthest
    have hfold := hmoves.frontier_eq hbounds
    rw [hview, Cursor.ofString, Cursor.view_ofChars] at hfold
    obtain ⟨l, hl⟩ := List.exists_mem_of_ne_nil _ (alwaysLooks_source _ t ht)
    obtain ⟨f, hf, -⟩ :
        Frontier.HasReached (View.follow ⟨0, 0, [], [], none⟩ t).frontier l.offset :=
      View.hasReached_foldl_note_of_mem _ hl
    have hne : sights ≠ [] := by
      rintro rfl
      cases hf.symm.trans hfold
    obtain ⟨first, hfirst, hfoldl⟩ := exists_firstFarthest hne
    have hfrontier : first.toFrontier = t.frontier := by
      unfold Trace.frontier
      rw [hfold, hfoldl]
      rfl
    have hmem : first ∈ sights := by
      obtain ⟨before, after, rfl, -, -⟩ := hfirst
      exact List.mem_append_right _ List.mem_cons_self
    obtain ⟨opened, recorded, hsees⟩ := hmoves.sees hbounds hsteady first hmem
    have hhead :=
      head?_openRules_of_captureWatch (r := .source) hbounds hsteady rfl hwatch first hmem
    have hwide : ∀ x ∈ first.tokens, x.IsWide := by
      obtain ⟨-, hwide⟩ := leavesWide_rift _ .source 0 t (Nat.zero_le _) ht
      rw [hfrontier]
      exact hwide.frontier
    exact ⟨t, sights, _, first, htraces, hm, htry, hwatch, hfirst, hfrontier,
      hsees.isSourcePath hhead hwide, hfrontier ▸ herror⟩
  · simp [hm] at hrecognize

end RiftLang
