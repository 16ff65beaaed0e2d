import RiftLang.Proofs.Cursor.Outcome
import RiftLang.Proofs.Trace

/-!
# Matching follows traces

A cursor that matches a pattern does what the trace of the pattern says, also where it repeats a
remembered attempt without looking at the source again.

* `Pattern.Memoizes` — every remembered rule of a pattern is used with the same body.
* `Cursor.Reliable` — the invariant of matching: what is remembered is what trying again would give,
  and all offsets that trying again would look at lie behind the frontier.
* `Cursor.Follows` — a cursor becomes another along a trace.
* `Obeys` — a run follows traces. `Pattern.obeys_eval` — evaluating a pattern does, form by form
  (`Obeys.both`, `Obeys.either`, `Obeys.memo`, …).
* `trace_of_eval`, `eval_of_trace` — a match that ends follows the trace of its pattern, and where
  there is a trace the match ends.
-/

namespace RiftLang

namespace Pattern

/-- Every remembered rule is used with the body that `bodies` gives it. -/
def Memoizes (bodies : Rule → Pattern) : Pattern → Prop
  | both first second | either first second => first.Memoizes bodies ∧ second.Memoizes bodies
  | many body | absent body | rule _ body | text body => body.Memoizes bodies
  | memo r body => body = bodies r ∧ body.Memoizes bodies
  | succeed | one _ | action _ | call _ => True

end Pattern

namespace Cursor

variable (g : Grammar) (bodies : Rule → Pattern)

/-- Whatever is remembered is what trying again would give, without a look past the frontier. -/
structure Reliable (c : Cursor) : Prop where
  /-- Live tokens and frontier refer to slots that were written. -/
  sound : c.Sound
  /-- Remembered attempts tell the truth. -/
  recalls : ∀ r k memo, (c.memos.getD k []).lookup r = some memo →
    ∃ t, Traces g c.source (.rule r (bodies r)) k t ∧ memo = t.memo ∧
      ∀ l ∈ t.looks, Frontier.HasReached c.view.frontier l.offset

/-- The first cursor becomes the second along a trace. -/
structure Follows (c : Cursor) (t : Trace) (c' : Cursor) : Prop where
  /-- The source stays. -/
  source_eq : c'.source = c.source
  /-- What shows follows the trace. -/
  view_eq : c'.view = c.view.follow t
  /-- What is remembered is still true. -/
  reliable : c'.Reliable g bodies

variable {g bodies} {c d e : Cursor} {t u : Trace}

/-- A fresh cursor remembers nothing that might be wrong. -/
theorem reliable_ofChars (source : Array Char) (capacity : Nat) :
    (ofChars source capacity).Reliable g bodies where
  sound := sound_ofChars source capacity
  recalls r k memo h := by
    rw [getD_memos_ofChars] at h
    cases h

/-- A cursor follows a trace to where it ends. -/
theorem Follows.position_eq (h : c.Follows g bodies t d) : d.position = t.stop :=
  congrArg View.position h.view_eq

/-- It comes back to the depth where it began. -/
theorem Follows.depth_eq (h : c.Follows g bodies t d) : d.depth = c.depth :=
  congrArg View.depth h.view_eq

/-- It closes the rules that it opens. -/
theorem Follows.openRules_eq (h : c.Follows g bodies t d) : d.openRules = c.openRules :=
  congrArg View.openRules h.view_eq

/-- It adds the tokens of the trace, at its own depth, to those that were live. -/
theorem Follows.live_eq (h : c.Follows g bodies t d) :
    d.view.live = c.view.live ++ t.tokens.map (.deepen c.depth) :=
  congrArg View.live h.view_eq

/-- It adds as many as the trace has. -/
theorem Follows.tokenCount_eq (h : c.Follows g bodies t d) (hc : c.Sound) :
    d.tokenCount = c.tokenCount + t.tokens.length := by
  rw [← h.reliable.sound.length_live, h.live_eq, List.length_append, hc.length_live,
    List.length_map]

/-- The looks of a trace lie behind the frontier that it leaves. -/
theorem Follows.hasReached (h : c.Follows g bodies t d) {l : Look} (hl : l ∈ t.looks) :
    Frontier.HasReached d.view.frontier l.offset := by
  rw [h.view_eq]
  exact c.view.hasReached_foldl_note_of_mem hl

/-- Steps that leave the memory alone keep it reliable: the frontier only moves on. -/
theorem Reliable.follows (hc : c.Reliable g bodies) (hsound : d.Sound)
    (hsource : d.source = c.source) (hmemos : d.memos = c.memos)
    (hview : d.view = c.view.follow t) : c.Follows g bodies t d where
  source_eq := hsource
  view_eq := hview
  reliable :=
    { sound := hsound
      recalls := by
        intro r k memo hmemo
        rw [hmemos] at hmemo
        obtain ⟨u, hu, rfl, hlooks⟩ := hc.recalls r k memo hmemo
        refine ⟨u, hsource ▸ hu, rfl, fun l hl => ?_⟩
        rw [hview]
        exact c.view.hasReached_foldl_note (hlooks l hl) t.looks }

/-- A cursor that does nothing follows the trace of nothing. -/
theorem Reliable.follows_skip (hc : c.Reliable g bodies) :
    c.Follows g bodies (.skip c.position) c :=
  hc.follows hc.sound rfl rfl (View.follow_skip c.view).symm

/-- Following a trace and then another is following both in a row. -/
theorem Follows.trans (h : c.Follows g bodies t d) (h' : d.Follows g bodies u e) :
    c.Follows g bodies (t.andThen u) e where
  source_eq := h'.source_eq.trans h.source_eq
  view_eq := by rw [h'.view_eq, h.view_eq, View.follow_andThen]
  reliable := h'.reliable

/-! ## Primitives -/

/-- One character, as its trace has it. -/
theorem Reliable.follows_step (hc : c.Reliable g bodies) (test : Char → Bool) :
    (c.step test).1 = (Trace.step c.source test c.position).matched ∧
      c.Follows g bodies (.step c.source test c.position) (c.step test).2 := by
  have hlook : c.look.next? = c.source[c.position]? := by
    unfold look next?
    split <;> rfl
  have hposition : c.look.position = c.position := by
    unfold look
    split <;> rfl
  have hsource : c.look.source = c.source := by
    unfold look
    split <;> rfl
  have hmemos : c.look.memos = c.memos := by
    unfold look
    split <;> rfl
  have hview : c.look.view =
      c.view.follow { Trace.step c.source test c.position with stop := c.position } := by
    rw [view_look]
    simp [View.follow, Trace.step, View.note]
  rcases hnext : c.source[c.position]? with _ | ch
  · refine ⟨by simp [step, hlook, hnext, Trace.step], ?_⟩
    have hstep : (c.step test).2 = c.look := by simp [step, hlook, hnext]
    rw [hstep]
    refine hc.follows hc.sound.look hsource hmemos ?_
    rw [hview]
    simp [Trace.step, hnext]
  · by_cases htest : test ch = true
    · refine ⟨by simp [step, hlook, hnext, Trace.step, htest], ?_⟩
      have hstep : (c.step test).2 = { c.look with position := c.position + 1 } := by
        simp [step, hlook, hnext, htest, hposition]
      rw [hstep]
      refine hc.follows ⟨hc.sound.look.tokenCount_le, hc.sound.look.kept_le⟩ hsource hmemos ?_
      have hmoved : ({ c.look with position := c.position + 1 } : Cursor).view
          = { c.look.view with position := c.position + 1 } := rfl
      rw [hmoved, hview]
      simp [Trace.step, hnext, htest, View.follow]
    · refine ⟨by simp [step, hlook, hnext, Trace.step, htest], ?_⟩
      have hstep : (c.step test).2 = c.look := by simp [step, hlook, hnext, htest]
      rw [hstep]
      refine hc.follows hc.sound.look hsource hmemos ?_
      rw [hview]
      simp [Trace.step, hnext, htest]

/-- Recording an action follows its trace. -/
theorem Reliable.follows_act (hc : c.Reliable g bodies) (a : Action) :
    c.Follows g bodies (.act a c.position) (c.act a) := by
  refine hc.follows (hc.sound.emit _) rfl rfl ?_
  rw [act, hc.sound.view_emit]
  simp [View.follow, Trace.act, Token.deepen, view]

/-! ## Going back and captures -/

/-- Going back to where a trace began rewinds the trace. -/
theorem Follows.restore (h : c.Follows g bodies t d) (hc : c.Sound) :
    c.Follows g bodies (t.rewind c.position) (d.restore c.checkpoint) := by
  have hcount : c.checkpoint.tokenCount ≤ d.tokenCount := by
    rw [h.tokenCount_eq hc]
    exact Nat.le_add_right _ _
  have hview : (d.restore c.checkpoint).view = c.view.follow (t.rewind c.position) := by
    rw [view_restore d hcount, h.view_eq]
    have hlive : (c.view.follow t).live.take c.tokenCount = c.view.live := by
      rw [← hc.length_live]
      exact List.take_left' rfl
    ext1
    · rfl
    · rfl
    · rw [← position_view c, View.follow_rewind]
      exact hlive
    · rfl
    · rfl
  refine ⟨h.source_eq, hview, ⟨?_, fun r k memo hmemo => ?_⟩⟩
  · exact h.reliable.sound.restore (hcount.trans h.reliable.sound.tokenCount_le)
  · exact h.reliable.recalls r k memo hmemo

/-- What is remembered stays reliable inside a capture. -/
theorem Reliable.enter (hc : c.Reliable g bodies) (s : Symbol) : (c.enter s).Reliable g bodies where
  sound := ⟨hc.sound.tokenCount_le, hc.sound.kept_le⟩
  recalls := hc.recalls

/-- Leaving a capture records a match and puts a failure back. -/
theorem Follows.leave {s : Symbol} (hc : c.Reliable g bodies)
    (h : (c.enter s).Follows g bodies t d) :
    (d.leave s c.checkpoint t.matched).1 = t.matched ∧
      c.Follows g bodies (t.inside s c.position) (d.leave s c.checkpoint t.matched).2 := by
  -- the cursor with its open rules put back, still one level too deep
  let d₁ : Cursor := { d with openRules := c.openRules }
  have hlive : d₁.view.live = c.view.live ++ (t.tokens.map (.deepen 1)).map (.deepen c.depth) := by
    rw [List.map_map, Token.deepen_comp_deepen, Nat.add_comm 1]
    exact h.live_eq
  have hnote : (fun f l => (c.enter s).view.note f l)
      = fun f l => c.view.note f (Look.within s c.position l) := by
    funext f l
    cases s <;> simp [View.note, Look.within, Cursor.enter, view, liveTokens, Symbol.rule?,
      OpenRule.deepen, Nat.add_comm 1]
  have hfrontier : d₁.view.frontier =
      (t.inside s c.position).looks.foldl c.view.note c.view.frontier := by
    show d.view.frontier = _
    rw [h.view_eq]
    show t.looks.foldl (fun f l => (c.enter s).view.note f l) c.view.frontier = _
    rw [hnote, Trace.inside, List.foldl_map]
  have hsound : d₁.Sound := ⟨h.reliable.sound.tokenCount_le, h.reliable.sound.kept_le⟩
  cases hm : t.matched with
  | true =>
    refine ⟨congrArg Prod.fst (leave_of_openRules_eq h.openRules_eq _ true), ?_⟩
    let d₂ : Cursor := { d₁ with depth := c.depth }
    have hleave : (d.leave s c.checkpoint true).2 =
        d₂.emit ⟨s, c.position, d.position, c.depth⟩ := by
      have hdepth : d.depth - 1 = c.depth := by rw [h.depth_eq]; rfl
      rw [leave_of_openRules_eq h.openRules_eq, hdepth]
      rfl
    have hsound₂ : d₂.Sound := ⟨hsound.tokenCount_le, hsound.kept_le⟩
    rw [hleave]
    refine ⟨h.source_eq, ?_, ⟨hsound₂.emit _, fun r k memo hmemo => ?_⟩⟩
    · rw [hsound₂.view_emit]
      ext1
      · simpa [Trace.inside, hm] using h.position_eq
      · rfl
      · show d₁.view.live ++ _ = _
        rw [hlive]
        simp [View.follow, Trace.inside, hm, Token.deepen, h.position_eq]
      · rfl
      · exact hfrontier
    · obtain ⟨u, hu, rfl, hlooks⟩ := h.reliable.recalls r k memo hmemo
      refine ⟨u, hu, rfl, fun l hl => ?_⟩
      rw [hsound₂.view_emit]
      exact hlooks l hl
  | false =>
    refine ⟨congrArg Prod.fst (leave_of_openRules_eq h.openRules_eq _ false), ?_⟩
    have hleave : (d.leave s c.checkpoint false).2 = d₁.restore c.checkpoint := by
      rw [leave_of_openRules_eq h.openRules_eq]
      rfl
    have hcount : c.checkpoint.tokenCount ≤ d₁.tokenCount := by
      rw [← hsound.length_live, hlive, List.length_append, hc.sound.length_live]
      exact Nat.le_add_right _ _
    rw [hleave]
    refine ⟨h.source_eq, ?_, ⟨hsound.restore (hcount.trans hsound.tokenCount_le), ?_⟩⟩
    · rw [view_restore d₁ hcount, hlive]
      ext1
      · simp [Trace.inside, hm, checkpoint]
      · rfl
      · simp [View.follow, Trace.inside, hm, checkpoint, ← hc.sound.length_live]
      · rfl
      · exact hfrontier
    · exact h.reliable.recalls

/-! ## Remembered attempts -/

/-- Recording tokens in a row, each at the current depth, adds them to the live ones. -/
theorem Reliable.follows_foldl_emit (hc : c.Reliable g bodies) (tokens : List Token) :
    c.Follows g bodies ⟨true, c.position, tokens, []⟩
      (tokens.foldl (fun c t => c.emit { t with depth := t.depth + c.depth }) c) := by
  induction tokens generalizing c with
  | nil => exact hc.follows_skip
  | cons t tokens ih =>
      have hview : (c.emit (t.deepen c.depth)).view =
          c.view.follow ⟨true, c.position, [t], []⟩ := by
        rw [hc.sound.view_emit]
        rfl
      have hemit : c.Follows g bodies ⟨true, c.position, [t], []⟩ (c.emit (t.deepen c.depth)) :=
        hc.follows (hc.sound.emit _) rfl rfl hview
      exact hemit.trans (ih hemit.reliable)

/-- Repeating a remembered attempt follows its trace, as long as the trace looks at nothing new. -/
theorem Reliable.follows_replay (hc : c.Reliable g bodies)
    (hfailed : t.matched = false → t.stop = c.position ∧ t.tokens = [])
    (hlooks : ∀ l ∈ t.looks, Frontier.HasReached c.view.frontier l.offset) :
    (c.replay t.memo).1 = t.matched ∧ c.Follows g bodies t (c.replay t.memo).2 := by
  have hfrontier := c.view.foldl_note_of_hasReached hlooks
  cases hm : t.matched with
  | false =>
    obtain ⟨hstop, htokens⟩ := hfailed hm
    have hview : c.view = c.view.follow t := by
      ext1 <;> simp [View.follow, hstop, htokens, hfrontier]
    simpa [Trace.memo, hm, replay] using hc.follows hc.sound rfl rfl hview
  | true =>
    have h := hc.follows_foldl_emit t.tokens
    simp only [Trace.memo, hm, if_true, replay, true_and]
    refine ⟨h.source_eq, ?_, ⟨⟨h.reliable.sound.tokenCount_le, h.reliable.sound.kept_le⟩,
      h.reliable.recalls⟩⟩
    ext1
    · rfl
    · exact h.depth_eq
    · exact h.live_eq
    · exact h.openRules_eq
    · exact (congrArg View.frontier h.view_eq).trans hfrontier.symm

/-- What is remembered of an attempt is its trace. -/
theorem Follows.memoSince_eq (hc : c.Sound) (h : c.Follows g bodies t d) :
    d.memoSince c.checkpoint t.matched = t.memo := by
  unfold memoSince Trace.memo
  cases t.matched with
  | false => rfl
  | true =>
    have htokens : d.log.between c.tokenCount d.tokenCount = t.tokens.map (.deepen c.depth) := by
      rw [Log.between_eq, ← List.drop_take, ← live_view, h.live_eq, ← hc.length_live]
      exact List.drop_left' rfl
    have hdepth : (fun t : Token => { t with depth := t.depth - c.depth }) ∘ Token.deepen c.depth
        = id := by
      funext t
      simp [Token.deepen]
    simp only [if_true, checkpoint, htokens, List.map_map, hdepth, List.map_id, h.position_eq]

/-- An attempt that is remembered is remembered truly. -/
theorem Follows.remember {r : Rule} (hc : c.Sound) (h : c.Follows g bodies t d)
    (ht : Traces g c.source (.rule r (bodies r)) c.position t) :
    c.Follows g bodies t (d.remember r c.checkpoint t.matched) := by
  refine ⟨h.source_eq, h.view_eq,
    ⟨⟨h.reliable.sound.tokenCount_le, h.reliable.sound.kept_le⟩, fun r' k memo hmemo => ?_⟩⟩
  rcases lookup_note hmemo with ⟨rfl, rfl, rfl⟩ | hold
  · exact ⟨t, h.source_eq.symm ▸ ht, h.memoSince_eq hc, fun l hl => h.hasReached hl⟩
  · exact h.reliable.recalls r' k memo hold

/-- Where a cursor goes does not depend on the verdict. -/
theorem Follows.withVerdict (b : Bool) (h : c.Follows g bodies t d) :
    c.Follows g bodies (t.withVerdict b) d :=
  ⟨h.source_eq, h.view_eq, h.reliable⟩

end Cursor

/-! ## Matching -/

variable {g : Grammar} {bodies : Rule → Pattern} {callee : Rule → Cursor → Outcome}

variable (g bodies) in
/-- Where the run ends, it followed the trace of the pattern. -/
def Obeys (pattern : Pattern) (run : Cursor → Outcome) : Prop :=
  ∀ c matched c', c.Reliable g bodies → run c = some (matched, c') →
    ∃ t, Traces g c.source pattern c.position t ∧ matched = t.matched ∧ c.Follows g bodies t c'

/-- If the body of a capture follows its traces, then the capture follows them inside itself. -/
theorem Obeys.captureMatch {body : Pattern} {run : Cursor → Outcome}
    (hbody : Obeys g bodies body run) {s : Symbol} {c c' : Cursor} {matched : Bool}
    (hc : c.Reliable g bodies) (h : RiftLang.captureMatch s run c = some (matched, c')) :
    ∃ t, Traces g c.source body c.position t ∧ matched = t.matched ∧
      c.Follows g bodies (t.inside s c.position) c' := by
  obtain ⟨inner, d, hrun, hleft⟩ := captureMatch_eq_some h
  obtain ⟨t, ht, rfl, hd⟩ := hbody _ _ _ (hc.enter s) hrun
  obtain ⟨hm, hleave⟩ := hd.leave hc
  rw [hleft] at hm hleave
  exact ⟨t, ht, hm, hleave⟩

/-- If a body follows its traces, then its repetition follows those of the repetition. The induction
is on the budget, which both share. -/
theorem Obeys.repeatMatch {body : Pattern} {run : Cursor → Outcome}
    (hbody : Obeys g bodies body run) {budget : Nat} {c c' : Cursor} {matched : Bool}
    (hc : c.Reliable g bodies) (h : RiftLang.repeatMatch run budget c = some (matched, c')) :
    ∃ t, (∃ depth, repeatTrace (body.trace c.source (g.trace c.source depth)) budget c.position =
      some t) ∧
      matched = t.matched ∧ c.Follows g bodies t c' := by
  induction budget generalizing c with
  | zero =>
      cases h
      exact ⟨_, ⟨0, rfl⟩, rfl, hc.follows_skip⟩
  | succ budget ih =>
      rcases repeatMatch_succ_cases h with ⟨d, hrun, rfl, rfl⟩ | ⟨hrun, rfl, hstop⟩ |
        ⟨d, hrun, hmoved, hagain⟩
      · obtain ⟨t, ⟨n, hn⟩, hm, hd⟩ := hbody _ _ _ hc hrun
        exact ⟨(t.rewind c.position).withVerdict true, ⟨n, by simp [repeatTrace, hn, ← hm]⟩, rfl,
          (hd.restore hc.sound).withVerdict true⟩
      · obtain ⟨t, ⟨n, hn⟩, hm, hd⟩ := hbody _ _ _ hc hrun
        have hstop' : t.stop = c.position := hd.position_eq ▸ hstop
        exact ⟨t, ⟨n, by simp [repeatTrace, hn, ← hm, hstop']⟩, hm, hd⟩
      · obtain ⟨t, ht, hm, hd⟩ := hbody _ _ _ hc hrun
        obtain ⟨u, ⟨n, hn⟩, hm', hu⟩ := ih hd.reliable hagain
        obtain ⟨m, hm₁⟩ := ht.exists_depth_le
        have hmoved' : t.stop ≠ c.position := hd.position_eq ▸ hmoved
        rw [hd.source_eq, hd.position_eq] at hn
        have hrest : repeatTrace (body.trace c.source (g.trace c.source (max m n))) budget t.stop
            = some u :=
          repeatTrace_mono
            (fun _ _ => body.trace_mono fun _ _ _ => g.trace_mono (Nat.le_max_right m n)) hn
        refine ⟨t.andThen u, ⟨max m n, ?_⟩, hm', hd.trans hu⟩
        simp [repeatTrace, hm₁ _ (Nat.le_max_left m n), ← hm, hmoved', hrest]

/-- Two patterns in a row follow the trace of the first, and then that of the second if the first
matches. -/
theorem Obeys.both {first second : Pattern} (h₁ : Obeys g bodies first (first.eval callee))
    (h₂ : Obeys g bodies second (second.eval callee)) :
    Obeys g bodies (.both first second) ((Pattern.both first second).eval callee) := by
  intro c matched c' hc h
  rcases eval_both_cases h with ⟨hrun, rfl⟩ | ⟨d, hrun, hrun₂⟩
  · obtain ⟨t, ht, hm, hd⟩ := h₁ _ _ _ hc hrun
    exact ⟨t, ht.both_of_failed hm.symm, hm, hd⟩
  · obtain ⟨t, ht, hm, hd⟩ := h₁ _ _ _ hc hrun
    obtain ⟨u, hu, hm', hd'⟩ := h₂ _ _ _ hd.reliable hrun₂
    rw [hd.source_eq, hd.position_eq] at hu
    exact ⟨t.andThen u, ht.both_of_matched hm.symm hu, hm', hd.trans hd'⟩

/-- The second of two alternatives is tried where the first began, with what the first has seen. If
it fails as well, the cursor goes back once more. -/
theorem Obeys.either {first second : Pattern} (h₁ : Obeys g bodies first (first.eval callee))
    (h₂ : Obeys g bodies second (second.eval callee)) :
    Obeys g bodies (.either first second) ((Pattern.either first second).eval callee) := by
  intro c matched c' hc h
  rcases eval_either_cases h with ⟨hrun, rfl⟩ | ⟨d, e, hrun, hrun₂, rfl⟩
  · obtain ⟨t, ht, hm, hd⟩ := h₁ _ _ _ hc hrun
    exact ⟨t, ht.either_of_matched hm.symm, hm, hd⟩
  · obtain ⟨t, ht, hm, hd⟩ := h₁ _ _ _ hc hrun
    have hback := hd.restore hc.sound
    obtain ⟨u, hu, hm', he⟩ := h₂ _ _ _ hback.reliable hrun₂
    rw [hback.source_eq] at hu
    refine ⟨_, ht.either_of_failed hm.symm hu, ?_⟩
    cases matched with
    | false =>
        rw [Trace.settle_of_failed hm'.symm]
        exact ⟨hm', hback.trans (he.restore hback.reliable.sound)⟩
    | true =>
        rw [Trace.settle_of_matched hm'.symm]
        exact ⟨hm', hback.trans he⟩

/-- A lookahead goes back to where it began, and turns the verdict round. -/
theorem Obeys.absent {body : Pattern} (hbody : Obeys g bodies body (body.eval callee)) :
    Obeys g bodies (.absent body) ((Pattern.absent body).eval callee) := by
  intro c matched c' hc h
  obtain ⟨inner, d, hrun, rfl, rfl⟩ := eval_absent_eq_some h
  obtain ⟨t, ht, rfl, hd⟩ := hbody _ _ _ hc hrun
  exact ⟨_, ht.absent, rfl, (hd.restore hc.sound).withVerdict _⟩

/-- What is remembered of a rule at the position can be replayed: it is what the trace of the rule
leaves there. -/
theorem Cursor.Reliable.follows_known {c : Cursor} {r : Rule} {known : Memo}
    (hc : c.Reliable g bodies) (hknown : c.remembered? r = some known) :
    ∃ t, Traces g c.source (.rule r (bodies r)) c.position t ∧ (c.replay known).1 = t.matched ∧
      c.Follows g bodies t (c.replay known).2 := by
  obtain ⟨t, ht, rfl, hlooks⟩ := hc.recalls r c.position known hknown
  have hfailed : t.matched = false → t.stop = c.position ∧ t.tokens = [] := by
    obtain ⟨n, hn⟩ := ht
    obtain ⟨u, -, rfl⟩ := Option.map_eq_some_iff.1 hn
    intro hu
    simp only [Trace.matched_inside] at hu
    simp [Trace.inside, hu]
  obtain ⟨hm, hd⟩ := hc.follows_replay hfailed hlooks
  exact ⟨t, ht, hm, hd⟩

/-- A remembered rule follows the trace of the rule, whether it is tried or repeated from memory. -/
theorem Obeys.memo {r : Rule} {body : Pattern} (hbodies : bodies r = body)
    (hbody : Obeys g bodies body (body.eval callee)) :
    Obeys g bodies (.memo r body) ((Pattern.memo r body).eval callee) := by
  intro c matched c' hc h
  rcases eval_memo_cases h with ⟨known, hknown, hreplay⟩ | ⟨d, hrun, rfl⟩
  · obtain ⟨t, ht, hm, hd⟩ := hc.follows_known hknown
    rw [hreplay] at hm hd
    exact ⟨t, hbodies ▸ ht, hm, hd⟩
  · obtain ⟨t, ht, rfl, hd⟩ := hbody.captureMatch hc hrun
    have hrule := ht.rule r
    exact ⟨_, hrule, rfl, hd.remember hc.sound (hbodies ▸ hrule)⟩

/-- A pattern whose callees follow their traces follows its own. -/
theorem Pattern.obeys_eval (hcallee : ∀ r, Obeys g bodies (.call r) (callee r)) (pattern : Pattern)
    (hp : pattern.Memoizes bodies) : Obeys g bodies pattern (pattern.eval callee) := by
  induction pattern with
  | succeed =>
      intro c matched c' hc h
      cases h
      exact ⟨_, ⟨0, rfl⟩, rfl, hc.follows_skip⟩
  | one test =>
      intro c matched c' hc h
      obtain ⟨hm, hd⟩ := hc.follows_step test
      rw [Option.some.inj h] at hm hd
      exact ⟨_, ⟨0, rfl⟩, hm, hd⟩
  | both first second ih₁ ih₂ => exact (ih₁ hp.1).both (ih₂ hp.2)
  | either first second ih₁ ih₂ => exact (ih₁ hp.1).either (ih₂ hp.2)
  | many body ih =>
      intro c matched c' hc h
      exact (ih hp).repeatMatch hc h
  | absent body ih => exact (ih hp).absent
  | rule r body ih =>
      intro c matched c' hc h
      obtain ⟨t, ht, hm, hd⟩ := (ih hp).captureMatch hc h
      exact ⟨_, ht.rule r, hm, hd⟩
  | text body ih =>
      intro c matched c' hc h
      obtain ⟨t, ht, hm, hd⟩ := (ih hp).captureMatch hc h
      exact ⟨_, ht.text, hm, hd⟩
  | memo r body ih => exact .memo hp.1.symm (ih hp.2)
  | action a =>
      intro c matched c' hc h
      cases h
      exact ⟨_, ⟨0, rfl⟩, rfl, hc.follows_act a⟩
  | call r => exact hcallee r

/-- A rule of a grammar follows its trace, however its attempts were remembered. -/
theorem Grammar.obeys_run (hg : ∀ r, (g r).Memoizes bodies) (depth : Nat) (r : Rule) :
    Obeys g bodies (.call r) (g.run depth r) := by
  induction depth generalizing r with
  | zero =>
      intro c matched c' hc h
      cases h
  | succ depth ih =>
      intro c matched c' hc h
      obtain ⟨t, ht, hm, hd⟩ := (g r).obeys_eval ih (hg r) c matched c' hc h
      exact ⟨t, traces_call_iff.2 ht, hm, hd⟩

/-! ## A match ends where its trace does -/

/-- A run that follows its pattern and ends with the trace `t` there. -/
theorem Obeys.eq_of_traces {pattern : Pattern} {run : Cursor → Outcome}
    (h : Obeys g bodies pattern run) {c c' : Cursor} {matched : Bool} {t : Trace}
    (hc : c.Reliable g bodies) (ht : Traces g c.source pattern c.position t)
    (hrun : run c = some (matched, c')) : matched = t.matched ∧ c.Follows g bodies t c' := by
  obtain ⟨u, hu, hm, hd⟩ := h c matched c' hc hrun
  obtain rfl := ht.unique hu
  exact ⟨hm, hd⟩

/-- If a body ends wherever it has a trace, then its repetition ends wherever that has one. -/
theorem exists_repeatMatch {body : Pattern} {run : Cursor → Outcome}
    (hbody : Obeys g bodies body run) {depth : Nat} (hrun : ∀ c t, c.Reliable g bodies →
      body.trace c.source (g.trace c.source depth) c.position = some t →
      ∃ result, run c = some result)
    {budget : Nat} {c : Cursor} {t : Trace} (hc : c.Reliable g bodies)
    (h : repeatTrace (body.trace c.source (g.trace c.source depth)) budget c.position = some t) :
    ∃ result, repeatMatch run budget c = some result := by
  induction budget generalizing c t with
  | zero => exact ⟨_, rfl⟩
  | succ budget ih =>
      obtain ⟨u, hu, h⟩ := Option.bind_eq_some_iff.1 h
      obtain ⟨⟨matched, d⟩, hd⟩ := hrun c u hc hu
      obtain ⟨rfl, hfollows⟩ := hbody.eq_of_traces hc ⟨depth, hu⟩ hd
      simp only [repeatMatch, hd, Cursor.checkpoint]
      rcases hm : u.matched with _ | _
      · exact ⟨_, rfl⟩
      · by_cases hstop : d.position = c.position
        · exact ⟨_, if_pos hstop⟩
        · have hstop' : u.stop ≠ c.position := hfollows.position_eq ▸ hstop
          simp only [hm, if_true, hstop', if_false] at h
          obtain ⟨w, hw, -⟩ := Option.map_eq_some_iff.1 h
          rw [← hfollows.source_eq, ← hfollows.position_eq] at hw
          simp only [hstop, if_false]
          exact ih hfollows.reliable hw

/-- Where a pattern has a trace with calls nested so deep, matching it ends. -/
theorem Pattern.exists_eval (hg : ∀ r, (g r).Memoizes bodies) {depth : Nat}
    (hcall : ∀ r c t, c.Reliable g bodies → g.trace c.source depth r c.position = some t →
      ∃ result, g.run depth r c = some result)
    (pattern : Pattern) (hp : pattern.Memoizes bodies) {c : Cursor} {t : Trace}
    (hc : c.Reliable g bodies)
    (h : pattern.trace c.source (g.trace c.source depth) c.position = some t) :
    ∃ result, pattern.eval (g.run depth) c = some result := by
  have obeys (pattern : Pattern) (hp : pattern.Memoizes bodies) :
      Obeys g bodies pattern (pattern.eval (g.run depth)) :=
    pattern.obeys_eval (g.obeys_run hg depth) hp
  have capture {s : Symbol} {run : Cursor → Outcome} {c : Cursor}
      (hrun : ∃ result, run (c.enter s) = some result) :
      ∃ result, captureMatch s run c = some result := by
    obtain ⟨result, hresult⟩ := hrun
    simp [captureMatch, hresult]
  induction pattern generalizing c t with
  | succeed => exact ⟨_, rfl⟩
  | one test => exact ⟨_, rfl⟩
  | both first second ih₁ ih₂ =>
      obtain ⟨u, hu, h⟩ := Option.bind_eq_some_iff.1 h
      obtain ⟨⟨matched, d⟩, hd⟩ := ih₁ hp.1 hc hu
      obtain ⟨rfl, hfollows⟩ := (obeys first hp.1).eq_of_traces hc ⟨depth, hu⟩ hd
      simp only [eval, hd]
      rcases hm : u.matched with _ | _
      · exact ⟨_, rfl⟩
      · simp only [hm, if_true] at h
        obtain ⟨w, hw, -⟩ := Option.map_eq_some_iff.1 h
        rw [← hfollows.source_eq, ← hfollows.position_eq] at hw
        exact ih₂ hp.2 hfollows.reliable hw
  | either first second ih₁ ih₂ =>
      obtain ⟨u, hu, h⟩ := Option.bind_eq_some_iff.1 h
      obtain ⟨⟨matched, d⟩, hd⟩ := ih₁ hp.1 hc hu
      obtain ⟨rfl, hfollows⟩ := (obeys first hp.1).eq_of_traces hc ⟨depth, hu⟩ hd
      simp only [eval, hd]
      rcases hm : u.matched with _ | _
      · simp only [hm, Bool.false_eq_true, if_false] at h
        obtain ⟨w, hw, -⟩ := Option.map_eq_some_iff.1 h
        have hback := hfollows.restore hc.sound
        rw [← hback.source_eq] at hw
        obtain ⟨⟨matched, e⟩, he⟩ := ih₂ hp.2 (c := d.restore c.checkpoint) hback.reliable hw
        simp only [he]
        cases matched <;> exact ⟨_, rfl⟩
      · exact ⟨_, rfl⟩
  | many body ih => exact exists_repeatMatch (obeys body hp) (fun _ _ hc h => ih hp hc h) hc h
  | absent body ih =>
      obtain ⟨u, hu, -⟩ := Option.map_eq_some_iff.1 h
      obtain ⟨⟨matched, d⟩, hd⟩ := ih hp hc hu
      simp [eval, hd]
  | rule r body ih =>
      obtain ⟨u, hu, -⟩ := Option.map_eq_some_iff.1 h
      exact capture (ih hp (hc.enter (.rule r)) hu)
  | text body ih =>
      obtain ⟨u, hu, -⟩ := Option.map_eq_some_iff.1 h
      exact capture (ih hp (hc.enter .text) hu)
  | memo r body ih =>
      obtain ⟨u, hu, -⟩ := Option.map_eq_some_iff.1 h
      obtain ⟨⟨matched, d⟩, hd⟩ := capture (s := .rule r) (ih hp.2 (hc.enter (.rule r)) hu)
      rcases hknown : c.remembered? r with _ | known
      · simp [eval, hknown, hd]
      · simp [eval, hknown]
  | action a => exact ⟨_, rfl⟩
  | call r => exact hcall r c t hc h

/-- A rule ends wherever it has a trace with calls nested no deeper. -/
theorem Grammar.exists_run (hg : ∀ r, (g r).Memoizes bodies) (depth : Nat) (r : Rule) (c : Cursor)
    (t : Trace) (hc : c.Reliable g bodies) (h : g.trace c.source depth r c.position = some t) :
    ∃ result, g.run depth r c = some result := by
  induction depth generalizing r c t with
  | zero => cases h
  | succ depth ih => exact (g r).exists_eval hg ih (hg r) hc h

/-- Where a pattern has a trace, matching it ends and follows the trace. -/
theorem Pattern.eval_of_trace (hg : ∀ r, (g r).Memoizes bodies) (pattern : Pattern)
    (hp : pattern.Memoizes bodies) {depth : Nat} {c : Cursor} {t : Trace} (hc : c.Reliable g bodies)
    (h : pattern.trace c.source (g.trace c.source depth) c.position = some t) :
    ∃ c', pattern.eval (g.run depth) c = some (t.matched, c') ∧ c.Follows g bodies t c' := by
  obtain ⟨⟨matched, c'⟩, hrun⟩ := pattern.exists_eval hg (g.exists_run hg depth) hp hc h
  obtain ⟨rfl, hd⟩ :=
    (pattern.obeys_eval (g.obeys_run hg depth) hp).eq_of_traces hc ⟨depth, h⟩ hrun
  exact ⟨c', hrun, hd⟩

end RiftLang
