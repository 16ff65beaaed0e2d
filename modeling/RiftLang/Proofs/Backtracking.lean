import RiftLang.Proofs.Cursor.Outcome
import RiftLang.Proofs.Cursor.Sights

/-!
# Going back leaves no trace

Abandoned branches write into the log, and only some patterns put back what a failed attempt has
moved. What holds of every match all the same is stated here, over every state that a cursor gets
into.

* `Cursor.InBounds` — position and live tokens lie within the source and the log, and so does what
  is remembered.
* `Cursor.Keeps` — what no move changes: depth, open rules and the tokens that were live.
  `Moves.keeps` — so neither does any match, and position and number of live tokens only grow.
* `Pattern.IsChain` — a plain chain of steps, the one kind of pattern that does not put its failures
  back.
* `PureAttempt` — what an attempt leaves as it was, by its pattern and its outcome.
* `backtracking_is_pure` — every attempt from every state is pure.
-/

namespace RiftLang

namespace Cursor

variable {c d e : Cursor} {sights : List Sight}

/-! ## Bounds -/

/-- Position and live tokens lie within source and log, and remembered matches end within the
source. -/
structure InBounds (c : Cursor) : Prop where
  /-- The live slots were written. -/
  tokenCount_le : c.tokenCount ≤ c.log.size
  /-- The position is not past the end. -/
  position_le : c.position ≤ c.source.size
  /-- A remembered match ends where it began or later, and not past the end. -/
  recalls : ∀ r k stop tokens, (c.memos.getD k []).lookup r = some (.matched stop tokens) →
    k ≤ stop ∧ stop ≤ c.source.size

/-- A fresh cursor stands within its source and its log, and remembers nothing. -/
theorem inBounds_ofChars (source : Array Char) (capacity : Nat) :
    (ofChars source capacity).InBounds where
  tokenCount_le := Nat.zero_le _
  position_le := Nat.zero_le _
  recalls r k stop tokens h := by
    rw [getD_memos_ofChars] at h
    cases h

/-- What moves keep of the cursor `c` that they lead from to `d`. -/
structure Keeps (c d : Cursor) : Prop where
  /-- The cursor still stands within source and log. -/
  inBounds : d.InBounds
  /-- The source is the same. -/
  source_eq : d.source = c.source
  /-- Captures entered on the way were left. -/
  depth_eq : d.depth = c.depth
  /-- So were the rules. -/
  openRules_eq : d.openRules = c.openRules
  /-- The position only goes on. -/
  position_le : c.position ≤ d.position
  /-- No token that was live is dropped. -/
  tokenCount_le : c.tokenCount ≤ d.tokenCount
  /-- The slots that were live hold what they held. -/
  live_eq : d.log.toList.take c.tokenCount = c.log.toList.take c.tokenCount
  /-- No slot is dropped. -/
  size_le : c.log.size ≤ d.log.size

/-! ## Moves -/

/-- Not moving keeps everything. -/
theorem InBounds.keeps_self (hc : c.InBounds) : c.Keeps c where
  inBounds := hc
  source_eq := rfl
  depth_eq := rfl
  openRules_eq := rfl
  position_le := Nat.le_refl _
  tokenCount_le := Nat.le_refl _
  live_eq := rfl
  size_le := Nat.le_refl _

/-- What each of two stretches keeps, both together keep. -/
theorem Keeps.trans (h : c.Keeps d) (h' : d.Keeps e) : c.Keeps e where
  inBounds := h'.inBounds
  source_eq := h'.source_eq.trans h.source_eq
  depth_eq := h'.depth_eq.trans h.depth_eq
  openRules_eq := h'.openRules_eq.trans h.openRules_eq
  position_le := h.position_le.trans h'.position_le
  tokenCount_le := h.tokenCount_le.trans h'.tokenCount_le
  live_eq := by
    have hlive := congrArg (List.take c.tokenCount) h'.live_eq
    rw [List.take_take, List.take_take, Nat.min_eq_left h.tokenCount_le] at hlive
    exact hlive.trans h.live_eq
  size_le := h.size_le.trans h'.size_le

/-- A token that is recorded goes after the live ones. -/
theorem InBounds.keeps_emit (hc : c.InBounds) (t : Token) : c.Keeps (c.emit t) := by
  have hsize : (c.emit t).log.size = max c.log.size (c.tokenCount + 1) :=
    Log.size_record hc.tokenCount_le t
  have hcount : (c.emit t).tokenCount = c.tokenCount + 1 := rfl
  refine ⟨⟨?_, hc.position_le, hc.recalls⟩, rfl, rfl, rfl, Nat.le_refl _, ?_, ?_, ?_⟩
  · omega
  · omega
  · exact Log.take_toList_record hc.tokenCount_le t
  · omega

/-- A look moves nothing that a checkpoint saves. -/
theorem checkpoint_look (c : Cursor) : c.look.checkpoint = c.checkpoint := by
  unfold look
  split <;> rfl

/-- A look writes to no slot and forgets nothing; only the farthest sight may change. -/
theorem InBounds.keeps_look (hc : c.InBounds) : c.Keeps c.look := by
  unfold look
  split
  · exact ⟨⟨hc.tokenCount_le, hc.position_le, hc.recalls⟩, rfl, rfl, rfl, Nat.le_refl _,
      Nat.le_refl _, rfl, Nat.le_refl _⟩
  · exact hc.keeps_self

/-- Reading a character keeps the bounds: the position moves only where there is a character. -/
theorem InBounds.keeps_step (hc : c.InBounds) (test : Char → Bool) : c.Keeps (c.step test).2 := by
  have hlook := hc.keeps_look
  unfold step
  dsimp only
  split
  · next ch hnext =>
    split
    · have hlt : c.look.position < c.look.source.size := (Array.getElem?_eq_some_iff.1 hnext).1
      have hmoved : c.look.Keeps { c.look with position := c.look.position + 1 } :=
        ⟨⟨hlook.inBounds.tokenCount_le, hlt, hlook.inBounds.recalls⟩, rfl, rfl, rfl, Nat.le_succ _,
          Nat.le_refl _, rfl, Nat.le_refl _⟩
      exact hlook.trans hmoved
    · exact hlook
  · exact hlook

/-- Going back to where moves began. -/
theorem Keeps.restore (h : c.Keeps d) (hc : c.InBounds) : c.Keeps (d.restore c.checkpoint) where
  inBounds :=
    { tokenCount_le := hc.tokenCount_le.trans h.size_le
      position_le := by
        show c.position ≤ d.source.size
        rw [h.source_eq]
        exact hc.position_le
      recalls := h.inBounds.recalls }
  source_eq := h.source_eq
  depth_eq := rfl
  openRules_eq := h.openRules_eq
  position_le := Nat.le_refl _
  tokenCount_le := Nat.le_refl _
  live_eq := h.live_eq
  size_le := h.size_le

/-- Entering a capture moves neither position nor live tokens. -/
theorem InBounds.enter (hc : c.InBounds) (symbol : Symbol) : (c.enter symbol).InBounds :=
  ⟨hc.tokenCount_le, hc.position_le, hc.recalls⟩

/-- Coming back from a capture closes what entering it opened. -/
theorem Keeps.leave {symbol : Symbol} (h : (c.enter symbol).Keeps d) (hc : c.InBounds)
    (matched : Bool) :
    c.Keeps (d.leave symbol c.checkpoint matched).2 := by
  have hdepth : d.depth - 1 = c.depth := by
    rw [h.depth_eq]
    rfl
  -- the cursor with its capture closed, before anything is recorded or put back
  have hclosed : c.Keeps { d with openRules := c.openRules, depth := d.depth - 1 } :=
    ⟨⟨h.inBounds.tokenCount_le, h.inBounds.position_le, h.inBounds.recalls⟩, h.source_eq,
      hdepth, rfl, h.position_le, h.tokenCount_le, h.live_eq, h.size_le⟩
  rw [leave_of_openRules_eq h.openRules_eq]
  cases matched with
  | true => exact hclosed.trans (hclosed.inBounds.keeps_emit _)
  | false => exact hclosed.restore hc

/-- Writing tokens after the live ones, one by one at the current depth, leaves those before them as
they are. -/
theorem InBounds.keeps_foldl_emit (hc : c.InBounds) (tokens : List Token) :
    c.Keeps (tokens.foldl (fun c t => c.emit { t with depth := t.depth + c.depth }) c) := by
  induction tokens generalizing c with
  | nil => exact hc.keeps_self
  | cons t tokens ih =>
      have hemit := hc.keeps_emit { t with depth := t.depth + c.depth }
      exact hemit.trans (ih hemit.inBounds)

/-- A remembered outcome ends within the source, so repeating it keeps the bounds. -/
theorem InBounds.keeps_replay (hc : c.InBounds) {r : Rule} {memo : Memo}
    (h : c.remembered? r = some memo) :
    c.Keeps (c.replay memo).2 := by
  cases memo with
  | failed => exact hc.keeps_self
  | matched stop tokens =>
    obtain ⟨hle, hsize⟩ := hc.recalls r c.position stop tokens h
    have hkeeps := hc.keeps_foldl_emit tokens
    refine ⟨⟨hkeeps.inBounds.tokenCount_le, ?_, hkeeps.inBounds.recalls⟩, hkeeps.source_eq,
      hkeeps.depth_eq, hkeeps.openRules_eq, hle, hkeeps.tokenCount_le, hkeeps.live_eq,
      hkeeps.size_le⟩
    exact hsize.trans (Nat.le_of_eq (congrArg Array.size hkeeps.source_eq.symm))

/-- An attempt that is remembered ended within bounds. -/
theorem Keeps.remember (h : c.Keeps d) (r : Rule) (matched : Bool) :
    c.Keeps (d.remember r c.checkpoint matched) := by
  refine ⟨⟨h.inBounds.tokenCount_le, h.inBounds.position_le, ?_⟩, h.source_eq, h.depth_eq,
    h.openRules_eq, h.position_le, h.tokenCount_le, h.live_eq, h.size_le⟩
  intro r' k stop tokens hlookup
  rcases lookup_note hlookup with ⟨rfl, -, hnew⟩ | hold
  · unfold memoSince at hnew
    split at hnew
    · cases hnew
      exact ⟨h.position_le, h.inBounds.position_le⟩
    · cases hnew
  · exact h.inBounds.recalls r' k stop tokens hold

/-- What no match changes. -/
theorem Moves.keeps (h : c.Moves sights d) (hc : c.InBounds) : c.Keeps d := by
  induction h with
  | stay => exact hc.keeps_self
  | step test => exact hc.keeps_step test
  | act a => exact hc.keeps_emit _
  | replay h => exact hc.keeps_replay h
  | trans _ _ ih ih' =>
      have hfirst := ih hc
      exact hfirst.trans (ih' hfirst.inBounds)
  | restore _ ih => exact (ih hc).restore hc
  | capture symbol matched _ ih => exact (ih (hc.enter symbol)).leave hc matched
  | remember r matched _ ih => exact (ih hc).remember r matched

end Cursor

/-! ## What is put back -/

/-- A plain chain of steps, also by way of a call. At least one repetition is written like one but
is none: its first step is put back, and its second never fails. -/
inductive Pattern.IsChain (g : Grammar) : Pattern → Prop where
  /-- Two steps in a row, if they are not written as one round and then a repetition of it. -/
  | both {first second : Pattern} (h : ∀ body, Pattern.both first second ≠ .many1 body) :
      IsChain g (.both first second)
  /-- A call of a rule that is a chain. -/
  | call {r : Rule} (h : IsChain g (g r)) : IsChain g (.call r)

section putBack

variable {g : Grammar} {callee : Rule → Cursor → Outcome} {p body : Pattern} {c d : Cursor}
  {matched : Bool}

/-- A repetition never fails: it ends where its body does not match or does not move. -/
theorem repeatMatch_ne_failed {run : Cursor → Outcome} (budget : Nat) :
    repeatMatch run budget c ≠ some (false, d) := by
  intro h
  induction budget generalizing c with
  | zero => cases h
  | succ budget ih =>
      rcases repeatMatch_succ_cases h with ⟨e, -, hm, -⟩ | ⟨-, hm, -⟩ | ⟨e, -, -, hrest⟩
      · cases hm
      · cases hm
      · exact ih hrest

/-- Any number of repetitions never fails. -/
theorem matched_of_eval_many (h : (Pattern.many body).eval callee c = some (matched, d)) :
    matched = true := by
  cases matched with
  | true => rfl
  | false => exact absurd h (repeatMatch_ne_failed _)

/-- An optional pattern never fails. -/
theorem matched_of_eval_optional (h : (Pattern.optional body).eval callee c = some (matched, d)) :
    matched = true := by
  rcases eval_either_cases h with ⟨-, hm⟩ | ⟨e, e', -, hsucceed, -⟩
  · exact hm
  · cases hsucceed
    rfl

/-- Where a pattern is only looked for, everything is put back. -/
theorem checkpoint_eq_of_eval_absent (h : (Pattern.absent body).eval callee c = some (matched, d)) :
    d.checkpoint = c.checkpoint := by
  obtain ⟨inner, e, -, -, rfl⟩ := eval_absent_eq_some h
  rfl

/-- A choice that fails is back where it began, since it puts its first branch and its second
back. -/
theorem checkpoint_eq_of_eval_either {first second : Pattern}
    (h : (Pattern.either first second).eval callee c = some (false, d)) :
    d.checkpoint = c.checkpoint := by
  rcases eval_either_cases h with ⟨-, hm⟩ | ⟨e, e', -, -, rfl⟩
  · cases hm
  · rfl

/-- A capture that fails puts back where it was entered, whatever its body did. -/
theorem checkpoint_eq_of_captureMatch {symbol : Symbol} {run : Cursor → Outcome}
    (h : captureMatch symbol run c = some (false, d)) : d.checkpoint = c.checkpoint := by
  obtain ⟨inner, e, -, hleave⟩ := captureMatch_eq_some h
  cases inner with
  | true => cases hleave
  | false =>
      cases hleave
      rfl

/-- Given the same of the rules that are no chains, a failed attempt at a pattern that is no chain
leaves position, depth and number of live tokens as they were. A chain may fail after its first step
has consumed something, and leaves that to whoever tried it. -/
theorem Pattern.checkpoint_eq_of_eval
    (hcallee : ∀ r c d, ¬ (call r).IsChain g → callee r c = some (false, d) →
      d.checkpoint = c.checkpoint)
    (hp : ¬ p.IsChain g) (h : p.eval callee c = some (false, d)) : d.checkpoint = c.checkpoint := by
  cases p with
  | succeed => cases h
  | one test =>
      simp only [eval, Option.some.injEq] at h
      unfold Cursor.step at h
      dsimp only at h
      split at h
      · split at h
        · cases h
        · cases h
          exact c.checkpoint_look
      · cases h
        exact c.checkpoint_look
  | both first second =>
      by_cases hmany : ∃ body, Pattern.both first second = .many1 body
      · obtain ⟨body, hbody⟩ := hmany
        cases hbody
        rcases eval_both_cases h with ⟨hfirst, -⟩ | ⟨e, -, hrest⟩
        · exact checkpoint_eq_of_eval_either hfirst
        · cases matched_of_eval_many hrest
      · exact absurd (IsChain.both fun body hbody => hmany ⟨body, hbody⟩) hp
  | either first second => exact checkpoint_eq_of_eval_either h
  | many body => cases matched_of_eval_many h
  | absent body => exact checkpoint_eq_of_eval_absent h
  | rule r body => exact checkpoint_eq_of_captureMatch h
  | text body => exact checkpoint_eq_of_captureMatch h
  | memo r body =>
      rcases eval_memo_cases h with ⟨known, -, hreplay⟩ | ⟨e, hcapture, rfl⟩
      · cases known with
        | failed =>
            cases hreplay
            rfl
        | matched stop tokens => cases hreplay
      · have hback : e.checkpoint = c.checkpoint := checkpoint_eq_of_captureMatch hcapture
        exact hback
  | action a => cases h
  | call r => exact hcallee r c d hp h

/-- A rule that is no plain chain puts its failures back. -/
theorem Grammar.checkpoint_eq_of_run {depth : Nat} {r : Rule} (hr : ¬ (Pattern.call r).IsChain g)
    (h : g.run depth r c = some (false, d)) : d.checkpoint = c.checkpoint := by
  induction depth generalizing r c d with
  | zero => cases h
  | succ depth ih =>
      have hbody : ¬ (g r).IsChain g := fun hchain => hr (.call hchain)
      exact Pattern.checkpoint_eq_of_eval (fun r c d hr h => ih hr h) hbody h

end putBack

/-! ## Sessions -/

section sessions

variable {source : Array Char} {capacity : Nat} {s : Session}

/-- In a session the cursor stays within bounds, and so do the checkpoints that it can go back
to. -/
theorem Session.Reached.inBounds (hs : s.Reached source capacity) :
    s.cursor.source = source ∧ s.cursor.InBounds ∧
      ∀ k ∈ s.saved, k.position ≤ source.size ∧ k.tokenCount ≤ s.cursor.log.size := by
  induction hs with
  | start => exact ⟨rfl, Cursor.inBounds_ofChars _ _, by simp⟩
  | @tried s g depth p sights matched c hs h ih =>
      obtain ⟨hsource, hbounds, hsaved⟩ := ih
      have hkeeps := (p.moves_watch (g.moves_watch depth) _ _ _ _ h).keeps hbounds
      refine ⟨hkeeps.source_eq.trans hsource, hkeeps.inBounds, fun k hk => ?_⟩
      obtain ⟨hposition, hcount⟩ := hsaved k hk
      exact ⟨hposition, hcount.trans hkeeps.size_le⟩
  | save hs ih =>
      obtain ⟨hsource, hbounds, hsaved⟩ := ih
      refine ⟨hsource, hbounds, fun k hk => ?_⟩
      rcases List.mem_cons.1 hk with rfl | hk
      · exact ⟨hsource ▸ hbounds.position_le, hbounds.tokenCount_le⟩
      · exact hsaved k hk
  | back hs hk ih =>
      obtain ⟨hsource, hbounds, hsaved⟩ := ih
      obtain ⟨hposition, hcount⟩ := hsaved _ hk
      exact ⟨hsource, ⟨hcount, hsource ▸ hposition, hbounds.recalls⟩, hsaved⟩
  | enter symbol hs ih =>
      obtain ⟨hsource, hbounds, -⟩ := ih
      exact ⟨hsource, hbounds.enter symbol, by simp⟩
  | @commit s hs ih =>
      obtain ⟨hsource, hbounds, hsaved⟩ := ih
      have hsize : s.cursor.commit.log.size = s.cursor.tokenCount := by
        show (s.cursor.log.trim s.cursor.tokenCount).size = _
        rw [← Log.length_toList, Log.toList_trim, List.length_take, Log.length_toList]
        exact Nat.min_eq_left hbounds.tokenCount_le
      refine ⟨hsource, ⟨hsize.ge, hbounds.position_le, hbounds.recalls⟩, fun k hk => ?_⟩
      obtain ⟨hmem, hcount⟩ := List.mem_filter.1 hk
      have hle : k.tokenCount ≤ s.cursor.tokenCount := by simpa using hcount
      exact ⟨(hsaved k hmem).1, hle.trans hsize.ge⟩

end sessions

/-! ## Purity -/

/-- What an attempt at a pattern leaves as it was, from `c` to `d`. -/
structure PureAttempt (g : Grammar) (p : Pattern) (c : Cursor) (matched : Bool) (d : Cursor) :
    Prop where
  /-- The source is the same. -/
  source_eq : d.source = c.source
  /-- Captures entered on the way were left. -/
  depth_eq : d.depth = c.depth
  /-- So were the rules. -/
  openRules_eq : d.openRules = c.openRules
  /-- The slots that were live still hold the tokens that were live. -/
  live_eq : d.log.between 0 c.tokenCount = c.liveTokens
  /-- The position only goes on. -/
  position_le : c.position ≤ d.position
  /-- It stays within the source. -/
  position_le_size : d.position ≤ d.source.size
  /-- No token that was live is dropped. -/
  tokenCount_le : c.tokenCount ≤ d.tokenCount
  /-- A failure is put back, unless the pattern is a plain chain. -/
  put_back : matched = false → ¬ p.IsChain g → d.checkpoint = c.checkpoint
  /-- Looking ahead moves nothing, whatever is found. -/
  ahead : ∀ body, p = .absent body ∨ p = .peek body → d.checkpoint = c.checkpoint
  /-- Repetitions and optional patterns match. -/
  matches_anyway : ∀ body, p = .many body ∨ p = .optional body → matched = true

/-- Any attempt at any pattern is pure, from every state that a session gets into. -/
theorem backtracking_is_pure {source : Array Char} {capacity : Nat} {s : Session}
    (hs : s.Reached source capacity) {g : Grammar} {depth : Nat} {p : Pattern} {matched : Bool}
    {d : Cursor} (h : p.eval (g.run depth) s.cursor = some (matched, d)) :
    s.cursor.position ≤ source.size ∧ PureAttempt g p s.cursor matched d := by
  obtain ⟨hsource, hbounds, -⟩ := hs.inBounds
  obtain ⟨sights, hmoves⟩ := exists_moves_of_eval h
  have hkeeps := hmoves.keeps hbounds
  refine ⟨hsource ▸ hbounds.position_le, hkeeps.source_eq, hkeeps.depth_eq, hkeeps.openRules_eq, ?_,
    hkeeps.position_le, hkeeps.inBounds.position_le, hkeeps.tokenCount_le, ?_, ?_, ?_⟩
  · rw [Cursor.liveTokens, Log.between_zero, Log.between_zero]
    exact hkeeps.live_eq
  · intro hm hp
    subst hm
    exact Pattern.checkpoint_eq_of_eval (fun r c d hr h => g.checkpoint_eq_of_run hr h) hp h
  · rintro body (rfl | rfl)
    · exact checkpoint_eq_of_eval_absent h
    · exact checkpoint_eq_of_eval_absent h
  · rintro body (rfl | rfl)
    · exact matched_of_eval_many h
    · exact matched_of_eval_optional h

/-- A chain that fails stays where it stopped, with what it recorded; a sequence tried from there is
put back to there. -/
theorem backtracking_is_pure_after_chain : ∃ s d, Session.Reached #['a', 'b', 'c'] 1 s ∧
    s.cursor.checkpoint = ⟨1, 1, 0⟩ ∧
    (Pattern.sequence [.text .any, .memo .name .any, .any]).eval (Grammar.run (fun _ => .succeed) 1)
      s.cursor =
      some (false, d) ∧
    d.log.size = 3 ∧ d.checkpoint = ⟨1, 1, 0⟩ := by
  have hs : Session.Reached #['a', 'b', 'c'] 1 _ :=
    .tried .start (show (Pattern.both (.memo .name .any)
      (.char 'x')).watch (Grammar.watch (fun _ => .succeed) 1) _
      = some (_, false, _) from rfl)
  obtain ⟨-, hpure⟩ := backtracking_is_pure hs
    (show (Pattern.sequence [.text .any, .memo .name .any, .any]).eval
      (Grammar.run (fun _ => .succeed) 1) _
      = some (false, _) from rfl)
  have hchain : ¬ (Pattern.sequence [.text .any, .memo .name .any, .any]).IsChain fun _ =>
      .succeed := by
    rintro ⟨⟩
  exact ⟨_, _, hs, rfl, rfl, rfl, hpure.put_back rfl hchain⟩

end RiftLang
