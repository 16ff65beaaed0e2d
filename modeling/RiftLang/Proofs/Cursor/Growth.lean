import RiftLang.Proofs.Cursor.Sights
import RiftLang.Proofs.Recognition

/-!
# What any pattern records

A pattern over any grammar, whatever it remembers under which rule, records the tokens of a
derivation: a match and a failure alike move the cursor on by a derivation, and the tokens recorded
since are those of the derivation.

* `Cursor.Steady` — what is remembered of a match are the tokens of a derivation.
* `Cursor.Records` — a derivation was recorded between two cursors.
* `Moves.exists_records` — whatever moves a match is made of, a derivation was recorded.
* `exists_tokens_of_rule` — the committed tokens of a rule that matches on a fresh cursor are those
  of a derivation, and `exists_tokens_of_recognize` — so are the tokens of a recognised source.
-/

namespace RiftLang

variable {c c' c'' : Cursor} {d e : Derivation}

namespace Cursor

/-- What is remembered of a match at an offset are the tokens of a derivation that begins there. -/
structure Steady (c : Cursor) : Prop where
  /-- Live tokens and frontier refer to slots that were written. -/
  sound : c.Sound
  /-- What is remembered of a match are the tokens of a derivation, at depths from zero on. -/
  recalls : ∀ r k stop tokens, (c.memos.getD k []).lookup r = some (.matched stop tokens) →
    ∃ d : Derivation, stop = k + d.width ∧ tokens = d.tokens k 0

/-- From `c` to `c'` a derivation was recorded after the tokens that were live. -/
structure Records (c : Cursor) (d : Derivation) (c' : Cursor) : Prop where
  /-- What is remembered are still derivations. -/
  steady : c'.Steady
  /-- Captures entered on the way were left. -/
  depth_eq : c'.depth = c.depth
  /-- The cursor has moved past the text of the derivation. -/
  position_eq : c'.position = c.position + d.width
  /-- The tokens of the derivation come after those that were live. -/
  live_eq : c'.view.live = c.view.live ++ d.tokens c.position c.depth

/-- A fresh cursor remembers nothing, so nothing that is not a derivation. -/
theorem steady_ofChars (source : Array Char) (capacity : Nat) :
    (ofChars source capacity).Steady where
  sound := sound_ofChars source capacity
  recalls r k stop tokens h := by
    rw [getD_memos_ofChars] at h
    cases h

/-- Where the cursor stands and what is open there do not matter for what it holds. -/
theorem Steady.moved (hc : c.Steady) (position depth : Nat) (openRules : List OpenRule) :
    { c with position := position, depth := depth, openRules := openRules }.Steady :=
  ⟨⟨hc.sound.tokenCount_le, hc.sound.kept_le⟩, hc.recalls⟩

/-- Recording a derivation does not lower the number of live tokens. -/
theorem Records.tokenCount_le (h : c.Records d c') (hc : c.Sound) :
    c.tokenCount ≤ c'.tokenCount := by
  rw [← hc.length_live, ← h.steady.sound.length_live, h.live_eq, List.length_append]
  exact Nat.le_add_right _ _

/-! ## Steps -/

/-- Nothing was recorded where nothing changed. -/
theorem Steady.records_nothing (hc : c.Steady) : c.Records (.leaf []) c where
  steady := hc
  depth_eq := rfl
  position_eq := rfl
  live_eq := (List.append_nil _).symm

/-- Two derivations recorded one after the other make one derivation. -/
theorem Records.trans (h : c.Records d c') (h' : c'.Records e c'') :
    c.Records (d.append e) c'' where
  steady := h'.steady
  depth_eq := h'.depth_eq.trans h.depth_eq
  position_eq := by rw [h'.position_eq, h.position_eq, Derivation.width_append, Nat.add_assoc]
  live_eq :=
    by rw [h'.live_eq, h.live_eq, h.position_eq, h.depth_eq, List.append_assoc, Derivation.tokens]

/-- A look changes nothing of what is remembered. -/
theorem Steady.look (hc : c.Steady) : c.look.Steady := by
  refine ⟨hc.sound.look, ?_⟩
  unfold Cursor.look
  split
  · exact hc.recalls
  · exact hc.recalls

/-- A look records the derivation of no text and no tokens. -/
theorem Steady.records_look (hc : c.Steady) : c.Records (.leaf []) c.look where
  steady := hc.look
  depth_eq := by
    rw [← depth_view, view_look]
    rfl
  position_eq := by
    rw [← position_view, view_look]
    rfl
  live_eq := by
    rw [view_look]
    exact (List.append_nil _).symm

/-- A look at a character records it if it passes the test. -/
theorem Steady.exists_records_step (hc : c.Steady) (test : Char → Bool) :
    ∃ cs, c.Records (.leaf cs) (c.step test).2 := by
  have hlook := hc.records_look
  unfold Cursor.step
  dsimp only
  split
  · next ch _ =>
    split
    · refine ⟨[ch], hlook.steady.moved _ _ _, hlook.depth_eq, ?_, hlook.live_eq⟩
      show c.look.position + 1 = _
      rw [hlook.position_eq]
      rfl
    · exact ⟨[], hlook⟩
  · exact ⟨[], hlook⟩

/-- Recording a token changes nothing of what is remembered. -/
theorem Steady.emit (hc : c.Steady) (t : Token) : (c.emit t).Steady :=
  ⟨hc.sound.emit t, hc.recalls⟩

/-- Recording an action is recording the derivation of that action. -/
theorem Steady.records_act (hc : c.Steady) (a : Action) : c.Records (.action a) (c.act a) where
  steady := hc.emit _
  depth_eq := rfl
  position_eq := rfl
  live_eq := by
    rw [act, hc.sound.view_emit]
    rfl

/-- Going back to where a derivation began drops it. -/
theorem Records.restore (h : c.Records d c') (hc : c.Sound) :
    c.Records (.leaf []) (c'.restore c.checkpoint) := by
  have hcount : c.checkpoint.tokenCount ≤ c'.tokenCount := h.tokenCount_le hc
  refine ⟨⟨?_, h.steady.recalls⟩, rfl, rfl, ?_⟩
  · exact h.steady.sound.restore (hcount.trans h.steady.sound.tokenCount_le)
  · rw [view_restore c' hcount, h.live_eq]
    show (c.view.live ++ _).take c.tokenCount = c.view.live ++ []
    rw [← hc.length_live, List.take_left' rfl, List.append_nil]

/-! ## Captures -/

/-- Entering a capture changes nothing of what is remembered. -/
theorem Steady.enter (hc : c.Steady) (s : Symbol) : (c.enter s).Steady :=
  hc.moved _ _ _

/-- Leaving a capture that matched records it. -/
theorem Records.leave_true {s : Symbol} (h : (c.enter s).Records d c') :
    c.Records (.capture s d) (c'.leave s c.checkpoint true).2 := by
  -- the cursor with the capture closed, before its token is written
  let closed : Cursor :=
    { c' with openRules := (c'.leave s c.checkpoint true).2.openRules, depth := c'.depth - 1 }
  have hsteady : closed.Steady := h.steady.moved _ _ _
  have hdepth : c'.depth - 1 = c.depth := by
    rw [h.depth_eq]
    rfl
  have hleave : (c'.leave s c.checkpoint true).2 =
      closed.emit ⟨s, c.position, c'.position, c'.depth - 1⟩ := rfl
  rw [hleave]
  refine ⟨hsteady.emit _, hdepth, h.position_eq, ?_⟩
  rw [hsteady.sound.view_emit]
  show c'.view.live ++ _ = _
  rw [h.live_eq, hdepth, h.position_eq, Derivation.tokens, ← List.append_assoc]
  rfl

/-- Leaving a capture that failed drops what was recorded in it. -/
theorem Records.leave_false {s : Symbol} (h : (c.enter s).Records d c') (hc : c.Steady) :
    c.Records (.leaf []) (c'.leave s c.checkpoint false).2 := by
  have hrestore := h.restore (hc.enter s).sound
  have hleave : (c'.leave s c.checkpoint false).2 =
      { c'.restore c.checkpoint with openRules := (c'.leave s c.checkpoint false).2.openRules } :=
        rfl
  rw [hleave]
  exact ⟨hrestore.steady.moved _ _ _, rfl, rfl, hrestore.live_eq⟩

/-! ## Remembered attempts -/

/-- Recording the tokens of a derivation in a row, each at the current depth. -/
theorem Steady.foldl_emit (hc : c.Steady) (tokens : List Token) :
    let c' := tokens.foldl (fun c t => c.emit { t with depth := t.depth + c.depth }) c
    c'.Steady ∧ c'.depth = c.depth ∧ c'.view.live =
      c.view.live ++ tokens.map (.deepen c.depth) := by
  induction tokens generalizing c with
  | nil => exact ⟨hc, rfl, (List.append_nil _).symm⟩
  | cons t tokens ih =>
      obtain ⟨hsteady, hdepth, hlive⟩ := ih (hc.emit (t.deepen c.depth))
      refine ⟨hsteady, hdepth, hlive.trans ?_⟩
      rw [hc.sound.view_emit, List.map_cons, ← List.append_cons]
      rfl

/-- Repeating a remembered match records its derivation. -/
theorem Steady.records_replay (hc : c.Steady) (d : Derivation) :
    c.Records d (c.replay (.matched (c.position + d.width) (d.tokens c.position 0))).2 := by
  obtain ⟨hsteady, hdepth, hlive⟩ := hc.foldl_emit (d.tokens c.position 0)
  refine ⟨hsteady.moved _ _ _, hdepth, rfl, ?_⟩
  have htokens : (d.tokens c.position 0).map (.deepen c.depth) = d.tokens c.position c.depth := by
    rw [Derivation.map_deepen_tokens, Nat.zero_add]
  rw [← htokens]
  exact hlive

/-- Repeating a remembered attempt records a derivation. -/
theorem Steady.exists_records_replay (hc : c.Steady) {r : Rule} {memo : Memo}
    (h : c.remembered? r = some memo) :
    ∃ d, c.Records d (c.replay memo).2 := by
  cases memo with
  | failed => exact ⟨_, hc.records_nothing⟩
  | matched stop tokens =>
      obtain ⟨d, rfl, rfl⟩ := hc.recalls r c.position stop tokens h
      exact ⟨d, hc.records_replay d⟩

/-- What was recorded since is the derivation. -/
theorem Records.between_eq (h : c.Records d c') (hc : c.Sound) :
    c'.log.between c.tokenCount c'.tokenCount = d.tokens c.position c.depth := by
  rw [Log.between_eq, ← List.drop_take, ← live_view, h.live_eq, ← hc.length_live]
  exact List.drop_left' rfl

/-- What is remembered of an attempt is its derivation. -/
theorem Records.memoSince_eq (h : c.Records d c') (hc : c.Sound) :
    c'.memoSince c.checkpoint true = .matched (c.position + d.width) (d.tokens c.position 0) := by
  have htokens := h.between_eq hc
  have hdepth : (fun t : Token => { t with depth := t.depth - c.depth }) ∘ Token.deepen c.depth =
      id := by
    funext t
    simp [Token.deepen]
  have hdeepen : d.tokens c.position c.depth = (d.tokens c.position 0).map (.deepen c.depth) := by
    rw [Derivation.map_deepen_tokens, Nat.zero_add]
  simp only [memoSince, if_true, checkpoint, htokens, hdeepen, List.map_map, hdepth, List.map_id,
    h.position_eq]

/-- A memory may take in any outcome whose tokens are those of a derivation from the offset where it
is put. -/
theorem Steady.note (hc : c.Steady) (r : Rule) (k : Nat) {memo : Memo}
    (hmemo : ∀ stop tokens, memo = .matched stop tokens →
      ∃ d : Derivation, stop = k + d.width ∧ tokens = d.tokens k 0) : (c.note r k memo).Steady := by
  refine ⟨⟨hc.sound.tokenCount_le, hc.sound.kept_le⟩, fun r' k' stop tokens h => ?_⟩
  rcases lookup_note h with ⟨rfl, -, hnew⟩ | hold
  · exact hmemo stop tokens hnew.symm
  · exact hc.recalls r' k' stop tokens hold

/-- An attempt is remembered as it was recorded. -/
theorem Records.remember (h : c.Records d c') (hc : c.Sound) (r : Rule) (matched : Bool) :
    c.Records d (c'.remember r c.checkpoint matched) := by
  have hsteady : (c'.remember r c.checkpoint matched).Steady := by
    refine h.steady.note r c.position fun stop tokens hmemo => ?_
    cases matched with
    | true =>
      rw [h.memoSince_eq hc] at hmemo
      cases hmemo
      exact ⟨d, rfl, rfl⟩
    | false => cases hmemo
  exact ⟨hsteady, h.depth_eq, h.position_eq, h.live_eq⟩

/-! ## Moves -/

/-- Whatever moves lead from one cursor to another, a derivation was recorded. -/
theorem Moves.exists_records {sights : List Sight} (h : c.Moves sights c') (hc : c.Steady) :
    ∃ d, c.Records d c' := by
  induction h with
  | stay => exact ⟨_, hc.records_nothing⟩
  | step test =>
      obtain ⟨cs, hcs⟩ := hc.exists_records_step test
      exact ⟨_, hcs⟩
  | act a => exact ⟨_, hc.records_act a⟩
  | replay h => exact hc.exists_records_replay h
  | trans _ _ ih ih' =>
      obtain ⟨d, hd⟩ := ih hc
      obtain ⟨e, he⟩ := ih' hd.steady
      exact ⟨_, hd.trans he⟩
  | restore _ ih =>
      obtain ⟨d, hd⟩ := ih hc
      exact ⟨_, hd.restore hc.sound⟩
  | capture symbol matched _ ih =>
      obtain ⟨d, hd⟩ := ih (hc.enter symbol)
      cases matched with
      | true => exact ⟨_, hd.leave_true⟩
      | false => exact ⟨_, hd.leave_false hc⟩
  | remember r matched _ ih =>
      obtain ⟨d, hd⟩ := ih hc
      exact ⟨d, hd.remember hc.sound r matched⟩

end Cursor

/-- Where a rule matches on a fresh cursor, with any pattern as its body, the committed tokens are
those of a derivation of the rule, which is as wide as the cursor has moved. -/
theorem exists_tokens_of_rule {g : Grammar} {depth : Nat} {r : Rule} {body : Pattern}
    {source : String} {capacity : Nat}
    (h : (Pattern.rule r body).eval (g.run depth) (.ofString source capacity) = some (true, c)) :
    ∃ d : Derivation, c.position = d.width ∧
      c.commit.log.toList = (Derivation.capture (.rule r) d).tokens 0 0 := by
  have hsteady : (Cursor.ofString source capacity).Steady := Cursor.steady_ofChars _ capacity
  obtain ⟨inner, b, hbody, hleave⟩ := captureMatch_eq_some h
  obtain ⟨sights, hmoves⟩ := exists_moves_of_eval hbody
  obtain ⟨d, hd⟩ := hmoves.exists_records (hsteady.enter (.rule r))
  cases inner with
  | false => cases hleave
  | true =>
      have hrecords := hd.leave_true
      rw [hleave] at hrecords
      refine ⟨d, hrecords.position_eq.trans (Nat.zero_add _), ?_⟩
      have hlive : c.view.live = (Derivation.capture (.rule r) d).tokens 0 0 := by
        rw [hrecords.live_eq, Cursor.ofString, Cursor.view_ofChars]
        rfl
      rw [← hlive, Cursor.live_view]
      exact Log.toList_trim c.log c.tokenCount

/-- The tokens of a recognised source are those of a derivation of a source, which is as wide as the
source. -/
theorem exists_tokens_of_recognize {config : Config} {source : String} {r : Recognized}
    (h : recognize config source = .ok r) :
    ∃ d : Derivation, r = ⟨source.toList.toArray,
      (Derivation.capture (.rule .source) d).tokens 0 0⟩ ∧
      d.width = source.length ∧ 0 < d.width := by
  obtain ⟨d, hd, rfl⟩ := recognize_eq_ok_iff.1 h
  obtain ⟨body, -, rfl⟩ := parses_call_iff.1 hd
  have hchars : source.toList = body.chars ++ [] := hd.eq_append
  have hpos : 0 < (Derivation.capture (.rule .source) body).width := Peg.width_pos_of_parses hd rfl
  rw [List.append_nil] at hchars
  refine ⟨body, rfl, ?_, hpos⟩
  rw [Derivation.width, ← hchars, String.length_toList]

end RiftLang
