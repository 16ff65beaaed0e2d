import RiftLang.Proofs.Cursor.Forest

/-!
# The live tokens of a match

The live tokens of a cursor lie in one flat row, whatever was recorded and dropped before them. Cut
where the captures that are open were entered, they are a stack of forests in post-order.

* `OpenCapture.openRule?` — the open rule that a capture stands for.
* `IsStacked` — live tokens, cut at the open captures.
* `Cursor.Stands` — the invariant of a match: depth, open rules and live tokens are those of the
  captures that are open.
* `Tries.stands` — it holds wherever a pattern is tried in the course of a match, since all that
  happens in between plants trees at the current depth.
* `live_tokens_are_stacked` — so it holds where any pattern that a match on a fresh cursor tries
  begins or ends.
-/

namespace RiftLang

/-- The rule that is open while the capture is, if the capture is of one. -/
def OpenCapture.openRule? (o : OpenCapture) : Option OpenRule :=
  o.symbol.rule?.map fun r => ⟨r, o.entry.position, o.entry.depth⟩

/-- The tokens up to this position, cut at the number of tokens at which each of the captures,
innermost first, was entered: before the outermost there are trees at depth 0, and inside each there
are trees one deeper than it. -/
def IsStacked : (captures : List OpenCapture) → (position : Nat) → List Token → Prop
  | [], position, tokens => IsForest 0 0 position tokens
  | o :: outer, position, tokens =>
    o.entry.depth = outer.length ∧ o.entry.tokenCount ≤ tokens.length ∧
      IsStacked outer o.entry.position (tokens.take o.entry.tokenCount) ∧
      IsForest (o.entry.depth + 1) o.entry.position position (tokens.drop o.entry.tokenCount)

namespace IsStacked

variable {captures : List OpenCapture} {position position' : Nat} {tokens later : List Token}

/-- Trees at the current depth grow inside the innermost capture. -/
theorem append (h : IsStacked captures position tokens)
    (hlater : IsForest captures.length position position' later) :
    IsStacked captures position' (tokens ++ later) := by
  cases captures with
  | nil => exact IsForest.append h hlater
  | cons o outer =>
      obtain ⟨hdepth, hcount, houter, hinside⟩ := h
      have htake : (tokens ++ later).take o.entry.tokenCount = tokens.take o.entry.tokenCount :=
        List.take_append_of_le_length hcount
      have hdrop : (tokens ++ later).drop o.entry.tokenCount =
          tokens.drop o.entry.tokenCount ++ later :=
        List.drop_append_of_le_length hcount
      refine ⟨hdepth, ?_, ?_, ?_⟩
      · rw [List.length_append]
        omega
      · rw [htake]
        exact houter
      · rw [hdrop]
        apply hinside.append
        rw [hdepth]
        exact hlater

/-- A capture that is entered begins a forest of its own. -/
theorem enter (h : IsStacked captures position tokens) (symbol : Symbol) :
    IsStacked (⟨symbol, position, tokens.length, captures.length⟩ :: captures) position tokens := by
  refine ⟨rfl, Nat.le_refl _, ?_, ?_⟩
  · rw [List.take_length]
    exact h
  · rw [List.drop_length]
    exact .nil (Nat.le_refl _)

/-- No token ends past the current position. -/
theorem stop_le (h : IsStacked captures position tokens) : ∀ t ∈ tokens, t.stop ≤ position := by
  induction captures generalizing position tokens with
  | nil => exact fun t ht => (IsForest.bounds h t ht).2.2.1
  | cons o outer ih =>
      obtain ⟨-, -, houter, hinside⟩ := h
      intro t ht
      rw [← List.take_append_drop o.entry.tokenCount tokens] at ht
      rcases List.mem_append.1 ht with ht | ht
      · exact (ih houter t ht).trans hinside.low_le_high
      · exact (hinside.bounds t ht).2.2.1

end IsStacked

namespace Cursor

variable {c d e : Cursor} {captures : List OpenCapture} {w : Derivation}

/-- The cursor stands inside these captures, innermost first. -/
structure Stands (d : Cursor) (captures : List OpenCapture) : Prop where
  /-- The cursor stands within source and log. -/
  inBounds : d.InBounds
  /-- What is remembered are trees. -/
  rooted : d.Rooted
  /-- The depth is the number of captures. -/
  depth_eq : d.depth = captures.length
  /-- The open rules are those of the captures. -/
  openRules_eq : d.openRules = captures.filterMap OpenCapture.openRule?
  /-- Cut at the captures, the live tokens are forests. -/
  isStacked : IsStacked captures d.position d.liveTokens

/-- A fresh cursor stands inside no capture. -/
theorem stands_ofString (source : String) (capacity : Nat) :
    (ofString source capacity).Stands [] where
  inBounds := inBounds_ofChars _ _
  rooted := rooted_ofChars _ _
  depth_eq := rfl
  openRules_eq := rfl
  isStacked := .nil (Nat.le_refl 0)

/-- Between captures that are entered and left, trees grow at the current depth. -/
theorem Stands.of_plants (h : d.Stands captures) (hw : d.Plants w e) (hkeeps : d.Keeps e) :
    e.Stands captures where
  inBounds := hkeeps.inBounds
  rooted := hw.rooted
  depth_eq := hw.records.depth_eq.trans h.depth_eq
  openRules_eq := hkeeps.openRules_eq.trans h.openRules_eq
  isStacked := by
    have hforest := Derivation.isForest_tokens hw.isPlain d.position d.depth
    rw [← hw.records.position_eq, h.depth_eq] at hforest
    have hlive : e.liveTokens = d.liveTokens ++ w.tokens d.position d.depth := hw.records.live_eq
    rw [hlive, h.depth_eq]
    exact h.isStacked.append hforest

/-- A cursor that enters a capture stands inside it, with nothing recorded there yet. -/
theorem Stands.enter (h : d.Stands captures) (symbol : Symbol) :
    (d.enter symbol).Stands (⟨symbol, d.checkpoint⟩ :: captures) where
  inBounds := h.inBounds.enter symbol
  rooted := h.rooted.enter symbol
  depth_eq := congrArg Nat.succ h.depth_eq
  openRules_eq := by
    have hopen := h.openRules_eq
    cases symbol with
    | rule r => exact congrArg (⟨r, d.position, d.depth⟩ :: ·) hopen
    | text | action _ => exact hopen
  isStacked := by
    have hcount : d.liveTokens.length = d.tokenCount := h.rooted.steady.sound.length_live
    have hentry : d.checkpoint = ⟨d.position, d.liveTokens.length, captures.length⟩ := by
      rw [hcount, ← h.depth_eq]
      rfl
    rw [hentry]
    exact h.isStacked.enter symbol

end Cursor

/-! ## In the course of a match -/

section course

variable {g : Grammar} {p q body : Pattern} {c d e : Cursor} {captures : List OpenCapture}
  {matched : Bool}

/-- What a pattern has planted by its end lies in the same captures as its beginning. -/
theorem Ends.stands (h : Ends g q d matched e) (hd : d.Stands captures) : e.Stands captures := by
  obtain ⟨w, hw⟩ := h.exists_plants hd.rooted
  exact hd.of_plants hw (h.keeps hd.inBounds)

/-- The rounds of a repetition plant in the captures in which the repetition began. -/
theorem Rounds.stands (h : Rounds g body d e) (hd : d.Stands captures) : e.Stands captures := by
  induction h with
  | start => exact hd
  | next _ hbody _ ih => exact hbody.stands ih

/-- Wherever a pattern is tried, the cursor stands inside the captures that are open. -/
theorem Tries.stands (h : Tries g p c captures q d) (hc : c.Stands []) : d.Stands captures := by
  induction h with
  | self => exact hc
  | first _ ih | preferred _ ih | absent _ ih | call _ ih => exact ih
  | second _ ha ih => exact ha.stands ih
  | otherwise _ ha ih =>
      -- what the first alternative has recorded is dropped
      obtain ⟨w, hw⟩ := ha.exists_plants ih.rooted
      exact ih.of_plants (hw.restore ih.rooted) ((ha.keeps ih.inBounds).restore ih.inBounds)
  | round _ hrounds ih => exact hrounds.stands ih
  | rule _ ih => exact ih.enter _
  | text _ ih => exact ih.enter _
  | memo _ _ ih => exact ih.enter _

/-- Wherever a match passes, the cursor stands inside the captures that are open there. -/
theorem Passes.stands (h : Passes g p c captures d) (hc : c.Stands []) : d.Stands captures := by
  cases h with
  | begin h => exact h.stands hc
  | finish h hq => exact hq.stands (h.stands hc)

end course

/-- Wherever a match of any pattern over any grammar on a fresh cursor passes, the live tokens, cut
where the open captures were entered, are forests in post-order, and none ends past the position.
From there a rule that matches, tried anew or repeated from memory, adds one tree: its own token is
the last, and all others are deeper.

The moments meant are those of `Passes`: the beginning and the end of each pattern that the match
tries. They lie between two operations on the cursor; of the steps inside one operation, such as the
tokens written one by one as a remembered rule is repeated, nothing is said. -/
theorem live_tokens_are_stacked {g : Grammar} {p : Pattern} {source : String} {capacity : Nat}
    {captures : List OpenCapture} {d : Cursor}
    (h : Passes g p (.ofString source capacity) captures d) :
    d.depth = captures.length ∧ d.openRules = captures.filterMap OpenCapture.openRule? ∧
    IsStacked captures d.position d.liveTokens ∧ (∀ t ∈ d.liveTokens, t.stop ≤ d.position) ∧
    ∀ r body e, Ends g (.rule r body) d true e ∨ Ends g (.memo r body) d true e →
      ∃ inside, e.liveTokens =
        d.liveTokens ++ inside ++ [⟨.rule r, d.position, e.position, d.depth⟩] ∧
        IsForest (d.depth + 1) d.position e.position inside ∧ ∀ t ∈ inside, d.depth < t.depth := by
  have hd : d.Stands captures := h.stands (Cursor.stands_ofString source capacity)
  refine ⟨hd.depth_eq, hd.openRules_eq, hd.isStacked, hd.isStacked.stop_le, fun r body e hr => ?_⟩
  obtain ⟨w, hw⟩ := Ends.exists_tree hr hd.rooted
  have hinside := Derivation.isForest_tokens hw.isPlain.2 d.position (d.depth + 1)
  have hstop : e.position = d.position + w.width := hw.records.position_eq
  have hlive : e.liveTokens = d.liveTokens ++ (Derivation.capture (.rule r) w).tokens
      d.position d.depth :=
    hw.records.live_eq
  rw [← hstop] at hinside
  refine ⟨w.tokens d.position (d.depth + 1), ?_, hinside, fun t ht => (hinside.bounds t ht).2.2.2⟩
  rw [hlive, Derivation.tokens, ← hstop, List.append_assoc]

/-- An expression whose first alternative gives up after a digit: the second repeats the digit from
memory. -/
theorem live_tokens_are_stacked_repeated :
    let digit := Pattern.memo .digit (.one Char.isDigit)
    let p := Pattern.rule .expr (.either (.both digit .fail) (.both digit (.action .attach)))
    ∃ d, Passes .rift p (.ofString "7" 4) [⟨.rule .expr, ⟨0, 0, 0⟩⟩] d ∧
      d.liveTokens = [⟨.rule .digit, 0, 1, 1⟩, ⟨.action .attach, 1, 1, 1⟩] ∧
      IsStacked [⟨.rule .expr, ⟨0, 0, 0⟩⟩] d.position d.liveTokens := by
  intro digit p
  have hopen : Tries .rift p (.ofString "7" 4) [⟨.rule .expr, ⟨0, 0, 0⟩⟩]
      (.either (.both digit .fail) (.both digit (.action .attach))) _ := .rule .self
  have hsecond : Tries .rift p (.ofString "7" 4) [⟨.rule .expr, ⟨0, 0, 0⟩⟩]
      (.both digit (.action .attach)) _ :=
    hopen.otherwise ⟨0, rfl⟩
  have hpasses : Passes .rift p (.ofString "7" 4) [⟨.rule .expr, ⟨0, 0, 0⟩⟩] _ :=
    .finish hsecond ⟨0, rfl⟩
  exact ⟨_, hpasses, by decide +kernel, (live_tokens_are_stacked hpasses).2.2.1⟩

end RiftLang
