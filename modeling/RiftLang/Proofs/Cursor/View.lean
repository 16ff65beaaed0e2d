import Mathlib.Tactic.Linarith
import RiftLang.Cursor

/-!
# What matching can see of a cursor

A cursor keeps its tokens in slots that abandoned branches overwrite, and its frontier as a number
of slots together with the tokens displaced from them. Neither shows from outside.

* `View` — what shows: position, depth, live tokens, open rules and frontier. `Cursor.view` reads it
  off.
* `MemoTable.known?`, `MemoTable.note` — reading and extending a memory, each with what the other
  says of it.
* `Cursor.Sound` — live tokens and frontier refer to slots that were written.
* `view_look`, `view_emit`, `view_restore`, … — each operation on cursors, said of the view. The
  point of `view_emit` is that the frontier does not change when its slots are overwritten.
-/

namespace RiftLang

/-! ## Memories -/

namespace MemoTable

variable {T : MemoTable} {r q : Rule} {k p : Nat} {memo known : Memo}

/-- What a memory knows of a rule at an offset. -/
def known? (T : MemoTable) (r : Rule) (k : Nat) : Option Memo :=
  (T.getD k []).lookup r

/-- The memory with an outcome put into it. -/
def note (T : MemoTable) (r : Rule) (k : Nat) (memo : Memo) : MemoTable :=
  T.modify k ((r, memo) :: ·)

/-- Putting an outcome into a memory adds no offset to it. -/
@[simp] theorem size_note : (T.note r k memo).size = T.size :=
  Array.size_modify

/-- What was put into the memory is known. -/
theorem known?_note_self (hk : k < T.size) : (T.note r k memo).known? r k = some memo := by
  unfold known? note
  simp only [Array.getD_eq_getD_getElem?, Array.getElem?_modify]
  simp [hk]

/-- All else is known as before. -/
theorem known?_note_of_ne (h : ¬ (p = k ∧ q = r)) :
    (T.note r k memo).known? q p = T.known? q p := by
  unfold known? note
  simp only [Array.getD_eq_getD_getElem?, Array.getElem?_modify]
  by_cases hp : k = p
  · subst hp
    have hq : q ≠ r := fun hq => h ⟨rfl, hq⟩
    rcases T[k]? with _ | known
    · simp
    · simp [List.lookup_cons, beq_eq_false_iff_ne.2 hq]
  · simp [hp]

/-- There is no place for what lies behind the end of the memory. -/
theorem note_of_size_le (hk : T.size ≤ k) : T.note r k memo = T := by
  apply Array.ext_getElem?
  intro i
  unfold note
  rw [Array.getElem?_modify]
  split
  · next hi => simp [← hi, hk]
  · rfl

/-- What is known after an outcome was put into the memory is that outcome, or was known before. -/
theorem known?_note_eq_some (h : (T.note r k memo).known? q p = some known) :
    (p = k ∧ q = r ∧ known = memo) ∨ T.known? q p = some known := by
  by_cases hself : p = k ∧ q = r
  · obtain ⟨rfl, rfl⟩ := hself
    rcases Nat.lt_or_ge p T.size with hp | hp
    · rw [known?_note_self hp] at h
      exact .inl ⟨rfl, rfl, (Option.some.inj h).symm⟩
    · rw [note_of_size_le hp] at h
      exact .inr h
  · rw [known?_note_of_ne hself] at h
    exact .inr h

end MemoTable

/-! ## The slots of a log -/

namespace Log

variable {log : Log} {i : Nat}

/-- The tokens of a range of slots, as a part of the list of all tokens. -/
theorem between_eq (log : Log) (i j : Nat) :
    log.between i j = (log.toList.drop i).take (j - i) := by
  simp [between, toList, List.extract_eq_take_drop]

/-- The first slots of a log. -/
theorem between_zero (log : Log) (n : Nat) : log.between 0 n = log.toList.take n := by
  simp [between_eq]

/-- Writing to a slot keeps the slots before it and makes it the last of the next stretch. -/
theorem take_succ_toList_record (h : i ≤ log.size) (t : Token) :
    (log.record i t).toList.take (i + 1) = log.toList.take i ++ [t] := by
  rcases h.lt_or_eq with hlt | heq
  · have hi : i < log.toList.length := by simpa using hlt
    rw [toList_record_of_lt hlt, List.take_succ_eq_append_getElem (by simpa using hi),
      List.take_set_of_le le_rfl, List.getElem_set_self]
  · rw [toList_record_of_le heq.ge, List.take_of_length_le (by simp [heq]),
      List.take_of_length_le (by simp [heq])]

/-- Writing a slot leaves the slots before it as they are. -/
theorem take_toList_record (h : i ≤ log.size) (t : Token) :
    (log.record i t).toList.take i = log.toList.take i := by
  have hlen : (log.toList.take i).length = i := by
    rw [List.length_take, length_toList, Nat.min_eq_left h]
  have htake := congrArg (List.take i) (take_succ_toList_record h t)
  rw [List.take_append_of_le_length hlen.ge, List.take_take, List.take_take] at htake
  simpa using htake

/-- Writing a slot reaches as far as that slot, and drops none. -/
theorem size_record (h : i ≤ log.size) (t : Token) :
    (log.record i t).size = max log.size (i + 1) := by
  rcases h.lt_or_eq with hlt | heq
  · rw [← length_toList, toList_record_of_lt hlt]
    simp only [List.length_set, length_toList]
    omega
  · rw [← length_toList, toList_record_of_le heq.ge]
    simp only [List.length_append, length_toList, List.length_singleton]
    omega

end Log

/-! ## Frontiers -/

namespace Frontier

/-- Has an offset as far as this one been looked at? -/
def HasReached (frontier : Option Frontier) (offset : Nat) : Prop :=
  ∃ f, frontier = some f ∧ offset ≤ f.offset

/-- The frontier after a look at `offset`, where these rules were open, innermost first, and these
tokens live. Only a look past every earlier one counts. -/
def reach (frontier : Option Frontier) (offset : Nat) (openRules : List OpenRule)
    (tokens : List Token) : Option Frontier :=
  match frontier with
  | none => some ⟨offset, openRules.reverse, tokens⟩
  | some f => if f.offset < offset then some ⟨offset, openRules.reverse, tokens⟩ else some f

variable {frontier : Option Frontier} {offset : Nat}

/-- A look no farther than an earlier one changes nothing. -/
theorem reach_of_hasReached (h : HasReached frontier offset) (rs : List OpenRule)
    (ts : List Token) :
    reach frontier offset rs ts = frontier := by
  obtain ⟨f, rfl, hk⟩ := h
  exact if_neg (Nat.not_lt.2 hk)

/-- What was looked at stays looked at. -/
theorem HasReached.reach (h : HasReached frontier offset) (k : Nat) (rs : List OpenRule)
    (ts : List Token) : HasReached (Frontier.reach frontier k rs ts) offset := by
  obtain ⟨f, rfl, hf⟩ := h
  by_cases hk : f.offset < k
  · exact ⟨⟨k, rs.reverse, ts⟩, if_pos hk, by simp only; omega⟩
  · exact ⟨f, if_neg hk, hf⟩

/-- An offset looked at is looked at. -/
theorem hasReached_reach (frontier : Option Frontier) (k : Nat) (rs : List OpenRule)
    (ts : List Token) : HasReached (reach frontier k rs ts) k := by
  rcases frontier with _ | f
  · exact ⟨_, rfl, Nat.le_refl k⟩
  · by_cases hk : f.offset < k
    · exact ⟨⟨k, rs.reverse, ts⟩, if_pos hk, Nat.le_refl k⟩
    · exact ⟨f, if_neg hk, Nat.not_lt.1 hk⟩

end Frontier

/-! ## Views -/

/-- What shows of a cursor besides its source and what it remembers. -/
@[ext]
structure View where
  /-- The offset of the next character. -/
  position : Nat
  /-- The number of open captures. -/
  depth : Nat
  /-- The live tokens, in emission order. -/
  live : List Token
  /-- The open rules, innermost first. -/
  openRules : List OpenRule
  /-- The path to the farthest offset looked at, once there is one. -/
  frontier : Option Frontier
  deriving DecidableEq, Repr

namespace Cursor

/-- What shows of a cursor. -/
def view (c : Cursor) : View where
  position := c.position
  depth := c.depth
  live := c.liveTokens
  openRules := c.openRules
  frontier := c.snapshot.map (·.frontier c.log)

/-- The farthest offset is that of the frontier that shows, or zero if there is none. -/
theorem farthest_eq_view (c : Cursor) : c.farthest = c.view.frontier.elim 0 (·.offset) := by
  unfold farthest view
  rcases c.snapshot with _ | s <;> rfl

/-- The frontier of a cursor is the one that shows, or the empty one if nothing was looked at. -/
theorem frontier_eq_view (c : Cursor) : c.frontier = c.view.frontier.getD .empty := by
  unfold frontier view
  rcases c.snapshot with _ | s <;> rfl

/-- Live tokens and frontier refer to slots that were written. -/
structure Sound (c : Cursor) : Prop where
  /-- The live slots were written. -/
  tokenCount_le : c.tokenCount ≤ c.log.size
  /-- The slots of the snapshot were written. -/
  kept_le : ∀ s, c.snapshot = some s → s.kept ≤ c.log.size

/-- The position shows as it is. -/
@[simp] theorem position_view (c : Cursor) : c.view.position = c.position := rfl

/-- The depth shows as it is. -/
@[simp] theorem depth_view (c : Cursor) : c.view.depth = c.depth := rfl

/-- The open rules show as they are, innermost first. -/
@[simp] theorem openRules_view (c : Cursor) : c.view.openRules = c.openRules := rfl

/-- The live tokens show as the first slots of the log, as many as are live. -/
theorem live_view (c : Cursor) : c.view.live = c.log.toList.take c.tokenCount :=
  Log.between_zero ..

/-- The live tokens are as many as the cursor counts. -/
theorem Sound.length_live {c : Cursor} (h : c.Sound) : c.view.live.length = c.tokenCount := by
  rw [live_view, List.length_take, Log.length_toList]
  exact Nat.min_eq_left h.tokenCount_le

/-- A fresh cursor has no live tokens and no frontier, so it refers to no slot. -/
theorem sound_ofChars (source : Array Char) (capacity : Nat) : (ofChars source capacity).Sound where
  tokenCount_le := Nat.zero_le _
  kept_le := by simp [ofChars]

/-- Of a fresh cursor nothing shows, whatever was reserved for it. -/
theorem view_ofChars (source : Array Char) (capacity : Nat) :
    (ofChars source capacity).view = ⟨0, 0, [], [], none⟩ := by
  simp [view, ofChars, liveTokens, Log.between_zero]

/-! ## Looking -/

/-- A look reaches the position, with the rules open and the tokens live there. -/
theorem view_look (c : Cursor) :
    c.look.view =
      { c.view with
        frontier := Frontier.reach c.view.frontier c.position c.openRules c.view.live } := by
  unfold look isAhead Frontier.reach view
  rcases hsnap : c.snapshot with _ | s
  · simp [Snapshot.frontier, liveTokens]
  · by_cases hs : s.offset < c.position
    · simp [Snapshot.frontier, liveTokens, hs]
    · simp [Snapshot.frontier, hs, hsnap]

/-- A look takes the live tokens into the frontier, and these are written slots. -/
theorem Sound.look {c : Cursor} (h : c.Sound) : c.look.Sound := by
  unfold Cursor.look
  split
  · exact ⟨h.tokenCount_le, fun s hs => by cases hs; exact h.tokenCount_le⟩
  · exact h

/-- Reading a character changes nothing of what is remembered. -/
theorem memos_step (c : Cursor) (test : Char → Bool) : (c.step test).2.memos = c.memos := by
  have hlook : c.look.memos = c.memos := by
    unfold look
    split <;> rfl
  unfold step
  dsimp only
  split
  · split <;> exact hlook
  · exact hlook

/-! ## Recording -/

/-- Saving the tokens of a snapshot from a slot on does not change what the snapshot shows. -/
theorem frontier_preserve {s : Snapshot} {log : Log} {i : Nat} (hi : i ≤ log.size)
    (t : Token) : (s.preserve log i).frontier (log.record i t) = s.frontier log := by
  by_cases h : i < s.kept
  · have hsplit : log.toList.take i ++ (log.toList.drop i).take (s.kept - i)
        = log.toList.take s.kept := by
      rw [← List.take_add, Nat.add_sub_cancel' h.le]
    simp only [Snapshot.preserve, h, if_true, Snapshot.frontier, Log.between_zero,
      Log.take_toList_record hi]
    rw [Log.between_eq, ← List.append_assoc, hsplit]
  · have hprefix : (log.record i t).toList.take s.kept = log.toList.take s.kept := by
      have := congrArg (List.take s.kept) (Log.take_toList_record hi t)
      simpa [List.take_take, Nat.min_eq_left (Nat.not_lt.1 h)] using this
    simp [Snapshot.preserve, h, Snapshot.frontier, Log.between_zero, hprefix]

/-- The frontier stays as it was when a token is recorded, also over one of its slots. -/
theorem frontier_emit {c : Cursor} (h : c.tokenCount ≤ c.log.size) (t : Token) :
    (c.emit t).view.frontier = c.view.frontier := by
  show ((c.snapshot.map _).map _) = c.snapshot.map _
  rcases hs : c.snapshot with _ | s
  · rfl
  · exact congrArg some (frontier_preserve h t)

/-- Recording a token adds it to the live ones, and the frontier stays as it was. -/
theorem Sound.view_emit {c : Cursor} (h : c.Sound) (t : Token) :
    (c.emit t).view = { c.view with live := c.view.live ++ [t] } := by
  have hlive : (c.emit t).view.live = c.view.live ++ [t] := by
    rw [live_view, live_view]
    exact Log.take_succ_toList_record h.tokenCount_le t
  calc (c.emit t).view
      = ⟨c.position, c.depth, (c.emit t).view.live, c.openRules, (c.emit t).view.frontier⟩ := rfl
    _ = { c.view with live := c.view.live ++ [t] } :=
      by rw [hlive, frontier_emit h.tokenCount_le]; rfl

/-- Recording a token keeps references to written slots: what the frontier needs of the slot is
saved first. -/
theorem Sound.emit {c : Cursor} (h : c.Sound) (t : Token) : (c.emit t).Sound := by
  have hsize : (c.emit t).log.size = max c.log.size (c.tokenCount + 1) :=
    Log.size_record h.tokenCount_le t
  refine ⟨?_, fun s hs => ?_⟩
  · rw [hsize]
    exact Nat.le_max_right _ _
  · obtain ⟨s₀, hs₀, rfl⟩ := Option.map_eq_some_iff.1 (show c.snapshot.map _ = some s from hs)
    have hkept := h.kept_le s₀ hs₀
    rw [hsize]
    unfold Snapshot.preserve
    split
    · show c.tokenCount ≤ _
      omega
    · omega

/-- Recording a token leaves the source as it is. -/
@[simp] theorem source_emit (c : Cursor) (t : Token) : (c.emit t).source = c.source := rfl

/-- Recording a token leaves what is remembered as it is. -/
@[simp] theorem memos_emit (c : Cursor) (t : Token) : (c.emit t).memos = c.memos := rfl

/-- Recording a token leaves the depth as it is. -/
@[simp] theorem depth_emit (c : Cursor) (t : Token) : (c.emit t).depth = c.depth := rfl

/-- Recording several tokens leaves what is remembered as it is. -/
theorem memos_foldl_emit (tokens : List Token) (c : Cursor) :
    (tokens.foldl (fun c t => c.emit { t with depth := t.depth + c.depth }) c).memos = c.memos := by
  induction tokens generalizing c with
  | nil => rfl
  | cons t tokens ih => exact ih _

/-! ## Going back -/

/-- Going back to a number of tokens drops the live tokens past it. -/
theorem view_restore (c : Cursor) {saved : Checkpoint} (h : saved.tokenCount ≤ c.tokenCount) :
    (c.restore saved).view =
      { c.view with
        position := saved.position
        depth := saved.depth
        live := c.view.live.take saved.tokenCount } := by
  have hlive : (c.restore saved).view.live = c.view.live.take saved.tokenCount := by
    rw [live_view, live_view, List.take_take, Nat.min_eq_left h]
    rfl
  calc (c.restore saved).view
      = ⟨saved.position, saved.depth, (c.restore saved).view.live, c.openRules,
          c.view.frontier⟩ := rfl
    _ = _ := by rw [hlive]; rfl

/-- Going back keeps references to written slots, if the saved number of live tokens does not exceed
them. -/
theorem Sound.restore {c : Cursor} (h : c.Sound) {saved : Checkpoint}
    (hs : saved.tokenCount ≤ c.log.size) : (c.restore saved).Sound :=
  ⟨hs, h.kept_le⟩

/-! ## Captures -/

/-- Leaving a capture closes the rule that entering it opened. -/
theorem leave_of_openRules_eq {c d : Cursor} {s : Symbol} (h : d.openRules = (c.enter s).openRules)
    (entry : Checkpoint) (matched : Bool) :
    d.leave s entry matched =
      if matched then
        (true, { d with openRules := c.openRules, depth := d.depth - 1 }.emit
          ⟨s, entry.position, d.position, d.depth - 1⟩)
      else
        (false, { d with openRules := c.openRules }.restore entry) := by
  cases s <;> simp [leave, Symbol.rule?, h, enter]

/-! ## Remembered attempts -/

/-- A fresh cursor remembers nothing at any offset. -/
theorem getD_memos_ofChars (source : Array Char) (capacity k : Nat) :
    (ofChars source capacity).memos.getD k [] = [] := by
  simp only [ofChars, Array.getD_eq_getD_getElem?, Array.getElem?_replicate]
  split <;> rfl

/-- What is remembered after an outcome was noted is that outcome, or was remembered before. -/
theorem lookup_note {c : Cursor} {r r' : Rule} {k k' : Nat} {memo memo' : Memo}
    (h : ((c.note r k memo).memos.getD k' []).lookup r' = some memo') :
    (k' = k ∧ r' = r ∧ memo' = memo) ∨ (c.memos.getD k' []).lookup r' = some memo' :=
  MemoTable.known?_note_eq_some h

end Cursor

end RiftLang
