import RiftLang.Token.Walk

/-!
# Walking step by step

The walk of the layers, one item at a time. A walker keeps a place in every layer, up to which the
layer is read, and the tokens whose children it is listing. It reads no further than it has to:
whether a token is a leaf is found out when the token is listed, and the next child is read when the
next item is asked for.

* `Walker` — where a walk stands. `Walker.next` gives the next item, as a `WalkEvent` that says
  which token it is about.
* `Walker.visits` — all items to come, each with the tokens that are open around it.
* `Walker.left`, `Walker.toDo` — why a walk has an end, whatever the tokens are. Tokens are read
  once, and an item uses up a token that was read, the gap before it or the gap behind its children.

Whatever reads past the last layer gives `none`.
-/

namespace RiftLang

/-- What a walker hands out: a token, or the text of one that none of its children claims. -/
inductive WalkEvent where
  | token (t : IndexedToken) (isLeaf : Bool)
  | gap (gap : Gap) (start stop level : Nat)
  deriving DecidableEq, Repr, Inhabited

namespace WalkEvent

/-- The token of an event that is about one. -/
def token? : WalkEvent → Option IndexedToken
  | token t _ => some t
  | gap .. => none

/-- The item that an event is listed as. -/
def item : WalkEvent → WalkItem
  | token t isLeaf => .ofToken t isLeaf
  | gap g start stop level => ⟨.gap g, start, stop, level, true⟩

/-- The item of a token is at the depth of the token. -/
@[simp] theorem level_item {e : WalkEvent} {t : IndexedToken} (h : e.token? = some t) :
    e.item.level = t.depth := by
  cases e with
  | token u isLeaf =>
    obtain rfl := Option.some.inj h
    rfl
  | gap => cases h

end WalkEvent

/-- A token whose children are being listed. -/
structure WalkFrame where
  /-- The token. -/
  token : IndexedToken
  /-- Up to where its text is claimed by children. -/
  claimed : Nat
  /-- Whether a child was listed. -/
  hadChild : Bool
  deriving DecidableEq, Repr, Inhabited

/-- The kind of a gap before the next child. -/
def WalkFrame.gap (f : WalkFrame) : Gap :=
  if f.hadChild then .between else .leading

/-- A walk under way. -/
structure Walker where
  /-- The layers. -/
  layers : Layers
  /-- How many tokens of each layer were read. -/
  read : Array Nat
  /-- The tokens whose children are being listed, innermost first. -/
  frames : List WalkFrame
  /-- A child that was read, but is listed only after the gap before it. -/
  pending : Option IndexedToken
  deriving DecidableEq, Repr, Inhabited

namespace Walker

/-- A walk that has not begun. -/
def start (l : Layers) : Walker where
  layers := l
  read := Array.replicate l.count 0
  frames := []
  pending := none

/-! ## Reading -/

/-- The next token of a layer. -/
def peek? (w : Walker) (depth : Nat) : Option IndexedToken := do
  let position ← w.read[depth]?
  w.layers.get? depth position

/-- Reads one token of a layer. -/
def advance (w : Walker) (depth : Nat) : Option Walker :=
  if depth < w.read.size then some { w with read := w.read.modify depth (· + 1) } else none

/-- What is unread of a layer. -/
def remaining (w : Walker) (depth : Nat) : List IndexedToken :=
  (w.layers.layer depth).drop (w.read.getD depth 0)

/-- The number of unread tokens in the first `n` layers. -/
def leftIn (w : Walker) : (n : Nat) → Nat
  | 0 => 0
  | n + 1 => w.leftIn n + (w.remaining n).length

/-- The number of unread tokens. -/
def left (w : Walker) : Nat :=
  w.leftIn w.layers.count

section reading

variable {w w' : Walker} {depth : Nat} {t : IndexedToken}

/-- The token that is seen next at a depth is the first that remains there. -/
theorem head?_remaining (h : w.peek? depth = some t) : (w.remaining depth).head? = some t := by
  obtain ⟨position, hread, hget⟩ := Option.bind_eq_some_iff.1 h
  have hposition : w.read.getD depth 0 = position :=
    by rw [Array.getD_eq_getD_getElem?, hread, Option.getD_some]
  rw [remaining, hposition, List.head?_drop, Layers.layer, Array.getElem?_toList]
  exact hget

/-- Where a token is seen there is a layer. -/
theorem lt_count_of_peek? (h : w.peek? depth = some t) : depth < w.layers.count := by
  obtain ⟨position, -, hget⟩ := Option.bind_eq_some_iff.1 h
  rcases Nat.lt_or_ge depth w.layers.count with hlt | hge
  · exact hlt
  · rw [Layers.get?, Array.getD_eq_getD_getElem?, Array.getElem?_eq_none hge] at hget
    cases hget

/-- Moving past a token raises the place in its layer, and changes nothing else. -/
theorem advance_eq_some (h : w.advance depth = some w') :
    depth < w.read.size ∧ { w with read := w.read.modify depth (· + 1) } = w' := by
  simpa [advance] using h

/-- Reading a token takes it from what is unread of its layer, and leaves the other layers as they
are. -/
theorem remaining_advance (h : w.advance depth = some w') (k : Nat) :
    w'.remaining k = if k = depth then (w.remaining k).tail else w.remaining k := by
  obtain ⟨hsize, rfl⟩ := advance_eq_some h
  by_cases hk : k = depth
  · subst hk
    have hposition : (w.read.modify k (· + 1)).getD k 0 = w.read.getD k 0 + 1 := by
      simp only [Array.getD_eq_getD_getElem?, Array.getElem?_modify, if_true,
        Array.getElem?_eq_getElem hsize, Option.map_some, Option.getD_some]
    rw [if_pos rfl, remaining, hposition, remaining, List.tail_drop]
  · simp [remaining, hk, Array.getD_eq_getD_getElem?, Array.getElem?_modify, Ne.symm hk]

/-- Moving past a token leaves one less in its layer, and as many in the others. -/
theorem leftIn_advance (hpeek : w.peek? depth = some t) (h : w.advance depth = some w') (n : Nat) :
    w'.leftIn n + (if depth < n then 1 else 0) = w.leftIn n := by
  have hlength : (w.remaining depth).tail.length + 1 = (w.remaining depth).length := by
    obtain ⟨rest, hrest⟩ := List.head?_eq_some_iff.1 (head?_remaining hpeek)
    rw [hrest]
    rfl
  induction n with
  | zero => rfl
  | succ n ih =>
      rw [leftIn, leftIn, ← ih, remaining_advance h]
      by_cases hn : n = depth
      · subst hn
        simp only [if_true, Nat.lt_succ_self, Nat.lt_irrefl, if_false]
        omega
      · have hlt : depth < n + 1 ↔ depth < n := by omega
        simp only [hn, hlt, if_false]
        omega

/-- One token less is unread once one was read. -/
theorem left_advance (hpeek : w.peek? depth = some t) (h : w.advance depth = some w') :
    w'.left < w.left := by
  have hlayers : w'.layers = w.layers := by
    obtain ⟨-, rfl⟩ := advance_eq_some h
    rfl
  have hleft := leftIn_advance hpeek h w.layers.count
  rw [if_pos (lt_count_of_peek? hpeek)] at hleft
  rw [left, left, hlayers]
  exact Nat.lt_of_succ_le (Nat.le_of_eq hleft)

end reading

/-- The walker `w'` is `w` after some tokens were read. -/
structure ReadsOn (w w' : Walker) : Prop where
  /-- There is no more left to read. -/
  left_le : w'.left ≤ w.left
  /-- The same children are being listed. -/
  frames_eq : w'.frames = w.frames
  /-- The same child is pending. -/
  pending_eq : w'.pending = w.pending

namespace ReadsOn

variable {w w' w'' : Walker} {depth : Nat}

/-- A walker that does nothing reads on. -/
theorem refl (w : Walker) : w.ReadsOn w :=
  ⟨Nat.le_refl _, rfl, rfl⟩

/-- Reading on twice is reading on. -/
theorem trans (h : w.ReadsOn w') (h' : w'.ReadsOn w'') : w.ReadsOn w'' :=
  ⟨Nat.le_trans h'.left_le h.left_le, h'.frames_eq.trans h.frames_eq,
    h'.pending_eq.trans h.pending_eq⟩

/-- Moving past a token is reading on. -/
theorem advance {t : IndexedToken} (hpeek : w.peek? depth = some t)
    (h : w.advance depth = some w') :
    w.ReadsOn w' := by
  have hleft := left_advance hpeek h
  obtain ⟨-, rfl⟩ := advance_eq_some h
  exact ⟨Nat.le_of_lt hleft, rfl, rfl⟩

end ReadsOn

/-- Passes over the tokens at the front of a layer that are `mine`, each with everything that is
nested in it. There is an unread token less for every token that is passed over, so this ends. -/
def skipFrom (w : Walker) (mine : IndexedToken → Bool) (depth : Nat) :
    Option { w' : Walker // w.ReadsOn w' } :=
  match hpeek : w.peek? depth with
  | none => some ⟨w, .refl w⟩
  | some t =>
    if mine t then
      match hadvance : w.advance depth with
      | none => none
      | some w₁ => do
        -- both calls are made with less to read
        have _hless := left_advance hpeek hadvance
        let ⟨w₂, h₂⟩ ← w₁.skipFrom t.isParentOf (depth + 1)
        have _hle := h₂.left_le
        let ⟨w₃, h₃⟩ ← w₂.skipFrom mine depth
        return ⟨w₃, ((ReadsOn.advance hpeek hadvance).trans h₂).trans h₃⟩
    else
      some ⟨w, .refl w⟩
termination_by w.left

/-- Passes over tokens: the walker that `skipFrom` gives. -/
def skip (w : Walker) (mine : IndexedToken → Bool) (depth : Nat) : Option Walker :=
  (w.skipFrom mine depth).map (·.val)

/-- Passing over tokens, one token at a time. -/
theorem skip_eq (w : Walker) (mine : IndexedToken → Bool) (depth : Nat) :
    w.skip mine depth = match w.peek? depth with
      | none => some w
      | some t =>
        if mine t then do
          let w ← w.advance depth
          let w ← w.skip t.isParentOf (depth + 1)
          w.skip mine depth
        else
          some w := by
  rw [skip, skipFrom.eq_def]
  split
  · rename_i hpeek
    simp only [hpeek, Option.map_some]
  · rename_i t hpeek
    simp only [hpeek]
    split
    · split
      · rename_i hadvance
        simp only [hadvance, Option.bind_eq_bind, Option.map_none, Option.bind_none]
      · rename_i w₁ hadvance
        simp only [hadvance, skip, Option.bind_eq_bind, Option.pure_def, Option.map_eq_bind,
          Option.bind_assoc, Option.bind_some]
        rfl
    · rfl

/-- Passing over tokens is reading on. -/
theorem ReadsOn.of_skip {w w' : Walker} {mine : IndexedToken → Bool} {depth : Nat}
    (h : w.skip mine depth = some w') : w.ReadsOn w' := by
  obtain ⟨⟨_, hreads⟩, -, rfl⟩ := Option.map_eq_some_iff.1 h
  exact hreads

/-- Is the token nested in the parent, if there is one? -/
def belongs (parent? : Option IndexedToken) (t : IndexedToken) : Bool :=
  parent?.all (·.isParentOf t)

/-- Passes over tokens without width that belong to the parent, with everything nested in them. -/
def skipHidden (w : Walker) (parent? : Option IndexedToken) (depth : Nat) : Option Walker :=
  w.skip (fun t => t.isEmpty && belongs parent? t) depth

/-- Reads the next token of a layer that has width and belongs to the parent. -/
def nextChild (w : Walker) (parent? : Option IndexedToken) (depth : Nat) :
    Option (Option IndexedToken × Walker) := do
  let w ← w.skipHidden parent? depth
  match w.peek? depth with
  | none => return (none, w)
  | some t =>
    if belongs parent? t then
      let w ← w.advance depth
      return (some t, w)
    else
      return (none, w)

/-- Has the token a child? -/
def hasChild (w : Walker) (t : IndexedToken) : Option (Bool × Walker) := do
  let w ← w.skipHidden (some t) (t.depth + 1)
  return ((w.peek? (t.depth + 1)).any t.isParentOf, w)

/-- Looking for a child is reading on, and leaves less to read where one is found. -/
theorem ReadsOn.of_nextChild {w w' : Walker} {parent? child? : Option IndexedToken} {depth : Nat}
    (h : w.nextChild parent? depth = some (child?, w')) :
    w.ReadsOn w' ∧ (child?.isSome → w'.left < w.left) := by
  obtain ⟨w₁, hskip, h⟩ := Option.bind_eq_some_iff.1 h
  have hreads := ReadsOn.of_skip hskip
  split at h
  · cases h
    exact ⟨hreads, nofun⟩
  · rename_i t hpeek
    split at h
    · obtain ⟨w₂, hadvance, h⟩ := Option.bind_eq_some_iff.1 h
      cases h
      exact ⟨hreads.trans (.advance hpeek hadvance),
        fun _ => Nat.lt_of_lt_of_le (left_advance hpeek hadvance) hreads.left_le⟩
    · cases h
      exact ⟨hreads, nofun⟩

/-! ## Walking -/

/-- What comes of asking for an item. -/
inductive Turn where
  | done
  | gives (event : WalkEvent) (w : Walker)
  deriving Repr, Inhabited

/-- Lists a token, and goes inside if it has children. -/
def list (w : Walker) (t : IndexedToken) : Option Turn := do
  let (hasChild, w) ← w.hasChild t
  if hasChild then
    return .gives (.token t false) { w with frames := ⟨t, t.start, false⟩ :: w.frames }
  else
    return .gives (.token t true) w

/-- The next item, where no child is pending. A token whose children are all listed is left. -/
def resume (w : Walker) : Option Turn :=
  match hframes : w.frames with
  | [] => do
    let (root?, w) ← w.nextChild none 0
    match root? with
    | none => return .done
    | some root => w.list root
  | f :: outer => do
    let level := f.token.depth + 1
    let (child?, w) ← w.nextChild (some f.token) level
    match child? with
    | some child =>
      let w := { w with frames := { f with claimed := child.stop, hadChild := true } :: outer }
      if f.claimed < child.start then
        return .gives (.gap f.gap f.claimed child.start level) { w with pending := some child }
      else
        w.list child
    | none =>
      let w := { w with frames := outer }
      if f.claimed < f.token.stop then
        return .gives (.gap .trailing f.claimed f.token.stop level) w
      else
        w.resume
termination_by w.frames.length
decreasing_by simp [hframes]

section resuming

variable {w : Walker} {f : WalkFrame} {outer : List WalkFrame}

/-- With nothing open, a walker looks for the next outermost token, and is done if there is none. -/
theorem resume_nil (h : w.frames = []) : w.resume = (w.nextChild none 0).bind fun (root?, w') =>
    match root? with
    | none => some .done
    | some root => w'.list root := by
  rw [resume.eq_def]
  split
  · rfl
  · rename_i hframes
    rw [h] at hframes
    cases hframes

/-- Inside a token, a walker looks for its next child. If there is none, it leaves the token, with
the gap after the last child. -/
theorem resume_cons (h : w.frames = f :: outer) :
    w.resume = (w.nextChild (some f.token) (f.token.depth + 1)).bind fun (child?, w') =>
      match child? with
      | some child =>
        let w' := { w' with frames := { f with claimed := child.stop, hadChild := true } :: outer }
        if f.claimed < child.start then
          some (.gives (.gap f.gap f.claimed child.start (f.token.depth + 1))
            { w' with pending := some child })
        else
          w'.list child
      | none =>
        let w' := { w' with frames := outer }
        if f.claimed < f.token.stop then
          some (.gives (.gap .trailing f.claimed f.token.stop (f.token.depth + 1)) w')
        else
          w'.resume := by
  rw [resume.eq_def]
  split
  · rename_i hframes
    rw [h] at hframes
    cases hframes
  · rename_i hframes
    obtain ⟨rfl, rfl⟩ := List.cons.inj (hframes.symm.trans h)
    rfl

end resuming

/-- The next item. -/
def next (w : Walker) : Option Turn :=
  match w.pending with
  | some t => { w with pending := none }.list t
  | none => w.resume

/-! ## An end to the walk -/

/-- A bound on the number of items to come. A token that is unread can be listed between two gaps, a
pending one before a gap, and there can be a gap where a token is left. -/
def toDo (w : Walker) : Nat :=
  3 * w.left + 2 * w.pending.toList.length + w.frames.length

/-- How much is left to read depends on the places in the layers alone. -/
@[simp] theorem left_set (w : Walker) (frames : List WalkFrame) (pending : Option IndexedToken) :
    ({ w with frames := frames, pending := pending } : Walker).left = w.left := by
  have hleft : ∀ n, ({ w with frames := frames, pending := pending } : Walker).leftIn n =
      w.leftIn n := by
    intro n
    induction n with
    | zero => rfl
    | succ n ih => exact congrArg (· + (w.remaining n).length) ih
  exact hleft w.layers.count

section ending

variable {w w' : Walker} {t : IndexedToken} {e : WalkEvent}

/-- A token that is opened may bring one more item, the gap behind its children. -/
theorem toDo_list (h : w.list t = some (.gives e w')) : w'.toDo ≤ w.toDo + 1 := by
  obtain ⟨⟨has, w₁⟩, hhas, h⟩ := Option.bind_eq_some_iff.1 h
  obtain ⟨w₂, hskip, hhas⟩ := Option.bind_eq_some_iff.1 hhas
  obtain ⟨-, rfl⟩ := Prod.mk.inj (Option.some.inj hhas)
  obtain ⟨hleft, hframes, hpending⟩ := ReadsOn.of_skip hskip
  dsimp only at h
  split at h
  all_goals
    obtain ⟨-, rfl⟩ := Turn.gives.inj (Option.some.inj h)
    simp only [toDo, left_set, hframes, hpending, List.length_cons]
    omega

/-- With each item that is handed out less is left to do, so a walk comes to an end. -/
theorem toDo_resume (h : w.resume = some (.gives e w')) : w'.toDo < w.toDo := by
  induction hn : w.frames.length generalizing w with
  | zero =>
      rw [resume_nil (List.length_eq_zero_iff.1 hn)] at h
      obtain ⟨⟨root?, w₁⟩, hchild, h⟩ := Option.bind_eq_some_iff.1 h
      obtain ⟨⟨-, hframes, hpending⟩, hless⟩ := ReadsOn.of_nextChild hchild
      rcases root? with _ | root
      · cases h
      · have hlist := toDo_list h
        replace hless := hless rfl
        simp only [toDo, hframes, hpending] at *
        omega
  | succ n ih =>
      obtain ⟨f, outer, hframes⟩ :=
        List.exists_cons_of_length_pos (Nat.lt_of_lt_of_eq n.succ_pos hn.symm)
      rw [resume_cons hframes] at h
      obtain ⟨⟨child?, w₁⟩, hchild, h⟩ := Option.bind_eq_some_iff.1 h
      obtain ⟨⟨hle, hframes₁, hpending⟩, hless⟩ := ReadsOn.of_nextChild hchild
      rcases child? with _ | child
      · dsimp only at h
        split at h
        · obtain ⟨-, rfl⟩ := Turn.gives.inj (Option.some.inj h)
          simp only [toDo, left_set, hpending, hframes, List.length_cons]
          omega
        · have hlater := ih h (Nat.succ.inj ((congrArg List.length hframes).symm.trans hn))
          simp only [toDo, left_set, hpending, hframes, List.length_cons] at *
          omega
      · replace hless := hless rfl
        dsimp only at h
        split at h
        · obtain ⟨-, rfl⟩ := Turn.gives.inj (Option.some.inj h)
          simp only [toDo, left_set, hframes, List.length_cons, Option.toList_some, List.length_nil]
          omega
        · have hlist := toDo_list h
          simp only [toDo, left_set, hpending, hframes, List.length_cons] at *
          omega

/-- There is an item less to come for every item that is handed out. -/
theorem toDo_next (h : w.next = some (.gives e w')) : w'.toDo < w.toDo := by
  rw [next] at h
  split at h
  · rename_i t hpending
    have hlist := toDo_list h
    simp only [toDo, left_set, hpending, Option.toList_none, Option.toList_some, List.length_nil,
      List.length_singleton] at *
    omega
  · exact toDo_resume h

end ending

end Walker

/-- An item of a walk, and the tokens whose children are being listed once it is handed out,
innermost first. -/
structure Visit where
  /-- The item. -/
  event : WalkEvent
  /-- The tokens, that of the item among them if it has children. -/
  path : List IndexedToken
  deriving DecidableEq, Repr, Inhabited

namespace Walker

/-- All items to come. -/
def visits (w : Walker) : Option (List Visit) :=
  match _hnext : w.next with
  | none => none
  | some .done => some []
  | some (.gives event w') => do
    let rest ← w'.visits
    return ⟨event, w'.frames.map (·.token)⟩ :: rest
termination_by w.toDo
decreasing_by exact toDo_next _hnext

/-- All items to come, as they are listed. -/
def items (w : Walker) : Option (List WalkItem) :=
  w.visits.map (·.map (·.event.item))

end Walker

end RiftLang
