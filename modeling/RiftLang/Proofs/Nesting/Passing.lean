import RiftLang.Proofs.Nesting.Reading
import RiftLang.Token.Walker

/-!
# A walker passes over tokens

Passing over tokens leaves the layers as the functions on what is unread of them do.

* `Unread.front?`, `passOver` — the first token of the first layer, and the layers without the
  tokens before one that is not to be passed over.
* `Walker.unread` — what a walker has not read. `Walker.Sound` — a walker that has a place in every
  layer.
* `Walker.Advances` — a walker has read from some layer on, and is as it was otherwise.
* `Walker.skipsAt` — so it is after passing over tokens; `Walker.exists_skipHidden` — and the same
  trees are to be read after passing over those without width.
-/

namespace RiftLang

/-! ## Layers from a token on -/

/-- The first token of the first layer. -/
def Unread.front? : Unread → Option IndexedToken
  | [] => none
  | layer :: _ => layer.head?

/-- Passes over the tokens at the front of the first layer that are `mine`, with all that is nested
in them, in at most `n` layers. -/
def passOver : (n : Nat) → (mine : IndexedToken → Bool) → Unread → Unread
  | 0, _, unread => unread
  | _ + 1, _, [] => []
  | n + 1, mine, layer :: below =>
    let (rest, below) := skipRun mine (skipNested n) layer below
    rest :: below

/-- Passing over what is nested in a token is passing over the tokens that it is a parent of. -/
theorem skipNested_eq_passOver (n : Nat) (parent : IndexedToken) (unread : Unread) :
    skipNested n parent unread = passOver n parent.isParentOf unread := by
  cases n <;> cases unread <;> rfl

section front

variable {n : Nat} {mine : IndexedToken → Bool} {t : IndexedToken} {layer : List IndexedToken}
  {below : Unread}

/-- A token that is to be passed over goes, with what is nested in it. -/
theorem passOver_cons_of_pos (h : mine t = true) :
    passOver (n + 1) mine ((t :: layer) :: below) =
      passOver (n + 1) mine (layer :: skipNested n t below) := by
  simp only [passOver, skipRun, h, if_true]

/-- Nothing is passed over behind a token that is not to be passed over. -/
theorem passOver_cons_of_neg (h : mine t = false) :
    passOver (n + 1) mine ((t :: layer) :: below) = (t :: layer) :: below := by
  simp [passOver, skipRun, h]

/-- What is passed over ends before a token that is not to be passed over. -/
theorem front?_passOver (layer : List IndexedToken) (below : Unread) :
    ∀ t ∈ Unread.front? (passOver (n + 1) mine (layer :: below)), mine t = false := by
  induction layer generalizing below with
  | nil => exact fun t ht => nomatch ht
  | cons t layer ih =>
      by_cases ht : mine t = true
      · rw [passOver_cons_of_pos ht]
        exact ih _
      · replace ht := eq_false_of_ne_true ht
        rw [passOver_cons_of_neg ht]
        rintro u ⟨⟩
        exact ht

/-- Tokens without width that are `mine`. -/
def hidden (mine : IndexedToken → Bool) (t : IndexedToken) : Bool :=
  t.isEmpty && mine t

/-- A token without width is passed over before trees are read, with what is nested in it. -/
theorem readTrees_cons_of_hidden (h : hidden mine t = true) :
    readTrees (n + 1) mine ((t :: layer) :: below) =
      readTrees (n + 1) mine (layer :: skipNested n t below) := by
  obtain ⟨hempty, hmine⟩ := Bool.and_eq_true_iff.1 h
  simp only [readTrees, readRun, hmine, hempty, if_true]

/-- A token that has width is read with the trees below it, and then its siblings. -/
theorem readTrees_cons_of_mine (hmine : mine t = true) (hempty : t.isEmpty = false) :
    readTrees (n + 1) mine ((t :: layer) :: below) =
      let (children, below) := readTrees n t.isParentOf below
      let (siblings, rest) := readTrees (n + 1) mine (layer :: below)
      (.node t children :: siblings, rest) := by
  simp [readTrees, readRun, hmine, hempty]

/-- Nothing is read before a token that is not `mine`. -/
theorem readTrees_of_front? {unread : Unread} (h : ∀ t ∈ unread.front?, mine t = false) :
    readTrees n mine unread = ([], unread) := by
  cases n with
  | zero => rfl
  | succ n =>
    rcases unread with _ | ⟨_ | ⟨t, layer⟩, below⟩
    · rfl
    · rfl
    · have ht : mine t = false := h t rfl
      simp [readTrees, readRun, ht]

/-- Passing over tokens without width first makes no difference to what is read. -/
theorem readTrees_passOver_hidden (n : Nat) (mine : IndexedToken → Bool) (unread : Unread) :
    readTrees n mine (passOver n (hidden mine) unread) = readTrees n mine unread := by
  rcases n with _ | n
  · rfl
  rcases unread with _ | ⟨layer, below⟩
  · rfl
  induction layer generalizing below with
  | nil => rfl
  | cons t layer ih =>
      by_cases ht : hidden mine t = true
      · rw [passOver_cons_of_pos ht, readTrees_cons_of_hidden ht]
        exact ih _
      · rw [passOver_cons_of_neg (eq_false_of_ne_true ht)]

variable {unread rest : Unread} {children siblings : List (Tree IndexedToken)}

/-- Where no tree is read, the layers begin with no token that is `mine`, unless it has no width. -/
theorem front?_of_readTrees_nil (hn : unread.length ≤ n)
    (hfront : ∀ t ∈ unread.front?, hidden mine t = false)
    (h : readTrees n mine unread = ([], rest)) :
    unread = rest ∧ ∀ t ∈ unread.front?, mine t = false := by
  have hmine : ∀ t ∈ unread.front?, mine t = false := by
    rcases unread with _ | ⟨_ | ⟨t, layer⟩, below⟩
    · exact fun t ht => nomatch ht
    · exact fun t ht => nomatch ht
    · rintro _ ⟨⟩
      by_contra ht
      replace ht := eq_true_of_ne_false ht
      have hempty : t.isEmpty = false := by simpa [hidden, ht] using hfront t rfl
      obtain ⟨m, rfl⟩ := Nat.exists_eq_succ_of_ne_zero (Nat.ne_zero_of_lt hn)
      rw [readTrees_cons_of_mine ht hempty] at h
      cases (Prod.mk.inj h).1
  rw [readTrees_of_front? hmine] at h
  exact ⟨(Prod.mk.inj h).2, hmine⟩

/-- Where trees are read, the layers begin with the root of the first, unless there are tokens
without width. -/
theorem exists_of_readTrees_cons (hfront : ∀ t ∈ unread.front?, hidden mine t = false)
    (h : readTrees n mine unread = (.node t children :: siblings, rest)) :
    ∃ m layer below below', n = m + 1 ∧ unread = (t :: layer) :: below ∧ mine t = true ∧
      readTrees m t.isParentOf below = (children, below') ∧
      readTrees n mine (layer :: below') = (siblings, rest) := by
  rcases n with _ | m
  · cases (Prod.mk.inj h).1
  rcases unread with _ | ⟨_ | ⟨u, layer⟩, below⟩
  · cases (Prod.mk.inj h).1
  · cases (Prod.mk.inj h).1
  · by_cases hu : mine u = true
    · have hempty : u.isEmpty = false := by simpa [hidden, hu] using hfront u rfl
      rw [readTrees_cons_of_mine hu hempty] at h
      obtain ⟨htrees, hrest⟩ := Prod.mk.inj h
      obtain ⟨hroot, hsiblings⟩ := List.cons.inj htrees
      obtain ⟨rfl, hchildren⟩ := Tree.node.inj hroot
      exact ⟨m, layer, below, _, rfl, rfl, hu, Prod.ext hchildren rfl, Prod.ext hsiblings hrest⟩
    · have hnone : ∀ t ∈ Unread.front? ((u :: layer) :: below), mine t = false := by
        rintro _ ⟨⟩
        exact eq_false_of_ne_true hu
      rw [readTrees_of_front? hnone] at h
      cases (Prod.mk.inj h).1

end front

namespace Walker

variable {w w' w'' : Walker} {depth n : Nat} {layer : List IndexedToken} {below rest rest' : Unread}
  {t : IndexedToken}

/-! ## What is unread -/

/-- What is unread of the layers from a depth on. -/
def unread (w : Walker) (depth : Nat) : Unread :=
  (List.range' depth (w.layers.count - depth)).map w.remaining

/-- The walker has a place in every layer, and tokens lie in the layers of their depths. -/
structure Sound (w : Walker) : Prop where
  /-- There is a place for every layer. -/
  size_eq : w.read.size = w.layers.count
  /-- Tokens lie in the layers of their depths. -/
  depth_eq : ∀ depth, ∀ t ∈ w.layers.layer depth, t.depth = depth

/-- From a depth on there are as many unread layers as the walker has below it. -/
theorem length_unread (w : Walker) (depth : Nat) :
    (w.unread depth).length = w.layers.count - depth := by
  simp [unread]

/-- Below the deepest layer nothing is unread. -/
theorem unread_of_le (h : w.layers.count ≤ depth) : w.unread depth = [] := by
  rw [unread, Nat.sub_eq_zero_of_le h]
  rfl

/-- The unread layers from a depth on are what remains at that depth, and those from the next depth
on. -/
theorem unread_of_lt (h : depth < w.layers.count) :
    w.unread depth = w.remaining depth :: w.unread (depth + 1) := by
  have hcount : w.layers.count - depth = w.layers.count - (depth + 1) + 1 := by omega
  rw [unread, hcount, List.range'_succ]
  rfl

/-- A walker looks at the first token that it has not read. -/
theorem peek?_eq (hw : w.Sound) (depth : Nat) : w.peek? depth = (w.unread depth).front? := by
  rcases Nat.lt_or_ge depth w.layers.count with h | h
  · have hread : w.read[depth]? = some (w.read.getD depth 0) := by
      rw [Array.getD_eq_getD_getElem?, Array.getElem?_eq_getElem (hw.size_eq ▸ h)]
      rfl
    rw [unread_of_lt h, peek?, hread, Unread.front?, remaining, List.head?_drop]
    rw [Layers.layer, Array.getElem?_toList]
    rfl
  · have hread : w.read[depth]? = none := Array.getElem?_eq_none (hw.size_eq ▸ h)
    rw [unread_of_le h, peek?, hread]
    rfl

/-- The walker `w'` is `w` after reading from a layer down until `rest` is unread. -/
structure Advances (w w' : Walker) (depth : Nat) (rest : Unread) : Prop where
  /-- The layers are the same. -/
  layers_eq : w'.layers = w.layers
  /-- There are as many places as before. -/
  size_eq : w'.read.size = w.read.size
  /-- The same children are being listed. -/
  frames_eq : w'.frames = w.frames
  /-- The same child is pending. -/
  pending_eq : w'.pending = w.pending
  /-- In the layers above nothing was read. -/
  remaining_eq : ∀ k < depth, w'.remaining k = w.remaining k
  /-- This is unread of the others. -/
  unread_eq : w'.unread depth = rest

/-- A walker has advanced by nothing. -/
theorem Advances.refl (w : Walker) (depth : Nat) : w.Advances w depth (w.unread depth) :=
  ⟨rfl, rfl, rfl, rfl, fun _ _ => rfl, rfl⟩

/-- Two advances from the same depth make one. -/
theorem Advances.trans (h : w.Advances w' depth rest) (h' : w'.Advances w'' depth rest') :
    w.Advances w'' depth rest' where
  layers_eq := h'.layers_eq.trans h.layers_eq
  size_eq := h'.size_eq.trans h.size_eq
  frames_eq := h'.frames_eq.trans h.frames_eq
  pending_eq := h'.pending_eq.trans h.pending_eq
  remaining_eq k hk := (h'.remaining_eq k hk).trans (h.remaining_eq k hk)
  unread_eq := h'.unread_eq

/-- A walker stays sound as it advances. -/
theorem Advances.sound (h : w.Advances w' depth rest) (hw : w.Sound) : w'.Sound where
  size_eq := by rw [h.size_eq, h.layers_eq, hw.size_eq]
  depth_eq := by
    rw [h.layers_eq]
    exact hw.depth_eq

/-- Reading from a layer on leaves the layer before as it is. -/
theorem Advances.above (h : w.Advances w' (depth + 1) rest) (hdepth : depth < w.layers.count) :
    w.Advances w' depth (w.remaining depth :: rest) where
  layers_eq := h.layers_eq
  size_eq := h.size_eq
  frames_eq := h.frames_eq
  pending_eq := h.pending_eq
  remaining_eq k hk := h.remaining_eq k (Nat.lt_succ_of_lt hk)
  unread_eq := by
    rw [unread_of_lt (h.layers_eq ▸ hdepth), h.remaining_eq depth (Nat.lt_succ_self depth),
      h.unread_eq]

/-- A token is there to be read in a layer that exists only. -/
theorem lt_count_of_unread (h : w.unread depth = layer :: below) :
    depth < w.layers.count ∧ w.remaining depth = layer ∧ w.unread (depth + 1) = below := by
  rcases Nat.lt_or_ge depth w.layers.count with hlt | hge
  · rw [unread_of_lt hlt] at h
    exact ⟨hlt, List.cons.inj h⟩
  · rw [unread_of_le hge] at h
    cases h

/-- Where a layer has an unread token, the walker can move past it, and changes nothing else. -/
theorem exists_advance (hw : w.Sound) (h : w.unread depth = (t :: layer) :: below) :
    ∃ w', w.advance depth = some w' ∧ w.Advances w' depth (layer :: below) := by
  obtain ⟨hcount, hremaining, hbelow⟩ := lt_count_of_unread h
  have hadvance : w.advance depth = some { w with read := w.read.modify depth (· + 1) } :=
    if_pos (hw.size_eq ▸ hcount)
  have hread := remaining_advance hadvance
  refine ⟨_, hadvance, rfl, Array.size_modify, rfl, rfl, fun k hk => ?_, ?_⟩
  · rw [hread, if_neg hk.ne]
  · rw [unread_of_lt (by exact hcount), hread, if_pos rfl, hremaining, List.tail_cons, ← hbelow]
    refine congrArg (layer :: ·) (List.map_congr_left fun k hk => ?_)
    rw [hread, if_neg (Nat.lt_of_succ_le (List.mem_range'_1.1 hk).1).ne']

/-! ## Loops -/

/-- With `n` layers left, passing over tokens ends, and leaves what `passOver` does. -/
def SkipsAt (n : Nat) : Prop :=
  ∀ ⦃w : Walker⦄ ⦃depth : Nat⦄ (mine : IndexedToken → Bool), w.Sound → w.layers.count - depth = n →
    ∃ w', w.skip mine depth = some w' ∧ w.Advances w' depth (passOver n mine (w.unread depth))

/-- Passing over one token passes over what is nested in it. -/
theorem exists_advance_skip (hskips : SkipsAt n) (hw : w.Sound)
    (hn : w.layers.count - depth = n + 1) (h : w.unread depth = (t :: layer) :: below) :
    ∃ w₁ w₂, w.advance depth = some w₁ ∧ w₁.skip t.isParentOf (depth + 1) = some w₂ ∧
      w.Advances w₂ depth (layer :: skipNested n t below) := by
  obtain ⟨w₁, hadvance, h₁⟩ := exists_advance hw h
  obtain ⟨hdepth, hlayer, hbelow⟩ := lt_count_of_unread h₁.unread_eq
  obtain ⟨w₂, hskip, h₂⟩ :=
    hskips t.isParentOf (h₁.sound hw)
      (show w₁.layers.count - (depth + 1) = n by rw [h₁.layers_eq]; omega)
  rw [hbelow, ← skipNested_eq_passOver] at h₂
  exact ⟨w₁, w₂, hadvance, hskip, hlayer ▸ h₁.trans (h₂.above hdepth)⟩

/-- Passing over tokens in any layer ends: what is nested in one of them is in fewer layers. -/
theorem skipsAt (n : Nat) : SkipsAt n := by
  induction n with
  | zero =>
      -- past the last layer there is nothing to pass over
      intro w depth mine hw hn
      refine ⟨w, ?_, Advances.refl w depth⟩
      rw [skip_eq, peek?_eq hw, unread_of_le (Nat.le_of_sub_eq_zero hn)]
      rfl
  | succ n ih =>
      intro w depth mine hw hn
      obtain ⟨layer, below, hunread⟩ : ∃ layer below, w.unread depth = layer :: below :=
        ⟨_, _, unread_of_lt (by omega)⟩
      have hpeek : w.peek? depth = layer.head? := by
        rw [peek?_eq hw, hunread]
        rfl
      induction layer generalizing w below with
      | nil =>
          refine ⟨w, ?_, ?_⟩
          · rw [skip_eq, hpeek]
            rfl
          · have hpass := Advances.refl w depth
            rw [hunread] at hpass ⊢
            exact hpass
      | cons t layer ihl =>
          by_cases ht : mine t = true
          · obtain ⟨w₁, w₂, hadvance, hskip, h₂⟩ := exists_advance_skip ih hw hn hunread
            have hw₂ := h₂.sound hw
            obtain ⟨w₃, hrest, h₃⟩ := ihl hw₂ (h₂.layers_eq ▸ hn) _ h₂.unread_eq
              (by rw [peek?_eq hw₂, h₂.unread_eq]; rfl)
            refine ⟨w₃, ?_, ?_⟩
            · rw [skip_eq, hpeek]
              simp only [List.head?_cons, ht, if_true, hadvance, hskip, hrest, Option.bind_eq_bind,
                Option.bind_some]
            · rw [hunread, passOver_cons_of_pos ht, ← h₂.unread_eq]
              exact h₂.trans h₃
          · refine ⟨w, ?_, ?_⟩
            · rw [skip_eq, hpeek]
              exact if_neg ht
            · rw [hunread, passOver_cons_of_neg (eq_false_of_ne_true ht), ← hunread]
              exact Advances.refl w depth

/-- After tokens without width were passed over, the same trees are to be read. -/
theorem exists_skipHidden (hw : w.Sound) (parent? : Option IndexedToken)
    (hn : w.layers.count - depth = n) :
    ∃ w' unread', w.skipHidden parent? depth = some w' ∧ w.Advances w' depth unread' ∧
      unread'.length = n ∧
      readTrees n (belongs parent?) unread' = readTrees n (belongs parent?) (w.unread depth) ∧
      ∀ t ∈ unread'.front?, hidden (belongs parent?) t = false := by
  obtain ⟨w', hskip, h⟩ := skipsAt n (hidden (belongs parent?)) hw hn
  refine ⟨w', _, hskip, h, ?_, readTrees_passOver_hidden .., ?_⟩
  · rw [← h.unread_eq, length_unread, h.layers_eq, hn]
  · rcases Nat.lt_or_ge depth w.layers.count with hdepth | hdepth
    · obtain ⟨m, rfl⟩ : ∃ m, n = m + 1 := Nat.exists_eq_succ_of_ne_zero (by omega)
      rw [unread_of_lt hdepth]
      exact front?_passOver _ _
    · obtain rfl : n = 0 := by omega
      rw [unread_of_le hdepth]
      exact fun t ht => nomatch ht

end Walker

end RiftLang
