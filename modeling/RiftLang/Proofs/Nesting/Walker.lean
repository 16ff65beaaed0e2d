import RiftLang.Proofs.Nesting.Passing

/-!
# A walker lists trees

All items that a walker hands out are the items of the trees that are read from its layers, and it
never reads past the last layer.

* `treeVisits`, `childVisits` — the items of a tree, and of the remaining children of a token, with
  the tokens that are open around them. `map_item_treeVisits` — they are the items of the walk.
* `Walker.exists_nextChild_some`, `Walker.exists_hasChild` — what is found in the next layer, by the
  trees that are read there.
* `Walker.exists_list`, `Walker.leavesAt` — listing a token, and all that remains of one whose
  children are being listed, hands out the items of the trees and goes on behind them.
* `Walker.length_visits_le` — how many items a walk has at most.
* `Walker.visits_start`, `Walker.items_start` — a walk lists the trees of its layers.
-/

namespace RiftLang

open Walker

/-! ## Items with the tokens around them -/

/-- The gap from `start` to `stop`, if there is text in it. -/
def gapVisit? (gap : Gap) (start stop level : Nat) (path : List IndexedToken) : List Visit :=
  if start < stop then [⟨.gap gap start stop level, path⟩] else []

mutual

/-- The items of a tree inside the tokens of `path`. -/
def treeVisits (path : List IndexedToken) : Tree IndexedToken → List Visit
  | .node t children =>
    if children.isEmpty then [⟨.token t true, path⟩]
    else ⟨.token t false, t :: path⟩ :: childVisits t path t.start .leading children

/-- The items of the remaining children of `parent`, which is left before a gap that follows
them. -/
def childVisits (parent : IndexedToken) (path : List IndexedToken) (claimed : Nat) (gap : Gap) :
    List (Tree IndexedToken) → List Visit
  | [] => gapVisit? .trailing claimed parent.stop (parent.depth + 1) path
  | child :: rest =>
    gapVisit? gap claimed child.label.start (parent.depth + 1) (parent :: path) ++
      (treeVisits (parent :: path) child ++ childVisits parent path child.label.stop .between rest)

end

/-- A gap is handed out as the item of that gap. -/
theorem map_item_gapVisit? (gap : Gap) (start stop level : Nat) (path : List IndexedToken) :
    (gapVisit? gap start stop level path).map (·.event.item) =
      WalkItem.gap? gap start stop level := by
  unfold gapVisit? WalkItem.gap?
  split <;> rfl

mutual

/-- The items of a tree are those that the walk lists. -/
theorem map_item_treeVisits (path : List IndexedToken) (tree : Tree IndexedToken) :
    (treeVisits path tree).map (·.event.item) = treeItems tree := by
  cases tree with
  | node t children =>
    rw [treeVisits, treeItems]
    split_ifs with hleaf
    · rw [hleaf]
      rfl
    · rw [eq_false_of_ne_true hleaf, List.map_cons,
        map_item_childVisits t path t.start .leading children]
      rfl

/-- Children and the gaps around them are handed out as the items of both. -/
theorem map_item_childVisits (parent : IndexedToken) (path : List IndexedToken)
    (claimed : Nat) (gap : Gap) (ts : List (Tree IndexedToken)) :
    (childVisits parent path claimed gap ts).map (·.event.item) =
      childItems parent claimed gap ts := by
  cases ts with
  | nil => exact map_item_gapVisit? ..
  | cons child rest =>
    rw [childVisits, childItems, List.map_append, List.map_append, map_item_gapVisit?,
      map_item_treeVisits (parent :: path) child,
      map_item_childVisits parent path child.label.stop .between rest]

end

/-- Trees in a row are handed out as their items. -/
theorem map_item_flatMap_treeVisits (ts : List (Tree IndexedToken)) :
    (ts.flatMap (treeVisits [])).map (·.event.item) = ts.flatMap treeItems := by
  rw [List.map_flatMap]
  exact congrArg (List.flatMap · ts) (funext fun t => map_item_treeVisits [] t)

namespace Walker

/-- The items that follow from one turn on. -/
def Turn.visits : Turn → Option (List Visit)
  | .done => some []
  | .gives event w => w.visits.map (⟨event, w.frames.map (·.token)⟩ :: ·)

/-- What a walker hands out is what its next turn hands out, and what follows from there. -/
theorem visits_eq (w : Walker) : w.visits = w.next.bind Turn.visits := by
  rw [visits.eq_def]
  split
  · rename_i hnext
    rw [hnext]
    rfl
  · rename_i hnext
    rw [hnext]
    rfl
  · rename_i event w' hnext
    rw [hnext, Option.bind_some, Turn.visits, Option.map_eq_bind]
    rfl

/-- There are no more items to come than the bound on them. -/
theorem length_visits_le {w : Walker} {visits : List Visit} (h : w.visits = some visits) :
    visits.length ≤ w.toDo := by
  induction w using Walker.visits.induct generalizing visits with
  | case1 w hnext =>
      rw [visits_eq, hnext] at h
      cases h
  | case2 w hnext =>
      rw [visits_eq, hnext] at h
      obtain rfl := Option.some.inj h
      exact Nat.zero_le _
  | case3 w event w' hnext ih =>
      rw [visits_eq, hnext, Option.bind_some, Turn.visits] at h
      obtain ⟨rest, hrest, rfl⟩ := Option.map_eq_some_iff.1 h
      exact Nat.lt_of_le_of_lt (ih hrest) (toDo_next hnext)

variable {w : Walker} {depth n : Nat} {parent? : Option IndexedToken} {t : IndexedToken}
  {ts : List (Tree IndexedToken)}
  {rest : Unread} {f : WalkFrame} {outer : List WalkFrame}

/-! ## Looking for children -/

/-- Where no tree is read, there is no next child. -/
theorem exists_nextChild_none (hw : w.Sound) (parent? : Option IndexedToken)
    (hn : w.layers.count - depth = n)
    (hread : readTrees n (belongs parent?) (w.unread depth) = ([], rest)) :
    ∃ w', w.nextChild parent? depth = some (none, w') ∧ w.Advances w' depth rest := by
  obtain ⟨w', unread', hskip, h, hlength, hsame, hfront⟩ := exists_skipHidden hw parent? hn
  obtain ⟨rfl, hmine⟩ := front?_of_readTrees_nil hlength.le hfront (hsame.trans hread)
  refine ⟨w', ?_, h⟩
  rw [nextChild, hskip, Option.bind_eq_bind, Option.bind_some, peek?_eq (h.sound hw), h.unread_eq]
  cases hpeek : unread'.front? with
  | none => rfl
  | some t => exact if_neg (by simp [hmine t hpeek])

/-- The next child is the root of the first tree that is read, and the others are read behind it. -/
theorem exists_nextChild_some {children siblings : List (Tree IndexedToken)} (hw : w.Sound)
    (parent? : Option IndexedToken) (hn : w.layers.count - depth = n)
    (hread : readTrees n (belongs parent?) (w.unread depth) =
      (.node t children :: siblings, rest)) :
    ∃ m w' unread' below, n = m + 1 ∧ w.nextChild parent? depth = some (some t, w') ∧
      w.Advances w' depth unread' ∧
      t.depth = depth ∧ readTrees m t.isParentOf (w'.unread (depth + 1)) = (children, below) ∧
      readTrees n (belongs parent?) (w'.remaining depth :: below) = (siblings, rest) := by
  obtain ⟨w₁, unread₁, hskip, h₁, -, hsame, hfront⟩ := exists_skipHidden hw parent? hn
  obtain ⟨m, layer, below, below', hm, rfl, hmine, hchildren, hsiblings⟩ :=
    exists_of_readTrees_cons hfront (hsame.trans hread)
  have hw₁ := h₁.sound hw
  obtain ⟨-, hlayer, -⟩ := lt_count_of_unread h₁.unread_eq
  have hmem : t ∈ w₁.layers.layer depth := List.mem_of_mem_drop (hlayer ▸ List.mem_cons_self)
  obtain ⟨w₂, hadvance, h₂⟩ := exists_advance hw₁ h₁.unread_eq
  obtain ⟨-, hlayer₂, hbelow₂⟩ := lt_count_of_unread h₂.unread_eq
  refine ⟨m, w₂, _, below', hm, ?_, h₁.trans h₂, hw₁.depth_eq depth t hmem, hbelow₂ ▸ hchildren,
    hlayer₂ ▸ hsiblings⟩
  rw [nextChild, hskip, Option.bind_eq_bind, Option.bind_some, peek?_eq hw₁, h₁.unread_eq,
    Unread.front?, List.head?_cons]
  simp [hmine, hadvance]

/-- A token has a child if trees are read below it, and they are still to be read after the
question. -/
theorem exists_hasChild (hw : w.Sound) (hn : w.layers.count - (t.depth + 1) = n)
    (hread : readTrees n t.isParentOf (w.unread (t.depth + 1)) = (ts, rest)) :
    ∃ w' unread', w.hasChild t = some (!ts.isEmpty, w') ∧ w.Advances w' (t.depth + 1) unread' ∧
      readTrees n t.isParentOf unread' = (ts, rest) ∧ (ts = [] → unread' = rest) := by
  obtain ⟨w', unread', hskip, h, hlength, hsame, hfront⟩ := exists_skipHidden hw (some t) hn
  have hread' : readTrees n t.isParentOf unread' = (ts, rest) := hsame.trans hread
  have hhas : w.hasChild t = some (unread'.front?.any t.isParentOf, w') := by
    rw [hasChild, hskip, Option.bind_eq_bind, Option.bind_some, peek?_eq (h.sound hw), h.unread_eq]
    rfl
  refine ⟨w', unread', ?_, h, hread', ?_⟩
  · rw [hhas]
    cases ts with
    | nil =>
      obtain ⟨-, hmine⟩ := front?_of_readTrees_nil hlength.le hfront hread'
      cases hpeek : unread'.front? with
      | none => rfl
      | some u => simp [show t.isParentOf u = false from hmine u hpeek]
    | cons tree siblings =>
      cases tree with
      | node u children =>
        obtain ⟨-, layer, below, -, -, rfl, hmine, -⟩ := exists_of_readTrees_cons hfront hread'
        simp [Unread.front?, show t.isParentOf u = true from hmine]
  · rintro rfl
    exact (front?_of_readTrees_nil hlength.le hfront hread').1

/-! ## Listing -/

/-- The walker with other tokens whose children are being listed. -/
abbrev withFrames (w : Walker) (frames : List WalkFrame) : Walker :=
  { w with frames := frames }

/-- A sound walker without a pending child. -/
structure Ready (w : Walker) : Prop extends w.Sound where
  /-- No child is pending. -/
  pending_eq : w.pending = none

/-- Whether a walker is ready does not depend on the tokens whose children are being listed. -/
theorem Ready.withFrames (hw : w.Ready) (frames : List WalkFrame) : (w.withFrames frames).Ready :=
  ⟨⟨hw.size_eq, hw.depth_eq⟩, hw.pending_eq⟩

/-- A walker stays ready as it advances. -/
theorem Advances.ready {w' : Walker} (h : w.Advances w' depth rest) (hw : w.Ready) : w'.Ready :=
  ⟨h.sound hw.toSound, h.pending_eq.trans hw.pending_eq⟩

/-- How far a walker has advanced does not depend on the tokens whose children are being listed. -/
theorem Advances.withFrames {w' : Walker} (h : w.Advances w' depth rest) (frames : List WalkFrame) :
    (w.withFrames frames).Advances (w'.withFrames frames) depth rest :=
  ⟨h.layers_eq, h.size_eq, rfl, h.pending_eq, h.remaining_eq, h.unread_eq⟩

/-- Without a pending child, a walker goes on with the innermost token whose children are being
listed. -/
theorem Ready.visits_eq (hw : w.Ready) : w.visits = w.resume.bind Turn.visits := by
  rw [Walker.visits_eq, next, hw.pending_eq]

/-- All that remains of a token with `n` layers below it is listed, and the walk goes on behind the
token. -/
def LeavesAt (n : Nat) : Prop :=
  ∀ ⦃w : Walker⦄ ⦃f : WalkFrame⦄ ⦃outer : List WalkFrame⦄ ⦃ts : List (Tree IndexedToken)⦄ ⦃rest :
    Unread⦄,
    w.Ready → w.frames = f :: outer → w.layers.count - (f.token.depth + 1) = n →
    readTrees n f.token.isParentOf (w.unread (f.token.depth + 1)) = (ts, rest) →
    ∃ w', (w.withFrames outer).Advances w' (f.token.depth + 1) rest ∧
      w.visits = w'.visits.map (childVisits f.token (outer.map (·.token)) f.claimed f.gap ts ++ ·)

/-- Listing a token gives the items of its tree, and the walk goes on behind it. -/
theorem exists_list (hleaves : LeavesAt n) (hw : w.Ready) (hn : w.layers.count - (t.depth + 1) = n)
    (hread : readTrees n t.isParentOf (w.unread (t.depth + 1)) = (ts, rest)) :
    ∃ w', w.Advances w' (t.depth + 1) rest ∧
      (w.list t).bind Turn.visits =
        w'.visits.map (treeVisits (w.frames.map (·.token)) (.node t ts) ++ ·) := by
  obtain ⟨w₁, unread₁, hhas, h₁, hread₁, hrest⟩ := exists_hasChild hw.toSound hn hread
  rw [list, hhas, Option.bind_eq_bind, Option.bind_some, treeVisits]
  cases hts : ts.isEmpty with
  | true =>
    refine ⟨w₁, hrest (List.isEmpty_iff.1 hts) ▸ h₁, ?_⟩
    show Option.map _ w₁.visits = _
    rw [h₁.frames_eq]
    rfl
  | false =>
    obtain ⟨w₂, h₂, hvisits⟩ :=
      hleaves ((h₁.ready hw).withFrames (⟨t, t.start, false⟩ :: w₁.frames)) rfl
      (h₁.layers_eq ▸ hn) (h₁.unread_eq ▸ hread₁)
    refine ⟨w₂, h₁.trans h₂, ?_⟩
    show Option.map _ (Walker.visits _) = _
    rw [hvisits, Option.map_map, h₁.frames_eq]
    rfl

/-- A token whose children are all listed is left, and the gap that follows them is listed. -/
theorem exists_leave_nil (hw : w.Ready) (hframes : w.frames = f :: outer)
    (hn : w.layers.count - (f.token.depth + 1) = n)
    (hread : readTrees n f.token.isParentOf (w.unread (f.token.depth + 1)) = ([], rest)) :
    ∃ w', (w.withFrames outer).Advances w' (f.token.depth + 1) rest ∧
      w.visits = w'.visits.map (childVisits f.token (outer.map (·.token))
        f.claimed f.gap [] ++ ·) := by
  obtain ⟨w₁, hnext, h₁⟩ := exists_nextChild_none hw.toSound (some f.token) hn hread
  refine ⟨w₁.withFrames outer, h₁.withFrames outer, ?_⟩
  rw [hw.visits_eq, resume_cons hframes, hnext]
  simp only [Option.bind_some, childVisits, gapVisit?]
  split_ifs
  · rfl
  · rw [← ((h₁.ready hw).withFrames outer).visits_eq]
    simp

/-- The next child is listed after the gap before it. -/
theorem visits_of_nextChild {w' : Walker} (hw : w.Ready) (hw' : w'.Ready)
    (hframes : w.frames = f :: outer)
    (hnext : w.nextChild (some f.token) (f.token.depth + 1) = some (some t, w')) :
    w.visits =
      (((w'.withFrames ({ f with claimed := t.stop, hadChild := true } :: outer)).list t).bind
        Turn.visits).map
      (gapVisit? f.gap f.claimed t.start (f.token.depth + 1)
        (f.token :: outer.map (·.token)) ++ ·) := by
  rw [hw.visits_eq, resume_cons hframes, hnext]
  simp only [Option.bind_some, gapVisit?]
  split_ifs
  · show Option.map _ (Walker.visits _) = _
    rw [Walker.visits_eq, next, ← hw'.pending_eq]
    rfl
  · simp

/-- All that remains of a token whose children are being listed is listed, and the walk goes on
behind it. -/
theorem leavesAt (n : Nat) : LeavesAt n := by
  -- The children of a child are in fewer layers, and its siblings are read after them.
  induction n using Nat.strong_induction_on with
  | _ n ih =>
    intro w f outer ts rest hw hframes hn hread
    induction ts generalizing w f with
    | nil => exact exists_leave_nil hw hframes hn hread
    | cons tree siblings ihs =>
      obtain ⟨t, children⟩ := tree
      obtain ⟨m, w₁, unread₁, below, rfl, hnext, h₁, hdepth, hchildren, hsiblings⟩ :=
        exists_nextChild_some hw.toSound (some f.token) hn hread
      have hw₁ := h₁.ready hw
      have hcount : w₁.layers.count - (f.token.depth + 1) = m + 1 := h₁.layers_eq ▸ hn
      obtain ⟨w₂, h₂, hlist⟩ := exists_list (ih m (Nat.lt_succ_self m))
        (hw₁.withFrames ({ f with claimed := t.stop, hadChild := true } :: outer))
        (show w₁.layers.count - (t.depth + 1) = m by omega) (hdepth ▸ hchildren)
      replace h₂ := (hdepth ▸ h₂).above (show f.token.depth + 1 < w₁.layers.count by omega)
      obtain ⟨w₃, h₃, hvisits⟩ :=
        ihs (h₂.ready (hw₁.withFrames _)) h₂.frames_eq (h₂.layers_eq ▸ hcount)
        (h₂.unread_eq ▸ hsiblings)
      refine ⟨w₃, ((h₁.withFrames outer).trans (h₂.withFrames outer)).trans h₃, ?_⟩
      rw [visits_of_nextChild hw hw₁ hframes hnext, hlist, hvisits]
      simp [childVisits, Option.map_map, Function.comp_def, WalkFrame.gap, Tree.label]

/-- The roots that remain are listed, and the walk ends. -/
theorem visits_of_roots (hw : w.Ready) (hframes : w.frames = []) (hn : w.layers.count = n)
    (hread : readTrees n (belongs none) (w.unread 0) = (ts, rest)) :
    w.visits = some (ts.flatMap (treeVisits [])) := by
  induction ts generalizing w with
  | nil =>
      obtain ⟨w₁, hnext, -⟩ := exists_nextChild_none hw.toSound none hn hread
      rw [hw.visits_eq, resume_nil hframes, hnext, Option.bind_some]
      rfl
  | cons tree siblings ih =>
      obtain ⟨t, children⟩ := tree
      obtain ⟨m, w₁, unread₁, below, rfl, hnext, h₁, hdepth, hchildren, hsiblings⟩ :=
        exists_nextChild_some hw.toSound none hn hread
      have hw₁ := h₁.ready hw
      have hcount : w₁.layers.count = m + 1 := h₁.layers_eq ▸ hn
      obtain ⟨w₂, h₂, hlist⟩ := exists_list (leavesAt m) hw₁ (by omega) (hdepth ▸ hchildren)
      replace h₂ := (hdepth ▸ h₂).above (show 0 < w₁.layers.count by omega)
      have hrest := ih (h₂.ready hw₁) (h₂.frames_eq.trans (h₁.frames_eq.trans hframes))
        (h₂.layers_eq ▸ hcount)
        (h₂.unread_eq ▸ hsiblings)
      rw [hw.visits_eq, resume_nil hframes, hnext, Option.bind_some]
      rw [hlist, hrest, h₁.frames_eq, hframes]
      rfl

/-- A walk comes to an end, and lists the trees of its layers. -/
theorem visits_start {l : Layers} (hl : ∀ depth, ∀ t ∈ l.layer depth, t.depth = depth) :
    (start l).visits = some (l.trees.flatMap (treeVisits [])) := by
  have hready : (start l).Ready := ⟨⟨Array.size_replicate, hl⟩, rfl⟩
  have hunread : (start l).unread 0 = l.toList := by
    rw [Layers.toList_eq]
    refine List.map_congr_left fun k _ => ?_
    have hread : (start l).read.getD k 0 = 0 := by
      rw [start, Array.getD_eq_getD_getElem?, Array.getElem?_replicate]
      split <;> rfl
    rw [remaining, hread]
    rfl
  have hread : readTrees l.count (belongs none) ((start l).unread 0) =
      (l.trees, (readTrees l.count (belongs none) l.toList).2) := by
    rw [hunread]
    rfl
  exact visits_of_roots hready rfl rfl hread

/-- The items of a walk are those that are listed all at once. -/
theorem items_start {l : Layers} (hl : ∀ depth, ∀ t ∈ l.layer depth, t.depth = depth) :
    (start l).items = some l.walk := by
  rw [items, visits_start hl, Option.map_some, map_item_flatMap_treeVisits]
  rfl

/-- So they are for the layers of any tokens. -/
theorem items_start_ofTokens (tokens : List Token) :
    (start (Layers.ofTokens tokens)).items = some (Layers.ofTokens tokens).walk :=
  items_start fun _ _ => Layers.depth_eq_of_mem_layer

end Walker

end RiftLang
