import RiftLang.Proofs.Nesting.Reading
import RiftLang.Proofs.Nesting.Subtrees

/-!
# Reading trees from any layers

Whatever tokens the layers have, nothing is read twice, and what is read below a token is nested in
it.

* `Layered` — every token of the layers has the depth of its layer.
* `Unread.Shrinks` — layers after some of their tokens were read.
* `Nests` — a token that has width, and whose children are nested in it, one deeper.
* `ReadsTrees`, `readsTrees_readTrees` — what the trees that are read have to do with the layers.
* `Layers.reads_trees` — the same of the trees of a log.
-/

namespace RiftLang

open RiftLang.Tree

/-! ## Layers that shrink -/

/-- Every token of the layers has the depth of its layer, the first layer being that of `depth`. -/
def Layered (depth : Nat) : Unread → Prop
  | [] => True
  | layer :: below => (∀ t ∈ layer, t.depth = depth) ∧ Layered (depth + 1) below

/-- Every layer has kept some of its tokens. -/
abbrev Unread.Shrinks (after before : Unread) : Prop :=
  List.Forall₂ List.Sublist after before

section shrinking

variable {depth : Nat} {after middle before : Unread}

/-- Layers that keep all their tokens have kept some. -/
theorem Unread.Shrinks.refl (unread : Unread) : unread.Shrinks unread :=
  List.forall₂_same.2 fun layer _ => List.Sublist.refl layer

/-- What is kept of what was kept is kept. -/
theorem Unread.Shrinks.trans (h : Unread.Shrinks after middle) (h' : Unread.Shrinks middle before) :
    Unread.Shrinks after before := by
  induction h generalizing before with
  | nil => exact h'
  | cons hlayer _ ih =>
      obtain - | ⟨hlayer', hbelow'⟩ := h'
      exact .cons (hlayer.trans hlayer') (ih hbelow')

/-- If every layer has kept some of its tokens, then so have all layers in a row. -/
theorem Unread.Shrinks.flatten (h : Unread.Shrinks after before) :
    List.Sublist after.flatten before.flatten := by
  induction h with
  | nil => exact List.Sublist.refl _
  | cons hlayer _ ih => exact hlayer.append ih

/-- The tokens that are kept still have the depths of their layers. -/
theorem Layered.of_shrinks (h : Layered depth before) (hshrinks : Unread.Shrinks after before) :
    Layered depth after := by
  induction hshrinks generalizing depth with
  | nil => exact h
  | cons hlayer _ ih => exact ⟨fun t ht => h.1 t (hlayer.subset ht), ih h.2⟩

end shrinking

/-! ## Passing over -/

section skipping

variable {mine : IndexedToken → Bool} {skip : IndexedToken → Unread → Unread}

/-- Passing over tokens of a layer takes from that layer, and from those below what is passed over
there. -/
theorem shrinks_skipRun (hskip : ∀ t below, (skip t below).Shrinks below)
    (layer : List IndexedToken) (below : Unread) :
    Unread.Shrinks ((skipRun mine skip layer below).1 :: (skipRun mine skip layer below).2)
    (layer :: below) := by
  induction layer generalizing below with
  | nil => exact Unread.Shrinks.refl _
  | cons t layer ih =>
      unfold skipRun
      split
      · have hrest : Unread.Shrinks (layer :: skip t below) ((t :: layer) :: below) :=
          .cons (List.sublist_cons_self t layer) (hskip t below)
        exact (ih _).trans hrest
      · exact Unread.Shrinks.refl _

end skipping

/-- Passing over what is nested in a token adds nothing to any layer. -/
theorem shrinks_skipNested (n : Nat) (parent : IndexedToken) (unread : Unread) :
    (skipNested n parent unread).Shrinks unread := by
  induction n generalizing parent unread with
  | zero => exact Unread.Shrinks.refl _
  | succ n ih =>
      cases unread with
      | nil => exact .nil
      | cons layer below => exact shrinks_skipRun ih layer below

/-! ## Reading -/

/-- The root has width and is the parent of its children, which are one deeper. -/
structure Nests (t : Tree IndexedToken) : Prop where
  /-- The root has width. -/
  isEmpty_eq : t.label.isEmpty = false
  /-- It spans its children and was emitted after them. -/
  isParentOf : ∀ c ∈ t.children, t.label.isParentOf c.label = true
  /-- They are one deeper. -/
  depth_eq : ∀ c ∈ t.children, c.label.depth = t.label.depth + 1

/-- Trees whose roots are `mine` and of one depth were read from layers, and left others. -/
structure ReadsTrees (depth : Nat) (mine : IndexedToken → Bool) (unread : Unread)
    (ts : List (Tree IndexedToken)) (rest : Unread) : Prop where
  /-- The roots are `mine`. -/
  mine : ∀ t ∈ ts, mine t.label = true
  /-- They are of the depth that is read. -/
  depth_eq : ∀ t ∈ ts, t.label.depth = depth
  /-- All subtrees nest. -/
  nests : ∀ t ∈ allParts ts, Nests t
  /-- Every layer has kept some of its tokens. -/
  shrinks : rest.Shrinks unread
  /-- What was read and what is left was there before, each token at most once. -/
  subperm : ((allParts ts).map label ++ rest.flatten).Subperm unread.flatten

namespace ReadsTrees

variable {depth : Nat} {mine : IndexedToken → Bool} {unread rest : Unread}
  {ts : List (Tree IndexedToken)}

/-- Nothing was read, and everything is left. -/
theorem nil (depth : Nat) (mine : IndexedToken → Bool) (unread : Unread) :
    ReadsTrees depth mine unread [] unread where
  mine := List.forall_mem_nil _
  depth_eq := List.forall_mem_nil _
  nests := List.forall_mem_nil _
  shrinks := Unread.Shrinks.refl _
  subperm := List.Subperm.refl _

/-- What is read from fewer tokens is read from more. -/
theorem of_shrinks {unread' : Unread} (h : ReadsTrees depth mine unread ts rest)
    (hshrinks : unread.Shrinks unread') :
    ReadsTrees depth mine unread' ts rest where
  mine := h.mine
  depth_eq := h.depth_eq
  nests := h.nests
  shrinks := h.shrinks.trans hshrinks
  subperm := h.subperm.trans hshrinks.flatten.subperm

/-- A token is read with its children, and then its siblings. -/
theorem cons {t : IndexedToken} {layer : List IndexedToken} {below below' : Unread}
    {children : List (Tree IndexedToken)}
    (hmine : mine t = true) (hdepth : t.depth = depth) (hwidth : t.isEmpty = false)
    (hchildren : ReadsTrees (depth + 1) t.isParentOf below children below')
    (hsiblings : ReadsTrees depth mine (layer :: below') ts rest) :
    ReadsTrees depth mine ((t :: layer) :: below) (.node t children :: ts) rest where
  mine := List.forall_mem_cons.2 ⟨hmine, hsiblings.mine⟩
  depth_eq := List.forall_mem_cons.2 ⟨hdepth, hsiblings.depth_eq⟩
  nests := by
    have hnests : Nests (.node t children) :=
      ⟨hwidth, hchildren.mine,
        fun c hc => (hchildren.depth_eq c hc).trans (congrArg (· + 1) hdepth.symm)⟩
    rw [allParts_cons_node]
    exact List.forall_mem_cons.2 ⟨hnests,
      List.forall_mem_append.2 ⟨hchildren.nests, hsiblings.nests⟩⟩
  shrinks := hsiblings.shrinks.trans (.cons (List.sublist_cons_self t layer) hchildren.shrinks)
  subperm := by
    have hrest :
        ((allParts children).map label ++ ((allParts ts).map label ++ rest.flatten)).Subperm
        ((allParts children).map label ++ (layer ++ below'.flatten)) :=
      (List.subperm_append_left _).2 hsiblings.subperm
    have hswap : ((allParts children).map label ++ (layer ++ below'.flatten)).Perm
        (layer ++ ((allParts children).map label ++ below'.flatten)) := by
      rw [← List.append_assoc, ← List.append_assoc]
      exact List.perm_append_comm.append_right _
    have hbelow : (layer ++ ((allParts children).map label ++ below'.flatten)).Subperm
        (layer ++ below.flatten) :=
      (List.subperm_append_left _).2 hchildren.subperm
    have htail := (hrest.trans hswap.subperm).trans hbelow
    rw [allParts_cons_node, List.map_cons, List.map_append, List.cons_append, List.append_assoc]
    exact (List.subperm_cons t).2 htail

end ReadsTrees

/-- If trees are read rightly from the layers below, then a run of trees is read rightly from a
layer and those below it. The induction is on the layer. -/
theorem readsTrees_readRun {depth n : Nat} {mine : IndexedToken → Bool} {layer : List IndexedToken}
    {below : Unread} (hbelow : ∀ (t : IndexedToken) (unread : Unread), Layered (depth + 1) unread →
      ReadsTrees (depth + 1) t.isParentOf unread (readTrees n t.isParentOf unread).1
        (readTrees n t.isParentOf unread).2)
    (h : Layered depth (layer :: below)) :
    let (ts, rest, below') :=
      readRun mine (skipNested n) (fun t => readTrees n t.isParentOf) layer below
    ReadsTrees depth mine (layer :: below) ts (rest :: below') := by
  induction layer generalizing below with
  | nil => exact ReadsTrees.nil ..
  | cons t layer ih =>
      obtain ⟨hdepth, hlayer⟩ := List.forall_mem_cons.1 h.1
      rw [readRun]
      split_ifs with hmine hempty
      · -- a token without width is passed over, with what is nested in it
        have hskip := shrinks_skipNested n t below
        exact (ih ⟨hlayer, h.2.of_shrinks hskip⟩).of_shrinks
          (.cons (List.sublist_cons_self t layer) hskip)
      · have hchildren := hbelow t below h.2
        exact .cons hmine hdepth (Bool.not_eq_true _ ▸ hempty)
          hchildren (ih ⟨hlayer, h.2.of_shrinks hchildren.shrinks⟩)
      · exact ReadsTrees.nil ..

/-- Reading trees reads every token at most once, and below a token only what is nested in it. -/
theorem readsTrees_readTrees {depth : Nat} {unread : Unread} (n : Nat) (mine : IndexedToken → Bool)
    (h : Layered depth unread) :
    ReadsTrees depth mine unread (readTrees n mine unread).1 (readTrees n mine unread).2 := by
  induction n generalizing depth mine unread with
  | zero => exact ReadsTrees.nil ..
  | succ n ih =>
      cases unread with
      | nil => exact ReadsTrees.nil ..
      | cons layer below => exact readsTrees_readRun (fun t unread h => ih t.isParentOf h) h

/-! ## The layers of a log -/

/-- Tokens put into layers by their depth have the depths of their layers. -/
theorem layered_strata (depth count : Nat) (tokens : List IndexedToken) :
    Layered depth (strata depth count tokens) := by
  induction count generalizing depth with
  | zero => trivial
  | succ count ih =>
      rw [strata_succ]
      exact ⟨fun t ht => of_decide_eq_true (List.mem_filter.1 ht).2, ih (depth + 1)⟩

/-- No token is put into two layers. -/
theorem nodup_flatten_strata {tokens : List IndexedToken} (h : tokens.Nodup) (depth count : Nat) :
    (strata depth count tokens).flatten.Nodup := by
  refine List.nodup_flatten.2 ⟨?_, ?_⟩
  · intro layer hlayer
    obtain ⟨k, -, rfl⟩ := List.mem_map.1 hlayer
    exact h.filter _
  · refine List.pairwise_map.2 ((List.nodup_range' (s := depth)
      (n := count)).imp fun {k l} hne t hk hl => ?_)
    have hdepth : t.depth = k := of_decide_eq_true (List.mem_filter.1 hk).2
    have hdepth' : t.depth = l := of_decide_eq_true (List.mem_filter.1 hl).2
    exact hne (hdepth.symm.trans hdepth')

/-- The tokens of some depths are found in the layers of these depths. -/
theorem mem_flatten_strata {depth count : Nat} {tokens : List IndexedToken} {t : IndexedToken} :
    t ∈ (strata depth count tokens).flatten ↔ t ∈ tokens ∧ depth ≤ t.depth ∧
      t.depth < depth + count := by
  rw [List.mem_flatten]
  constructor
  · rintro ⟨layer, hlayer, ht⟩
    obtain ⟨k, hk, rfl⟩ := List.mem_map.1 hlayer
    obtain ⟨hmem, hdepth⟩ := List.mem_filter.1 ht
    obtain rfl : t.depth = k := of_decide_eq_true hdepth
    exact ⟨hmem, List.mem_range'_1.1 hk⟩
  · rintro ⟨ht, hdepth⟩
    refine ⟨_, List.mem_map.2 ⟨t.depth, List.mem_range'_1.2 hdepth, rfl⟩, ?_⟩
    exact List.mem_filter.2 ⟨ht, decide_eq_true rfl⟩

/-- Numbered tokens differ, since their numbers do. -/
theorem nodup_indexed (tokens : List Token) : (indexed tokens).Nodup :=
  (pairwise_indexed tokens).imp fun hlt heq => hlt.ne (congrArg IndexedToken.index heq)

/-- The trees of any token list have tokens of the list, each at most once and with width. Roots
have no depth, and children are nested in their parents, one deeper. -/
theorem Layers.reads_trees (tokens : List Token) :
    ((allParts (ofTokens tokens).trees).map label).Nodup ∧
    (∀ t ∈ allParts (ofTokens tokens).trees, t.label ∈ indexed tokens ∧ Nests t) ∧
    ∀ t ∈ (ofTokens tokens).trees, t.label.depth = 0 := by
  have hreads := readsTrees_readTrees (ofTokens tokens).count (fun _ => true)
    (layered_strata 0 (depthBound tokens + 1) (indexed tokens))
  rw [← toList_ofTokens] at hreads
  have hlabels : ((allParts (ofTokens tokens).trees).map label).Subperm
      (ofTokens tokens).toList.flatten :=
    (List.sublist_append_left _ _).subperm.trans hreads.subperm
  rw [toList_ofTokens] at hlabels
  refine ⟨?_, fun t ht => ⟨?_, hreads.nests t ht⟩, hreads.depth_eq⟩
  · obtain ⟨labels, hperm, hsub⟩ := hlabels
    exact hperm.nodup_iff.1 ((nodup_flatten_strata (nodup_indexed tokens) _ _).sublist hsub)
  · exact (mem_flatten_strata.1 (hlabels.subset (List.mem_map_of_mem ht))).1

end RiftLang
