import RiftLang.Proofs.Nesting.Trees
import RiftLang.Token.Forest

/-!
# Adopting trees by their spans

Building the forest of a derivation's tokens gives the trees of the derivation: when a capture is
recorded, the trees on top of the pile are those of its body, and below them are trees that begin
before it.

* `Tree.map` — a tree with other labels.
* `gather` — adopting, on trees of tokens without numbers of their own.
* `foldl_gather_stamped` — gathering the tokens of a derivation puts its trees on the pile.
* `map_ofTokens` — the forest of the tokens of a derivation has its trees.
-/

namespace RiftLang

/-! ## Other labels -/

namespace Tree

variable {α β : Type}

mutual

/-- The tree with other labels. -/
def map (f : α → β) : Tree α → Tree β
  | node a ts => node (f a) (mapAll f ts)

/-- The trees with other labels. -/
def mapAll (f : α → β) : List (Tree α) → List (Tree β)
  | [] => []
  | t :: ts => map f t :: mapAll f ts

end

/-- Relabelling several trees is relabelling each of them. -/
theorem mapAll_eq (f : α → β) (ts : List (Tree α)) : mapAll f ts = ts.map (map f) := by
  induction ts with
  | nil => rfl
  | cons t ts ih => rw [mapAll, ih, List.map_cons]

/-- Relabelling a node is relabelling its root and its children. -/
theorem map_node (f : α → β) (a : α) (ts : List (Tree α)) :
    (node a ts).map f = node (f a) (ts.map (map f)) := by
  rw [map, mapAll_eq]

/-- The root of a relabelled tree has the new label. -/
@[simp] theorem label_map (f : α → β) (t : Tree α) : (t.map f).label = f t.label := by
  cases t
  rfl

/-- A level with what the tree at that level carries. -/
def marked (entry : Nat × Tree α) : Nat × α :=
  (entry.1, entry.2.label)

mutual

/-- Other labels do not change the levels. -/
theorem marked_subtrees_map (f : α → β) (level : Nat) (t : Tree α) :
    ((t.map f).subtrees level).map marked = (t.subtrees level).map fun entry =>
      (entry.1, f entry.2.label) := by
  cases t with
  | node a ts =>
    rw [map, subtrees, subtrees, List.map_cons, List.map_cons,
      marked_forestSubtrees_mapAll f (level + 1) ts]
    rfl

/-- Relabelling changes neither the order of subtrees nor their levels. -/
theorem marked_forestSubtrees_mapAll (f : α → β) (level : Nat) (ts : List (Tree α)) :
    (forestSubtrees level (mapAll f ts)).map marked =
      (forestSubtrees level ts).map fun entry => (entry.1, f entry.2.label) := by
  cases ts with
  | nil => rfl
  | cons t ts =>
    rw [mapAll, forestSubtrees, forestSubtrees, List.map_append, List.map_append,
      marked_subtrees_map f level t, marked_forestSubtrees_mapAll f level ts]

end

end Tree

/-! ## Gathering -/

/-- Puts a token on a pile, over the topmost trees that it is a parent of. -/
def gather (pile : List (Tree IndexedToken)) (t : IndexedToken) : List (Tree IndexedToken) :=
  .node t (pile.takeWhile fun child => t.isParentOf child.label).reverse ::
    pile.dropWhile fun child => t.isParentOf child.label

namespace Forest

/-- Putting a node on a pile does to the tokens what gathering does, since parenthood is a matter of
tokens alone. -/
theorem map_adopt (pile : Forest) (n : SpanNode) :
    (adopt pile n).map (Tree.map SpanNode.token) =
      gather (pile.map (Tree.map SpanNode.token)) n.token := by
  have hmine : (fun child : Tree IndexedToken => n.token.isParentOf child.label)
      ∘ Tree.map SpanNode.token =
      fun t => n.token.isParentOf t.label.token := by
    funext t
    simp
  rw [adopt, gather, List.map_cons, Tree.map_node, List.takeWhile_map, List.dropWhile_map, hmine,
    List.map_reverse]

/-- The same of nodes put on a pile one after the other. -/
theorem map_foldl_adopt (pile : Forest) (nodes : List SpanNode) :
    (nodes.foldl adopt pile).map (Tree.map SpanNode.token) =
      (nodes.map SpanNode.token).foldl gather (pile.map (Tree.map SpanNode.token)) := by
  induction nodes generalizing pile with
  | nil => rfl
  | cons n nodes ih => rw [List.foldl_cons, ih, map_adopt, List.map_cons, List.foldl_cons]

/-- The nodes have the tokens that span text, in emission order. -/
theorem map_token_spanNodes (tokens : List Token) :
    (spanNodes tokens).map SpanNode.token = (indexed tokens).filter (!·.isEmpty) := by
  rw [spanNodes, List.map_map]
  exact List.zipIdx_map_fst 0 _

end Forest

namespace Derivation

variable {start depth first : Nat} {pile : List (Tree IndexedToken)}

/-- Without width there is no token with width. -/
theorem filter_stamped_eq_nil_of_width {d : Derivation} (h : d.width = 0) :
    (d.stamped start depth first).filter (!·.isEmpty) = [] := by
  refine List.filter_eq_nil_iff.2 fun t ht => ?_
  have hbounds := bounds_of_mem_stamped ht
  have hstart := hbounds.start_le
  have hstop := hbounds.le_stop
  have hend := hbounds.stop_le
  have hempty : t.start = t.stop := by omega
  simp [Token.isEmpty, hempty]

/-- A capture takes the trees of its body from the pile, and no others. -/
theorem gather_captureToken {s : Symbol} {d : Derivation}
    (hpile : ∀ t ∈ pile, t.label.start < start) :
    gather ((d.trees start (depth + 1) first).reverse ++ pile)
      (captureToken s d start depth first) =
      .node (captureToken s d start depth first) (d.trees start (depth + 1) first) :: pile := by
  have hbody : ∀ t ∈ (d.trees start (depth + 1) first).reverse,
      (captureToken s d start depth first).isParentOf t.label = true :=
    fun t ht => isParentOf_captureToken (mem_stamped_of_mem_trees (List.mem_reverse.1 ht)).1
  have hbelow : ∀ t ∈ pile, (captureToken s d start depth first).isParentOf t.label = false := by
    intro t ht
    have hstart : ¬ start ≤ t.label.start := Nat.not_le.2 (hpile t ht)
    simp [IndexedToken.isParentOf, Token.contains, captureToken, hstart]
  have htake : (pile.takeWhile fun child =>
      (captureToken s d start depth first).isParentOf child.label) = [] := by
    cases pile with
    | nil => rfl
    | cons t pile => exact List.takeWhile_cons_of_neg (by simp [hbelow t List.mem_cons_self])
  have hdrop : (pile.dropWhile fun child =>
      (captureToken s d start depth first).isParentOf child.label) = pile := by
    cases pile with
    | nil => rfl
    | cons t pile => exact List.dropWhile_cons_of_neg (by simp [hbelow t List.mem_cons_self])
  rw [gather, List.takeWhile_append_of_pos hbody, List.dropWhile_append_of_pos hbody, htake, hdrop,
    List.append_nil, List.reverse_reverse]

/-- Gathering the tokens of a derivation puts its trees on a pile of trees that begin before it. -/
theorem foldl_gather_stamped (d : Derivation) (hpile : ∀ t ∈ pile, t.label.start < start) :
    ((d.stamped start depth first).filter (!·.isEmpty)).foldl gather pile =
      (d.trees start depth first).reverse ++ pile := by
  -- The pile varies: the trees of the first part of a row lie on it when the second part is
  -- gathered.
  induction d generalizing start depth first pile with
  | leaf _ => rfl
  | action a =>
      rw [filter_stamped_eq_nil_of_width rfl, trees, List.foldl_nil, List.reverse_nil,
        List.nil_append]
  | append d e ihd ihe =>
      have hnext : ∀ t ∈ (d.trees start depth first).reverse ++ pile,
          t.label.start < start + d.width := by
        refine List.forall_mem_append.2 ⟨fun t ht => ?_,
          fun t ht => (hpile t ht).trans_le (Nat.le_add_right _ _)⟩
        obtain ⟨hmem, hlt⟩ := mem_stamped_of_mem_trees (List.mem_reverse.1 ht)
        exact hlt.trans_le (bounds_of_mem_stamped hmem).stop_le
      rw [stamped_append, List.filter_append, List.foldl_append, ihd hpile, ihe hnext, trees,
        List.reverse_append, List.append_assoc]
  | capture s d ih =>
      by_cases hw : d.width = 0
      · rw [filter_stamped_eq_nil_of_width (d := capture s d) hw, trees, if_pos hw, List.foldl_nil,
          List.reverse_nil, List.nil_append]
      · have htoken : [captureToken s d start depth first].filter (!·.isEmpty) =
            [captureToken s d start depth first] := by
          simp [Token.isEmpty, captureToken, hw]
        rw [stamped_capture, List.filter_append, List.foldl_append, ih hpile, htoken,
          List.foldl_cons, List.foldl_nil, gather_captureToken hpile, trees, if_neg hw]
        rfl

/-- The forest of the tokens of a derivation has the trees of the derivation. -/
theorem map_ofTokens (d : Derivation) :
    (Forest.ofTokens (d.tokens 0 0)).map (Tree.map SpanNode.token) = d.trees 0 0 0 := by
  have hgather : ((d.stamped 0 0 0).filter (!·.isEmpty)).foldl gather [] =
      (d.trees 0 0 0).reverse ++ [] :=
    d.foldl_gather_stamped (List.forall_mem_nil _)
  rw [Forest.ofTokens, List.map_reverse, Forest.map_foldl_adopt, Forest.map_token_spanNodes,
    indexed_eq]
  show (((d.stamped 0 0 0).filter (!·.isEmpty)).foldl gather []).reverse = _
  rw [hgather, List.append_nil, List.reverse_reverse]

end Derivation

end RiftLang
