import Mathlib.Data.List.Range
import Mathlib.Data.List.TakeWhile
import RiftLang.Proofs.Nesting.Subtrees
import RiftLang.Proofs.Nesting.Trees
import RiftLang.Token.Arena

/-!
# The table of any token list is a forest

Whatever the spans of the tokens are, the links of the table that is filled from them are those of
the forest that is piled up from them. So following them comes to an end, and every node is found
once.

* `Arena.IsRow`, `Arena.Holds` — a table that is linked as a forest is. `Arena.take_eq` — taking
  nodes from the pile links them in a row, and touches no other link.
* `Arena.Filling.Shows.push` — one token keeps the table and the pile in step.
* `Arena.Holds.children_eq`, `Arena.visit_roots` — what is found by following the links.
* `arena_is_forest` — what the table of any token list is.
-/

namespace RiftLang

open RiftLang.Tree

namespace Arena

/-! ## Tables that hold a forest -/

/-- The numbers of the roots of trees. -/
def ids (ts : Forest) : List Nat :=
  ts.map (·.label.id)

/-- The number of the first of several trees. -/
def firstId? (ts : Forest) : Option Nat :=
  (ids ts).head?

/-- The roots of the trees are linked in a row: each to the next one, and the last to none. -/
def IsRow (nodes : Array ArenaNode) : Forest → Prop
  | [] => True
  | t :: ts => (∃ node, nodes[t.label.id]? = some node ∧ node.nextSibling = firstId? ts) ∧
    IsRow nodes ts

/-- The table has the nodes of the forest, each once, and links parents and children as the forest
does. Children lie in their parents and before them, in emission order. -/
structure Holds (nodes : Array ArenaNode) (f : Forest) : Prop where
  /-- The nodes of the forest have the numbers of the table, each once. -/
  perm : (ids (allParts f)).Perm (List.range nodes.size)
  /-- The table has the token of each, and a link to the first child. -/
  node_eq : ∀ t ∈ allParts f, ∃ next, nodes[t.label.id]? =
    some ⟨t.label.token, firstId? t.children, next⟩
  /-- The children of each are linked in a row. -/
  isRow : ∀ t ∈ allParts f, IsRow nodes t.children
  /-- They lie in their parent and were emitted before it. -/
  isParentOf : ∀ t ∈ allParts f, ∀ c ∈ t.children, t.label.token.isParentOf c.label.token = true
  /-- They are in emission order. -/
  pairwise : ∀ t ∈ allParts f, (ids t.children).Pairwise (· < ·)

variable {nodes nodes' : Array ArenaNode} {f pile done ts : Forest} {changed : List Nat}
  {parent t : IndexedToken}

/-- A table holds a forest whatever the order in which its subtrees are counted. -/
theorem Holds.of_perm {g : Forest} (h : Holds nodes f) (hperm : (allParts g).Perm (allParts f)) :
    Holds nodes g where
  perm := (hperm.map _).trans h.perm
  node_eq t ht := h.node_eq t (hperm.mem_iff.1 ht)
  isRow t ht := h.isRow t (hperm.mem_iff.1 ht)
  isParentOf t ht := h.isParentOf t (hperm.mem_iff.1 ht)
  pairwise t ht := h.pairwise t (hperm.mem_iff.1 ht)

/-- The number of a node lies within the table. -/
theorem Holds.lt_size (h : Holds nodes f) : ∀ t ∈ allParts f, t.label.id < nodes.size :=
  fun _ ht => List.mem_range.1 (h.perm.mem_iff.1 (List.mem_map_of_mem ht))

/-- Roots and children are numbered apart, and all numbers are theirs. -/
theorem Holds.perm_rows (h : Holds nodes f) :
    (ids f ++ (allParts f).flatMap fun t => ids t.children).Perm (List.range nodes.size) := by
  have hids : (ids f ++ (allParts f).flatMap fun t => ids t.children) =
      (f.map label ++ (allParts f).flatMap childLabels).map SpanNode.id := by
    simp only [List.map_append, List.map_map, List.map_flatMap, ids, childLabels]
    rfl
  have hperm : ((f.map label ++ (allParts f).flatMap childLabels).map SpanNode.id).Perm
      (ids (allParts f)) := by
    have hlabels := (perm_roots_children f).map SpanNode.id
    rwa [List.map_map (l := allParts f)] at hlabels
  rw [hids]
  exact hperm.trans h.perm

/-- Every number within the table is that of a node. -/
theorem Holds.exists_of_lt (h : Holds nodes f) {id : Nat} (hid : id < nodes.size) :
    ∃ t ∈ allParts f, t.label.id = id :=
  List.mem_map.1 (h.perm.mem_iff.2 (List.mem_range.2 hid))

/-- The same with the rows by number. -/
theorem Holds.perm_rows_by_number (h : Holds nodes f) {rows : Nat → List Nat}
    (hrows : ∀ t ∈ allParts f, rows t.label.id = ids t.children) :
    (ids f ++ (List.range nodes.size).flatMap rows).Perm (List.range nodes.size) := by
  have hflat : ((allParts f).flatMap fun t => ids t.children) =
      (ids (allParts f)).flatMap rows := by
    rw [ids, List.flatMap_map]
    exact List.flatMap_congr fun t ht => (hrows t ht).symm
  have hperm := h.perm_rows
  rw [hflat] at hperm
  exact ((h.perm.symm.flatMap_right rows).append_left _).trans hperm

/-! ## Linking -/

/-- The tables differ in the links to next siblings of some nodes, and in nothing else. -/
def Relinks (changed : List Nat) (nodes nodes' : Array ArenaNode) : Prop :=
  ∀ i node, nodes[i]? = some node →
    ∃ next, nodes'[i]? = some { node with nextSibling := next } ∧
      (i ∉ changed → next = node.nextSibling)

/-- Setting the link of one node to its next sibling relinks that node. -/
theorem relinks_modify (nodes : Array ArenaNode) (id : Nat) (next : Option Nat) :
    Relinks [id] nodes (nodes.modify id ({ · with nextSibling := next })) := by
  intro i node hi
  rw [Array.getElem?_modify, hi]
  by_cases h : id = i
  · exact ⟨next, by simp [h], fun hne => absurd (by simp [h]) hne⟩
  · exact ⟨node.nextSibling, by simp [h], fun _ => rfl⟩

/-- Relinking a node, and then others, relinks all of them. -/
theorem Relinks.cons {id : Nat} {middle : Array ArenaNode} (h : Relinks [id] nodes middle)
    (h' : Relinks changed middle nodes') : Relinks (id :: changed) nodes nodes' := by
  intro i node hi
  obtain ⟨next, hmiddle, hnext⟩ := h i node hi
  obtain ⟨next', hlast, hnext'⟩ := h' i _ hmiddle
  refine ⟨next', hlast, fun hne => ?_⟩
  obtain ⟨hid, hchanged⟩ := not_or.1 (mt List.mem_cons.2 hne)
  exact (hnext' hchanged).trans (hnext (by simpa using hid))

/-- A row stays as it is if the links of its nodes do. -/
theorem IsRow.relinks (h : IsRow nodes ts) (hrelinks : Relinks changed nodes nodes')
    (hdisjoint : ∀ id ∈ ids ts, id ∉ changed) : IsRow nodes' ts := by
  induction ts with
  | nil => trivial
  | cons t ts ih =>
      obtain ⟨⟨node, hnode, hnext⟩, hrest⟩ := h
      obtain ⟨hid, hids⟩ := List.forall_mem_cons.1 hdisjoint
      obtain ⟨next, hnode', hkept⟩ := hrelinks _ _ hnode
      exact ⟨⟨_, hnode', (hkept hid).trans hnext⟩, ih hrest hids⟩

/-- A row stays one when a node is added to the table behind those that it links. -/
theorem IsRow.push (h : IsRow nodes ts) (node : ArenaNode) : IsRow (nodes.push node) ts := by
  induction ts with
  | nil => trivial
  | cons t ts ih =>
      obtain ⟨⟨node', hnode, hnext⟩, hrest⟩ := h
      have hlt := (Array.getElem?_eq_some_iff.1 hnode).1
      exact ⟨⟨node', by rw [Array.getElem?_push_lt hlt, Array.getElem?_eq_some_iff.1 hnode |>.2],
        hnext⟩, ih hrest⟩

/-- Taking nodes from a pile links them in a row, in front of those that were taken before. -/
theorem take_eq (parent : IndexedToken)
    (htoken : ∀ t ∈ pile, nodes[t.label.id]?.map (·.token) = some t.label.token)
    (hnodup : (ids (pile ++ done)).Nodup) (hrow : IsRow nodes done) :
    let mine : Tree SpanNode → Bool := fun t => parent.isParentOf t.label.token
    let row := (pile.takeWhile mine).reverse ++ done
    ∃ nodes', take parent nodes (firstId? done)
      (ids pile) = (nodes', firstId? row, ids (pile.dropWhile mine)) ∧
      IsRow nodes' row ∧ Relinks (ids (pile.takeWhile mine)) nodes nodes' := by
  intro mine
  induction pile generalizing nodes done with
  | nil => exact ⟨nodes, rfl, hrow, fun i node hi => ⟨_, hi, fun _ => rfl⟩⟩
  | cons t pile ih =>
      obtain ⟨ht, hpile⟩ := List.forall_mem_cons.1 htoken
      obtain ⟨node, hnode, htoken⟩ := Option.map_eq_some_iff.1 ht
      have hmine : (nodes[t.label.id]?.any fun n => parent.isParentOf n.token) = mine t := by
        rw [hnode, Option.any_some, htoken]
      rw [List.takeWhile_cons, List.dropWhile_cons, ids, List.map_cons, take, hmine]
      by_cases hm : mine t = true
      · -- `t` is taken: it is linked to the nodes taken before, and goes in front of them.
        rw [if_pos hm, if_pos hm, if_pos hm]
        have hrelinks := relinks_modify nodes t.label.id (firstId? done)
        have hapart : t.label.id ∉ ids (pile ++ done) := (List.nodup_cons.1 hnodup).1
        have hdone : ∀ id ∈ ids done, id ∉ [t.label.id] := by
          intro id hid heq
          obtain rfl := List.mem_singleton.1 heq
          exact hapart (by rw [ids, List.map_append]; exact List.mem_append_right _ hid)
        have hself :
            (nodes.modify t.label.id ({ · with nextSibling := firstId? done }))[t.label.id]? =
            some { node with nextSibling := firstId? done } := by
          rw [Array.getElem?_modify, hnode, if_pos rfl]
          rfl
        have hkept : ∀ u ∈ pile,
            (nodes.modify t.label.id ({ · with nextSibling := firstId? done }))[u.label.id]?.map
            (·.token) = some u.label.token := by
          intro u hu
          obtain ⟨n, hn, hu⟩ := Option.map_eq_some_iff.1 (hpile u hu)
          obtain ⟨next, hn', -⟩ := hrelinks _ _ hn
          rw [hn', ← hu]
          rfl
        have hnodup' : (ids (pile ++ t :: done)).Nodup := by
          have hperm : (pile ++ t :: done).Perm (t :: pile ++ done) := List.perm_middle
          exact (hperm.map _).nodup_iff.2 hnodup
        obtain ⟨nodes', htake, hrow', hrelinks'⟩ :=
          ih hkept hnodup' ⟨⟨_, hself, rfl⟩, hrow.relinks hrelinks hdone⟩
        refine ⟨nodes', ?_, ?_, hrelinks.cons hrelinks'⟩
        · rw [List.reverse_cons, List.append_assoc]
          exact htake
        · rw [List.reverse_cons, List.append_assoc]
          exact hrow'
      · rw [if_neg hm, if_neg hm, if_neg hm]
        exact ⟨nodes, rfl, hrow, fun i node hi => ⟨_, hi, fun _ => rfl⟩⟩

/-- Taking children from the pile changes links and no token. -/
theorem map_token_take (parent : IndexedToken) (nodes : Array ArenaNode) (first : Option Nat)
    (pile : List Nat) :
    (take parent nodes first pile).1.map (·.token) = nodes.map (·.token) := by
  induction pile generalizing nodes first with
  | nil => rfl
  | cons id pile ih =>
      rw [take]
      split
      · rw [ih]
        refine Array.ext_getElem? fun i => ?_
        rw [Array.getElem?_map, Array.getElem?_map, Array.getElem?_modify]
        split
        · rw [Option.map_map]
          rfl
        · rfl
      · rfl

/-! ## Filling -/

/-- A node put on a pile adds one subtree, which is its own; those of the trees that it takes are
still there. -/
theorem perm_allParts_adopt (pile : Forest) (n : SpanNode) :
    let mine : Tree SpanNode → Bool := fun t => n.token.isParentOf t.label.token
    (allParts (Forest.adopt pile n)).Perm (.node n (pile.takeWhile mine).reverse ::
      allParts pile) := by
  intro mine
  rw [Forest.adopt, allParts_cons_node]
  refine List.Perm.cons _ ?_
  have hsplit : allParts pile =
      allParts (pile.takeWhile mine) ++ allParts (pile.dropWhile mine) := by
    rw [← allParts_append, List.takeWhile_append_dropWhile]
  rw [hsplit]
  exact (perm_allParts_reverse _).append_right _

/-- A table that holds a pile, and in which the nodes that `n` takes from it were linked in a row,
holds the pile with `n` on it once `n` is added. -/
theorem Holds.adopt (h : Holds nodes pile) (hroots : (ids pile).Pairwise (· > ·)) (n : SpanNode) :
    let mine : Tree SpanNode → Bool := fun t => n.token.isParentOf t.label.token
    let row := (pile.takeWhile mine).reverse
    n.id = nodes.size → nodes'.size = nodes.size → IsRow nodes' row →
      Relinks (ids (pile.takeWhile mine)) nodes nodes' →
        Holds (nodes'.push ⟨n.token, firstId? row, none⟩) (Forest.adopt pile n) := by
  intro mine row hid hsize hrow hrelinks
  have hperm : (allParts (Forest.adopt pile n)).Perm (.node n row :: allParts pile) :=
    perm_allParts_adopt pile n
  have hforall {P : Tree SpanNode → Prop} (hnew : P (.node n row))
      (hold : ∀ t ∈ allParts pile, P t) :
      ∀ t ∈ allParts (Forest.adopt pile n), P t :=
    fun t ht => List.forall_mem_cons.2 ⟨hnew, hold⟩ t (hperm.mem_iff.1 ht)
  -- The links that have changed are those of roots, and no root is a child.
  have hchildren : ∀ t ∈ allParts pile, ∀ id ∈ ids t.children, id ∉ ids (pile.takeWhile mine) := by
    intro t ht id hid hroot
    have hroot : id ∈ ids pile := List.map_subset _ (List.takeWhile_subset _) hroot
    exact List.disjoint_of_nodup_append (h.perm_rows.nodup_iff.2 List.nodup_range) hroot
      (List.mem_flatMap.2 ⟨t, ht, hid⟩)
  refine ⟨?_, hforall ?_ ?_, hforall ?_ ?_, hforall ?_ ?_, hforall ?_ ?_⟩
  · have hids : (ids (allParts (Forest.adopt pile n))).Perm (n.id :: ids (allParts pile)) :=
      hperm.map fun t : Tree SpanNode => t.label.id
    rw [Array.size_push, hsize, List.range_succ, ← hid]
    exact hids.trans (((hid ▸ h.perm).cons _).trans (List.perm_append_singleton _ _).symm)
  · exact ⟨none, by rw [label, hid, ← hsize]; exact Array.getElem?_push_size⟩
  · intro t ht
    obtain ⟨next, hnode⟩ := h.node_eq t ht
    obtain ⟨next', hnode', -⟩ := hrelinks _ _ hnode
    have hlt : t.label.id < nodes'.size := hsize ▸ h.lt_size t ht
    exact ⟨next', by rw [Array.getElem?_push_lt hlt, ← hnode', Array.getElem?_eq_getElem hlt]⟩
  · exact hrow.push _
  · exact fun t ht => ((h.isRow t ht).relinks hrelinks (hchildren t ht)).push _
  · intro c hc
    have hmine : mine c = true := List.mem_takeWhile_imp (List.mem_reverse.1 hc)
    exact hmine
  · exact h.isParentOf
  · have htaken : (ids (pile.takeWhile mine)).Pairwise (· > ·) :=
      hroots.sublist ((List.takeWhile_sublist _).map _)
    show (ids (pile.takeWhile mine).reverse).Pairwise (· < ·)
    rw [ids, List.map_reverse]
    exact List.pairwise_reverse.2 htaken
  · exact h.pairwise

/-- The table and the pile of nodes are in step with a pile of trees. -/
structure Filling.Shows (fill : Filling) (pile : Forest) : Prop where
  /-- The nodes that wait are the roots of the trees. -/
  pile_eq : fill.pile = ids pile
  /-- The table holds the trees. -/
  holds : Holds fill.nodes pile
  /-- The latest tree is on top. -/
  pairwise : (ids pile).Pairwise (· > ·)

namespace Filling

variable {fill : Filling}

/-- A token that spans text goes on both piles, and into the table. -/
theorem Shows.push (h : fill.Shows pile) (ht : t.isEmpty = false) :
    (fill.push t).Shows (Forest.adopt pile ⟨fill.nodes.size, t⟩) ∧
      (fill.push t).nodes.map (·.token) = (fill.nodes.map (·.token)).push t := by
  let mine : Tree SpanNode → Bool := fun u => t.isParentOf u.label.token
  have hnodup : (ids (pile ++ [])).Nodup := by
    rw [List.append_nil]
    exact h.pairwise.imp Nat.ne_of_gt
  have htoken : ∀ u ∈ pile, fill.nodes[u.label.id]?.map (·.token) = some u.label.token := by
    intro u hu
    obtain ⟨next, hnode⟩ := h.holds.node_eq u (mem_allParts_of_mem hu)
    rw [hnode]
    rfl
  obtain ⟨nodes', htake, hrow, hrelinks⟩ := take_eq t htoken hnodup trivial
  rw [List.append_nil] at htake hrow
  have htokens : nodes'.map (·.token) = fill.nodes.map (·.token) := by
    have hmap := map_token_take t fill.nodes (firstId? []) (ids pile)
    rwa [htake] at hmap
  have hsize : nodes'.size = fill.nodes.size := by
    simpa using congrArg Array.size htokens
  have hpush : fill.push t =
      ⟨nodes'.push ⟨t, firstId? (pile.takeWhile mine).reverse, none⟩,
        fill.nodes.size :: ids (pile.dropWhile mine)⟩ := by
    rw [Filling.push, if_neg (by simp [ht]), h.pile_eq, show take t fill.nodes none (ids pile) =
      _ from htake]
  rw [hpush]
  refine ⟨⟨rfl, h.holds.adopt h.pairwise ⟨_, t⟩ rfl hsize hrow hrelinks, ?_⟩,
    by rw [Array.map_push, htokens]⟩
  refine List.pairwise_cons.2 ⟨fun id hid => ?_,
    h.pairwise.sublist ((List.dropWhile_sublist _).map _)⟩
  obtain ⟨u, hu, rfl⟩ := List.mem_map.1 hid
  exact h.holds.lt_size u (mem_allParts_of_mem (List.dropWhile_subset _ hu))

/-- Tokens with text are pushed on a table as their nodes are put on a pile of trees, and are listed
in that order. -/
theorem Shows.foldl_push (h : fill.Shows pile) {tokens : List IndexedToken}
    (htokens : ∀ t ∈ tokens, t.isEmpty = false) :
    (tokens.foldl Filling.push fill).Shows
        (((tokens.zipIdx fill.nodes.size).map fun (t, id) => ⟨id, t⟩).foldl Forest.adopt pile) ∧
      (tokens.foldl Filling.push fill).nodes.toList.map (·.token) =
        fill.nodes.toList.map (·.token) ++ tokens := by
  induction tokens generalizing fill pile with
  | nil => exact ⟨h, (List.append_nil _).symm⟩
  | cons t tokens ih =>
      obtain ⟨ht, htokens⟩ := List.forall_mem_cons.1 htokens
      obtain ⟨hshows, hpush⟩ := h.push ht
      have hlist : (fill.push t).nodes.toList.map (·.token) =
          fill.nodes.toList.map (·.token) ++ [t] := by
        simpa using congrArg Array.toList hpush
      have hsize : (fill.push t).nodes.size = fill.nodes.size + 1 := by
        simpa using congrArg Array.size hpush
      obtain ⟨hrest, hall⟩ := ih hshows htokens
      rw [hsize] at hrest
      rw [hlist, List.append_assoc] at hall
      exact ⟨hrest, hall⟩

/-- Tokens without width are left out. -/
theorem foldl_push_filter (fill : Filling) (tokens : List IndexedToken) :
    (tokens.filter (!·.isEmpty)).foldl Filling.push fill = tokens.foldl Filling.push fill := by
  induction tokens generalizing fill with
  | nil => rfl
  | cons t tokens ih =>
      by_cases ht : t.isEmpty = true
      · have hpush : fill.push t = fill := if_pos ht
        rw [List.filter_cons_of_neg (by simp [ht]), ih, List.foldl_cons, hpush]
      · rw [List.filter_cons_of_pos (by simp [ht]), List.foldl_cons, ih, List.foldl_cons]

end Filling

/-- The table of a token list holds its forest, and the tokens that span text in emission order. -/
theorem holds_ofTokens (tokens : List Token) :
    (ofTokens tokens).roots = ids (Forest.ofTokens tokens) ∧
    Holds (ofTokens tokens).nodes (Forest.ofTokens tokens) ∧
      (ids (Forest.ofTokens tokens)).Pairwise (· < ·) ∧
      (ofTokens tokens).nodes.toList.map (·.token) = (indexed tokens).filter (!·.isEmpty) := by
  have hstart : Filling.Shows ⟨#[], []⟩ [] := by
    refine ⟨rfl, ⟨.nil, ?_, ?_, ?_, ?_⟩, .nil⟩ <;> exact List.forall_mem_nil _
  have hwide : ∀ t ∈ (indexed tokens).filter (!·.isEmpty), t.isEmpty = false :=
    fun t ht => by simpa using (List.mem_filter.1 ht).2
  obtain ⟨hshows, htokens⟩ := hstart.foldl_push hwide
  rw [Filling.foldl_push_filter] at hshows htokens
  have hpile : Forest.ofTokens tokens = ((spanNodes tokens).foldl Forest.adopt []).reverse := rfl
  rw [hpile, ids, List.map_reverse]
  refine ⟨congrArg List.reverse hshows.pile_eq, hshows.holds.of_perm (perm_allParts_reverse _),
    ?_, htokens⟩
  exact List.pairwise_reverse.2 hshows.pairwise

/-! ## Following links -/

variable {a : Arena}

/-- From the first node of a row the links lead through the whole row, given a bound that is no
shorter. -/
theorem siblings_row (h : IsRow a.nodes ts) {n : Nat} (hn : ts.length ≤ n) :
    a.siblings n (firstId? ts) = some (ids ts) := by
  induction ts generalizing n with
  | nil => cases n <;> rfl
  | cons t ts ih =>
      obtain ⟨⟨node, hnode, hnext⟩, hrest⟩ := h
      obtain ⟨n, rfl⟩ := Nat.exists_eq_succ_of_ne_zero (Nat.ne_zero_of_lt hn)
      have hfirst : firstId? (t :: ts) = some t.label.id := rfl
      rw [hfirst, siblings_some, hnode, Option.bind_some, hnext,
        ih hrest (Nat.le_of_succ_le_succ hn)]
      rfl

/-- No row is longer than the table. -/
theorem Holds.length_children_le (h : Holds nodes f) {t : Tree SpanNode} (ht : t ∈ allParts f) :
    t.children.length ≤ nodes.size := by
  have hnodup : (ids t.children).Nodup := (h.pairwise t ht).imp Nat.ne_of_lt
  have hsubset : ids t.children ⊆ List.range nodes.size := by
    intro id hid
    obtain ⟨c, hc, rfl⟩ := List.mem_map.1 hid
    exact List.mem_range.2 (h.lt_size c (mem_allParts_of_child ht hc))
  have hlength := (List.subperm_of_subset hnodup hsubset).length_le
  rwa [ids, List.length_map, List.length_range] at hlength

/-- The children that are found are those of the forest. -/
theorem Holds.children_eq (h : Holds a.nodes f) {t : Tree SpanNode} (ht : t ∈ allParts f) :
    a.children t.label.id = some (ids t.children) := by
  obtain ⟨next, hnode⟩ := h.node_eq t ht
  rw [children, hnode]
  exact siblings_row (h.isRow t ht) (h.length_children_le ht)

/-- A tree in a listing: its number and its level. -/
def listed (entry : Nat × Tree SpanNode) : Nat × Nat :=
  (entry.2.label.id, entry.1)

mutual

/-- Visiting a node lists all that is below it before anything else that waits. -/
theorem visit_root {t : Tree SpanNode}
    (h : ∀ u ∈ t.parts, a.children u.label.id = some (ids u.children)) (level : Nat)
    (stack : List (Nat × Nat)) (n : Nat) :
    a.visit (t.parts.length + n) ((t.label.id, level) :: stack) =
      (a.visit n stack).map ((t.subtrees level).map listed ++ ·) := by
  cases t with
  | node node ts =>
    rw [parts] at h
    obtain ⟨hroot, hbelow⟩ := List.forall_mem_cons.1 h
    rw [parts, List.length_cons, Nat.succ_add, visit_cons, hroot, Option.bind_some]
    show ((a.visit _ ((ids ts).map (·, level + 1) ++ stack)).map _) = _
    rw [visit_roots hbelow (level + 1) stack, Option.map_map, subtrees, List.map_cons]
    rfl

/-- What is waiting to be visited is listed with all that is below it. -/
theorem visit_roots {ts : Forest}
    (h : ∀ u ∈ allParts ts, a.children u.label.id = some (ids u.children)) (level : Nat)
    (stack : List (Nat × Nat)) (n : Nat) :
    a.visit ((allParts ts).length + n) ((ids ts).map (·, level) ++ stack) =
      (a.visit n stack).map ((forestSubtrees level ts).map listed ++ ·) := by
  cases ts with
  | nil =>
    rw [allParts, List.length_nil, Nat.zero_add]
    exact (Option.map_id' (x := a.visit n stack)).symm
  | cons t ts =>
    rw [allParts] at h
    obtain ⟨ht, hts⟩ := List.forall_mem_append.1 h
    have hroot := visit_root ht level ((ids ts).map (·, level) ++ stack) ((allParts ts).length + n)
    rw [visit_roots hts level stack, Option.map_map] at hroot
    rw [allParts, List.length_append, Nat.add_assoc, forestSubtrees, List.map_append]
    refine hroot.trans (congrArg (Option.map · (a.visit n stack)) ?_)
    funext listing
    exact (List.append_assoc _ _ _).symm

end

/-- The listing of the table is that of the forest. -/
theorem Holds.preorder_eq (h : Holds a.nodes f) (hroots : a.roots = ids f) :
    a.preorder = some (f.preorder.map listed) := by
  have hsize : a.size = (allParts f).length + 0 := by
    have hlength := h.perm.length_eq
    rw [ids, List.length_map, List.length_range] at hlength
    exact hlength.symm
  have hvisit := visit_roots (a := a) (fun u hu => h.children_eq hu) 0 [] 0
  rw [List.append_nil] at hvisit
  rw [preorder, hroots, hsize, hvisit, visit, Option.map_some, List.append_nil]
  rfl

/-- The listing has every number once. -/
theorem Holds.perm_listed (h : Holds nodes f) :
    ((f.preorder.map listed).map Prod.fst).Perm (List.range nodes.size) := by
  have hids : (f.preorder.map listed).map Prod.fst = ids (allParts f) := by
    rw [ids, ← map_snd_forestSubtrees 0, List.map_map, List.map_map]
    rfl
  rw [hids]
  exact h.perm

/-- A node is at a level: the nodes without a parent at level zero, and a child one level below its
parent. -/
inductive IsAt (a : Arena) : (level id : Nat) → Prop where
  /-- The roots are at level zero. -/
  | root {id : Nat} (h : id ∈ a.roots) : IsAt a 0 id
  /-- The children of a node are one level below it. -/
  | child {level parent id : Nat} {row : List Nat} (h : IsAt a level parent)
    (hrow : a.children parent = some row) (hid : id ∈ row) :
      IsAt a (level + 1) id

/-- The listing of a forest has a node at a level exactly if the links of the table put it there. -/
theorem Holds.isAt_iff (h : Holds a.nodes f) (hroots : a.roots = ids f) {level id : Nat} :
    (id, level) ∈ f.preorder.map listed ↔ a.IsAt level id := by
  constructor
  · intro hmem
    obtain ⟨⟨_, t⟩, ht, hlisted⟩ := List.mem_map.1 hmem
    obtain ⟨rfl, rfl⟩ := Prod.mk.inj hlisted
    have hall : ∀ e ∈ forestSubtrees 0 f, e.2 ∈ allParts f ∧ a.IsAt e.1 e.2.label.id :=
      forall_forestSubtrees (P := fun l t => t ∈ allParts f ∧ a.IsAt l t.label.id)
        (fun l p c hp hc => ⟨mem_allParts_of_child hp.1 hc, hp.2.child (h.children_eq hp.1)
          (List.mem_map_of_mem hc)⟩)
        fun t ht => ⟨mem_allParts_of_mem ht, .root (hroots ▸ List.mem_map_of_mem ht)⟩
    exact (hall _ ht).2
  · intro hat
    suffices hexists : ∃ t, (level, t) ∈ f.preorder ∧ t.label.id = id by
      obtain ⟨t, ht, rfl⟩ := hexists
      exact List.mem_map_of_mem (f := listed) ht
    induction hat with
    | root hroot =>
        rw [hroots] at hroot
        obtain ⟨t, ht, rfl⟩ := List.mem_map.1 hroot
        exact ⟨t, mem_forestSubtrees_of_mem ht 0, rfl⟩
    | child _ hrow hid ih =>
        obtain ⟨p, hp, rfl⟩ := ih
        have hmem : p ∈ allParts f :=
          map_snd_forestSubtrees 0 f ▸ List.mem_map_of_mem (f := Prod.snd) hp
        rw [h.children_eq hmem] at hrow
        obtain rfl := Option.some.inj hrow
        obtain ⟨c, hc, rfl⟩ := List.mem_map.1 hid
        exact ⟨c, mem_forestSubtrees_of_child hp hc, rfl⟩

/-- A node of the table has the token of its tree. -/
theorem Holds.token?_eq (h : Holds a.nodes f) {t : Tree SpanNode} (ht : t ∈ allParts f) :
    a.token? t.label.id = some t.label.token := by
  obtain ⟨next, hnode⟩ := h.node_eq t ht
  rw [token?, hnode]
  rfl

/-- A child lies in the span of its parent, and was emitted before it. -/
theorem Holds.exists_tokens (h : Holds a.nodes f) {t c : Tree SpanNode} (ht : t ∈ allParts f)
    (hc : c ∈ t.children) :
    ∃ parent child, a.token? t.label.id = some parent ∧ a.token? c.label.id = some child ∧
      parent.contains child.toToken = true ∧ child.index < parent.index := by
  obtain ⟨hcontains, hindex⟩ := Bool.and_eq_true_iff.1 (h.isParentOf t ht c hc)
  exact ⟨_, _, h.token?_eq ht, h.token?_eq (mem_allParts_of_child ht hc), hcontains,
    of_decide_eq_true hindex⟩

/-- Nodes are numbered in emission order. -/
theorem index_lt_of_lt {tokens : List Token}
    (hnodes : a.nodes.toList.map (·.token) = (indexed tokens).filter (!·.isEmpty))
    {i j : Nat} {t u : IndexedToken} (hi : a.token? i = some t) (hj : a.token? j = some u)
    (hij : i < j) :
    t.index < u.index := by
  have hpairwise : (a.nodes.toList.map (·.token)).Pairwise (·.index < ·.index) := by
    rw [hnodes]
    exact (pairwise_indexed tokens).filter _
  have hget : ∀ k, (a.nodes.toList.map (·.token))[k]? = a.token? k := fun k => by simp [token?]
  obtain ⟨hi', hi⟩ := List.getElem?_eq_some_iff.1 ((hget i).trans hi)
  obtain ⟨hj', hj⟩ := List.getElem?_eq_some_iff.1 ((hget j).trans hj)
  rw [← hi, ← hj]
  exact List.pairwise_iff_getElem.1 hpairwise i j hi' hj' hij

end Arena

/-- Whatever the tokens of a list are, their table is a forest of those that span text, numbered in
emission order. The listing ends, and holds every node once, at its distance from a node without a
parent; it is the listing of the forest of the list. Every node is without a parent, or else the
child of one node. A child lies in the span of its parent and was emitted before it. The nodes
without a parent and the children of each node come in emission order. -/
theorem arena_is_forest (tokens : List Token) :
    let a := Arena.ofTokens tokens
    a.nodes.toList.map (·.token) = (indexed tokens).filter (!·.isEmpty) ∧
    (∀ i j t u, a.token? i = some t → a.token? j = some u → i < j → t.index < u.index) ∧
    (∃ listing, a.preorder = some listing ∧ (listing.map Prod.fst).Perm (List.range a.size) ∧
      (∀ level id, (id, level) ∈ listing ↔ a.IsAt level id) ∧
      listing = (Forest.ofTokens tokens).preorder.map fun (level, t) => (t.label.id, level)) ∧
    ∃ rows : Nat → List Nat, (∀ id < a.size, a.children id = some (rows id)) ∧
      (a.roots ++ (List.range a.size).flatMap rows).Perm (List.range a.size) ∧
      (∀ p < a.size, ∀ c ∈ rows p, ∃ t u, a.token? p = some t ∧ a.token? c = some u ∧
        t.contains u.toToken = true ∧ u.index < t.index) ∧
      a.roots.Pairwise (· < ·) ∧ ∀ p < a.size, (rows p).Pairwise (· < ·) := by
  intro a
  obtain ⟨hroots, hholds, hpairwise, hnodes⟩ := Arena.holds_ofTokens tokens
  let rows : Nat → List Nat := fun p => (a.children p).getD []
  have hrows : ∀ t ∈ allParts (Forest.ofTokens tokens), rows t.label.id = Arena.ids t.children := by
    intro t ht
    show (a.children t.label.id).getD [] = _
    rw [hholds.children_eq ht, Option.getD_some]
  refine ⟨hnodes, fun i j t u => Arena.index_lt_of_lt hnodes,
    ⟨_, hholds.preorder_eq hroots, hholds.perm_listed,
    fun level id => hholds.isAt_iff hroots, rfl⟩, rows, ?_,
      hroots ▸ hholds.perm_rows_by_number hrows, ?_,
    hroots ▸ hpairwise, ?_⟩
  · intro p hp
    obtain ⟨t, ht, rfl⟩ := hholds.exists_of_lt hp
    rw [hrows t ht, hholds.children_eq ht]
  · intro p hp c hc
    obtain ⟨t, ht, rfl⟩ := hholds.exists_of_lt hp
    rw [hrows t ht] at hc
    obtain ⟨u, hu, rfl⟩ := List.mem_map.1 hc
    exact hholds.exists_tokens ht hu
  · intro p hp
    obtain ⟨t, ht, rfl⟩ := hholds.exists_of_lt hp
    rw [hrows t ht]
    exact hholds.pairwise t ht

end RiftLang
