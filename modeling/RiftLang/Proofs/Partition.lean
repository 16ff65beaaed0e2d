import Mathlib.Data.List.Sort
import Mathlib.Order.RelIso.Basic
import RiftLang.Proofs.Nesting.Layered
import RiftLang.Token.Census

/-!
# Layers are a stable partition

Any tokens may be put into layers, whatever their depths are and in whatever order they come. The
count and the placing agree: there is a layer for every token, with room for just the tokens that
come to it. No token is lost, and its place in emission order brings it back to where it was.

* `Census.Counts` — a census that is right for some tokens. `Census.Counts.add` is what one token
  keeps, and `Census.Counts.addAll` what all tokens keep.
* `Layers.distribute?_eq` — both passes find every count and every layer, and give the layers of the
  tokens.
* `depthBound_eq`, `perm_flatten_ofTokens` — how many layers there are, and what is in all of them.
* `IsStablePartition` — what layers have to do with the tokens they were made of.
* `layers_are_stable_partition` — the layers of any tokens are such layers.
-/

namespace RiftLang

/-! ## Counting -/

namespace Census

/-- There are counts up to the deepest of the tokens, and each count is right. -/
structure Counts (c : Census) (tokens : List Token) : Prop where
  /-- There is a count for every depth up to the deepest. -/
  size_eq : c.counts.size = depthBound tokens
  /-- Each is the number of tokens of its depth. -/
  count_eq : ∀ depth, c.count depth = tokens.countP (·.depth = depth)

variable {c : Census} {before : List Token}

/-- Before the first token there are no counts, and they are right. -/
theorem counts_empty : empty.Counts [] where
  size_eq := rfl
  count_eq _ := rfl

/-- A token finds its count, and the census takes it in. -/
theorem Counts.add (h : c.Counts before) (t : Token) :
    ∃ c', c.add? t = some c' ∧ c'.Counts (before ++ [t]) := by
  have hsize : (c.reach t.depth).counts.size = max (depthBound before) (t.depth + 1) := by
    rw [size_reach, h.size_eq]
  have hroom : t.depth < (c.reach t.depth).counts.size := by omega
  obtain ⟨c', hraise, hsize', hcount⟩ := exists_raise? hroom
  refine ⟨c', hraise, ?_, fun depth => ?_⟩
  · rw [hsize', hsize, depthBound_concat]
  · rw [hcount, count_reach, h.count_eq, List.countP_append, List.countP_singleton]
    simp only [decide_eq_true_eq]

/-- All tokens find their counts, one after the other. -/
theorem Counts.addAll (h : c.Counts before) (tokens : List Token) :
    ∃ c', tokens.foldlM add? c = some c' ∧ c'.Counts (before ++ tokens) := by
  induction tokens generalizing c before with
  | nil => exact ⟨c, rfl, by rwa [List.append_nil]⟩
  | cons t tokens ih =>
      obtain ⟨c₁, hadd, h₁⟩ := h.add t
      obtain ⟨c₂, hrest, h₂⟩ := ih h₁
      refine ⟨c₂, ?_, ?_⟩
      · rw [List.foldlM_cons, hadd]
        exact hrest
      · rwa [List.append_assoc] at h₂

/-- The first pass comes to an end with the right counts, since a count is added wherever one is
missing. -/
theorem exists_counts (tokens : List Token) : ∃ c, ofTokens? tokens = some c ∧ c.Counts tokens :=
  counts_empty.addAll tokens

end Census

/-! ## Placing -/

namespace Layers

/-- Where there is a layer for every token, all are placed. -/
theorem foldlM_place? {l : Layers} {tokens : List IndexedToken}
    (h : ∀ t ∈ tokens, t.depth < l.count) :
    tokens.foldlM place? l = some (tokens.foldl push l) := by
  induction tokens generalizing l with
  | nil => rfl
  | cons t tokens ih =>
      obtain ⟨ht, htokens⟩ := List.forall_mem_cons.1 h
      have hplace : l.place? t = some (l.push t) := if_pos ht
      rw [List.foldlM_cons, hplace, List.foldl_cons]
      refine ih fun u hu => ?_
      rw [count_push]
      exact htokens u hu

/-- Counted and then filled, the layers are those of the tokens. -/
theorem distribute?_eq (tokens : List Token) : distribute? tokens = some (ofTokens tokens) := by
  obtain ⟨census, hcensus, hcounts⟩ := Census.exists_counts tokens
  have hrooms : census.rooms = ⟨Array.replicate (depthBound tokens + 1) #[]⟩ := by
    rw [Census.rooms_eq, hcounts.size_eq]
  have hfits : ∀ t ∈ indexed tokens, t.depth < census.rooms.count := by
    intro t ht
    rw [hrooms, count, Array.size_replicate]
    exact Nat.lt_succ_of_lt (depth_lt_of_mem_indexed ht)
  rw [distribute?, hcensus]
  show (indexed tokens).foldlM place? census.rooms = _
  rw [foldlM_place? hfits, hrooms]
  rfl

end Layers

/-! ## The layers of any tokens -/

section layers

variable (tokens : List Token)

/-- The bound is one past the greatest depth. -/
theorem depthBound_eq : depthBound tokens = (tokens.map (·.depth)).max?.elim 0 (· + 1) := by
  induction tokens with
  | nil => rfl
  | cons t tokens ih =>
      rw [depthBound_cons, ih, List.map_cons, List.max?_cons]
      cases (tokens.map (·.depth)).max? with
      | none => exact Nat.max_zero (t.depth + 1)
      | some greatest => exact Nat.add_max_add_right t.depth greatest 1

namespace Layers

/-- The last layer, past the deepest token, is empty. -/
theorem toList_ofTokens_concat :
    (ofTokens tokens).toList =
      (List.range (depthBound tokens)).map (ofTokens tokens).layer ++ [[]] := by
  have hlast : (ofTokens tokens).layer (depthBound tokens) = [] := by
    rw [layer_ofTokens, filter_indexed_eq_nil (Nat.le_refl _)]
  rw [toList_eq, count_ofTokens, ← List.range_eq_range', List.range_succ, List.map_append,
    List.map_singleton, hlast]

/-- All layers together have the tokens of the list. -/
theorem perm_flatten_ofTokens : (ofTokens tokens).toList.flatten.Perm (indexed tokens) := by
  have hnodup := nodup_indexed tokens
  rw [toList_ofTokens]
  refine (List.perm_ext_iff_of_nodup (nodup_flatten_strata hnodup _ _) hnodup).2 fun t => ?_
  rw [mem_flatten_strata]
  constructor
  · exact And.left
  · intro ht
    have hdepth := depth_lt_of_mem_indexed ht
    exact ⟨ht, Nat.zero_le _, by omega⟩

/-- The number of tokens in layers is that of all layers in a row. -/
theorem size_eq (l : Layers) : l.size = l.toList.flatten.length := by
  rw [size, ← Array.foldl_toList, List.length_flatten, toList, List.map_map, List.sum_eq_foldl,
    List.foldl_map]
  rfl

/-- Sorted by their places in emission order, the tokens of all layers are those of the list
again. -/
theorem mergeSort_flatten_ofTokens :
    (ofTokens tokens).toList.flatten.mergeSort (·.index ≤ ·.index) = indexed tokens := by
  have hperm := (List.mergeSort_perm _ (·.index ≤ ·.index)).trans (perm_flatten_ofTokens tokens)
  have hsorted := List.pairwise_mergeSort' (Order.Preimage IndexedToken.index (· ≤ ·))
    (ofTokens tokens).toList.flatten
  -- a place is that of one token only, so there is one order by places
  have hplaces : ((indexed tokens).map (·.index)).Nodup := by
    rw [map_index_indexed]
    exact List.nodup_range
  apply hperm.eq_of_pairwise ?_ hsorted ((pairwise_indexed tokens).imp Nat.le_of_lt)
  intro t u ht hu hle hge
  exact List.inj_on_of_nodup_map hplaces (hperm.subset ht) hu (Nat.le_antisymm hle hge)

end Layers

end layers

/-- The tokens of a depth are as many with their places as without. -/
theorem countP_indexed (tokens : List Token) (depth : Nat) :
    (indexed tokens).countP (·.depth = depth) = tokens.countP (·.depth = depth) := by
  have hmap : ((indexed tokens).map (·.toToken)).countP (·.depth = depth) =
      (indexed tokens).countP (·.depth = depth) := List.countP_map
  rw [← hmap, map_toToken_indexed]

/-- Every layer has as many tokens as room was made for. -/
theorem Census.Counts.map_length_toList {c : Census} {tokens : List Token} (h : c.Counts tokens) :
    (Layers.ofTokens tokens).toList.map List.length = c.counts.toList ++ [0] := by
  have hlayer : ∀ k, ((Layers.ofTokens tokens).layer k).length = c.count k := by
    intro k
    rw [Layers.layer_ofTokens, h.count_eq, ← List.countP_eq_length_filter, countP_indexed]
  rw [Layers.toList_ofTokens_concat, List.map_append, List.map_map, toList_counts, h.size_eq]
  exact congrArg (· ++ [0]) (List.map_congr_left fun k _ => hlayer k)

/-! ## The partition -/

/-- A token and its place in emission order. -/
def IndexedToken.toPair (t : IndexedToken) : Token × Nat :=
  (t.toToken, t.index)

/-- Numbered tokens are the tokens with their places. -/
theorem map_toPair_indexed (tokens : List Token) :
    (indexed tokens).map IndexedToken.toPair = tokens.zipIdx := by
  rw [indexed, List.map_map]
  exact List.map_id _

/-- What layers have to do with the tokens they were made of. -/
structure IsStablePartition (tokens : List Token) (l : Layers) : Prop where
  /-- The layer of a depth has the tokens of that depth, in emission order and each with its place
  in the list. -/
  layer_eq : ∀ depth, (l.layer depth).map IndexedToken.toPair =
    tokens.zipIdx.filter (·.1.depth = depth)
  /-- The layers are listed from depth zero down. -/
  toList_eq : l.toList = (List.range l.count).map l.layer
  /-- There is one layer past the deepest token, and there is one if there is no token. -/
  count_eq : l.count = (tokens.map (·.depth)).max?.elim 1 (· + 2)
  /-- The last layer is empty. -/
  getLast?_eq : l.toList.getLast? = some []
  /-- There are as many tokens in all layers as in the list. -/
  size_eq : l.size = tokens.length
  /-- Collected from all layers and sorted by their places, the tokens are the list again. -/
  map_mergeSort_eq : (l.toList.flatten.mergeSort (·.index ≤ ·.index)).map (·.toToken) = tokens

/-- Any tokens are counted and placed without missing a count or a layer, and every layer comes to
have as many tokens as room was made for. The layers are a stable partition of the tokens, and they
are those that walks and anchors are read from. -/
theorem layers_are_stable_partition (tokens : List Token) :
    ∃ census layers, Census.ofTokens? tokens = some census ∧
      Layers.distribute? tokens = some layers ∧
      layers.toList.map List.length = census.counts.toList ++ [0] ∧
      IsStablePartition tokens layers ∧ layers = Layers.ofTokens tokens := by
  obtain ⟨census, hcensus, hcounts⟩ := Census.exists_counts tokens
  have hpartition : IsStablePartition tokens (Layers.ofTokens tokens) := by
    constructor
    case layer_eq =>
      intro depth
      rw [Layers.layer_ofTokens, ← map_toPair_indexed, List.filter_map]
      rfl
    case toList_eq => rw [Layers.toList_eq, List.range_eq_range']
    case count_eq =>
      rw [Layers.count_ofTokens, depthBound_eq]
      cases (tokens.map (·.depth)).max? <;> rfl
    case getLast?_eq => rw [Layers.toList_ofTokens_concat, List.getLast?_concat]
    case size_eq =>
      rw [Layers.size_eq, (Layers.perm_flatten_ofTokens tokens).length_eq, length_indexed]
    case map_mergeSort_eq => rw [Layers.mergeSort_flatten_ofTokens, map_toToken_indexed]
  exact ⟨census, _, hcensus, Layers.distribute?_eq tokens, hcounts.map_length_toList,
    hpartition, rfl⟩

end RiftLang
