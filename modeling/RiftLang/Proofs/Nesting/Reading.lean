import RiftLang.Proofs.Nesting.Trees
import RiftLang.Token.Walk

/-!
# Reading trees from layers

Reading the layers of a derivation's tokens gives the trees of the derivation. What comes later in
emission order is never read in between: it is neither in a token that is read nor before it.

* `strata` — the tokens of some depths, by depth. `toList_ofTokens` — the layers of a log are its
  strata.
* `skipRun_stamped` — passing over the tokens of a derivation passes over nothing else.
* `readRun_stamped` — reading them gives the trees of the derivation.
* `trees_ofTokens` — so does reading the layers of a log.
-/

namespace RiftLang

/-! ## Layers -/

/-- The tokens of `count` depths, from `depth` on. -/
def strata (depth count : Nat) (tokens : List IndexedToken) : Unread :=
  (List.range' depth count).map fun k => tokens.filter (·.depth = k)

/-- The first layer has the tokens of the first depth; the others are the layers from the next depth
on. -/
theorem strata_succ (depth count : Nat) (tokens : List IndexedToken) :
    strata depth (count + 1) tokens = tokens.filter (·.depth = depth) ::
      strata (depth + 1) count tokens := by
  rw [strata, List.range'_succ]
  rfl

/-- Tokens of lesser depth are in no layer. -/
theorem strata_append_cons {depth : Nat} {t : IndexedToken} (h : t.depth < depth) (count : Nat)
    (ts us : List IndexedToken) :
    strata depth count (ts ++ t :: us) = strata depth count (ts ++ us) := by
  refine List.map_congr_left fun k hk => ?_
  have hne : t.depth ≠ k := (h.trans_le (List.mem_range'_1.1 hk).1).ne
  simp [List.filter_append, hne]

/-- Every token is less deep than the bound. -/
theorem lt_depthBound {tokens : List Token} : ∀ t ∈ tokens, t.depth < depthBound tokens := by
  induction tokens with
  | nil => exact List.forall_mem_nil _
  | cons t tokens ih =>
      rw [depthBound_cons]
      refine List.forall_mem_cons.2 ⟨?_, fun u hu => ?_⟩
      · exact Nat.le_max_left _ _
      · exact (ih u hu).trans_le (Nat.le_max_right _ _)

/-- The same of numbered tokens. -/
theorem depth_lt_of_mem_indexed {tokens : List Token} {t : IndexedToken} (h : t ∈ indexed tokens) :
    t.depth < depthBound tokens :=
  lt_depthBound _ (mem_of_mem_indexedFrom h)

/-- No token is as deep as the bound. -/
theorem filter_indexed_eq_nil {tokens : List Token} {k : Nat} (h : depthBound tokens ≤ k) :
    (indexed tokens).filter (·.depth = k) = [] := by
  refine List.filter_eq_nil_iff.2 fun t ht => ?_
  have hlt := depth_lt_of_mem_indexed ht
  simp only [decide_eq_true_eq]
  omega

namespace Layers

/-- A token pushed on the layers is added to the layer of its depth, and to no other. -/
theorem layer_push {l : Layers} {t : IndexedToken} {k : Nat} (hk : k < l.count) :
    (l.push t).layer k = l.layer k ++ if t.depth = k then [t] else [] := by
  unfold push layer
  simp only [Array.getD_eq_getD_getElem?, Array.getElem?_modify]
  by_cases h : t.depth = k
  · simp [h, Array.getElem?_eq_getElem (show k < l.layers.size from hk)]
  · simp [h]

/-- Pushing a token adds no layer. -/
theorem count_push (l : Layers) (t : IndexedToken) : (l.push t).count = l.count :=
  Array.size_modify

/-- Pushing several tokens adds no layer. -/
theorem count_foldl_push (l : Layers) (tokens : List IndexedToken) :
    (tokens.foldl push l).count = l.count := by
  induction tokens generalizing l with
  | nil => rfl
  | cons t tokens ih => exact (ih (l.push t)).trans (count_push l t)

/-- Of tokens pushed one after the other, a layer gets those of its depth, in order. -/
theorem layer_foldl_push {l : Layers} {k : Nat} (hk : k < l.count) (tokens : List IndexedToken) :
    (tokens.foldl push l).layer k = l.layer k ++ tokens.filter (·.depth = k) := by
  induction tokens generalizing l with
  | nil => exact (List.append_nil _).symm
  | cons t tokens ih =>
      rw [List.foldl_cons, ih (by rwa [count_push]), layer_push hk, List.append_assoc]
      by_cases h : t.depth = k <;> simp [h]

/-- The list of the layers has each of them at its depth. -/
theorem toList_eq (l : Layers) : l.toList = (List.range' 0 l.count).map l.layer := by
  refine List.ext_getElem (by simp [toList, count]) fun k hk _ => ?_
  have hk : k < l.layers.size := by simpa [toList] using hk
  simp [toList, layer, Array.getD_eq_getD_getElem?, hk]

/-- There is one layer more than the deepest token needs. -/
theorem count_ofTokens (tokens : List Token) : (ofTokens tokens).count = depthBound tokens + 1 :=
  (count_foldl_push _ _).trans Array.size_replicate

/-- A layer of a log has the tokens of its depth. -/
theorem layer_ofTokens (tokens : List Token) (k : Nat) :
    (ofTokens tokens).layer k = (indexed tokens).filter (·.depth = k) := by
  rcases Nat.lt_or_ge k (depthBound tokens + 1) with hk | hk
  · rw [ofTokens, layer_foldl_push (by simpa [count] using hk)]
    simp [layer, Array.getD_eq_getD_getElem?, hk]
  · have hsize : (ofTokens tokens).layers.size ≤ k := (count_ofTokens tokens).trans_le hk
    rw [filter_indexed_eq_nil (by omega), layer, Array.getD_eq_getD_getElem?,
      Array.getElem?_eq_none hsize]
    rfl

/-- A token lies in the layer of its depth. -/
theorem depth_eq_of_mem_layer {tokens : List Token} {k : Nat} {t : IndexedToken}
    (h : t ∈ (ofTokens tokens).layer k) :
    t.depth = k := by
  rw [layer_ofTokens] at h
  exact of_decide_eq_true (List.mem_filter.1 h).2

/-- The layers of a log are its strata. -/
theorem toList_ofTokens (tokens : List Token) :
    (ofTokens tokens).toList = strata 0 (depthBound tokens + 1) (indexed tokens) := by
  rw [toList_eq, count_ofTokens]
  exact List.map_congr_left fun k _ => layer_ofTokens tokens k

end Layers

/-! ## Passing over -/

section runs

variable {mine : IndexedToken → Bool} {skip : IndexedToken → Unread → Unread}
  {read : IndexedToken → Unread → List (Tree IndexedToken) × Unread} {layer : List IndexedToken}
    {below : Unread}

/-- Where no token of a layer is to be passed over, nothing is. -/
theorem skipRun_of_not_mine (h : ∀ t ∈ layer, mine t = false) :
    skipRun mine skip layer below = (layer, below) := by
  cases layer with
  | nil => rfl
  | cons t layer => simp [skipRun, h t List.mem_cons_self]

/-- Where no token of a layer is to be read, nothing is. -/
theorem readRun_of_not_mine (h : ∀ t ∈ layer, mine t = false) :
    readRun mine skip read layer below = ([], layer, below) := by
  cases layer with
  | nil => rfl
  | cons t layer => simp [readRun, h t List.mem_cons_self]

end runs

/-- Nothing that comes later is nested in a token. -/
theorem isParentOf_filter_eq_false {p : IndexedToken} {later : List IndexedToken}
    (h : ∀ t ∈ later, p.index ≤ t.index) (depth : Nat) :
    ∀ t ∈ later.filter (·.depth = depth), p.isParentOf t = false :=
  fun t ht => Derivation.isParentOf_eq_false (h t (List.mem_filter.1 ht).1)

/-- Tokens emitted after `p` are not nested in it, so none of them is passed over. -/
theorem skipNested_of_later {p : IndexedToken} {later : List IndexedToken}
    (h : ∀ t ∈ later, p.index ≤ t.index) (depth n : Nat) :
    skipNested n p (strata depth n later) = strata depth n later := by
  cases n with
  | zero => rfl
  | succ n => rw [strata_succ, skipNested, skipRun_of_not_mine (isParentOf_filter_eq_false h depth)]

namespace Derivation

variable {start depth first n : Nat} {later : List IndexedToken} {mine : IndexedToken → Bool}

/-- A derivation recorded one deeper has no token at the depth above. -/
theorem filter_stamped_eq_nil {d : Derivation} :
    (d.stamped start (depth + 1) first).filter (·.depth = depth) = [] := by
  refine List.filter_eq_nil_iff.2 fun t ht => ?_
  have hdepth := (bounds_of_mem_stamped ht).depth_le
  simp only [decide_eq_true_eq]
  omega

/-- The layer of a capture and the layers below it. -/
theorem filter_stamped_capture (s : Symbol) (d : Derivation) :
    ((capture s d).stamped start depth first ++ later).filter (·.depth = depth) =
      captureToken s d start depth first :: later.filter (·.depth = depth) := by
  rw [stamped_capture, List.append_assoc, List.filter_append, filter_stamped_eq_nil]
  simp [captureToken]

/-- Below the depth of a capture, its own token plays no part. -/
theorem strata_stamped_capture (s : Symbol) (d : Derivation) (n : Nat) :
    strata (depth + 1) n ((capture s d).stamped start depth first ++ later) =
      strata (depth + 1) n (d.stamped start (depth + 1) first ++ later) := by
  rw [stamped_capture, List.append_assoc, List.singleton_append]
  exact strata_append_cons (Nat.lt_succ_self depth) n _ _

/-- At the depth of an action, its token is the first. -/
theorem filter_stamped_action (a : Action) :
    ((action a).stamped start depth first ++ later).filter (·.depth = depth) =
      ⟨⟨.action a, start, start, depth⟩, first⟩ :: later.filter (·.depth = depth) := by
  simp

/-- Below the depth of an action, its token plays no part. -/
theorem strata_stamped_action (a : Action) (n : Nat) :
    strata (depth + 1) n ((action a).stamped start depth first ++ later) =
      strata (depth + 1) n later :=
  strata_append_cons (Nat.lt_succ_self depth) n [] later

/-- There is a layer below every token of the derivation, when `n` layers are below `depth`. -/
def FitsIn (d : Derivation) (start depth first n : Nat) : Prop :=
  ∀ t ∈ d.stamped start depth first, t.depth < depth + n

/-- There are layers enough for derivations in a row if there are enough for each. -/
theorem fitsIn_append_iff {d e : Derivation} :
    (d.append e).FitsIn start depth first n ↔
      d.FitsIn start depth first n ∧ e.FitsIn (start + d.width) depth (first + d.count) n := by
  rw [FitsIn, stamped_append, List.forall_mem_append]
  exact Iff.rfl

/-- A capture needs one layer more than its body. -/
theorem FitsIn.exists_body {s : Symbol} {d : Derivation}
    (h : (capture s d).FitsIn start depth first n) :
    ∃ m, n = m + 1 ∧ d.FitsIn start (depth + 1) first m := by
  rw [FitsIn, stamped_capture, List.forall_mem_append] at h
  have hdepth : depth < depth + n := h.2 _ List.mem_cons_self
  obtain ⟨m, rfl⟩ :=
    Nat.exists_eq_add_of_lt (Nat.lt_of_add_lt_add_left (show depth + 0 < depth + n from hdepth))
  refine ⟨m, by omega, fun t ht => ?_⟩
  have hbody := h.1 t ht
  omega

/-- All later tokens come after the tokens of both parts. -/
theorem forall_mem_stamped_append {e : Derivation} {count : Nat} {start depth : Nat}
    (hlater : ∀ t ∈ later, first + (count + e.count) ≤ t.index) :
    ∀ t ∈ e.stamped start depth (first + count) ++ later, first + count ≤ t.index := by
  refine List.forall_mem_append.2 ⟨fun t ht => (bounds_of_mem_stamped ht).first_le, fun t ht => ?_⟩
  have hindex := hlater t ht
  omega

/-- What is nested in a token ends where passing over its children ends. -/
theorem skipNested_of_skipRun {p : IndexedToken} {tokens : List IndexedToken}
    (hlater : ∀ t ∈ later, p.index ≤ t.index)
    (h : skipRun p.isParentOf (skipNested n) ((tokens ++ later).filter (·.depth = depth))
        (strata (depth + 1) n (tokens ++ later)) =
      skipRun p.isParentOf (skipNested n) (later.filter (·.depth = depth))
        (strata (depth + 1) n later)) :
    skipNested (n + 1) p (strata depth (n + 1) (tokens ++ later)) = strata depth (n + 1) later := by
  rw [strata_succ, strata_succ, skipNested, h,
    skipRun_of_not_mine (isParentOf_filter_eq_false hlater depth)]

/-- Passing over the tokens of a derivation passes over nothing that comes later. -/
theorem skipRun_stamped (d : Derivation) (hfits : d.FitsIn start depth first n)
    (hlater : ∀ t ∈ later, first + d.count ≤ t.index)
    (hmine : ∀ t ∈ d.stamped start depth first, mine t = true) :
    skipRun mine (skipNested n) ((d.stamped start depth first ++ later).filter (·.depth = depth))
        (strata (depth + 1) n (d.stamped start depth first ++ later)) =
      skipRun mine (skipNested n) (later.filter (·.depth = depth))
        (strata (depth + 1) n later) := by
  induction d generalizing start depth first n later mine with
  | leaf _ => rfl
  | action a =>
      rw [filter_stamped_action, strata_stamped_action, skipRun,
        if_pos (hmine _ List.mem_cons_self),
        skipNested_of_later fun t ht => (Nat.le_add_right _ _).trans (hlater t ht)]
  | append d e ihd ihe =>
      obtain ⟨hd, he⟩ := fitsIn_append_iff.1 hfits
      rw [stamped_append] at hmine ⊢
      obtain ⟨hmined, hminee⟩ := List.forall_mem_append.1 hmine
      rw [List.append_assoc, ihd hd (forall_mem_stamped_append hlater) hmined]
      exact ihe he (fun t ht => (Nat.add_assoc _ _ _).trans_le (hlater t ht)) hminee
  | capture s d ih =>
      obtain ⟨m, rfl, hd⟩ := hfits.exists_body
      rw [stamped_capture] at hmine
      have htoken := hmine _ (List.mem_append_right _ List.mem_cons_self)
      have hafter : ∀ t ∈ later, (captureToken s d start depth first).index ≤ t.index :=
        fun t ht => (Nat.le_succ _).trans (hlater t ht)
      rw [filter_stamped_capture, strata_stamped_capture, skipRun, if_pos htoken,
        skipNested_of_skipRun hafter (ih hd hafter fun t ht => isParentOf_captureToken ht)]

/-! ## Reading -/

/-- Reading the tokens of a derivation gives its trees, and then goes on with what comes later. -/
theorem readRun_stamped (d : Derivation) (hfits : d.FitsIn start depth first n)
    (hlater : ∀ t ∈ later, first + d.count ≤ t.index)
    (hmine : ∀ t ∈ d.stamped start depth first, mine t = true) :
    readRun mine (skipNested n) (fun t => readTrees n t.isParentOf)
        ((d.stamped start depth first ++ later).filter (·.depth = depth))
        (strata (depth + 1) n (d.stamped start depth first ++ later)) =
      Prod.map (d.trees start depth first ++ ·) id
        (readRun mine (skipNested n) (fun t => readTrees n t.isParentOf)
          (later.filter (·.depth = depth)) (strata (depth + 1) n later)) := by
  -- The later tokens vary: for the first part of a row, those of the second part are among them.
  induction d generalizing start depth first n later mine with
  | leaf _ => rfl
  | action a =>
      rw [filter_stamped_action, strata_stamped_action, readRun,
        if_pos (hmine _ List.mem_cons_self), if_pos (by simp [Token.isEmpty]),
        skipNested_of_later fun t ht => (Nat.le_add_right _ _).trans (hlater t ht)]
      rfl
  | append d e ihd ihe =>
      obtain ⟨hd, he⟩ := fitsIn_append_iff.1 hfits
      rw [stamped_append] at hmine ⊢
      obtain ⟨hmined, hminee⟩ := List.forall_mem_append.1 hmine
      rw [List.append_assoc, ihd hd (forall_mem_stamped_append hlater) hmined,
        ihe he (fun t ht => (Nat.add_assoc _ _ _).trans_le (hlater t ht)) hminee, Prod.map_map]
      simp only [trees, List.append_assoc]
      rfl
  | capture s d ih =>
      obtain ⟨m, rfl, hd⟩ := hfits.exists_body
      rw [stamped_capture] at hmine
      have htoken := hmine _ (List.mem_append_right _ List.mem_cons_self)
      have hafter : ∀ t ∈ later, (captureToken s d start depth first).index ≤ t.index :=
        fun t ht => (Nat.le_succ _).trans (hlater t ht)
      have hbody : ∀ t ∈ d.stamped start (depth + 1) first,
          (captureToken s d start depth first).isParentOf t = true :=
        fun t ht => isParentOf_captureToken ht
      rw [filter_stamped_capture, strata_stamped_capture, readRun, if_pos htoken]
      by_cases hw : d.width = 0
      · -- A token without width is passed over, and the tokens of its body with it.
        have hempty : (captureToken s d start depth first).isEmpty = true :=
          by simp [Token.isEmpty, captureToken, hw]
        rw [if_pos hempty, skipNested_of_skipRun hafter (skipRun_stamped d hd hafter hbody),
          trees, if_pos hw]
        rfl
      · have hempty : (captureToken s d start depth first).isEmpty = false :=
          by simp [Token.isEmpty, captureToken, hw]
        have hchildren : readTrees (m + 1) (captureToken s d start depth first).isParentOf
            (strata (depth + 1) (m + 1) (d.stamped start (depth + 1) first ++ later)) =
              (d.trees start (depth + 1) first, strata (depth + 1) (m + 1) later) := by
          rw [strata_succ, readTrees, ih hd hafter hbody,
            readRun_of_not_mine (isParentOf_filter_eq_false hafter (depth + 1)), strata_succ]
          simp
        rw [if_neg (by simp [hempty]), hchildren, trees, if_neg hw]
        rfl

/-- Reading the layers of the tokens of a derivation gives the trees of the derivation. -/
theorem trees_ofTokens (d : Derivation) :
    (Layers.ofTokens (d.tokens 0 0)).trees = d.trees 0 0 0 := by
  have hfits : d.FitsIn 0 0 0 (depthBound (d.tokens 0 0)) := by
    intro t ht
    rw [Nat.zero_add]
    exact depth_lt_of_mem_indexed ht
  have hlater : ∀ t ∈ ([] : List IndexedToken), 0 + d.count ≤ t.index := List.forall_mem_nil _
  have hall : ∀ t ∈ d.stamped 0 0 0, (fun _ : IndexedToken => true) t = true := fun _ _ => rfl
  have hread := d.readRun_stamped hfits hlater hall
  rw [List.append_nil] at hread
  rw [Layers.trees, Layers.count_ofTokens, Layers.toList_ofTokens, strata_succ,
    readTrees, indexed_eq]
  show (readRun _ _ _ ((d.stamped 0 0 0).filter (·.depth = 0)) (strata 1 _ (d.stamped 0 0 0))).1 = _
  rw [hread]
  exact List.append_nil _

end Derivation

end RiftLang
