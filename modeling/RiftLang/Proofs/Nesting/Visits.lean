import RiftLang.Proofs.Nesting.Layered
import RiftLang.Proofs.Nesting.Walker

/-!
# What a walk of any tokens hands out

The items of a walk, whatever tokens it is a walk of. A token is handed out while the token that it
is a child of is open, and a token is called a leaf only if it has no child.

* `Visit.around`, `opened` — the tokens that an item lies in, and those handed out so far.
* `Grounded`, `grounded_treeVisits` — every item lies in tokens that were handed out before it.
* `filterMap_entry?_treeVisits` — tokens are handed out in pre-order, each in its parent.
* `IsWalkOf` — what a walk of a token list keeps to. `walker_lists_nesting` — it does so for every
  token list.
-/

namespace RiftLang

open RiftLang.Tree

namespace Visit

/-- The tokens whose children are being listed when the item is handed out, innermost first. The
token of the item is not among them. -/
def around (v : Visit) : List IndexedToken :=
  match v.event with
  | .token _ false => v.path.tail
  | .token _ true | .gap .. => v.path

/-- The token of an item, with the token that it lies in and whether it is a leaf. -/
def entry? (v : Visit) : Option (Option IndexedToken × IndexedToken × Bool) :=
  match v.event with
  | .token t isLeaf => some (v.around.head?, t, isLeaf)
  | .gap .. => none

end Visit

/-- The tokens that are handed out. -/
def opened (visits : List Visit) : List IndexedToken :=
  visits.filterMap (·.event.token?)

/-- A token is as deep as it lies in other tokens, and nested in the innermost, which is one less
deep. -/
structure Hangs (path : List IndexedToken) (t : IndexedToken) : Prop where
  /-- The depth is the number of tokens around. -/
  length_eq : path.length = t.depth
  /-- The innermost of them is the parent, and is one less deep. -/
  isParentOf : ∀ p ∈ path.head?, p.isParentOf t = true ∧ p.depth + 1 = t.depth

/-- The item lies in tokens that were seen. A token is nested in them, and a gap has text. -/
structure Visit.IsPlaced (seen : List IndexedToken) (v : Visit) : Prop where
  /-- The tokens around the item were seen. -/
  around_subset : v.around ⊆ seen
  /-- A token hangs in them. -/
  hangs : ∀ t ∈ v.event.token?, Hangs v.around t
  /-- A gap has text, and nothing is listed below it. -/
  start_lt_stop : v.event.token? = none → v.event.item.start < v.event.item.stop ∧
    v.event.item.isLeaf = true

/-- Every item lies in tokens that were seen before, or are handed out before it. -/
def Grounded (seen : List IndexedToken) : List Visit → Prop
  | [] => True
  | v :: visits => v.IsPlaced seen ∧ Grounded (seen ++ v.event.token?.toList) visits

/-- Items in a row are grounded if the first are, and if the others are once the first were seen. -/
theorem grounded_append {seen : List IndexedToken} {visits visits' : List Visit} :
    Grounded seen (visits ++ visits') ↔ Grounded seen visits ∧
      Grounded (seen ++ opened visits) visits' := by
  induction visits generalizing seen with
  | nil => simp [Grounded, opened]
  | cons v visits ih =>
      have hopened : opened (v :: visits) = v.event.token?.toList ++ opened visits := by
        rw [opened, List.filterMap_cons]
        cases v.event.token? <;> rfl
      rw [List.cons_append, Grounded, Grounded, ih, hopened, List.append_assoc, and_assoc]

/-- Items stay grounded when more was seen. -/
theorem Grounded.mono {seen seen' : List IndexedToken} {visits : List Visit}
    (h : Grounded seen visits) (hsub : seen ⊆ seen') : Grounded seen' visits := by
  induction visits generalizing seen seen' with
  | nil => trivial
  | cons v visits ih =>
      obtain ⟨⟨haround, htoken, hgap⟩, hrest⟩ := h
      refine ⟨⟨List.Subset.trans haround hsub, htoken, hgap⟩, ih hrest ?_⟩
      exact List.append_subset.2 ⟨List.subset_append_of_subset_left _ hsub,
        List.subset_append_right _ _⟩

/-- A gap lies in the tokens around it, and has text. -/
theorem grounded_gapVisit? {seen path : List IndexedToken} (hpath : path ⊆ seen) (gap : Gap)
    (start stop level : Nat) :
    Grounded seen (gapVisit? gap start stop level path) := by
  unfold gapVisit?
  split_ifs with h
  · exact ⟨⟨hpath, (fun t ht => nomatch ht), fun _ => ⟨h, rfl⟩⟩, trivial⟩
  · trivial

mutual

/-- The items of a tree lie in the tokens around it and in those of the tree, each seen before what
lies in it. The induction is over tree and children together. -/
theorem grounded_treeVisits {seen path : List IndexedToken} {tree : Tree IndexedToken}
    (hpath : path ⊆ seen) (hroot : Hangs path tree.label) (hnests : ∀ p ∈ tree.parts, Nests p) :
    Grounded seen (treeVisits path tree) := by
  cases tree with
  | node t children =>
    rw [parts] at hnests
    obtain ⟨⟨-, hchild, hdepth⟩, hbelow⟩ := List.forall_mem_cons.1 hnests
    have hplaced : ∀ isLeaf path', ((⟨.token t isLeaf, path'⟩ : Visit).around = path) →
        (⟨.token t isLeaf, path'⟩ : Visit).IsPlaced seen := by
      intro isLeaf path' haround
      refine ⟨haround ▸ hpath, ?_, fun h => nomatch h⟩
      rintro _ ⟨⟩
      exact haround ▸ hroot
    rw [treeVisits]
    split_ifs
    · exact ⟨hplaced _ _ rfl, trivial⟩
    · refine ⟨hplaced _ _ rfl, grounded_childVisits ?_ (fun c hc => ⟨?_, ?_⟩) hbelow⟩
      · exact List.cons_subset.2 ⟨List.mem_append_right _ List.mem_cons_self,
          List.subset_append_of_subset_left _ hpath⟩
      · rw [hdepth c hc, List.length_cons, hroot.length_eq]
      · rintro _ ⟨⟩
        exact ⟨hchild c hc, (hdepth c hc).symm⟩

/-- The remaining children of a token lie in it, and in what it lies in. -/
theorem grounded_childVisits {seen path : List IndexedToken} {parent : IndexedToken}
    {claimed : Nat} {gap : Gap} {ts : List (Tree IndexedToken)} (hpath : parent :: path ⊆ seen)
    (hts : ∀ t ∈ ts, Hangs (parent :: path) t.label) (hnests : ∀ p ∈ allParts ts, Nests p) :
    Grounded seen (childVisits parent path claimed gap ts) := by
  cases ts with
  | nil => exact grounded_gapVisit? (List.cons_subset.1 hpath).2 ..
  | cons tree ts =>
    obtain ⟨htree, hts⟩ := List.forall_mem_cons.1 hts
    rw [allParts] at hnests
    obtain ⟨hnests, hnests'⟩ := List.forall_mem_append.1 hnests
    rw [childVisits, grounded_append, grounded_append]
    refine ⟨grounded_gapVisit? hpath .., ?_, ?_⟩
    · exact (grounded_treeVisits hpath htree hnests).mono (List.subset_append_left _ _)
    · refine (grounded_childVisits hpath hts hnests').mono ?_
      exact List.subset_append_of_subset_left _ (List.subset_append_left _ _)

end

/-! ## Entries -/

/-- The entry of a subtree. -/
def entryOf (e : Option IndexedToken × Tree IndexedToken) :
    Option IndexedToken × IndexedToken × Bool :=
  (e.1, e.2.label, e.2.children.isEmpty)

/-- A gap is no entry. -/
theorem filterMap_entry?_gapVisit? (gap : Gap) (start stop level : Nat) (path : List IndexedToken) :
    (gapVisit? gap start stop level path).filterMap Visit.entry? = [] := by
  unfold gapVisit?
  split <;> rfl

mutual

/-- The tokens of a tree are handed out in pre-order, each in its parent. -/
theorem filterMap_entry?_treeVisits (path : List IndexedToken) (tree : Tree IndexedToken) :
    (treeVisits path tree).filterMap Visit.entry? = (tree.withParents path.head?).map entryOf := by
  cases tree with
  | node t children =>
    rw [treeVisits, withParents]
    cases children with
    | nil => rfl
    | cons child rest =>
      have hrest := filterMap_entry?_childVisits t path t.start .leading (child :: rest)
      exact congrArg ((path.head?, t, false) :: ·) hrest

/-- The entries among the items of children are those of their subtrees, with the token that each
lies in. -/
theorem filterMap_entry?_childVisits (parent : IndexedToken) (path : List IndexedToken)
    (claimed : Nat) (gap : Gap) (ts : List (Tree IndexedToken)) :
    (childVisits parent path claimed gap ts).filterMap Visit.entry? =
      (allWithParents (some parent) ts).map entryOf := by
  cases ts with
  | nil => exact filterMap_entry?_gapVisit? ..
  | cons tree ts =>
    rw [childVisits, allWithParents, List.filterMap_append, List.filterMap_append, List.map_append,
      filterMap_entry?_gapVisit?, List.nil_append,
      filterMap_entry?_treeVisits (parent :: path) tree,
      filterMap_entry?_childVisits parent path tree.label.stop .between ts]
    rfl

end

/-- The entries among the items of outermost trees are those of their subtrees; the roots lie in
nothing. -/
theorem filterMap_entry?_flatMap_treeVisits (ts : List (Tree IndexedToken)) :
    (ts.flatMap (treeVisits [])).filterMap Visit.entry? = (allWithParents none ts).map entryOf := by
  induction ts with
  | nil => rfl
  | cons t ts ih =>
      rw [List.flatMap_cons, List.filterMap_append, ih, filterMap_entry?_treeVisits, allWithParents,
        List.map_append]
      rfl

/-- The tokens that are handed out are those of the entries. -/
theorem opened_eq (visits : List Visit) :
    opened visits = (visits.filterMap Visit.entry?).map (·.2.1) := by
  rw [opened, List.map_filterMap]
  refine congrArg (List.filterMap · visits) (funext fun v => ?_)
  rcases v with ⟨_ | _, path⟩ <;> rfl

/-- A walk over trees hands out the labels of all subtrees, in pre-order. -/
theorem opened_flatMap_treeVisits (ts : List (Tree IndexedToken)) :
    opened (ts.flatMap (treeVisits [])) = (allParts ts).map label := by
  rw [opened_eq, filterMap_entry?_flatMap_treeVisits, ← map_snd_allWithParents none, List.map_map,
    List.map_map]
  rfl

/-! ## Walks of a log -/

/-- What the items of a walk of a token list keep to. -/
structure IsWalkOf (tokens : List Token) (visits : List Visit) : Prop where
  /-- The items are those of the walk that is read from the trees of the layers. -/
  items_eq : visits.map (·.event.item) = (Layers.ofTokens tokens).walk
  /-- No token is handed out twice. -/
  nodup : (opened visits).Nodup
  /-- Tokens of the list are handed out, and none without width. -/
  mem : ∀ t ∈ opened visits, t ∈ indexed tokens ∧ t.start ≠ t.stop
  /-- The level of a token is its depth, and as many tokens are open around it. Unless that is none,
  it is nested in the innermost, which was handed out before and is one less deep. -/
  parent : ∀ before v after t, visits = before ++ v :: after → v.event.token? = some t →
    v.event.item.level = t.depth ∧ v.around.length = t.depth ∧
      (0 < t.depth → ∃ p, v.around.head? = some p ∧ p ∈ opened before ∧ p.depth + 1 = t.depth ∧
        p.isParentOf t = true)
  /-- A gap has text, and is a leaf. -/
  gap : ∀ v ∈ visits, v.event.token? = none → v.event.item.start < v.event.item.stop ∧
    v.event.item.isLeaf = true
  /-- A token is a leaf if and only if no token is handed out as a child of it. -/
  leaf : ∀ v ∈ visits, ∀ t, v.event.token? = some t →
    (v.event.item.isLeaf = true ↔ ∀ u ∈ visits, u.event.token?.isSome → u.around.head? ≠ some t)

/-- Every item of a grounded walk lies in tokens handed out before it. -/
theorem Grounded.isPlaced {visits before after : List Visit} {v : Visit} (h : Grounded [] visits)
    (hvisits : visits = before ++ v :: after) : v.IsPlaced (opened before) := by
  rw [hvisits, grounded_append, List.nil_append] at h
  exact h.2.1

/-- The items of trees whose roots are at depth zero are grounded, if parents nest with their
children throughout. -/
theorem grounded_flatMap_treeVisits {ts : List (Tree IndexedToken)}
    (hroots : ∀ t ∈ ts, t.label.depth = 0) (hnests : ∀ p ∈ allParts ts, Nests p)
    (seen : List IndexedToken) : Grounded seen (ts.flatMap (treeVisits [])) := by
  induction ts generalizing seen with
  | nil => trivial
  | cons t ts ih =>
      obtain ⟨hroot, hroots⟩ := List.forall_mem_cons.1 hroots
      rw [allParts] at hnests
      obtain ⟨hnest, hnests⟩ := List.forall_mem_append.1 hnests
      rw [List.flatMap_cons, grounded_append]
      exact ⟨grounded_treeVisits (List.nil_subset _) ⟨hroot.symm, fun _ h => nomatch h⟩ hnest,
        ih hroots hnests _⟩

/-- The visit of a token has an entry, which is that of a subtree. -/
theorem exists_of_mem_visits {ts : List (Tree IndexedToken)} {v : Visit} {t : IndexedToken}
    (hv : v ∈ ts.flatMap (treeVisits [])) (ht : v.event.token? = some t) :
    ∃ p, (v.around.head?, p) ∈ allWithParents none ts ∧ p.label = t ∧
      v.event.item.isLeaf = p.children.isEmpty := by
  have hentry : v.entry? = some (v.around.head?, t, v.event.item.isLeaf) := by
    rcases v with ⟨_ | _, path⟩
    · cases ht
      rfl
    · cases ht
  have hmem := List.mem_filterMap.2 ⟨v, hv, hentry⟩
  rw [filterMap_entry?_flatMap_treeVisits] at hmem
  obtain ⟨⟨x, p⟩, hp, heq⟩ := List.mem_map.1 hmem
  obtain ⟨rfl, heq⟩ := Prod.mk.inj heq
  obtain ⟨hlabel, hleaf⟩ := Prod.mk.inj heq
  exact ⟨p, hp, hlabel, hleaf.symm⟩

/-- Every subtree is visited in its parent. -/
theorem exists_visit_of_mem {ts : List (Tree IndexedToken)} {x : Option IndexedToken}
    {p : Tree IndexedToken} (hp : (x, p) ∈ allWithParents none ts) :
    ∃ v ∈ ts.flatMap (treeVisits []), v.event.token? = some p.label ∧ v.around.head? = x := by
  have hmem : entryOf (x, p) ∈ (ts.flatMap (treeVisits [])).filterMap Visit.entry? := by
    rw [filterMap_entry?_flatMap_treeVisits]
    exact List.mem_map_of_mem hp
  obtain ⟨v, hv, hentry⟩ := List.mem_filterMap.1 hmem
  refine ⟨v, hv, ?_⟩
  rcases v with ⟨_ | _, path⟩
  · obtain ⟨hx, hentry⟩ := Prod.mk.inj (Option.some.inj hentry)
    exact ⟨congrArg some (Prod.mk.inj hentry).1, hx⟩
  · cases hentry

/-- Where the tokens of the trees are distinct, a token is a leaf if and only if no token is visited
as its child. -/
theorem isLeaf_iff {ts : List (Tree IndexedToken)} (hnodup : ((allParts ts).map label).Nodup)
    {v : Visit} {t : IndexedToken} (hv : v ∈ ts.flatMap (treeVisits []))
    (ht : v.event.token? = some t) :
    v.event.item.isLeaf = true ↔
      ∀ u ∈ ts.flatMap (treeVisits []), u.event.token?.isSome → u.around.head? ≠ some t := by
  have hparts : ∀ {x p}, (x, p) ∈ allWithParents none ts → p ∈ allParts ts := fun h => by
    rw [← map_snd_allWithParents none]
    exact List.mem_map_of_mem h
  obtain ⟨p, hp, rfl, hleaf⟩ := exists_of_mem_visits hv ht
  rw [hleaf, List.isEmpty_iff]
  constructor
  · intro hnone u hu hsome hparent
    obtain ⟨s, hs⟩ := Option.isSome_iff_exists.1 hsome
    obtain ⟨c, hc, -, -⟩ := exists_of_mem_visits hu hs
    rw [hparent] at hc
    -- what is handed out in the token is a child of a subtree that carries it, which can only be
    -- this one
    rcases exists_of_mem_allWithParents hc with ⟨h, -⟩ | ⟨q, hq, hlabel, hc⟩
    · cases h
    · obtain rfl := eq_of_label_eq hnodup (hparts hp) hq (Option.some.inj hlabel)
      rw [hnone] at hc
      cases hc
  · intro hnone
    by_contra hne
    obtain ⟨c, hc⟩ := List.exists_mem_of_ne_nil _ hne
    obtain ⟨u, hu, hs, hparent⟩ :=
      exists_visit_of_mem (mem_allWithParents_of_child none (hparts hp) hc)
    exact hnone u hu (Option.isSome_of_eq_some hs) hparent

/-- A token inside others was handed out after the innermost of them. -/
theorem Visit.IsPlaced.exists_parent {seen : List IndexedToken} {v : Visit} {t : IndexedToken}
    (h : v.IsPlaced seen) (ht : v.event.token? = some t) (hdepth : 0 < t.depth) :
    ∃ p, v.around.head? = some p ∧ p ∈ seen ∧ p.depth + 1 = t.depth ∧ p.isParentOf t = true := by
  obtain ⟨hlength, hparent⟩ := h.hangs t ht
  have hsubset := h.around_subset
  obtain ⟨p, outer, haround⟩ := List.exists_cons_of_length_pos (hlength ▸ hdepth)
  rw [haround] at hsubset hparent
  obtain ⟨hisParent, hpdepth⟩ := hparent p rfl
  exact ⟨p, haround ▸ rfl, hsubset List.mem_cons_self, hpdepth, hisParent⟩

/-- A walk of any token list comes to an end, without reading past the last layer, and keeps to the
nesting of the tokens. -/
theorem walker_lists_nesting (tokens : List Token) :
    ∃ visits, (Walker.start (Layers.ofTokens tokens)).visits = some visits ∧
      IsWalkOf tokens visits := by
  obtain ⟨hnodup, hparts, hroots⟩ := Layers.reads_trees tokens
  have hgrounded := grounded_flatMap_treeVisits hroots (fun p hp => (hparts p hp).2) []
  refine ⟨_, Walker.visits_start fun _ _ => Layers.depth_eq_of_mem_layer,
    map_item_flatMap_treeVisits _, ?_, ?_, ?_, ?_, ?_⟩
  · rw [opened_flatMap_treeVisits]
    exact hnodup
  · rw [opened_flatMap_treeVisits]
    refine List.forall_mem_map.2 fun p hp => ⟨(hparts p hp).1, ?_⟩
    simpa [Token.isEmpty] using (hparts p hp).2.isEmpty_eq
  · intro before v after t hvisits ht
    have hplaced := hgrounded.isPlaced hvisits
    exact ⟨WalkEvent.level_item ht, (hplaced.hangs t ht).length_eq, hplaced.exists_parent ht⟩
  · intro v hv hgap
    obtain ⟨before, after, hvisits⟩ := List.append_of_mem hv
    exact (hgrounded.isPlaced hvisits).start_lt_stop hgap
  · exact fun v hv t ht => isLeaf_iff hnodup hv ht

end RiftLang
