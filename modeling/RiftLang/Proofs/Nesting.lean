import RiftLang.Proofs.Cursor.Growth
import RiftLang.Proofs.Nesting.Adoption
import RiftLang.Proofs.Nesting.Arena
import RiftLang.Proofs.Nesting.Reading
import RiftLang.Proofs.Nesting.Walker
import RiftLang.Proofs.Peg.Run

/-!
# Both ways to nest tokens agree

The forest that is built from spans and the walk that is read from layers list the same tokens in
the same order and at the same levels, and the level of a token is the depth that it was recorded
at.

* `WalkItem.entry?`, `Forest.entries`, `Layers.entries` — what is listed of a token.
* `NestAlike` — the two listings of a log are the same, with depths for levels.
* `Derivation.nestAlike` — so it is for the tokens of a derivation.
* `forest_agrees_with_walk` — so it is for every source that is recognised, whose forest is one
  tree, and for whatever a rule matches on a fresh cursor.
* `Arena.entries?`, `TabledAlike` — what a table lists, and that a walker lists the same.
* `table_agrees_with_walker` — so it is for the same sources and matches.
-/

namespace RiftLang

/-! ## Listings -/

/-- A token in a listing: its symbol, its span and its level. -/
abbrev ListEntry := Symbol × Nat × Nat × Nat

/-- The entry of a token at a level. -/
def IndexedToken.entry (t : IndexedToken) (level : Nat) : ListEntry :=
  (t.symbol, t.start, t.stop, level)

/-- The entry of an item that is no gap. -/
def WalkItem.entry? (item : WalkItem) : Option ListEntry :=
  match item.kind with
  | .token symbol => some (symbol, item.start, item.stop, item.level)
  | .gap _ => none

/-- The tokens of a forest in pre-order, at their levels. -/
def Forest.entries (f : Forest) : List ListEntry :=
  f.preorder.map fun (level, t) => t.label.token.entry level

/-- The tokens of the walk, without the gaps. -/
def Layers.entries (l : Layers) : List ListEntry :=
  l.walk.filterMap WalkItem.entry?

/-- The forest and the walk of a log list the same tokens at the same levels, and levels are
depths. -/
structure NestAlike (tokens : List Token) : Prop where
  /-- Both list the same tokens at the same levels. -/
  entries_eq : (Forest.ofTokens tokens).entries = (Layers.ofTokens tokens).entries
  /-- The level of a token is its depth. -/
  level_eq : ∀ p ∈ (Forest.ofTokens tokens).preorder, p.1 = p.2.label.token.depth

/-! ## Walks -/

/-- A gap is no entry. -/
theorem entry?_gap? (gap : Gap) (start stop level : Nat) :
    (WalkItem.gap? gap start stop level).filterMap WalkItem.entry? = [] := by
  unfold WalkItem.gap?
  split <;> rfl

namespace Tree

/-- The entries of trees in pre-order, with depths for levels. -/
def deepEntries (marked : List (Nat × Tree IndexedToken)) : List ListEntry :=
  marked.map fun (_, t) => t.label.entry t.label.depth

mutual

/-- The walk of a tree lists its tokens in pre-order. -/
theorem entries_treeItems (t : Tree IndexedToken) (level : Nat) :
    (treeItems t).filterMap WalkItem.entry? = deepEntries (t.subtrees level) := by
  cases t with
  | node t children =>
    cases children with
    | nil => rfl
    | cons child rest =>
      have hchildren := entries_childItems t t.start .leading (child :: rest) (level + 1)
      rw [treeItems, subtrees]
      exact congrArg (t.entry t.depth :: ·) hchildren

/-- Among the items of children and the gaps around them, the entries are those of the children's
subtrees. -/
theorem entries_childItems (parent : IndexedToken) (claimed : Nat) (gap : Gap)
    (ts : List (Tree IndexedToken)) (level : Nat) :
    (childItems parent claimed gap ts).filterMap WalkItem.entry? =
      deepEntries (forestSubtrees level ts) := by
  cases ts with
  | nil => exact entry?_gap? _ _ _ _
  | cons child rest =>
    rw [childItems, forestSubtrees, List.filterMap_append, List.filterMap_append, entry?_gap?,
      List.nil_append, entries_treeItems child level,
      entries_childItems parent child.label.stop .between rest level, deepEntries,
      deepEntries, deepEntries, List.map_append]

end

/-- The subtrees of trees in a row are those of the first trees and then those of the others. -/
theorem forestSubtrees_append {α : Type} (level : Nat) (ts us : List (Tree α)) :
    forestSubtrees level (ts ++ us) = forestSubtrees level ts ++ forestSubtrees level us := by
  induction ts with
  | nil => rfl
  | cons t ts ih => rw [List.cons_append, forestSubtrees, ih, forestSubtrees, List.append_assoc]

/-- Among the items of trees in a row, the entries are those of their subtrees. -/
theorem entries_flatMap_treeItems (ts : List (Tree IndexedToken)) (level : Nat) :
    (ts.flatMap treeItems).filterMap WalkItem.entry? = deepEntries (forestSubtrees level ts) := by
  induction ts with
  | nil => rfl
  | cons t ts ih =>
      rw [List.flatMap_cons, List.filterMap_append, entries_treeItems t level, ih, forestSubtrees,
        deepEntries, deepEntries, deepEntries, List.map_append]

end Tree

/-! ## Derivations -/

namespace Derivation

/-- The trees of a derivation lie at the depths that their tokens were recorded at. -/
theorem level_eq_depth (d : Derivation) (start depth first : Nat) :
    ∀ p ∈ Tree.forestSubtrees depth (d.trees start depth first), p.1 = p.2.label.depth := by
  induction d generalizing start depth first with
  | leaf _ | action _ => exact List.forall_mem_nil _
  | append d e ihd ihe =>
      rw [trees, Tree.forestSubtrees_append]
      exact List.forall_mem_append.2 ⟨ihd _ _ _, ihe _ _ _⟩
  | capture s d ih =>
      by_cases hw : d.width = 0
      · rw [trees, if_pos hw]
        exact List.forall_mem_nil _
      · rw [trees, if_neg hw, Tree.forestSubtrees, Tree.forestSubtrees, Tree.subtrees,
          List.append_nil]
        exact List.forall_mem_cons.2 ⟨rfl, ih _ _ _⟩

/-- The levels and tokens of the forest are those of the trees of the derivation. -/
theorem marked_preorder (d : Derivation) :
    ((Forest.ofTokens (d.tokens 0 0)).preorder.map fun p => (p.1, p.2.label.token)) =
      (Tree.forestSubtrees 0 (d.trees 0 0 0)).map Tree.marked := by
  rw [← map_ofTokens, ← Tree.mapAll_eq, Tree.marked_forestSubtrees_mapAll]
  rfl

/-- The tokens of a derivation nest alike by spans and by depths. -/
theorem nestAlike (d : Derivation) : NestAlike (d.tokens 0 0) := by
  have hlevels := d.level_eq_depth 0 0 0
  refine ⟨?_, ?_⟩
  · have hforest : (Forest.ofTokens (d.tokens 0 0)).entries =
        ((Tree.forestSubtrees 0 (d.trees 0 0 0)).map Tree.marked).map fun p => p.2.entry p.1 := by
      rw [← marked_preorder, List.map_map]
      rfl
    rw [hforest, Layers.entries, Layers.walk, trees_ofTokens, Tree.entries_flatMap_treeItems _ 0,
      Tree.deepEntries, List.map_map]
    exact List.map_congr_left fun p hp => congrArg p.2.label.entry (hlevels p hp)
  · intro p hp
    have hmem : (p.1, p.2.label.token) ∈
        (Tree.forestSubtrees 0 (d.trees 0 0 0)).map Tree.marked := by
      rw [← marked_preorder]
      exact List.mem_map_of_mem hp
    obtain ⟨q, hq, hqp⟩ := List.mem_map.1 hmem
    obtain ⟨hlevel, htoken⟩ := Prod.mk.inj hqp
    rw [← hlevel, ← htoken]
    exact hlevels q hq

/-- A capture that has width is a forest of one tree. -/
theorem exists_root_of_capture {s : Symbol} {d : Derivation} (hw : 0 < d.width) :
    ∃ t, Forest.ofTokens ((capture s d).tokens 0 0) = [t] ∧
      t.label.token.toToken = ⟨s, 0, d.width, 0⟩ := by
  have hmap := (capture s d).map_ofTokens
  rw [trees_capture_of_pos hw] at hmap
  obtain ⟨t, hforest, hroot⟩ := List.map_eq_singleton_iff.1 hmap
  refine ⟨t, hforest, ?_⟩
  have hlabel := congrArg Tree.label hroot
  rw [Tree.label_map] at hlabel
  rw [hlabel]
  simp [captureToken, Tree.label]

end Derivation

/-! ## Recognised sources -/

section recognized

variable {config : Config} {source : String} {r : Recognized} {g : Grammar} {depth : Nat}
  {rule : Rule}
  {body : Pattern} {capacity : Nat} {c : Cursor}

/-- The tokens of a recognised source nest alike, in one tree whose root is the token of the
source. -/
theorem nestAlike_of_recognize (h : recognize config source = .ok r) :
    NestAlike r.tokens ∧
      ∃ t, r.forest = [t] ∧ t.label.token.toToken = ⟨.rule .source, 0, source.length, 0⟩ := by
  obtain ⟨d, rfl, hwidth, hpos⟩ := exists_tokens_of_recognize h
  obtain ⟨t, hforest, hroot⟩ := Derivation.exists_root_of_capture (s := .rule .source) hpos
  exact ⟨Derivation.nestAlike _, t, hforest, hwidth ▸ hroot⟩

/-- The tokens of what a rule matches on a fresh cursor nest alike. -/
theorem nestAlike_of_rule
    (h : (Pattern.rule rule body).eval (g.run depth) (.ofString source capacity) = some (true, c)) :
    NestAlike c.commit.log.toList := by
  obtain ⟨d, -, htokens⟩ := exists_tokens_of_rule h
  rw [htokens]
  exact Derivation.nestAlike _

end recognized

/-- The forest and the walk list the same tokens at the same levels, which are the depths of the
tokens, for every source that is recognised and for whatever a rule with any pattern as its body
matches on a fresh cursor. The forest of a recognised source is one tree, whose root is the token of
the source. -/
theorem forest_agrees_with_walk :
    (∀ (config : Config) (source : String) (r : Recognized), recognize config source = .ok r →
      NestAlike r.tokens ∧
        ∃ t, r.forest = [t] ∧ t.label.token.toToken = ⟨.rule .source, 0, source.length, 0⟩) ∧
    ∀ (g : Grammar) (depth : Nat) (rule : Rule) (body : Pattern) (source : String) (capacity : Nat)
    (c : Cursor),
      (Pattern.rule rule body).eval (g.run depth) (.ofString source capacity) = some (true, c) →
        NestAlike c.commit.log.toList := by
  refine ⟨?_, ?_⟩
  · intro config source r h
    exact nestAlike_of_recognize h
  · intro g depth rule body source capacity c h
    exact nestAlike_of_rule h

set_option maxRecDepth 100000 in
/-- A source with rules of the same span inside one another, and a rule with an empty one before and
after a text. -/
theorem forest_agrees_with_walk_same_span :
    (∃ r t, recognize {} "a => \x7b ((1)) \x7d" = .ok r ∧ r.forest = [t] ∧ t.label.token.stop = 14 ∧
      NestAlike r.tokens) ∧
    ∃ c, (Pattern.rule .expr (.both (.rule .space .succeed)
      (.both (.text (.memo .name .any)) (.rule .space .succeed)))).eval
        (Grammar.rift.run 1) (.ofString "ab" 1) = some (true, c) ∧ c.position = 1 ∧
        NestAlike c.commit.log.toList := by
  obtain ⟨d, hd, -⟩ : ∃ d,
      Parses Peg.table (.call .source) "a => \x7b ((1)) \x7d".toList (some (d, [])) ∧
      d.width = 14 :=
    exists_parses_of_run (n := 100) (by decide +kernel)
  have hr : recognize {} "a => \x7b ((1)) \x7d" = .ok _ := recognize_eq_ok_iff.2 ⟨d, hd, rfl⟩
  obtain ⟨halike, t, hforest, hroot⟩ := forest_agrees_with_walk.1 _ _ _ hr
  have hstop : t.label.token.stop = 14 := (congrArg Token.stop hroot).trans rfl
  obtain ⟨c, hc, hposition⟩ : ∃ c,
      (Pattern.rule .expr (.both (.rule .space .succeed)
        (.both (.text (.memo .name .any)) (.rule .space .succeed)))).eval
        (Grammar.rift.run 1) (.ofString "ab" 1) = some (true, c) ∧ c.position = 1 := ⟨_, rfl, rfl⟩
  exact ⟨⟨_, t, hr, hforest, hstop, halike⟩, c, hc, hposition,
    forest_agrees_with_walk.2 _ _ _ _ _ _ c hc⟩

/-! ## Tables and walkers -/

/-- The tokens that a table lists, at their levels. -/
def Arena.entries? (a : Arena) : Option (List ListEntry) :=
  a.preorder.map (·.filterMap fun (id, level) => (a.token? id).map (·.entry level))

/-- The listing of a table comes to an end, and so does a walker over the layers. They have the same
tokens at the same levels, and these are the depths of the tokens. -/
structure TabledAlike (tokens : List Token) : Prop where
  /-- The walker lists what the table lists. -/
  entries_eq : ∃ items, (Walker.start (Layers.ofTokens tokens)).items = some items ∧
    (Arena.ofTokens tokens).entries? = some (items.filterMap WalkItem.entry?)
  /-- The level of a token is its depth. -/
  level_eq : ∃ listing, (Arena.ofTokens tokens).preorder = some listing ∧
    ∀ id level, (id, level) ∈ listing → ∃ t, (Arena.ofTokens tokens).token? id = some t ∧
      level = t.depth

/-- The table of a token list lists what the forest lists. -/
theorem Arena.entries?_ofTokens (tokens : List Token) :
    (ofTokens tokens).entries? = some (Forest.ofTokens tokens).entries := by
  obtain ⟨hroots, hholds, -, -⟩ := holds_ofTokens tokens
  have hentry : ∀ p ∈ (Forest.ofTokens tokens).preorder,
      ((ofTokens tokens).token? p.2.label.id).map (·.entry p.1) =
        some (p.2.label.token.entry p.1) := by
    intro p hp
    rw [hholds.token?_eq (Tree.map_snd_forestSubtrees 0 _ ▸ List.mem_map_of_mem hp)]
    rfl
  rw [entries?, hholds.preorder_eq hroots, Option.map_some, List.filterMap_map, Forest.entries,
    ← List.filterMap_eq_map]
  exact congrArg some (List.filterMap_congr hentry)

/-- What nests alike is listed alike by a table and by a walker. -/
theorem NestAlike.tabledAlike {tokens : List Token} (h : NestAlike tokens) :
    TabledAlike tokens := by
  obtain ⟨hroots, hholds, -, -⟩ := Arena.holds_ofTokens tokens
  refine ⟨⟨_, Walker.items_start_ofTokens tokens, ?_⟩, _, hholds.preorder_eq hroots, ?_⟩
  · rw [Arena.entries?_ofTokens, h.entries_eq]
    rfl
  · intro id level hmem
    obtain ⟨p, hp, heq⟩ := List.mem_map.1 hmem
    obtain ⟨rfl, rfl⟩ := Prod.mk.inj heq
    exact ⟨_, hholds.token?_eq (Tree.map_snd_forestSubtrees 0 _ ▸ List.mem_map_of_mem hp),
      h.level_eq p hp⟩

/-- The table that is filled from the tokens and the walker that goes over their layers list the
same tokens at the same levels, which are the depths of the tokens, for every source that is
recognised and for whatever a rule with any pattern as its body matches on a fresh cursor. The table
of a recognised source has one node without a parent, with the token of the source. -/
theorem table_agrees_with_walker :
    (∀ (config : Config) (source : String) (r : Recognized), recognize config source = .ok r →
      TabledAlike r.tokens ∧
        ∃ id t, (Arena.ofTokens r.tokens).roots = [id] ∧
          (Arena.ofTokens r.tokens).token? id = some t ∧
          t.toToken = ⟨.rule .source, 0, source.length, 0⟩) ∧
    ∀ (g : Grammar) (depth : Nat) (rule : Rule) (body : Pattern) (source : String) (capacity : Nat)
    (c : Cursor),
      (Pattern.rule rule body).eval (g.run depth) (.ofString source capacity) = some (true, c) →
        TabledAlike c.commit.log.toList := by
  refine ⟨?_, ?_⟩
  · intro config source r h
    obtain ⟨halike, t, hforest, hroot⟩ := nestAlike_of_recognize h
    obtain ⟨hroots, hholds, -, -⟩ := Arena.holds_ofTokens r.tokens
    replace hforest : Forest.ofTokens r.tokens = [t] := hforest
    have hmem : t ∈ Tree.allParts (Forest.ofTokens r.tokens) :=
      Tree.mem_allParts_of_mem (hforest ▸ List.mem_singleton_self t)
    rw [hforest] at hroots
    exact ⟨halike.tabledAlike, _, _, hroots, hholds.token?_eq hmem, hroot⟩
  · intro g depth rule body source capacity c h
    exact (nestAlike_of_rule h).tabledAlike

end RiftLang
