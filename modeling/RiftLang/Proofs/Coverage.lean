import RiftLang.Proofs.Cursor.Growth
import RiftLang.Proofs.Nesting.Reading
import RiftLang.Proofs.Nesting.Walker
import RiftLang.Proofs.Peg.Run

/-!
# The walk covers the source

The leaves and gaps of a walk follow on one another without overlap and span all of the text.

* `Tiles` — items that follow on one another, none of them empty.
* `Layers.Covers` — the leaves and gaps of the walk tile a text.
* `Derivation.covers_capture` — the layers of a capture cover its text.
* `leaves_tile_source` — so do the layers of every source that is recognised, whose text they spell
  out, and of whatever a rule matches on a fresh cursor.
* `walker_tiles_source` — and so do the items that a walker hands out one after another.
-/

namespace RiftLang

/-! ## Slices -/

/-- Two spans that meet have together the text of the one span from the first offset to the last. -/
theorem slice_append {source : Array Char} {low middle high : Nat} (h : low ≤ middle)
    (h' : middle ≤ high) :
    slice source low middle ++ slice source middle high = slice source low high := by
  have hlength : high - low = (middle - low) + (high - middle) := by omega
  simp only [slice, Array.toList_extract, List.extract_eq_take_drop]
  rw [← String.ofList_append, hlength, List.take_add, List.drop_drop, Nat.add_sub_cancel' h]

/-- A span without width has no text. -/
theorem slice_self (source : Array Char) (low : Nat) : slice source low low = "" := by
  simp [slice]

/-- The span of the whole source has the text of the source. -/
theorem slice_all (source : String) : slice source.toList.toArray 0 source.length = source := by
  have htake : source.toList.take source.length = source.toList :=
    List.take_of_length_le (le_of_eq String.length_toList)
  simp [slice, htake]

/-! ## Tiles -/

/-- Items that span text from `low` up to `high`: each begins where the one before it ends, and none
is empty. -/
def Tiles (low : Nat) (items : List WalkItem) (high : Nat) : Prop :=
  match items with
  | [] => low = high
  | item :: rest => item.start = low ∧ item.start < item.stop ∧ Tiles item.stop rest high

section tiles

variable {low middle high : Nat} {items items' : List WalkItem}

/-- Items that tile a span, followed by items that tile the span after it, tile both. -/
theorem Tiles.append (h : Tiles low items middle) (h' : Tiles middle items' high) :
    Tiles low (items ++ items') high := by
  induction items generalizing low with
  | nil =>
      obtain rfl : low = middle := h
      exact h'
  | cons item items ih => exact ⟨h.1, h.2.1, ih h.2.2⟩

/-- One item with text tiles its own span. -/
theorem tiles_singleton {item : WalkItem} (h : item.start < item.stop) :
    Tiles item.start [item] item.stop :=
  ⟨rfl, h, rfl⟩

/-- Items tile from a lower offset up to a higher one. -/
theorem Tiles.le (h : Tiles low items high) : low ≤ high := by
  induction items generalizing low with
  | nil => exact le_of_eq h
  | cons item items ih =>
      obtain ⟨rfl, hlt, hrest⟩ := h
      exact hlt.le.trans (ih hrest)

/-- The text between two places, if there is any, is a gap. -/
theorem tiles_gap (h : low ≤ high) (gap : Gap) (level : Nat) :
    Tiles low ((WalkItem.gap? gap low high level).filter (·.isLeaf)) high := by
  unfold WalkItem.gap?
  split
  · next hlt => exact tiles_singleton hlt
  · next hge => exact h.antisymm (Nat.not_lt.1 hge)

/-- The texts of tiles make up the text that they span. -/
theorem Tiles.join_slice (h : Tiles low items high) (source : Array Char) :
    String.join (items.map fun item => slice source item.start item.stop) =
      slice source low high := by
  induction items generalizing low with
  | nil =>
      obtain rfl : low = high := h
      exact (slice_self source low).symm
  | cons item items ih =>
      obtain ⟨rfl, hlt, hrest⟩ := h
      rw [List.map_cons, String.join_cons, ih hrest, slice_append hlt.le hrest.le]

end tiles

/-! ## Trees -/

mutual

/-- The leaves and gaps of a tree tile its span. -/
theorem tiles_treeItems {t : Tree IndexedToken} (h : t.IsLaid) :
    Tiles t.label.start ((treeItems t).filter (·.isLeaf)) t.label.stop := by
  cases t with
  | node t children =>
    obtain ⟨hlt, hchildren⟩ := h
    cases children with
    | nil =>
        have hwide : (WalkItem.ofToken t true).start < (WalkItem.ofToken t true).stop := hlt
        exact tiles_singleton hwide
    | cons child rest => exact tiles_childItems .leading hchildren

/-- The leaves and gaps inside a token tile what is left of its span after the part already claimed.
A gap is handed out before each child that leaves one, and one after the last. -/
theorem tiles_childItems {parent : IndexedToken} {claimed : Nat} {ts : List (Tree IndexedToken)}
    (gap : Gap) (h : Tree.AreLaid claimed ts parent.stop) :
    Tiles claimed ((childItems parent claimed gap ts).filter (·.isLeaf)) parent.stop := by
  cases ts with
  | nil => exact tiles_gap h _ _
  | cons child rest =>
    obtain ⟨hstart, hchild, hrest⟩ := h
    rw [childItems, List.filter_append, List.filter_append]
    exact (tiles_gap hstart _ _).append
      ((tiles_treeItems hchild).append (tiles_childItems .between hrest))

end

/-! ## Logs -/

/-- The leaves and gaps of the walk tile a text of the given length; there is no item at all if it
is empty. -/
structure Layers.Covers (l : Layers) (length : Nat) : Prop where
  /-- The items without others below them tile the text. -/
  tiles : Tiles 0 (l.walk.filter (·.isLeaf)) length
  /-- Of an empty text nothing is listed. -/
  eq_nil : length = 0 → l.walk = []

/-- The leaves and gaps spell out the text that they cover. -/
theorem Layers.Covers.leafText_eq {l : Layers} {length : Nat} (h : l.Covers length)
    (source : Array Char) :
    l.leafText source = slice source 0 length :=
  h.tiles.join_slice source

/-- The layers of the tokens of a capture cover its text. -/
theorem Derivation.covers_capture (s : Symbol) (d : Derivation) :
    (Layers.ofTokens ((capture s d).tokens 0 0)).Covers d.width := by
  have hwalk : (Layers.ofTokens ((capture s d).tokens 0 0)).walk =
      ((capture s d).trees 0 0 0).flatMap treeItems := by
    rw [Layers.walk, trees_ofTokens]
  have hlaid := (capture s d).areLaid_trees 0 0 0
  -- A capture without width is no tree, but then there is no text to cover either.
  by_cases hw : d.width = 0
  · rw [trees, if_pos hw, List.flatMap_nil] at hwalk
    exact ⟨by rw [hwalk, hw]; rfl, fun _ => hwalk⟩
  · rw [trees, if_neg hw] at hlaid
    rw [trees, if_neg hw, List.flatMap_singleton] at hwalk
    have htiles := tiles_treeItems hlaid.2.1
    refine ⟨?_, fun h => absurd h hw⟩
    rw [hwalk, ← Nat.zero_add d.width]
    exact htiles

/-! ## Recognised sources -/

section recognized

variable {config : Config} {source : String} {r : Recognized} {g : Grammar} {depth : Nat}
  {rule : Rule}
  {body : Pattern} {capacity : Nat} {c : Cursor}

/-- The layers of a recognised source cover it, and their text is the source. -/
theorem covers_of_recognize (h : recognize config source = .ok r) :
    r.layers.Covers source.length ∧ r.layers.leafText r.source = source := by
  obtain ⟨d, rfl, hwidth, -⟩ := exists_tokens_of_recognize h
  have hcovers := d.covers_capture (.rule .source)
  rw [hwidth] at hcovers
  exact ⟨hcovers, (hcovers.leafText_eq _).trans (slice_all source)⟩

/-- The layers of what a rule matches on a fresh cursor cover the text up to the cursor. -/
theorem covers_of_rule
    (h : (Pattern.rule rule body).eval (g.run depth) (.ofString source capacity) = some (true, c)) :
    (Layers.ofTokens c.commit.log.toList).Covers c.position := by
  obtain ⟨d, hposition, htokens⟩ := exists_tokens_of_rule h
  rw [hposition, htokens]
  exact d.covers_capture (.rule rule)

end recognized

/-- The leaves and gaps of the walk tile every source that is recognised, and spell it out. They
also tile what a rule with any pattern as its body matches on a fresh cursor. -/
theorem leaves_tile_source :
    (∀ (config : Config) (source : String) (r : Recognized), recognize config source = .ok r →
      r.layers.Covers source.length ∧ r.layers.leafText r.source = source) ∧
    ∀ (g : Grammar) (depth : Nat) (rule : Rule) (body : Pattern) (source : String) (capacity : Nat)
    (c : Cursor),
      (Pattern.rule rule body).eval (g.run depth) (.ofString source capacity) = some (true, c) →
        (Layers.ofTokens c.commit.log.toList).Covers c.position := by
  refine ⟨?_, ?_⟩
  · intro config source r h
    exact covers_of_recognize h
  · intro g depth rule body source capacity c h
    exact covers_of_rule h

set_option maxRecDepth 100000 in
/-- A source with blanks between its parts, and a rule whose body remembers, goes back and records
nothing wide. -/
theorem leaves_tile_source_blanks :
    (∃ r, recognize {} "a => \x7b f( 1 ) \x7d " = .ok r ∧
      r.layers.leafText r.source = "a => \x7b f( 1 ) \x7d ") ∧
    ∃ c,
      (Pattern.rule .expr
        (.many (.either (.both (.memo .name .any) (.memo .name (.char 'b'))) .any))).eval
        (Grammar.rift.run 1) (.ofString "abc" 1) = some (true, c) ∧ c.position = 3 ∧
      (Layers.ofTokens c.commit.log.toList).Covers c.position := by
  obtain ⟨d, hd, -⟩ : ∃ d, Parses Peg.table (.call .source)
      "a => \x7b f( 1 ) \x7d ".toList (some (d, [])) ∧
      d.width = 16 :=
    exists_parses_of_run (n := 100) (by decide +kernel)
  have hr : recognize {} "a => \x7b f( 1 ) \x7d " = .ok _ := recognize_eq_ok_iff.2 ⟨d, hd, rfl⟩
  obtain ⟨c, hc, hposition⟩ : ∃ c,
      (Pattern.rule .expr
        (.many (.either (.both (.memo .name .any) (.memo .name (.char 'b'))) .any))).eval
        (Grammar.rift.run 1) (.ofString "abc" 1) = some (true, c) ∧ c.position = 3 := ⟨_, rfl, rfl⟩
  exact ⟨⟨_, hr, (leaves_tile_source.1 _ _ _ hr).2⟩, c, hc, hposition,
    leaves_tile_source.2 _ _ _ _ _ _ c hc⟩

/-! ## Walkers -/

/-- A walker over the layers comes to an end, and the leaves and gaps among the items that it hands
out tile a text of the given length. There is no item at all if that is empty. -/
def Walker.Covers (l : Layers) (length : Nat) : Prop :=
  ∃ items, (Walker.start l).items = some items ∧ Tiles 0 (items.filter (·.isLeaf)) length ∧
    (length = 0 → items = [])

/-- A walker over the layers of a token list hands out the walk, item by item. So it covers what the
layers cover. -/
theorem Layers.Covers.walker {tokens : List Token} {length : Nat}
    (h : (Layers.ofTokens tokens).Covers length) :
    Walker.Covers (Layers.ofTokens tokens) length :=
  ⟨_, Walker.items_start_ofTokens tokens, h.tiles, h.eq_nil⟩

/-- The items that a walker hands out one after another tile every source that is recognised, and
what a rule with any pattern as its body matches on a fresh cursor. -/
theorem walker_tiles_source :
    (∀ (config : Config) (source : String) (r : Recognized), recognize config source = .ok r →
      Walker.Covers r.layers source.length) ∧
    ∀ (g : Grammar) (depth : Nat) (rule : Rule) (body : Pattern) (source : String) (capacity : Nat)
    (c : Cursor),
      (Pattern.rule rule body).eval (g.run depth) (.ofString source capacity) = some (true, c) →
        Walker.Covers (Layers.ofTokens c.commit.log.toList) c.position := by
  refine ⟨?_, ?_⟩
  · intro config source r h
    exact (covers_of_recognize h).1.walker
  · intro g depth rule body source capacity c h
    exact (covers_of_rule h).walker

end RiftLang
