import RiftLang.Token.Layers
import RiftLang.Token.Forest

/-!
# Nesting from depths

Rebuilds the nesting of tokens from their layers, and lists it in pre-order together with the text
that a token spans but none of its children does.

The children of a token are a run at the front of what is still unread in the next layer, since the
run of its next sibling's children follows. Reading a layer never goes back. Tokens without width
are passed over, with everything nested in them.

* `Layers.trees` — the trees of tokens that have width.
* `WalkItem` — a token or a gap. `Layers.walk` lists them: a gap before the first child, between two
  children, or after the last one, wherever text is left unclaimed.
* `Layers.leafText` — the text of the leaves and gaps of the walk, and `Layers.renderWalk`, an
  indented listing of it.
-/

namespace RiftLang

/-! ## Trees from layers -/

/-- What is unread of the layers from some depth on. -/
abbrev Unread := List (List IndexedToken)

/-- Passes over the tokens at the front of a layer that are `mine`, with all that is nested in
them. -/
def skipRun (mine : IndexedToken → Bool) (skipBelow : IndexedToken → Unread → Unread) :
    List IndexedToken → Unread → List IndexedToken × Unread
  | [], below => ([], below)
  | t :: rest, below =>
    if mine t then skipRun mine skipBelow rest (skipBelow t below) else (t :: rest, below)

/-- Passes over everything nested in `parent`, in at most `n` layers. -/
def skipNested : (n : Nat) → (parent : IndexedToken) → Unread → Unread
  | 0, _, unread => unread
  | _ + 1, _, [] => []
  | n + 1, parent, layer :: below =>
    let (rest, below) := skipRun parent.isParentOf (skipNested n) layer below
    rest :: below

/-- Reads the tokens at the front of a layer that are `mine` and gives their trees, with what
remains of the layer and of those below. -/
def readRun (mine : IndexedToken → Bool) (skipBelow : IndexedToken → Unread → Unread)
    (readBelow : IndexedToken → Unread → List (Tree IndexedToken) × Unread) :
    List IndexedToken → Unread → List (Tree IndexedToken) × List IndexedToken × Unread
  | [], below => ([], [], below)
  | t :: rest, below =>
    if mine t then
      if t.isEmpty then
        readRun mine skipBelow readBelow rest (skipBelow t below)
      else
        let (children, below) := readBelow t below
        let (siblings, rest, below) := readRun mine skipBelow readBelow rest below
        (Tree.node t children :: siblings, rest, below)
    else
      ([], t :: rest, below)

/-- Reads the trees at the front of the unread layers whose roots are `mine`, in at most `n`
layers. -/
def readTrees : (n : Nat) → (mine : IndexedToken → Bool) → Unread →
    List (Tree IndexedToken) × Unread
  | 0, _, unread => ([], unread)
  | _ + 1, _, [] => ([], [])
  | n + 1, mine, layer :: below =>
    let (trees, rest, below) :=
      readRun mine (skipNested n) (fun t => readTrees n t.isParentOf) layer below
    (trees, rest :: below)

/-- The trees of the tokens that have width, by depth. -/
def Layers.trees (l : Layers) : List (Tree IndexedToken) :=
  (readTrees l.count (fun _ => true) l.toList).1

/-! ## The walk -/

/-- Where the text of a gap lies among the children of a token. -/
inductive Gap where
  /-- Before the first child. -/
  | leading
  /-- Between two children. -/
  | between
  /-- After the last child. -/
  | trailing
  deriving DecidableEq, Repr, Inhabited

/-- The name of a kind of gap in listings. -/
def Gap.text : Gap → String
  | leading => "Prefix"
  | between => "Infix"
  | trailing => "Suffix"

/-- What an item of a walk stands for. -/
inductive WalkKind where
  | token (symbol : Symbol)
  | gap (gap : Gap)
  deriving DecidableEq, Repr, Inhabited

/-- A token, or the text of one that none of its children claims. -/
structure WalkItem where
  /-- A token or a gap. -/
  kind : WalkKind
  /-- The offset of the first character. -/
  start : Nat
  /-- The offset just past the last character. -/
  stop : Nat
  /-- The depth of the token; a gap is one deeper than the token it lies in. -/
  level : Nat
  /-- Whether nothing is listed below the item. -/
  isLeaf : Bool
  deriving DecidableEq, Repr, Inhabited

namespace WalkItem

/-- Is the item a gap? -/
def isGap (item : WalkItem) : Bool :=
  match item.kind with
  | .gap _ => true
  | .token _ => false

/-- The name of the item in listings. -/
def label (item : WalkItem) : String :=
  match item.kind with
  | .token symbol => symbol.render
  | .gap gap => gap.text

/-- The item of a token. -/
def ofToken (t : IndexedToken) (isLeaf : Bool) : WalkItem :=
  ⟨.token t.symbol, t.start, t.stop, t.depth, isLeaf⟩

/-- The gap from `start` to `stop`, if there is text in it. -/
def gap? (gap : Gap) (start stop level : Nat) : List WalkItem :=
  if start < stop then [⟨.gap gap, start, stop, level, true⟩] else []

end WalkItem

mutual

/-- The items of a tree: the root, then its children with the gaps around them. A root without
children has no gaps. -/
def treeItems : Tree IndexedToken → List WalkItem
  | .node t children =>
    WalkItem.ofToken t children.isEmpty ::
      (if children.isEmpty then [] else childItems t t.start .leading children)

/-- The items of the remaining children of `parent`, whose text is claimed up to `claimed`; `gap` is
the kind of the gap before the next child. -/
def childItems (parent : IndexedToken) (claimed : Nat) (gap : Gap) :
    List (Tree IndexedToken) → List WalkItem
  | [] => WalkItem.gap? .trailing claimed parent.stop (parent.depth + 1)
  | child :: rest =>
    WalkItem.gap? gap claimed child.label.start (parent.depth + 1) ++
      (treeItems child ++ childItems parent child.label.stop .between rest)

end

namespace Layers

/-- Tokens and gaps in pre-order. -/
def walk (l : Layers) : List WalkItem :=
  l.trees.flatMap treeItems

/-- The text of every leaf and gap of the walk, in order. -/
def leafText (l : Layers) (source : Array Char) : String :=
  String.join <| (l.walk.filter (·.isLeaf)).map fun item => slice source item.start item.stop

/-- An indented listing of the walk: the label and the quoted text of every item. -/
def renderWalk (l : Layers) (source : Array Char) : String :=
  String.join <| l.walk.map fun item =>
    listingLine item.level item.label (slice source item.start item.stop)

end Layers

end RiftLang
