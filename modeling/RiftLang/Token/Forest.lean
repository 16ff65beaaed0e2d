import RiftLang.Token
import RiftLang.Tree
import RiftLang.Text.Quoted

/-!
# Nesting from spans

Rebuilds the nesting of tokens from their spans and their order alone. Tokens are visited in
emission order, so children come before their parents. Finished trees wait in a pile; a token takes
as its children the trees on top of the pile that it is a parent of, and joins the pile itself.
Tokens without width are left out: they claim no text, and any span that begins at their offset
would adopt them.

* `SpanNode` — a token with its number among the tokens that have width.
* `Forest.ofTokens` — the trees of a token list, in emission order of their roots.
* `Forest.render` — an indented listing with the text of every node.

Nothing is assumed about the spans: they may overlap, be reversed or lie outside the source.
-/

namespace RiftLang

/-- A token that spans text, numbered among those in emission order. -/
structure SpanNode where
  /-- The number of the node. -/
  id : Nat
  /-- The token. -/
  token : IndexedToken
  deriving DecidableEq, Repr, Inhabited

/-- Trees of tokens. -/
abbrev Forest := List (Tree SpanNode)

/-- The tokens that span text, numbered. -/
def spanNodes (tokens : List Token) : List SpanNode :=
  ((indexed tokens).filter (!·.isEmpty)).zipIdx.map fun (t, id) => ⟨id, t⟩

namespace Forest

/-- Puts a node on the pile, over the topmost trees that it is a parent of. The pile has its latest
tree first, and children are in emission order. -/
def adopt (pile : Forest) (n : SpanNode) : Forest :=
  let mine : Tree SpanNode → Bool := fun t => n.token.isParentOf t.label.token
  Tree.node n (pile.takeWhile mine).reverse :: pile.dropWhile mine

/-- The trees of a token list, in emission order of their roots. -/
def ofTokens (tokens : List Token) : Forest :=
  ((spanNodes tokens).foldl adopt []).reverse

/-- The outermost tree: the one whose root was emitted last. -/
def root? (f : Forest) : Option (Tree SpanNode) :=
  f.getLast?

/-- Every node in pre-order: its level and the tree below it. -/
def preorder (f : Forest) : List (Nat × Tree SpanNode) :=
  Tree.forestSubtrees 0 f

/-- The number of nodes. -/
def size (f : Forest) : Nat :=
  f.preorder.length

end Forest

/-- One line of a listing: a label and a quoted text, indented by one blank per level. -/
def listingLine (level : Nat) (label text : String) : String :=
  "".pushn ' ' level ++ label ++ " " ++ quoted text ++ "\n"

namespace Forest

/-- An indented listing: the symbol and the quoted text of every node. -/
def render (f : Forest) (source : Array Char) : String :=
  String.join <| f.preorder.map fun (level, t) =>
    let token := t.label.token
    listingLine level token.symbol.render (slice source token.start token.stop)

end Forest

end RiftLang
