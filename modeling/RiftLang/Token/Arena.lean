import RiftLang.Token.Forest

/-!
# Forests in a table

The nesting of tokens from their spans, held in a table. Every node has a number, and says by
numbers which node is its first child and which is its next sibling. The table is filled in one
pass, as trees are put on a pile in `Forest`: a token takes from the pile the nodes that it is a
parent of, links them to one another, and joins the pile itself.

* `Arena` — the table and the numbers of the nodes without a parent. `Arena.ofTokens` fills it.
* `Arena.children` — the children of a node, found by following links.
* `Arena.preorder` — every node with its level, parents before children.

In a table at large a link may lead out of the table or round in a circle. Whoever follows it then
finds nothing: `none` stands for a number without a node, and for more nodes in a row or a listing
than the table has.
-/

namespace RiftLang

/-- A node of a table. -/
structure ArenaNode where
  /-- The token. -/
  token : IndexedToken
  /-- The number of the first child, if there is one. -/
  firstChild : Option Nat
  /-- The number of the next child of the same parent, if there is one. -/
  nextSibling : Option Nat
  deriving DecidableEq, Repr, Inhabited

/-- Nodes that are linked by their numbers. -/
structure Arena where
  /-- The nodes, by number. -/
  nodes : Array ArenaNode
  /-- The numbers of the nodes without a parent, in emission order. -/
  roots : List Nat
  deriving DecidableEq, Repr, Inhabited

namespace Arena

/-! ## Filling the table -/

/-- Takes the nodes that `parent` is a parent of from a pile that has its latest node first. Each is
linked to the one taken before it, so that `first`, the one taken last, begins a row in emission
order. -/
def take (parent : IndexedToken) (nodes : Array ArenaNode) (first : Option Nat) :
    List Nat → Array ArenaNode × Option Nat × List Nat
  | [] => (nodes, first, [])
  | id :: pile =>
    if nodes[id]?.any fun n => parent.isParentOf n.token then
      take parent (nodes.modify id ({ · with nextSibling := first })) (some id) pile
    else
      (nodes, first, id :: pile)

/-- A table that is being filled. -/
structure Filling where
  /-- The nodes so far. -/
  nodes : Array ArenaNode
  /-- The numbers of the nodes that wait for a parent, the latest first. -/
  pile : List Nat
  deriving Repr, Inhabited

/-- Adds a node for a token that spans text, over the nodes on top of the pile that it is a parent
of. -/
def Filling.push (f : Filling) (t : IndexedToken) : Filling :=
  if t.isEmpty then
    f
  else
    let (nodes, first, pile) := take t f.nodes none f.pile
    { nodes := nodes.push ⟨t, first, none⟩, pile := f.nodes.size :: pile }

/-- The table of a token list. -/
def ofTokens (tokens : List Token) : Arena :=
  let f := (indexed tokens).foldl Filling.push ⟨#[], []⟩
  { nodes := f.nodes, roots := f.pile.reverse }

/-! ## Reading the table -/

/-- The number of nodes. -/
def size (a : Arena) : Nat :=
  a.nodes.size

/-- The outermost node: the one without a parent that was emitted last. -/
def root? (a : Arena) : Option Nat :=
  a.roots.getLast?

/-- The token of a node. -/
def token? (a : Arena) (id : Nat) : Option IndexedToken :=
  a.nodes[id]?.map (·.token)

/-- A node and the siblings after it, over at most `n` links. -/
def siblings (a : Arena) : (n : Nat) → (first : Option Nat) → Option (List Nat)
  | _, none => some []
  | 0, some _ => none
  | n + 1, some id => do
    let node ← a.nodes[id]?
    let rest ← a.siblings n node.nextSibling
    return id :: rest

/-- From a node the row of siblings goes on as its link says. -/
theorem siblings_some (a : Arena) (n id : Nat) :
    a.siblings (n + 1) (some id) =
      a.nodes[id]?.bind fun node => (a.siblings n node.nextSibling).map (id :: ·) := by
  simp only [siblings, Option.bind_eq_bind, Option.pure_def, Option.map_eq_bind, Function.comp_def]

/-- The children of a node, in order. -/
def children (a : Arena) (id : Nat) : Option (List Nat) := do
  let node ← a.nodes[id]?
  a.siblings a.size node.firstChild

/-- At most `n` nodes with their levels, each with all that is below it before the next. -/
def visit (a : Arena) : (n : Nat) → (stack : List (Nat × Nat)) → Option (List (Nat × Nat))
  | _, [] => some []
  | 0, _ :: _ => none
  | n + 1, (id, level) :: stack => do
    let children ← a.children id
    let rest ← a.visit n (children.map (·, level + 1) ++ stack)
    return (id, level) :: rest

/-- The node on top of the stack is listed, and its children take its place. -/
theorem visit_cons (a : Arena) (n id level : Nat) (stack : List (Nat × Nat)) :
    a.visit (n + 1) ((id, level) :: stack) =
      (a.children id).bind fun children =>
        (a.visit n (children.map (·, level + 1) ++ stack)).map ((id, level) :: ·) := by
  simp only [visit, Option.bind_eq_bind, Option.pure_def, Option.map_eq_bind, Function.comp_def]

/-- Every node in pre-order: its number and its level. -/
def preorder (a : Arena) : Option (List (Nat × Nat)) :=
  a.visit a.size (a.roots.map (·, 0))

end Arena

end RiftLang
