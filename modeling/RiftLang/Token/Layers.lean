import RiftLang.Token

/-!
# Tokens by depth

The tokens of a log, put into one layer for each depth. Within a layer tokens keep their emission
order, and each carries its place in the whole log.

* `Layers.ofTokens` — one pass over the tokens. There is one layer more than the deepest token
  needs, and it is empty, so the layer below any token exists.
* `Layers.layer`, `Layers.get?` — one layer, and one token of a layer.
-/

namespace RiftLang

/-- Tokens grouped by depth. -/
structure Layers where
  /-- The layers from depth zero down. -/
  layers : Array (Array IndexedToken)
  deriving DecidableEq, Repr, Inhabited

/-- One more than the depth of the deepest token, or zero if there is none. -/
def depthBound (tokens : List Token) : Nat :=
  tokens.foldl (fun bound t => max bound (t.depth + 1)) 0

/-- The bound of more tokens is the greater of theirs and that of the one in front. -/
theorem depthBound_cons (t : Token) (tokens : List Token) :
    depthBound (t :: tokens) = max (t.depth + 1) (depthBound tokens) := by
  have hfold : ∀ bound, tokens.foldl (fun bound t => max bound (t.depth + 1)) bound =
      (tokens.map (·.depth + 1)).foldl max bound := fun _ => List.foldl_map.symm
  rw [depthBound, depthBound, List.foldl_cons, Nat.max_comm, hfold, hfold]
  exact List.foldl_assoc

/-- The bound of more tokens is the greater of theirs and that of the one behind. -/
theorem depthBound_concat (tokens : List Token) (t : Token) :
    depthBound (tokens ++ [t]) = max (depthBound tokens) (t.depth + 1) := by
  rw [depthBound, List.foldl_append]
  rfl

namespace Layers

/-- Adds a token at the end of the layer of its depth. -/
def push (l : Layers) (t : IndexedToken) : Layers where
  layers := l.layers.modify t.depth (·.push t)

/-- The tokens of a log by depth, with an empty layer past the deepest one. There are as many layers
as the deepest token asks for, whatever its depth: that the number of layers might overflow a
machine word, or not fit in memory, is not modelled. -/
def ofTokens (tokens : List Token) : Layers :=
  (indexed tokens).foldl push ⟨Array.replicate (depthBound tokens + 1) #[]⟩

/-- The number of layers, the empty one at the end included. -/
def count (l : Layers) : Nat :=
  l.layers.size

/-- The tokens of one depth in emission order; none past the deepest layer. -/
def layer (l : Layers) (depth : Nat) : List IndexedToken :=
  (l.layers.getD depth #[]).toList

/-- One token of one depth. -/
def get? (l : Layers) (depth position : Nat) : Option IndexedToken :=
  (l.layers.getD depth #[])[position]?

/-- The layers from depth zero down. -/
def toList (l : Layers) : List (List IndexedToken) :=
  l.layers.toList.map Array.toList

/-- The number of tokens in all layers. -/
def size (l : Layers) : Nat :=
  l.layers.foldl (fun n layer => n + layer.size) 0

/-- Is there no token at all? -/
def isEmpty (l : Layers) : Bool :=
  l.size == 0

end Layers

end RiftLang
