import RiftLang.Token.Layers

/-!
# Layers that are counted first

The layers of a log in two passes over its tokens. The first pass counts the tokens of each depth.
There are counts up to the deepest token so far; a deeper one adds its own count on the way, and
those of the depths that it skips. The second pass places every token in the layer of its depth.
Between the two, a layer is made for each count with room for as many tokens, and one more without
room.

* `Census` — the counts. `Census.ofTokens?` is the first pass.
* `Census.rooms` — the layers before the second pass.
* `Layers.distribute?` — both passes.

A count that is not there cannot be raised, and a layer that is not there takes no token. Either
pass then gives `none`.
-/

namespace RiftLang

/-- How many tokens there are of each depth. -/
structure Census where
  /-- The counts from depth zero down. -/
  counts : Array Nat
  deriving DecidableEq, Repr, Inhabited

namespace Census

/-- A census before the first token. -/
def empty : Census where
  counts := #[]

/-- The number of tokens counted of one depth. -/
def count (c : Census) (depth : Nat) : Nat :=
  c.counts.getD depth 0

/-- Adds counts of zero where the count of a depth is not there yet. -/
def reach (c : Census) (depth : Nat) : Census :=
  if c.counts.size ≤ depth then
    { counts := c.counts ++ Array.replicate (depth + 1 - c.counts.size) 0 }
  else
    c

/-- Raises the count of a depth by one. -/
def raise? (c : Census) (depth : Nat) : Option Census :=
  if depth < c.counts.size then some { counts := c.counts.modify depth (· + 1) } else none

/-- Counts a token. -/
def add? (c : Census) (t : Token) : Option Census :=
  (c.reach t.depth).raise? t.depth

/-- The census of a token list. -/
def ofTokens? (tokens : List Token) : Option Census :=
  tokens.foldlM add? empty

/-- Layers without tokens, each with room for those that were counted, and one more past the
deepest. -/
def rooms (c : Census) : Layers where
  layers := (c.counts.push 0).map fun room => Array.emptyWithCapacity room

section counting

variable (c : Census) (depth k : Nat)

/-- After reaching for a depth there are counts up to that depth. -/
theorem size_reach : (c.reach depth).counts.size = max c.counts.size (depth + 1) := by
  unfold reach
  split
  · rw [Array.size_append, Array.size_replicate]
    omega
  · omega

/-- New counts say what is not there says anyway. -/
@[simp] theorem count_reach : (c.reach depth).count k = c.count k := by
  unfold reach
  split
  · simp only [count, Array.getD_eq_getD_getElem?, Array.getElem?_append, Array.getElem?_replicate]
    by_cases hk : k < c.counts.size
    · rw [if_pos hk]
    · rw [if_neg hk, Array.getElem?_eq_none (Nat.not_lt.1 hk)]
      split <;> rfl
  · rfl

/-- A count that is there is raised, and no other. -/
theorem exists_raise? {c : Census} {depth : Nat} (h : depth < c.counts.size) :
    ∃ c', c.raise? depth = some c' ∧ c'.counts.size = c.counts.size ∧
      ∀ k, c'.count k = c.count k + if depth = k then 1 else 0 := by
  refine ⟨_, if_pos h, Array.size_modify, fun k => ?_⟩
  simp only [count, Array.getD_eq_getD_getElem?, Array.getElem?_modify]
  by_cases hk : depth = k
  · subst hk
    simp [h]
  · simp [hk]

/-- The list of the counts has each of them at its depth. -/
theorem toList_counts : c.counts.toList = (List.range c.counts.size).map c.count := by
  refine List.ext_getElem (by simp) fun k hk _ => ?_
  have hk : k < c.counts.size := by simpa using hk
  simp [count, hk]

/-- Before the second pass there is an empty layer for each count, and one more. -/
theorem rooms_eq : c.rooms = ⟨Array.replicate (c.counts.size + 1) #[]⟩ := by
  simp only [rooms, Array.emptyWithCapacity_eq, Array.map_const', Array.size_push]

end counting

end Census

namespace Layers

/-- Adds a token at the end of the layer of its depth, if there is such a layer. -/
def place? (l : Layers) (t : IndexedToken) : Option Layers :=
  if t.depth < l.count then some (l.push t) else none

/-- The layers of a token list, counted and then filled. -/
def distribute? (tokens : List Token) : Option Layers := do
  let census ← Census.ofTokens? tokens
  (indexed tokens).foldlM place? census.rooms

end Layers

end RiftLang
