/-!
# Lines and columns

* `Position` — a line and a column, both counted from one. A line feed belongs to the line it ends.
* `positionsOf` — the positions of several offsets, found in one pass over the source. Offsets at
  the end of the source or past it have the position just after the last character.
* `Positions.at` — the position found for an offset.
-/

namespace RiftLang

/-- A line and a column, counted from one in characters. -/
structure Position where
  /-- The number of the line, from one on. -/
  line : Nat
  /-- The number of the character in its line, from one on. -/
  column : Nat
  deriving DecidableEq, Repr, Inhabited

namespace Position

/-- The position of the first character. -/
def start : Position where
  line := 1
  column := 1

/-- The position after a character. -/
def advance (p : Position) (c : Char) : Position :=
  if c = '\n' then ⟨p.line + 1, 1⟩ else ⟨p.line, p.column + 1⟩

/-- The text of a position. -/
def text (p : Position) : String :=
  s!"line {p.line} symbol {p.column}"

end Position

/-- Positions by offset, in increasing order of offsets. -/
abbrev Positions := List (Nat × Position)

/-- Walks over the characters from `offset` on and notes the position of every wanted offset. The
wanted offsets increase and are not below `offset`. -/
def scanPositions : List Char → (offset : Nat) → Position → (wanted : List Nat) → Positions
  | _, _, _, [] => []
  | [], _, p, wanted => wanted.map fun o => (o, p)
  | c :: rest, offset, p, o :: wanted =>
    if o = offset then (o, p) :: scanPositions rest (offset + 1) (p.advance c) wanted
    else scanPositions rest (offset + 1) (p.advance c) (o :: wanted)

/-- Removes repetitions from a sorted list. -/
def dropRepeats : List Nat → List Nat
  | a :: b :: rest => if a = b then dropRepeats (b :: rest) else a :: dropRepeats (b :: rest)
  | short => short

/-- The positions of the given offsets, in increasing order of offsets and without repetitions. -/
def positionsOf (source : Array Char) (offsets : List Nat) : Positions :=
  scanPositions source.toList 0 Position.start (dropRepeats (offsets.mergeSort (· ≤ ·)))

/-- The position found for an offset; the start of the source if the offset was not asked for. -/
def Positions.at (found : Positions) (offset : Nat) : Position :=
  (found.lookup offset).getD Position.start

end RiftLang
