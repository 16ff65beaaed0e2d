import RiftLang.Token

/-!
# The token log

Tokens are written to numbered slots. A cursor that goes back writes over the slots of the branch it
gave up, so the log may hold slots of abandoned branches past the live ones; `Log.trim` drops them.

* `Log` — the slots, and how many were reserved.
* `Log.record` — writes one slot: an existing one, or a new one at the end. A full log doubles its
  reservation first.
* `Log.trim` — drops the slots from a number on. The reservation stays.
-/

namespace RiftLang

/-- Numbered token slots. -/
structure Log where
  /-- The tokens written, by slot. -/
  slots : Array Token
  /-- The number of slots reserved, a number without bound. It never shrinks. -/
  capacity : Nat
  deriving DecidableEq, Repr, Inhabited

namespace Log

/-- A log without slots and without a reservation. -/
def empty : Log where
  slots := #[]
  capacity := 0

/-- A log without slots, with at least one slot reserved. Any number can be reserved: a memory that
is too small for it, or a number of bytes past the machine word, is not modelled. -/
def withCapacity (n : Nat) : Log where
  slots := #[]
  capacity := max n 1

/-- The number of slots written. -/
def size (log : Log) : Nat :=
  log.slots.size

/-- The token in a slot. -/
def get? (log : Log) (index : Nat) : Option Token :=
  log.slots[index]?

/-- The reservation that makes room for one more slot: a full log doubles, and one without a
reservation gets one slot. -/
def grown (log : Log) : Nat :=
  if log.slots.size = log.capacity then log.capacity + max log.capacity 1 else log.capacity

/-- Writes `token` into slot `index`. A slot past the written ones is added at the end, so callers
pass at most `size`. -/
def record (log : Log) (index : Nat) (token : Token) : Log :=
  if index < log.slots.size then
    { log with slots := log.slots.setIfInBounds index token }
  else
    let capacity := log.grown
    { log with slots := log.slots.push token, capacity := capacity }

/-- Drops every slot from `n` on. -/
def trim (log : Log) (n : Nat) : Log :=
  { log with slots := log.slots.take n }

/-- The tokens of all slots. -/
def toList (log : Log) : List Token :=
  log.slots.toList

/-- The tokens of the slots from `i` up to `j`. The range is cut to the slots written, where an
indexed slice would stop the program; that is a difference only for a reader who still counts on
slots that `trim` has dropped. -/
def between (log : Log) (i j : Nat) : List Token :=
  (log.slots.extract i j).toList

/-- An empty log has no tokens. -/
@[simp] theorem toList_empty : empty.toList = [] := rfl

/-- A reservation is no token. -/
@[simp] theorem toList_withCapacity (n : Nat) : (withCapacity n).toList = [] := rfl

/-- A log has a token in each slot. -/
@[simp] theorem length_toList (log : Log) : log.toList.length = log.size := by
  simp [toList, size]

/-- Writing an existing slot replaces its token. -/
theorem toList_record_of_lt {log : Log} {i : Nat} (h : i < log.size) (t : Token) :
    (log.record i t).toList = log.toList.set i t := by
  simp only [size] at h
  simp [record, toList, h]

/-- Writing past the slots adds a token at the end. -/
theorem toList_record_of_le {log : Log} {i : Nat} (h : log.size ≤ i) (t : Token) :
    (log.record i t).toList = log.toList ++ [t] := by
  simp only [size] at h
  simp [record, toList, Nat.not_lt.2 h]

/-- Dropping slots keeps the first tokens. -/
@[simp] theorem toList_trim (log : Log) (n : Nat) : (log.trim n).toList = log.toList.take n := by
  simp [trim, toList]

end Log

end RiftLang
