import RiftLang.Token.Log

/-!
# Cursors

A cursor is a place in a source together with everything that matching records: the log of tokens,
the rules that are open, what was remembered of earlier attempts, and the path to the farthest
offset that was ever looked at.

* `Cursor` — the state. `Cursor.checkpoint` and `Cursor.restore` save and put back the three numbers
  that a failed attempt may have moved: position, number of live tokens and depth.
* `Cursor.step` — reads one character. Looking past every earlier offset takes a `Snapshot`.
* `Cursor.emit` — writes a token. Live slots of the snapshot that it overwrites are kept aside, so
  `Cursor.frontier` can still show them.
* `Cursor.enter` and `Cursor.leave` — around the body of a rule or of a text capture.
* `Cursor.remembered?`, `Cursor.replay`, `Cursor.remember` — the table of remembered attempts.

How patterns drive a cursor is the matter of `Cursor.Match`.
-/

namespace RiftLang

/-- The numbers that a failed attempt puts back. -/
structure Checkpoint where
  /-- The offset of the next character. -/
  position : Nat
  /-- The number of live tokens. -/
  tokenCount : Nat
  /-- The number of open captures. -/
  depth : Nat
  deriving DecidableEq, Repr, Inhabited

/-- A rule that was entered and has not been left. -/
structure OpenRule where
  /-- The rule. -/
  rule : Rule
  /-- The offset at which it was entered. -/
  start : Nat
  /-- The depth at which it was entered. -/
  depth : Nat
  deriving DecidableEq, Repr, Inhabited

/-- The farthest offset looked at, and the path that reached it first. -/
structure Frontier where
  /-- The farthest offset looked at. -/
  offset : Nat
  /-- The rules that were open, outermost first. -/
  openRules : List OpenRule
  /-- The tokens that were live, in emission order. -/
  tokens : List Token
  deriving DecidableEq, Repr, Inhabited

namespace Frontier

/-- The frontier before anything was looked at. -/
def empty : Frontier where
  offset := 0
  openRules := []
  tokens := []

end Frontier

/-- A frontier under way. Its tokens are the first `kept` slots of the log followed by
`displaced`. -/
structure Snapshot where
  /-- The farthest offset looked at. -/
  offset : Nat
  /-- The rules that were open, innermost first. -/
  openRules : List OpenRule
  /-- How many slots of the log still hold tokens of the snapshot. -/
  kept : Nat
  /-- The tokens of the snapshot whose slots were overwritten since. -/
  displaced : List Token
  deriving DecidableEq, Repr, Inhabited

namespace Snapshot

/-- Saves the tokens of the snapshot that sit in slot `index` or later. Before `Cursor.commit` the
log has all these slots. A commit may drop slots that `kept` still counts: what is saved is then cut
to the slots left (`Log.between`), where an indexed slice would stop the program. -/
def preserve (s : Snapshot) (log : Log) (index : Nat) : Snapshot :=
  if index < s.kept then
    { s with kept := index, displaced := log.between index s.kept ++ s.displaced }
  else
    s

/-- The frontier that the snapshot stands for. -/
def frontier (s : Snapshot) (log : Log) : Frontier where
  offset := s.offset
  openRules := s.openRules.reverse
  tokens := log.between 0 s.kept ++ s.displaced

end Snapshot

/-- What was learnt from trying a rule at an offset. -/
inductive Memo where
  /-- The rule failed. -/
  | failed
  /-- The rule matched up to `stop`; the depths of its tokens are relative to the rule. -/
  | matched (stop : Nat) (tokens : List Token)
  deriving DecidableEq, Repr, Inhabited

/-- Remembered attempts by offset, the latest first. -/
abbrev MemoTable := Array (List (Rule × Memo))

/-- A place in a source, and everything recorded on the way. -/
structure Cursor where
  /-- The characters of the source. -/
  source : Array Char
  /-- The offset of the next character. -/
  position : Nat
  /-- The number of open captures. -/
  depth : Nat
  /-- The number of live tokens: the slots of the log that the current path has written. -/
  tokenCount : Nat
  /-- The tokens written, those of abandoned branches included. -/
  log : Log
  /-- The open rules, innermost first. -/
  openRules : List OpenRule
  /-- The path to the farthest offset looked at, once there is one. -/
  snapshot : Option Snapshot
  /-- What is remembered of earlier attempts. -/
  memos : MemoTable
  deriving Repr, Inhabited

namespace Cursor

/-- A cursor at the start of a source, with a log that reserves the given number of slots. -/
def ofChars (source : Array Char) (capacity : Nat) : Cursor where
  source := source
  position := 0
  depth := 0
  tokenCount := 0
  log := Log.withCapacity capacity
  openRules := []
  snapshot := none
  memos := Array.replicate (source.size + 1) []

/-- A cursor at the start of a source. -/
def ofString (source : String) (capacity : Nat) : Cursor :=
  ofChars source.toList.toArray capacity

/-- The number of slots that a log reserves unless told otherwise. -/
def defaultCapacity : Nat := 1024

/-! ## Looking and moving -/

/-- The numbers to put back if an attempt fails. -/
def checkpoint (c : Cursor) : Checkpoint where
  position := c.position
  tokenCount := c.tokenCount
  depth := c.depth

/-- Puts the saved numbers back. What was learnt since stays. -/
def restore (c : Cursor) (saved : Checkpoint) : Cursor :=
  { c with position := saved.position, tokenCount := saved.tokenCount, depth := saved.depth }

/-- The next character, if there is one. -/
def next? (c : Cursor) : Option Char :=
  c.source[c.position]?

/-- Is the position past every offset looked at so far? -/
def isAhead (c : Cursor) : Bool :=
  match c.snapshot with
  | none => true
  | some s => s.offset < c.position

/-- Notes that the current offset is looked at. The first look past all others takes a snapshot. -/
def look (c : Cursor) : Cursor :=
  if c.isAhead then
    { c with
      snapshot := some
        { offset := c.position, openRules := c.openRules, kept := c.tokenCount, displaced := [] } }
  else
    c

/-- Consumes the next character if it passes the test. -/
def step (test : Char → Bool) (c : Cursor) : Bool × Cursor :=
  let c := c.look
  match c.next? with
  | some ch => if test ch then (true, { c with position := c.position + 1 }) else (false, c)
  | none => (false, c)

/-- The farthest offset looked at. -/
def farthest (c : Cursor) : Nat :=
  match c.snapshot with
  | none => 0
  | some s => s.offset

/-- The path to the farthest offset, as it was when that offset was first looked at. -/
def frontier (c : Cursor) : Frontier :=
  match c.snapshot with
  | none => Frontier.empty
  | some s => s.frontier c.log

/-! ## Recording -/

/-- Saves the tokens of the snapshot that sit past the live ones, before they are overwritten. -/
def preserve (c : Cursor) : Cursor :=
  { c with snapshot := c.snapshot.map (·.preserve c.log c.tokenCount) }

/-- Writes a token into the slot after the live ones. -/
def write (c : Cursor) (token : Token) : Cursor :=
  { c with log := c.log.record c.tokenCount token, tokenCount := c.tokenCount + 1 }

/-- Records a token after the live ones. -/
def emit (c : Cursor) (token : Token) : Cursor :=
  c.preserve.write token

/-- The live tokens, in emission order. -/
def liveTokens (c : Cursor) : List Token :=
  c.log.between 0 c.tokenCount

/-- Records an action: a token without width at the current depth. -/
def act (c : Cursor) (action : Action) : Cursor :=
  c.emit ⟨.action action, c.position, c.position, c.depth⟩

/-- Goes one level deeper. A rule is noted as open. -/
def enter (symbol : Symbol) (c : Cursor) : Cursor :=
  { c with
    openRules := match symbol.rule? with
      | some r => ⟨r, c.position, c.depth⟩ :: c.openRules
      | none => c.openRules
    depth := c.depth + 1 }

/-- Comes back from the body of a capture that was entered at `entry`. A match is recorded from
there to the current position; a failure puts the entry back. -/
def leave (symbol : Symbol) (entry : Checkpoint) (matched : Bool) (c : Cursor) : Bool × Cursor :=
  let c := { c with
    openRules := match symbol.rule? with
      | some _ => c.openRules.tail
      | none => c.openRules }
  if matched then
    let c := { c with depth := c.depth - 1 }
    (true, c.emit ⟨symbol, entry.position, c.position, c.depth⟩)
  else
    (false, c.restore entry)

/-- Drops the slots of abandoned branches. A snapshot that still counts on one of them loses it. -/
def commit (c : Cursor) : Cursor :=
  { c with log := c.log.trim c.tokenCount }

/-! ## Remembered attempts -/

/-- What is remembered of a rule at the current position. -/
def remembered? (c : Cursor) (rule : Rule) : Option Memo :=
  (c.memos.getD c.position []).lookup rule

/-- Repeats a remembered outcome at the current depth, without looking at the source. -/
def replay (c : Cursor) : Memo → Bool × Cursor
  | .failed => (false, c)
  | .matched stop tokens =>
    let c := tokens.foldl (fun c t => c.emit { t with depth := t.depth + c.depth }) c
    (true, { c with position := stop })

/-- What to remember of an attempt that began at `entry` and left the cursor at `c`. -/
def memoSince (c : Cursor) (entry : Checkpoint) (matched : Bool) : Memo :=
  if matched then
    .matched c.position <|
      (c.log.between entry.tokenCount c.tokenCount).map fun t =>
        { t with depth := t.depth - entry.depth }
  else
    .failed

/-- Puts an outcome of `rule` at `offset` on top of the table. -/
def note (c : Cursor) (rule : Rule) (offset : Nat) (memo : Memo) : Cursor :=
  { c with memos := c.memos.modify offset ((rule, memo) :: ·) }

/-- Remembers the outcome of an attempt on `rule` that began at `entry`. -/
def remember (c : Cursor) (rule : Rule) (entry : Checkpoint) (matched : Bool) : Cursor :=
  c.note rule entry.position (c.memoSince entry matched)

end Cursor

end RiftLang
