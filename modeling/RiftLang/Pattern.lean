import RiftLang.Symbol

/-!
# Patterns

What to look for in a source, and what to record on the way, as data. A pattern is made of eleven
constructors; the other operators of parsing expression grammars are built from them.

* `Pattern` — the patterns. `Pattern.rule` and `Pattern.text` record a token for the span matched,
  `Pattern.memo` is a rule whose outcome is remembered per offset, and `Pattern.call` stands for the
  definition of a rule in a `Grammar`.
* `Pattern.attempt`, `optional`, `peek`, `many1`, `choice`, `sequence`, `literal`, … — derived
  operators.
* `Grammar` — a pattern for every rule.

A failing `Pattern.both` leaves the cursor where it stopped: only `either`, `many`, `absent`,
`rule`, `text` and `memo` put a failed attempt back. Inside a rule that is enough.
-/

namespace RiftLang

/-- What to match, and what to record. -/
inductive Pattern where
  /-- Matches without looking. -/
  | succeed
  /-- One character that passes the test. -/
  | one (test : Char → Bool)
  /-- The first pattern, then the second. Nothing is put back when the second fails. -/
  | both (first second : Pattern)
  /-- The first pattern or, from the same place, the second. -/
  | either (first second : Pattern)
  /-- As many repetitions as match, stopping at one that consumes nothing. -/
  | many (body : Pattern)
  /-- Matches where the body does not, and consumes nothing. -/
  | absent (body : Pattern)
  /-- The body, recorded as a match of the rule. -/
  | rule (rule : Rule) (body : Pattern)
  /-- The body, recorded as captured text. -/
  | text (body : Pattern)
  /-- As `rule`, but tried at most once per offset: later attempts repeat the first outcome. -/
  | memo (rule : Rule) (body : Pattern)
  /-- Records an action and consumes nothing. -/
  | action (action : Action)
  /-- Whatever the grammar says the rule is. -/
  | call (rule : Rule)
  deriving Inhabited

/-- A pattern for every rule. -/
abbrev Grammar := Rule → Pattern

namespace Pattern

/-- Matches nowhere, without looking. -/
def fail : Pattern :=
  absent succeed

/-- Any character. -/
def any : Pattern :=
  one fun _ => true

/-- Only where no character is left. -/
def endOfInput : Pattern :=
  absent any

/-- The given character. -/
def char (c : Char) : Pattern :=
  one (· == c)

/-- A character of an inclusive range. -/
def range (low high : Char) : Pattern :=
  one fun c => low ≤ c && c ≤ high

/-- A character that occurs in the list. -/
def oneOf (cs : List Char) : Pattern :=
  one (cs.contains ·)

/-- The body, put back if it fails. -/
def attempt (body : Pattern) : Pattern :=
  either body fail

/-- The body, or nothing. -/
def optional (body : Pattern) : Pattern :=
  either body succeed

/-- Matches where the body does, and consumes and records nothing. -/
def peek (body : Pattern) : Pattern :=
  absent (absent body)

/-- At least one repetition. -/
def many1 (body : Pattern) : Pattern :=
  both (attempt body) (many body)

/-- The first alternative that matches; every alternative starts from the same place. -/
def choice (alternatives : List Pattern) : Pattern :=
  alternatives.foldr either fail

/-- All steps in order. Nothing is put back when a step fails. -/
def all (steps : List Pattern) : Pattern :=
  steps.foldr both succeed

/-- All steps in order, put back if one fails. -/
def sequence (steps : List Pattern) : Pattern :=
  attempt (all steps)

/-- The given characters in a row. -/
def literal (s : String) : Pattern :=
  sequence (s.toList.map char)

end Pattern

end RiftLang
