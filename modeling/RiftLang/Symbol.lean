import RiftLang.Rule
import RiftLang.NodeKind

/-!
# Symbols

Every token carries a symbol that says why it was recorded.

* `Mark` — a flag put on the node that is open while the tokens are replayed.
* `Action` — an instruction to the replay: open a node, attach the latest text, flag, close.
* `Symbol` — a rule that matched, a captured text, or an action.
* `Symbol.text` and `Symbol.ofText?` — the written form of a symbol, and reading it.
-/

namespace RiftLang

/-- A flag that tells two shapes of one construct apart. -/
inductive Mark where
  /-- The reference names a unit before its colon. -/
  | qualified
  /-- The number has a fraction. -/
  | decimal
  /-- The number has an exponent. -/
  | scientific
  /-- The conditional has a second block. -/
  | otherwise
  deriving DecidableEq, Repr, Inhabited

namespace Mark

/-- Every mark, in declaration order. -/
def all : List Mark :=
  [qualified, decimal, scientific, otherwise]

/-- The written name of a mark. -/
def text : Mark → String
  | qualified => "Scoped"
  | decimal => "Decimal"
  | scientific => "Scientific"
  | otherwise => "Otherwise"

end Mark

/-- An instruction to the replay that builds the syntax tree. -/
inductive Action where
  /-- Open a node of the given kind. -/
  | begin (kind : NodeKind)
  /-- Give the open node the text captured last. -/
  | attach
  /-- Flag the open node. -/
  | mark (mark : Mark)
  /-- Close the open node and hand it to the one around it. -/
  | finish
  deriving DecidableEq, Repr, Inhabited

namespace Action

/-- The written form of an action. -/
def text : Action → String
  | begin kind => "Begin(" ++ kind.text ++ ")"
  | attach => "Attach"
  | mark m => "Mark(" ++ m.text ++ ")"
  | finish => "End"

/-- Every action. -/
def all : List Action :=
  NodeKind.all.map begin ++ [attach] ++ Mark.all.map mark ++ [finish]

end Action

/-- Why a token was recorded. -/
inductive Symbol where
  /-- A rule matched. -/
  | rule (rule : Rule)
  /-- A text was captured for an action to read. -/
  | text
  /-- An action is due. -/
  | action (action : Action)
  deriving DecidableEq, Repr, Inhabited

namespace Symbol

/-- The rule of a symbol that stands for one. -/
def rule? : Symbol → Option Rule
  | rule r => some r
  | _ => none

/-- Is the symbol an instruction to the replay? -/
def isAction : Symbol → Bool
  | action _ => true
  | _ => false

/-- The written form of a symbol. -/
def render : Symbol → String
  | rule r => r.text
  | text => "Text"
  | action a => a.text

/-- Every symbol. -/
def all : List Symbol :=
  Rule.all.map rule ++ [text] ++ Action.all.map action

/-- The symbol of a given written form. -/
def ofText? (s : String) : Option Symbol :=
  all.find? (·.render == s)

end Symbol

end RiftLang
