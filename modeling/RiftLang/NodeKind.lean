/-!
# Kinds of node

The parts that a Rift program is built from when its tokens are replayed. Some kinds stand for
values of the syntax tree (`list`, `conditional`, …), some for parts of one (`block`, `arguments`,
`mapEntry`, `binaryOperator`), and `rift` for a whole top-level unit.
-/

namespace RiftLang

/-- What a node under construction will become. -/
inductive NodeKind where
  | rift
  | block
  | functionDefinition
  | functionApply
  | arguments
  | tuple
  | list
  | map
  | mapEntry
  | assignment
  | conditional
  | string
  | numeric
  | boolean
  | reference
  | operation
  | binaryOperator
  deriving DecidableEq, Repr, Inhabited

namespace NodeKind

/-- Every kind, in declaration order. -/
def all : List NodeKind :=
  [rift, block, functionDefinition, functionApply, arguments, tuple, list, map,
    mapEntry, assignment,
   conditional, string, numeric, boolean, reference, operation, binaryOperator]

/-- The written name of a kind: lower-case words joined by hyphens. -/
def text : NodeKind → String
  | rift => "rift"
  | block => "block"
  | functionDefinition => "function-definition"
  | functionApply => "function-apply"
  | arguments => "arguments"
  | tuple => "tuple"
  | list => "list"
  | map => "map"
  | mapEntry => "map-entry"
  | assignment => "assignment"
  | conditional => "if"
  | string => "string"
  | numeric => "numeric"
  | boolean => "boolean"
  | reference => "reference"
  | operation => "operation"
  | binaryOperator => "binary-operator"

/-- The kind of a given name; case matters. -/
def ofText? (s : String) : Option NodeKind :=
  all.find? (·.text == s)

/-- The list of all kinds leaves none out. -/
theorem mem_all (k : NodeKind) : k ∈ all := by
  cases k <;> decide

end NodeKind

end RiftLang
