/-!
# The rules of the Rift grammar

A Rift program is recognised by a fixed set of named rules. This module holds their names only; what
each rule matches is `Grammar.body`.

* `Rule` — the rules, in the order of the grammar table.
* `Rule.text` — the name a rule has in listings and reports, and `Rule.ofText?`, which reads it
  back.
* `Rule.isTrivia` — blanks and comments, which never say usefully where an error is.
-/

namespace RiftLang

/-- A named rule of the grammar. -/
inductive Rule where
  | source
  | rift
  | riftName
  | block
  | line
  | conditional
  | assignment
  | expr
  | operation
  | operand
  | operator
  | application
  | value
  | reference
  | localReference
  | name
  | literal
  | function
  | parameters
  | tuple
  | list
  | map
  | mapEntry
  | mapKey
  | string
  | stringChar
  | stringEscape
  | numeric
  | scientific
  | decimal
  | integer
  | wholeNumber
  | digit
  | boolean
  /-- At least one blank or comment. -/
  | someSpace
  /-- Any number of blanks and comments. -/
  | space
  | comment
  | blank
  deriving DecidableEq, Repr, Inhabited

namespace Rule

/-- Every rule, in the order of the grammar table. -/
def all : List Rule :=
  [source, rift, riftName, block, line, conditional, assignment, expr, operation, operand, operator,
   application, value, reference, localReference, name, literal, function, parameters,
   tuple, list, map, mapEntry, mapKey, string, stringChar, stringEscape, numeric, scientific,
   decimal, integer, wholeNumber, digit, boolean, someSpace, space, comment, blank]

/-- The name of a rule in listings and reports. -/
def text : Rule → String
  | source => "Source"
  | rift => "Rift"
  | riftName => "RiftName"
  | block => "Block"
  | line => "Line"
  | conditional => "If"
  | assignment => "Assignment"
  | expr => "Expr"
  | operation => "Op"
  | operand => "Operand"
  | operator => "BinaryOp"
  | application => "FuncApply"
  | value => "Value"
  | reference => "Ref"
  | localReference => "LocalRef"
  | name => "Name"
  | literal => "Literal"
  | function => "Func"
  | parameters => "Params"
  | tuple => "Tuple"
  | list => "List"
  | map => "Map"
  | mapEntry => "MapEntry"
  | mapKey => "MapKey"
  | string => "String"
  | stringChar => "StringChar"
  | stringEscape => "StringEsc"
  | numeric => "Numeric"
  | scientific => "SciNum"
  | decimal => "Decimal"
  | integer => "Integer"
  | wholeNumber => "WholeNum"
  | digit => "Digit"
  | boolean => "Boolean"
  | someSpace => "msp"
  | space => "sp"
  | comment => "comment"
  | blank => "ws"

/-- The rule of a given name. -/
def ofText? (s : String) : Option Rule :=
  all.find? (·.text == s)

/-- Blanks and comments. They never locate an error usefully. -/
def isTrivia : Rule → Bool
  | someSpace | space | comment | blank => true
  | _ => false

/-- The list of all rules leaves none out. -/
theorem mem_all (r : Rule) : r ∈ all := by
  cases r <;> decide

end Rule

end RiftLang
