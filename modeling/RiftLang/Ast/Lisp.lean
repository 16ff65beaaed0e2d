import RiftLang.Ast
import RiftLang.Sexp
import RiftLang.Decimal.Layout
import RiftLang.Text.Quoted

/-!
# Syntax trees as S-expressions

Every part of a syntax tree is a form whose head is its kind.

* `Node.toSexp`, `Rift.toSexp` — the expression of a tree.
* `Node.lisp`, `Rift.lisp`, `Source.lisp` — its text; the rifts of a program stand on lines of their
  own.
* `Numeral.text` — how numbers are written here.
-/

namespace RiftLang

/-- Floating-point numbers in listings: positional from `0.0001` up to `10 ^ 16`, only negative
exponents have a sign, and a tie goes up. -/
def listingLayout : FloatLayout where
  tie := .up
  lowestTop := -3
  highestTop := 16
  signsExponent := false
  infinity := "inf"
  negativeInfinity := "-inf"
  nan := "NaN"

/-- The text of a number. -/
def Numeral.text : Numeral → String
  | integer n => toString n.toInt
  | decimal x => listingLayout.render x
  | scientific x => listingLayout.render x

/-- The form of a kind with the given parts. -/
def NodeKind.form (kind : NodeKind) (parts : List Sexp) : Sexp :=
  .form kind.text parts

/-- A name as written, with its unit. -/
def Ref.text (r : Ref) : String :=
  match r.unit with
  | some unit => unit ++ ":" ++ r.rawName
  | none => r.rawName

/-- The expression of a name. -/
def Ref.toSexp (r : Ref) : Sexp :=
  NodeKind.reference.form [.atom r.text]

/-- The text of a truth value. -/
def boolText (b : Bool) : String :=
  if b then "true" else "false"

namespace Node

mutual

/-- The expression of a node. -/
def toSexp : Node → Sexp
  | function parameters body =>
    NodeKind.functionDefinition.form
      [NodeKind.arguments.form (parameters.map Ref.toSexp), bodySexp body]
  | application callee arguments =>
    NodeKind.functionApply.form [callee.toSexp, NodeKind.tuple.form (nodeSexps arguments)]
  | tuple items => NodeKind.tuple.form (nodeSexps items)
  | list items => NodeKind.list.form (nodeSexps items)
  | map entries => NodeKind.map.form (entrySexps entries)
  | assignment target value => NodeKind.assignment.form [target.toSexp, toSexp value]
  | conditional condition lines otherwise =>
    NodeKind.conditional.form
      (toSexp condition :: NodeKind.block.form (nodeSexps lines) :: otherwiseSexps otherwise)
  | string text => NodeKind.string.form [.atom (quoted text)]
  | numeric value => NodeKind.numeric.form [.atom value.text]
  | boolean value => NodeKind.boolean.form [.atom (boolText value)]
  | reference ref => ref.toSexp
  | operation first rest => NodeKind.operation.form (toSexp first :: chainSexps rest)

/-- The expressions of several nodes. -/
def nodeSexps : List Node → List Sexp
  | [] => []
  | node :: rest => toSexp node :: nodeSexps rest

/-- The expressions of the entries of a map. -/
def entrySexps : List (Node × Node) → List Sexp
  | [] => []
  | (key, value) :: rest => NodeKind.mapEntry.form [toSexp key, toSexp value] :: entrySexps rest

/-- The expressions of operators and operands in turn. -/
def chainSexps : List (BinaryOperator × Node) → List Sexp
  | [] => []
  | (op, operand) :: rest => .atom op.text :: toSexp operand :: chainSexps rest

/-- The expression of a function's body. -/
def bodySexp : Body Node → Sexp
  | .block lines => NodeKind.block.form (nodeSexps lines)
  | .expr value => toSexp value

/-- The second block of a conditional, if it has one. -/
def otherwiseSexps : Option (List Node) → List Sexp
  | none => []
  | some lines => [NodeKind.block.form (nodeSexps lines)]

end

/-- The Lisp form of a node. -/
def lisp (n : Node) : String :=
  n.toSexp.render

end Node

namespace Rift

/-- The expression of a rift. -/
def toSexp (r : Rift) : Sexp :=
  NodeKind.rift.form [r.name.toSexp, NodeKind.block.form (Node.nodeSexps r.lines)]

/-- The Lisp form of a rift. -/
def lisp (r : Rift) : String :=
  r.toSexp.render

end Rift

namespace Source

/-- The Lisp form of a program: one rift a line. -/
def lisp (s : Source) : String :=
  "\n".intercalate (s.rifts.map Rift.lisp)

end Source

end RiftLang
