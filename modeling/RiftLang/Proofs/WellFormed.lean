import RiftLang.Proofs.Printing

/-!
# Well-formed programs

What every program that is parsed looks like, beyond what its type says.

* `isSpelledName`, `Ref.isSpelled` — names as they can be written, reserved or not.
* `Node.isWellFormed` — what stands right below a node is of the sort that the grammar lets stand
  there.
* `Source.isWellFormed` — so it is for every node of a program, and there is a rift.

Assignments and conditionals are lines only, a chain of operators is one operation, and what the
grammar reads as something else does not occur: a name for a truth value, an empty map for a block,
or an operator after a function whose body is an expression.
-/

namespace RiftLang

/-- A plain name, perhaps with an `@` before it. -/
def isSpelledName (name : String) : Bool :=
  match name.toList with
  | '@' :: cs => isPlainName cs
  | cs => isPlainName cs

namespace Ref

/-- Every component is a name as it can be written. -/
def isSpelled (r : Ref) : Bool :=
  r.unit.all isSpelledName && isSpelledName r.rawName

/-- A name without a unit. -/
def isLocalSpelled (r : Ref) : Bool :=
  r.isLocal && r.isSpelled

/-- The first component. -/
def first (r : Ref) : String :=
  r.unit.getD r.rawName

end Ref

/-- The words for truth values. -/
def truthWords : List String :=
  [boolText true, boolText false]

namespace Node

/-- The operands of a chain, from the first one on. -/
def operands (first : Node) (rest : List (BinaryOperator × Node)) : List Node :=
  first :: rest.map Prod.snd

/-- What stands right below the node is of the sort that is parsed there. -/
def isWellFormed : Node → Bool
  | function parameters body =>
    parameters.all Ref.isLocalSpelled &&
      match body with
      | .block _ => true
      | .expr value => value.isExpression && !value.opensWithEmptyMap
  | application callee arguments => callee.isSpelled && arguments.all isExpression
  | tuple items | list items => items.all isExpression
  | map entries => entries.all fun entry => entry.1.isKey && entry.2.isExpression
  | assignment target value => target.isLocalSpelled && value.isExpression
  | conditional condition _ _ => condition.isExpression
  | reference ref => ref.isSpelled && !truthWords.contains ref.first
  | operation first rest =>
    !rest.isEmpty && (operands first rest).all isOperand &&
      (operands first rest).dropLast.all fun operand => !operand.isShortFunction
  | string _ | numeric _ | boolean _ => true

/-- Every node inside is well-formed. -/
def isWellFormedInside (n : Node) : Bool :=
  n.inside.all isWellFormed

/-- A node is well-formed inside if it is so itself and its children are so inside. -/
theorem isWellFormedInside_iff {n : Node} :
    n.isWellFormedInside = true ↔ n.isWellFormed = true ∧
      ∀ c ∈ n.children, c.isWellFormedInside = true :=
  all_inside_iff

end Node

/-- A rift with a name without unit, and with well-formed lines. -/
def Rift.isWellFormed (r : Rift) : Bool :=
  r.name.isLocalSpelled && r.lines.all Node.isWellFormedInside

/-- There is a rift, and every rift is well-formed. -/
def Source.isWellFormed (s : Source) : Bool :=
  !s.rifts.isEmpty && s.rifts.all Rift.isWellFormed

end RiftLang
