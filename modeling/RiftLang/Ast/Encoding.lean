import RiftLang.Ast
import RiftLang.Json

/-!
# Syntax trees as JSON

The form in which syntax trees are handed to other programs. A node is an object of its kind and its
value; records are objects of their parts, in a fixed order; an alternative is an object with one
field that names it; a missing part is null.

* `Node.toJson`, `Rift.toJson`, `Source.toJson` — the JSON value of a tree.
-/

namespace RiftLang

/-- The JSON value of a name. -/
def Ref.toJson (r : Ref) : Json :=
  .obj [("unit", match r.unit with | some unit => .str unit | none => .null),
    ("local", .str r.rawName)]

/-- The JSON value of a number. -/
def Numeral.toJson : Numeral → Json
  | integer n => .obj [("Integer", .int n.toInt)]
  | decimal x => .obj [("Decimal", .float x)]
  | scientific x => .obj [("Scientific", .float x)]

/-- The object of a node: its kind and its value. -/
def NodeKind.tagged (kind : NodeKind) (value : Json) : Json :=
  .obj [("kind", .str kind.text), ("value", value)]

namespace Node

mutual

/-- The JSON value of a node. -/
def toJson : Node → Json
  | function parameters body =>
    NodeKind.functionDefinition.tagged
      (.obj [("params", .arr (parameters.map Ref.toJson)), ("body", bodyJson body)])
  | application callee arguments =>
    NodeKind.functionApply.tagged
      (.obj [("callee", callee.toJson), ("args", .arr (nodeJsons arguments))])
  | tuple items => NodeKind.tuple.tagged (.arr (nodeJsons items))
  | list items => NodeKind.list.tagged (.arr (nodeJsons items))
  | map entries => NodeKind.map.tagged (.arr (entryJsons entries))
  | assignment target value =>
    NodeKind.assignment.tagged (.obj [("target", target.toJson), ("value", toJson value)])
  | conditional condition lines otherwise =>
    NodeKind.conditional.tagged
      (.obj
        [("condition", toJson condition), ("lines", .arr (nodeJsons lines)),
         ("else_lines", otherwiseJson otherwise)])
  | string text => NodeKind.string.tagged (.str text)
  | numeric value => NodeKind.numeric.tagged value.toJson
  | boolean value => NodeKind.boolean.tagged (.bool value)
  | reference ref => NodeKind.reference.tagged ref.toJson
  | operation first rest =>
    NodeKind.operation.tagged (.obj [("first", toJson first), ("rest", .arr (chainJsons rest))])

/-- The JSON values of several nodes. -/
def nodeJsons : List Node → List Json
  | [] => []
  | node :: rest => toJson node :: nodeJsons rest

/-- The JSON values of the entries of a map. -/
def entryJsons : List (Node × Node) → List Json
  | [] => []
  | (key, value) :: rest => .obj [("key", toJson key), ("value", toJson value)] :: entryJsons rest

/-- The JSON values of pairs of an operator and an operand. -/
def chainJsons : List (BinaryOperator × Node) → List Json
  | [] => []
  | (op, operand) :: rest => .arr [.str op.name, toJson operand] :: chainJsons rest

/-- The JSON value of a function's body. -/
def bodyJson : Body Node → Json
  | .block lines => .obj [("block", .arr (nodeJsons lines))]
  | .expr value => .obj [("expr", toJson value)]

/-- The second block of a conditional, or null. -/
def otherwiseJson : Option (List Node) → Json
  | none => .null
  | some lines => .arr (nodeJsons lines)

end

end Node

/-- The JSON value of a rift. -/
def Rift.toJson (r : Rift) : Json :=
  .obj [("name", r.name.toJson), ("lines", .arr (Node.nodeJsons r.lines))]

/-- The JSON value of a program. -/
def Source.toJson (s : Source) : Json :=
  .obj [("rifts", .arr (s.rifts.map Rift.toJson))]

/-- The compact JSON text of a program. -/
def Source.json (s : Source) : String :=
  s.toJson.render

end RiftLang
