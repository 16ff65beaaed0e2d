import RiftLang.NodeKind
import RiftLang.Decimal.Binary

/-!
# Syntax trees

What a Rift program is, once its text is forgotten.

* `Ref` — a name, possibly of another unit.
* `Numeral`, `BinaryOperator`, `Body` — parts of expressions.
* `Node` — the lines and expressions of a program.
* `Rift` — a top-level unit, and `Source` — a whole program: rifts in the order they were written.

Names keep the `@` they were written with. A name's `@` is its gravity: it makes a rift visible to
other units.
-/

namespace RiftLang

/-! ## Names -/

/-- A name, possibly of another unit. -/
structure Ref where
  /-- The unit before the colon, if one was written. -/
  unit : Option String
  /-- The name itself, with its `@` if it was written with one. -/
  rawName : String
  deriving DecidableEq, Repr, Inhabited

namespace Ref

/-- A name without a unit. -/
def ofName (rawName : String) : Ref where
  unit := none
  rawName := rawName

/-- A name of the given unit. -/
def qualified (unit rawName : String) : Ref where
  unit := some unit
  rawName := rawName

/-- Was no unit written? -/
def isLocal (r : Ref) : Bool :=
  r.unit.isNone

/-- The unit in which the name is looked up; `_` is the current one. -/
def rift (r : Ref) : String :=
  r.unit.getD "_"

/-- The name without its `@`. -/
def name (r : Ref) : String :=
  match r.rawName.toList with
  | '@' :: rest => String.ofList rest
  | _ => r.rawName

/-- Does the first component carry an `@`? -/
def hasGravity (r : Ref) : Bool :=
  (r.unit.getD r.rawName).toList.head? == some '@'

end Ref

/-! ## Parts of expressions -/

/-- A number, in one of the three forms it may be written in. -/
inductive Numeral where
  | integer (value : Int64)
  /-- Written with a point. -/
  | decimal (value : Float)
  /-- Written with an exponent. -/
  | scientific (value : Float)
  deriving Repr, Inhabited

/-- The value of a number as a floating-point number; an integer is rounded to the nearest one. -/
def Numeral.toFloat : Numeral → Float
  | integer n => nearestFloat (n < 0) n.toInt.natAbs 1
  | decimal x => x
  | scientific x => x

/-- An operator between two operands. -/
inductive BinaryOperator where
  | add
  | subtract
  | multiply
  | divide
  | modulo
  | power
  deriving DecidableEq, Repr, Inhabited

namespace BinaryOperator

/-- Every operator, in declaration order. -/
def all : List BinaryOperator :=
  [add, subtract, multiply, divide, modulo, power]

/-- How an operator is written. -/
def text : BinaryOperator → String
  | add => "+"
  | subtract => "-"
  | multiply => "*"
  | divide => "/"
  | modulo => "%"
  | power => "**"

/-- The name of an operator. -/
def name : BinaryOperator → String
  | add => "Add"
  | subtract => "Subtract"
  | multiply => "Multiply"
  | divide => "Divide"
  | modulo => "Modulo"
  | power => "Power"

/-- The operator written like this. -/
def ofText? (s : String) : Option BinaryOperator :=
  all.find? (·.text == s)

/-- The list of all operators leaves none out. -/
theorem mem_all (op : BinaryOperator) : op ∈ all := by
  cases op <;> decide

end BinaryOperator

/-- What a function does: run the lines of a block, or give the value of an expression. -/
inductive Body (α : Type) where
  | block (lines : List α)
  | expr (value : α)
  deriving Repr, Inhabited

/-! ## Nodes -/

/-- A line or an expression. -/
inductive Node where
  | function (parameters : List Ref) (body : Body Node)
  | application (callee : Ref) (arguments : List Node)
  | tuple (items : List Node)
  | list (items : List Node)
  | map (entries : List (Node × Node))
  | assignment (target : Ref) (value : Node)
  | conditional (condition : Node) (lines : List Node) (otherwise : Option (List Node))
  | string (text : String)
  | numeric (value : Numeral)
  | boolean (value : Bool)
  | reference (ref : Ref)
  /-- Operands with operators between them, without precedence. -/
  | operation (first : Node) (rest : List (BinaryOperator × Node))
  deriving Repr, Inhabited

namespace Node

/-- The kind of a node. -/
def kind : Node → NodeKind
  | function .. => .functionDefinition
  | application .. => .functionApply
  | tuple _ => .tuple
  | list _ => .list
  | map _ => .map
  | assignment .. => .assignment
  | conditional .. => .conditional
  | string _ => .string
  | numeric _ => .numeric
  | boolean _ => .boolean
  | reference _ => .reference
  | operation .. => .operation

/-- Is the node a function? -/
def isFunction : Node → Bool
  | function .. => true
  | _ => false

end Node

/-- The lines of a body; an expression counts as one line. -/
def Body.lines {α : Type} : Body α → List α
  | .block lines => lines
  | .expr value => [value]

/-! ## Programs -/

/-- A top-level unit. -/
structure Rift where
  /-- Its name. -/
  name : Ref
  /-- Its lines, in order. -/
  lines : List Node
  deriving Repr, Inhabited

/-- Inserts or replaces the value of a key in a list sorted by key. -/
def insertByKey {α : Type} (key : String) (value : α) : List (String × α) → List (String × α)
  | [] => [(key, value)]
  | (k, v) :: rest =>
    if key = k then (key, value) :: rest
    else if key < k then (key, value) :: (k, v) :: rest
    else (k, v) :: insertByKey key value rest

namespace Rift

/-- The functions assigned at the top of a rift, by name without `@`, sorted by name. Of two
assignments to one name the later counts. -/
def protocol (r : Rift) : List (String × Node) :=
  r.lines.foldl (fun table line =>
    match line with
    | .assignment target value =>
      if value.isFunction then insertByKey target.name value table else table
    | _ => table) []

end Rift

/-- A program: its rifts, in order. -/
structure Source where
  /-- The rifts, in the order they were written. -/
  rifts : List Rift
  deriving Repr, Inhabited

namespace Source

/-- The first rift of the given name; an `@` of the rift does not count. -/
def rift? (s : Source) (name : String) : Option Rift :=
  s.rifts.find? (·.name.name == name)

end Source

end RiftLang
