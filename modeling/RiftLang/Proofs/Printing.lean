import RiftLang.Ast.Lisp
import RiftLang.Grammar
import RiftLang.Proofs.Nodes

/-!
# Printed programs

Programs as source text, and which programs a source text can stand for.

* `Node.chars`, `Rift.chars`, `Source.print` — the text of a program: one line for each line, one
  space where blanks are needed.
* `Node.isExpressible`, `Source.isExpressible` — every name is a name, and every part is of the sort
  that its place asks for.
* `Node.isUnambiguous`, `Source.isUnambiguous` — no part would run on into what is printed after it.
-/

namespace RiftLang

/-! ## Texts -/

/-- Texts with a separator between them. -/
def separated (separator : List Char) : List (List Char) → List Char
  | [] => []
  | [text] => text
  | text :: rest => text ++ separator ++ separated separator rest

/-- A character as it stands in a string. -/
def escapedChar (c : Char) : List Char :=
  match c with
  | '\\' => ['\\', '\\']
  | '"' => ['\\', '"']
  | '\n' => ['\\', 'n']
  | c => [c]

/-- A block of lines. -/
def blockChars (lines : List (List Char)) : List Char :=
  ['{', ' '] ++ separated ['\n'] lines ++ [' ', '}']

/-- Items in brackets. -/
def bracketChars (opening : Char) (items : List (List Char)) (closing : Char) : List Char :=
  opening :: separated [',', ' '] items ++ [closing]

/-- The text of a name. -/
def Ref.chars (r : Ref) : List Char :=
  r.text.toList

namespace Node

mutual

/-- The text of a node. -/
def chars : Node → List Char
  | function parameters body =>
    bracketChars '(' (parameters.map Ref.chars) ')' ++ [' ', '-', '>', ' '] ++ bodyChars body
  | application callee arguments => callee.chars ++ bracketChars '(' (allChars arguments) ')'
  | tuple items => bracketChars '(' (allChars items) ')'
  | list items => bracketChars '[' (allChars items) ']'
  | map entries => bracketChars '{' (entryChars entries) '}'
  | assignment target value => target.chars ++ [' ', '=', ' '] ++ chars value
  | conditional condition lines otherwise =>
    ['i', 'f', ' '] ++ chars condition ++ ' ' ::
      blockChars (allChars lines) ++ otherwiseChars otherwise
  | string text => '"' :: text.toList.flatMap escapedChar ++ ['"']
  | numeric value => value.text.toList
  | boolean value => (boolText value).toList
  | reference ref => ref.chars
  | operation first rest => chars first ++ chainChars rest

/-- The texts of several nodes. -/
def allChars : List Node → List (List Char)
  | [] => []
  | node :: rest => chars node :: allChars rest

/-- The texts of the entries of a map. -/
def entryChars : List (Node × Node) → List (List Char)
  | [] => []
  | (key, value) :: rest => (chars key ++ [' ', ':', ' '] ++ chars value) :: entryChars rest

/-- The text of operators and operands in turn. -/
def chainChars : List (BinaryOperator × Node) → List Char
  | [] => []
  | (op, operand) :: rest => ' ' :: op.text.toList ++ ' ' :: chars operand ++ chainChars rest

/-- The text of a function's body. -/
def bodyChars : Body Node → List Char
  | .block lines => blockChars (allChars lines)
  | .expr value => chars value

/-- The text of the second block of a conditional. -/
def otherwiseChars : Option (List Node) → List Char
  | none => []
  | some lines => [' ', 'e', 'l', 's', 'e', ' '] ++ blockChars (allChars lines)

end

/-- The texts of several nodes are those of each. -/
theorem allChars_eq (nodes : List Node) : allChars nodes = nodes.map chars := by
  induction nodes with
  | nil => rfl
  | cons node rest ih => rw [allChars, ih, List.map_cons]

/-- The text of an entry of a map. -/
def pairChars (entry : Node × Node) : List Char :=
  entry.1.chars ++ [' ', ':', ' '] ++ entry.2.chars

/-- The texts of the entries of a map are those of each. -/
theorem entryChars_eq (entries : List (Node × Node)) :
    entryChars entries = entries.map pairChars := by
  induction entries with
  | nil => rfl
  | cons entry rest ih => rw [entryChars, ih, List.map_cons, pairChars]

end Node

/-- The text of a rift. -/
def Rift.chars (r : Rift) : List Char :=
  r.name.chars ++ [' ', '=', '>', ' '] ++ blockChars (r.lines.map Node.chars)

/-- The text of a program. -/
def Source.print (s : Source) : String :=
  String.ofList (separated ['\n'] (s.rifts.map Rift.chars))

/-! ## Expressible programs -/

/-- A letter or underscore, and then letters, digits and underscores. -/
def isPlainName : List Char → Bool
  | [] => false
  | c :: cs => isNameStart c && cs.all isNameChar

/-- The words that are no names. -/
def reservedWords : List (List Char) :=
  [['i', 'f'], ['e', 'l', 's', 'e'], ['t', 'r', 'u', 'e'], ['f', 'a', 'l', 's', 'e']]

/-- A plain name that is not reserved, or a plain name with an `@` before it. -/
def isName (name : String) : Bool :=
  match name.toList with
  | '@' :: cs => isPlainName cs
  | cs => isPlainName cs && !reservedWords.contains cs

namespace Ref

/-- Every component is a name. -/
def isNamed (r : Ref) : Bool :=
  r.unit.all isName && isName r.rawName

/-- A name without a unit. -/
def isLocalName (r : Ref) : Bool :=
  r.isLocal && r.isNamed

end Ref

namespace Node

/-- Neither an assignment nor a conditional. -/
def isExpression : Node → Bool
  | assignment .. | conditional .. => false
  | _ => true

/-- Not an operation, and neither an assignment nor a conditional. -/
def isOperand : Node → Bool
  | operation .. => false
  | n => n.isExpression

/-- A string, a number, a boolean or a name without unit. -/
def isKey : Node → Bool
  | string _ | numeric _ | boolean _ => true
  | reference ref => ref.isLocal
  | _ => false

/-- What stands right below the node is of the sort that can be written there. -/
def isExpressible : Node → Bool
  | function parameters body =>
    parameters.all Ref.isLocalName &&
      match body with
      | .block _ => true
      | .expr value => value.isExpression
  | application callee arguments => callee.isNamed && arguments.all isExpression
  | tuple items | list items => items.all isExpression
  | map entries => entries.all fun entry => entry.1.isKey && entry.2.isExpression
  | assignment target value => target.isLocalName && value.isExpression
  | conditional condition _ _ => condition.isExpression
  | numeric value =>
    match value with
    | .integer _ => true
    | _ => false
  | reference ref => ref.isNamed
  | operation first rest => !rest.isEmpty && first.isOperand && rest.all fun entry =>
    entry.2.isOperand
  | string _ | boolean _ => true

end Node

/-- There is a rift, rifts have names without unit, and every node can be written where it
stands. -/
def Source.isExpressible (s : Source) : Bool :=
  !s.rifts.isEmpty &&
    s.rifts.all fun r => r.name.isLocalName && r.lines.all fun line =>
      line.inside.all Node.isExpressible

/-! ## Unambiguous programs -/

namespace Node

/-- The expression that the text of an expression begins with. -/
def opening : Node → Node
  | operation first _ => first
  | n => n

/-- The text begins with a minus. -/
def opensWithMinus (n : Node) : Bool :=
  match n.opening with
  | numeric (.integer value) => value < 0
  | _ => false

/-- The text begins with a map without entries. -/
def opensWithEmptyMap (n : Node) : Bool :=
  match n.opening with
  | map [] => true
  | _ => false

/-- A function whose body is an expression. -/
def isShortFunction : Node → Bool
  | function _ (.expr _) => true
  | _ => false

/-- A conditional. -/
def isConditional : Node → Bool
  | conditional .. => true
  | _ => false

/-- No line that begins with a minus follows a line that an operator would continue. -/
def areApart : List Node → Bool
  | line :: next :: rest => (line.isConditional || !next.opensWithMinus) && areApart (next :: rest)
  | _ => true

/-- Nothing right below the node would run on into what follows it, or be read as something else. -/
def isUnambiguous : Node → Bool
  | function _ (.block lines) => areApart lines
  | function _ (.expr value) => !value.opensWithEmptyMap
  | conditional _ lines otherwise => areApart lines && otherwise.all areApart
  | operation first rest => (first :: rest.map Prod.snd).dropLast.all fun operand =>
    !operand.isShortFunction
  | _ => true

end Node

/-- Every node is unambiguous, and so are the lines of every rift. -/
def Source.isUnambiguous (s : Source) : Bool :=
  s.rifts.all fun r =>
    Node.areApart r.lines && r.lines.all fun line => line.inside.all Node.isUnambiguous

end RiftLang
