import RiftLang.Replay
import RiftLang.Proofs.Peg

/-!
# The meaning of a derivation

What a derivation stands for, read off from its structure: every construct is made from what the
constructs inside it stand for, in their order. There is no stack of open nodes, no flag and no text
captured last.

* `construct` — what a rule makes of the fragments inside it.
* `Derivation.fragments` — what a derivation stands for, or the first text that is no value.
* `Derivation.program` — the program of a derivation of a source.
* `Derivation.marks` — the flags that a derivation puts on the node around it.
* `Derivation.numerals` — the texts of its numbers, in order.
-/

namespace RiftLang

namespace Fragment

/-- The node that the fragment is, if it is one. -/
def node? : Fragment → Option Node
  | node n => some n
  | _ => none

/-- The name that the fragment is, if it is one. -/
def reference? : Fragment → Option Ref
  | node (.reference r) => some r
  | _ => none

/-- The entry that the fragment is, if it is one. -/
def entry? : Fragment → Option (Node × Node)
  | entry key value => some (key, value)
  | _ => none

/-- The rift that the fragment is, if it is one. -/
def rift? : Fragment → Option Rift
  | rift r => some r
  | _ => none

/-- Of fragments that are rifts, all are kept. -/
theorem filterMap_rift?_map (rifts : List Rift) : (rifts.map rift).filterMap rift? = rifts := by
  rw [List.filterMap_map]
  exact List.filterMap_some

end Fragment

/-! ## Constructs -/

/-- Operators and operands in turn. -/
def operandChain : List Fragment → List (BinaryOperator × Node)
  | .operator op :: .node operand :: rest => (op, operand) :: operandChain rest
  | _ => []

/-- A chain is regained from its operators and operands in turn. -/
theorem operandChain_flatMap (chain : List (BinaryOperator × Node)) :
    operandChain (chain.flatMap fun link => [.operator link.1, .node link.2]) = chain := by
  induction chain with
  | nil => rfl
  | cons link chain ih => exact congrArg (link :: ·) ih

/-- The number that a text stands for. Its form shows in the text. -/
def readNumeral (text : List Char) : Except LiteralFault Numeral :=
  if text.any fun c => c == 'e' || c == 'E' then .scientific <$> readFloat text
  else if text.contains '.' then .decimal <$> readFloat text
  else .integer <$> readInteger text

/-- A value read from the text of a node, or the error that the text is none. -/
def literalValue {α : Type} (kind : NodeKind) (text : String) (value : Except LiteralFault α) :
    Except BuildError α :=
  value.mapError (.invalidLiteral kind text)

/-- What a rule stands for, given what stands inside it. Rules that are no constructs hand it on. -/
def construct (r : Rule) (parts : List Fragment) : Except BuildError (List Fragment) :=
  match r with
  | .rift =>
    match parts with
    | [.node (.reference name), .block lines] => .ok [.rift ⟨name, lines⟩]
    | _ => .ok parts
  | .riftName | .localReference | .reference =>
    match parts with
    | [.text name] => .ok [.node (.reference (.ofName name))]
    | [.text unit, .text name] => .ok [.node (.reference (.qualified unit name))]
    | _ => .ok parts
  | .block => .ok [.block (parts.filterMap Fragment.node?)]
  | .conditional =>
    match parts with
    | [.node condition, .block lines] => .ok [.node (.conditional condition lines none)]
    | [.node condition, .block lines, .block otherwise] =>
      .ok [.node (.conditional condition lines (some otherwise))]
    | _ => .ok parts
  | .assignment =>
    match parts with
    | [.node (.reference target), .node value] => .ok [.node (.assignment target value)]
    | _ => .ok parts
  | .operation =>
    match parts with
    | .node first :: rest => .ok [.node (.operation first (operandChain rest))]
    | _ => .ok parts
  | .operator =>
    match parts with
    | [.text text] => do
      let op ← literalValue .binaryOperator text
        ((BinaryOperator.ofText? text).elim (.error .unknownVariant) .ok)
      return [.operator op]
    | _ => .ok parts
  | .application =>
    match parts with
    | [.node (.reference callee), .node (.tuple arguments)] =>
      .ok [.node (.application callee arguments)]
    | _ => .ok parts
  | .function =>
    match parts with
    | [.arguments parameters, .block lines] => .ok [.node (.function parameters (.block lines))]
    | [.arguments parameters, .node value] => .ok [.node (.function parameters (.expr value))]
    | _ => .ok parts
  | .parameters => .ok [.arguments (parts.filterMap Fragment.reference?)]
  | .tuple => .ok [.node (.tuple (parts.filterMap Fragment.node?))]
  | .list => .ok [.node (.list (parts.filterMap Fragment.node?))]
  | .map => .ok [.node (.map (parts.filterMap Fragment.entry?))]
  | .mapEntry =>
    match parts with
    | [.node key, .node value] => .ok [.entry key value]
    | _ => .ok parts
  | .string =>
    match parts with
    | [.text raw] => do
      let text ← literalValue .string raw ((unescape raw).elim (.error .undefinedEscape) .ok)
      return [.node (.string text)]
    | _ => .ok parts
  | .numeric =>
    match parts with
    | [.text text] => do
      let value ← literalValue .numeric text (readNumeral text.toList)
      return [.node (.numeric value)]
    | _ => .ok parts
  | .boolean =>
    match parts with
    | [.text text] => do
      let value ← literalValue .boolean text (readBoolean text)
      return [.node (.boolean value)]
    | _ => .ok parts
  | _ => .ok parts

/-- The rules that open a node and close it. -/
def Rule.isNode : Rule → Bool
  | .rift | .riftName | .block | .conditional | .assignment | .operation | .operator | .application
  | .reference | .localReference | .function | .parameters | .tuple | .list | .map | .mapEntry
  | .string | .numeric | .boolean => true
  | _ => false

namespace Derivation

/-- What a derivation stands for, in order, or the error of the first text that is no value. -/
def fragments : Derivation → Except BuildError (List Fragment)
  | leaf _ | action _ => .ok []
  | append first second => do return (← first.fragments) ++ (← second.fragments)
  | capture (.rule r) body => do construct r (← body.fragments)
  | capture .text body => .ok [.text (String.ofList body.chars)]
  | capture (.action _) body => body.fragments

/-- The program that a derivation of a source stands for. -/
def program (d : Derivation) : Except BuildError Source :=
  d.fragments.map fun parts => ⟨parts.filterMap Fragment.rift?⟩

/-- The flags that a derivation puts on the node around it, in order. -/
def marks : Derivation → List Mark
  | leaf _ => []
  | action (.mark m) => [m]
  | action _ => []
  | append first second => first.marks ++ second.marks
  | capture (.rule r) body => if r.isNode then [] else body.marks
  | capture _ body => body.marks

/-- The texts of the numbers of a derivation, in order. -/
def numerals : Derivation → List (List Char)
  | leaf _ | action _ => []
  | append first second => first.numerals ++ second.numerals
  | capture symbol body => body.numerals ++ if symbol = .rule .numeric then [body.chars] else []

variable {d e : Derivation}

/-- Two derivations in a row stand for something only if both do, and then for what they stand for
in a row. -/
theorem fragments_append_eq_ok {parts : List Fragment} (h : (d.append e).fragments = .ok parts) :
    ∃ parts₁ parts₂, d.fragments = .ok parts₁ ∧ e.fragments = .ok parts₂ ∧
      parts = parts₁ ++ parts₂ := by
  rw [fragments] at h
  rcases hd : d.fragments with _ | parts₁
  · rw [hd] at h
    cases h
  · rcases he : e.fragments with _ | parts₂
    · rw [hd, he] at h
      cases h
    · rw [hd, he] at h
      cases h
      exact ⟨_, _, rfl, rfl, rfl⟩

/-- The error of two derivations in a row is that of the first, or that of the second if the first
has none. -/
theorem fragments_append_eq_error {x : BuildError} (h : (d.append e).fragments = .error x) :
    d.fragments = .error x ∨ ∃ parts, d.fragments = .ok parts ∧ e.fragments = .error x := by
  rw [fragments] at h
  rcases hd : d.fragments with _ | parts₁
  · rw [hd] at h
    cases h
    exact .inl rfl
  · rcases he : e.fragments with _ | parts₂
    · rw [hd, he] at h
      cases h
      exact .inr ⟨_, rfl, rfl⟩
    · rw [hd, he] at h
      cases h

end Derivation

end RiftLang
