import RiftLang.Ast
import RiftLang.Literal
import RiftLang.Token
import RiftLang.Text.Quoted

/-!
# Replaying tokens

The tokens of a recognised program carry actions. Replaying them in order builds its syntax tree: an
action opens a node, gives it the text captured last, flags it, or closes it and hands the result to
the node around it. A node that closes with nothing around it has to be a rift.

* `Fragment` — what a closed node is, and `Frame` — a node that is open.
* `Frame.assemble` — makes a fragment of a frame when it closes.
* `Replay.step` — one token. `replay` — all of them.
* `BuildError` — why a replay stops, with its wording in `BuildError.text`.

Constructs with two shapes are told apart by the flags of their frame, never by what was built
before.
-/

namespace RiftLang

/-! ## Errors -/

/-- How the parts of a node differ from what its kind asks for. -/
inductive ShapeFault where
  /-- Another number of parts. -/
  | partCount (expected found : Nat)
  /-- A part of another sort. -/
  | sort (expected found : String)
  /-- An operation has no first operand. -/
  | noOperand
  /-- An operator has no operand after it. -/
  | noRightOperand
  /-- An operation has no operator. -/
  | noOperator
  /-- A node other than a rift closes with nothing around it. -/
  | outsideRift (found : String)
  deriving DecidableEq, Repr, Inhabited

/-- The wording of a fault. -/
def ShapeFault.text : ShapeFault → String
  | partCount expected found => s!"expected {expected} parts, found {found}"
  | sort expected found => s!"expected {expected}, found {found}"
  | noOperand => "operation without operands"
  | noRightOperand => "operator without right operand"
  | noOperator => "operation without operators"
  | outsideRift found => s!"top-level {found} outside a rift"

/-- Why a replay stops. Offsets are those of the token at fault or, for a misshapen node, of its
opening. -/
inductive BuildError where
  /-- A node is closed, but none is open. -/
  | unbalancedEnd (offset : Nat)
  /-- A text or a flag comes while no node is open. -/
  | detachedValue (offset : Nat)
  /-- A text is asked for before any was captured. -/
  | missingText (offset : Nat)
  /-- A node closes with parts that do not fit its kind. -/
  | unexpectedShape (kind : NodeKind) (offset : Nat) (fault : ShapeFault)
  /-- The tokens end while nodes are open. -/
  | unclosedNodes (count : Nat)
  /-- A text does not stand for a value. -/
  | invalidLiteral (kind : NodeKind) (text : String) (fault : LiteralFault)
  deriving DecidableEq, Repr, Inhabited

/-- The wording of an error. -/
def BuildError.text : BuildError → String
  | unbalancedEnd offset => s!"end without an open node at offset {offset}"
  | detachedValue offset => s!"value without an open node at offset {offset}"
  | missingText offset => s!"attach before any text capture at offset {offset}"
  | unexpectedShape kind offset fault =>
    s!"unexpected shape for {kind.text} at offset {offset}: {fault.text}"
  | unclosedNodes count => s!"{count} node(s) still open at end of stream"
  | invalidLiteral kind text fault => s!"invalid {kind.text} literal {quoted text}: {fault.text}"

/-! ## Fragments and frames -/

/-- What a closed node is, until the node around it takes it in. -/
inductive Fragment where
  | text (text : String)
  | node (node : Node)
  | block (lines : List Node)
  | arguments (parameters : List Ref)
  | entry (key value : Node)
  | operator (op : BinaryOperator)
  | rift (rift : Rift)
  deriving Repr, Inhabited

/-- The sort of a fragment, as errors name it. -/
def Fragment.sort : Fragment → String
  | text _ => "text"
  | node _ => "node"
  | block _ => "block"
  | arguments _ => "arguments"
  | entry .. => "map entry"
  | operator _ => "operator"
  | rift _ => "rift"

/-- A node that is open. -/
structure Frame where
  /-- What the node will be. -/
  kind : NodeKind
  /-- The offset at which it was opened. -/
  offset : Nat
  /-- Its parts so far, the latest first. -/
  parts : List Fragment
  /-- Its flags. -/
  marks : List Mark
  deriving Repr, Inhabited

namespace Frame

/-- A frame without parts. -/
def begin (kind : NodeKind) (offset : Nat) : Frame where
  kind := kind
  offset := offset
  parts := []
  marks := []

/-- Adds a part at the end. -/
def push (f : Frame) (part : Fragment) : Frame :=
  { f with parts := part :: f.parts }

/-- Adds a flag. -/
def flag (f : Frame) (mark : Mark) : Frame :=
  { f with marks := mark :: f.marks }

/-- Does the frame carry the flag? -/
def has (f : Frame) (mark : Mark) : Bool :=
  f.marks.contains mark

/-- The error that the parts of the frame do not fit. -/
def misshapen (f : Frame) (fault : ShapeFault) : BuildError :=
  .unexpectedShape f.kind f.offset fault

/-- The error that a part is of the wrong sort. -/
def unexpected (f : Frame) (found : Fragment) (expected : String) : BuildError :=
  f.misshapen (.sort expected found.sort)

/-! ### Reading parts -/

/-- A part that has to be a text. -/
def textPart (f : Frame) : Fragment → Except BuildError String
  | .text s => .ok s
  | other => .error (f.unexpected other "text")

/-- A part that has to be a node. -/
def nodePart (f : Frame) : Fragment → Except BuildError Node
  | .node n => .ok n
  | other => .error (f.unexpected other "node")

/-- A part that has to be a name. -/
def referencePart (f : Frame) : Fragment → Except BuildError Ref
  | .node (.reference r) => .ok r
  | other => .error (f.unexpected other "reference")

/-- A part that has to be a block. -/
def blockPart (f : Frame) : Fragment → Except BuildError (List Node)
  | .block lines => .ok lines
  | other => .error (f.unexpected other "block")

/-- A part that has to be an entry of a map. -/
def entryPart (f : Frame) : Fragment → Except BuildError (Node × Node)
  | .entry key value => .ok (key, value)
  | other => .error (f.unexpected other "map entry")

/-- A part that has to be a list of parameters. -/
def argumentsPart (f : Frame) : Fragment → Except BuildError (List Ref)
  | .arguments parameters => .ok parameters
  | other => .error (f.unexpected other "arguments")

/-- A part that has to be the arguments of a call. -/
def tuplePart (f : Frame) : Fragment → Except BuildError (List Node)
  | .node (.tuple items) => .ok items
  | other => .error (f.unexpected other "tuple")

/-- A part that has to be the body of a function. -/
def bodyPart (f : Frame) : Fragment → Except BuildError (Body Node)
  | .block lines => .ok (.block lines)
  | .node value => .ok (.expr value)
  | other => .error (f.unexpected other "block or expression")

/-- A part that has to be an operator. -/
def operatorPart (f : Frame) : Fragment → Except BuildError BinaryOperator
  | .operator op => .ok op
  | other => .error (f.unexpected other "operator")

/-- The only part of a frame that has to have one. -/
def onePart (f : Frame) : Except BuildError Fragment :=
  match f.parts.reverse with
  | [a] => .ok a
  | parts => .error (f.misshapen (.partCount 1 parts.length))

/-- The parts of a frame that has to have two. -/
def twoParts (f : Frame) : Except BuildError (Fragment × Fragment) :=
  match f.parts.reverse with
  | [a, b] => .ok (a, b)
  | parts => .error (f.misshapen (.partCount 2 parts.length))

/-- The parts of a frame that has to have three. -/
def threeParts (f : Frame) : Except BuildError (Fragment × Fragment × Fragment) :=
  match f.parts.reverse with
  | [a, b, c] => .ok (a, b, c)
  | parts => .error (f.misshapen (.partCount 3 parts.length))

/-- The text of a frame that consists of one. -/
def onlyText (f : Frame) : Except BuildError String := do
  f.textPart (← f.onePart)

/-- The value read from a text, or the error that the text has none. -/
def literal {α : Type} (f : Frame) (text : String) (value : Except LiteralFault α) :
    Except BuildError α :=
  value.mapError fun fault => .invalidLiteral f.kind text fault

/-- Operators and operands in turn. -/
def chainParts (f : Frame) : List Fragment → Except BuildError (List (BinaryOperator × Node))
  | [] => .ok []
  | op :: rest => do
    let op ← f.operatorPart op
    match rest with
    | [] => .error (f.misshapen .noRightOperand)
    | operand :: rest =>
      let operand ← f.nodePart operand
      return (op, operand) :: (← f.chainParts rest)

/-! ### Closing a node -/

/-- The name that a frame of text parts stands for. -/
def assembleReference (f : Frame) : Except BuildError Ref := do
  if f.has .qualified then
    let (unit, name) ← f.twoParts
    let unit ← f.textPart unit
    return .qualified unit (← f.textPart name)
  else
    return .ofName (← f.onlyText)

/-- The number that a frame of one text stands for. -/
def assembleNumeral (f : Frame) : Except BuildError Numeral := do
  let text ← f.onlyText
  if f.has .scientific then
    .scientific <$> f.literal text (readFloat text.toList)
  else if f.has .decimal then
    .decimal <$> f.literal text (readFloat text.toList)
  else
    .integer <$> f.literal text (readInteger text.toList)

/-- The conditional that a frame stands for. -/
def assembleConditional (f : Frame) : Except BuildError Node := do
  if f.has .otherwise then
    let (condition, lines, otherwise) ← f.threeParts
    let condition ← f.nodePart condition
    let lines ← f.blockPart lines
    return .conditional condition lines (some (← f.blockPart otherwise))
  else
    let (condition, lines) ← f.twoParts
    let condition ← f.nodePart condition
    return .conditional condition (← f.blockPart lines) none

/-- The operation that a frame stands for. -/
def assembleOperation (f : Frame) : Except BuildError Node := do
  match f.parts.reverse with
  | [] => .error (f.misshapen .noOperand)
  | first :: rest =>
    let first ← f.nodePart first
    let rest ← f.chainParts rest
    if rest.isEmpty then .error (f.misshapen .noOperator) else return .operation first rest

/-- Makes a fragment of a frame. The first part that does not fit decides the error. -/
def assemble (f : Frame) : Except BuildError Fragment := do
  match f.kind with
  | .rift =>
    let (name, lines) ← f.twoParts
    let name ← f.referencePart name
    return .rift ⟨name, ← f.blockPart lines⟩
  | .reference => return .node (.reference (← f.assembleReference))
  | .block => return .block (← f.parts.reverse.mapM f.nodePart)
  | .arguments => return .arguments (← f.parts.reverse.mapM f.referencePart)
  | .functionDefinition =>
    let (parameters, body) ← f.twoParts
    let parameters ← f.argumentsPart parameters
    return .node (.function parameters (← f.bodyPart body))
  | .functionApply =>
    let (callee, arguments) ← f.twoParts
    let callee ← f.referencePart callee
    return .node (.application callee (← f.tuplePart arguments))
  | .tuple => return .node (.tuple (← f.parts.reverse.mapM f.nodePart))
  | .list => return .node (.list (← f.parts.reverse.mapM f.nodePart))
  | .map => return .node (.map (← f.parts.reverse.mapM f.entryPart))
  | .mapEntry =>
    let (key, value) ← f.twoParts
    let key ← f.nodePart key
    return .entry key (← f.nodePart value)
  | .assignment =>
    let (target, value) ← f.twoParts
    let target ← f.referencePart target
    return .node (.assignment target (← f.nodePart value))
  | .conditional => return .node (← f.assembleConditional)
  | .string =>
    let raw ← f.onlyText
    let text ← f.literal raw ((unescape raw).elim (.error .undefinedEscape) .ok)
    return .node (.string text)
  | .numeric => return .node (.numeric (← f.assembleNumeral))
  | .boolean =>
    let text ← f.onlyText
    return .node (.boolean (← f.literal text (readBoolean text)))
  | .operation => return .node (← f.assembleOperation)
  | .binaryOperator =>
    let text ← f.onlyText
    let op ← f.literal text ((BinaryOperator.ofText? text).elim (.error .unknownVariant) .ok)
    return .operator op

end Frame

/-! ## The replay -/

/-- The state of a replay. -/
structure Replay where
  /-- The open nodes, innermost first. -/
  frames : List Frame
  /-- The span of the text captured last, if there was one. -/
  captured : Option (Nat × Nat)
  /-- The rifts built, the latest first. -/
  built : List Rift
  deriving Repr, Inhabited

namespace Replay

/-- Before the first token. -/
def start : Replay where
  frames := []
  captured := none
  built := []

/-- Changes the innermost open node. -/
def onTop (r : Replay) (offset : Nat) (change : Frame → Frame) : Except BuildError Replay :=
  match r.frames with
  | [] => .error (.detachedValue offset)
  | f :: outer => .ok { r with frames := change f :: outer }

/-- Closes the innermost open node. -/
def close (r : Replay) (offset : Nat) : Except BuildError Replay := do
  match r.frames with
  | [] => .error (.unbalancedEnd offset)
  | f :: outer =>
    let fragment ← f.assemble
    match outer, fragment with
    | parent :: outer, fragment => return { r with frames := parent.push fragment :: outer }
    | [], .rift rift => return { r with frames := [], built := rift :: r.built }
    | [], other => .error (.unexpectedShape .rift offset (.outsideRift other.sort))

/-- Replays one token. Rules say nothing that the actions do not. -/
def step (source : Array Char) (r : Replay) (t : Token) : Except BuildError Replay :=
  match t.symbol with
  | .rule _ => .ok r
  | .text => .ok { r with captured := some (t.start, t.stop) }
  | .action (.begin kind) => .ok { r with frames := .begin kind t.start :: r.frames }
  | .action .attach =>
    match r.captured with
    | none => .error (.missingText t.start)
    | some (start, stop) => r.onTop t.start (·.push (.text (slice source start stop)))
  | .action (.mark mark) => r.onTop t.start (·.flag mark)
  | .action .finish => r.close t.start

/-- The program built, provided that no node is left open. -/
def finish (r : Replay) : Except BuildError Source :=
  if r.frames.isEmpty then .ok ⟨r.built.reverse⟩ else .error (.unclosedNodes r.frames.length)

/-- Replays tokens until one fails. -/
def steps (source : Array Char) (r : Replay) (tokens : List Token) : Except BuildError Replay :=
  tokens.foldlM (step source) r

/-- The place of the first token that cannot be replayed. -/
def failedStep? (source : Array Char) : Replay → List Token → Option Nat
  | _, [] => none
  | r, t :: rest =>
    match r.step source t with
    | .error _ => some 0
    | .ok r => (failedStep? source r rest).map (· + 1)

end Replay

/-- The program that tokens build over a source. -/
def replay (source : Array Char) (tokens : List Token) : Except BuildError Source := do
  (← Replay.start.steps source tokens).finish

end RiftLang
