import RiftLang.Config
import RiftLang.Cursor
import RiftLang.Position
import RiftLang.Token.Layers

/-!
# Reports on rejected sources

A source that does not match is reported from the frontier of the attempt: the rules that were open
when the farthest offset was first looked at, and the tokens that were live by then.

* `Frontier.anchors` — one span for each depth, deepest first. The deepest open rule that is not
  trivia comes first, from where it began up to the farthest offset. Each depth above contributes
  the last rule that it completed inside the open rule around it, or else the rule that is open at
  that depth.
* `Diagnostic` — an anchor with its positions and its text, and `Diagnostic.render`, its wording.
* `SyntaxError` — all reports on a source, made by `SyntaxError.ofFrontier`.
-/

namespace RiftLang

namespace Frontier

/-- The open rules that are not trivia, outermost first. -/
def openNonTrivia (f : Frontier) : List OpenRule :=
  f.openRules.filter (!·.rule.isTrivia)

/-- The depth of the first anchor: that of the innermost open rule, or of the deepest token if no
rule is open. -/
def deepest? (f : Frontier) (layers : Layers) : Option Nat :=
  match f.openNonTrivia.getLast? with
  | some r => some r.depth
  | none => if layers.count < 2 then none else some (layers.count - 2)

/-- The rule that is open at a depth, up to the farthest offset. -/
def unfinishedAt? (f : Frontier) (depth : Nat) : Option Token :=
  (f.openNonTrivia.find? (·.depth == depth)).map fun r =>
    ⟨.rule r.rule, r.start, max f.offset r.start, depth⟩

/-- Where the innermost rule that is open above a depth began. -/
def scopeOf (f : Frontier) (depth : Nat) : Nat :=
  match f.openRules.reverse.find? (·.depth < depth) with
  | some r => r.start
  | none => 0

/-- The last rule completed at a depth from the given offset on. -/
def completedAt? (layers : Layers) (depth scope : Nat) : Option Token :=
  (layers.layer depth).reverse.findSome? fun t =>
    if scope ≤ t.start && t.symbol.rule?.any (!·.isTrivia) then some t.toToken else none

/-- The anchor of one depth, if it has one. -/
def anchorAt? (f : Frontier) (layers : Layers) (deepest depth : Nat) : Option Token :=
  let unfinished := f.unfinishedAt? depth
  let completed := completedAt? layers depth (f.scopeOf depth)
  if depth = deepest then unfinished <|> completed else completed <|> unfinished

/-- One anchor for each depth that has one, deepest first. -/
def anchors (f : Frontier) : List Token :=
  let layers := Layers.ofTokens f.tokens
  match f.deepest? layers with
  | none => []
  | some deepest => (List.range (deepest + 1)).reverse.filterMap (f.anchorAt? layers deepest)

end Frontier

/-! ## Reports -/

/-- One report: a span with its symbol, its positions and its text. -/
structure Diagnostic where
  /-- The depth reported on. -/
  depth : Nat
  /-- What was being matched, or had been. -/
  symbol : Symbol
  /-- The position of the first character. -/
  start : Position
  /-- The position just past the last character. -/
  stop : Position
  /-- The text of the span. -/
  text : String
  deriving DecidableEq, Repr, Inhabited

namespace Diagnostic

/-- The terminal sequence that turns a name blue. -/
def colorOn : String := "\x1b[34m"

/-- The terminal sequence that ends a colour. -/
def colorOff : String := "\x1b[m"

/-- The wording of a report; the name of the symbol may be coloured. -/
def render (d : Diagnostic) (colorize : Bool) : String :=
  let symbol := if colorize then colorOn ++ d.symbol.render ++ colorOff else d.symbol.render
  s!"parse error near {symbol} ({d.start.text} - {d.stop.text}):\n{d.text}"

end Diagnostic

/-- The reports on a source that was rejected. -/
structure SyntaxError where
  /-- The wording of all reports. -/
  message : String
  /-- The reports, deepest first. -/
  diagnostics : List Diagnostic
  /-- The farthest position looked at. -/
  farthest : Position
  /-- The farthest offset looked at. -/
  farthestOffset : Nat
  deriving DecidableEq, Repr, Inhabited

namespace SyntaxError

/-- The first report, which is the most specific. -/
def anchor? (e : SyntaxError) : Option Diagnostic :=
  e.diagnostics.head?

/-- The wording of several reports, or of none. -/
def wording (diagnostics : List Diagnostic) (farthest : Position) (colorize : Bool) : String :=
  if diagnostics.isEmpty then
    s!"parse error: no location available (farthest reach {farthest.text})"
  else
    "\n".intercalate (diagnostics.map (·.render colorize))

/-- The error of an attempt with the given frontier. -/
def ofFrontier (source : Array Char) (f : Frontier) (config : Config) : SyntaxError :=
  let anchors := match config.maxDiagnostics with
    | some limit => f.anchors.take limit
    | none => f.anchors
  let positions := positionsOf source (f.offset :: anchors.flatMap fun t => [t.start, t.stop])
  let diagnostics := anchors.map fun t =>
    ⟨t.depth, t.symbol, positions.at t.start, positions.at t.stop, slice source t.start t.stop⟩
  let farthest := positions.at f.offset
  { message := wording diagnostics farthest config.colorizeDiagnostics
    diagnostics := diagnostics
    farthest := farthest
    farthestOffset := f.offset }

end SyntaxError

end RiftLang
