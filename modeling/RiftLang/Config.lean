import RiftLang.Json
import RiftLang.Json.Reader

/-!
# Settings

* `Config` — the settings of a parser, with their defaults.
* `Config.json` — their compact JSON text.
* `Config.ofJson?` — reads settings from JSON text. It takes an object, or an array of the settings
  in order; settings that are missing keep their defaults. Fields with other names are passed over,
  but they have to be well formed, and no setting may come twice.

Texts are read strictly: numbers are natural numbers below `2 ^ 64` without fraction or exponent,
only the limit of reports may be null, and nothing but blanks may surround the value.
-/

namespace RiftLang

/-- The settings of a parser. -/
structure Config where
  /-- How many token slots are reserved at first. -/
  initialTokenCapacity : Nat := 1024
  /-- Whether the names of rules are coloured in messages. -/
  colorizeDiagnostics : Bool := false
  /-- How many reports an error has at most; all of them without a limit. -/
  maxDiagnostics : Option Nat := none
  deriving DecidableEq, Repr, Inhabited

namespace Config

/-- The JSON value of settings. -/
def toJson (c : Config) : Json :=
  .obj
    [("initial_token_capacity", .int c.initialTokenCapacity),
     ("colorize_diagnostics", .bool c.colorizeDiagnostics),
     ("max_diagnostics", match c.maxDiagnostics with | some n => .int n | none => .null)]

/-- The compact JSON text of settings. -/
def json (c : Config) : String :=
  c.toJson.render

end Config

/-! ## Reading settings -/

open Json

/-- A natural number, or null. -/
def readLimit : Reader (Option Nat) := fun s =>
  match s with
  | 'n' :: rest => (expectChars ['u', 'l', 'l'] rest).map (none, ·)
  | _ => (readNatural s).map fun (n, rest) => (some n, rest)

/-- The settings read so far. -/
structure PartialConfig where
  /-- How many slots to reserve, if set. -/
  capacity : Option Nat := none
  /-- Whether to color messages, if set. -/
  colorize : Option Bool := none
  /-- How many reports to show at most, if set; null means all of them. -/
  limit : Option (Option Nat) := none
  deriving DecidableEq, Repr, Inhabited

namespace PartialConfig

/-- The settings, with defaults for those that were not read. -/
def complete (p : PartialConfig) : Config :=
  let standard : Config := {}
  { initialTokenCapacity := p.capacity.getD standard.initialTokenCapacity
    colorizeDiagnostics := p.colorize.getD standard.colorizeDiagnostics
    maxDiagnostics := p.limit.getD standard.maxDiagnostics }

/-- The value of a field. A setting that was read before is an error; a name that is no setting is
not. -/
def readField (p : PartialConfig) (name : String) : Reader PartialConfig := fun s =>
  let s := skipBlanks s
  if name = "initial_token_capacity" then
    if p.capacity.isSome then none
    else (readNatural s).map fun (n, rest) => ({ p with capacity := some n }, rest)
  else if name = "colorize_diagnostics" then
    if p.colorize.isSome then none
    else (readFlag s).map fun (b, rest) => ({ p with colorize := some b }, rest)
  else if name = "max_diagnostics" then
    if p.limit.isSome then none
    else (readLimit s).map fun (n, rest) => ({ p with limit := some n }, rest)
  else
    (skipValue (s.length + 1) s).map (p, ·)

/-- At most `n` fields, up to the end of the object. -/
def readMembers : (n : Nat) → PartialConfig → Reader PartialConfig
  | 0, _, _ => none
  | n + 1, p, s => do
    let s ← expectChars ['"'] (skipBlanks s)
    let (name, s) ← readString s
    let s ← expectChars [':'] (skipBlanks s)
    let (p, s) ← p.readField name s
    match skipBlanks s with
    | ',' :: rest => readMembers n p rest
    | '}' :: rest => some (p, rest)
    | _ => none

/-- The settings of the given names, in order, up to the end of the array. An array may end early,
but a comma has to be followed by a value. -/
def readElements : (names : List String) → (isFirst : Bool) → PartialConfig → Reader PartialConfig
  | names, isFirst, p, s =>
    match skipBlanks s with
    | ']' :: rest => some (p, rest)
    | s =>
      match names with
      | [] => none
      | name :: names => do
        let s ← if isFirst then some s else expectChars [','] s
        let (p, s) ← p.readField name s
        readElements names false p s

/-- Settings as an object or as an array. -/
def read : Reader PartialConfig := fun s =>
  match skipBlanks s with
  | '{' :: rest =>
    match skipBlanks rest with
    | '}' :: rest => some ({}, rest)
    | _ => readMembers (rest.length + 1) {} rest
  | '[' :: rest =>
    readElements ["initial_token_capacity", "colorize_diagnostics", "max_diagnostics"] true {} rest
  | _ => none

end PartialConfig

/-- Reads settings from JSON text. -/
def Config.ofJson? (text : String) : Option Config := do
  let (p, rest) ← PartialConfig.read text.toList
  if (skipBlanks rest).isEmpty then some p.complete else none

end RiftLang
