import RiftLang.Ast.Encoding
import RiftLang.Proofs.Json
import RiftLang.Proofs.Nodes

/-!
# Programs handed over as JSON

Nothing of a program is lost in its JSON text, as long as its numbers are integers: the program can
be read back.

* `Node.ofJson?`, `Rift.ofJson?`, `Source.ofJson?` — the tree of a JSON value, by the kind the value
  names.
* `Source.ofText?` — the program of a text.
* `json_loses_nothing` — a program is read back from its text, so programs of one text are equal.

The names and the strings may be any text; nothing is assumed of the program but the sort of its
numbers.
-/

namespace RiftLang

/-! ## Reading trees -/

/-- The name of a JSON value. -/
def Ref.ofJson? : Json → Option Ref
  | .obj [("unit", .null), ("local", .str rawName)] => some (.ofName rawName)
  | .obj [("unit", .str unit), ("local", .str rawName)] => some (.qualified unit rawName)
  | _ => none

/-- The integer of a JSON value. -/
def Numeral.ofJson? : Json → Option Numeral
  | .obj [("Integer", .int n)] => some (.integer (.ofInt n))
  | _ => none

/-- The operator of the given name. -/
def BinaryOperator.ofName? (s : String) : Option BinaryOperator :=
  all.find? (·.name == s)

namespace Node

mutual

/-- The node of a JSON value. -/
def ofJson? : Json → Option Node
  | .obj [("kind", .str kind), ("value", value)] =>
    match NodeKind.ofText? kind, value with
    | some .functionDefinition, .obj [("params", .arr parameters), ("body", body)] => do
      return .function (← parameters.mapM Ref.ofJson?) (← bodyOfJson? body)
    | some .functionApply, .obj [("callee", callee), ("args", .arr arguments)] => do
      return .application (← Ref.ofJson? callee) (← nodesOfJson? arguments)
    | some .tuple, .arr items => return .tuple (← nodesOfJson? items)
    | some .list, .arr items => return .list (← nodesOfJson? items)
    | some .map, .arr entries => return .map (← entriesOfJson? entries)
    | some .assignment, .obj [("target", target), ("value", value)] => do
      return .assignment (← Ref.ofJson? target) (← ofJson? value)
    | some .conditional,
      .obj [("condition", condition), ("lines", .arr lines), ("else_lines", otherwise)] => do
      return .conditional (← ofJson? condition) (← nodesOfJson? lines)
        (← otherwiseOfJson? otherwise)
    | some .string, .str text => return .string text
    | some .numeric, value => return .numeric (← Numeral.ofJson? value)
    | some .boolean, .bool b => return .boolean b
    | some .reference, ref => return .reference (← Ref.ofJson? ref)
    | some .operation, .obj [("first", first), ("rest", .arr rest)] => do
      return .operation (← ofJson? first) (← chainOfJson? rest)
    | _, _ => none
  | _ => none

/-- The nodes of several JSON values. -/
def nodesOfJson? : List Json → Option (List Node)
  | [] => some []
  | item :: rest => return (← ofJson? item) :: (← nodesOfJson? rest)

/-- The entries of a map. -/
def entriesOfJson? : List Json → Option (List (Node × Node))
  | [] => some []
  | .obj [("key", key), ("value", value)] :: rest =>
    return (← ofJson? key, ← ofJson? value) :: (← entriesOfJson? rest)
  | _ => none

/-- The pairs of an operator and an operand. -/
def chainOfJson? : List Json → Option (List (BinaryOperator × Node))
  | [] => some []
  | .arr [.str op, operand] :: rest =>
    return (← BinaryOperator.ofName? op, ← ofJson? operand) :: (← chainOfJson? rest)
  | _ => none

/-- The body of a function. -/
def bodyOfJson? : Json → Option (Body Node)
  | .obj [("block", .arr lines)] => return .block (← nodesOfJson? lines)
  | .obj [("expr", value)] => return .expr (← ofJson? value)
  | _ => none

/-- The second block of a conditional; null if it has none. -/
def otherwiseOfJson? : Json → Option (Option (List Node))
  | .null => some none
  | .arr lines => return some (← nodesOfJson? lines)
  | _ => none

end

end Node

/-- The rift of a JSON value. -/
def Rift.ofJson? : Json → Option Rift
  | .obj [("name", name), ("lines", .arr lines)] =>
    return { name := ← Ref.ofJson? name, lines := ← Node.nodesOfJson? lines }
  | _ => none

namespace Source

/-- The program of a JSON value. -/
def ofJson? : Json → Option Source
  | .obj [("rifts", .arr rifts)] => return { rifts := ← rifts.mapM Rift.ofJson? }
  | _ => none

/-- The program of a compact JSON text. -/
def ofText? (text : String) : Option Source := do
  ofJson? (← Json.ofText? text)

end Source

/-! ## Trees are read back -/

/-- A name is read back from its JSON value. -/
@[simp] theorem Ref.ofJson?_toJson (r : Ref) : Ref.ofJson? r.toJson = some r := by
  cases r with
  | mk unit rawName => cases unit <;> rfl

/-- An integer is read back from its JSON value. A number with a point is not, since its value need
not show in the digits written. -/
@[simp] theorem Numeral.ofJson?_toJson (n : Int64) :
    Numeral.ofJson? (Numeral.integer n).toJson = some (.integer n) := by
  simp [toJson, ofJson?, Int64.ofInt_toInt]

/-- An operator is read back from its name. -/
@[simp] theorem BinaryOperator.ofName?_name (op : BinaryOperator) :
    BinaryOperator.ofName? op.name = some op := by
  cases op <;> rfl

/-- Names in a row are read back from their JSON values. -/
@[simp] theorem Ref.mapM_ofJson?_toJson (refs : List Ref) :
    refs.mapM (Ref.ofJson? ∘ Ref.toJson) = some refs :=
  mapM_eq_some_of_forall fun r _ => r.ofJson?_toJson

/-! ## Names and numbers have no floating-point numbers -/

/-- The JSON value of a name has no floating-point number. -/
@[simp] theorem Ref.isExact_toJson (r : Ref) : r.toJson.isExact = true := by
  cases r with
  | mk unit rawName => cases unit <;> rfl

/-- The JSON values of names have no floating-point number. -/
@[simp] theorem Ref.areExact_map_toJson (refs : List Ref) :
    Json.areExact (refs.map Ref.toJson) = true := by
  simp [Json.areExact_iff]

/-- A tag with a value has as many floating-point numbers as the value. -/
@[simp] theorem NodeKind.isExact_tagged (kind : NodeKind) (value : Json) :
    (kind.tagged value).isExact = value.isExact := by
  simp [tagged]

/-! ## Nodes are read back -/

namespace Node

/-- The JSON value of the node has no floating-point number, and the node is read back from it. -/
structure IsReadBack (n : Node) : Prop where
  /-- No floating-point number is written. -/
  exact : n.toJson.isExact = true
  /-- The node is read back. -/
  read : ofJson? n.toJson = some n

/-- If every node of a row is read back, then so is the row. -/
theorem readBack_nodes (nodes : List Node) (h : ∀ n ∈ nodes, n.IsReadBack) :
    Json.areExact (nodeJsons nodes) = true ∧ nodesOfJson? (nodeJsons nodes) = some nodes := by
  induction nodes with
  | nil => exact ⟨rfl, rfl⟩
  | cons node rest ih =>
      obtain ⟨hnode, hrest⟩ := List.forall_mem_cons.1 h
      obtain ⟨hexact, hread⟩ := ih hrest
      exact ⟨by simp [nodeJsons, hnode.exact, hexact],
        by simp [nodeJsons, nodesOfJson?, hnode.read, hread]⟩

/-- If every key and every value of a map is read back, then so are its entries. -/
theorem readBack_entries {entries : List (Node × Node)}
    (h : ∀ n ∈ entries.flatMap fun entry => [entry.1, entry.2], n.IsReadBack) :
    Json.areExact (entryJsons entries) = true ∧
    entriesOfJson? (entryJsons entries) = some entries := by
  induction entries with
  | nil => exact ⟨rfl, rfl⟩
  | cons entry rest ih =>
      obtain ⟨key, value⟩ := entry
      rw [List.flatMap_cons, List.forall_mem_append] at h
      have hkey : key.IsReadBack := h.1 key (by simp)
      have hvalue : value.IsReadBack := h.1 value (by simp)
      obtain ⟨hexact, hread⟩ := ih h.2
      exact ⟨by simp [entryJsons, hkey.exact, hvalue.exact, hexact],
        by simp [entryJsons, entriesOfJson?, hkey.read, hvalue.read, hread]⟩

/-- If every operand is read back, then so is the chain with its operators. -/
theorem readBack_chain {rest : List (BinaryOperator × Node)}
    (h : ∀ n ∈ rest.map Prod.snd, n.IsReadBack) :
    Json.areExact (chainJsons rest) = true ∧ chainOfJson? (chainJsons rest) = some rest := by
  induction rest with
  | nil => exact ⟨rfl, rfl⟩
  | cons entry rest ih =>
      obtain ⟨op, operand⟩ := entry
      obtain ⟨hoperand, hrest⟩ := List.forall_mem_cons.1 h
      obtain ⟨hexact, hread⟩ := ih hrest
      exact ⟨by simp [chainJsons, hoperand.exact, hexact],
        by simp [chainJsons, chainOfJson?, hoperand.read, hread]⟩

/-- If every line is read back, then so is the body, and the form of the value tells a short body
from a block. -/
theorem readBack_body (body : Body Node) (h : ∀ n ∈ body.lines, n.IsReadBack) :
    (bodyJson body).isExact = true ∧ bodyOfJson? (bodyJson body) = some body := by
  cases body with
  | block lines =>
      obtain ⟨hexact, hread⟩ := readBack_nodes lines h
      exact ⟨by simp [bodyJson, hexact], by simp [bodyJson, bodyOfJson?, hread]⟩
  | expr value =>
      have hvalue : value.IsReadBack := h value List.mem_cons_self
      exact ⟨by simp [bodyJson, hvalue.exact], by simp [bodyJson, bodyOfJson?, hvalue.read]⟩

/-- If every line of a second block is read back, then so is the block; none at all is read back
from null. -/
theorem readBack_otherwise {otherwise : Option (List Node)}
    (h : ∀ n ∈ otherwise.getD [], n.IsReadBack) :
    (otherwiseJson otherwise).isExact = true ∧
    otherwiseOfJson? (otherwiseJson otherwise) = some otherwise := by
  cases otherwise with
  | none => exact ⟨rfl, rfl⟩
  | some lines =>
      obtain ⟨hexact, hread⟩ := readBack_nodes lines h
      exact ⟨by simp [otherwiseJson, hexact], by simp [otherwiseJson, otherwiseOfJson?, hread]⟩

/-- A node whose numbers are integers is read back from its JSON value, which has no floating-point
number. -/
theorem isReadBack {n : Node} (h : n.isIntegral = true) : n.IsReadBack := by
  induction n using Node.induction with
  | step n ih =>
      obtain ⟨hwhole, hchildren⟩ := isIntegral_iff.1 h
      replace ih : ∀ c ∈ n.children, c.IsReadBack := fun c hc => ih c hc (hchildren c hc)
      cases n with
      | function parameters body =>
          obtain ⟨hexact, hread⟩ := readBack_body body ih
          exact ⟨by simp [toJson, hexact], by simp [toJson, NodeKind.tagged, ofJson?, hread]⟩
      | application callee arguments =>
          obtain ⟨hexact, hread⟩ := readBack_nodes arguments ih
          exact ⟨by simp [toJson, hexact], by simp [toJson, NodeKind.tagged, ofJson?, hread]⟩
      | tuple items | list items =>
          obtain ⟨hexact, hread⟩ := readBack_nodes items ih
          exact ⟨by simp [toJson, hexact], by simp [toJson, NodeKind.tagged, ofJson?, hread]⟩
      | map entries =>
          obtain ⟨hexact, hread⟩ := readBack_entries ih
          exact ⟨by simp [toJson, hexact], by simp [toJson, NodeKind.tagged, ofJson?, hread]⟩
      | assignment target value =>
          have hvalue : value.IsReadBack := ih value List.mem_cons_self
          exact ⟨by simp [toJson, hvalue.exact],
            by simp [toJson, NodeKind.tagged, ofJson?, hvalue.read]⟩
      | conditional condition lines otherwise =>
          obtain ⟨hcondition, hblocks⟩ := List.forall_mem_cons.1 ih
          obtain ⟨hlines, hothers⟩ := List.forall_mem_append.1 hblocks
          obtain ⟨hexact, hread⟩ := readBack_nodes lines hlines
          obtain ⟨hexact', hread'⟩ := readBack_otherwise hothers
          exact ⟨by simp [toJson, hcondition.exact, hexact, hexact'],
            by simp [toJson, NodeKind.tagged, ofJson?, hcondition.read, hread, hread']⟩
      | operation first rest =>
          obtain ⟨hfirst, hrest⟩ := List.forall_mem_cons.1 ih
          obtain ⟨hexact, hread⟩ := readBack_chain hrest
          exact ⟨by simp [toJson, hfirst.exact, hexact],
            by simp [toJson, NodeKind.tagged, ofJson?, hfirst.read, hread]⟩
      | numeric value =>
          cases value with
          | integer k => exact ⟨rfl, by simp [toJson, NodeKind.tagged, ofJson?]⟩
          | decimal x | scientific x => cases hwhole
      | string text | boolean value => exact ⟨rfl, rfl⟩
      | reference ref => exact ⟨by simp [toJson], by simp [toJson, NodeKind.tagged, ofJson?]⟩

end Node

/-- A program whose numbers are integers is read back from its JSON value, which has no
floating-point number. -/
theorem Source.readBack {s : Source} (h : s.isIntegral = true) :
    s.toJson.isExact = true ∧ Source.ofJson? s.toJson = some s := by
  have hrift : ∀ r ∈ s.rifts, r.toJson.isExact = true ∧ Rift.ofJson? r.toJson = some r := by
    intro r hr
    obtain ⟨hexact, hread⟩ := Node.readBack_nodes r.lines fun line hline =>
      Node.isReadBack (List.all_eq_true.1 (List.all_eq_true.1 h r hr) line hline)
    exact ⟨by simp [Rift.toJson, hexact], by simp [Rift.toJson, Rift.ofJson?, hread]⟩
  have hexact : Json.areExact (s.rifts.map Rift.toJson) = true :=
    Json.areExact_iff.2 (List.forall_mem_map.2 fun r hr => (hrift r hr).1)
  have hread : s.rifts.mapM (Rift.ofJson? ∘ Rift.toJson) = some s.rifts :=
    mapM_eq_some_of_forall fun r hr => (hrift r hr).2
  exact ⟨by simp [toJson, hexact], by simp [toJson, ofJson?, hread]⟩

/-! ## Nothing is lost -/

/-- A program whose numbers are integers is read back from its JSON text, and no other such program
has the text. -/
theorem json_loses_nothing {a : Source} (ha : a.isIntegral = true) :
    Source.ofText? a.json = some a ∧ ∀ b : Source, b.isIntegral = true → b.json = a.json →
      b = a := by
  have hread {s : Source} (hs : s.isIntegral = true) : Source.ofText? s.json = some s := by
    obtain ⟨hexact, hvalue⟩ := Source.readBack hs
    simp [Source.ofText?, Source.json, Json.ofText?_render hexact, hvalue]
  refine ⟨hread ha, fun b hb hjson => ?_⟩
  exact Option.some.inj ((hread hb).symm.trans (hjson ▸ hread ha))

/-- A name and a string hold pieces of JSON text, and of two conditionals one has a second block
without lines. -/
theorem json_loses_nothing_pieces :
    let a : Source := ⟨[⟨.ofName "r\",\"unit\":null", [.string "\\\"\x7d,\x7b\"kind\":\"if\"\n\x01",
      .conditional (.boolean true) [] none, .conditional (.boolean true) [] (some []),
      .operation (.reference (.qualified "u" "null")) [(.subtract, .numeric (.integer (-1)))]]⟩]⟩
    a.isIntegral = true ∧ Source.ofText? a.json = some a ∧
      ∀ b : Source, b.isIntegral = true → b.json = a.json → b = a := by
  intro a
  have ha : a.isIntegral = true := rfl
  exact ⟨ha, json_loses_nothing ha⟩

end RiftLang
