import Mathlib.Tactic.Linarith
import RiftLang.Ast

/-!
# The nodes inside a node

* `Node.inside` — a node and all nodes below it.
* `Node.children` — the nodes right below a node, and `Node.inside_eq`.
* `Node.induction` — what holds of a node once it holds of its children holds of all nodes.
* `Node.isIntegral`, `Source.isIntegral` — all numbers are integers.
-/

namespace RiftLang

namespace Node

mutual

/-- A node and all nodes below it. -/
def inside : Node → List Node
  | function parameters body => function parameters body :: insideBody body
  | application callee arguments => application callee arguments :: insideAll arguments
  | tuple items => tuple items :: insideAll items
  | list items => list items :: insideAll items
  | map entries => map entries :: insideEntries entries
  | assignment target value => assignment target value :: inside value
  | conditional condition lines otherwise =>
    conditional condition lines otherwise ::
      (inside condition ++ insideAll lines ++ insideOtherwise otherwise)
  | operation first rest => operation first rest :: (inside first ++ insideChain rest)
  | string text => [string text]
  | numeric value => [numeric value]
  | boolean value => [boolean value]
  | reference ref => [reference ref]

/-- Several nodes and all nodes below them. -/
def insideAll : List Node → List Node
  | [] => []
  | node :: rest => inside node ++ insideAll rest

/-- The nodes of the entries of a map. -/
def insideEntries : List (Node × Node) → List Node
  | [] => []
  | (key, value) :: rest => inside key ++ inside value ++ insideEntries rest

/-- The nodes of operators and operands in turn. -/
def insideChain : List (BinaryOperator × Node) → List Node
  | [] => []
  | (_, operand) :: rest => inside operand ++ insideChain rest

/-- The nodes of a function's body. -/
def insideBody : Body Node → List Node
  | .block lines => insideAll lines
  | .expr value => inside value

/-- The nodes of the second block of a conditional. -/
def insideOtherwise : Option (List Node) → List Node
  | none => []
  | some lines => insideAll lines

end

/-- The nodes right below a node. -/
def children : Node → List Node
  | function _ body => body.lines
  | application _ arguments => arguments
  | tuple items | list items => items
  | map entries => entries.flatMap fun entry => [entry.1, entry.2]
  | assignment _ value => [value]
  | conditional condition lines otherwise => condition :: (lines ++ otherwise.getD [])
  | operation first rest => first :: rest.map Prod.snd
  | string _ | numeric _ | boolean _ | reference _ => []

/-- The nodes inside several nodes are those inside each, in order. -/
theorem insideAll_eq (nodes : List Node) : insideAll nodes = nodes.flatMap inside := by
  induction nodes with
  | nil => rfl
  | cons node rest ih => rw [insideAll, ih, List.flatMap_cons]

/-- The nodes inside the entries of a map are those inside its keys and values in turn. -/
theorem insideEntries_eq (entries : List (Node × Node)) :
    insideEntries entries = (entries.flatMap fun entry => [entry.1, entry.2]).flatMap inside := by
  induction entries with
  | nil => rfl
  | cons entry rest ih => simp [insideEntries, ih]

/-- The nodes inside a chain are those inside its operands. -/
theorem insideChain_eq (rest : List (BinaryOperator × Node)) :
    insideChain rest = (rest.map Prod.snd).flatMap inside := by
  induction rest with
  | nil => rfl
  | cons entry rest ih => simp [insideChain, ih]

/-- Inside a node are the node and what is inside its children. -/
theorem inside_eq (n : Node) : n.inside = n :: n.children.flatMap inside := by
  cases n with
  | function parameters body =>
    cases body <;> simp [inside, insideBody, children, Body.lines, insideAll_eq]
  | conditional condition lines otherwise =>
      cases otherwise <;> simp [inside, insideOtherwise, children, insideAll_eq]
  | _ => simp [inside, children, insideAll_eq, insideEntries_eq, insideChain_eq]

/-- What holds inside a node holds of it and inside its children. -/
theorem forall_mem_inside {P : Node → Prop} {n : Node} (h : ∀ m ∈ n.inside, P m) :
    P n ∧ ∀ c ∈ n.children, ∀ m ∈ c.inside, P m := by
  rw [inside_eq] at h
  refine ⟨h n List.mem_cons_self, fun c hc m hm => ?_⟩
  exact h m (List.mem_cons_of_mem _ (List.mem_flatMap.2 ⟨c, hc, hm⟩))

/-- A test passes inside a node if it passes on the node and inside its children. -/
theorem all_inside_iff {test : Node → Bool} {n : Node} :
    n.inside.all test = true ↔ test n = true ∧ ∀ c ∈ n.children, c.inside.all test = true := by
  simp only [List.all_eq_true]
  constructor
  · exact forall_mem_inside
  · rintro ⟨hn, hchildren⟩ m hm
    rw [inside_eq] at hm
    rcases List.mem_cons.1 hm with rfl | hm
    · exact hn
    · obtain ⟨c, hc, hm⟩ := List.mem_flatMap.1 hm
      exact hchildren c hc m hm

/-! ## Induction -/

/-- Children are smaller. -/
theorem sizeOf_lt_of_mem_children {n c : Node} (h : c ∈ n.children) : sizeOf c < sizeOf n := by
  cases n with
  | function parameters body =>
      cases body with
      | block lines =>
          have hlt : sizeOf c < sizeOf lines := List.sizeOf_lt_of_mem h
          simp only [function.sizeOf_spec, Body.block.sizeOf_spec]
          omega
      | expr value =>
          obtain rfl := List.mem_singleton.1 h
          simp only [function.sizeOf_spec, Body.expr.sizeOf_spec]
          omega
  | application callee arguments =>
      have hlt : sizeOf c < sizeOf arguments := List.sizeOf_lt_of_mem h
      simp only [application.sizeOf_spec]
      omega
  | tuple items =>
      have hlt : sizeOf c < sizeOf items := List.sizeOf_lt_of_mem h
      simp only [tuple.sizeOf_spec]
      omega
  | list items =>
      have hlt : sizeOf c < sizeOf items := List.sizeOf_lt_of_mem h
      simp only [list.sizeOf_spec]
      omega
  | map entries =>
      obtain ⟨⟨key, value⟩, hentry, hc⟩ := List.mem_flatMap.1 h
      have hlt := List.sizeOf_lt_of_mem hentry
      simp only [Prod.mk.sizeOf_spec] at hlt
      have hc : c = key ∨ c = value := by simpa using hc
      simp only [map.sizeOf_spec]
      rcases hc with rfl | rfl <;> omega
  | assignment target value =>
      obtain rfl := List.mem_singleton.1 h
      simp only [assignment.sizeOf_spec]
      omega
  | conditional condition lines otherwise =>
      simp only [conditional.sizeOf_spec]
      rcases List.mem_cons.1 h with rfl | h
      · omega
      rcases List.mem_append.1 h with h | h
      · have hlt : sizeOf c < sizeOf lines := List.sizeOf_lt_of_mem h
        omega
      cases otherwise with
      | none => cases h
      | some others =>
          have hlt : sizeOf c < sizeOf others := List.sizeOf_lt_of_mem h
          simp only [Option.some.sizeOf_spec]
          omega
  | operation first rest =>
      simp only [operation.sizeOf_spec]
      rcases List.mem_cons.1 h with rfl | h
      · omega
      obtain ⟨⟨op, operand⟩, hmem, rfl⟩ := List.mem_map.1 h
      have hlt := List.sizeOf_lt_of_mem hmem
      simp only [Prod.mk.sizeOf_spec] at hlt
      show sizeOf operand < _
      omega
  | string _ | numeric _ | boolean _ | reference _ => cases h

/-- The induction over nodes by their children. -/
theorem induction {P : Node → Prop} (step : ∀ n : Node, (∀ c ∈ n.children, P c) → P n) (n : Node) :
    P n :=
  step n fun c _hc => induction step c
termination_by sizeOf n
decreasing_by exact sizeOf_lt_of_mem_children _hc

/-! ## Integers only -/

/-- Is the node no number with a point or an exponent? -/
def isWhole : Node → Bool
  | numeric (.decimal _) | numeric (.scientific _) => false
  | _ => true

/-- Are all numbers in the node integers? -/
def isIntegral (n : Node) : Bool :=
  n.inside.all isWhole

/-- All numbers in a node are integers if the node itself is no other number, and if the same holds
of its children. -/
theorem isIntegral_iff {n : Node} :
    n.isIntegral = true ↔ n.isWhole = true ∧ ∀ c ∈ n.children, c.isIntegral = true :=
  all_inside_iff

end Node

/-- Are all numbers in the program integers? -/
def Source.isIntegral (s : Source) : Bool :=
  s.rifts.all fun r => r.lines.all Node.isIntegral

/-! ## Reading back -/

/-- A kind of node is read back from its text. -/
@[simp] theorem NodeKind.ofText?_text (kind : NodeKind) :
    NodeKind.ofText? kind.text = some kind := by
  cases kind <;> rfl

/-- A partial function that gives every item back gives the list back. -/
theorem mapM_eq_some_of_forall {α : Type} {f : α → Option α} {items : List α}
    (h : ∀ item ∈ items, f item = some item) : items.mapM f = some items := by
  induction items with
  | nil => rfl
  | cons item rest ih =>
      obtain ⟨hitem, hrest⟩ := List.forall_mem_cons.1 h
      simp [hitem, ih hrest]

end RiftLang
