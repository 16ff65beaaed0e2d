import RiftLang.Proofs.Printing.Operands

/-!
# Printed expressions and blocks

A printed node is read back as the node, given that the nodes right below it are.

* `Node.ReadsBack` — the node is read back from its text as an operand, as an expression and as a
  line, whatever may follow it there.
* `takes_block` — lines in braces are read back.
* `readsBack_tuple`, `readsBack_function`, … — one lemma for every kind of node.
-/

namespace RiftLang

open Peg

variable {s rest : List Char}

namespace Node

/-- The node is read back from its text wherever it may stand. -/
structure ReadsBack (n : Node) : Prop where
  /-- It is expressible, and so is what is inside. -/
  expressible : ∀ m ∈ n.inside, m.isExpressible = true
  /-- It is read back as an operand. -/
  operand : n.isOperand = true → ∀ rest, Boundary rest → (n.isShortFunction = true → Closed rest) →
    Takes (.call .operand) (n.chars ++ rest) [.node n] rest
  /-- It is read back as an expression. -/
  expr : n.isExpression = true → ∀ rest, Closed rest →
    Takes (.call .expr) (n.chars ++ rest) [.node n] rest
  /-- It is read back as a line. -/
  line : ∀ rest, (n.isConditional = false → Closed rest) →
    (n.isConditional = true → Parses table elseBranch rest none) →
    Takes (.call .line) (n.chars ++ rest) [.node n] rest

end Node

/-! ## From operands to expressions and lines -/

section promote

variable {parts : List Fragment}

/-- No operator is read where the next character is none that operators begin with. -/
theorem parses_operator_none (h : ∀ c ∈ s.head?, c ∉ operatorFirsts) :
    Parses table (.call .operator) s none := by
  have hword {w : String} {c : Char} {cs : List Char} (hw : w.toList = c :: cs)
      (hc : c ∈ operatorFirsts) :
      Parses table (.word w) s none := by
    refine .word_fail ?_
    rintro ⟨u, rfl⟩
    exact h c (by rw [hw]; rfl) hc
  refine .call_fail (takes_action.seq_none (.seq_fail_left (.text_fail (parses_choices_none ?_))))
  simp only [List.forall_mem_cons, List.not_mem_nil, false_imp_iff, implies_true, and_true]
  exact ⟨hword rfl (by decide), hword rfl (by decide), hword rfl (by decide), hword rfl (by decide),
    hword rfl (by decide), hword rfl (by decide)⟩

/-- No operator goes on with a closed expression. -/
theorem parses_chain_none (hrest : Closed rest) :
    Parses table (seqs [sp, .call .operator, sp, .call .operand]) rest none :=
  (takes_sp_afterBlanks hrest.next_ne_comment).seq_none
    (.seq_fail_left (parses_operator_none hrest.operator))

/-- An operand that no operator follows is an expression. -/
theorem Takes.expr_of_operand (h : Takes (.call .operand) s parts rest) (hrest : Closed rest) :
    Takes (.call .expr) s parts rest := by
  have hoperation : Parses table (.call .operation) s none :=
    .call_fail (takes_action.seq_none
      (h.seq_none (.seq_fail_left (.plus_fail (parses_chain_none hrest)))))
  obtain ⟨d, hd, hparts⟩ := h
  obtain ⟨d, hbody, rfl⟩ := parses_call_iff.1 hd
  have hparts : d.fragments = .ok parts := by
    rcases hd' : d.fragments with e | made
    · rw [Derivation.fragments, hd'] at hparts
      cases hparts
    · rw [Derivation.fragments, hd'] at hparts
      exact hparts
  rcases parses_choice_iff.1 hbody with happlication | ⟨hnone, hbody⟩
  · exact Takes.call (r := .expr)
      (Takes.choice_right hoperation (Takes.choice_left ⟨d, happlication, hparts⟩)) rfl
  · exact Takes.call (r := .expr)
      (Takes.choice_right hoperation (Takes.choice_right hnone ⟨d, hbody, hparts⟩)) rfl

/-- What begins like an expression and is one is a line. -/
theorem Takes.line_of_expr (h : Takes (.call .expr) s parts rest) (hopens : OpensExpr s) :
    Takes (.call .line) s parts rest :=
  Takes.call (r := .line)
    ((h.choice_left.choice_right (parses_assignment_none_of_opens hopens)).choice_right
    (parses_conditional_none_of_opens hopens)) rfl

end promote

namespace Node

/-- Expressions are no conditionals. -/
theorem isConditional_of_isExpression {n : Node} (h : n.isExpression = true) :
    n.isConditional = false := by
  cases n <;> first | rfl | cases h

/-- The text of an expression that is read back opens like an expression. -/
theorem ReadsBack.opensExpr {n : Node} (h : n.ReadsBack) (hexpr : n.isExpression = true)
    (hrest : EndsOperand rest) : OpensExpr (n.chars ++ rest) :=
  opensExpr_chars hexpr h.expressible hrest

/-- An operand that is read back is read back everywhere. -/
theorem ReadsBack.of_operand {n : Node} (hoperand : n.isOperand = true)
    (hn : ∀ m ∈ n.inside, m.isExpressible = true)
    (h : ∀ rest, Boundary rest → (n.isShortFunction = true → Closed rest) →
      Takes (.call .operand) (n.chars ++ rest) [.node n] rest) : n.ReadsBack where
  expressible := hn
  operand _ := h
  expr _ rest hrest := (h rest hrest.toBoundary fun _ => hrest).expr_of_operand hrest
  line rest hclosed _ := by
    have hexpr := isExpression_of_isOperand hoperand
    have hrest := hclosed (isConditional_of_isExpression hexpr)
    exact ((h rest hrest.toBoundary fun _ => hrest).expr_of_operand hrest).line_of_expr
      (opensExpr_chars hexpr hn hrest.endsOperand)

/-! ## Nodes without parts -/

/-- A string is read back. -/
theorem readsBack_string {text : String} (hn : ∀ m ∈ (string text).inside, m.isExpressible = true) :
    (string text).ReadsBack :=
  .of_operand rfl hn fun _ _ _ => takes_operand_string text

/-- A truth value is read back, and not as a name, since literals are tried first. -/
theorem readsBack_boolean {b : Bool} (hn : ∀ m ∈ (boolean b).inside, m.isExpressible = true) :
    (boolean b).ReadsBack :=
  .of_operand rfl hn fun _ hrest _ => takes_operand_boolean b hrest

/-- A name is read back: it is no reserved word and, with what may follow it, no call. -/
theorem readsBack_reference {r : Ref} (hn : ∀ m ∈ (reference r).inside, m.isExpressible = true) :
    (reference r).ReadsBack :=
  .of_operand rfl hn fun _ hrest _ => takes_operand_reference (forall_mem_inside hn).1 hrest

/-- An integer is read back. -/
theorem readsBack_numeric {value : Numeral}
    (hn : ∀ m ∈ (numeric value).inside, m.isExpressible = true) :
    (numeric value).ReadsBack := by
  cases value with
  | integer n => exact .of_operand rfl hn fun _ hrest _ => takes_operand_integer n hrest
  | decimal _ | scientific _ => cases (forall_mem_inside hn).1

/-! ## Items in brackets -/

/-- Expressions that are read back are read back as items of a tuple or a list. -/
theorem readsItems {items : List Node} (h : ∀ x ∈ items, x.ReadsBack)
    (hexpr : items.all isExpression = true) :
    ReadsItems (.call .expr) chars .node items where
  takes x hx rest hrest := (h x hx).expr (List.all_eq_true.1 hexpr x hx) rest hrest
  solid x hx _ hrest := ((h x hx).opensExpr (List.all_eq_true.1 hexpr x hx) hrest.endsOperand).solid

/-- Of fragments that are nodes, all are kept. -/
theorem filterMap_node?_map (items : List Node) :
    (items.map Fragment.node).filterMap Fragment.node? = items := by
  rw [List.filterMap_map]
  exact List.filterMap_some

/-- A tuple is taken from its brackets, if its items are read back. -/
theorem takes_tuple {items : List Node} (h : ∀ x ∈ items, x.ReadsBack)
    (hexpr : items.all isExpression = true) :
    Takes (.call .tuple) (bracketChars '(' (items.map chars) ')' ++ rest)
      [.node (.tuple items)] rest := by
  have hend (s : List Char) : Parses table (.call .expr) (')' :: s) none :=
    parses_none_of_failsAt (s := ')' :: s) (by rfl)
  refine Takes.callNode rfl (takes_bracketed (by decide) hend (readsItems h hexpr)) ?_
  rw [construct, filterMap_node?_map]

/-- A list is taken from its brackets, if its items are read back. -/
theorem takes_list {items : List Node} (h : ∀ x ∈ items, x.ReadsBack)
    (hexpr : items.all isExpression = true) :
    Takes (.call .list) (bracketChars '[' (items.map chars) ']' ++ rest)
      [.node (.list items)] rest := by
  have hend (s : List Char) : Parses table (.call .expr) (']' :: s) none :=
    parses_none_of_failsAt (s := ']' :: s) (by rfl)
  refine Takes.callNode rfl (takes_bracketed (by decide) hend (readsItems h hexpr)) ?_
  rw [construct, filterMap_node?_map]

/-- Items that are read back are items that parameters would not be taken for. -/
theorem isItem_of_readsBack {items : List Node} (h : ∀ x ∈ items, x.ReadsBack)
    (hexpr : items.all isExpression = true) : ∀ cs ∈ items.map chars, IsItem cs := by
  intro cs hcs
  obtain ⟨x, hx, rfl⟩ := List.mem_map.1 hcs
  exact isItem_chars (List.all_eq_true.1 hexpr x hx) (h x hx).expressible

/-- A tuple is read back, if its items are. No arrow follows, so it is not taken for parameters. -/
theorem readsBack_tuple {items : List Node}
    (hn : ∀ m ∈ (tuple items).inside, m.isExpressible = true) (h : ∀ x ∈ items, x.ReadsBack) :
    (tuple items).ReadsBack := by
  have hexpr : items.all isExpression = true := (forall_mem_inside hn).1
  refine .of_operand rfl hn fun rest hrest _ => ?_
  have hfunction := parses_function_none_tuple (isItem_of_readsBack h hexpr) hrest
  have hliteral : Takes (.call .literal) (bracketChars '(' (items.map chars) ')' ++ rest)
      [.node (tuple items)]
      rest :=
    Takes.call (r := .literal) ((takes_tuple h hexpr).choice_left.choice_right hfunction) rfl
  have hmem : (bracketChars '(' (items.map chars) ')' ++ rest).head? ∈ [some '('] :=
    List.mem_cons_self
  rw [chars, allChars_eq]
  exact takes_operand_of_literal hmem (by decide) hliteral

/-- A list is read back, if its items are. -/
theorem readsBack_list {items : List Node} (hn : ∀ m ∈ (list items).inside, m.isExpressible = true)
    (h : ∀ x ∈ items, x.ReadsBack) : (list items).ReadsBack := by
  have hexpr : items.all isExpression = true := (forall_mem_inside hn).1
  refine .of_operand rfl hn fun rest hrest _ => ?_
  have hmem : (bracketChars '[' (items.map chars) ']' ++ rest).head? ∈ [some '['] :=
    List.mem_cons_self
  have hliteral := Takes.call (r := .literal) (takes_alternative
    [.function, .tuple] [.map, .string, .numeric, .boolean] hmem (by decide)
      (takes_list h hexpr)) rfl
  rw [chars, allChars_eq]
  exact takes_operand_of_literal hmem (by decide) hliteral

/-- A call is read back, if its arguments are. -/
theorem readsBack_application {callee : Ref} {arguments : List Node}
    (hn : ∀ m ∈ (application callee arguments).inside, m.isExpressible = true)
    (h : ∀ x ∈ arguments, x.ReadsBack) : (application callee arguments).ReadsBack := by
  obtain ⟨hcallee, hexpr⟩ := Bool.and_eq_true_iff.1 (forall_mem_inside hn).1
  refine .of_operand rfl hn fun rest _ _ => ?_
  have hopen : EndsOperand (bracketChars '(' (arguments.map chars) ')' ++ rest) :=
    endsOperand_cons (by decide)
  have hreference : Takes (.call .reference)
      (callee.chars ++ (bracketChars '(' (arguments.map chars) ')' ++ rest))
      [.node (.reference callee)] _ :=
    takes_reference hcallee hopen.1 fun he => absurd (Option.some.inj he) (by decide)
  have happlication : Takes (.call .application)
      (callee.chars ++ (bracketChars '(' (arguments.map chars) ')' ++ rest))
      [.node (application callee arguments)] rest :=
    Takes.callNode rfl (hreference.seq (takes_tuple h hexpr).last) rfl
  rw [chars, allChars_eq, List.append_assoc]
  exact Takes.call (r := .operand) happlication.choice_left rfl

/-! ## Maps -/

/-- A key is read back as an expression, too. -/
theorem readsBack_key {key : Node} (hkey : key.isKey = true)
    (hn : ∀ m ∈ key.inside, m.isExpressible = true) :
    key.ReadsBack := by
  cases key with
  | string _ => exact readsBack_string hn
  | numeric _ => exact readsBack_numeric hn
  | boolean _ => exact readsBack_boolean hn
  | reference _ => exact readsBack_reference hn
  | _ => cases hkey

/-- Keys are operands. -/
theorem isOperand_of_isKey {key : Node} (h : key.isKey = true) : key.isOperand = true := by
  cases key <;> first | rfl | cases h

/-- A key is taken up to the blank after it. -/
theorem takes_mapKey {key : Node} (hkey : key.isKey = true) (hn : key.isExpressible = true)
    (s : List Char) :
    Takes (.call .mapKey) (key.chars ++ ' ' :: s) [.node key] (' ' :: s) := by
  have hend : EndsName (' ' :: s) := endsName_cons rfl
  cases key with
  | string text => exact Takes.call (r := .mapKey) (takes_string text).choice_left rfl
  | numeric value =>
      cases value with
      | integer n =>
          have hmem := mem_map_some ((isInteger_text n).1.head_mem (' ' :: s))
          have hnumber : EndsNumber (' ' :: s) := forall_mem_head_cons (by decide)
          exact Takes.call (r := .mapKey)
            (takes_alternative [.string] [.boolean, .localReference] hmem
            (by decide) (takes_integer n hnumber)) rfl
      | decimal _ | scientific _ => cases hn
  | boolean b =>
      have hmem := mem_map_some ((isWord_boolText b).head_mem (' ' :: s))
      exact Takes.call (r := .mapKey) (takes_alternative [.string, .numeric] [.localReference] hmem
        (by decide) (takes_boolean b hend)) rfl
  | reference r =>
      have hlocal : r.isLocalName = true := Bool.and_eq_true_iff.2 ⟨hkey, hn⟩
      have hname := (Bool.and_eq_true_iff.1 hn).2
      have hmem := mem_map_some (Ref.head_mem hn (' ' :: s))
      have hboolean : Parses table (.call .boolean) (r.chars ++ ' ' :: s) none := by
        rw [Ref.chars_of_isLocal hkey]
        exact parses_boolean_none (isWord_of_isName hname) (not_mem_reservedWords hname) hend
      exact Takes.call (r := .mapKey) ((((takes_localReference hlocal hend).choice_left.choice_right
        hboolean).choice_right (parses_none_of_all hmem (by decide))).choice_right
        (parses_none_of_all hmem (by decide))) rfl
  | _ => cases hkey

/-- What is asked of the entries of a map. -/
theorem entry_of_mem {entries : List (Node × Node)}
    (hn : ∀ m ∈ (map entries).inside, m.isExpressible = true) {entry : Node × Node}
    (hentry : entry ∈ entries) :
    entry.1.isKey = true ∧ entry.2.isExpression = true ∧
    ∀ m ∈ entry.1.inside, m.isExpressible = true := by
  obtain ⟨hhere, hbelow⟩ := forall_mem_inside hn
  obtain ⟨hkey, hvalue⟩ := Bool.and_eq_true_iff.1 (List.all_eq_true.1 hhere entry hentry)
  exact ⟨hkey, hvalue, hbelow entry.1 (List.mem_flatMap.2 ⟨entry, hentry, List.mem_cons_self⟩)⟩

/-- Entries are read back as items of a map, if their values are read back. -/
theorem readsEntries {entries : List (Node × Node)}
    (hn : ∀ m ∈ (map entries).inside, m.isExpressible = true)
    (h : ∀ entry ∈ entries, entry.2.ReadsBack) :
    ReadsItems (.call .mapEntry) pairChars (fun entry => .entry entry.1 entry.2) entries where
  takes entry hentry rest hrest := by
    obtain ⟨hkey, hvalue, hinside⟩ := entry_of_mem hn hentry
    have hexpr := (h entry hentry).expr hvalue rest hrest
    have hsolid := ((h entry hentry).opensExpr hvalue hrest.endsOperand).solid
    have hsplit : pairChars entry ++ rest = entry.1.chars ++ ' ' :: ':' :: ' ' ::
        (entry.2.chars ++ rest) := by
      simp [pairChars]
    rw [hsplit]
    exact Takes.callNode rfl ((takes_mapKey hkey (forall_mem_inside hinside).1 _).seq
      ((takes_sp_blank rfl (solid_cons rfl (by decide))).after ((takes_char ':' _).after
        ((takes_sp_blank rfl hsolid).after hexpr.last)))) rfl
  solid entry hentry rest _ := by
    obtain ⟨hkey, -, hinside⟩ := entry_of_mem hn hentry
    have hcolon : EndsOperand (' ' :: ':' :: ' ' :: (entry.2.chars ++ rest)) :=
      (closed_blank (by decide) (forall_mem_head_cons (by decide))).endsOperand
    have hsplit : pairChars entry ++ rest = entry.1.chars ++ ' ' :: ':' :: ' ' ::
        (entry.2.chars ++ rest) := by
      simp [pairChars]
    rw [hsplit]
    exact (opensExpr_chars (isExpression_of_isOperand (isOperand_of_isKey hkey))
      hinside hcolon).solid

/-- A map is read back, if its values are. Its keys are so by their sort. -/
theorem readsBack_map {entries : List (Node × Node)}
    (hn : ∀ m ∈ (map entries).inside, m.isExpressible = true)
    (h : ∀ entry ∈ entries, entry.2.ReadsBack) : (map entries).ReadsBack := by
  refine .of_operand rfl hn fun rest hrest _ => ?_
  have hend (s : List Char) : Parses table (.call .mapEntry) ('}' :: s) none :=
    parses_none_of_failsAt (s := '}' :: s) (by rfl)
  have hentries : (entries.map fun entry => Fragment.entry entry.1 entry.2).filterMap
      Fragment.entry? = entries := by
    rw [List.filterMap_map]
    exact List.filterMap_some
  have hmap : Takes (.call .map) (bracketChars '{' (entries.map pairChars) '}' ++ rest)
      [.node (map entries)] rest := by
    refine Takes.callNode rfl (takes_bracketed (by decide) hend (readsEntries hn h)) ?_
    rw [construct, hentries]
  have hmem : (bracketChars '{' (entries.map pairChars) '}' ++ rest).head? ∈ [some '{'] :=
    List.mem_cons_self
  rw [chars, entryChars_eq]
  exact takes_operand_of_literal hmem (by decide) (Takes.call (r := .literal) (takes_alternative
    [.function, .tuple, .list] [.string, .numeric, .boolean] hmem (by decide) hmap) rfl)

end Node

end RiftLang
