import RiftLang.Proofs.Printing.Expressions

/-!
# Printed operations, functions and lines

* `takes_block` — lines in braces are read back.
* `readsBack_operation`, `readsBack_function`, `readsBack_assignment`, `readsBack_conditional` — the
  nodes that could run on into what follows them.
* `Node.readsBack` — every expressible and unambiguous node is read back, by induction over nodes.
-/

namespace RiftLang

open Peg

variable {s rest : List Char}

/-! ## Blocks -/

/-- A blank ends an operand, if what comes after it is neither layout nor an equals sign. -/
theorem endsOperand_blank {c : Char} (hc : isBlank c = true)
    (hs : ∀ c ∈ s.head?, isBlank c = false ∧ c ≠ '#' ∧ c ≠ '=') : EndsOperand (c :: s) := by
  constructor
  · refine endsName_cons (Bool.eq_false_iff.2 fun hname => ?_)
    exact absurd ((solid_of_isNameChar (s := []) hname) c rfl).1 (by simp [hc])
  · rw [afterBlanks_cons hc, afterBlanks_solid fun c hc => ⟨(hs c hc).1, (hs c hc).2.1⟩]
    exact fun c hc => (hs c hc).2

/-- A line begins neither with layout nor with an equals sign. -/
theorem OpensLine.head (h : OpensLine s) : ∀ c ∈ s.head?, isBlank c = false ∧ c ≠ '#' ∧ c ≠ '=' :=
  forall_mem_next h.head_mem rfl

/-- A line that does not begin with a minus may follow an expression. -/
theorem OpensLine.closed (h : OpensLine s) (hminus : s.head? ≠ some '-') : Closed ('\n' :: s) := by
  have hall : ∀ c ∈ s.head?, c = '-' ∨ isBlank c = false ∧ c ∉ '#' :: '=' :: operatorFirsts :=
    forall_mem_next h.head_mem rfl
  refine closed_blank (by decide) fun c hc => ?_
  rcases hall c hc with rfl | hother
  · exact absurd hc hminus
  · exact hother

/-- The end of a block. -/
theorem closed_brace : Closed (' ' :: '}' :: rest) :=
  closed_blank (by decide) (forall_mem_head_cons (by decide))

namespace Node

/-- The text of lines after the first, up to the end of their block. -/
def moreLines (lines : List Node) (rest : List Char) : List Char :=
  lines.flatMap (fun line => ['\n'] ++ line.chars) ++ ' ' :: '}' :: rest

/-- What follows a line in its block ends an operand: a line break and the next line, or the end of
the block. -/
theorem endsOperand_moreLines {lines : List Node} (h : ∀ line ∈ lines, line.ReadsBack) :
    EndsOperand (moreLines lines rest) := by
  induction lines with
  | nil => exact closed_brace.endsOperand
  | cons line lines ih =>
      have hrest := ih fun line hline => h line (List.mem_cons_of_mem _ hline)
      have hopens := opensLine_chars (h line List.mem_cons_self).expressible hrest
      have hsplit : moreLines (line :: lines) rest =
          '\n' :: (line.chars ++ moreLines lines rest) := by
        simp [moreLines]
      rw [hsplit]
      exact endsOperand_blank rfl hopens.head

/-- The item of a block: a line with the blanks after it. -/
def blockItem : Peg :=
  seqs [.call .line, .choice (.call .someSpace) (.ahead (.char '}'))]

/-- Lines that are apart are read back one after the other. -/
theorem takes_lines {line : Node} {lines : List Node} (h : ∀ l ∈ line :: lines, l.ReadsBack)
    (hapart : areApart (line :: lines) = true) :
    Takes (.star blockItem) (line.chars ++ moreLines lines rest) ((line :: lines).map .node)
      ('}' :: rest) := by
  have hend : Parses table blockItem ('}' :: rest) none :=
    parses_none_of_failsAt (s := '}' :: rest) (by rfl)
  induction lines generalizing line with
  | nil =>
      have hline := (h line List.mem_cons_self).line (' ' :: '}' :: rest) (fun _ => closed_brace)
        fun _ => parses_elseBranch_none_brace
      have hspace : Takes (.call .someSpace) (' ' :: '}' :: rest) [] ('}' :: rest) :=
        takes_someSpace rfl (solid_cons rfl (by decide))
      exact (hline.seq hspace.choice_left.last).star_cons (takes_star_nil hend)
  | cons next lines ih =>
      have hnext := h next (List.mem_cons_of_mem _ List.mem_cons_self)
      have hlines : ∀ l ∈ next :: lines, l.ReadsBack := fun l hl => h l (List.mem_cons_of_mem _ hl)
      obtain ⟨hhere, hlater⟩ := Bool.and_eq_true_iff.1 hapart
      have hrest : EndsOperand (moreLines lines rest) :=
        endsOperand_moreLines fun l hl => hlines l (List.mem_cons_of_mem _ hl)
      have hopens := opensLine_chars hnext.expressible hrest
      have hclosed : line.isConditional = false →
          Closed ('\n' :: (next.chars ++ moreLines lines rest)) := by
        intro hline
        rw [hline, Bool.false_or, Bool.not_eq_true'] at hhere
        exact hopens.closed (head_ne_minus hnext.expressible hhere)
      have hline := (h line List.mem_cons_self).line _ hclosed fun _ =>
        parses_elseBranch_none rfl hopens
      have hspace : Takes (.call .someSpace) ('\n' :: (next.chars ++ moreLines lines rest)) [] _ :=
        takes_someSpace rfl hopens.solid
      have hsplit : moreLines (next :: lines) rest =
          '\n' :: (next.chars ++ moreLines lines rest) := by
        simp [moreLines]
      rw [hsplit]
      exact (hline.seq hspace.choice_left.last).star_cons (ih hlines hlater)

/-- A block of lines that are apart is read back. -/
theorem takes_block {lines : List Node} (h : ∀ line ∈ lines, line.ReadsBack)
    (hapart : areApart lines = true) :
    Takes (.call .block) (blockChars (lines.map chars) ++ rest) [.block lines] rest := by
  cases lines with
  | nil =>
      have hsp : Takes sp ([' ', ' '] ++ '}' :: rest) [] ('}' :: rest) :=
        takes_sp_append (forall_mem_of_all rfl) (solid_cons rfl (by decide))
      have hnone : Parses table blockItem ('}' :: rest) none :=
        parses_none_of_failsAt (s := '}' :: rest) (by rfl)
      exact Takes.callNode rfl ((takes_char '{' _).after (hsp.after
        ((takes_star_nil hnone).after (takes_char '}' rest).last))) rfl
  | cons line lines =>
      have hrest : EndsOperand (moreLines lines rest) :=
        endsOperand_moreLines fun l hl => h l (List.mem_cons_of_mem _ hl)
      have hopens := opensLine_chars (h line List.mem_cons_self).expressible hrest
      have hsplit : blockChars ((line :: lines).map chars) ++ rest =
          '{' :: ' ' :: (line.chars ++ moreLines lines rest) := by
        rw [blockChars, List.map_cons, separated_cons, List.flatMap_map]
        simp [moreLines]
      rw [hsplit]
      refine Takes.callNode rfl ((takes_char '{' _).after ((takes_sp_blank rfl hopens.solid).after
        ((takes_lines h hapart).seq (takes_char '}' rest).last))) ?_
      rw [List.append_nil, construct, filterMap_node?_map]

/-! ## Operations -/

/-- An operator is taken up to the blank after it, though the text of another may begin with its
text. -/
theorem takes_operator (op : BinaryOperator) (s : List Char) :
    Takes (.call .operator) (op.text.toList ++ ' ' :: s) [.operator op] (' ' :: s) := by
  have htext (before after : List Peg)
      (hbefore : ∀ a ∈ before, Parses table a (op.text.toList ++ ' ' :: s) none) :
      Takes (.text (choices (before ++ .word op.text :: after))) (op.text.toList ++ ' ' :: s)
        [.text op.text] (' ' :: s) := by
    have htake : Takes (choices (before ++ .word op.text :: after)) (op.text.toList ++ ' ' :: s) []
        (' ' :: s) :=
      takes_choices hbefore (takes_word op.text (' ' :: s))
    have htext := htake.text
    rwa [String.ofList_toList] at htext
  have hfails {before : List Peg}
      (h : before.all (·.failsAt (op.text.toList ++ ' ' :: s).head?) = true) :
      ∀ a ∈ before, Parses table a (op.text.toList ++ ' ' :: s) none :=
    fun a ha => parses_none_of_failsAt (List.all_eq_true.1 h a ha)
  cases op with
  | add =>
      exact Takes.callNode rfl ((htext [.word "**", .word "*", .word "/", .word "%"] [.word "-"]
        (hfails (by rfl))).seq takes_action.last) rfl
  | subtract =>
      exact Takes.callNode rfl ((htext [.word "**", .word "*", .word "/", .word "%", .word "+"] []
        (hfails (by rfl))).seq takes_action.last) rfl
  | multiply =>
      -- the longer operator begins with this one
      have hpower : Parses table (.word "**") ('*' :: ' ' :: s) none := by
        refine .word_fail ?_
        rintro ⟨u, hu⟩
        exact absurd (List.cons.inj (List.cons.inj hu).2).1 (by decide)
      exact Takes.callNode rfl ((htext [.word "**"] [.word "/", .word "%", .word "+", .word "-"]
        (List.forall_mem_singleton.2 hpower)).seq takes_action.last) rfl
  | divide =>
      exact Takes.callNode rfl ((htext [.word "**", .word "*"] [.word "%", .word "+", .word "-"]
        (hfails (by rfl))).seq takes_action.last) rfl
  | modulo =>
      exact Takes.callNode rfl ((htext [.word "**", .word "*", .word "/"] [.word "+", .word "-"]
        (hfails (by rfl))).seq takes_action.last) rfl
  | power =>
      exact Takes.callNode rfl ((htext [] [.word "*", .word "/", .word "%", .word "+", .word "-"]
        (List.forall_mem_nil _)).seq takes_action.last) rfl

/-- Operators and operands in turn are read back. -/
theorem takes_chain {chain : List (BinaryOperator × Node)} (h : ∀ entry ∈ chain, entry.2.ReadsBack)
    (hoperand : chain.all (fun entry => entry.2.isOperand) = true)
    (hshort : (chain.map Prod.snd).dropLast.all (fun operand => !operand.isShortFunction) = true)
    (hrest : Closed rest) :
    Takes (.star (seqs [sp, .call .operator, sp, .call .operand])) (chainChars chain ++ rest)
      (chain.flatMap fun entry => [.operator entry.1, .node entry.2]) rest := by
  induction chain with
  | nil => exact takes_star_nil (parses_chain_none hrest)
  | cons entry chain ih =>
      obtain ⟨op, x⟩ := entry
      have hx := h (op, x) List.mem_cons_self
      obtain ⟨hxoperand, hlater⟩ := Bool.and_eq_true_iff.1 hoperand
      have hchain := fun entry hentry => h entry (List.mem_cons_of_mem (op, x) hentry)
      have htake : Takes (.call .operand) (x.chars ++ (chainChars chain ++ rest)) [.node x]
          (chainChars chain ++ rest) ∧
          Takes (.star (seqs [sp, .call .operator, sp, .call .operand])) (chainChars chain ++ rest)
            (chain.flatMap fun entry => [.operator entry.1, .node entry.2]) rest := by
        cases chain with
        | nil =>
          exact ⟨hx.operand hxoperand _ hrest.toBoundary fun _ => hrest, ih hchain hlater rfl⟩
        | cons next chain =>
            obtain ⟨hxshort, hshort⟩ := Bool.and_eq_true_iff.1 hshort
            rw [Bool.not_eq_true'] at hxshort
            refine ⟨hx.operand hxoperand _ (boundary_chainChars (by simp)) fun hc => ?_,
              ih hchain hlater hshort⟩
            exact absurd (hc.symm.trans hxshort) (by simp)
      have hends : EndsOperand (chainChars chain ++ rest) := by
        cases chain with
        | nil => exact hrest.endsOperand
        | cons next chain => exact (boundary_chainChars (by simp)).endsOperand
      have hsolid := (hx.opensExpr (isExpression_of_isOperand hxoperand) hends).solid
      have hop : Solid (op.text.toList ++ ' ' :: (x.chars ++ (chainChars chain ++ rest))) := by
        cases op <;> exact solid_cons rfl (by decide)
      have hsplit : chainChars ((op, x) :: chain) ++ rest =
          ' ' :: (op.text.toList ++ ' ' :: (x.chars ++ (chainChars chain ++ rest))) := by
        simp [chainChars]
      rw [hsplit]
      have hitem : Takes (seqs [sp, .call .operator, sp, .call .operand])
          (' ' :: (op.text.toList ++ ' ' :: (x.chars ++ (chainChars chain ++ rest))))
            [.operator op, .node x] _ :=
        (takes_sp_blank rfl hop).after ((takes_operator op _).seq
          ((takes_sp_blank rfl hsolid).after htake.1.last))
      exact hitem.star_cons htake.2

/-- An operation is read back, if its operands are. None but the last of them is a function that
would take what follows it. -/
theorem readsBack_operation {first : Node} {chain : List (BinaryOperator × Node)}
    (hn : ∀ m ∈ (operation first chain).inside, m.isExpressible = true)
    (hunambiguous : (operation first chain).isUnambiguous = true) (hfirst : first.ReadsBack)
    (h : ∀ entry ∈ chain, entry.2.ReadsBack) : (operation first chain).ReadsBack := by
  obtain ⟨hleft, hoperands⟩ := Bool.and_eq_true_iff.1 (forall_mem_inside hn).1
  obtain ⟨hne, hoperand⟩ := Bool.and_eq_true_iff.1 hleft
  obtain ⟨entry, chain, rfl⟩ := List.exists_cons_of_ne_nil (by simpa using hne)
  obtain ⟨hfirstShort, hshort⟩ := Bool.and_eq_true_iff.1 hunambiguous
  rw [Bool.not_eq_true'] at hfirstShort
  have hexpr (rest : List Char) (hrest : Closed rest) :
      Takes (.call .expr) ((operation first (entry :: chain)).chars ++ rest)
        [.node (operation first (entry :: chain))] rest := by
    have htake := hfirst.operand hoperand (chainChars (entry :: chain) ++ rest)
      (boundary_chainChars (List.cons_ne_nil entry chain)) fun hc =>
        absurd (hc.symm.trans hfirstShort) (by simp)
    have hne : chainChars (entry :: chain) ++ rest ≠ rest := by
      intro he
      have hlength := congrArg List.length he
      simp only [chainChars, List.cons_append, List.append_assoc, List.length_cons,
        List.length_append] at hlength
      omega
    have hplus := (takes_chain h hoperands hshort hrest).plus_of_star hne
    have hoperation : Takes (.call .operation)
        (first.chars ++ (chainChars (entry :: chain) ++ rest))
        [.node (operation first (entry :: chain))] rest := by
      refine Takes.callNode rfl (htake.seq hplus.last) ?_
      rw [List.cons_append, List.nil_append, construct, operandChain_flatMap]
    rw [chars, List.append_assoc]
    exact Takes.call (r := .expr) hoperation.choice_left rfl
  refine ⟨hn, fun hc => absurd hc (by simp [isOperand]), fun _ => hexpr, fun rest hclosed _ => ?_⟩
  have hrest := hclosed rfl
  exact (hexpr rest hrest).line_of_expr (opensExpr_chars rfl hn hrest.endsOperand)

/-! ## Functions -/

/-- Parameters are taken from their brackets. -/
theorem takes_parameters {parameters : List Ref} (h : parameters.all Ref.isLocalName = true) :
    Takes (.call .parameters) (bracketChars '(' (parameters.map Ref.chars) ')' ++ rest)
      [.arguments parameters] rest := by
  have hend (s : List Char) : Parses table (.call .localReference) (')' :: s) none :=
    parses_none_of_failsAt (s := ')' :: s) (by rfl)
  have hitems : ReadsItems (.call .localReference) Ref.chars (fun r => .node (.reference r))
      parameters := by
    refine ⟨fun r hr rest hrest => ?_, fun r hr rest _ => ?_⟩
    · exact takes_localReference (List.all_eq_true.1 h r hr) hrest.endsName
    · have hnamed := (Bool.and_eq_true_iff.1 (List.all_eq_true.1 h r hr)).2
      exact forall_mem_next (Ref.head_mem hnamed rest) rfl
  refine Takes.callNode rfl (takes_bracketed (by decide) hend hitems) ?_
  have hreferences : (parameters.map fun r => Fragment.node (.reference r)).filterMap
      Fragment.reference? =
      parameters := by
    rw [List.filterMap_map]
    exact List.filterMap_some
  rw [construct, hreferences]

/-- A map with entries is no block: its first key would be a line, but a colon follows it. -/
theorem parses_block_none_map {entries : List (Node × Node)} (hne : entries ≠ [])
    (hn : ∀ m ∈ (map entries).inside, m.isExpressible = true) :
    Parses table (.call .block) ((map entries).chars ++ rest) none := by
  obtain ⟨entry, entries, rfl⟩ := List.exists_cons_of_ne_nil hne
  obtain ⟨hkey, -, hinside⟩ := entry_of_mem hn List.mem_cons_self
  obtain ⟨u, hu⟩ : ∃ u, (map (entry :: entries)).chars ++ rest =
      '{' :: (entry.1.chars ++ ' ' :: ':' :: u) := by
    rw [chars, entryChars_eq, bracketChars, List.map_cons, separated_cons, pairChars]
    simp
  rw [hu]
  have hclosed : Closed (' ' :: ':' :: u) :=
    closed_blank (by decide) (forall_mem_head_cons (by decide))
  have hexpr := isExpression_of_isOperand (isOperand_of_isKey hkey)
  have hline := (readsBack_key hkey hinside).line (' ' :: ':' :: u) (fun _ => hclosed)
    fun hc => absurd (hc.symm.trans (isConditional_of_isExpression hexpr)) (by simp)
  have hspace : Takes (.call .someSpace) (' ' :: ':' :: u) [] (':' :: u) :=
    takes_someSpace rfl (solid_cons rfl (by decide))
  have hstop : Parses table blockItem (':' :: u) none :=
    parses_none_of_failsAt (s := ':' :: u) (by rfl)
  have hlines : Takes (.star blockItem) (entry.1.chars ++ ' ' :: ':' :: u) ([.node entry.1] ++ [])
      (':' :: u) :=
    (hline.seq hspace.choice_left.last).star_cons (takes_star_nil hstop)
  have hsolid := (opensExpr_chars hexpr hinside hclosed.endsOperand).solid
  exact .call_fail (takes_action.seq_none ((takes_char '{' _).seq_none ((takes_sp hsolid).seq_none
    (hlines.seq_none (.seq_fail_left (.one_fail (forall_mem_head_cons rfl)))))))

/-- No block is read where an operand begins, unless that is an empty map. -/
theorem parses_block_none_operand {n : Node} (hoperand : n.isOperand = true)
    (hn : ∀ m ∈ n.inside, m.isExpressible = true) (hmap : n ≠ map []) :
    Parses table (.call .block) (n.chars ++ rest) none := by
  have hfirst (nexts : List Char) (h : ∃ c ∈ nexts, (n.chars ++ rest).head? = some c)
      (hne : '{' ∉ nexts) :
      Parses table (.call .block) (n.chars ++ rest) none := by
    obtain ⟨c, hc, hhead⟩ := h
    refine parses_block_none fun hbrace => hne ?_
    rwa [← Option.some.inj (hhead.symm.trans hbrace)]
  have hhere := (forall_mem_inside hn).1
  cases n with
  | function _ _ | tuple _ => exact hfirst ['('] ⟨'(', by decide, rfl⟩ (by decide)
  | list _ => exact hfirst ['['] ⟨'[', by decide, rfl⟩ (by decide)
  | string _ => exact hfirst ['"'] ⟨'"', by decide, rfl⟩ (by decide)
  | map entries => exact parses_block_none_map (fun he => hmap (by rw [he])) hn
  | application callee arguments =>
      rw [chars, List.append_assoc] at hfirst ⊢
      exact hfirst _ (Ref.head_mem (Bool.and_eq_true_iff.1 hhere).1 _) (by decide)
  | numeric value =>
      cases value with
      | integer n => exact hfirst _ ((isInteger_text n).1.head_mem rest) (by decide)
      | decimal _ | scientific _ => cases hhere
  | boolean b => exact hfirst _ ((isWord_boolText b).head_mem rest) (by decide)
  | reference r => exact hfirst _ (Ref.head_mem hhere rest) (by decide)
  | operation _ _ | assignment _ _ | conditional _ _ _ => cases hoperand

/-- An expression that does not begin with the empty map is no block. -/
theorem parses_block_none_expr {n : Node} (hexpr : n.isExpression = true)
    (hn : ∀ m ∈ n.inside, m.isExpressible = true) (hmap : n.opensWithEmptyMap = false) :
    Parses table (.call .block) (n.chars ++ rest) none := by
  obtain ⟨hhere, hbelow⟩ := forall_mem_inside hn
  cases n with
  | operation first chain =>
      have hfirst := (Bool.and_eq_true_iff.1 (Bool.and_eq_true_iff.1 hhere).1).2
      rw [chars, List.append_assoc]
      refine parses_block_none_operand hfirst (hbelow first List.mem_cons_self) ?_
      rintro rfl
      cases hmap
  | assignment _ _ | conditional _ _ _ => cases hexpr
  | map entries =>
      refine parses_block_none_operand rfl hn ?_
      rintro ⟨⟩
      cases hmap
  | _ => exact parses_block_none_operand rfl hn Node.noConfusion

/-- A body is read back. -/
theorem takes_body {parameters : List Ref} {body : Body Node}
    (hn : ∀ m ∈ (function parameters body).inside, m.isExpressible = true)
    (hunambiguous : (function parameters body).isUnambiguous = true)
    (h : ∀ x ∈ body.lines, x.ReadsBack)
    (hrest : (function parameters body).isShortFunction = true → Closed rest) :
    ∃ part, Takes (choices [.call .block, .call .expr]) (bodyChars body ++ rest) [part] rest ∧
      construct .function [.arguments parameters, part] = .ok [.node (function parameters body)] ∧
      Solid (bodyChars body ++ rest) := by
  cases body with
  | block lines =>
      rw [bodyChars, allChars_eq]
      exact ⟨.block lines, (takes_block h hunambiguous).choice_left, rfl,
        solid_cons rfl (by decide)⟩
  | expr value =>
      obtain ⟨hhere, -⟩ := forall_mem_inside hn
      have hexpr : value.isExpression = true := (Bool.and_eq_true_iff.1 hhere).2
      have hvalue := h value List.mem_cons_self
      have hmap : value.opensWithEmptyMap = false := by simpa [isUnambiguous] using hunambiguous
      have hclosed := hrest rfl
      exact ⟨.node value, (hvalue.expr hexpr rest hclosed).choice_left.choice_right
        (parses_block_none_expr hexpr hvalue.expressible hmap), rfl,
        (hvalue.opensExpr hexpr hclosed.endsOperand).solid⟩

/-- A function is read back, if its lines are. A body that is an expression does not begin with an
empty map, which would be read as a block. -/
theorem readsBack_function {parameters : List Ref} {body : Body Node}
    (hn : ∀ m ∈ (function parameters body).inside, m.isExpressible = true)
    (hunambiguous : (function parameters body).isUnambiguous = true)
    (h : ∀ x ∈ body.lines, x.ReadsBack) :
    (function parameters body).ReadsBack := by
  have hparameters := (Bool.and_eq_true_iff.1 (forall_mem_inside hn).1).1
  refine .of_operand rfl hn fun rest _ hshort => ?_
  obtain ⟨part, hbody, hmade, hsolid⟩ := takes_body hn hunambiguous h hshort
  have hfunction : Takes (.call .function)
      (bracketChars '(' (parameters.map Ref.chars) ')' ++ ' ' :: '-' :: '>' :: ' ' ::
        (bodyChars body ++ rest))
      [.node (function parameters body)] rest :=
    Takes.callNode rfl ((takes_parameters hparameters).seq
      ((takes_sp_blank rfl (solid_cons rfl (by decide))).after
      ((takes_word "->" _).after ((takes_sp_blank rfl hsolid).after hbody.last)))) hmade
  have hliteral := Takes.call (r := .literal) hfunction.choice_left rfl
  have hmem : (bracketChars '(' (parameters.map Ref.chars) ')' ++
      ' ' :: '-' :: '>' :: ' ' :: (bodyChars body ++ rest)).head? ∈ [some '('] := List.mem_cons_self
  have hsplit : (function parameters body).chars ++ rest =
      bracketChars '(' (parameters.map Ref.chars) ')' ++
      ' ' :: '-' :: '>' :: ' ' :: (bodyChars body ++ rest) := by
    simp [chars]
  rw [hsplit]
  exact takes_operand_of_literal hmem (by decide) hliteral

/-! ## Assignments and conditionals -/

/-- An assignment is read back, if its value is. -/
theorem readsBack_assignment {target : Ref} {value : Node}
    (hn : ∀ m ∈ (assignment target value).inside, m.isExpressible = true) (h : value.ReadsBack) :
    (assignment target value).ReadsBack := by
  obtain ⟨htarget, hexpr⟩ := Bool.and_eq_true_iff.1 (forall_mem_inside hn).1
  obtain ⟨hlocal, hnamed⟩ := Bool.and_eq_true_iff.1 htarget
  have hname := (Bool.and_eq_true_iff.1 hnamed).2
  refine ⟨hn, fun hc => absurd hc (by simp [isOperand, isExpression]),
    fun hc => absurd hc (by simp [isExpression]), fun rest hclosed _ => ?_⟩
  have hrest := hclosed rfl
  have hsplit : (assignment target value).chars ++ rest =
      target.chars ++ ' ' :: '=' :: ' ' :: (value.chars ++ rest) := by
    simp [chars]
  have hend : EndsName (' ' :: '=' :: ' ' :: (value.chars ++ rest)) := endsName_cons rfl
  have hconditional : Parses table (.call .conditional)
      (target.chars ++ ' ' :: '=' :: ' ' :: (value.chars ++ rest))
      none := by
    rw [Ref.chars_of_isLocal hlocal]
    refine parses_conditional_none (isWord_of_isName hname) (fun he => ?_) hend
    exact not_mem_reservedWords hname (by rw [he]; decide)
  have harrow : Parses table (.char '>') (' ' :: (value.chars ++ rest)) none :=
    parses_none_of_failsAt (s := ' ' :: (value.chars ++ rest)) (by rfl)
  have hsolid := (h.opensExpr hexpr hrest.endsOperand).solid
  have hassignment := Takes.callNode (r := .assignment) rfl ((takes_localReference htarget hend).seq
    ((takes_sp_blank rfl (solid_cons rfl (by decide))).after
      ((takes_char '=' _).after ((takes_absent harrow).after
      ((takes_sp_blank rfl hsolid).after (h.expr hexpr rest hrest).last))))) rfl
  rw [hsplit]
  exact Takes.call (r := .line) (hassignment.choice_left.choice_right hconditional) rfl

/-- A conditional is read back, if its condition and the lines of both blocks are. -/
theorem readsBack_conditional {condition : Node} {lines : List Node}
    {otherwise : Option (List Node)}
    (hn : ∀ m ∈ (conditional condition lines otherwise).inside, m.isExpressible = true)
    (hunambiguous : (conditional condition lines otherwise).isUnambiguous = true)
    (h : condition.ReadsBack) (hlines : ∀ x ∈ lines, x.ReadsBack)
    (hotherwise : ∀ x ∈ otherwise.getD [], x.ReadsBack) :
    (conditional condition lines otherwise).ReadsBack := by
  have hexpr : condition.isExpression = true := (forall_mem_inside hn).1
  obtain ⟨hapart, hapart'⟩ := Bool.and_eq_true_iff.1 hunambiguous
  refine ⟨hn, fun hc => absurd hc (by simp [isOperand, isExpression]),
    fun hc => absurd hc (by simp [isExpression]), fun rest _ helse => ?_⟩
  obtain ⟨parts, hbranch, hmade⟩ : ∃ parts, Takes (.opt elseBranch)
      (otherwiseChars otherwise ++ rest) parts rest ∧
      construct .conditional (.node condition :: .block lines :: parts) =
        .ok [.node (conditional condition lines otherwise)] := by
    cases otherwise with
    | none => exact ⟨[], takes_opt_none (helse rfl), rfl⟩
    | some others =>
        have hblock : Takes (.call .block) (blockChars (others.map chars) ++ rest)
            [.block others] rest :=
          takes_block hotherwise hapart'
        have hbranch : Takes elseBranch (' ' ::
            ("else".toList ++ ' ' :: (blockChars (others.map chars) ++ rest)))
            [.block others] rest :=
          (takes_sp_blank rfl (solid_cons rfl (by decide))).after ((takes_word "else" _).after
            ((takes_sp_blank rfl (solid_cons rfl (by decide))).after
              (hblock.seq takes_action.last)))
        refine ⟨[.block others], ?_, rfl⟩
        rw [otherwiseChars, allChars_eq]
        exact hbranch.opt
  have hblock : Takes (.call .block)
      (blockChars (lines.map chars) ++ (otherwiseChars otherwise ++ rest)) [.block lines]
      (otherwiseChars otherwise ++ rest) := takes_block hlines hapart
  have hclosed :
      Closed (' ' :: (blockChars (lines.map chars) ++ (otherwiseChars otherwise ++ rest))) :=
    closed_blank (by decide) (forall_mem_head_cons (by decide))
  have hsolid := (h.opensExpr hexpr hclosed.endsOperand).solid
  have hend : EndsName (' ' :: (condition.chars ++ ' ' :: (blockChars (lines.map chars) ++
      (otherwiseChars otherwise ++ rest)))) := endsName_cons rfl
  have hconditional := Takes.callNode (r := .conditional) rfl ((takes_word "if" _).after
    ((takes_absent_nameChar hend).after
      ((takes_sp_blank rfl hsolid).after ((h.expr hexpr _ hclosed).seq
      ((takes_sp_blank rfl (solid_cons rfl (by decide))).after (hblock.seq hbranch.last)))))) hmade
  have hsplit : (conditional condition lines otherwise).chars ++ rest =
      "if".toList ++ ' ' :: (condition.chars ++ ' ' :: (blockChars (lines.map chars) ++
        (otherwiseChars otherwise ++ rest))) := by
    simp [chars, allChars_eq]
  rw [hsplit]
  exact Takes.call (r := .line) hconditional.choice_left rfl

/-! ## All nodes -/

/-- Every expressible and unambiguous node is read back. -/
theorem readsBack (n : Node) (hn : ∀ m ∈ n.inside, m.isExpressible = true)
    (hunambiguous : ∀ m ∈ n.inside, m.isUnambiguous = true) : n.ReadsBack := by
  induction n using Node.induction with
  | step n ih =>
      obtain ⟨-, hnBelow⟩ := forall_mem_inside hn
      obtain ⟨hhere, hbelow⟩ := forall_mem_inside hunambiguous
      have hchild : ∀ c ∈ n.children, c.ReadsBack :=
        fun c hc => ih c hc (hnBelow c hc) (hbelow c hc)
      cases n with
      | function parameters body => exact readsBack_function hn hhere hchild
      | application callee arguments => exact readsBack_application hn hchild
      | tuple items => exact readsBack_tuple hn hchild
      | list items => exact readsBack_list hn hchild
      | map entries =>
          exact readsBack_map hn fun entry hentry => hchild entry.2
            (List.mem_flatMap.2 ⟨entry, hentry, List.mem_cons_of_mem _ List.mem_cons_self⟩)
      | assignment target value => exact readsBack_assignment hn (hchild value List.mem_cons_self)
      | conditional condition lines otherwise =>
          exact readsBack_conditional hn hhere (hchild condition List.mem_cons_self)
            (fun x hx => hchild x (List.mem_cons_of_mem _ (List.mem_append_left _ hx)))
            (fun x hx => hchild x (List.mem_cons_of_mem _ (List.mem_append_right _ hx)))
      | string text => exact readsBack_string hn
      | numeric value => exact readsBack_numeric hn
      | boolean value => exact readsBack_boolean hn
      | reference ref => exact readsBack_reference hn
      | operation first chain =>
          exact readsBack_operation hn hhere (hchild first List.mem_cons_self) fun entry hentry =>
            hchild entry.2 (List.mem_cons_of_mem _ (List.mem_map_of_mem hentry))

end Node

end RiftLang
