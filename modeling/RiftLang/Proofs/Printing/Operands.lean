import RiftLang.Proofs.Printing.Parameters

/-!
# Printed operands

Each operand is read back where its parts are.

* `takes_bracketed` — items in brackets are read back where each item is.
* `takes_operand_of_literal`, `takes_operand_of_reference` — literals and names as operands.
* `takes_function`, `takes_application`, `takes_tuple`, `takes_list`, `takes_map` — what has parts.
-/

namespace RiftLang

open Peg

variable {s rest : List Char}

/-! ## Items in brackets -/

/-- Items with a separator between them are the first item, and then each other with the separator
before it. -/
theorem separated_cons (separator cs : List Char) (items : List (List Char)) :
    separated separator (cs :: items) = cs ++ items.flatMap (separator ++ ·) := by
  induction items generalizing cs with
  | nil => exact (List.append_nil cs).symm
  | cons cs' items ih =>
      show cs ++ separator ++ separated separator (cs' :: items) = _
      rw [ih, List.flatMap_cons]
      simp

section bracketed

variable {α : Type} {item : Peg} {text : α → List Char} {part : α → Fragment} {closing : Char}

/-- Between brackets an item is read back whatever follows it there. -/
structure ReadsItems (item : Peg) (text : α → List Char) (part : α → Fragment) (items : List α) :
    Prop where
  /-- An item is taken from its text, whatever follows it between brackets. -/
  takes : ∀ x ∈ items, ∀ rest, Closed rest → Takes item (text x ++ rest) [part x] rest
  /-- Its text does not begin with layout. -/
  solid : ∀ x ∈ items, ∀ rest, Closed rest → Solid (text x ++ rest)

/-- If items are read back, then so are those after the first. -/
theorem ReadsItems.tail {x : α} {items : List α} (h : ReadsItems item text part (x :: items)) :
    ReadsItems item text part items where
  takes y hy := h.takes y (List.mem_cons_of_mem _ hy)
  solid y hy := h.solid y (List.mem_cons_of_mem _ hy)

/-- What follows an item in brackets may follow an expression: it begins with a comma or with the
closing bracket. -/
theorem closed_items (hclosing : closing ∈ [')', ']', '}']) (items : List α) :
    Closed (items.flatMap (fun x => [',', ' '] ++ text x) ++ closing :: rest) := by
  cases items with
  | nil => exact closed_cons (List.mem_cons_of_mem _ hclosing)
  | cons x items => exact closed_cons List.mem_cons_self

/-- A closing bracket is not layout. -/
theorem solid_closing (hclosing : closing ∈ [')', ']', '}']) : Solid (closing :: rest) := by
  have hall : ∀ c ∈ [')', ']', '}'], isBlank c = false ∧ c ≠ '#' := forall_mem_of_all rfl
  obtain ⟨hblank, hcomment⟩ := hall closing hclosing
  exact solid_cons hblank hcomment

/-- Items after commas are read back. -/
theorem takes_more (hclosing : closing ∈ [')', ']', '}']) {items : List α}
    (h : ReadsItems item text part items) :
    Takes (.star (seqs [sp, .char ',', sp, item]))
      (items.flatMap (fun x => [',', ' '] ++ text x) ++ closing :: rest) (items.map part)
      (closing :: rest) := by
  induction items with
  | nil =>
      refine takes_star_nil ((takes_sp (solid_closing hclosing)).seq_none (.seq_fail_left (.one_fail
        (forall_mem_head_cons (beq_false_of_ne ?_)))))
      rintro rfl
      exact absurd hclosing (by decide)
  | cons x items ih =>
      have hrest : Closed (items.flatMap (fun x => [',', ' '] ++ text x) ++ closing :: rest) :=
        closed_items hclosing items
      have hsolid := h.solid x List.mem_cons_self _ hrest
      have hitem := (h.takes x List.mem_cons_self _ hrest).last
      have hfirst : Takes (seqs [sp, .char ',', sp, item])
          (',' :: ' ' ::
            (text x ++ (items.flatMap (fun x => [',', ' '] ++ text x) ++ closing :: rest)))
          [part x] _ :=
        (takes_sp (solid_cons rfl (by decide))).after ((takes_char ',' _).after
          ((takes_sp_blank rfl hsolid).after hitem))
      have htake := hfirst.star_cons (ih h.tail)
      rw [List.flatMap_cons, List.append_assoc, List.append_assoc]
      exact htake

/-- Items in brackets are read back. -/
theorem takes_bracketed {opening : Char} (hclosing : closing ∈ [')', ']', '}'])
    (hend : ∀ s, Parses table item (closing :: s) none) {items : List α}
    (h : ReadsItems item text part items) :
    Takes (seqs (bracketed opening item closing))
      (bracketChars opening (items.map text) closing ++ rest)
      (items.map part) rest := by
  cases items with
  | nil =>
      have hnone : Parses table (seqs [item, .star (seqs [sp, .char ',', sp, item]), sp])
          (closing :: rest) none :=
        .seq_fail_left (hend rest)
      exact (takes_char opening _).after ((takes_sp (solid_closing hclosing)).after
        ((takes_opt_none hnone).after (takes_char closing rest).last))
  | cons x items =>
      have hrest : Closed (items.flatMap (fun x => [',', ' '] ++ text x) ++ closing :: rest) :=
        closed_items hclosing items
      have hsplit : bracketChars opening ((x :: items).map text) closing ++ rest =
          opening ::
            (text x ++ (items.flatMap (fun x => [',', ' '] ++ text x) ++ closing :: rest)) := by
        rw [bracketChars, List.map_cons, separated_cons, List.flatMap_map]
        simp
      have hitems : Takes (seqs [item, .star (seqs [sp, .char ',', sp, item]), sp])
          (text x ++ (items.flatMap (fun x => [',', ' '] ++ text x) ++ closing :: rest))
          ([part x] ++ (items.map part ++ [])) (closing :: rest) :=
        (h.takes x List.mem_cons_self _ hrest).seq
          ((takes_more hclosing h.tail).seq (takes_sp (solid_closing hclosing)).last)
      rw [List.append_nil] at hitems
      rw [hsplit]
      have htake :=
        (takes_char opening _).after ((takes_sp (h.solid x List.mem_cons_self _ hrest)).after
        (hitems.opt.seq (takes_char closing rest).last))
      rw [List.append_nil] at htake
      exact htake

end bracketed

/-! ## Literals and names as operands -/

section operand

variable {parts : List Fragment} {r : Rule}

/-- A choice takes what one of its alternatives takes, where those before it fail. -/
theorem takes_choices {before after : List Peg} {e : Peg}
    (hbefore : ∀ a ∈ before, Parses table a s none) (h : Takes e s parts rest) :
    Takes (choices (before ++ e :: after)) s parts rest := by
  induction before with
  | nil => exact h.choice_left
  | cons a before ih =>
      have htail := ih fun a ha => hbefore a (List.mem_cons_of_mem _ ha)
      exact htail.choice_right (hbefore a List.mem_cons_self)

/-- A choice fails where all alternatives fail. -/
theorem parses_choices_none {alternatives : List Peg}
    (h : ∀ a ∈ alternatives, Parses table a s none) :
    Parses table (choices alternatives) s none := by
  induction alternatives with
  | nil => exact .fail
  | cons a alternatives ih =>
      exact .choice_right (h a List.mem_cons_self) (ih fun a ha => h a (List.mem_cons_of_mem _ ha))

/-- A rule is taken where the next character tells that those tried before it fail. -/
theorem takes_alternative {nexts : List (Option Char)} (before after : List Rule)
    (hs : s.head? ∈ nexts) (hfails : before.all (fun r => nexts.all (Peg.call r).failsAt) = true)
    (h : Takes (.call r) s parts rest) :
    Takes (choices (before.map .call ++ .call r :: after.map .call)) s parts rest := by
  refine takes_choices ?_ h
  intro a ha
  obtain ⟨q, hq, rfl⟩ := List.mem_map.1 ha
  exact parses_none_of_all hs (List.all_eq_true.1 hfails q hq)

/-- A literal that no name begins is an operand. -/
theorem takes_operand_of_literal {nexts : List (Option Char)} (hs : s.head? ∈ nexts)
    (hfails : nexts.all (Peg.call .application).failsAt = true)
    (h : Takes (.call .literal) s parts rest) :
    Takes (.call .operand) s parts rest := by
  have hvalue : Takes (.call .value) s parts rest := Takes.call (r := .value) h.choice_left rfl
  exact Takes.call (r := .operand)
    (hvalue.choice_left.choice_right (parses_none_of_all hs hfails)) rfl

/-- A name is not applied where no bracket follows. -/
theorem parses_application_none (h : Takes (.call .reference) s parts rest)
    (hrest : Boundary rest) :
    Parses table (.call .application) s none := by
  refine .call_fail (takes_action.seq_none (h.seq_none (.seq_fail_left ?_)))
  exact parses_none_of_all hrest.head (by decide)

/-- A word that is not reserved is no literal, though the word of a truth value may begin it. -/
theorem parses_literal_none {cs : List Char} (h : IsWord cs) (hreserved : cs ∉ reservedWords)
    (hrest : EndsName rest) : Parses table (.call .literal) (cs ++ rest) none := by
  have hmem := mem_map_some (h.head_mem rest)
  refine .call_fail (parses_choices_none ?_)
  simp only [List.forall_mem_cons, List.not_mem_nil, false_imp_iff, implies_true, and_true]
  exact ⟨parses_none_of_all hmem (by decide), parses_none_of_all hmem (by decide),
    parses_none_of_all hmem (by decide), parses_none_of_all hmem (by decide),
    parses_none_of_all hmem (by decide), parses_none_of_all hmem (by decide),
    parses_boolean_none h hreserved hrest⟩

end operand

/-- A name is read back as an operand. -/
theorem takes_operand_reference {r : Ref} (h : r.isNamed = true) (hrest : Boundary rest) :
    Takes (.call .operand) (r.chars ++ rest) [.node (.reference r)] rest := by
  have hreference := takes_reference h hrest.endsName hrest.head_ne_colon
  have hliteral : Parses table (.call .literal) (r.chars ++ rest) none := by
    obtain ⟨unit, rawName⟩ := r
    obtain ⟨hunit, hname⟩ := Bool.and_eq_true_iff.1 h
    cases unit with
    | none =>
        exact parses_literal_none (isWord_of_isName hname) (not_mem_reservedWords hname)
          hrest.endsName
    | some unit =>
        rw [Ref.chars_qualified]
        exact parses_literal_none (isWord_of_isName hunit) (not_mem_reservedWords hunit)
          (endsName_cons rfl)
  have hvalue : Takes (.call .value) (r.chars ++ rest) [.node (.reference r)] rest :=
    Takes.call (r := .value) (hreference.choice_left.choice_right hliteral) rfl
  exact Takes.call (r := .operand)
    (hvalue.choice_left.choice_right (parses_application_none hreference hrest)) rfl

/-- A boolean is read back as an operand. -/
theorem takes_operand_boolean (b : Bool) (hrest : Boundary rest) :
    Takes (.call .operand) ((boolText b).toList ++ rest) [.node (.boolean b)] rest := by
  have hword := isWord_boolText b
  have happlication := parses_application_none
    (takes_wordReference hword hrest.endsName hrest.head_ne_colon) hrest
  have hmem := mem_map_some (hword.head_mem rest)
  have hliteral := Takes.call (r := .literal) (takes_alternative
    [.function, .tuple, .list, .map, .string, .numeric] [] hmem (by decide)
      (takes_boolean b hrest.endsName)) rfl
  have hvalue := Takes.call (r := .value) hliteral.choice_left rfl
  exact Takes.call (r := .operand) (hvalue.choice_left.choice_right happlication) rfl

/-- A string is read back as an operand. -/
theorem takes_operand_string (text : String) :
    Takes (.call .operand) ((Node.string text).chars ++ rest) [.node (.string text)] rest := by
  have hmem : ((Node.string text).chars ++ rest).head? ∈ [some '"'] := List.mem_cons_self
  have hliteral := Takes.call (r := .literal) (takes_alternative
    [.function, .tuple, .list, .map] [.numeric, .boolean] hmem (by decide) (takes_string text)) rfl
  exact takes_operand_of_literal hmem (by decide) hliteral

/-- An integer is read back as an operand. -/
theorem takes_operand_integer (n : Int64) (hrest : Boundary rest) :
    Takes (.call .operand) ((Node.numeric (.integer n)).chars ++ rest)
      [.node (.numeric (.integer n))] rest := by
  have hmem := mem_map_some ((isInteger_text n).1.head_mem rest)
  have hliteral := Takes.call (r := .literal) (takes_alternative
    [.function, .tuple, .list, .map, .string] [.boolean] hmem (by decide)
      (takes_integer n hrest.endsNumber)) rfl
  exact takes_operand_of_literal hmem (by decide) hliteral

end RiftLang
