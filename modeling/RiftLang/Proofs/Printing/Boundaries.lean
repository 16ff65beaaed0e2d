import RiftLang.Proofs.Printing.Literals

/-!
# How printed texts begin and end

* `Boundary`, `Closed` — what may follow a printed operand, and what may follow a printed
  expression.
* `OpensLine`, `OpensExpr` — how a printed line and a printed expression begin.
* `opensExpr_chars`, `opensLine_chars` — printed nodes begin like that.
* `parses_assignment_none_of_opens`, `parses_conditional_none_of_opens` — an expression is taken for
  no other line.
-/

namespace RiftLang

open Peg

variable {s rest : List Char}

/-! ## What may follow -/

/-- The next characters that may follow a printed operand. -/
def boundaryHeads : List (Option Char) :=
  [none, some ' ', some '\n', some ',', some ')', some ']', some '}']

/-- The characters that operators begin with. -/
def operatorFirsts : List Char :=
  ['*', '/', '%', '+', '-']

/-- A text that may follow a printed operand. -/
structure Boundary (rest : List Char) : Prop where
  /-- It goes on with neither a name nor a number nor brackets of arguments. -/
  head : rest.head? ∈ boundaryHeads
  /-- After blanks there is neither a comment nor an equals sign. -/
  next : ∀ c ∈ (afterBlanks rest).head?, c ≠ '#' ∧ c ≠ '='
  /-- After blanks there is no arrow. -/
  arrow : ¬ ['-', '>'] <+: afterBlanks rest

/-- A text that may follow a printed expression: no operator continues the expression. -/
structure Closed (rest : List Char) : Prop extends Boundary rest where
  /-- After blanks there is no operator. -/
  operator : ∀ c ∈ (afterBlanks rest).head?, c ∉ operatorFirsts

namespace Boundary

/-- No name runs on into what may follow an operand. -/
theorem endsName (h : Boundary rest) : EndsName rest := by
  have hall : ∀ next ∈ boundaryHeads, ∀ c ∈ next, isNameChar c = false := by
    simp [boundaryHeads, isNameChar]
  exact hall _ h.head

/-- Neither does a number. -/
theorem endsNumber (h : Boundary rest) : EndsNumber rest := by
  have hall : ∀ next ∈ boundaryHeads, ∀ c ∈ next, c.isDigit = false ∧ c ≠ '.' ∧ c ≠ 'e' ∧
      c ≠ 'E' := by
    simp [boundaryHeads, Char.isDigit]
  exact hall _ h.head

/-- No colon follows an operand, so a name there has no unit but its own. -/
theorem head_ne_colon (h : Boundary rest) : rest.head? ≠ some ':' := by
  intro hcolon
  have hhead := h.head
  rw [hcolon] at hhead
  revert hhead
  decide

/-- No comment follows the blanks after an operand. -/
theorem next_ne_comment (h : Boundary rest) : (afterBlanks rest).head? ≠ some '#' :=
  fun hnext => (h.next _ hnext).1 rfl

end Boundary

/-- A text is one that may follow an expression if its first character is one that may follow an
operand, and if after its blanks there is neither a comment, nor an equals sign, nor an operator. -/
theorem closed_of_next (hhead : rest.head? ∈ boundaryHeads)
    (hnext : ∀ c ∈ (afterBlanks rest).head?, c ∉ '#' :: '=' :: operatorFirsts) : Closed rest where
  head := hhead
  next c hc := by
    have hne := hnext c hc
    simp only [List.mem_cons, not_or] at hne
    exact ⟨hne.1, hne.2.1⟩
  arrow := by
    rintro ⟨u, hu⟩
    exact hnext '-' (by rw [← hu]; rfl) (by decide)
  operator c hc hmem := hnext c hc (List.mem_cons_of_mem _ (List.mem_cons_of_mem _ hmem))

/-- Commas and closing brackets follow expressions. -/
theorem closed_cons {c : Char} (hc : c ∈ [',', ')', ']', '}']) : Closed (c :: s) := by
  have hall : ∀ c ∈ [',', ')', ']', '}'],
      some c ∈ boundaryHeads ∧ c ∉ '#' :: '=' :: operatorFirsts ∧ isBlank c = false ∧ c ≠ '#' :=
    forall_mem_of_all rfl
  obtain ⟨hhead, hnext, hblank, hcomment⟩ := hall c hc
  refine closed_of_next hhead ?_
  rw [afterBlanks_solid (solid_cons hblank hcomment)]
  exact forall_mem_head_cons hnext

/-- So does a blank with a text after it that an operator does not begin. -/
theorem closed_blank {c : Char} (hc : c ∈ [' ', '\n'])
    (hs : ∀ c ∈ s.head?, isBlank c = false ∧ c ∉ '#' :: '=' :: operatorFirsts) :
    Closed (c :: s) := by
  have hall : ∀ c ∈ [' ', '\n'], some c ∈ boundaryHeads ∧ isBlank c = true := forall_mem_of_all rfl
  obtain ⟨hhead, hblank⟩ := hall c hc
  refine closed_of_next hhead ?_
  rw [afterBlanks_cons hblank, afterBlanks_solid]
  · exact fun c hc => (hs c hc).2
  · exact fun c hc => ⟨(hs c hc).1, fun hne => (hs c hc).2 (hne ▸ List.mem_cons_self)⟩

/-- An operator may follow an operand. -/
theorem boundary_operator (op : BinaryOperator) : Boundary (' ' :: op.text.toList ++ ' ' :: s) where
  head := by
    cases op <;> exact List.mem_cons_of_mem _ List.mem_cons_self
  next := by
    cases op <;> exact forall_mem_head_cons (by decide)
  arrow := by
    cases op <;>
      · rintro ⟨u, hu⟩
        simp [afterBlanks, BinaryOperator.text, isBlank] at hu

/-! ## How texts begin -/

/-- The characters that literals other than booleans begin with. -/
def literalFirsts : List Char :=
  ['(', '[', '{', '"', '-', '0', '1', '2', '3', '4', '5', '6', '7', '8', '9']

/-- The text begins like a literal, or with a name that, together with the text after it, is as
described. -/
def Opens (named : List Char → List Char → Prop) (s : List Char) : Prop :=
  (∃ c u, s = c :: u ∧ c ∈ literalFirsts) ∨
    ∃ cs u, s = cs ++ u ∧ IsWord cs ∧ EndsName u ∧ named cs u

/-- The text begins like a printed line. -/
def OpensLine : List Char → Prop :=
  Opens fun cs _ => cs ≠ ['e', 'l', 's', 'e']

/-- The text begins like a printed expression. -/
def OpensExpr : List Char → Prop :=
  Opens fun cs u => cs ∉ [['i', 'f'], ['e', 'l', 's', 'e']] ∧
    ∀ c ∈ (afterBlanks u).head?, c ≠ '#' ∧ c ≠ '='

/-- A text that opens like a literal or a name begins with a character that one of these begins
with. -/
theorem Opens.head_mem {named : List Char → List Char → Prop} (h : Opens named s) :
    ∃ c ∈ literalFirsts ++ nameFirsts, s.head? = some c := by
  rcases h with ⟨c, u, rfl, hc⟩ | ⟨cs, u, rfl, hcs, -⟩
  · exact ⟨c, List.mem_append_left _ hc, rfl⟩
  · obtain ⟨c, hc, hhead⟩ := hcs.head_mem u
    exact ⟨c, List.mem_append_right _ hc, hhead⟩

/-- Such a text begins neither with a blank nor with a comment. -/
theorem Opens.solid {named : List Char → List Char → Prop} (h : Opens named s) : Solid s :=
  forall_mem_next h.head_mem rfl

/-- What opens like an expression opens like a line. -/
theorem OpensExpr.opensLine (h : OpensExpr s) : OpensLine s := by
  refine h.imp id ?_
  rintro ⟨cs, u, rfl, hcs, hend, hne, -⟩
  exact ⟨cs, u, rfl, hcs, hend, fun he => hne (by rw [he]; decide)⟩

/-! ## How nodes begin -/

/-- The text does not go on with a name, and after blanks there is neither a comment nor an equals
sign. -/
def EndsOperand (s : List Char) : Prop :=
  EndsName s ∧ ∀ c ∈ (afterBlanks s).head?, c ≠ '#' ∧ c ≠ '='

/-- What may follow an operand ends it. -/
theorem Boundary.endsOperand (h : Boundary rest) : EndsOperand rest :=
  ⟨h.endsName, h.next⟩

/-- An opening parenthesis or a colon ends an operand as well. -/
theorem endsOperand_cons {c : Char} (hc : c ∈ ['(', ':']) : EndsOperand (c :: s) := by
  have hall : ∀ c ∈ ['(', ':'], isNameChar c = false ∧ isBlank c = false ∧ c ≠ '#' ∧ c ≠ '=' :=
    forall_mem_of_all rfl
  obtain ⟨hname, hblank, hcomment, hequals⟩ := hall c hc
  refine ⟨endsName_cons hname, ?_⟩
  rw [afterBlanks_solid (solid_cons hblank hcomment)]
  exact forall_mem_head_cons ⟨hcomment, hequals⟩

/-- A text that begins like a literal opens like an expression. -/
theorem opensExpr_literal {c : Char} (hc : c ∈ literalFirsts) : OpensExpr (c :: s) :=
  .inl ⟨c, s, rfl, hc⟩

/-- A name opens like an expression, if what follows it ends an operand. -/
theorem opensExpr_name {name : String} (h : isName name = true) (hrest : EndsOperand rest) :
    OpensExpr (name.toList ++ rest) := by
  refine .inr ⟨name.toList, rest, rfl, isWord_of_isName h, hrest.1, fun hmem => ?_, hrest.2⟩
  have hsub : ∀ cs ∈ [['i', 'f'], ['e', 'l', 's', 'e']], cs ∈ reservedWords := by decide
  exact not_mem_reservedWords h (hsub _ hmem)

/-- So does a name with a unit. -/
theorem opensExpr_ref {r : Ref} (h : r.isNamed = true) (hrest : EndsOperand rest) :
    OpensExpr (r.chars ++ rest) := by
  obtain ⟨unit, rawName⟩ := r
  obtain ⟨hunit, hname⟩ := Bool.and_eq_true_iff.1 h
  cases unit with
  | none => exact opensExpr_name hname hrest
  | some unit =>
      rw [Ref.chars_qualified]
      exact opensExpr_name hunit (endsOperand_cons (by decide))

/-- The text of a name begins like a name. -/
theorem Ref.head_mem {r : Ref} (h : r.isNamed = true) (u : List Char) :
    ∃ c ∈ nameFirsts, (r.chars ++ u).head? = some c := by
  obtain ⟨unit, rawName⟩ := r
  obtain ⟨hunit, hname⟩ := Bool.and_eq_true_iff.1 h
  cases unit with
  | none => exact (isWord_of_isName hname).head_mem u
  | some unit =>
      rw [Ref.chars_qualified]
      exact (isWord_of_isName hunit).head_mem _

/-- The words for truth values are words. -/
theorem isWord_boolText (b : Bool) : IsWord (boolText b).toList := by
  cases b <;> exact .inl (by decide)

/-- The characters that integers begin with. -/
def numberFirsts : List Char :=
  "-0123456789".toList

/-- Integers may begin with any digit. -/
theorem mem_numberFirsts {c : Char} (h : c.isDigit = true) : c ∈ numberFirsts := by
  have hall : ∀ n < 128, (Char.ofNat n).isDigit = true → Char.ofNat n ∈ numberFirsts := by decide
  have hc : c.toNat < 128 := by
    simp only [Char.isDigit, Bool.and_eq_true, decide_eq_true_eq, UInt32.le_iff_toNat_le] at h
    exact lt_of_le_of_lt h.2 (by decide)
  rw [← Char.ofNat_toNat c] at h ⊢
  exact hall _ hc h

/-- What integers begin with, literals begin with. -/
theorem mem_literalFirsts_of_mem {c : Char} (h : c ∈ numberFirsts) : c ∈ literalFirsts :=
  forall_mem_of_all (p := (· ∈ literalFirsts)) rfl c h

/-- The text of an integer begins like one. -/
theorem IsInteger.head_mem {cs : List Char} (h : IsInteger cs) (u : List Char) :
    ∃ c ∈ numberFirsts, (cs ++ u).head? = some c := by
  rcases h with rfl | ⟨sign, c, digits, rfl, rfl | rfl, ⟨hc, -⟩, -⟩
  · exact ⟨'0', by decide, rfl⟩
  · exact ⟨c, mem_numberFirsts hc, rfl⟩
  · exact ⟨'-', by decide, rfl⟩

namespace Node

/-- The text of an operand opens like an expression. By cases on the node: an operand is a literal,
a name, a call, or something in brackets or braces. -/
theorem opensExpr_operand {n : Node} (hoperand : n.isOperand = true) (hn : n.isExpressible = true)
    (hrest : EndsOperand rest) : OpensExpr (n.chars ++ rest) := by
  cases n with
  | function _ _ | tuple _ | list _ | map _ | string _ => exact opensExpr_literal (by decide)
  | application callee arguments =>
      rw [chars, List.append_assoc]
      exact opensExpr_ref (Bool.and_eq_true_iff.1 hn).1 (endsOperand_cons (by decide))
  | numeric value =>
      cases value with
      | integer n =>
          obtain ⟨c, hc, hhead⟩ := (isInteger_text n).1.head_mem rest
          obtain ⟨u, hu⟩ := List.head?_eq_some_iff.1 hhead
          exact .inl ⟨c, u, hu, mem_literalFirsts_of_mem hc⟩
      | decimal _ | scientific _ => cases hn
  | boolean b =>
      refine .inr ⟨(boolText b).toList, rest, rfl, isWord_boolText b, hrest.1, ?_, hrest.2⟩
      cases b <;> decide
  | reference r => exact opensExpr_ref hn hrest
  | operation _ _ | assignment _ _ | conditional _ _ _ => cases hoperand

/-- Operands are expressions. -/
theorem isExpression_of_isOperand {n : Node} (h : n.isOperand = true) : n.isExpression = true := by
  cases n <;> first | rfl | cases h

/-- Operators with operands may follow an operand: a blank comes first, and then an operator. -/
theorem boundary_chainChars {chain : List (BinaryOperator × Node)} (hne : chain ≠ []) :
    Boundary (chainChars chain ++ rest) := by
  obtain ⟨⟨op, operand⟩, chain, rfl⟩ := List.exists_cons_of_ne_nil hne
  have hbegin := boundary_operator op (s := operand.chars ++ (chainChars chain ++ rest))
  rw [chainChars]
  simpa using hbegin

/-- A printed expression begins like one. -/
theorem opensExpr_chars {n : Node} (hexpr : n.isExpression = true)
    (hn : ∀ m ∈ n.inside, m.isExpressible = true) (hrest : EndsOperand rest) :
    OpensExpr (n.chars ++ rest) := by
  obtain ⟨hhere, hbelow⟩ := forall_mem_inside hn
  cases n with
  | operation first chain =>
      obtain ⟨hleft, -⟩ := Bool.and_eq_true_iff.1 hhere
      obtain ⟨hne, hfirst⟩ := Bool.and_eq_true_iff.1 hleft
      have hexpressible := (forall_mem_inside (hbelow first List.mem_cons_self)).1
      rw [chars, List.append_assoc]
      exact opensExpr_operand hfirst hexpressible
        (boundary_chainChars (by simpa using hne)).endsOperand
  | assignment _ _ | conditional _ _ _ => cases hexpr
  | _ => exact opensExpr_operand rfl hhere hrest

/-- A printed line begins like one. -/
theorem opensLine_chars {n : Node} (hn : ∀ m ∈ n.inside, m.isExpressible = true)
    (hrest : EndsOperand rest) :
    OpensLine (n.chars ++ rest) := by
  obtain ⟨hhere, -⟩ := forall_mem_inside hn
  cases n with
  | assignment target value =>
      obtain ⟨hlocal, hnamed⟩ := Bool.and_eq_true_iff.1 (Bool.and_eq_true_iff.1 hhere).1
      have hname := (Bool.and_eq_true_iff.1 hnamed).2
      rw [chars, Ref.chars_of_isLocal hlocal, List.append_assoc, List.append_assoc]
      refine .inr ⟨target.rawName.toList, _, rfl, isWord_of_isName hname, endsName_cons rfl,
        fun he => ?_⟩
      exact not_mem_reservedWords hname (by rw [he]; decide)
  | conditional condition lines otherwise =>
      refine .inr ⟨['i', 'f'], ' ' :: (condition.chars ++ ' ' :: blockChars (allChars lines) ++
        otherwiseChars otherwise ++ rest), by simp [chars], .inl rfl, endsName_cons rfl, ?_⟩
      show ['i', 'f'] ≠ ['e', 'l', 's', 'e']
      decide
  | _ => exact (opensExpr_chars rfl hn hrest).opensLine

/-- A text that begins like a name does not begin with a minus. -/
theorem head_ne_minus_of_mem {cs : List Char} (h : ∃ c ∈ nameFirsts, cs.head? = some c) :
    cs.head? ≠ some '-' :=
  fun he => forall_mem_next (p := (· ≠ '-')) h rfl '-' he rfl

/-- The text of an operand begins with a minus only if the operand is a negative number. -/
theorem head_ne_minus_operand {n : Node} (hoperand : n.isOperand = true)
    (hn : n.isExpressible = true) (hminus : n.opensWithMinus = false) :
    (n.chars ++ rest).head? ≠ some '-' := by
  cases n with
  | function _ _ | tuple _ | list _ | map _ | string _ =>
      exact fun he => absurd (Option.some.inj he) (by decide)
  | application callee arguments =>
      rw [chars, List.append_assoc]
      exact head_ne_minus_of_mem (Ref.head_mem (Bool.and_eq_true_iff.1 hn).1 _)
  | numeric value =>
      cases value with
      | integer n =>
          have hle : 0 ≤ n.toInt := by
            have hlt : ¬ n < 0 := of_decide_eq_false hminus
            exact not_lt.1 fun h => hlt (Int64.lt_iff_toInt_lt.2 h)
          obtain ⟨c, digits, hdigits⟩ :=
            List.exists_cons_of_ne_nil (Nat.toDigits_ne_nil (n := n.toInt.toNat) (b := 10))
          have hc : c.isDigit = true := isDigit_of_mem_toDigits (hdigits ▸ List.mem_cons_self)
          rw [chars, toList_text_integer, if_pos hle, hdigits]
          exact fun he => ne_of_isDigit hc rfl (Option.some.inj he)
      | decimal _ | scientific _ => cases hn
  | boolean b => exact head_ne_minus_of_mem ((isWord_boolText b).head_mem rest)
  | reference r => exact head_ne_minus_of_mem (Ref.head_mem hn rest)
  | operation _ _ | assignment _ _ | conditional _ _ _ => cases hoperand

/-- Only negative integers begin with a minus. -/
theorem head_ne_minus {n : Node} (hn : ∀ m ∈ n.inside, m.isExpressible = true)
    (hminus : n.opensWithMinus = false) : (n.chars ++ rest).head? ≠ some '-' := by
  obtain ⟨hhere, hbelow⟩ := forall_mem_inside hn
  cases n with
  | operation first chain =>
      have hfirst := (Bool.and_eq_true_iff.1 (Bool.and_eq_true_iff.1 hhere).1).2
      have hexpressible := (forall_mem_inside (hbelow first List.mem_cons_self)).1
      have hopening : first.opening = first := by
        cases first <;> first | rfl | cases hfirst
      have hminus : first.opensWithMinus = false := by
        rw [opensWithMinus, hopening]
        exact hminus
      rw [chars, List.append_assoc]
      exact head_ne_minus_operand hfirst hexpressible hminus
  | assignment target value =>
      rw [chars, List.append_assoc, List.append_assoc]
      have hlocal := (Bool.and_eq_true_iff.1 hhere).1
      exact head_ne_minus_of_mem (Ref.head_mem (Bool.and_eq_true_iff.1 hlocal).2 _)
  | conditional condition lines otherwise => exact fun he => absurd (Option.some.inj he) (by decide)
  | _ => exact head_ne_minus_operand rfl hhere hminus

end Node

/-! ## Lines that an expression is not -/

/-- An expression fails on a text that opens like a literal or a name, if it can be seen to fail on
what literals begin with, and if it fails on such names. -/
theorem parses_none_of_opens {named : List Char → List Char → Prop} {e : Peg} (h : Opens named s)
    (hfirst : (literalFirsts.map some).all e.failsAt = true)
    (hname : ∀ cs u, s = cs ++ u → IsWord cs → EndsName u → named cs u → Parses table e s none) :
    Parses table e s none := by
  rcases h with ⟨c, u, rfl, hc⟩ | ⟨cs, u, rfl, hcs, hend, hnamed⟩
  · have hmem : (c :: u).head? ∈ literalFirsts.map some := List.mem_map_of_mem hc
    exact parses_none_of_all hmem hfirst
  · exact hname cs u rfl hcs hend hnamed

/-- No conditional is read where an expression opens: the word of a conditional is reserved. -/
theorem parses_conditional_none_of_opens (h : OpensExpr s) :
    Parses table (.call .conditional) s none := by
  refine parses_none_of_opens h (by decide) ?_
  rintro cs u rfl hcs hend ⟨hne, -⟩
  exact parses_conditional_none hcs (fun he => hne (by rw [he]; decide)) hend

/-- No assignment is read where an expression opens: no equals sign comes after a name there. -/
theorem parses_assignment_none_of_opens (h : OpensExpr s) :
    Parses table (.call .assignment) s none := by
  refine parses_none_of_opens h (by decide) ?_
  rintro cs u rfl hcs hend ⟨-, hnext⟩
  refine .call_fail (takes_action.seq_none ?_)
  have hsp := takes_sp_afterBlanks (s := u) fun hcomment => (hnext _ hcomment).1 rfl
  refine (takes_localWord hcs hend).seq_none
    (hsp.seq_none (.seq_fail_left (.one_fail fun c hc => ?_)))
  exact beq_false_of_ne (hnext c hc).2

/-! ## No second block -/

/-- The second block of a conditional, with its word. -/
def elseBranch : Peg :=
  seqs [sp, .word "else", sp, .call .block, .action (.mark .otherwise)]

/-- No block is read where there is no opening brace. -/
theorem parses_block_none (h : s.head? ≠ some '{') : Parses table (.call .block) s none := by
  refine .call_fail (takes_action.seq_none
    (.seq_fail_left (.one_fail fun c hc => beq_false_of_ne ?_)))
  rintro rfl
  exact h hc

/-- A line is no second block. -/
theorem parses_elseBranch_none {c : Char} (hc : isBlank c = true) (h : OpensLine s) :
    Parses table elseBranch (c :: s) none := by
  refine (takes_sp_blank hc h.solid).seq_none ?_
  refine parses_none_of_opens h (by decide) ?_
  rintro cs u rfl hcs hend hne
  rcases hcs.not_keyword (w := "else") rfl (by decide) hne hend with hnone | ⟨c, v, hv, hc⟩
  · exact .seq_fail_left hnone
  · have hbrace : (c :: v).head? ≠ some '{' := by simpa using ne_of_isNameChar hc rfl
    rw [hv]
    exact (takes_word "else" _).seq_none
      ((takes_sp (solid_of_isNameChar hc)).seq_none (.seq_fail_left (parses_block_none hbrace)))

/-- Nor is the end of a block. -/
theorem parses_elseBranch_none_brace : Parses table elseBranch (' ' :: '}' :: s) none :=
  (takes_sp_blank rfl (solid_cons rfl (by decide))).seq_none
    (.seq_fail_left (parses_none_of_failsAt (s := '}' :: s) rfl))

end RiftLang
