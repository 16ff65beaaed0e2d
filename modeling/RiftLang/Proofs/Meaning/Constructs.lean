import RiftLang.Proofs.Meaning.Yields

/-!
# What stands inside the rules

The parts that each rule of the table puts together, and that they fit.

* `Rule.Parts` — what stands inside a rule, in order, with the flags put on the way.
* `parts_of_yields` — what the expression of a rule yields are parts of the rule.
* `exists_construct` — a construct with these parts is what its rule stands for.
* `isOf_of_parses` — derivations of a rule stand for what the rule yields, unless a number in them
  is out of range.
-/

namespace RiftLang

open Peg

/-- What stands inside a rule, in order, with the flags put on the way. -/
def Rule.Parts (r : Rule) (parts : List Fragment) (ms : List Mark) : Prop :=
  match r with
  | .source => (∀ part ∈ parts, Rule.Fits .rift part) ∧ parts ≠ [] ∧ ms = []
  | .rift => ∃ name lines, parts = [.node (.reference name), .block lines]
  | .riftName | .localReference => (∃ name, parts = [.text name]) ∧ ms = []
  | .reference =>
    (∃ name, parts = [.text name]) ∧ ms = [] ∨
      (∃ unit name, parts = [.text unit, .text name]) ∧ ms = [.qualified]
  | .block | .tuple | .list => ∀ part ∈ parts, ∃ n, part = .node n
  | .parameters => ∀ part ∈ parts, ∃ ref, part = .node (.reference ref)
  | .map => ∀ part ∈ parts, ∃ key value, part = .entry key value
  | .mapEntry => ∃ key value, parts = [.node key, .node value]
  | .conditional =>
    (∃ condition lines, parts = [.node condition, .block lines]) ∧ ms = [] ∨
      (∃ condition lines otherwise, parts = [.node condition, .block lines, .block otherwise]) ∧
        ms = [.otherwise]
  | .assignment => ∃ target value, parts = [.node (.reference target), .node value]
  | .operation => ∃ (first : Node) (rest : List (BinaryOperator × Node)), rest ≠ [] ∧
    parts = .node first :: rest.flatMap fun link => [.operator link.1, .node link.2]
  | .application => ∃ callee arguments, parts =
    [.node (.reference callee), .node (.tuple arguments)]
  | .function =>
    ∃ parameters, (∃ lines, parts = [.arguments parameters, .block lines]) ∨
      ∃ value, parts = [.arguments parameters, .node value]
  | .operator => ∃ op : BinaryOperator, parts = [.text op.text]
  | .string => ∃ items : List (List Char),
    parts = [.text (String.ofList items.flatten)] ∧ ∀ item ∈ items, IsStringChar item
  | .numeric => ∃ cs, parts = [.text (String.ofList cs)] ∧
    (IsWhole cs ∧ ms = [] ∨ IsDecimal cs ∧ ms = [.decimal] ∨ IsScientific cs ∧ .scientific ∈ ms)
  | .boolean => parts = [.text "true"] ∨ parts = [.text "false"]
  | r => r.Yields parts ms

/-! ## Parts of repetitions -/

section rep

variable {α β : Type} {item : List α → List β → Prop} {as : List α} {bs : List β}

/-- Items may be described more widely. -/
theorem Rep.mono {item' : List α → List β → Prop} (h : Rep item as bs)
    (hitem : ∀ as bs, item as bs → item' as bs) : Rep item' as bs := by
  induction h with
  | nil => exact .nil
  | cons h _ ih => exact .cons (hitem _ _ h) ih

/-- If no item puts flags, then none are put in a row of items. -/
theorem Rep.right_eq_nil (h : Rep item as bs) (hitem : ∀ as bs, item as bs → bs = []) :
    bs = [] := by
  induction h with
  | nil => rfl
  | cons h _ ih => rw [hitem _ _ h, ih, List.append_nil]

/-- Operators with operands in a row are the links of a chain. -/
theorem exists_links_of_rep {parts : List Fragment} {ms : List Mark}
    (h : Rep (fun parts _ => ∃ op operand, parts = [.operator op, .node operand]) parts ms) :
    ∃ rest : List (BinaryOperator × Node),
      parts = rest.flatMap fun link => [.operator link.1, .node link.2] := by
  induction h with
  | nil => exact ⟨[], rfl⟩
  | cons h _ ih =>
      obtain ⟨op, operand, rfl⟩ := h
      obtain ⟨rest, rfl⟩ := ih
      exact ⟨(op, operand) :: rest, rfl⟩

/-- The text of a row of string characters falls into items, each of which is a plain character or
an escape. -/
theorem exists_items_of_rep {cs : List Char} {ms : List Mark}
    (h : Rep (Rule.Spells .stringChar) cs ms) :
    ∃ items : List (List Char), cs = items.flatten ∧ ∀ item ∈ items, IsStringChar item := by
  induction h with
  | nil => exact ⟨[], rfl, fun _ h => absurd h List.not_mem_nil⟩
  | cons h _ ih =>
      obtain ⟨items, rfl, hitems⟩ := ih
      exact ⟨_ :: items, rfl, List.forall_mem_cons.2 ⟨h.1, hitems⟩⟩

end rep

namespace Peg

/-- Every rule called yields such fragments only, and no text is captured. -/
def AllYield (P : Fragment → Prop) : Peg → Prop
  | empty | fail | one _ | word _ | action _ | absent _ => True
  | seq a b | choice a b => a.AllYield P ∧ b.AllYield P
  | star a | plus a => a.AllYield P
  | text _ => False
  | call r => ∀ parts ms, r.Yields parts ms → ∀ part ∈ parts, P part

/-- If an expression only calls rules that stand for fragments of a sort, then all that it stands
for is of that sort. -/
theorem AllYield.forall_mem {P : Fragment → Prop} {e : Peg} (he : e.AllYield P)
    {parts : List Fragment} {ms : List Mark} (h : e.Yields parts ms) : ∀ part ∈ parts, P part := by
  induction e generalizing parts ms with
  | empty | one _ | word _ | absent _ =>
      obtain ⟨rfl, -⟩ := h
      exact fun _ h => absurd h List.not_mem_nil
  | fail => exact h.elim
  | action x =>
      obtain rfl : parts = [] := by cases x <;> exact h.1
      exact fun _ h => absurd h List.not_mem_nil
  | seq a b iha ihb =>
      obtain ⟨_, _, _, _, ha, hb, rfl, -⟩ := h
      exact List.forall_mem_append.2 ⟨iha he.1 ha, ihb he.2 hb⟩
  | choice a b iha ihb => exact h.elim (iha he.1) (ihb he.2)
  | star a ih => exact Rep.forall_mem h fun _ _ => ih he
  | plus a ih =>
      obtain ⟨_, _, _, _, ha, hs, rfl, -⟩ := h
      exact List.forall_mem_append.2 ⟨ih he ha, hs.forall_mem fun _ _ => ih he⟩
  | text _ => exact he.elim
  | call r => exact he _ _ h

/-- What yields no fragment yields none. -/
theorem AllYield.eq_nil {e : Peg} (he : e.AllYield fun _ => False) {parts : List Fragment}
    {ms : List Mark} (h : e.Yields parts ms) : parts = [] :=
  List.eq_nil_iff_forall_not_mem.2 (he.forall_mem h)

/-- No flag is put and no text captured. -/
def isUnmarked : Peg → Bool
  | empty | fail | one _ | word _ | absent _ => true
  | action (.mark _) => false
  | action _ => true
  | seq a b | choice a b => a.isUnmarked && b.isUnmarked
  | star a | plus a => a.isUnmarked
  | text _ => false
  | call r => r ≠ .decimal && r ≠ .scientific

/-- An expression without flags of its own puts none. -/
theorem marks_eq_nil_of_yields {e : Peg} (he : e.isUnmarked = true) {parts : List Fragment}
    {ms : List Mark} (h : e.Yields parts ms) : ms = [] := by
  induction e generalizing parts ms with
  | empty | one _ | word _ | absent _ => exact h.2
  | fail => exact h.elim
  | action x =>
      cases x with
      | mark _ => cases he
      | _ => exact h.2
  | seq a b iha ihb =>
      obtain ⟨ha, hb⟩ := Bool.and_eq_true_iff.1 he
      obtain ⟨_, _, _, _, h₁, h₂, -, rfl⟩ := h
      rw [iha ha h₁, ihb hb h₂, List.append_nil]
  | choice a b iha ihb =>
      obtain ⟨ha, hb⟩ := Bool.and_eq_true_iff.1 he
      exact h.elim (iha ha) (ihb hb)
  | star a ih => exact Rep.right_eq_nil h fun _ _ => ih he
  | plus a ih =>
      obtain ⟨_, _, _, _, h₁, h₂, -, rfl⟩ := h
      rw [ih he h₁, h₂.right_eq_nil fun _ _ => ih he, List.append_nil]
  | text _ => cases he
  | call r =>
      cases r with
      | decimal | scientific => cases he
      | _ => exact h.2

end Peg

/-! ## Parts of the rules -/

/-- What the expression of a rule yields are parts of the rule. -/
theorem parts_of_yields {r : Rule} {parts : List Fragment} {ms : List Mark}
    (h : (table r).Yields parts ms) : r.Parts parts ms := by
  cases r with
  | source =>
      have hall : (table .source).AllYield (Rule.Fits .rift) := by
        simp [table, seqs, sp, AllYield, Rule.Yields]
        rintro _ _ part rfl hpart -
        simpa using hpart
      refine ⟨hall.forall_mem h, ?_, marks_eq_nil_of_yields rfl h⟩
      simp [table, seqs, sp, Peg.any, Yields, Rule.Yields] at h
      obtain ⟨rift, -, rest, -, rfl⟩ := h
      exact List.cons_ne_nil _ _
  | block | parameters | tuple | list | map =>
      refine AllYield.forall_mem ?_ h
      simp [table, node, bracketed, seqs, opt, ahead, sp, Peg.char, AllYield,
        Rule.Yields, Rule.Fits]
      intros
      simp_all
  | operation =>
      simp [table, node, seqs, sp, Yields, Rule.Yields, Rule.Fits] at h
      obtain ⟨first, op, operand, rest, hrest, rfl⟩ := h
      obtain ⟨links, rfl⟩ := exists_links_of_rep (hrest.mono fun _ _ h => h.2)
      exact ⟨first, (op, operand) :: links, List.cons_ne_nil _ _, rfl⟩
  | operator =>
      simp [table, node, seqs, choices, Yields, Spells] at h
      obtain ⟨cs, hcs, rfl⟩ := h
      rcases hcs with ⟨rfl, -⟩ | ⟨rfl, -⟩ | ⟨rfl, -⟩ | ⟨rfl, -⟩ | ⟨rfl, -⟩ | ⟨rfl, -⟩
      · exact ⟨.power, rfl⟩
      · exact ⟨.multiply, rfl⟩
      · exact ⟨.divide, rfl⟩
      · exact ⟨.modulo, rfl⟩
      · exact ⟨.add, rfl⟩
      · exact ⟨.subtract, rfl⟩
  | string =>
      simp [table, node, seqs, Peg.char, Yields] at h
      obtain ⟨cs, hcs, rfl⟩ := h
      obtain ⟨items, rfl, hitems⟩ := exists_items_of_rep hcs
      exact ⟨items, rfl, hitems⟩
  | numeric =>
      simp [table, node, seqs, choices, Yields, Spells, Rule.Spells] at h
      obtain ⟨cs, hcs, rfl⟩ := h
      refine ⟨cs, rfl, ?_⟩
      rcases hcs with hcs | hcs | hcs
      · exact .inr (.inr hcs)
      · exact .inr (.inl hcs)
      · exact .inl hcs
  | boolean =>
      simp [table, node, seqs, choices, Yields, Spells] at h
      obtain ⟨cs, ⟨rfl, -⟩ | ⟨rfl, -⟩, rfl⟩ := h
      · exact .inl rfl
      · exact .inr rfl
  | name =>
      simp [table, seqs, opt, Peg.char, Peg.nameStart, Peg.nameChar, within, Yields, Spells] at h
      obtain ⟨_, _, _, _, _, rfl, hgravity, ⟨-, hrest⟩, rfl⟩ := h
      have hms := hrest.right_eq_nil fun _ _ h => h.2
      refine ⟨⟨_, rfl⟩, ?_⟩
      rcases hgravity with ⟨-, rfl⟩ | ⟨-, rfl⟩ <;> exact hms
  | conditional =>
      simp [table, node, seqs, opt, sp, Yields, Rule.Yields, Rule.Fits] at h
      obtain ⟨condition, lines, rest, ⟨⟨otherwise, rfl⟩, rfl⟩ | ⟨rfl, rfl⟩, rfl⟩ := h
      · exact .inr ⟨⟨condition, lines, otherwise, rfl⟩, rfl⟩
      · exact .inl ⟨⟨condition, lines, rfl⟩, rfl⟩
  | reference =>
      simp [table, node, seqs, opt, Peg.char, Yields, Rule.Yields] at h
      obtain ⟨name, rest, ⟨rfl, ⟨other, rfl⟩⟩ | ⟨rfl, rfl⟩, rfl⟩ := h
      · exact .inr ⟨⟨name, other, rfl⟩, rfl⟩
      · exact .inl ⟨⟨name, rfl⟩, rfl⟩
  | function =>
      simp [table, node, seqs, choices, sp, Yields, Rule.Yields, Rule.Fits] at h
      obtain ⟨parameters, rest, ⟨⟨lines, rfl⟩, -⟩ | ⟨⟨value, rfl⟩, -⟩, rfl⟩ := h
      · exact ⟨parameters, .inl ⟨lines, rfl⟩⟩
      · exact ⟨parameters, .inr ⟨value, rfl⟩⟩
  | rift | riftName | localReference | assignment | application | mapEntry =>
      simp [table, node, seqs, sp, Peg.char, Yields, Rule.Yields, Rule.Fits] at h
      simp [Rule.Parts, h]
  | line | expr | operand | value | literal | mapKey =>
      simp [table, choices, Yields, Rule.Yields, Rule.Fits] at h
      simp only [Rule.Parts, Rule.Yields, Rule.Fits]
      grind
  | decimal | scientific =>
      refine AllYield.eq_nil ?_ h
      simp [table, seqs, choices, Peg.char, Peg.oneOf, AllYield, Rule.Yields]
  | integer | wholeNumber | digit | stringChar | stringEscape | someSpace | space
  | comment | blank =>
      refine ⟨AllYield.eq_nil ?_ h, marks_eq_nil_of_yields rfl h⟩
      simp [table, seqs, opt, Peg.any, Peg.char, Peg.oneOf, within, AllYield, Rule.Yields]

/-! ## Constructs of their parts -/

/-- An operator is read back from its text. -/
theorem ofText_text (op : BinaryOperator) : BinaryOperator.ofText? op.text = some op := by
  cases op <;> decide

/-- The body of a string, as the grammar has it, can always be decoded. -/
theorem exists_unescape_of_items {items : List (List Char)}
    (h : ∀ item ∈ items, IsStringChar item) :
    ∃ text, unescape (String.ofList items.flatten) = some text := by
  obtain ⟨cs, hcs⟩ := exists_decodeEscapes h
  exact ⟨String.ofList cs, by simp [unescape, hcs]⟩

/-- With these parts a construct is what its rule stands for. Only a number may refuse its text. -/
theorem exists_construct {r : Rule} (hr : r ≠ .numeric) {parts : List Fragment} {ms : List Mark}
    (h : r.Parts parts ms) :
    ∃ made, construct r parts = .ok made ∧ r.Yields made (if r.isNode then [] else ms) := by
  cases r with
  | numeric => exact absurd rfl hr
  | source => exact ⟨parts, rfl, h.1, h.2.2⟩
  | rift =>
      obtain ⟨name, lines, rfl⟩ := h
      exact ⟨_, rfl, ⟨_, rfl, _, rfl⟩, rfl⟩
  | riftName | localReference =>
      obtain ⟨⟨name, rfl⟩, -⟩ := h
      exact ⟨_, rfl, ⟨_, rfl, _, rfl⟩, rfl⟩
  | reference =>
      rcases h with ⟨⟨name, rfl⟩, -⟩ | ⟨⟨unit, name, rfl⟩, -⟩
      · exact ⟨_, rfl, ⟨_, rfl, _, rfl⟩, rfl⟩
      · exact ⟨_, rfl, ⟨_, rfl, _, rfl⟩, rfl⟩
  | block | tuple | list | parameters | map => exact ⟨_, rfl, ⟨_, rfl, _, rfl⟩, rfl⟩
  | mapEntry =>
      obtain ⟨key, value, rfl⟩ := h
      exact ⟨_, rfl, ⟨_, rfl, _, _, rfl⟩, rfl⟩
  | conditional =>
      rcases h with ⟨⟨condition, lines, rfl⟩, -⟩ | ⟨⟨condition, lines, otherwise, rfl⟩, -⟩
      · exact ⟨_, rfl, ⟨_, rfl, _, rfl⟩, rfl⟩
      · exact ⟨_, rfl, ⟨_, rfl, _, rfl⟩, rfl⟩
  | assignment =>
      obtain ⟨target, value, rfl⟩ := h
      exact ⟨_, rfl, ⟨_, rfl, _, rfl⟩, rfl⟩
  | operation =>
      obtain ⟨first, rest, -, rfl⟩ := h
      exact ⟨_, rfl, ⟨_, rfl, _, rfl⟩, rfl⟩
  | application =>
      obtain ⟨callee, arguments, rfl⟩ := h
      exact ⟨_, rfl, ⟨_, rfl, _, rfl⟩, rfl⟩
  | function =>
      obtain ⟨parameters, ⟨lines, rfl⟩ | ⟨value, rfl⟩⟩ := h
      · exact ⟨_, rfl, ⟨_, rfl, _, rfl⟩, rfl⟩
      · exact ⟨_, rfl, ⟨_, rfl, _, rfl⟩, rfl⟩
  | operator =>
      obtain ⟨op, rfl⟩ := h
      refine ⟨[.operator op], ?_, ⟨_, rfl, _, rfl⟩, rfl⟩
      simp only [construct, ofText_text]
      rfl
  | string =>
      obtain ⟨items, rfl, hitems⟩ := h
      obtain ⟨text, htext⟩ := exists_unescape_of_items hitems
      refine ⟨[.node (.string text)], ?_, ⟨_, rfl, _, rfl⟩, rfl⟩
      simp only [construct, htext]
      rfl
  | boolean =>
      rcases h with rfl | rfl
      · exact ⟨_, rfl, ⟨_, rfl, _, rfl⟩, rfl⟩
      · exact ⟨_, rfl, ⟨_, rfl, _, rfl⟩, rfl⟩
  | _ => exact ⟨parts, rfl, h⟩

/-! ## Texts of the rules -/

/-- Digits in a row. -/
theorem forall_isDigit_of_rep {cs : List Char} {ms : List Mark}
    (h : Rep (Rule.Spells .digit) cs ms) :
    (∀ c ∈ cs, c.isDigit = true) ∧ ms = [] := by
  refine ⟨h.forall_mem ?_, h.right_eq_nil fun _ _ h => h.2⟩
  rintro _ _ ⟨⟨c, rfl, hc⟩, -⟩ c' hc'
  obtain rfl := List.mem_singleton.1 hc'
  exact hc

/-- The characters from zero to nine are digits. -/
theorem isDigit_of_le {c : Char} (hlow : '0' ≤ c) (hhigh : c ≤ '9') : c.isDigit = true :=
  Bool.and_eq_true_iff.2 ⟨decide_eq_true hlow, decide_eq_true hhigh⟩

/-- What the expression of a rule of literals spells are texts of the rule. -/
theorem spells_of_table {r : Rule} (hr : r ≠ .stringChar) {cs : List Char} {ms : List Mark}
    (h : (table r).Spells cs ms) : r.Spells cs ms := by
  cases r with
  | stringChar => exact absurd rfl hr
  | digit =>
      simp [table, within, Spells] at h
      obtain ⟨⟨c, rfl, hlow, hhigh⟩, rfl⟩ := h
      exact ⟨⟨c, rfl, isDigit_of_le hlow hhigh⟩, rfl⟩
  | integer => exact h
  | wholeNumber =>
      simp [table, within, seqs, opt, Peg.char, Spells] at h
      rcases h with ⟨rfl, rfl⟩ | ⟨sign, ms₁, hsign, ms₂, c, digits,
        ⟨⟨hlow, hhigh⟩, hdigits⟩, rfl, rfl⟩
      · exact ⟨⟨[], ['0'], rfl, .inl rfl, by simp, by simp⟩, rfl⟩
      · obtain ⟨hall, rfl⟩ := forall_isDigit_of_rep hdigits
        have hc : c.isDigit = true :=
          isDigit_of_le (Char.le_trans (show '0' ≤ '1' by decide) hlow) hhigh
        have hwhole : IsWhole (sign ++ c :: digits) := by
          refine ⟨sign, c :: digits, rfl, ?_, List.cons_ne_nil _ _,
            List.forall_mem_cons.2 ⟨hc, hall⟩⟩
          exact hsign.symm.imp And.left And.left
        refine ⟨hwhole, ?_⟩
        rcases hsign with ⟨-, rfl⟩ | ⟨-, rfl⟩ <;> rfl
  | decimal =>
      simp [table, seqs, Peg.char, Spells, Rule.Spells] at h
      obtain ⟨whole, hwhole, fraction, ms₁, hfraction, rfl, rfl⟩ := h
      obtain ⟨hall, rfl⟩ := forall_isDigit_of_rep hfraction
      exact ⟨⟨whole, fraction, rfl, hwhole, hall⟩, rfl⟩
  | scientific =>
      simp [table, seqs, choices, Peg.oneOf, Spells, Rule.Spells] at h
      obtain ⟨number, ms₁, hnumber, rest, ms₂, hrest, rfl, rfl⟩ := h
      have hform : IsWhole number ∨ IsDecimal number := hnumber.symm.imp And.left And.left
      rcases hrest with ⟨exponent, hexponent, rfl, rfl⟩ | ⟨exponent, hexponent, rfl, rfl⟩
      · exact ⟨⟨number, 'e', exponent, rfl, hform, .inl rfl, hexponent⟩, by simp⟩
      · exact ⟨⟨number, 'E', exponent, rfl, hform, .inr rfl, hexponent⟩, by simp⟩
  | stringEscape =>
      obtain ⟨_, _, _, _, ⟨⟨c, rfl, hc⟩, rfl⟩, ⟨_, _, _, _, ⟨⟨d, rfl, hd⟩, rfl⟩,
        ⟨rfl, rfl⟩, rfl, rfl⟩, rfl, rfl⟩ := h
      obtain rfl := eq_of_beq hc
      have hdefined : ∀ d ∈ escapeLetters, (escapeValue? d).isSome = true := List.all_eq_true.1 rfl
      exact ⟨⟨d, rfl, hdefined d (List.contains_iff_mem.1 hd)⟩, rfl⟩
  | _ => trivial

/-- A character of a string is plain or escaped. -/
theorem spells_stringChar_of_shape {rules : Rule → Peg} {s s' : List Char} {d : Derivation}
    (h : (table .stringChar).Shape rules (fun r _ d _ => d.IsOf r) s d s') :
    Rule.Spells .stringChar d.chars d.marks := by
  rcases h with ⟨-, h⟩ | ⟨-, _, _, _, ⟨hplain, rfl, rfl⟩, ⟨_, _, _, ⟨c, rfl, -, rfl⟩,
    ⟨rfl, rfl⟩, rfl⟩, rfl⟩
  · obtain ⟨⟨c, hc, hdefined⟩, hms⟩ := h.spells
    exact ⟨.inr ⟨c, hc, hdefined⟩, hms⟩
  · refine ⟨.inl ⟨c, rfl, ?_⟩, rfl⟩
    rintro rfl
    cases hplain with
    | one_fail hnone =>
      have hbackslash := hnone '\\' rfl
      simp at hbackslash

/-! ## Derivations of rules -/

/-- A lexical rule calls lexical rules only. -/
theorem isLexical_table {r : Rule} (hr : r.isLexical = true) : (table r).isLexical = true := by
  cases r <;> first | rfl | cases hr

/-- In the table, texts are captured around lexical rules only. -/
theorem capturesLexemes_table (r : Rule) : (table r).capturesLexemes = true := by
  cases r <;> rfl

/-- The text of a number, captured, is all of the number. -/
theorem exists_text_of_shape_numeric {s s' : List Char} {d : Derivation}
    (h : (table .numeric).Shape table (fun r _ d _ => d.IsOf r) s d s') :
    d.fragments = .ok [.text (String.ofList d.chars)] ∧ d.numerals = [] ∧
      (IsWhole d.chars ∨ IsDecimal d.chars ∨ IsScientific d.chars) := by
  obtain ⟨_, _, _, ⟨rfl, rfl⟩, ⟨_, _, _, ⟨t, ht, rfl⟩, ⟨_, _, _, ⟨rfl, rfl⟩, ⟨_, _, _, ⟨rfl, rfl⟩,
    ⟨rfl, rfl⟩, rfl⟩, rfl⟩, rfl⟩, rfl⟩ := h
  have hchars : ∀ a b, ((Derivation.action a).append ((Derivation.capture .text t).append
      (((Derivation.action .attach)).append ((Derivation.action b).append (.leaf []))))).chars
        = t.chars := fun a b => List.append_nil _
  rw [hchars]
  refine ⟨rfl, ?_, ?_⟩
  · simp [Derivation.numerals, numerals_eq_nil_of_shape (e := choices _) rfl ht]
  · rcases spells_of_shape ht with h | h | h | h
    · exact .inr (.inr h.1)
    · exact .inr (.inl h.1)
    · exact .inl h.1
    · exact h.elim

/-- A number stands for what its text is read as. -/
theorem fragments_numeric {d : Derivation}
    (hparts : d.fragments = .ok [.text (String.ofList d.chars)]) :
    (Derivation.capture (.rule .numeric) d).fragments =
      (literalValue .numeric (String.ofList d.chars) (readNumeral d.chars)).map
        fun value => [.node (.numeric value)] := by
  rw [Derivation.fragments, hparts]
  show construct .numeric [.text (String.ofList d.chars)] = _
  simp only [construct, String.toList_ofList]
  rcases readNumeral d.chars with _ | _ <;> rfl

/-- A number stands for its value if it is in range, and otherwise for the error that it is not. -/
theorem means_numeric {d : Derivation} (hparts : d.fragments = .ok [.text (String.ofList d.chars)])
    (hnumerals : d.numerals = []) (hform : IsWhole d.chars ∨ IsDecimal d.chars ∨
      IsScientific d.chars) :
    (Derivation.capture (.rule .numeric) d).Means (Rule.Yields .numeric) := by
  have hall : (Derivation.capture (.rule .numeric) d).numerals = [d.chars] := by
    simp [Derivation.numerals, hnumerals]
  have hfragments := fragments_numeric hparts
  have hread : readNumeral d.chars =
        (if isOutOfRange d.chars then .error (rangeFault d.chars) else readNumeral d.chars) ∧
      (isOutOfRange d.chars = false → ∃ value, readNumeral d.chars = .ok value) := by
    rcases hform with h | h | h
    · rw [readNumeral_whole h]
      split <;> simp_all
    · obtain ⟨x, -, hx, hin⟩ := readNumeral_decimal h
      simp [hin, hx]
    · obtain ⟨x, -, hx, hin⟩ := readNumeral_scientific h
      simp [hin, hx]
  rcases hout : isOutOfRange d.chars with _ | _
  · obtain ⟨value, hvalue⟩ := hread.2 hout
    refine ⟨fun _ => ⟨[.node (.numeric value)], ?_, ⟨_, rfl, _, rfl⟩, rfl⟩, fun text htext => ?_⟩
    · rw [hfragments, hvalue]
      rfl
    · simp [hall, hout] at htext
  · rw [hout, if_pos rfl] at hread
    refine ⟨fun hnone => ?_, fun text htext => ?_⟩
    · simp [hall, hout] at hnone
    · obtain rfl : d.chars = text := by simpa [hall, hout] using htext
      rw [hfragments, hread.1]
      rfl

/-- A derivation of a rule stands for what the rule yields, unless a number in it is out of
range. -/
theorem isOf_of_parses {r : Rule} {s s' : List Char} {d : Derivation}
    (h : Parses table (.call r) s (some (d, s'))) : d.IsOf r := by
  refine Parses.rule_induction (Q := fun r _ d _ => d.IsOf r) ?_ h
  intro r s d s' _ hshape
  have hmeans := means_of_shape (capturesLexemes_table r) hshape
  refine ⟨?_, ?_, fun hr => ?_⟩
  · by_cases hr : r = .numeric
    · subst hr
      obtain ⟨hparts, hnumerals, hform⟩ := exists_text_of_shape_numeric hshape
      exact means_numeric hparts hnumerals hform
    · exact hmeans.construct hr fun parts hparts => exists_construct hr (parts_of_yields hparts)
  · by_cases hr : r = .stringChar
    · subst hr
      have hspells := spells_stringChar_of_shape hshape
      exact hspells
    · have hspells := spells_of_table hr (spells_of_shape hshape)
      cases r <;> exact hspells
  · have hnumeric : r ≠ .numeric := by
      rintro rfl
      cases hr
    simp [Derivation.numerals, hnumeric, numerals_eq_nil_of_shape (isLexical_table hr) hshape]

end RiftLang
