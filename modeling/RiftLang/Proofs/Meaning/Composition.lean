import RiftLang.Ast.Lisp
import RiftLang.Proofs.Execution

/-!
# Replaying is composition

What a derivation stands for, by structural recursion alone: every construct is composed of what the
constructs inside it stand for, and has no meaning if one of them does not fit or would be left
over. Where a construct has two shapes, the branch that was derived decides.

* `Derivation.words` — what a derivation matches itself, outside the captures in it. An optional
  branch shows there by its word.
* `compose` — what a construct is composed to, and `Derivation.meaning` — what a derivation stands
  for.
* `Derivation.composition` — the program that a derivation of a source stands for.
* `meaning_of_parses` — for derivations by the table the meaning is what `Derivation.fragments`
  says, which hands on whatever does not fit.
* `execute_is_composition` — replaying tokens builds a program if and only if it is composed from
  the derivation that the tokens are of.
-/

namespace RiftLang

/-! ## Meanings -/

/-- Operators and operands in turn, nothing left over. -/
def linkChain : List Fragment → Option (List (BinaryOperator × Node))
  | [] => some []
  | .operator op :: .node operand :: rest => (linkChain rest).map ((op, operand) :: ·)
  | _ => none

/-- What a construct is composed to, from the words that it matches itself and from all that stands
inside it, in order. -/
def compose (r : Rule) (words : List (List Char)) (parts : List Fragment) : Option Fragment :=
  match r with
  | .rift =>
    match parts with
    | [.node (.reference name), .block lines] => some (.rift ⟨name, lines⟩)
    | _ => none
  | .riftName | .localReference =>
    match parts with
    | [.text name] => some (.node (.reference (.ofName name)))
    | _ => none
  | .reference =>
    match decide ([':'] ∈ words), parts with
    | false, [.text name] => some (.node (.reference (.ofName name)))
    | true, [.text unit, .text name] => some (.node (.reference (.qualified unit name)))
    | _, _ => none
  | .block => (parts.mapM Fragment.node?).map .block
  | .conditional =>
    match decide ("else".toList ∈ words), parts with
    | false, [.node condition, .block lines] => some (.node (.conditional condition lines none))
    | true, [.node condition, .block lines, .block otherwise] =>
      some (.node (.conditional condition lines (some otherwise)))
    | _, _ => none
  | .assignment =>
    match parts with
    | [.node (.reference target), .node value] => some (.node (.assignment target value))
    | _ => none
  | .operation =>
    match parts with
    | .node first :: rest => (linkChain rest).map fun links => .node (.operation first links)
    | _ => none
  | .operator =>
    match parts with
    | [.text text] => (BinaryOperator.ofText? text).map .operator
    | _ => none
  | .application =>
    match parts with
    | [.node (.reference callee), .node (.tuple arguments)] =>
      some (.node (.application callee arguments))
    | _ => none
  | .function =>
    match parts with
    | [.arguments parameters, .block lines] => some (.node (.function parameters (.block lines)))
    | [.arguments parameters, .node value] => some (.node (.function parameters (.expr value)))
    | _ => none
  | .parameters => (parts.mapM Fragment.reference?).map .arguments
  | .tuple => (parts.mapM Fragment.node?).map fun items => .node (.tuple items)
  | .list => (parts.mapM Fragment.node?).map fun items => .node (.list items)
  | .map => (parts.mapM Fragment.entry?).map fun entries => .node (.map entries)
  | .mapEntry =>
    match parts with
    | [.node key, .node value] => some (.entry key value)
    | _ => none
  | .string =>
    match parts with
    | [.text raw] => (unescape raw).map fun text => .node (.string text)
    | _ => none
  | .numeric =>
    match parts with
    | [.text text] => (readNumeral text.toList).toOption.map fun value => .node (.numeric value)
    | _ => none
  | .boolean =>
    match parts with
    | [.text text] => (readBoolean text).toOption.map fun value => .node (.boolean value)
    | _ => none
  | _ => none

namespace Derivation

/-- The texts that a derivation matches itself, outside the captures in it, in order. -/
def words : Derivation → List (List Char)
  | leaf cs => [cs]
  | action _ | capture _ _ => []
  | append first second => first.words ++ second.words

/-- What a derivation stands for, in order, if every construct in it can be composed. -/
def meaning : Derivation → Option (List Fragment)
  | leaf _ | action _ => some []
  | append first second => do return (← first.meaning) ++ (← second.meaning)
  | capture (.rule r) body => do
    let parts ← body.meaning
    if r.isNode then return [← compose r body.words parts] else return parts
  | capture .text body => some [.text (String.ofList body.chars)]
  | capture (.action _) body => body.meaning

/-- The program that a derivation of a source stands for: rifts in a row, and nothing else. -/
def composition (d : Derivation) : Option Source :=
  (d.meaning.bind (·.mapM Fragment.rift?)).map Source.mk

end Derivation

/-! ## Constructs and what they are composed to -/

section parts

variable {α β : Type} {f : α → Option β}

/-- Where a partial function is defined on all items, taking all its values is taking those that
exist. -/
theorem mapM_eq_filterMap {xs : List α} (h : ∀ x ∈ xs, ∃ y, f x = some y) :
    xs.mapM f = some (xs.filterMap f) := by
  induction xs with
  | nil => rfl
  | cons x xs ih =>
      obtain ⟨y, hy⟩ := h x List.mem_cons_self
      have htail := ih fun x hx => h x (List.mem_cons_of_mem _ hx)
      rw [List.mapM_cons, htail, hy, List.filterMap_cons_some hy]
      rfl

/-- Operators and operands in turn are linked with nothing left over. -/
theorem linkChain_flatMap (links : List (BinaryOperator × Node)) :
    linkChain (links.flatMap fun link => [.operator link.1, .node link.2]) = some links := by
  induction links with
  | nil => rfl
  | cons link links ih => simp [linkChain, ih]

end parts

/-- The branch that was derived shows in the words as it does in the flags. -/
structure Rule.Tells (r : Rule) (words : List (List Char)) (ms : List Mark) : Prop where
  /-- A name follows the first one. -/
  qualified : r = .reference → ([':'] ∈ words ↔ .qualified ∈ ms)
  /-- A block follows the first one. -/
  otherwise : r = .conditional → ("else".toList ∈ words ↔ .otherwise ∈ ms)

/-- From parts of its rule a construct is composed to what its rule makes of them. -/
theorem map_compose_of_parts {r : Rule} (hr : r.isNode = true) {words : List (List Char)}
    {parts : List Fragment} {ms : List Mark} (hparts : r.Parts parts ms)
    (hwords : r.Tells words ms) :
    (compose r words parts).map ([·]) = (construct r parts).toOption := by
  cases r with
  | rift =>
      obtain ⟨name, lines, rfl⟩ := hparts
      rfl
  | riftName | localReference =>
      obtain ⟨⟨name, rfl⟩, -⟩ := hparts
      rfl
  | reference =>
      have htells := hwords.qualified rfl
      rcases hparts with ⟨⟨name, rfl⟩, rfl⟩ | ⟨⟨unit, name, rfl⟩, rfl⟩
      · have hword : [':'] ∉ words := htells.not.2 List.not_mem_nil
        simp only [compose, decide_eq_false hword]
        rfl
      · have hword : [':'] ∈ words := htells.2 List.mem_cons_self
        simp only [compose, decide_eq_true hword]
        rfl
  | conditional =>
      have htells := hwords.otherwise rfl
      rcases hparts with ⟨⟨condition, lines, rfl⟩, rfl⟩ | ⟨⟨condition, lines, otherwise, rfl⟩, rfl⟩
      · have hword : "else".toList ∉ words := htells.not.2 List.not_mem_nil
        simp only [compose, decide_eq_false hword]
        rfl
      · have hword : "else".toList ∈ words := htells.2 List.mem_cons_self
        simp only [compose, decide_eq_true hword]
        rfl
  | block | tuple | list =>
      have hall : ∀ part ∈ parts, ∃ n, part.node? = some n := by
        intro part hpart
        obtain ⟨n, rfl⟩ := hparts part hpart
        exact ⟨n, rfl⟩
      rw [compose, mapM_eq_filterMap hall]
      rfl
  | parameters =>
      have hall : ∀ part ∈ parts, ∃ ref, part.reference? = some ref := by
        intro part hpart
        obtain ⟨ref, rfl⟩ := hparts part hpart
        exact ⟨ref, rfl⟩
      rw [compose, mapM_eq_filterMap hall]
      rfl
  | map =>
      have hall : ∀ part ∈ parts, ∃ entry, part.entry? = some entry := by
        intro part hpart
        obtain ⟨key, value, rfl⟩ := hparts part hpart
        exact ⟨(key, value), rfl⟩
      rw [compose, mapM_eq_filterMap hall]
      rfl
  | assignment =>
      obtain ⟨target, value, rfl⟩ := hparts
      rfl
  | operation =>
      obtain ⟨first, links, -, rfl⟩ := hparts
      simp only [compose, construct, linkChain_flatMap, operandChain_flatMap]
      rfl
  | application =>
      obtain ⟨callee, arguments, rfl⟩ := hparts
      rfl
  | function =>
      obtain ⟨parameters, ⟨lines, rfl⟩ | ⟨value, rfl⟩⟩ := hparts <;> rfl
  | mapEntry =>
      obtain ⟨key, value, rfl⟩ := hparts
      rfl
  | operator =>
      obtain ⟨op, rfl⟩ := hparts
      simp only [compose, construct, ofText_text]
      rfl
  | string =>
      obtain ⟨items, rfl, -⟩ := hparts
      simp only [compose, construct]
      rcases unescape (String.ofList items.flatten) with _ | text <;> rfl
  | numeric =>
      obtain ⟨cs, rfl, -⟩ := hparts
      simp only [compose, construct]
      rcases readNumeral (String.ofList cs).toList with _ | value <;> rfl
  | boolean =>
      rcases hparts with rfl | rfl <;> rfl
  | _ => cases hr

/-! ## Derivations by the table -/

section shape

open Peg

variable {s s' : List Char} {d e : Derivation} {parts : List Fragment}

/-- If composing two derivations gives what they stand for, then so does composing them in a row. -/
theorem meaning_append (hd : d.meaning = d.fragments.toOption)
    (he : e.meaning = e.fragments.toOption) :
    (d.append e).meaning = (d.append e).fragments.toOption := by
  rw [Derivation.meaning, Derivation.fragments, hd, he]
  rcases d.fragments with _ | _
  · rfl
  · rcases e.fragments with _ | _ <;> rfl

/-- The same of the derivations of a repetition. -/
theorem meaning_of_chain {item : List Char → Derivation → List Char → Prop}
    {stop : List Char → Prop} (h : Chain item stop s d s')
    (hitem : ∀ s d s', item s d s' → d.meaning = d.fragments.toOption) :
    d.meaning = d.fragments.toOption := by
  induction h with
  | nil _ => rfl
  | cons hd _ ih => exact meaning_append (hitem _ _ _ hd) ih

/-- A call of a rule matches no text itself: it is all inside the rule. -/
theorem words_of_parses_call {r : Rule} (h : Parses table (.call r) s (some (d, s'))) :
    d.words = [] := by
  obtain ⟨body, -, rfl⟩ := parses_call_iff.1 h
  rfl

/-- A name has a colon of its own exactly if it is marked as qualified. -/
theorem tells_reference (h : (table .reference).Shape table (fun r _ d _ => d.IsOf r) s d s')
    (hparts : d.fragments = .ok parts) : [':'] ∈ d.words ↔ .qualified ∈ d.marks := by
  obtain ⟨_, _, _, ⟨rfl, rfl⟩, ⟨name, _, _, hname, ⟨_, _, _, ⟨rfl, rfl⟩, ⟨branch, _, _, hbranch,
    hfinish, rfl⟩, rfl⟩, rfl⟩, rfl⟩ := h
  rcases hbranch with ⟨_, _, _, ⟨rfl, rfl⟩, ⟨_, _, _, ⟨c, -, hc, rfl⟩, -, rfl⟩, rfl⟩ | ⟨-, hnone⟩
  · obtain rfl : c = ':' := eq_of_beq hc
    simp [Derivation.words, Derivation.marks]
  · -- Without the branch the derivation is one of an expression that puts no flag.
    have hshort : (node .reference [call .name, .action .attach, .empty]).Shape table
        (fun r _ d _ => d.IsOf r) _ _ s' :=
      ⟨_, _, _, ⟨rfl, rfl⟩, ⟨name, _, _, hname, ⟨_, _, _, ⟨rfl, rfl⟩, ⟨branch, _, _, hnone,
        hfinish, rfl⟩, rfl⟩, rfl⟩, rfl⟩
    have hmarks := marks_eq_nil_of_yields rfl ((means_of_shape rfl hshort).of_fragments_eq hparts)
    obtain ⟨_, _, _, ⟨rfl, rfl⟩, ⟨rfl, rfl⟩, rfl⟩ := hfinish
    obtain ⟨rfl, -⟩ := hnone
    rw [hmarks]
    simp [Derivation.words, words_of_parses_call hname.1]

/-- A conditional has the word of its second block exactly if it is marked as having one. -/
theorem tells_conditional (h : (table .conditional).Shape table (fun r _ d _ => d.IsOf r) s d s')
    (hparts : d.fragments = .ok parts) : "else".toList ∈ d.words ↔ .otherwise ∈ d.marks := by
  obtain ⟨_, _, _, ⟨rfl, rfl⟩, ⟨_, _, _, ⟨-, rfl⟩, ⟨_, _, _, ⟨hstop, rfl, rfl⟩,
    ⟨space, _, _, hspace, ⟨condition, _, _, hcondition,
    ⟨gap, _, _, hgap, ⟨block, _, _, hblock, ⟨branch, _, _, hbranch, hfinish, rfl⟩, rfl⟩, rfl⟩, rfl⟩,
    rfl⟩, rfl⟩, rfl⟩, rfl⟩ := h
  rcases hbranch with ⟨_, _, _, -, ⟨_, _, _, ⟨-, rfl⟩, ⟨_, _, _, -, ⟨_, _, _, -, ⟨_, _, _, ⟨rfl, -⟩,
    -, rfl⟩, rfl⟩, rfl⟩, rfl⟩, rfl⟩ | ⟨-, hnone⟩
  · simp [Derivation.words, Derivation.marks]
  · -- Here too no flag is put without the branch.
    have hshort : (node .conditional [word "if", absent nameChar, sp, call .expr, sp, call .block,
        .empty]).Shape table (fun r _ d _ => d.IsOf r) _ _ s' :=
      ⟨_, _, _, ⟨rfl, rfl⟩, ⟨_, _, _, ⟨rfl, rfl⟩, ⟨_, _, _, ⟨hstop, rfl, rfl⟩, ⟨space, _, _, hspace,
        ⟨condition, _, _, hcondition, ⟨gap, _, _, hgap, ⟨block, _, _, hblock, ⟨branch, _, _, hnone,
        hfinish, rfl⟩, rfl⟩, rfl⟩, rfl⟩, rfl⟩, rfl⟩, rfl⟩, rfl⟩
    have hmarks := marks_eq_nil_of_yields rfl ((means_of_shape rfl hshort).of_fragments_eq hparts)
    obtain ⟨_, _, _, ⟨rfl, rfl⟩, ⟨rfl, rfl⟩, rfl⟩ := hfinish
    obtain ⟨rfl, -⟩ := hnone
    rw [hmarks]
    simp [Derivation.words, words_of_parses_call hspace.1, words_of_parses_call hcondition.1,
      words_of_parses_call hgap.1, words_of_parses_call hblock.1]

/-- Which branch was derived shows in the words. -/
theorem tells_of_shape {r : Rule} (h : (table r).Shape table (fun r _ d _ => d.IsOf r) s d s')
    (hparts : d.fragments = .ok parts) : r.Tells d.words d.marks where
  qualified hr := by
    subst hr
    exact tells_reference h hparts
  otherwise hr := by
    subst hr
    exact tells_conditional h hparts

/-- An expression means what it stands for, if the rules called do. -/
theorem meaning_of_shape {e : Peg}
    (h : e.Shape table (fun _ _ d _ => d.meaning = d.fragments.toOption) s d s') :
    d.meaning = d.fragments.toOption := by
  induction e generalizing s d s' with
  | empty =>
      obtain ⟨rfl, -⟩ := h
      rfl
  | fail => exact h.elim
  | one _ =>
      obtain ⟨_, -, -, rfl⟩ := h
      rfl
  | word _ =>
      obtain ⟨-, rfl⟩ := h
      rfl
  | absent _ =>
      obtain ⟨-, rfl, -⟩ := h
      rfl
  | action _ =>
      obtain ⟨rfl, -⟩ := h
      rfl
  | text _ =>
      obtain ⟨_, -, rfl⟩ := h
      rfl
  | seq a b iha ihb =>
      obtain ⟨d₁, _, d₂, h₁, h₂, rfl⟩ := h
      exact meaning_append (iha h₁) (ihb h₂)
  | choice a b iha ihb => exact h.elim iha fun h => ihb h.2
  | star a ih => exact meaning_of_chain h fun _ _ _ => ih
  | plus a ih =>
      obtain ⟨d₁, _, d₂, h₁, h₂, rfl⟩ := h
      exact meaning_append (ih h₁) (meaning_of_chain h₂ fun _ _ _ => ih)
  | call r => exact h.2

/-- What a derivation by the table means is what it stands for. -/
theorem meaning_of_parses {r : Rule} (h : Parses table (.call r) s (some (d, s'))) :
    d.meaning = d.fragments.toOption := by
  refine Parses.rule_induction (Q := fun _ _ d _ => d.meaning = d.fragments.toOption) ?_ h
  intro r s d s' hd hshape
  have hbody := meaning_of_shape hshape
  have hof : (table r).Shape table (fun r _ d _ => d.IsOf r) s d s' :=
    hd.shape fun r s d s' h _ => isOf_of_parses (.call h)
  rw [Derivation.meaning, Derivation.fragments, hbody]
  rcases hparts : d.fragments with _ | parts
  · rfl
  show (if r.isNode then _ else some parts) = (construct r parts).toOption
  -- A construct is composed of its parts, any other rule hands them on.
  by_cases hr : r.isNode = true
  · have hyields := (means_of_shape (capturesLexemes_table r) hof).of_fragments_eq hparts
    rw [if_pos hr, ← map_compose_of_parts hr (parts_of_yields hyields) (tells_of_shape hof hparts)]
    rcases compose r d.words parts with _ | part <;> rfl
  · have hr : r.isNode = false := by simpa using hr
    rw [if_neg (by simp [hr]), construct_of_not_isNode hr]
    rfl

end shape

/-- For a source the composed program is the one that its fragments make. -/
theorem composition_of_parses {s : List Char} {d : Derivation}
    (h : Parses Peg.table (.call .source) s (some (d, []))) :
    d.composition = d.program.toOption := by
  rw [Derivation.composition, Derivation.program, meaning_of_parses h]
  rcases hparts : d.fragments with _ | parts
  · rfl
  · have hyields : Rule.Yields .source parts d.marks :=
      (isOf_of_parses h).means.of_fragments_eq hparts
    have hrifts : ∀ part ∈ parts, ∃ rift, part.rift? = some rift := by
      intro part hpart
      obtain ⟨rift, rfl⟩ := hyields.1 part hpart
      exact ⟨rift, rfl⟩
    show ((parts.mapM Fragment.rift?).map Source.mk) = _
    rw [mapM_eq_filterMap hrifts]
    rfl

/-- Executing a recognised source gives a program exactly when the program is composed, construct by
construct, from the derivation of the source. -/
theorem execute_is_composition {config : Config} {source : String} {r : Recognized}
    (h : recognize config source = .ok r) :
    ∃ d, Parses Peg.table (.call .source) source.toList (some (d, [])) ∧ r.tokens = d.tokens 0 0 ∧
      ∀ program, r.execute = .ok program ↔ d.composition = some program := by
  obtain ⟨d, hd, rfl⟩ := recognize_eq_ok_iff.1 h
  refine ⟨d, hd, rfl, fun program => ?_⟩
  rw [execute_eq_program (by simpa using hd), composition_of_parses hd]
  rcases d.program with _ | _
  · constructor <;> intro h <;> cases h
  · constructor
    · intro h
      cases h
      rfl
    · intro h
      cases h
      rfl

set_option maxRecDepth 100000 in
/-- A program with both shapes of names, of conditionals and of functions. -/
theorem execute_is_composition_both_shapes :
    ∃ r program, recognize {}
        "a => \x7b if u:n \x7b f(x) \x7d else \x7b () -> y + 1 \x7d if z \x7b () -> \x7b \x7d \x7d \x7d" = .ok r ∧
      r.execute = .ok program ∧ program.lisp =
      "(rift (reference a) (block " ++
        "(if (reference u:n) (block (function-apply (reference f) (tuple (reference x)))) " ++
          "(block (function-definition (arguments) (operation (reference y) + (numeric 1))))) " ++
        "(if (reference z) (block (function-definition (arguments) (block))))))" := by
  have hall : ∀ (source : String) (lisp : String),
      ((Peg.call .source).run Peg.table 200 source.toList).map
        (·.map fun m => (m.1.composition.map Source.lisp, m.2)) = some (some (some lisp, [])) →
      ∃ r program, recognize {} source = .ok r ∧ r.execute = .ok program ∧ program.lisp = lisp := by
    intro source lisp hrun
    obtain ⟨d, hd, hlisp⟩ := exists_parses_of_run (f := fun d => d.composition.map Source.lisp) hrun
    obtain ⟨program, hprogram, hlisp⟩ := Option.map_eq_some_iff.1 hlisp
    have hr : recognize {} source = .ok _ := recognize_eq_ok_iff.2 ⟨d, hd, rfl⟩
    obtain ⟨d', hd', -, hiff⟩ := execute_is_composition hr
    cases hd.unique hd'
    exact ⟨_, program, hr, (hiff program).2 hprogram, hlisp⟩
  exact hall _ _ (by decide +kernel)

end RiftLang
