import RiftLang.Proofs.Peg.Shape
import RiftLang.Proofs.Printing.Boundaries
import RiftLang.Proofs.Recognition

/-!
# Tuples are no parameters

A tuple may look like the parameters of a function. What tells them apart is the arrow.

* `isParameterChar`, `afterParameters` — the characters of parameters, and what is left after them.
* `parses_function_none` — there is no function where the arrow is missing.
* `Node.afterParameters_chars` — among printed items either all characters could be of parameters,
  or one shows that there are none.
-/

namespace RiftLang

open Peg

/-- A character that may stand between the brackets of parameters, comments apart. -/
def isParameterChar (c : Char) : Bool :=
  isNameChar c || c == '@' || isBlank c || c == ','

/-- What is left of a text after characters of parameters. -/
def afterParameters (s : List Char) : List Char :=
  s.dropWhile isParameterChar

/-- After the text, characters of parameters go on, unless it has a comment in it. -/
def Glides (cs : List Char) : Prop :=
  ∀ u, afterParameters (cs ++ u) = afterParameters u ∨ (afterParameters (cs ++ u)).head? = some '#'

/-- Nothing is passed over without a halt. -/
theorem glides_nil : Glides [] :=
  fun _ => .inl rfl

/-- Texts that are passed over without a halt are so in a row. A comment in the first halts
there. -/
theorem Glides.append {cs cs' : List Char} (h : Glides cs) (h' : Glides cs') :
    Glides (cs ++ cs') := by
  intro u
  rw [List.append_assoc]
  rcases h (cs' ++ u) with heq | hcomment
  · rw [heq]
    exact h' u
  · exact .inr hcomment

/-- A character of parameters is passed over. -/
theorem glides_singleton {c : Char} (hc : isParameterChar c = true) : Glides [c] :=
  fun _ => .inl (List.dropWhile_cons_of_pos hc)

/-- At a comment one halts, and finds it. -/
theorem glides_comment (cs : List Char) : Glides ('#' :: cs) :=
  fun _ => .inr rfl

/-- A text of such characters is passed over. -/
theorem glides_of_forall {cs : List Char} (h : ∀ c ∈ cs, isParameterChar c = true) : Glides cs := by
  induction cs with
  | nil => exact glides_nil
  | cons c cs ih =>
      exact (glides_singleton (h c List.mem_cons_self)).append
        (ih fun c hc => h c (List.mem_cons_of_mem _ hc))

/-- The rules that may be called between the brackets of parameters. -/
def Rule.isOfParameters : Rule → Bool
  | .name | .localReference | .space | .blank | .comment => true
  | _ => false

namespace Peg

/-- All characters consumed may be of parameters. -/
def GlidesBy : Peg → Prop
  | empty | fail | absent _ | action _ => True
  | one test => ∀ c, test c = true → isParameterChar c = true
  | word w => ∀ c ∈ w.toList, isParameterChar c = true
  | seq a b | choice a b => a.GlidesBy ∧ b.GlidesBy
  | star a | plus a | text a => a.GlidesBy
  | call r => r.isOfParameters = true

end Peg

section shape

variable {rules : Rule → Peg} {Q : Rule → List Char → Derivation → List Char → Prop}
  {s s' : List Char}
  {d : Derivation}

/-- Derivations in a row glide, if each of them does. -/
theorem Chain.glides {item : List Char → Derivation → List Char → Prop} {stop : List Char → Prop}
    (h : Chain item stop s d s') (hitem : ∀ s d s', item s d s' → Glides d.chars) :
    Glides d.chars := by
  induction h with
  | nil _ => exact glides_nil
  | cons hd _ ih => exact (hitem _ _ _ hd).append ih

/-- What an expression of parameters consumes glides, if the rules that it calls do. -/
theorem Peg.glides_of_shape {e : Peg} (he : e.GlidesBy)
    (h : e.Shape rules (fun r _ d _ => r.isOfParameters = true → Glides d.chars) s d s') :
    Glides d.chars := by
  induction e generalizing s d s' with
  | empty =>
      obtain ⟨rfl, -⟩ := h
      exact glides_nil
  | fail => exact h.elim
  | one test =>
      obtain ⟨c, -, hc, rfl⟩ := h
      exact glides_singleton (he c hc)
  | word w =>
      obtain ⟨-, rfl⟩ := h
      exact glides_of_forall he
  | seq a b iha ihb =>
      obtain ⟨d₁, _, d₂, h₁, h₂, rfl⟩ := h
      exact (iha he.1 h₁).append (ihb he.2 h₂)
  | choice a b iha ihb =>
      rcases h with h | ⟨-, h⟩
      · exact iha he.1 h
      · exact ihb he.2 h
  | star a ih => exact Chain.glides h fun _ _ _ => ih he
  | plus a ih =>
      obtain ⟨d₁, _, d₂, h₁, h₂, rfl⟩ := h
      exact (ih he h₁).append (h₂.glides fun _ _ _ => ih he)
  | absent _ =>
      obtain ⟨-, rfl, -⟩ := h
      exact glides_nil
  | text a ih =>
      obtain ⟨d₁, h₁, rfl⟩ := h
      have hbody := ih he h₁
      exact hbody
  | action _ =>
      obtain ⟨rfl, -⟩ := h
      exact glides_nil
  | call r => exact h.2 he

end shape

variable {s s' : List Char} {d : Derivation}

/-- The characters of names may stand between the brackets of parameters. -/
theorem isParameterChar_of_isNameChar {c : Char} (h : isNameChar c = true) :
    isParameterChar c = true := by
  simp [isParameterChar, h]

/-- What the rules of parameters consume, comments apart, may stand between their brackets. -/
theorem glidesBy_table {r : Rule} (hr : r.isOfParameters = true) (hne : r ≠ .comment) :
    (table r).GlidesBy := by
  cases r with
  | name =>
      show ((_ ∧ True) ∧ nameStart.GlidesBy ∧ nameChar.GlidesBy ∧ True)
      rw [nameStart_eq, nameChar_eq]
      refine ⟨⟨fun c hc => ?_, trivial⟩, fun c hc => ?_,
        fun c hc => isParameterChar_of_isNameChar hc, trivial⟩
      · obtain rfl : c = '@' := beq_iff_eq.1 hc
        rfl
      · exact isParameterChar_of_isNameChar (isNameChar_of_isNameStart hc)
  | localReference => exact ⟨trivial, rfl, trivial, trivial, trivial⟩
  | space => exact ⟨rfl, rfl⟩
  | blank =>
      show (oneOf [' ', '\t', '\r', '\n']).GlidesBy
      rw [oneOf_blank]
      exact fun c hc => by simp [isParameterChar, hc]
  | comment => exact absurd rfl hne
  | _ => cases hr

/-- What is consumed between the brackets of parameters glides. -/
theorem glides_of_parses {e : Peg} (he : e.GlidesBy) (h : Parses table e s (some (d, s'))) :
    Glides d.chars := by
  refine glides_of_shape he (h.shape ?_)
  intro r s d s' hbody hshape hr
  show Glides d.chars
  by_cases hcomment : r = .comment
  · subst hcomment
    obtain ⟨_, _, _, ⟨c, -, hc, rfl⟩, -, rfl⟩ := hshape
    obtain rfl : c = '#' := beq_iff_eq.1 hc
    exact glides_comment _
  · exact glides_of_shape (glidesBy_table hr hcomment) hshape

/-- Parameters end at the first character that could not be of them, unless there is a comment. -/
theorem afterParameters_of_parses (h : Parses table (.call .parameters) ('(' :: s) (some (d, s'))) :
    afterParameters s = ')' :: s' ∨ (afterParameters s).head? = some '#' := by
  obtain ⟨_, h, -⟩ := parses_call_iff.1 h
  obtain ⟨_, _, _, hbegin, h, -⟩ := parses_seq_iff.1 h
  obtain ⟨-, rfl⟩ := parses_action_iff.1 hbegin
  obtain ⟨_, _, _, hopen, h, -⟩ := parses_seq_iff.1 h
  obtain ⟨_, hcons, -, -⟩ := parses_one_iff.1 hopen
  obtain ⟨-, rfl⟩ := List.cons.inj hcons
  obtain ⟨_, _, _, hsp, h, -⟩ := parses_seq_iff.1 h
  obtain ⟨_, _, _, hitems, h, -⟩ := parses_seq_iff.1 h
  obtain ⟨_, _, _, hclose, hfinish, -⟩ := parses_seq_iff.1 h
  obtain ⟨c, rfl, hc, -⟩ := parses_one_iff.1 hclose
  obtain rfl : c = ')' := beq_iff_eq.1 hc
  obtain ⟨_, _, _, hend, hempty, -⟩ := parses_seq_iff.1 hfinish
  obtain ⟨-, rfl⟩ := parses_action_iff.1 hend
  obtain ⟨-, rfl⟩ := parses_empty_iff.1 hempty
  have hcomma : ∀ c : Char, (c == ',') = true → isParameterChar c = true := by
    intro c hc
    obtain rfl := beq_iff_eq.1 hc
    rfl
  have hspGlides : sp.GlidesBy := rfl
  have hitemsGlides :
      (opt (seqs [.call .localReference, .star (seqs [sp, .char ',', sp, .call .localReference]),
      sp])).GlidesBy :=
    ⟨⟨rfl, ⟨rfl, hcomma, rfl, rfl, trivial⟩, rfl, trivial⟩, trivial⟩
  rw [hsp.eq_append, hitems.eq_append, ← List.append_assoc]
  exact ((glides_of_parses hspGlides hsp).append (glides_of_parses hitemsGlides hitems)) (')' :: _)

/-- The text shows that it is not of parameters: another character comes before the closing
bracket. -/
def Sticks (s : List Char) : Prop :=
  ∃ c u, afterParameters s = c :: u ∧ c ≠ ')' ∧ c ≠ '#'

/-- There is no function where parameters cannot end or no arrow follows. -/
theorem parses_function_none
    (h : Sticks s ∨ ∃ rest, afterParameters s = ')' :: rest ∧ (afterBlanks rest).head? ≠ some '#' ∧
      ¬ ['-', '>'] <+: afterBlanks rest) :
    Parses table (.call .function) ('(' :: s) none := by
  refine .call_fail (takes_action.seq_none ?_)
  obtain ⟨_ | ⟨d, s'⟩, hres⟩ := exists_parses_call .parameters ('(' :: s)
  · exact .seq_fail_left hres
  · rcases h with ⟨c, u, hc, hclose, hcomment⟩ | ⟨rest, hrest, hnext, harrow⟩
    · rcases afterParameters_of_parses hres with heq | heq
      · rw [hc] at heq
        exact absurd (List.cons.inj heq).1 hclose
      · rw [hc] at heq
        exact absurd (Option.some.inj heq) hcomment
    · rcases afterParameters_of_parses hres with heq | heq
      · rw [hrest] at heq
        obtain ⟨-, rfl⟩ := List.cons.inj heq
        exact .seq_fail_right hres
          ((takes_sp_afterBlanks hnext).seq_none (.seq_fail_left (.word_fail harrow)))
      · rw [hrest] at heq
        exact absurd (Option.some.inj heq) (by decide)

/-! ## Printed items -/

/-- All characters of the text could be of parameters, or one shows that it is not of them. -/
def IsItem (cs : List Char) : Prop :=
  (∀ u, afterParameters (cs ++ u) = afterParameters u) ∨ ∀ u, Sticks (cs ++ u)

/-- A character that is none of parameters halts, and is neither the closing bracket nor a
comment. -/
theorem sticks_cons {c : Char} (hc : c ∉ [')', '#']) (h : isParameterChar c = false) :
    Sticks (c :: s) := by
  simp only [List.mem_cons, List.not_mem_nil, or_false, not_or] at hc
  exact ⟨c, s, List.dropWhile_cons_of_neg (by simp [h]), hc⟩

/-- A text that begins with such a character shows that it is no parameter. -/
theorem isItem_cons {c : Char} (hc : c ∉ [')', '#']) (h : isParameterChar c = false)
    (cs : List Char) :
    IsItem (c :: cs) :=
  .inr fun _ => sticks_cons hc h

/-- Characters of parameters in front of a text are passed over. -/
theorem afterParameters_append {cs : List Char} (h : ∀ c ∈ cs, isParameterChar c = true)
    (u : List Char) :
    afterParameters (cs ++ u) = afterParameters u :=
  List.dropWhile_append_of_pos h

/-- A text of such characters might be a parameter. -/
theorem isItem_of_forall {cs : List Char} (h : ∀ c ∈ cs, isParameterChar c = true) : IsItem cs :=
  .inl (afterParameters_append h)

/-- An item that goes on is an item, if what goes on is one. -/
theorem IsItem.append {cs cs' : List Char} (h : IsItem cs) (h' : IsItem cs') :
    IsItem (cs ++ cs') := by
  rcases h with heq | hsticks
  · rcases h' with heq' | hsticks'
    · exact .inl fun u => by rw [List.append_assoc, heq, heq']
    · refine .inr fun u => ?_
      obtain ⟨c, v, hv, hc⟩ := hsticks' u
      exact ⟨c, v, by rw [List.append_assoc, heq, hv], hc⟩
  · exact .inr fun u => by
      rw [List.append_assoc]
      exact hsticks _

/-- All characters of a word may stand between the brackets of parameters. -/
theorem IsWord.forall_isParameterChar {cs : List Char} (h : IsWord cs) :
    ∀ c ∈ cs, isParameterChar c = true := by
  have hplain {cs : List Char} (h : isPlainName cs = true) : ∀ c ∈ cs,
      isParameterChar c = true := by
    obtain ⟨c, cs, rfl, hc, hcs⟩ := exists_of_isPlainName h
    refine List.forall_mem_cons.2 ⟨?_, fun c hc => isParameterChar_of_isNameChar (hcs c hc)⟩
    exact isParameterChar_of_isNameChar (isNameChar_of_isNameStart hc)
  rcases h with h | ⟨cs, rfl, h⟩
  · exact hplain h
  · exact List.forall_mem_cons.2 ⟨rfl, hplain h⟩

/-- A name without unit might be a parameter, and one with a unit shows by its colon that it is
none. -/
theorem Ref.isItem_chars {r : Ref} (h : r.isNamed = true) : IsItem r.chars := by
  obtain ⟨unit, rawName⟩ := r
  obtain ⟨hunit, hname⟩ := Bool.and_eq_true_iff.1 h
  cases unit with
  | none => exact isItem_of_forall (isWord_of_isName hname).forall_isParameterChar
  | some unit =>
      have hchars : Ref.chars ⟨some unit, rawName⟩ ++ [] = _ := Ref.chars_qualified unit rawName
      rw [List.append_nil] at hchars
      rw [hchars]
      exact (isItem_of_forall (isWord_of_isName hunit).forall_isParameterChar).append
        (isItem_cons (by decide) rfl _)

namespace Node

/-- Every operand might be a parameter from its text, or shows that it is none. -/
theorem isItem_operand {n : Node} (hoperand : n.isOperand = true) (hn : n.isExpressible = true) :
    IsItem n.chars := by
  cases n with
  | function _ _ | tuple _ | list _ | map _ | string _ => exact isItem_cons (by decide) rfl _
  | application callee arguments =>
      exact (Ref.isItem_chars (Bool.and_eq_true_iff.1 hn).1).append (isItem_cons (by decide) rfl _)
  | numeric value =>
      cases value with
      | integer n =>
          have hdigit {c : Char} (h : c.isDigit = true) : isParameterChar c = true :=
            isParameterChar_of_isNameChar (by simp [isNameChar, Char.isAlphanum, h])
          rw [chars]
          rcases (isInteger_text n).1 with heq | ⟨sign, c, digits, heq, hsign, ⟨hc, -⟩, hdigits⟩
          · rw [heq]
            exact isItem_of_forall (List.forall_mem_singleton.2 rfl)
          · rw [heq]
            rcases hsign with rfl | rfl
            · exact isItem_of_forall
                (List.forall_mem_cons.2 ⟨hdigit hc, fun c hc => hdigit (hdigits c hc)⟩)
            · exact isItem_cons (by decide) rfl _
      | decimal _ | scientific _ => cases hn
  | boolean b => exact isItem_of_forall (isWord_boolText b).forall_isParameterChar
  | reference r => exact Ref.isItem_chars hn
  | operation _ _ | assignment _ _ | conditional _ _ _ => cases hoperand

/-- A printed expression is an item. -/
theorem isItem_chars {n : Node} (hexpr : n.isExpression = true)
    (hn : ∀ m ∈ n.inside, m.isExpressible = true) :
    IsItem n.chars := by
  obtain ⟨hhere, hbelow⟩ := forall_mem_inside hn
  cases n with
  | operation first chain =>
      obtain ⟨hleft, -⟩ := Bool.and_eq_true_iff.1 hhere
      obtain ⟨hne, hfirst⟩ := Bool.and_eq_true_iff.1 hleft
      have hexpressible := (forall_mem_inside (hbelow first List.mem_cons_self)).1
      obtain ⟨⟨op, operand⟩, chain, rfl⟩ := List.exists_cons_of_ne_nil (by simpa using hne)
      have hblank : IsItem [' '] := isItem_of_forall (List.forall_mem_singleton.2 rfl)
      refine (isItem_operand hfirst hexpressible).append (hblank.append ?_)
      cases op <;> exact isItem_cons (by decide) rfl _
  | assignment _ _ | conditional _ _ _ => cases hexpr
  | _ => exact isItem_operand rfl hhere

end Node

/-- Printed items up to the closing bracket could be of parameters, or show that they are not. -/
theorem afterParameters_separated {items : List (List Char)} (h : ∀ cs ∈ items, IsItem cs)
    (rest : List Char) :
    Sticks (separated [',', ' '] items ++ ')' :: rest) ∨
      afterParameters (separated [',', ' '] items ++ ')' :: rest) = ')' :: rest := by
  have hitems : IsItem (separated [',', ' '] items) := by
    induction items with
    | nil => exact isItem_of_forall (by simp [separated])
    | cons cs items ih =>
        have hcs := h cs List.mem_cons_self
        cases items with
        | nil => exact hcs
        | cons cs' items =>
            have hrest := ih fun cs hcs => h cs (List.mem_cons_of_mem _ hcs)
            exact (hcs.append (isItem_of_forall (forall_mem_of_all rfl))).append hrest
  rcases hitems with heq | hsticks
  · refine .inr ?_
    rw [heq]
    rfl
  · exact .inl (hsticks _)

/-- A printed tuple that no arrow follows is no function. -/
theorem parses_function_none_tuple {items : List (List Char)} (h : ∀ cs ∈ items, IsItem cs)
    {rest : List Char} (hrest : Boundary rest) :
    Parses table (.call .function) (bracketChars '(' items ')' ++ rest) none := by
  have hsplit : bracketChars '(' items ')' ++ rest =
      '(' :: (separated [',', ' '] items ++ ')' :: rest) := by
    simp [bracketChars]
  rw [hsplit]
  refine parses_function_none ((afterParameters_separated h rest).imp id fun heq => ?_)
  exact ⟨rest, heq, hrest.next_ne_comment, hrest.arrow⟩

end RiftLang
