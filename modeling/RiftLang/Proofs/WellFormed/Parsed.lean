import RiftLang.Proofs.Meaning.Builds
import RiftLang.Proofs.RoundTrip
import RiftLang.Proofs.WellFormed

/-!
# Parsed programs are well-formed

Why no other program is parsed: a repetition goes on as long as it can, and of several alternatives
a later one is tried only where the earlier ones fail.

* `Node.IsOperandAt`, `Node.IsExpressionAt` — an operand or an expression, with what could not be
  matched where it begins and where it ends.
* `Rule.Makes` — what each rule makes of the text that it takes, and `makes_of_takes`.
* `parse_isWellFormed` — every parsed program is well-formed.
-/

namespace RiftLang

open Peg

variable {s s' : List Char} {d : Derivation} {parts made : List Fragment}

/-! ## Failures -/

/-- A rule fails because what it stands for fails. -/
theorem parses_table_none {r : Rule} (h : Parses table (.call r) s none) :
    Parses table (table r) s none := by
  cases h with
  | call_fail h => exact h

/-- A choice fails because all its alternatives do. -/
theorem parses_none_of_choices {alternatives : List Peg}
    (h : Parses table (choices alternatives) s none) :
    ∀ e ∈ alternatives, Parses table e s none := by
  induction alternatives with
  | nil => exact List.forall_mem_nil _
  | cons e alternatives ih =>
      cases h with
      | choice_right he hrest => exact List.forall_mem_cons.2 ⟨he, ih hrest⟩

/-- What fails on what a matched expression leaves is why both fail in a row. -/
theorem parses_none_of_seq {a b : Peg} (h : Parses table (.seq a b) s none)
    (ha : Parses table a s (some (d, s'))) : Parses table b s' none := by
  cases h with
  | seq_fail_left hnone => cases ha.unique hnone
  | seq_fail_right ha' hb =>
      cases ha.unique ha'
      exact hb

/-! ## Names -/

/-- A repetition of characters stops where the test fails. -/
theorem exists_of_parses_star_one {test : Char → Bool}
    (h : Parses table (.star (.one test)) s (some (d, s'))) :
    (∀ c ∈ d.chars, test c = true) ∧ ∀ c ∈ s'.head?, test c = false := by
  have hchain : Chain (Shape table (fun _ _ _ _ => True) (.one test))
      (Parses table (.one test) · none) s d s' :=
    h.shape fun _ _ _ _ _ _ => trivial
  induction hchain with
  | nil hstop =>
      cases hstop with
      | one_fail hnone => exact ⟨List.forall_mem_nil _, hnone⟩
  | cons hitem hrest ih =>
      obtain ⟨c, -, hc, rfl⟩ := hitem
      obtain ⟨hcs, hend⟩ := ih (hrest.parses fun _ _ _ => Shape.parses)
      exact ⟨List.forall_mem_cons.2 ⟨hc, hcs⟩, hend⟩

/-- What is read as a name is a word, and the name ends there. -/
theorem isWord_of_parses (h : Parses table (seqs [opt (.char '@'), nameStart, .star nameChar])
    s (some (d, s'))) :
    IsWord d.chars ∧ EndsName s' := by
  rw [nameStart_eq, nameChar_eq] at h
  obtain ⟨mark, _, _, hmark, hname, rfl⟩ := parses_seq_iff.1 h
  obtain ⟨start, _, _, hstart, hrest, rfl⟩ := parses_seq_iff.1 hname
  obtain ⟨tail, _, _, htail, hempty, rfl⟩ := parses_seq_iff.1 hrest
  obtain ⟨rfl, rfl⟩ := parses_empty_iff.1 hempty
  obtain ⟨c, -, hc, rfl⟩ := parses_one_iff.1 hstart
  obtain ⟨hcs, hend⟩ := exists_of_parses_star_one htail
  have hplain : isPlainName (c :: (tail.chars ++ [])) = true := by
    rw [List.append_nil]
    exact Bool.and_eq_true_iff.2 ⟨hc, List.all_eq_true.2 hcs⟩
  rcases parses_choice_iff.1 hmark with hmark | ⟨-, hmark⟩
  · obtain ⟨c', -, hc', rfl⟩ := parses_one_iff.1 hmark
    obtain rfl : c' = '@' := eq_of_beq hc'
    exact ⟨.inr ⟨_, rfl, hplain⟩, hend⟩
  · obtain ⟨rfl, -⟩ := parses_empty_iff.1 hmark
    exact ⟨.inl hplain, hend⟩

/-- A word is spelled as a name. -/
theorem isSpelledName_of_isWord {cs : List Char} (h : IsWord cs) :
    isSpelledName (String.ofList cs) = true := by
  unfold isSpelledName
  rw [String.toList_ofList]
  rcases h with h | ⟨cs, rfl, h⟩
  · split
    · cases h
    · exact h
  · exact h

/-! ## What rules make -/

namespace Peg

/-- An operator with its right operand, as it goes on with a chain. -/
def link : Peg :=
  seqs [sp, call .operator, sp, call .operand]

end Peg

namespace Node

/-- An operand from a text up to a rest, with what could not be matched in its place. -/
structure IsOperandAt (n : Node) (s s' : List Char) : Prop where
  /-- The operand is well-formed. -/
  wellFormed : n.isWellFormedInside = true
  /-- It is of the sort of operands. -/
  operand : n.isOperand = true
  /-- A function whose body is an expression ends where no operator goes on. -/
  ends : n.isShortFunction = true → Parses table link s' none
  /-- An empty map would have been read as a block. -/
  block : n.opensWithEmptyMap = true → ∃ m, Parses table (.call .block) s (some m)

/-- An expression from a text up to a rest, with what could not be matched in its place. -/
structure IsExpressionAt (n : Node) (s s' : List Char) : Prop where
  /-- The expression is well-formed. -/
  wellFormed : n.isWellFormedInside = true
  /-- It is of the sort of expressions. -/
  expression : n.isExpression = true
  /-- No operator goes on with an expression. -/
  ends : Parses table link s' none
  /-- An empty map would have been read as a block. -/
  block : n.opensWithEmptyMap = true → ∃ m, Parses table (.call .block) s (some m)

end Node

/-- The fragment is a well-formed expression. -/
def Fragment.IsExpression (part : Fragment) : Prop :=
  ∃ n : Node, part = .node n ∧ n.isWellFormedInside = true ∧ n.isExpression = true

/-- The fragment is a well-formed line. -/
def Fragment.IsLine (part : Fragment) : Prop :=
  ∃ n : Node, part = .node n ∧ n.isWellFormedInside = true

/-- The fragment is a name without unit. -/
def Fragment.IsLocalName (part : Fragment) : Prop :=
  ∃ ref : Ref, part = .node (.reference ref) ∧ ref.isLocalSpelled = true

/-- The fragment is a well-formed entry. -/
def Fragment.IsEntry (part : Fragment) : Prop :=
  ∃ key value : Node, part = .entry key value ∧ (key.isWellFormedInside = true ∧ key.isKey = true) ∧
    value.isWellFormedInside = true ∧ value.isExpression = true

/-- What each rule makes of the text that it takes. -/
def Rule.Makes (r : Rule) (s : List Char) (parts : List Fragment) (s' : List Char) : Prop :=
  match r with
  | .source => ∃ rifts : List Rift, parts = rifts.map .rift ∧ (Source.mk rifts).isWellFormed = true
  | .rift => ∃ rift : Rift, parts = [.rift rift] ∧ rift.isWellFormed = true
  | .block => ∃ lines : List Node, parts = [.block lines] ∧
    ∀ line ∈ lines, line.isWellFormedInside = true
  | .line | .conditional | .assignment => ∃ part, parts = [part] ∧ part.IsLine
  | .expr | .operation => ∃ n, parts = [.node n] ∧ n.IsExpressionAt s s'
  | .operand | .value | .literal | .application | .function | .list | .map =>
    ∃ n, parts = [.node n] ∧ n.IsOperandAt s s'
  | .string | .numeric | .boolean => ∃ n, parts = [.node n] ∧ n.IsOperandAt s s' ∧ n.isKey = true
  | .tuple => ∃ items, parts = [.node (.tuple items)] ∧ (Node.tuple items).IsOperandAt s s'
  | .operator => ∃ op, parts = [.operator op]
  | .reference => ∃ ref : Ref, parts = [.node (.reference ref)] ∧ ref.isSpelled = true ∧
    ∃ rest, s = ref.first.toList ++ rest ∧ EndsName rest
  | .riftName | .localReference => ∃ cs, parts = [.node (.reference (.ofName (String.ofList cs)))] ∧
    IsWord cs ∧ s = cs ++ s' ∧ EndsName s'
  | .name => ∃ cs, parts = [.text (String.ofList cs)] ∧ IsWord cs ∧ s = cs ++ s' ∧ EndsName s'
  | .parameters => ∃ refs : List Ref, parts = [.arguments refs] ∧
    ∀ ref ∈ refs, ref.isLocalSpelled = true
  | .mapEntry => ∃ part, parts = [part] ∧ part.IsEntry
  | .mapKey => ∃ n, parts = [.node n] ∧ n.isWellFormedInside = true ∧ n.isKey = true
  | .stringChar | .stringEscape | .scientific | .decimal | .integer | .wholeNumber | .digit
  | .someSpace | .space | .comment | .blank => parts = []

/-! ### Names -/

/-- A name makes its text. -/
theorem makes_name (h : (table .name).Builds Rule.Makes s parts s') :
    Rule.Makes .name s parts s' := by
  obtain ⟨cs, d, hs, hd, rfl⟩ := h
  obtain ⟨hword, hend⟩ := isWord_of_parses hd
  obtain rfl : d.chars = cs := List.append_cancel_right (hd.eq_append.symm.trans hs)
  exact ⟨_, rfl, hword, hs, hend⟩

/-- A name without unit is a name and nothing else. -/
theorem exists_of_builds_localName
    (h : (seqs [.call .name, .action .attach]).Builds Rule.Makes s parts s') :
    Rule.Makes .name s parts s' := by
  obtain ⟨_, _, _, ⟨-, hname⟩, ⟨_, _, _, ⟨rfl, rfl⟩, ⟨rfl, rfl⟩, rfl⟩, rfl⟩ := h
  rw [List.append_nil, List.append_nil]
  exact hname

/-- The name of a rift makes a reference to it. -/
theorem makes_riftName (h : (table .riftName).Builds Rule.Makes s parts s')
    (hmade : construct .riftName parts = .ok made) : Rule.Makes .riftName s made s' := by
  obtain ⟨cs, rfl, hname⟩ := exists_of_builds_localName (builds_of_node h)
  obtain rfl := Except.ok.inj hmade
  exact ⟨cs, rfl, hname⟩

/-- A name without unit makes a reference to it. -/
theorem makes_localReference (h : (table .localReference).Builds Rule.Makes s parts s')
    (hmade : construct .localReference parts = .ok made) :
    Rule.Makes .localReference s made s' := by
  obtain ⟨cs, rfl, hname⟩ := exists_of_builds_localName (builds_of_node h)
  obtain rfl := Except.ok.inj hmade
  exact ⟨cs, rfl, hname⟩

/-- The reference made of a word has no unit, and is spelled as a name. -/
theorem isLocalSpelled_ofName {cs : List Char} (h : IsWord cs) :
    (Ref.ofName (String.ofList cs)).isLocalSpelled = true := by
  simp [Ref.isLocalSpelled, Ref.isLocal, Ref.isSpelled, Ref.ofName, isSpelledName_of_isWord h]

/-- A name with or without unit makes a reference that is spelled so, and the text begins with its
first component. -/
theorem makes_reference (h : (table .reference).Builds Rule.Makes s parts s')
    (hmade : construct .reference parts = .ok made) : Rule.Makes .reference s made s' := by
  obtain ⟨_, _, _, ⟨-, cs, rfl, hword, hs, hend⟩, ⟨_, _, _, ⟨rfl, rfl⟩, ⟨_, _, _, hunit, ⟨rfl, rfl⟩,
    rfl⟩, rfl⟩, rfl⟩ :=
    builds_of_node h
  have hfirst := isSpelledName_of_isWord hword
  rcases hunit with ⟨_, _, _, ⟨rfl, rfl⟩, ⟨_, _, _, ⟨_, -, -, rfl⟩,
    ⟨_, _, _, ⟨-, cs', rfl, hword', -⟩, ⟨_, _, _, ⟨rfl, rfl⟩, ⟨rfl, rfl⟩, rfl⟩, rfl⟩, rfl⟩, rfl⟩ |
    ⟨-, rfl, rfl⟩
  · obtain rfl := Except.ok.inj hmade
    refine ⟨_, rfl, ?_, _, ?_, hend⟩
    · simp [Ref.isSpelled, Ref.qualified, hfirst, isSpelledName_of_isWord hword']
    · simpa [Ref.first, Ref.qualified] using hs
  · obtain rfl := Except.ok.inj hmade
    refine ⟨_, rfl, ?_, _, ?_, hend⟩
    · simp [Ref.isSpelled, Ref.ofName, hfirst]
    · simpa [Ref.first, Ref.ofName] using hs

/-! ### Literals -/

/-- What is computed in two steps without an error is computed by the second from something. -/
theorem exists_of_bind_eq_ok {ε α β : Type} {x : Except ε α} {f : α → Except ε β} {b : β}
    (h : (x >>= f) = .ok b) : ∃ a, f a = .ok b := by
  rcases x with _ | a
  · cases h
  · exact ⟨a, h⟩

/-- A node that is neither a function nor a map nor an operation is an operand once it is
well-formed. -/
theorem Node.isOperandAt_of {n : Node} (hn : n.isWellFormedInside = true)
    (hoperand : n.isOperand = true) (hshort : n.isShortFunction = false)
    (hmap : n.opensWithEmptyMap = false) : n.IsOperandAt s s' where
  wellFormed := hn
  operand := hoperand
  ends h := absurd (hshort.symm.trans h) Bool.false_ne_true
  block h := absurd (hmap.symm.trans h) Bool.false_ne_true

/-- A node without children is well-formed inside if it is so itself. -/
theorem Node.isWellFormedInside_of_leaf {n : Node} (hn : n.isWellFormed = true)
    (hleaf : n.children = []) :
    n.isWellFormedInside = true := by
  refine isWellFormedInside_iff.2 ⟨hn, ?_⟩
  rw [hleaf]
  exact List.forall_mem_nil _

/-- A string makes a string, which may stand as an operand or a key. -/
theorem makes_string (h : (table .string).Builds Rule.Makes s parts s')
    (hmade : construct .string parts = .ok made) : Rule.Makes .string s made s' := by
  obtain ⟨_, _, _, ⟨_, -, -, rfl⟩, ⟨_, _, _, ⟨cs, _, -, -, rfl⟩, ⟨_, _, _, ⟨_, -, -, rfl⟩,
    ⟨_, _, _, ⟨rfl, -⟩, ⟨rfl, -⟩, rfl⟩, rfl⟩, rfl⟩, rfl⟩ := builds_of_node h
  obtain ⟨text, hmade⟩ := exists_of_bind_eq_ok hmade
  obtain rfl := Except.ok.inj hmade
  exact ⟨_, rfl, Node.isOperandAt_of (Node.isWellFormedInside_of_leaf rfl rfl) rfl rfl rfl, rfl⟩

/-- So does a number make a number. -/
theorem makes_numeric (h : (table .numeric).Builds Rule.Makes s parts s')
    (hmade : construct .numeric parts = .ok made) : Rule.Makes .numeric s made s' := by
  obtain ⟨_, _, _, ⟨cs, _, -, -, rfl⟩, ⟨_, _, _, ⟨rfl, -⟩, ⟨rfl, -⟩, rfl⟩, rfl⟩ := builds_of_node h
  obtain ⟨value, hmade⟩ := exists_of_bind_eq_ok hmade
  obtain rfl := Except.ok.inj hmade
  exact ⟨_, rfl, Node.isOperandAt_of (Node.isWellFormedInside_of_leaf rfl rfl) rfl rfl rfl, rfl⟩

/-- The word of a truth value makes that truth value. -/
theorem makes_boolean (h : (table .boolean).Builds Rule.Makes s parts s')
    (hmade : construct .boolean parts = .ok made) : Rule.Makes .boolean s made s' := by
  obtain ⟨_, _, _, ⟨cs, _, -, -, rfl⟩, ⟨_, _, _, ⟨-, rfl, -⟩, ⟨_, _, _, ⟨rfl, -⟩, ⟨rfl, -⟩, rfl⟩,
    rfl⟩, rfl⟩ :=
    builds_of_node h
  obtain ⟨value, hmade⟩ := exists_of_bind_eq_ok hmade
  obtain rfl := Except.ok.inj hmade
  exact ⟨_, rfl, Node.isOperandAt_of (Node.isWellFormedInside_of_leaf rfl rfl) rfl rfl rfl, rfl⟩

/-- An operator makes that operator. -/
theorem makes_operator (h : (table .operator).Builds Rule.Makes s parts s')
    (hmade : construct .operator parts = .ok made) : Rule.Makes .operator s made s' := by
  obtain ⟨_, _, _, ⟨cs, _, -, -, rfl⟩, ⟨_, _, _, ⟨rfl, -⟩, ⟨rfl, -⟩, rfl⟩, rfl⟩ := builds_of_node h
  obtain ⟨op, hmade⟩ := exists_of_bind_eq_ok hmade
  obtain rfl := Except.ok.inj hmade
  exact ⟨_, rfl⟩

/-! ### Items in brackets -/

/-- All that an expression makes is well-formed expressions. -/
theorem isExpression_of_makes_expr {parts : List Fragment} (h : Rule.Makes .expr s parts s') :
    ∀ part ∈ parts, part.IsExpression := by
  obtain ⟨n, rfl, hn⟩ := h
  exact List.forall_mem_singleton.2 ⟨n, rfl, hn.wellFormed, hn.expression⟩

/-- Layout makes nothing. -/
theorem forall_mem_of_makes_space {P : Fragment → Prop} {parts : List Fragment}
    (h : Rule.Makes .space s parts s') :
    ∀ part ∈ parts, P part := by
  obtain rfl : parts = [] := h
  exact List.forall_mem_nil _

/-- Between brackets only the items make something. -/
theorem allBuild_bracketed {P : Fragment → Prop} {opening closing : Char} {r : Rule}
    (hitem : ∀ s parts s', Rule.Makes r s parts s' → ∀ part ∈ parts, P part) :
    (seqs (bracketed opening (call r) closing)).AllBuild Rule.Makes P := by
  have hsp : ∀ s parts s', Rule.Makes .space s parts s' → ∀ part ∈ parts, P part :=
    fun _ _ _ => forall_mem_of_makes_space
  exact ⟨trivial, hsp, ⟨⟨hitem, ⟨hsp, trivial, hsp, hitem, trivial⟩, hsp, trivial⟩, trivial⟩,
    trivial, trivial⟩

/-- The items between brackets are well-formed expressions. -/
theorem forall_mem_of_bracketed {opening closing : Char}
    (h : (seqs (bracketed opening (call .expr) closing)).Builds Rule.Makes s parts s') :
    ∀ n ∈ parts.filterMap Fragment.node?, n.isWellFormedInside = true ∧ n.isExpression = true := by
  have hall : (seqs (bracketed opening (call .expr) closing)).AllBuild Rule.Makes
      Fragment.IsExpression :=
    allBuild_bracketed fun _ _ _ => isExpression_of_makes_expr
  refine hall.forall_mem_filterMap h ?_
  rintro _ ⟨_, rfl, hn⟩ n hnode
  obtain rfl := Option.some.inj hnode
  exact hn

/-- A tuple makes a tuple of well-formed expressions. -/
theorem makes_tuple (h : (table .tuple).Builds Rule.Makes s parts s')
    (hmade : construct .tuple parts = .ok made) : Rule.Makes .tuple s made s' := by
  have hitems := forall_mem_of_bracketed (builds_of_node h)
  obtain rfl := Except.ok.inj hmade
  refine ⟨_, rfl, Node.isOperandAt_of
    (Node.isWellFormedInside_iff.2 ⟨?_, fun n hn => (hitems n hn).1⟩) rfl rfl rfl⟩
  exact List.all_eq_true.2 fun n hn => (hitems n hn).2

/-- A list makes a list of well-formed expressions. -/
theorem makes_list (h : (table .list).Builds Rule.Makes s parts s')
    (hmade : construct .list parts = .ok made) : Rule.Makes .list s made s' := by
  have hitems := forall_mem_of_bracketed (builds_of_node h)
  obtain rfl := Except.ok.inj hmade
  refine ⟨_, rfl, Node.isOperandAt_of
    (Node.isWellFormedInside_iff.2 ⟨?_, fun n hn => (hitems n hn).1⟩) rfl rfl rfl⟩
  exact List.all_eq_true.2 fun n hn => (hitems n hn).2

/-- Parameters make names without unit. -/
theorem makes_parameters (h : (table .parameters).Builds Rule.Makes s parts s')
    (hmade : construct .parameters parts = .ok made) : Rule.Makes .parameters s made s' := by
  have hall : (seqs (bracketed '(' (call .localReference) ')')).AllBuild Rule.Makes
      Fragment.IsLocalName := by
    refine allBuild_bracketed fun s parts s' hname => ?_
    obtain ⟨cs, rfl, hword, -⟩ := hname
    exact List.forall_mem_singleton.2 ⟨_, rfl, isLocalSpelled_ofName hword⟩
  obtain rfl := Except.ok.inj hmade
  refine ⟨_, rfl, hall.forall_mem_filterMap (builds_of_node h) ?_⟩
  rintro _ ⟨_, rfl, href⟩ ref hpart
  obtain rfl := Option.some.inj hpart
  exact href

/-- An entry makes a key and a value. -/
theorem makes_mapEntry (h : (table .mapEntry).Builds Rule.Makes s parts s')
    (hmade : construct .mapEntry parts = .ok made) : Rule.Makes .mapEntry s made s' := by
  obtain ⟨_, _, _, ⟨-, key, rfl, hkey⟩, ⟨_, _, _, ⟨-, rfl⟩, ⟨_, _, _, ⟨_, -, -, rfl⟩,
    ⟨_, _, _, ⟨-, rfl⟩, ⟨_, _, _, ⟨-, value, rfl, hvalue⟩, ⟨rfl, rfl⟩, rfl⟩, rfl⟩, rfl⟩, rfl⟩,
    rfl⟩ := builds_of_node h
  obtain rfl := Except.ok.inj hmade
  exact ⟨_, rfl, key, value, rfl, hkey, hvalue.wellFormed, hvalue.expression⟩

/-- All that an entry makes is well-formed entries. -/
theorem isEntry_of_makes_mapEntry {parts : List Fragment} (h : Rule.Makes .mapEntry s parts s') :
    ∀ part ∈ parts, part.IsEntry := by
  obtain ⟨part, rfl, hpart⟩ := h
  exact List.forall_mem_singleton.2 hpart

/-- A map without entries reads as a block without lines. -/
theorem exists_block_of_emptyMap
    (h : (seqs (bracketed '{' (call .mapEntry) '}')).Builds Rule.Makes s parts s')
    (hparts : parts.filterMap Fragment.entry? = []) :
    ∃ m, Parses table (.call .block) s (some m) := by
  obtain ⟨_, s₁, _, ⟨c, rfl, hc, rfl⟩, ⟨_, s₂, _, ⟨hspace, rfl⟩,
    ⟨_, _, _, hentries, ⟨_, _, _, ⟨c', rfl, hc', rfl⟩, ⟨rfl, rfl⟩, rfl⟩, rfl⟩, rfl⟩, rfl⟩ := h
  obtain rfl : c = '{' := eq_of_beq hc
  obtain rfl : c' = '}' := eq_of_beq hc'
  rcases hentries with ⟨_, _, _, ⟨-, _, rfl, key, value, rfl, -⟩, -, rfl⟩ | ⟨-, rfl, rfl⟩
  · cases hparts
  · have hline : Parses table (seqs [call .line, choice (call .someSpace) (ahead (char '}'))])
        ('}' :: s') none :=
      parses_none_of_failsAt (by rfl)
    have hblock : Takes (call .block) ('{' :: s₁) [.block []] s' :=
      Takes.callNode rfl ((takes_char '{' s₁).after (hspace.after ((takes_star_nil hline).after
        (takes_char '}' s').last))) rfl
    obtain ⟨d, hd, -⟩ := hblock
    exact ⟨_, hd⟩

/-- A map makes a map of such entries. If it is empty, then its text is one that a block would have
been read from. -/
theorem makes_map (h : (table .map).Builds Rule.Makes s parts s')
    (hmade : construct .map parts = .ok made) : Rule.Makes .map s made s' := by
  have hall : (seqs (bracketed '{' (call .mapEntry) '}')).AllBuild Rule.Makes Fragment.IsEntry :=
    allBuild_bracketed fun _ _ _ => isEntry_of_makes_mapEntry
  have hsteps := builds_of_node h
  have hentries : ∀ entry ∈ parts.filterMap Fragment.entry?,
      (entry.1.isWellFormedInside = true ∧ entry.1.isKey = true) ∧
        entry.2.isWellFormedInside = true ∧ entry.2.isExpression = true := by
    refine hall.forall_mem_filterMap hsteps ?_
    rintro _ ⟨key, value, rfl, hkey, hvalue⟩ entry hpart
    obtain rfl := Option.some.inj hpart
    exact ⟨hkey, hvalue⟩
  obtain rfl := Except.ok.inj hmade
  refine ⟨_, rfl, Node.isWellFormedInside_iff.2 ⟨?_, fun n hn => ?_⟩, rfl,
    fun h => absurd h Bool.false_ne_true, fun hempty => ?_⟩
  · refine List.all_eq_true.2 fun entry hentry => ?_
    exact Bool.and_eq_true_iff.2 ⟨(hentries entry hentry).1.2, (hentries entry hentry).2.2⟩
  · obtain ⟨entry, hentry, hn⟩ := List.mem_flatMap.1 hn
    have hn : n = entry.1 ∨ n = entry.2 := by simpa using hn
    rcases hn with rfl | rfl
    · exact (hentries entry hentry).1.1
    · exact (hentries entry hentry).2.1
  · refine exists_block_of_emptyMap hsteps ?_
    rcases hparts : parts.filterMap Fragment.entry? with _ | ⟨entry, entries⟩
    · rfl
    · rw [hparts] at hempty
      cases hempty

/-! ### Operands -/

/-- A call makes a call of well-formed expressions. -/
theorem makes_application (h : (table .application).Builds Rule.Makes s parts s')
    (hmade : construct .application parts = .ok made) : Rule.Makes .application s made s' := by
  obtain ⟨_, _, _, ⟨-, callee, rfl, hcallee, -⟩, ⟨_, _, _, ⟨-, items, rfl, hitems⟩, ⟨rfl, rfl⟩,
    rfl⟩, rfl⟩ :=
    builds_of_node h
  obtain ⟨hitem, hchildren⟩ := Node.isWellFormedInside_iff.1 hitems.wellFormed
  obtain rfl := Except.ok.inj hmade
  refine ⟨_, rfl, Node.isOperandAt_of (Node.isWellFormedInside_iff.2 ⟨?_, hchildren⟩) rfl rfl rfl⟩
  exact Bool.and_eq_true_iff.2 ⟨hcallee, hitem⟩

/-- A function makes a function. If its body is an expression, then no operator follows, and the
body does not begin with an empty map, since that would have been read as a block first. -/
theorem makes_function (h : (table .function).Builds Rule.Makes s parts s')
    (hmade : construct .function parts = .ok made) : Rule.Makes .function s made s' := by
  obtain ⟨_, _, _, ⟨-, refs, rfl, hrefs⟩, ⟨_, _, _, ⟨-, rfl⟩,
    ⟨_, _, _, ⟨-, rfl⟩, ⟨_, s₁, _, ⟨-, rfl⟩, ⟨_, _, _, hbody, ⟨rfl, rfl⟩, rfl⟩, rfl⟩, rfl⟩, rfl⟩,
    rfl⟩ := builds_of_node h
  have hparameters : refs.all Ref.isLocalSpelled = true := List.all_eq_true.2 hrefs
  rcases hbody with ⟨-, lines, rfl, hlines⟩ | ⟨hblock, ⟨-, value, rfl, hvalue⟩ | ⟨-, hfail⟩⟩
  · obtain rfl := Except.ok.inj hmade
    refine ⟨_, rfl, Node.isOperandAt_of (Node.isWellFormedInside_iff.2 ⟨?_, hlines⟩) rfl rfl rfl⟩
    exact Bool.and_eq_true_iff.2 ⟨hparameters, rfl⟩
  · obtain rfl := Except.ok.inj hmade
    -- Had the value begun with an empty map, the block before it would have matched.
    have hmap : value.opensWithEmptyMap = false := by
      rw [← Bool.not_eq_true]
      intro hmap
      obtain ⟨m, hm⟩ := hvalue.block hmap
      cases hm.unique hblock
    refine ⟨_, rfl, Node.isWellFormedInside_iff.2 ⟨?_, ?_⟩, rfl, fun _ => hvalue.ends,
      fun h => absurd h Bool.false_ne_true⟩
    · refine Bool.and_eq_true_iff.2 ⟨hparameters, ?_⟩
      simp [hvalue.expression, hmap]
    · exact List.forall_mem_singleton.2 hvalue.wellFormed
  · exact hfail.elim

/-- A name read where no boolean could be read is none of the words for truth values. -/
theorem not_mem_truthWords {name : String} {rest : List Char}
    (hnone : Parses table (.call .boolean) s none) (hs : s = name.toList ++ rest)
    (hend : EndsName rest) : truthWords.contains name = false := by
  have hne : ∀ b, name ≠ boolText b := by
    rintro b rfl
    exact (takes_boolean b hend).not_none (hs ▸ hnone)
  simp [truthWords, hne]

/-- A literal makes what its alternative makes. -/
theorem makes_literal (h : (table .literal).Builds Rule.Makes s parts s') :
    Rule.Makes .literal s parts s' := by
  rcases h with h | ⟨-, h | ⟨-, h | ⟨-, h | ⟨-, h | ⟨-, h | ⟨-, h | ⟨-, h⟩⟩⟩⟩⟩⟩⟩
  · exact h.2
  · obtain ⟨-, items, rfl, hitems⟩ := h
    exact ⟨_, rfl, hitems⟩
  · exact h.2
  · exact h.2
  · obtain ⟨-, n, rfl, hn, -⟩ := h
    exact ⟨n, rfl, hn⟩
  · obtain ⟨-, n, rfl, hn, -⟩ := h
    exact ⟨n, rfl, hn⟩
  · obtain ⟨-, n, rfl, hn, -⟩ := h
    exact ⟨n, rfl, hn⟩
  · exact h.elim

/-- A name is an operand where no truth value could be read in its place. -/
theorem isOperandAt_reference {ref : Ref} {rest : List Char} (hspelled : ref.isSpelled = true)
    (hs : s = ref.first.toList ++ rest) (hend : EndsName rest)
    (hnone : Parses table (.call .boolean) s none) :
    (Node.reference ref).IsOperandAt s s' := by
  refine Node.isOperandAt_of (Node.isWellFormedInside_of_leaf ?_ rfl) rfl rfl rfl
  refine Bool.and_eq_true_iff.2 ⟨hspelled, ?_⟩
  rw [not_mem_truthWords hnone hs hend]
  rfl

/-- A value makes what its alternative makes: a literal or, where there is none, a name. -/
theorem makes_value (h : (table .value).Builds Rule.Makes s parts s') :
    Rule.Makes .value s parts s' := by
  rcases h with h | ⟨hliteral, ⟨-, ref, rfl, hspelled, rest, hs, hend⟩ | ⟨-, h⟩⟩
  · exact h.2
  · -- A name is read where every literal fails, a boolean among them.
    have hnone : Parses table (.call .boolean) s none :=
      parses_none_of_choices (parses_table_none hliteral) _ (by simp)
    exact ⟨_, rfl, isOperandAt_reference hspelled hs hend hnone⟩
  · exact h.elim

/-- An operand makes what its alternative makes. -/
theorem makes_operand (h : (table .operand).Builds Rule.Makes s parts s') :
    Rule.Makes .operand s parts s' := by
  rcases h with h | ⟨-, h | ⟨-, h⟩⟩
  · exact h.2
  · exact h.2
  · exact h.elim

/-- A key makes what its alternative makes. -/
theorem makes_mapKey (h : (table .mapKey).Builds Rule.Makes s parts s') :
    Rule.Makes .mapKey s parts s' := by
  rcases h with h | ⟨-, h | ⟨-, h | ⟨hnone, h | ⟨-, h⟩⟩⟩⟩
  · obtain ⟨-, n, rfl, hn, hkey⟩ := h
    exact ⟨n, rfl, hn.wellFormed, hkey⟩
  · obtain ⟨-, n, rfl, hn, hkey⟩ := h
    exact ⟨n, rfl, hn.wellFormed, hkey⟩
  · obtain ⟨-, n, rfl, hn, hkey⟩ := h
    exact ⟨n, rfl, hn.wellFormed, hkey⟩
  · obtain ⟨-, cs, rfl, hword, hs, hend⟩ := h
    have hspelled : (Ref.ofName (String.ofList cs)).isSpelled = true :=
      (Bool.and_eq_true_iff.1 (isLocalSpelled_ofName hword)).2
    have hfirst : s = (Ref.ofName (String.ofList cs)).first.toList ++ s' := by
      simpa [Ref.first, Ref.ofName] using hs
    have hoperand : (Node.reference (Ref.ofName (String.ofList cs))).IsOperandAt s s' :=
      isOperandAt_reference hspelled hfirst hend hnone
    exact ⟨_, rfl, hoperand.wellFormed, rfl⟩
  · exact h.elim

/-! ### Expressions -/

/-- An operand is an expression where no operator goes on. -/
theorem Node.IsOperandAt.isExpressionAt {n : Node} (h : n.IsOperandAt s s')
    (hends : Parses table link s' none) :
    n.IsExpressionAt s s' where
  wellFormed := h.wellFormed
  expression := by
    have hoperand := h.operand
    cases n <;> first | rfl | cases hoperand
  ends := hends
  block := h.block

/-- Where an operand is no operation, no operator goes on with it. -/
theorem parses_link_none (hnone : Parses table (.call .operation) s none)
    (hoperand : Parses table (.call .operand) s (some (d, s'))) : Parses table link s' none := by
  have hchain : Parses table (.seq (.plus link) (seqs [.action .finish])) s' none :=
    parses_none_of_seq (parses_none_of_seq (parses_table_none hnone) .action) hoperand
  cases hchain with
  | seq_fail_left h =>
    cases h with
    | plus_fail h => exact h
  | seq_fail_right _ hfinish => exact absurd hfinish (takes_action.last).not_none

/-- An expression makes an operation or, where none could be read, an operand. -/
theorem makes_expr (h : (table .expr).Builds Rule.Makes s parts s') :
    Rule.Makes .expr s parts s' := by
  rcases h with h | ⟨hoperation, h | ⟨happlication, h | ⟨-, h⟩⟩⟩
  · exact h.2
  · obtain ⟨⟨d, hd, -⟩, n, rfl, hn⟩ := h
    exact ⟨n, rfl, hn.isExpressionAt (parses_link_none hoperation (.call (.choice_left hd)))⟩
  · obtain ⟨⟨d, hd, -⟩, n, rfl, hn⟩ := h
    exact ⟨n, rfl, hn.isExpressionAt (parses_link_none hoperation
      (.call (.choice_right happlication (.choice_left hd))))⟩
  · exact h.elim

/-- What operators and operands in turn make of the text after a first operand. -/
structure IsChain (first : Node) (rest : List (BinaryOperator × Node)) (s' : List Char) : Prop where
  /-- All operands are well-formed. -/
  wellFormed : ∀ n ∈ Node.operands first rest, n.isWellFormedInside = true
  /-- All are of the sort of operands. -/
  operands : ∀ n ∈ Node.operands first rest, n.isOperand = true
  /-- A function whose body is an expression would have taken what follows it. -/
  short : ∀ n ∈ (Node.operands first rest).dropLast, n.isShortFunction = false
  /-- The chain goes on as long as it can. -/
  ends : Parses table link s' none

/-- Operators with operands in a row make a chain that goes on as long as it can. The induction is
on the row, with the operand before it. -/
theorem exists_chain_of_row {s₁ : List Char} {first : Node}
    (h : Row (link.Builds Rule.Makes) (Parses table link · none) s₁ parts s')
    (hfirst : first.IsOperandAt s s₁) :
    ∃ rest : List (BinaryOperator × Node),
      parts = (rest.flatMap fun link => [.operator link.1, .node link.2]) ∧
      IsChain first rest s' := by
  induction h generalizing s first with
  | nil hstop =>
      refine ⟨[], rfl, ?_, ?_, List.forall_mem_nil _, hstop⟩
      · exact List.forall_mem_singleton.2 hfirst.wellFormed
      · exact List.forall_mem_singleton.2 hfirst.operand
  | cons hlink _ ih =>
      -- An operator goes on here, so the operand before it is no function that would have taken it.
      have hmatched := hlink.takes.not_none
      obtain ⟨_, _, _, ⟨-, rfl⟩, ⟨_, _, _, ⟨-, op, rfl⟩,
        ⟨_, _, _, ⟨-, rfl⟩, ⟨_, _, _, ⟨-, operand, rfl, hoperand⟩, ⟨rfl, rfl⟩, rfl⟩, rfl⟩, rfl⟩,
        rfl⟩ := hlink
      obtain ⟨rest, rfl, hrest⟩ := ih hoperand
      have hshort : first.isShortFunction = false := by
        rw [← Bool.not_eq_true]
        exact fun hshort => hmatched (hfirst.ends hshort)
      refine ⟨(op, operand) :: rest, rfl, ?_, ?_, ?_, hrest.ends⟩
      · exact List.forall_mem_cons.2 ⟨hfirst.wellFormed, hrest.wellFormed⟩
      · exact List.forall_mem_cons.2 ⟨hfirst.operand, hrest.operands⟩
      · exact List.forall_mem_cons.2 ⟨hshort, hrest.short⟩

/-- An operation begins with what its first operand begins with. -/
theorem Node.opensWithEmptyMap_operation {first : Node} (h : first.isOperand = true)
    (rest : List (BinaryOperator × Node)) :
    (operation first rest).opensWithEmptyMap = first.opensWithEmptyMap := by
  cases first <;> first | rfl | cases h

/-- An operation makes an operation with one operator at least, and none of its operands but the
last is a function that would have taken what follows it. -/
theorem makes_operation (h : (table .operation).Builds Rule.Makes s parts s')
    (hmade : construct .operation parts = .ok made) : Rule.Makes .operation s made s' := by
  obtain ⟨_, _, _, ⟨-, first, rfl, hfirst⟩, ⟨_, _, _, ⟨_, _, _, hlink, hrow, rfl⟩, ⟨rfl, rfl⟩,
    rfl⟩, rfl⟩ :=
    builds_of_node h
  obtain ⟨rest, hrest, hchain⟩ := exists_chain_of_row (.cons hlink hrow) hfirst
  have hne : rest ≠ [] := by
    rintro rfl
    obtain ⟨_, _, _, ⟨-, rfl⟩, ⟨_, _, _, ⟨-, op, rfl⟩, -, rfl⟩, rfl⟩ := hlink
    cases hrest
  rw [hrest, List.append_nil, List.singleton_append, construct, operandChain_flatMap] at hmade
  obtain rfl := Except.ok.inj hmade
  refine ⟨_, rfl, Node.isWellFormedInside_iff.2 ⟨?_, hchain.wellFormed⟩, rfl, hchain.ends, ?_⟩
  · refine Bool.and_eq_true_iff.2 ⟨Bool.and_eq_true_iff.2 ⟨by simpa using hne, ?_⟩, ?_⟩
    · exact List.all_eq_true.2 hchain.operands
    · exact List.all_eq_true.2 fun n hn => by simp [hchain.short n hn]
  · rw [Node.opensWithEmptyMap_operation hfirst.operand]
    exact hfirst.block

/-! ### Lines -/

/-- A conditional makes a conditional of well-formed lines. -/
theorem makes_conditional (h : (table .conditional).Builds Rule.Makes s parts s')
    (hmade : construct .conditional parts = .ok made) : Rule.Makes .conditional s made s' := by
  obtain ⟨_, _, _, ⟨-, rfl⟩, ⟨_, _, _, ⟨-, rfl, -⟩,
    ⟨_, _, _, ⟨-, rfl⟩, ⟨_, _, _, ⟨-, condition, rfl, hcondition⟩, ⟨_, _, _, ⟨-, rfl⟩,
    ⟨_, _, _, ⟨-, lines, rfl, hlines⟩, ⟨_, _, _, hbranch, ⟨rfl, rfl⟩, rfl⟩, rfl⟩, rfl⟩, rfl⟩,
    rfl⟩, rfl⟩, rfl⟩ := builds_of_node h
  rcases hbranch with ⟨_, _, _, ⟨-, rfl⟩, ⟨_, _, _, ⟨-, rfl⟩,
    ⟨_, _, _, ⟨-, rfl⟩, ⟨_, _, _, ⟨-, otherwise, rfl, hotherwise⟩, ⟨_, _, _, ⟨rfl, -⟩, ⟨rfl, -⟩,
    rfl⟩, rfl⟩, rfl⟩, rfl⟩, rfl⟩ | ⟨-, rfl, -⟩
  · obtain rfl := Except.ok.inj hmade
    refine ⟨_, rfl, _, rfl, Node.isWellFormedInside_iff.2 ⟨hcondition.expression, ?_⟩⟩
    exact List.forall_mem_cons.2 ⟨hcondition.wellFormed,
      List.forall_mem_append.2 ⟨hlines, hotherwise⟩⟩
  · obtain rfl := Except.ok.inj hmade
    refine ⟨_, rfl, _, rfl, Node.isWellFormedInside_iff.2 ⟨hcondition.expression, ?_⟩⟩
    exact List.forall_mem_cons.2 ⟨hcondition.wellFormed,
      List.forall_mem_append.2 ⟨hlines, List.forall_mem_nil _⟩⟩

/-- An assignment makes a value assigned to a name without unit. -/
theorem makes_assignment (h : (table .assignment).Builds Rule.Makes s parts s')
    (hmade : construct .assignment parts = .ok made) : Rule.Makes .assignment s made s' := by
  obtain ⟨_, _, _, ⟨-, cs, rfl, hword, -⟩, ⟨_, _, _, ⟨-, rfl⟩, ⟨_, _, _, ⟨_, -, -, rfl⟩,
    ⟨_, _, _, ⟨-, rfl, -⟩, ⟨_, _, _, ⟨-, rfl⟩, ⟨_, _, _, ⟨-, value, rfl, hvalue⟩, ⟨rfl, rfl⟩, rfl⟩,
    rfl⟩, rfl⟩, rfl⟩, rfl⟩, rfl⟩ :=
    builds_of_node h
  obtain rfl := Except.ok.inj hmade
  refine ⟨_, rfl, _, rfl, Node.isWellFormedInside_iff.2 ⟨?_,
    List.forall_mem_singleton.2 hvalue.wellFormed⟩⟩
  exact Bool.and_eq_true_iff.2 ⟨isLocalSpelled_ofName hword, hvalue.expression⟩

/-- A line makes what its alternative makes. -/
theorem makes_line (h : (table .line).Builds Rule.Makes s parts s') :
    Rule.Makes .line s parts s' := by
  rcases h with h | ⟨-, h | ⟨-, h | ⟨-, h⟩⟩⟩
  · exact h.2
  · exact h.2
  · obtain ⟨-, n, rfl, hn⟩ := h
    exact ⟨_, rfl, n, rfl, hn.wellFormed⟩
  · exact h.elim

/-- A block makes well-formed lines. -/
theorem makes_block (h : (table .block).Builds Rule.Makes s parts s')
    (hmade : construct .block parts = .ok made) : Rule.Makes .block s made s' := by
  have hall :
      (seqs [char '{', sp, star (seqs [call .line, choice (call .someSpace) (ahead (char '}'))]),
      char '}']).AllBuild Rule.Makes Fragment.IsLine := by
    have hline : ∀ s parts s', Rule.Makes .line s parts s' → ∀ part ∈ parts, part.IsLine := by
      rintro _ _ _ ⟨part, rfl, hpart⟩
      exact List.forall_mem_singleton.2 hpart
    have hsp : ∀ s parts s', Rule.Makes .space s parts s' → ∀ part ∈ parts, part.IsLine :=
      fun _ _ _ => forall_mem_of_makes_space
    exact ⟨trivial, hsp, ⟨hline, ⟨hsp, trivial⟩, trivial⟩, trivial, trivial⟩
  obtain rfl := Except.ok.inj hmade
  refine ⟨_, rfl, hall.forall_mem_filterMap (builds_of_node h) ?_⟩
  rintro _ ⟨_, rfl, hn⟩ n hnode
  obtain rfl := Option.some.inj hnode
  exact hn

/-! ### Programs -/

/-- A rift makes a rift with a name without unit and well-formed lines. -/
theorem makes_rift (h : (table .rift).Builds Rule.Makes s parts s')
    (hmade : construct .rift parts = .ok made) : Rule.Makes .rift s made s' := by
  obtain ⟨_, _, _, ⟨-, cs, rfl, hword, -⟩, ⟨_, _, _, ⟨-, rfl⟩, ⟨_, _, _, ⟨-, rfl⟩,
    ⟨_, _, _, ⟨-, rfl⟩, ⟨_, _, _, ⟨-, lines, rfl, hlines⟩, ⟨rfl, rfl⟩, rfl⟩, rfl⟩, rfl⟩, rfl⟩,
    rfl⟩ := builds_of_node h
  obtain rfl := Except.ok.inj hmade
  exact ⟨_, rfl, Bool.and_eq_true_iff.2 ⟨isLocalSpelled_ofName hword, List.all_eq_true.2 hlines⟩⟩

/-- Rifts with layout between them make well-formed rifts. -/
theorem exists_rifts_of_row {stop : List Char → Prop}
    (h : Row ((seqs [call .rift, sp]).Builds Rule.Makes) stop s parts s') :
    ∃ rifts : List Rift, parts = rifts.map .rift ∧ ∀ rift ∈ rifts, rift.isWellFormed = true := by
  induction h with
  | nil _ => exact ⟨[], rfl, List.forall_mem_nil _⟩
  | cons hitem _ ih =>
      obtain ⟨_, _, _, ⟨-, rift, rfl, hrift⟩, ⟨_, _, _, ⟨-, rfl⟩, ⟨rfl, rfl⟩, rfl⟩, rfl⟩ := hitem
      obtain ⟨rifts, rfl, hrifts⟩ := ih
      exact ⟨rift :: rifts, rfl, List.forall_mem_cons.2 ⟨hrift, hrifts⟩⟩

/-- A source makes one rift at least, and nothing else. -/
theorem makes_source (h : (table .source).Builds Rule.Makes s parts s') :
    Rule.Makes .source s parts s' := by
  obtain ⟨_, _, _, ⟨-, rfl⟩, ⟨_, _, _, ⟨_, _, _, hfirst, hrow, rfl⟩, ⟨_, _, _, ⟨-, rfl, -⟩,
    ⟨rfl, -⟩, rfl⟩, rfl⟩, rfl⟩ := h
  obtain ⟨_, _, _, ⟨-, rift, rfl, hrift⟩, ⟨_, _, _, ⟨-, rfl⟩, ⟨rfl, rfl⟩, rfl⟩, rfl⟩ := hfirst
  obtain ⟨rifts, rfl, hrifts⟩ := exists_rifts_of_row hrow
  refine ⟨rift :: rifts, by simp, ?_⟩
  exact List.all_eq_true.2 (List.forall_mem_cons.2 ⟨hrift, hrifts⟩)

/-- A rule makes what it is said to make of the text that it takes. -/
theorem makes_of_takes {r : Rule} (h : Takes (.call r) s parts s') : r.Makes s parts s' := by
  refine Takes.rule_induction (Q := Rule.Makes) ?_ h
  intro r s parts made s' hbuilds hmade htakes
  cases r with
  | rift => exact makes_rift hbuilds hmade
  | riftName => exact makes_riftName hbuilds hmade
  | localReference => exact makes_localReference hbuilds hmade
  | reference => exact makes_reference hbuilds hmade
  | block => exact makes_block hbuilds hmade
  | conditional => exact makes_conditional hbuilds hmade
  | assignment => exact makes_assignment hbuilds hmade
  | operation => exact makes_operation hbuilds hmade
  | operator => exact makes_operator hbuilds hmade
  | application => exact makes_application hbuilds hmade
  | function => exact makes_function hbuilds hmade
  | parameters => exact makes_parameters hbuilds hmade
  | tuple => exact makes_tuple hbuilds hmade
  | list => exact makes_list hbuilds hmade
  | map => exact makes_map hbuilds hmade
  | mapEntry => exact makes_mapEntry hbuilds hmade
  | string => exact makes_string hbuilds hmade
  | numeric => exact makes_numeric hbuilds hmade
  | boolean => exact makes_boolean hbuilds hmade
  | source | line | expr | operand | value | name | literal | mapKey =>
      obtain rfl := Except.ok.inj hmade
      first
        | exact makes_source hbuilds
        | exact makes_line hbuilds
        | exact makes_expr hbuilds
        | exact makes_operand hbuilds
        | exact makes_value hbuilds
        | exact makes_name hbuilds
        | exact makes_literal hbuilds
        | exact makes_mapKey hbuilds
  | decimal | scientific =>
      obtain ⟨ms, hyields⟩ := exists_yields_of_takes htakes
      exact hyields
  | stringChar | stringEscape | integer | wholeNumber | digit | someSpace | space
  | comment | blank =>
      obtain ⟨ms, hyields⟩ := exists_yields_of_takes htakes
      exact hyields.1

/-- Every parsed program is well-formed. -/
theorem parse_isWellFormed {config : Config} {source : String} {program : Source}
    (h : parse config source = .ok program) : program.isWellFormed = true := by
  rcases hrecognize : recognize config source with e | r
  · rw [parse, hrecognize] at h
    cases h
  obtain ⟨d, hd, rfl⟩ := recognize_eq_ok_iff.1 hrecognize
  rw [parse_eq_program hd, Derivation.program] at h
  rcases hparts : d.fragments with e | parts
  · rw [hparts] at h
    cases h
  · obtain ⟨rifts, rfl, hprogram⟩ : Rule.Makes .source source.toList parts [] :=
      makes_of_takes ⟨d, hd, hparts⟩
    rw [hparts, Except.map, Fragment.filterMap_rift?_map] at h
    obtain rfl := Except.ok.inj h
    exact hprogram

set_option maxRecDepth 100000 in
/-- The operator goes on with the body of the function, and a name may be called like a truth
value. -/
theorem parse_isWellFormed_greedy :
    ∃ program, parse {} "a => \x7b () -> x + y \x7bk : true(1)\x7d \x7b\x7d \x7d" = .ok program ∧
      program.lisp = "(rift (reference a) (block " ++
        "(function-definition (arguments) (operation (reference x) + (reference y))) " ++
        "(map (map-entry (reference k) (function-apply (reference true) (tuple (numeric 1))))) (map)))" ∧
      program.isWellFormed = true := by
  have hall : ∀ (source lisp : String),
      ((Peg.call .source).run table 200 source.toList).map
        (·.map fun m => (m.1.program.toOption.map Source.lisp, m.2)) = some (some (some lisp, [])) →
      ∃ program, parse {} source = .ok program ∧ program.lisp = lisp ∧
        program.isWellFormed = true := by
    intro source lisp hrun
    obtain ⟨d, hd, hlisp⟩ :=
      exists_parses_of_run (f := fun d => d.program.toOption.map Source.lisp) hrun
    rcases hprogram : d.program with e | program
    · rw [hprogram] at hlisp
      cases hlisp
    · have hparse : parse {} source = .ok program := by
        rw [parse_eq_program hd, hprogram]
        rfl
      rw [hprogram] at hlisp
      exact ⟨program, hparse, Option.some.inj hlisp, parse_isWellFormed hparse⟩
  exact hall _ _ (by decide +kernel)

end RiftLang
