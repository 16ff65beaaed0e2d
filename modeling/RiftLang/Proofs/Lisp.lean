import RiftLang.Proofs.Concatenation
import RiftLang.Proofs.Sexp

/-!
# Programs in Lisp form

The Lisp form of a parsed program tells the program, as long as its numbers are integers.

* `Ref.ofText`, `Node.ofSexp?`, `Rift.ofSexp?` — the tree of an expression, by the kind that its
  head names.
* `Source.ofLisp?` — the program of a text.
* `Source.ofLisp?_lisp` — a well-formed program is read back from its Lisp form.
* `lisp_identifies` — parsed programs of one Lisp form are equal.

What is not written has to show elsewhere. A conditional without a second block has one part less,
and a body that is a block has the head of blocks, which no node has. Names are written bare: that
they hold no blanks, parentheses or quotes, and no colon, is what the grammar lets a name be.
-/

namespace RiftLang

open Sexp (IsReadable AreReadable)

/-! ## Reading trees -/

/-- The name of a text; what stands before a colon is the unit. -/
def Ref.ofText (text : String) : Ref :=
  match text.toList.dropWhile (· != ':') with
  | [] => .ofName text
  | _ :: rest => .qualified (String.ofList (text.toList.takeWhile (· != ':'))) (String.ofList rest)

/-- The name of an expression. -/
def Ref.ofSexp? : Sexp → Option Ref
  | .form "reference" [.atom text] => some (.ofText text)
  | _ => none

namespace Node

mutual

/-- The node of an expression. -/
def ofSexp? : Sexp → Option Node
  | .atom _ => none
  | .form head parts =>
    match NodeKind.ofText? head, parts with
    | some .functionDefinition, [.form "arguments" parameters, .form "block" lines] => do
      return .function (← parameters.mapM Ref.ofSexp?) (.block (← nodesOfSexps? lines))
    | some .functionDefinition, [.form "arguments" parameters, value] => do
      return .function (← parameters.mapM Ref.ofSexp?) (.expr (← ofSexp? value))
    | some .functionApply, [callee, .form "tuple" arguments] => do
      return .application (← Ref.ofSexp? callee) (← nodesOfSexps? arguments)
    | some .tuple, items => return .tuple (← nodesOfSexps? items)
    | some .list, items => return .list (← nodesOfSexps? items)
    | some .map, entries => return .map (← entriesOfSexps? entries)
    | some .assignment, [target, value] => do
      return .assignment (← Ref.ofSexp? target) (← ofSexp? value)
    | some .conditional, condition :: .form "block" lines :: otherwise => do
      return .conditional (← ofSexp? condition) (← nodesOfSexps? lines)
        (← otherwiseOfSexps? otherwise)
    | some .string, [.atom text] => return .string (← unquote? text)
    | some .numeric, [.atom text] => return .numeric (← (readNumeral text.toList).toOption)
    | some .boolean, [.atom text] => return .boolean (← (readBoolean text).toOption)
    | some .reference, [.atom text] => return .reference (.ofText text)
    | some .operation, first :: rest => return .operation (← ofSexp? first) (← chainOfSexps? rest)
    | _, _ => none

/-- The nodes of several expressions. -/
def nodesOfSexps? : List Sexp → Option (List Node)
  | [] => some []
  | item :: rest => return (← ofSexp? item) :: (← nodesOfSexps? rest)

/-- The entries of a map. -/
def entriesOfSexps? : List Sexp → Option (List (Node × Node))
  | [] => some []
  | .form "map-entry" [key, value] :: rest =>
    return (← ofSexp? key, ← ofSexp? value) :: (← entriesOfSexps? rest)
  | _ => none

/-- The pairs of an operator and an operand. -/
def chainOfSexps? : List Sexp → Option (List (BinaryOperator × Node))
  | [] => some []
  | .atom op :: operand :: rest =>
    return (← BinaryOperator.ofText? op, ← ofSexp? operand) :: (← chainOfSexps? rest)
  | _ => none

/-- The second block of a conditional, if there is one. -/
def otherwiseOfSexps? : List Sexp → Option (Option (List Node))
  | [] => some none
  | [.form "block" lines] => return some (← nodesOfSexps? lines)
  | _ => none

end

end Node

/-- The rift of an expression. -/
def Rift.ofSexp? : Sexp → Option Rift
  | .form "rift" [name, .form "block" lines] =>
    return { name := ← Ref.ofSexp? name, lines := ← Node.nodesOfSexps? lines }
  | _ => none

/-! ## Names are read back -/

/-- A name is spelled with the characters of names, and perhaps an `@`. -/
theorem forall_mem_of_isSpelledName {name : String} (h : isSpelledName name = true) :
    ∀ c ∈ name.toList, isNameChar c = true ∨ c = '@' := by
  have hplain : ∀ {cs : List Char}, isPlainName cs = true → ∀ c ∈ cs, isNameChar c = true := by
    intro cs hcs
    obtain ⟨c, cs, rfl, hc, hall⟩ := exists_of_isPlainName hcs
    exact List.forall_mem_cons.2 ⟨isNameChar_of_isNameStart hc, hall⟩
  unfold isSpelledName at h
  split at h
  · next cs heq =>
      rw [heq]
      exact List.forall_mem_cons.2 ⟨.inr rfl, fun c hc => .inl (hplain h c hc)⟩
  · exact fun c hc => .inl (hplain h c hc)

/-- A name has at least one character. -/
theorem ne_nil_of_isSpelledName {name : String} (h : isSpelledName name = true) :
    name.toList ≠ [] := by
  intro hnil
  simp [isSpelledName, hnil, isPlainName] at h

/-- No name has a colon in it, so the first colon of a text is the one between unit and name. -/
theorem ne_colon_of_isSpelledName {name : String} (h : isSpelledName name = true) :
    ∀ c ∈ name.toList, (c != ':') = true := by
  intro c hc
  rcases forall_mem_of_isSpelledName h c hc with hc | rfl
  · exact bne_iff_ne.2 (ne_of_isNameChar hc rfl)
  · rfl

/-- The characters of names need no quotes. -/
theorem isBareChar_of_isNameChar {c : Char} (h : isNameChar c = true) : isBareChar c = true := by
  have hne (d : Char) (hd : isNameChar d = false) : (c != d) = true :=
    bne_iff_ne.2 (ne_of_isNameChar h hd)
  simp only [isBareChar, hne ' ' rfl, hne '\n' rfl, hne '(' rfl, hne ')' rfl, hne '"' rfl,
    Bool.and_self]

/-- No character of a name needs quotes. -/
theorem isBareChar_of_isSpelledName {name : String} (h : isSpelledName name = true) :
    ∀ c ∈ name.toList, isBareChar c = true := by
  intro c hc
  rcases forall_mem_of_isSpelledName h c hc with hc | rfl
  · exact isBareChar_of_isNameChar hc
  · rfl

namespace Ref

variable {r : Ref}

/-- A name with a unit is written as the unit, a colon and the name. -/
theorem toList_text_qualified (unit rawName : String) :
    (Ref.mk (some unit) rawName).text.toList = unit.toList ++ ':' :: rawName.toList := by
  simp [text]

/-- A name is read back from its text: its components have no colon. -/
theorem ofText_text (h : r.isSpelled = true) : Ref.ofText r.text = r := by
  obtain ⟨unit, rawName⟩ := r
  obtain ⟨hunit, hname⟩ := Bool.and_eq_true_iff.1 h
  cases unit with
  | none =>
      have hdrop := dropWhile_append_of_head (ne_colon_of_isSpelledName hname) [] nofun
      rw [List.append_nil] at hdrop
      simp [text, ofText, hdrop, ofName]
  | some unit =>
      have hcolon := ne_colon_of_isSpelledName hunit
      have htake := takeWhile_append_of_head hcolon (':' :: rawName.toList)
        (forall_mem_head_cons rfl)
      have hdrop := dropWhile_append_of_head hcolon (':' :: rawName.toList)
        (forall_mem_head_cons rfl)
      have htext := toList_text_qualified unit rawName
      simp [ofText, htext, htake, hdrop, qualified]

/-- A name is a word, with or without a unit. -/
theorem isBare_text (h : r.isSpelled = true) : isBare r.text = true := by
  obtain ⟨unit, rawName⟩ := r
  obtain ⟨hunit, hname⟩ := Bool.and_eq_true_iff.1 h
  have hchars := isBareChar_of_isSpelledName hname
  have hne := ne_nil_of_isSpelledName hname
  cases unit with
  | none => simpa [isBare, text, hne] using hchars
  | some unit =>
      have htext := toList_text_qualified unit rawName
      have hcolon : isBareChar ':' = true := rfl
      have hall : ∀ c ∈ unit.toList ++ ':' :: rawName.toList, isBareChar c = true :=
        List.forall_mem_append.2 ⟨isBareChar_of_isSpelledName hunit,
          List.forall_mem_cons.2 ⟨hcolon, hchars⟩⟩
      simp only [isBare, htext, Bool.and_eq_true, List.all_eq_true]
      exact ⟨by simp, hall⟩

/-- A name is read back from its expression, which can be read. -/
theorem recovered (h : r.isSpelled = true) :
    r.toSexp.IsReadable ∧ Ref.ofSexp? r.toSexp = some r := by
  refine ⟨⟨rfl, .inl (isBare_text h), trivial⟩, ?_⟩
  show some (Ref.ofText r.text) = some r
  rw [ofText_text h]

/-- Names in a row can be read, and are read back. -/
theorem all_recovered {refs : List Ref} (h : ∀ r ∈ refs, r.isSpelled = true) :
    AreReadable (refs.map toSexp) ∧ refs.mapM (Ref.ofSexp? ∘ toSexp) = some refs := by
  refine ⟨?_, mapM_eq_some_of_forall fun r hr => (recovered (h r hr)).2⟩
  induction refs with
  | nil => trivial
  | cons r rest ih =>
      obtain ⟨hr, hrest⟩ := List.forall_mem_cons.1 h
      exact ⟨(recovered hr).1, ih hrest⟩

end Ref

/-! ## Nodes are read back -/

/-- The head of every form is a word. -/
theorem isBare_kind (kind : NodeKind) : isBare kind.text = true := by
  cases kind <;> decide

/-- A form can be read if its parts can. -/
theorem isReadable_form (kind : NodeKind) {parts : List Sexp} (h : AreReadable parts) :
    (kind.form parts).IsReadable :=
  ⟨isBare_kind kind, h⟩

/-- Digits need no quotes. -/
theorem isBareChar_of_isDigit {c : Char} (h : c.isDigit = true) : isBareChar c = true := by
  refine isBareChar_of_isNameChar ?_
  simp [isNameChar, Char.isAlphanum, h]

/-- The text of an integer is a word. -/
theorem isBare_text_integer (n : Int64) : isBare (Numeral.integer n).text = true := by
  have hdigits (k : Nat) : ∀ c ∈ Nat.toDigits 10 k, isBareChar c = true := fun c hc =>
    isBareChar_of_isDigit (isDigit_of_mem_toDigits hc)
  simp only [isBare, toList_text_integer, Bool.and_eq_true, List.all_eq_true]
  split
  · exact ⟨by simp [Nat.toDigits_ne_nil], hdigits _⟩
  · exact ⟨rfl, List.forall_mem_cons.2 ⟨rfl, hdigits _⟩⟩

namespace Node

/-- The expression of the node can be read, and the node is read back from it. -/
structure IsRecovered (n : Node) : Prop where
  /-- The expression can be read. -/
  readable : n.toSexp.IsReadable
  /-- The node is read back. -/
  recovered : ofSexp? n.toSexp = some n

/-- If every node of a row is recovered, then so is the row. -/
theorem recovered_nodes (nodes : List Node) (h : ∀ n ∈ nodes, n.IsRecovered) :
    AreReadable (nodeSexps nodes) ∧ nodesOfSexps? (nodeSexps nodes) = some nodes := by
  induction nodes with
  | nil => exact ⟨trivial, rfl⟩
  | cons node rest ih =>
      obtain ⟨hnode, hrest⟩ := List.forall_mem_cons.1 h
      obtain ⟨hreadable, hrecovered⟩ := ih hrest
      exact ⟨⟨hnode.readable, hreadable⟩,
        by simp [nodeSexps, nodesOfSexps?, hnode.recovered, hrecovered]⟩

/-- If every key and every value of a map is recovered, then so are its entries. -/
theorem recovered_entries {entries : List (Node × Node)}
    (h : ∀ n ∈ entries.flatMap fun entry => [entry.1, entry.2], n.IsRecovered) :
    AreReadable (entrySexps entries) ∧ entriesOfSexps? (entrySexps entries) = some entries := by
  induction entries with
  | nil => exact ⟨trivial, rfl⟩
  | cons entry rest ih =>
      obtain ⟨key, value⟩ := entry
      rw [List.flatMap_cons, List.forall_mem_append] at h
      have hkey : key.IsRecovered := h.1 key (by simp)
      have hvalue : value.IsRecovered := h.1 value (by simp)
      obtain ⟨hreadable, hrecovered⟩ := ih h.2
      refine ⟨⟨isReadable_form .mapEntry ⟨hkey.readable, hvalue.readable, trivial⟩, hreadable⟩, ?_⟩
      simp [entrySexps, NodeKind.form, NodeKind.text, entriesOfSexps?, hkey.recovered,
        hvalue.recovered, hrecovered]

/-- If every operand is recovered, then so is the chain with its operators. -/
theorem recovered_chain {rest : List (BinaryOperator × Node)}
    (h : ∀ n ∈ rest.map Prod.snd, n.IsRecovered) :
    AreReadable (chainSexps rest) ∧ chainOfSexps? (chainSexps rest) = some rest := by
  induction rest with
  | nil => exact ⟨trivial, rfl⟩
  | cons entry rest ih =>
      obtain ⟨op, operand⟩ := entry
      obtain ⟨hoperand, hrest⟩ := List.forall_mem_cons.1 h
      obtain ⟨hreadable, hrecovered⟩ := ih hrest
      have hop : isBare op.text = true := by cases op <;> decide
      refine ⟨⟨.inl hop, hoperand.readable, hreadable⟩, ?_⟩
      simp [chainSexps, chainOfSexps?, ofText_text, hoperand.recovered, hrecovered]

/-- If every line of a second block is recovered, then so is the block, and none at all is recovered
from the lack of a form. -/
theorem recovered_otherwise {otherwise : Option (List Node)}
    (h : ∀ n ∈ otherwise.getD [], n.IsRecovered) :
    AreReadable (otherwiseSexps otherwise) ∧
    otherwiseOfSexps? (otherwiseSexps otherwise) = some otherwise := by
  cases otherwise with
  | none => exact ⟨trivial, rfl⟩
  | some lines =>
      obtain ⟨hreadable, hread⟩ := recovered_nodes lines h
      refine ⟨⟨isReadable_form _ hreadable, trivial⟩, ?_⟩
      show otherwiseOfSexps? [.form "block" (nodeSexps lines)] = _
      simp [otherwiseOfSexps?, hread]

/-- No node looks like a block. -/
theorem toSexp_ne_block (n : Node) (lines : List Sexp) : n.toSexp ≠ .form "block" lines := by
  cases n <;> simp [toSexp, Ref.toSexp, NodeKind.form, NodeKind.text]

/-- A well-formed node whose numbers are integers is read back from its expression, which can be
read. -/
theorem isRecovered {n : Node} (hwell : n.isWellFormedInside = true) (hint : n.isIntegral = true) :
    n.IsRecovered := by
  induction n using Node.induction with
  | step n ih =>
      obtain ⟨hn, hchildren⟩ := isWellFormedInside_iff.1 hwell
      obtain ⟨hwhole, hintegral⟩ := isIntegral_iff.1 hint
      replace ih : ∀ c ∈ n.children, c.IsRecovered :=
        fun c hc => ih c hc (hchildren c hc) (hintegral c hc)
      cases n with
      | function parameters body =>
          obtain ⟨hparameters, -⟩ := Bool.and_eq_true_iff.1 hn
          have hspelled : ∀ r ∈ parameters, r.isSpelled = true := fun r hr =>
            (Bool.and_eq_true_iff.1 (List.all_eq_true.1 hparameters r hr)).2
          obtain ⟨hreadable, hread⟩ := Ref.all_recovered hspelled
          cases body with
          | block lines =>
              obtain ⟨hreadables, hreads⟩ := recovered_nodes lines ih
              refine ⟨isReadable_form _ ⟨isReadable_form _ hreadable, isReadable_form _ hreadables,
                trivial⟩, ?_⟩
              show ofSexp? (.form NodeKind.functionDefinition.text
                [.form "arguments" (parameters.map Ref.toSexp), .form "block" (nodeSexps lines)]) =
                  _
              simp [ofSexp?, hread, hreads]
          | expr value =>
              have hvalue : value.IsRecovered := ih value List.mem_cons_self
              -- so the expression is not taken for a body that is a block
              have hblock := value.toSexp_ne_block
              refine ⟨isReadable_form _ ⟨isReadable_form _ hreadable, hvalue.readable, trivial⟩, ?_⟩
              show ofSexp? (.form NodeKind.functionDefinition.text
                [.form "arguments" (parameters.map Ref.toSexp), value.toSexp]) = _
              simp [ofSexp?, hread, hvalue.recovered]
      | application callee arguments =>
          obtain ⟨hcallee, -⟩ := Bool.and_eq_true_iff.1 hn
          obtain ⟨hreadable, hread⟩ := Ref.recovered hcallee
          obtain ⟨hreadables, hreads⟩ := recovered_nodes arguments ih
          refine ⟨isReadable_form _ ⟨hreadable, isReadable_form _ hreadables, trivial⟩, ?_⟩
          show ofSexp? (.form NodeKind.functionApply.text [callee.toSexp,
            .form "tuple" (nodeSexps arguments)]) = _
          simp [ofSexp?, hread, hreads]
      | tuple items | list items =>
          obtain ⟨hreadables, hreads⟩ := recovered_nodes items ih
          exact ⟨isReadable_form _ hreadables, by simp [toSexp, NodeKind.form, ofSexp?, hreads]⟩
      | map entries =>
          obtain ⟨hreadable, hread⟩ := recovered_entries ih
          exact ⟨isReadable_form _ hreadable, by simp [toSexp, NodeKind.form, ofSexp?, hread]⟩
      | assignment target value =>
          obtain ⟨htarget, -⟩ := Bool.and_eq_true_iff.1 hn
          obtain ⟨hreadable, hread⟩ := Ref.recovered (Bool.and_eq_true_iff.1 htarget).2
          have hvalue : value.IsRecovered := ih value List.mem_cons_self
          refine ⟨isReadable_form _ ⟨hreadable, hvalue.readable, trivial⟩, ?_⟩
          simp [toSexp, NodeKind.form, ofSexp?, hread, hvalue.recovered]
      | conditional condition lines otherwise =>
          obtain ⟨hcondition, hblocks⟩ := List.forall_mem_cons.1 ih
          obtain ⟨hlines, hothers⟩ := List.forall_mem_append.1 hblocks
          obtain ⟨hreadable, hread⟩ := recovered_nodes lines hlines
          obtain ⟨hreadables, hreads⟩ := recovered_otherwise hothers
          refine ⟨isReadable_form _ ⟨hcondition.readable, isReadable_form _ hreadable, hreadables⟩,
            ?_⟩
          show ofSexp? (.form NodeKind.conditional.text
            (condition.toSexp :: .form "block" (nodeSexps lines) :: otherwiseSexps otherwise)) = _
          simp [ofSexp?, hcondition.recovered, hread, hreads]
      | operation first rest =>
          obtain ⟨hfirst, hrest⟩ := List.forall_mem_cons.1 ih
          obtain ⟨hreadable, hread⟩ := recovered_chain hrest
          refine ⟨isReadable_form _ ⟨hfirst.readable, hreadable⟩, ?_⟩
          simp [toSexp, NodeKind.form, ofSexp?, hfirst.recovered, hread]
      | string text =>
          refine ⟨isReadable_form _ ⟨.inr ⟨text, rfl⟩, trivial⟩, ?_⟩
          simp [toSexp, NodeKind.form, ofSexp?, unquote?_quoted]
      | numeric value =>
          cases value with
          | integer k =>
              refine ⟨isReadable_form _ ⟨.inl (isBare_text_integer k), trivial⟩, ?_⟩
              simp [toSexp, NodeKind.form, ofSexp?, readNumeral_text, Except.toOption]
          | decimal x | scientific x => cases hwhole
      | boolean value => cases value <;> exact ⟨isReadable_form _ ⟨.inl (by decide), trivial⟩, rfl⟩
      | reference ref =>
          obtain ⟨hspelled, -⟩ := Bool.and_eq_true_iff.1 hn
          refine ⟨(Ref.recovered hspelled).1, ?_⟩
          simp [toSexp, Ref.toSexp, NodeKind.form, ofSexp?, Ref.ofText_text hspelled]

end Node

/-! ## Programs are read back -/

/-- A well-formed rift whose numbers are integers is read back from its expression, which can be
read. -/
theorem Rift.recovered {r : Rift} (hwell : r.isWellFormed = true)
    (hint : r.lines.all Node.isIntegral = true) :
    r.toSexp.IsReadable ∧ Rift.ofSexp? r.toSexp = some r := by
  obtain ⟨hname, hlines⟩ := Bool.and_eq_true_iff.1 hwell
  obtain ⟨hreadable, hread⟩ := Ref.recovered (Bool.and_eq_true_iff.1 hname).2
  obtain ⟨hreadables, hreads⟩ := Node.recovered_nodes r.lines fun line hline =>
    Node.isRecovered (List.all_eq_true.1 hlines line hline) (List.all_eq_true.1 hint line hline)
  refine ⟨isReadable_form _ ⟨hreadable, isReadable_form _ hreadables, trivial⟩, ?_⟩
  show Rift.ofSexp? (.form "rift" [r.name.toSexp, .form "block" (Node.nodeSexps r.lines)]) = _
  simp [Rift.ofSexp?, hread, hreads]

namespace Source

/-- The program of a Lisp form. -/
def ofLisp? (text : String) : Option Source := do
  let forms ← readLines (text.toList.length + 1) text.toList
  return { rifts := ← forms.mapM Rift.ofSexp? }

/-- A well-formed program whose numbers are integers is read back from its Lisp form. -/
theorem ofLisp?_lisp {s : Source} (hwell : s.isWellFormed = true) (hint : s.isIntegral = true) :
    Source.ofLisp? s.lisp = some s := by
  obtain ⟨hne, hrifts⟩ := Bool.and_eq_true_iff.1 hwell
  have hrift : ∀ r ∈ s.rifts, r.toSexp.IsReadable ∧ Rift.ofSexp? r.toSexp = some r := fun r hr =>
    Rift.recovered (List.all_eq_true.1 hrifts r hr) (List.all_eq_true.1 hint r hr)
  have hlisp : s.lisp = "\n".intercalate ((s.rifts.map Rift.toSexp).map Sexp.render) := by
    rw [List.map_map]
    rfl
  have hlines : readLines (s.lisp.toList.length + 1) s.lisp.toList =
      some (s.rifts.map Rift.toSexp) := by
    rw [hlisp]
    refine Sexp.readLines_intercalate (by simpa using hne) ?_ (Nat.lt_succ_self _)
    exact List.forall_mem_map.2 fun r hr => (hrift r hr).1
  have hread : s.rifts.mapM (Rift.ofSexp? ∘ Rift.toSexp) = some s.rifts :=
    mapM_eq_some_of_forall fun r hr => (hrift r hr).2
  simp [ofLisp?, hlines, hread]

end Source

/-- A parsed program is well-formed. -/
theorem Source.isWellFormed_of_takes {source : List Char} {s : Source}
    (h : Takes (.call .source) source (s.rifts.map .rift) []) : s.isWellFormed = true := by
  obtain ⟨rifts, hrifts, hwell⟩ : Rule.Makes .source source (s.rifts.map .rift) [] :=
    makes_of_takes h
  have hmap := congrArg (List.filterMap Fragment.rift?) hrifts
  rw [Fragment.filterMap_rift?_map, Fragment.filterMap_rift?_map] at hmap
  rw [← hmap] at hwell
  exact hwell

/-- Parsed programs whose numbers are integers are equal if their Lisp forms are. -/
theorem lisp_identifies {config config' : Config} {source source' : String} {a b : Source}
    (ha : parse config source = .ok a) (hb : parse config' source' = .ok b)
    (hinta : a.isIntegral = true) (hintb : b.isIntegral = true) (hlisp : a.lisp = b.lisp) :
    a = b := by
  have hread {config : Config} {source : String} {s : Source} (hs : parse config source = .ok s)
      (hint : s.isIntegral = true) : Source.ofLisp? s.lisp = some s :=
    Source.ofLisp?_lisp (Source.isWellFormed_of_takes (takes_of_parse hs)) hint
  exact Option.some.inj ((hread ha hinta).symm.trans (hlisp ▸ hread hb hintb))

set_option maxRecDepth 100000 in
/-- Two texts of different layout, with a name of another unit, a string of parentheses and quotes,
a second block without lines and a body that is a block. -/
theorem lisp_identifies_layout : ∃ a b : Source,
    parse {}
      "a => \x7b f = (x) -> u:x\nif true \x7b \") \\\"(\" \x7d else \x7b\x7d\n() -> \x7b -1 \x7d \x7d" = .ok a ∧
    parse {} "a=>\x7bf=( x )->u:x if true\x7b\") \\\"(\"\x7delse\x7b\x7d ()->\x7b-1\x7d\x7d" =
      .ok b ∧
    a.isIntegral = true ∧ b.isIntegral = true ∧ a.lisp = b.lisp ∧ a = b := by
  have hall (source source' lisp : String)
      (hrun : ((Peg.call .source).run Peg.table 300 source.toList).map (·.map fun m =>
        (m.1.program.toOption.map fun s => (s.isIntegral, s.lisp), m.2)) =
          some (some (some (true, lisp), [])))
      (hrun' : ((Peg.call .source).run Peg.table 300 source'.toList).map (·.map fun m =>
        (m.1.program.toOption.map fun s => (s.isIntegral, s.lisp), m.2)) =
          some (some (some (true, lisp), []))) :
      ∃ a b : Source, parse {} source = .ok a ∧ parse {} source' = .ok b ∧
        a.isIntegral = true ∧ b.isIntegral = true ∧ a.lisp = b.lisp ∧ a = b := by
    obtain ⟨a, ha, hseen⟩ := exists_parse_of_run (fun s => (s.isIntegral, s.lisp)) hrun {}
    obtain ⟨b, hb, hseen'⟩ := exists_parse_of_run (fun s => (s.isIntegral, s.lisp)) hrun' {}
    obtain ⟨hinta, hlispa⟩ := Prod.mk.inj hseen
    obtain ⟨hintb, hlispb⟩ := Prod.mk.inj hseen'
    have hlisp : a.lisp = b.lisp := hlispa.trans hlispb.symm
    exact ⟨a, b, ha, hb, hinta, hintb, hlisp, lisp_identifies ha hb hinta hintb hlisp⟩
  exact hall _ _ ("(rift (reference a) (block (assignment (reference f) (function-definition " ++
    "(arguments (reference x)) (reference u:x))) (if (boolean true) (block (string \") \\\"(\")) (block)) " ++
    "(function-definition (arguments) (block (numeric -1)))))") (by decide +kernel)
      (by decide +kernel)

end RiftLang
