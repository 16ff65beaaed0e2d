import RiftLang.Proofs.Execution
import RiftLang.Proofs.Printing.Lines

/-!
# Printed programs are parsed back

* `takes_rift`, `takes_rifts` — a printed rift is read back, and so are rifts on lines of their own.
* `parse_print` — what an expressible and unambiguous program is printed as is parsed as the
  program.
* `parse_print_ambiguous` — expressible programs that are ambiguous and are not parsed back.
-/

namespace RiftLang

open Peg

variable {rest : List Char}

/-- A rift is written as its name, an arrow and its block. -/
theorem Rift.chars_append {r : Rift} (h : r.name.isLocalName = true) :
    r.chars ++ rest =
      r.name.rawName.toList ++ ' ' :: '=' :: '>' :: ' ' ::
        (blockChars (r.lines.map Node.chars) ++ rest) := by
  rw [chars, Ref.chars_of_isLocal (Bool.and_eq_true_iff.1 h).1]
  simp

/-- The text of a rift begins with its name, so not with layout. -/
theorem Rift.solid_chars {r : Rift} (h : r.name.isLocalName = true) : Solid (r.chars ++ rest) := by
  have hname := (Bool.and_eq_true_iff.1 (Bool.and_eq_true_iff.1 h).2).2
  rw [chars_append h]
  exact forall_mem_next ((isWord_of_isName hname).head_mem _) rfl

/-- A printed rift is read back. -/
theorem takes_rift {r : Rift} (hname : r.name.isLocalName = true)
    (hlines : ∀ line ∈ r.lines, line.ReadsBack) (hapart : Node.areApart r.lines = true) :
    Takes (.call .rift) (r.chars ++ rest) [.rift r] rest := by
  have hend : EndsName (' ' :: '=' :: '>' :: ' ' ::
      (blockChars (r.lines.map Node.chars) ++ rest)) :=
    endsName_cons rfl
  have hsplit : r.chars ++ rest =
      r.name.chars ++ ' ' ::
        ("=>".toList ++ ' ' :: (blockChars (r.lines.map Node.chars) ++ rest)) := by
    simp [Rift.chars]
  rw [hsplit]
  exact Takes.callNode rfl ((takes_riftName hname hend).seq
    ((takes_sp_blank rfl (solid_cons rfl (by decide))).after
    ((takes_word "=>" _).after ((takes_sp_blank rfl (solid_cons rfl (by decide))).after
      (Node.takes_block hlines hapart).last)))) rfl

/-- Printed rifts are read back one after the other. -/
theorem takes_rifts {r : Rift} {rifts : List Rift}
    (hnames : ∀ q ∈ r :: rifts, q.name.isLocalName = true)
    (h : ∀ q ∈ r :: rifts, ∀ rest, Takes (.call .rift) (q.chars ++ rest) [.rift q] rest) :
    Takes (.star (seqs [.call .rift, sp])) (r.chars ++ rifts.flatMap fun q => ['\n'] ++ q.chars)
      ((r :: rifts).map .rift) [] := by
  induction rifts generalizing r with
  | nil =>
      have hend : Parses table (seqs [.call .rift, sp]) [] none := parses_none_of_failsAt (by rfl)
      have hsp : Takes sp [] [] [] := takes_sp fun c hc => by cases hc
      exact ((h r List.mem_cons_self []).seq hsp.last).star_cons (takes_star_nil hend)
  | cons next rifts ih =>
      have hrifts := ih (fun q hq => hnames q (List.mem_cons_of_mem _ hq))
        fun q hq => h q (List.mem_cons_of_mem _ hq)
      have hsolid : Solid (next.chars ++ rifts.flatMap fun q => ['\n'] ++ q.chars) :=
        Rift.solid_chars (hnames next (List.mem_cons_of_mem _ List.mem_cons_self))
      have hsp : Takes sp ('\n' :: (next.chars ++ rifts.flatMap fun q => ['\n'] ++ q.chars)) [] _ :=
        takes_sp_blank rfl hsolid
      have hfirst := (h r List.mem_cons_self _).seq hsp.last
      have hsplit : ((next :: rifts).flatMap fun q => ['\n'] ++ q.chars) =
          '\n' :: (next.chars ++ rifts.flatMap fun q => ['\n'] ++ q.chars) := by
        simp
      rw [hsplit]
      exact hfirst.star_cons hrifts

/-- Parsing gives what the derivation of the source stands for. -/
theorem parse_eq_program {config : Config} {source : String} {d : Derivation}
    (h : Parses table (.call .source) source.toList (some (d, []))) :
    parse config source = d.program.mapError .build := by
  have hrecognize : recognize config source = _ := recognize_eq_ok_iff.2 ⟨d, h, rfl⟩
  have hexecute : (Recognized.mk source.toList.toArray (d.tokens 0 0)).execute = d.program :=
    execute_eq_program h
  rw [parse, hrecognize]
  show (Recognized.execute _).mapError Error.build = _
  rw [hexecute]

/-- A program is parsed from a text that its rule takes. -/
theorem parse_of_takes {config : Config} {source : String} {rifts : List Rift}
    (h : Takes (.call .source) source.toList (rifts.map .rift) []) :
    parse config source = .ok ⟨rifts⟩ := by
  obtain ⟨d, hd, hparts⟩ := h
  rw [parse_eq_program hd, Derivation.program, hparts, Except.map, Fragment.filterMap_rift?_map]
  rfl

/-- A source is parsed as a program of which that is seen which is computed of its derivation. -/
theorem exists_parse_of_run {α : Type} (observe : Source → α) {source : String} {n : Nat} {a : α}
    (hrun : ((Peg.call .source).run table n source.toList).map
      (·.map fun m => (m.1.program.toOption.map observe, m.2)) = some (some (some a, [])))
        (config : Config) :
    ∃ program, parse config source = .ok program ∧ observe program = a := by
  obtain ⟨d, hd, hseen⟩ := exists_parses_of_run (f := fun d => d.program.toOption.map observe) hrun
  rw [parse_eq_program hd]
  rcases hprogram : d.program with e | program
  · rw [hprogram] at hseen
    cases hseen
  · rw [hprogram] at hseen
    exact ⟨program, rfl, Option.some.inj hseen⟩

/-- An expressible and unambiguous program is parsed back from the text that it is printed as. -/
theorem parse_print {s : Source} (hexpressible : s.isExpressible = true)
    (hunambiguous : s.isUnambiguous = true) (config : Config) : parse config s.print = .ok s := by
  obtain ⟨rifts⟩ := s
  obtain ⟨hne, hrifts⟩ := Bool.and_eq_true_iff.1 hexpressible
  obtain ⟨r, rifts, rfl⟩ := List.exists_cons_of_ne_nil (by simpa using hne)
  have hnames : ∀ q ∈ r :: rifts, q.name.isLocalName = true :=
    fun q hq => (Bool.and_eq_true_iff.1 (List.all_eq_true.1 hrifts q hq)).1
  have htake : ∀ q ∈ r :: rifts, ∀ rest, Takes (.call .rift) (q.chars ++ rest) [.rift q] rest := by
    intro q hq rest
    obtain ⟨hname, hlines⟩ := Bool.and_eq_true_iff.1 (List.all_eq_true.1 hrifts q hq)
    obtain ⟨hapart, hlines'⟩ := Bool.and_eq_true_iff.1 (List.all_eq_true.1 hunambiguous q hq)
    refine takes_rift hname (fun line hline => line.readsBack ?_ ?_) hapart
    · exact List.all_eq_true.1 (List.all_eq_true.1 hlines line hline)
    · exact List.all_eq_true.1 (List.all_eq_true.1 hlines' line hline)
  refine parse_of_takes ?_
  have htext : (Source.mk (r :: rifts)).print.toList =
      r.chars ++ rifts.flatMap fun q => ['\n'] ++ q.chars := by
    rw [Source.print, String.toList_ofList, List.map_cons, separated_cons, List.flatMap_map]
  have hne : r.chars ++ (rifts.flatMap fun q => ['\n'] ++ q.chars) ≠ [] := by
    simp [Rift.chars]
  have hall := (takes_rifts hnames htake).plus_of_star hne
  have hend : Takes (.absent any) [] [] [] := takes_absent (.one_fail fun c hc => by cases hc)
  have hsource :=
    (takes_sp (Rift.solid_chars (hnames r List.mem_cons_self))).after (hall.seq hend.last)
  rw [List.append_nil] at hsource
  rw [htext]
  exact Takes.call (r := .source) hsource rfl

/-- Nodes of every kind, in places where one could run on into the next. -/
theorem parse_print_all_kinds : ∃ s : Source,
    s.print =
      "@a => \x7b f = (x, y) -> x ** -1\nif f(u:n) - 2 \x7b \"\\\"\" \x7d else \x7b \x7btrue : []\x7d \x7d\n" ++
      "(f)\n() -> \x7b  \x7d \x7d\nb => \x7b  \x7d" ∧
      parse {} s.print = .ok s := by
  refine ⟨⟨[⟨.ofName "@a",
    [.assignment (.ofName "f")
      (.function [.ofName "x", .ofName "y"] (.expr (.operation (.reference (.ofName "x"))
      [(.power, .numeric (.integer (-1)))]))),
     .conditional (.operation (.application (.ofName "f") [.reference (.qualified "u" "n")])
      [(.subtract, .numeric (.integer 2))]) [.string "\""]
        (some [.map [(.boolean true, .list [])]]),
     .tuple [.reference (.ofName "f")], .function [] (.block [])]⟩, ⟨.ofName "b", []⟩]⟩, ?_, ?_⟩
  · decide +kernel
  · exact parse_print (by decide +kernel) (by decide +kernel) {}

/-! ## Ambiguous programs -/

/-- A program is not parsed back if what is seen of the program that its text stands for is not seen
of it. -/
theorem parse_ne_of_run {α : Type} (observe : Source → α) {s : Source} {source : String} {n : Nat}
    {a : Option α} (hrun : ((Peg.call .source).run table n source.toList).map
      (·.map fun m => (m.1.program.toOption.map observe, m.2)) = some (some (a, [])))
    (hne : some (observe s) ≠ a) (config : Config) : parse config source ≠ .ok s := by
  obtain ⟨d, hd, rfl⟩ := exists_parses_of_run (f := fun d => d.program.toOption.map observe) hrun
  rw [parse_eq_program hd]
  intro h
  rcases hprogram : d.program with e | t
  · rw [hprogram] at h
    cases h
  · rw [hprogram] at h hne
    cases h
    exact hne rfl

/-- Which lines of which rifts are functions whose body is an expression. -/
def Source.shortFunctions (s : Source) : List (List Bool) :=
  s.rifts.map fun r => r.lines.map Node.isShortFunction

/-- Three expressible programs that are not parsed back: a function whose body is an expression
stands before an operator, a body is the empty map, and a line that begins with a minus follows an
expression. -/
theorem parse_print_ambiguous :
    (∃ s : Source, s.isExpressible = true ∧ s.print = "a => { () -> x + y }" ∧
      ∀ config, parse config s.print ≠ .ok s) ∧
    (∃ s : Source, s.isExpressible = true ∧ s.print = "a => { () -> {} }" ∧
      ∀ config, parse config s.print ≠ .ok s) ∧
    ∃ s : Source, s.isExpressible = true ∧ s.print = "a => \x7b x\n-1 \x7d" ∧
      ∀ config, parse config s.print ≠ .ok s := by
  refine ⟨⟨⟨[⟨.ofName "a", [.operation (.function [] (.expr (.reference (.ofName "x"))))
      [(.add, .reference (.ofName "y"))]]⟩]⟩, by decide +kernel, by decide +kernel, ?_⟩,
    ⟨⟨[⟨.ofName "a", [.function [] (.expr (.map []))]⟩]⟩, by decide +kernel, by decide +kernel, ?_⟩,
    ⟨⟨[⟨.ofName "a", [.reference (.ofName "x"), .numeric (.integer (-1))]⟩]⟩, by decide +kernel,
    by decide +kernel, ?_⟩⟩
  · exact parse_ne_of_run Source.shortFunctions (n := 200) (a := some [[true]]) (by decide +kernel)
      (by decide +kernel)
  · exact parse_ne_of_run Source.shortFunctions (n := 200) (a := some [[false]]) (by decide +kernel)
      (by decide +kernel)
  · exact parse_ne_of_run Source.shortFunctions (n := 200) (a := some [[false]]) (by decide +kernel)
      (by decide +kernel)

end RiftLang
