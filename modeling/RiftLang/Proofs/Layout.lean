import RiftLang.Proofs.Layout.Respacing

/-!
# Layout does not matter

Where there is layout in a source that is parsed there may be any other layout: it is parsed as the
same program.

* `parse_of_respaces` — other layout in any places of a source.
* `exists_respaces_of_mem` — the span of a token for layout is such a place.
* `parse_relayout` — other layout for one token.
-/

namespace RiftLang

open Peg

/-- The text of a source with other layout is parsed as the same program. -/
theorem parse_of_respaces {config : Config} {source : String} {d : Derivation} {cs : List Char}
    (h : Parses table (.call .source) source.toList (some (d, []))) (hd : d.Respaces cs) :
    parse config (String.ofList cs) = parse config source := by
  have hleads : (Peg.call .source).Leads 1 1 := ⟨rfl, Nat.one_pos, rfl⟩
  -- Both texts end before any brace could be closed that was not opened.
  have hmirrors : Mirrors [] [] 1 source.toList (cs ++ []) := h.mirrors hleads hd .finish
  obtain ⟨d', u, hd', hend, hretells⟩ := h.reflects hleads hmirrors
  obtain rfl := hend.eq_nil
  rw [List.append_nil] at hd'
  have hother : Parses table (.call .source) (String.ofList cs).toList (some (d', [])) := by
    rwa [String.toList_ofList]
  rw [parse_eq_program h, parse_eq_program hother, Derivation.program, Derivation.program,
    hretells.fragments]

/-- Other layout in place of the text of a token for layout. -/
theorem exists_respaces_of_mem {d : Derivation} {start depth : Nat} {t : Token} {r : Rule}
    {w : List Char} (ht : t ∈ d.tokens start depth) (hsymbol : t.symbol = .rule r)
    (hr : r.isSpace = true) (hne : t.isEmpty = false) (hw : IsLayout w) (hw' : w ≠ []) :
    ∃ before inside after, d.chars = before ++ inside ++ after ∧ t.start = start + before.length ∧
      t.stop = t.start + inside.length ∧ d.Respaces (before ++ w ++ after) := by
  induction d generalizing start depth with
  | leaf _ => cases ht
  | action a =>
      obtain rfl := List.mem_singleton.1 ht
      cases hsymbol
  | append d e ihd ihe =>
      rcases List.mem_append.1 ht with ht | ht
      · obtain ⟨before, inside, after, hchars, hstart, hstop, hrespaces⟩ := ihd ht
        refine ⟨before, inside, after ++ e.chars, ?_, hstart, hstop, _, _, hrespaces,
          e.respaces_self, ?_⟩
        · rw [Derivation.chars, hchars, List.append_assoc]
        · exact (List.append_assoc _ _ _).symm
      · obtain ⟨before, inside, after, hchars, hstart, hstop, hrespaces⟩ := ihe ht
        refine ⟨d.chars ++ before, inside, after, ?_, ?_, hstop, _, _, d.respaces_self,
          hrespaces, ?_⟩
        · rw [Derivation.chars, hchars]
          simp
        · rw [hstart, List.length_append, Derivation.width, Nat.add_assoc]
        · simp
  | capture symbol body ih =>
      rcases List.mem_append.1 ht with ht | ht
      · obtain ⟨before, inside, after, hchars, hstart, hstop, hrespaces⟩ := ih ht
        exact ⟨before, inside, after, hchars, hstart, hstop, .inl hrespaces⟩
      · obtain rfl := List.mem_singleton.1 ht
        obtain rfl : symbol = .rule r := hsymbol
        refine ⟨[], body.chars, [], by simp [Derivation.chars], rfl, rfl,
          .inr ⟨⟨r, rfl, hr⟩, fun hnil => ?_, ?_, ?_⟩⟩
        · have hwidth : body.width = 0 := by rw [Derivation.width, hnil, List.length_nil]
          simp [Token.isEmpty, hwidth] at hne
        · simpa using hw
        · simpa using hw'

/-- Where a source that is parsed has a token for blanks and comments that is not empty, there may
be any other blanks and comments. -/
theorem parse_relayout {config : Config} {source w : String} {program : Source} {r : Recognized}
    {t : Token} (h : parse config source = .ok program) (hr : recognize config source = .ok r)
    (ht : t ∈ r.tokens) (hsymbol : t.symbol = .rule .space ∨ t.symbol = .rule .someSpace)
    (hne : t.isEmpty = false) (hw : IsLayout w.toList) (hw' : w ≠ "") :
    parse config
      (String.ofList (source.toList.take t.start ++ w.toList ++ source.toList.drop t.stop)) =
      .ok program := by
  obtain ⟨d, hd, rfl⟩ := recognize_eq_ok_iff.1 hr
  have hspace : ∃ r : Rule, t.symbol = .rule r ∧ r.isSpace = true :=
    hsymbol.elim (fun hs => ⟨_, hs, rfl⟩) fun hs => ⟨_, hs, rfl⟩
  obtain ⟨rule, hrule, hisSpace⟩ := hspace
  obtain ⟨before, inside, after, hchars, hstart, hstop, hrespaces⟩ :=
    exists_respaces_of_mem ht hrule hisSpace hne hw (by simpa using hw')
  have hsource : source.toList = before ++ inside ++ after := by
    rw [← hchars, ← List.append_nil d.chars]
    exact hd.eq_append
  have htake : source.toList.take t.start = before := by
    rw [hsource, hstart, Nat.zero_add, List.append_assoc, List.take_left]
  have hdrop : source.toList.drop t.stop = after := by
    rw [hsource, hstop, hstart, Nat.zero_add, ← List.length_append, List.drop_left]
  rw [htake, hdrop, parse_of_respaces hd hrespaces, h]

set_option maxRecDepth 100000 in
/-- A comment instead of the blank that keeps a name from being called. -/
theorem parse_relayout_comment : ∃ program,
    parse {} "a => \x7b x (1) \x7d" = .ok program ∧
      program.lisp = "(rift (reference a) (block (reference x) (tuple (numeric 1))))" ∧
      parse {} (String.ofList ("a => \x7b x (1) \x7d".toList.take 8 ++ "#(\"\n".toList ++
        "a => \x7b x (1) \x7d".toList.drop 9)) = .ok program := by
  obtain ⟨program, hprogram, hlisp⟩ : ∃ program, parse {} "a => \x7b x (1) \x7d" = .ok program ∧
      program.lisp = "(rift (reference a) (block (reference x) (tuple (numeric 1))))" :=
    exists_parse_of_run Source.lisp (n := 200) (by decide +kernel) {}
  obtain ⟨d, hd, htoken⟩ : ∃ d,
      Parses table (.call .source) "a => \x7b x (1) \x7d".toList (some (d, [])) ∧
      decide (⟨.rule .someSpace, 8, 9, 3⟩ ∈ d.tokens 0 0) = true :=
    exists_parses_of_run (n := 200) (by decide +kernel)
  have hr : recognize {} "a => \x7b x (1) \x7d" = .ok _ := recognize_eq_ok_iff.2 ⟨d, hd, rfl⟩
  have hlayout : IsLayout "#(\"\n".toList := by
    have hcomment : IsLayout ('#' :: ['(', '"'] ++ ['\n']) := .comment (by decide) .nil
    simpa using hcomment
  have ht : ⟨.rule .someSpace, 8, 9, 3⟩ ∈ d.tokens 0 0 := of_decide_eq_true htoken
  have hother := parse_relayout (w := "#(\"\n") hprogram hr ht (.inr rfl) rfl hlayout (by simp)
  exact ⟨program, hprogram, hlisp, hother⟩

end RiftLang
