import RiftLang.Proofs.Layout.Respacing

/-!
# Programs one after the other

A program is a sequence of rifts with layout between them, and a rift is read the same whatever
comes after the brace that closes it. So two programs, one after the other, are one program.

* `exists_of_takes_block` — a block is read without a look past its closing brace.
* `IsRiftText` — a text that is read as a rift before any other text, and `exists_isRiftText` —
  every text read as a rift is one.
* `IsProgramText` — rifts with layout between them. What is parsed is that (`exists_isProgramText`),
  and that is parsed (`parse_of_isProgramText`).
* `parse_append` — two programs with a newline between them are parsed as one program.
-/

namespace RiftLang

open Peg

variable {s t u w cs : List Char} {parts made : List Fragment} {rifts rifts' : List Rift}

/-! ## Blocks and rifts -/

/-- A block is read without a look past its closing brace. -/
theorem exists_of_takes_block (h : Takes (.call .block) s parts u) :
    ∃ cs, s = '{' :: (cs ++ u) ∧ ∀ v, Takes (.call .block) ('{' :: (cs ++ v)) parts v := by
  obtain ⟨d, hd, hparts⟩ := h
  obtain ⟨body, hbody, rfl⟩ := parses_call_iff.1 hd
  obtain ⟨begin, s₁, tail, hbegin, htail, rfl⟩ := parses_seq_iff.1 hbody
  obtain ⟨brace, s₂, lines, hbrace, hlines, rfl⟩ := parses_seq_iff.1 htail
  obtain ⟨rfl, rfl⟩ := parses_action_iff.1 hbegin
  obtain ⟨c, rfl, hc, rfl⟩ := parses_one_iff.1 hbrace
  obtain rfl : c = '{' := eq_of_beq hc
  refine ⟨lines.chars, congrArg _ hlines.eq_append, fun v => ?_⟩
  -- After the opening brace one brace is to be closed, and then nothing more is looked at.
  have hmirrors : Mirrors u v 1 s₂ (lines.chars ++ v) :=
    hlines.mirrors (leads_lines 0) lines.respaces_self .outside
  obtain ⟨lines', v', hlines', hend, hretells⟩ := hlines.reflects (leads_lines 0) hmirrors
  obtain ⟨-, rfl⟩ := hend.of_outside
  refine ⟨_, .call (.seq .action (.seq (.one hc) hlines')), ?_⟩
  rw [← hparts]
  simp only [Derivation.fragments, hretells.fragments]

/-- Blanks and comments stand for nothing. -/
theorem exists_isRun_of_takes (h : Takes sp s parts u) :
    ∃ w, s = w ++ u ∧ parts = [] ∧ IsRun w u := by
  obtain ⟨d, hd, hparts⟩ := h
  obtain rfl := Except.ok.inj ((fragments_of_parses rfl hd).symm.trans hparts)
  exact ⟨d.chars, hd.eq_append, rfl, isRun_of_parses rfl hd⟩

/-- A text that is read as the rift before any other text. -/
structure IsRiftText (cs : List Char) (rift : Rift) : Prop where
  /-- The text is read as the rift, whatever comes after it. -/
  takes : ∀ u, Takes (.call .rift) (cs ++ u) [.rift rift] u
  /-- It does not begin with layout. -/
  solid : ∀ u, Solid (cs ++ u)

/-- Where a name ends depends on the next character alone, so more text at the far end makes no
difference. -/
theorem endsName_append_cons {c : Char} (h : EndsName (w ++ c :: s)) (t : List Char) :
    EndsName (w ++ c :: t) := by
  cases w with
  | nil => exact h
  | cons _ _ => exact h

/-- A rift is read without a look past the brace that closes it. -/
theorem exists_isRiftText (h : Takes (.call .rift) s made u) :
    ∃ cs rift, s = cs ++ u ∧ made = [.rift rift] ∧ IsRiftText cs rift := by
  obtain ⟨parts, hbuilds, hmade⟩ := exists_builds_of_takes h
  obtain ⟨_, s₁, _, ⟨hname, -⟩, ⟨_, s₂, _, ⟨hsp, -⟩, ⟨_, s₃, _, ⟨rfl, rfl⟩, ⟨_, s₄, _, ⟨hsp', -⟩,
    ⟨_, _, _, ⟨hblock, -⟩, ⟨rfl, rfl⟩, rfl⟩, rfl⟩, rfl⟩, rfl⟩, rfl⟩ := builds_of_node hbuilds
  obtain ⟨name, rfl, hword, rfl, hend⟩ : Rule.Makes .riftName s _ s₁ := makes_of_takes hname
  obtain ⟨lines, rfl, -⟩ : Rule.Makes .block s₄ _ u := makes_of_takes hblock
  obtain ⟨cs, rfl, hblocks⟩ := exists_of_takes_block hblock
  obtain ⟨w, rfl, rfl, hrun⟩ := exists_isRun_of_takes hsp
  obtain ⟨w', rfl, rfl, hrun'⟩ := exists_isRun_of_takes hsp'
  obtain rfl := Except.ok.inj hmade
  have hlayout : IsLayout w := hrun.isLayout (List.cons_ne_nil _ _)
  have hlayout' : IsLayout w' := hrun'.isLayout (List.cons_ne_nil _ _)
  refine ⟨name ++ (w ++ '=' :: '>' :: (w' ++ '{' :: cs)), _, by simp, rfl, fun v => ?_, fun v => ?_⟩
  · have hsplit : name ++ (w ++ '=' :: '>' :: (w' ++ '{' :: cs)) ++ v =
        name ++ (w ++ ("=>".toList ++ (w' ++ '{' :: (cs ++ v)))) := by simp
    have hname' : Takes (.call .riftName)
        (name ++ (w ++ ("=>".toList ++ (w' ++ '{' :: (cs ++ v))))) _ _ :=
      Takes.callNode rfl ((takes_word_name hword (endsName_append_cons hend _)).seq
        takes_action.last) rfl
    rw [hsplit]
    exact Takes.callNode rfl
      (hname'.seq ((takes_sp_layout hlayout (solid_cons rfl (by decide))).after
      ((takes_word "=>" _).after ((takes_sp_layout hlayout' (solid_cons rfl (by decide))).after
        (hblocks v).last)))) rfl
  · rw [List.append_assoc]
    exact forall_mem_next (hword.head_mem _) rfl

/-! ## Programs -/

/-- A rift with the layout after it. -/
def Peg.riftItem : Peg :=
  seqs [call .rift, sp]

/-- Rifts with layout between them. The last line may be a comment that lacks its newline. -/
inductive IsProgramText : List Char → List Rift → Prop where
  /-- The last rift, with what layout there is up to the end. -/
  | last {cs w : List Char} {rift : Rift} (h : IsRiftText cs rift) (hw : Takes sp w [] []) :
      IsProgramText (cs ++ w) [rift]
  /-- A rift, layout up to the next one, and the rifts from there. -/
  | cons {cs w s : List Char} {rift : Rift} {rifts : List Rift} (h : IsRiftText cs rift)
    (hw : IsLayout w) (hs : IsProgramText s rifts) :
      IsProgramText (cs ++ (w ++ s)) (rift :: rifts)

namespace IsProgramText

/-- A program text begins with the word of its first rift, so neither with a blank nor with a
comment. -/
theorem solid (h : IsProgramText s rifts) : Solid s := by
  cases h with
  | last h _ | cons h _ _ => exact h.solid _

/-- A program text has at least one rift, hence a character. -/
theorem ne_nil (h : IsProgramText s rifts) : s ≠ [] := by
  have hnone : Parses table (.call .rift) [] none := parses_none_of_failsAt (by rfl)
  cases h with
  | last h _ | cons h _ _ => exact fun hnil => (hnil ▸ h.takes _).not_none hnone

/-- Rifts with layout between them are read one after the other. -/
theorem takes (h : IsProgramText s rifts) : Takes (.star riftItem) s (rifts.map .rift) [] := by
  induction h with
  | last h hw =>
      have hend : Parses table riftItem [] none := parses_none_of_failsAt (by rfl)
      exact ((h.takes _).seq hw.last).star_cons (takes_star_nil hend)
  | cons h hw hs ih => exact ((h.takes _).seq (takes_sp_layout hw hs.solid).last).star_cons ih

/-- Two programs with layout between them that begins with a newline are one program. -/
theorem append (h : IsProgramText s rifts) (hw : IsLayout w) (ht : IsProgramText t rifts') :
    IsProgramText (s ++ '\n' :: (w ++ t)) (rifts ++ rifts') := by
  induction h with
  | @last cs w' rift h hw' =>
      -- The newline ends the last line, even if it is a comment.
      obtain ⟨w', rfl, -, hrun⟩ := exists_isRun_of_takes hw'
      have hsplit : cs ++ (w' ++ []) ++ '\n' :: (w ++ t) = cs ++ (w' ++ ['\n'] ++ w ++ t) := by simp
      rw [hsplit]
      exact .cons h (hrun.isLayout_newline.append hw) ht
  | @cons cs w' s rift rifts h hw' _ ih =>
      have hsplit : cs ++ (w' ++ s) ++ '\n' :: (w ++ t) = cs ++ (w' ++ (s ++ '\n' :: (w ++ t))) :=
        by simp
      rw [hsplit]
      exact .cons h hw' ih

end IsProgramText

/-- What is read as a rift with the layout after it is the text of the rift, and layout. -/
theorem exists_of_builds_riftItem (h : riftItem.Builds (fun _ _ _ _ => True) s parts u) :
    ∃ cs w rift, s = cs ++ (w ++ u) ∧ parts = [.rift rift] ∧ IsRiftText cs rift ∧
      Takes sp (w ++ u) [] u ∧
      IsRun w u := by
  obtain ⟨_, s₁, _, ⟨hrift, -⟩, ⟨_, _, _, ⟨hsp, -⟩, ⟨rfl, rfl⟩, rfl⟩, rfl⟩ := h
  obtain ⟨cs, rift, rfl, rfl, htext⟩ := exists_isRiftText hrift
  obtain ⟨w, rfl, rfl, hrun⟩ := exists_isRun_of_takes hsp
  exact ⟨cs, w, rift, rfl, rfl, htext, hsp, hrun⟩

/-- What is read as rifts with layout after each is a program. -/
theorem exists_isProgramText_of_row {parts' : List Fragment}
    (hfirst : riftItem.Builds (fun _ _ _ _ => True) s parts u)
    (hrow : Row (riftItem.Builds fun _ _ _ _ => True) (Parses table riftItem · none) u parts' []) :
    ∃ rifts : List Rift, parts ++ parts' = rifts.map .rift ∧ IsProgramText s rifts := by
  generalize hend : ([] : List Char) = last at hrow
  induction hrow generalizing s parts with
  | nil _ =>
      obtain ⟨cs, w, rift, rfl, rfl, htext, hsp, -⟩ := exists_of_builds_riftItem hfirst
      subst hend
      simp only [List.append_nil] at hsp ⊢
      exact ⟨[rift], rfl, .last htext hsp⟩
  | cons hitem _ ih =>
      obtain ⟨rifts, hparts, hprogram⟩ := ih hitem hend
      obtain ⟨cs, w, rift, rfl, rfl, htext, -, hrun⟩ := exists_of_builds_riftItem hfirst
      exact ⟨rift :: rifts, congrArg _ hparts, .cons htext (hrun.isLayout hprogram.ne_nil) hprogram⟩

/-- What is read as a source is a program with layout before it. -/
theorem exists_isProgramText (h : Takes (.call .source) s made []) :
    ∃ (w t : List Char) (rifts : List Rift), s = w ++ t ∧ made = rifts.map .rift ∧ IsLayout w ∧
      IsProgramText t rifts := by
  obtain ⟨parts, hbuilds, hmade⟩ := exists_builds_of_takes h
  obtain rfl := Except.ok.inj hmade
  obtain ⟨_, t, _, ⟨hsp, -⟩, ⟨_, _, _, ⟨_, _, _, hfirst, hrow, rfl⟩, hend, rfl⟩, rfl⟩ := hbuilds
  obtain ⟨_, _, _, ⟨-, rfl, rfl⟩, ⟨rfl, rfl⟩, rfl⟩ := hend
  obtain ⟨rifts, hparts, hprogram⟩ := exists_isProgramText_of_row hfirst hrow
  obtain ⟨w, rfl, rfl, hrun⟩ := exists_isRun_of_takes hsp
  refine ⟨w, t, rifts, rfl, ?_, hrun.isLayout hprogram.ne_nil, hprogram⟩
  simpa using hparts

/-- Rifts with layout between them are read as a source that stands for these rifts, whatever layout
comes first. -/
theorem IsProgramText.takes_source (h : IsProgramText t rifts) (hw : IsLayout w) :
    Takes (.call .source) (w ++ t) (rifts.map .rift) [] := by
  have hend : Takes (.absent any) [] [] [] := takes_absent (.one_fail fun c hc => by cases hc)
  have hall := (takes_sp_layout hw h.solid).after ((h.takes.plus_of_star h.ne_nil).seq hend.last)
  rw [List.append_nil] at hall
  exact Takes.call (r := .source) hall rfl

/-! ## Sources -/

/-- What is parsed is read as a source. -/
theorem takes_of_parse {config : Config} {source : String} {program : Source}
    (h : parse config source = .ok program) :
    Takes (.call .source) source.toList (program.rifts.map .rift) [] := by
  rcases hrecognize : recognize config source with e | recognized
  · rw [parse, hrecognize] at h
    cases h
  obtain ⟨d, hd, rfl⟩ := recognize_eq_ok_iff.1 hrecognize
  rw [parse_eq_program hd, Derivation.program] at h
  rcases hparts : d.fragments with e | parts
  · rw [hparts] at h
    cases h
  · obtain ⟨rifts, rfl, -⟩ : Rule.Makes .source source.toList parts [] :=
      makes_of_takes ⟨d, hd, hparts⟩
    rw [hparts, Except.map, Fragment.filterMap_rift?_map] at h
    obtain rfl := Except.ok.inj h
    exact ⟨d, hd, hparts⟩

/-- Two programs with a newline between them are parsed as the rifts of the one followed by those of
the other. -/
theorem parse_append {config : Config} {s t : String} {a b : Source} (ha : parse config s = .ok a)
    (hb : parse config t = .ok b) : parse config (s ++ "\n" ++ t) = .ok ⟨a.rifts ++ b.rifts⟩ := by
  obtain ⟨w, s', rifts, hs, hparts, hw, hprogram⟩ := exists_isProgramText (takes_of_parse ha)
  obtain ⟨w', t', rifts', ht, hparts', hw', hprogram'⟩ := exists_isProgramText (takes_of_parse hb)
  have hsplit : (s ++ "\n" ++ t).toList = w ++ (s' ++ '\n' :: (w' ++ t')) := by
    simp [String.toList_append, hs, ht]
  refine parse_of_takes ?_
  rw [hsplit, List.map_append, hparts, hparts', ← List.map_append]
  exact (hprogram.append hw' hprogram').takes_source hw

set_option maxRecDepth 100000 in
/-- Braces in a string and in comments, one of which ends only with the text. -/
theorem parse_append_comment : ∃ a b,
    parse {} "a => \x7b f(\"\x7d\") \x7d # \x7b" = .ok a ∧ a.rifts.length = 1 ∧
      parse {} "# \x7d\nb=>\x7b-1\x7d c=>\x7b\x7d" = .ok b ∧ b.rifts.length = 2 ∧
      parse {}
        ("a => \x7b f(\"\x7d\") \x7d # \x7b" ++ "\n" ++ "# \x7d\nb=>\x7b-1\x7d c=>\x7b\x7d") =
        .ok ⟨a.rifts ++ b.rifts⟩ := by
  obtain ⟨a, ha, hlength⟩ : ∃ a, parse {} "a => \x7b f(\"\x7d\") \x7d # \x7b" = .ok a ∧
      a.rifts.length = 1 :=
    exists_parse_of_run (fun program => program.rifts.length) (n := 200) (by decide +kernel) {}
  obtain ⟨b, hb, hlength'⟩ : ∃ b, parse {} "# \x7d\nb=>\x7b-1\x7d c=>\x7b\x7d" = .ok b ∧
      b.rifts.length = 2 :=
    exists_parse_of_run (fun program => program.rifts.length) (n := 200) (by decide +kernel) {}
  exact ⟨a, b, ha, hlength, hb, hlength', parse_append ha hb⟩

end RiftLang
