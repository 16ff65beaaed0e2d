import RiftLang.Proofs.WellFormed.Parsed

/-!
# Layout between words

Blanks and comments, as texts of their own and as they are read.

* `IsLayout` — blanks, and comments that end with a newline.
* `takes_sp_layout` — layout before a text that begins with neither is read as a whole.
* `IsRun`, `isRun_of_parses` — what is read as blanks and comments is layout, but that the last
  comment may lack its newline at the end of the text.
-/

namespace RiftLang

open Peg

/-- Blanks, and comments that end with a newline. -/
inductive IsLayout : List Char → Prop where
  /-- Nothing. -/
  | nil : IsLayout []
  /-- A blank, and layout. -/
  | blank {c : Char} {s : List Char} (hc : isBlank c = true) (hs : IsLayout s) : IsLayout (c :: s)
  /-- A comment with its newline, and layout. -/
  | comment {cs s : List Char} (hcs : '\n' ∉ cs) (hs : IsLayout s) :
      IsLayout ('#' :: cs ++ '\n' :: s)

variable {s s' u v w cs : List Char} {d : Derivation} {r : Rule}

namespace IsLayout

/-- Layout after layout is layout. -/
theorem append (hu : IsLayout u) (hv : IsLayout v) : IsLayout (u ++ v) := by
  induction hu with
  | nil => exact hv
  | blank hc _ ih => exact .blank hc ih
  | comment hcs _ ih =>
      rw [List.append_assoc, List.cons_append]
      exact .comment hcs ih

/-- Layout that begins with a newline is layout after it. -/
theorem of_newline (h : IsLayout ('\n' :: s)) : IsLayout s := by
  cases h with
  | blank _ hs => exact hs

/-- A line break alone is layout. -/
theorem newline : IsLayout ['\n'] :=
  .blank rfl .nil

end IsLayout

/-- The end of a text is neither a blank nor a comment. -/
theorem solid_nil : Solid [] :=
  fun c hc => by cases hc

/-! ## Layout is read -/

/-- A comment goes on up to the end of its line. -/
theorem takes_line (hcs : '\n' ∉ cs) :
    Takes (.star (seqs [.absent (.char '\n'), any])) (cs ++ '\n' :: s) [] ('\n' :: s) := by
  induction cs with
  | nil => exact takes_star_nil (.seq_fail_left (.absent_fail (.one rfl)))
  | cons c cs ih =>
      obtain ⟨hne, hcs⟩ := not_or.1 (mt List.mem_cons.2 hcs)
      have habsent : Parses table (.char '\n') (c :: (cs ++ '\n' :: s)) none :=
        .one_fail (forall_mem_head_cons (beq_false_of_ne (Ne.symm hne)))
      have hany : Takes any (c :: (cs ++ '\n' :: s)) [] (cs ++ '\n' :: s) := takes_one rfl
      exact ((takes_absent habsent).after hany.last).star_cons (ih hcs)

/-- A comment with its line break is read as one, and stands for nothing. -/
theorem takes_comment (hcs : '\n' ∉ cs) :
    Takes (.choice (.call .blank) (.call .comment)) ('#' :: cs ++ '\n' :: s) [] ('\n' :: s) := by
  have hblank : Parses table (.call .blank) ('#' :: cs ++ '\n' :: s) none := by
    refine .call_fail ?_
    show Parses table (oneOf [' ', '\t', '\r', '\n']) _ _
    rw [oneOf_blank]
    exact .one_fail (forall_mem_head_cons rfl)
  have hline := (takes_line (s := s) hcs).last
  exact (Takes.call (r := .comment) ((takes_char '#' _).after hline) rfl).choice_right hblank

/-- Layout is read whole by a repetition of blanks and comments, up to text that is not layout, and
stands for nothing. -/
theorem takes_star_layout (hw : IsLayout w) (hs : Solid s) :
    Takes (.star (.choice (.call .blank) (.call .comment))) (w ++ s) [] s := by
  induction hw with
  | nil => exact takes_star_nil (parses_blank_none hs)
  | blank hc _ ih => exact (takes_blank hc).star_cons ih
  | comment hcs _ ih =>
      rw [List.append_assoc, List.cons_append]
      exact (takes_comment hcs).star_cons ((takes_blank rfl).star_cons ih)

/-- Layout before a text that begins with neither a blank nor a comment is read as a whole. -/
theorem takes_sp_layout (hw : IsLayout w) (hs : Solid s) : Takes sp (w ++ s) [] s :=
  Takes.call (r := .space) (takes_star_layout hw hs) rfl

/-! ## What is read is layout -/

/-- The parts of a repetition, one after the other. -/
theorem chain_of_parses {a : Peg} (h : Parses table (.star a) s (some (d, s'))) :
    Chain (Shape table (fun _ _ _ _ => True) a) (Parses table a · none) s d s' :=
  h.shape fun _ _ _ _ _ _ => trivial

/-- A blank is one character, and a blank one. -/
theorem exists_of_parses_blank (h : Parses table (.call .blank) s (some (d, s'))) :
    ∃ c, d.chars = [c] ∧ isBlank c = true := by
  obtain ⟨body, hbody, rfl⟩ := parses_call_iff.1 h
  replace hbody : Parses table (oneOf [' ', '\t', '\r', '\n']) s (some (body, s')) := hbody
  rw [oneOf_blank] at hbody
  obtain ⟨c, -, hc, rfl⟩ := parses_one_iff.1 hbody
  exact ⟨c, rfl, hc⟩

/-- The rest of a line is read up to its newline or to the end of the text. -/
theorem line_of_parses (h : Parses table (.star (seqs [.absent (.char '\n'), any]))
    s (some (d, s'))) :
    '\n' ∉ d.chars ∧ ∀ c ∈ s'.head?, c = '\n' := by
  have hline := chain_of_parses h
  clear h
  induction hline with
  | nil hstop =>
      refine ⟨List.not_mem_nil, fun c hc => ?_⟩
      cases hstop with
      | seq_fail_left habsent =>
          cases habsent with
          | absent_fail hnewline =>
              obtain ⟨c', rfl, hc', -⟩ := parses_one_iff.1 hnewline
              obtain rfl := Option.some.inj hc
              exact eq_of_beq hc'
      | seq_fail_right habsent hany =>
          -- any character would have been taken
          obtain ⟨-, -, rfl⟩ := parses_absent_iff.1 habsent
          cases hany with
          | seq_fail_left hany =>
              cases hany with
              | one_fail hnone => cases hnone c hc
          | seq_fail_right _ hempty => cases hempty
  | cons hitem _ ih =>
      obtain ⟨_, _, _, ⟨hnone, rfl, rfl⟩, ⟨_, _, _, ⟨c, rfl, -, rfl⟩, ⟨rfl, rfl⟩, rfl⟩, rfl⟩ :=
        hitem
      refine ⟨fun hmem => ?_, ih.2⟩
      rcases List.mem_cons.1 hmem with rfl | hmem
      · cases hnone with
        | one_fail hnone => cases hnone '\n' rfl
      · exact ih.1 hmem

/-- A comment ends where the line does, or the text. -/
theorem exists_of_parses_comment (h : Parses table (.call .comment) s (some (d, s'))) :
    ∃ cs, d.chars = '#' :: cs ∧ '\n' ∉ cs ∧ ∀ c ∈ s'.head?, c = '\n' := by
  obtain ⟨body, hbody, rfl⟩ := parses_call_iff.1 h
  obtain ⟨mark, s₁, line, hmark, hline, rfl⟩ := parses_seq_iff.1 hbody
  obtain ⟨line, s₂, last, hline, hlast, rfl⟩ := parses_seq_iff.1 hline
  obtain ⟨rfl, rfl⟩ := parses_empty_iff.1 hlast
  obtain ⟨c, -, hc, rfl⟩ := parses_one_iff.1 hmark
  obtain rfl : c = '#' := eq_of_beq hc
  exact ⟨line.chars, congrArg ('#' :: ·) (List.append_nil _), line_of_parses hline⟩

/-- A text that begins with a blank or a comment is read further. -/
theorem solid_of_parses_none (h : Parses table (.choice (.call .blank) (.call .comment)) s none) :
    Solid s := by
  obtain ⟨hblank, hcomment⟩ : Parses table (.call .blank) s none ∧
      Parses table (.call .comment) s none := by
    cases h with
    | choice_right hblank hcomment => exact ⟨hblank, hcomment⟩
  intro c hc
  refine ⟨?_, ?_⟩
  · replace hblank : Parses table (oneOf [' ', '\t', '\r', '\n']) s none := parses_table_none hblank
    rw [oneOf_blank] at hblank
    cases hblank with
    | one_fail hnone => exact hnone c hc
  · rintro rfl
    cases parses_table_none hcomment with
    | seq_fail_left hmark =>
        cases hmark with
        | one_fail hnone => cases hnone '#' hc
    | seq_fail_right _ hline =>
        cases hline with
        | seq_fail_left hline => cases hline
        | seq_fail_right _ hlast => cases hlast

/-- What was read as blanks and comments, and where it stops. -/
structure IsRun (cs rest : List Char) : Prop where
  /-- The text goes on with neither a blank nor a comment. -/
  solid : Solid rest
  /-- At the end of the text the last comment may lack its newline. -/
  isLayout_newline : IsLayout (cs ++ ['\n'])
  /-- Before the end of the text, no comment lacks its newline. -/
  isLayout : rest ≠ [] → IsLayout cs

/-- What a repetition of blanks and comments reads is layout, except perhaps for a last comment that
ends with the text. -/
theorem isRun_of_parses_star (h : Parses table (.star (.choice (.call .blank) (.call .comment)))
    s (some (d, s'))) :
    IsRun d.chars s' := by
  have hchain := chain_of_parses h
  clear h
  induction hchain with
  | nil hstop => exact ⟨solid_of_parses_none hstop, .newline, fun _ => .nil⟩
  | @cons s s₁ s' d e hitem hrest ih =>
      rcases hitem with ⟨hblank, -⟩ | ⟨-, hcomment, -⟩
      · obtain ⟨c, hchars, hc⟩ := exists_of_parses_blank hblank
        rw [Derivation.chars, hchars]
        exact ⟨ih.solid, .blank hc ih.isLayout_newline, fun hne => .blank hc (ih.isLayout hne)⟩
      · obtain ⟨cs, hchars, hcs, hend⟩ := exists_of_parses_comment hcomment
        have hsplit : s₁ = e.chars ++ s' := (hrest.parses fun _ _ _ => Shape.parses).eq_append
        rw [Derivation.chars, hchars]
        rcases hrest' : e.chars with _ | ⟨c, cs'⟩
        · -- nothing was read after the comment, so it is the last line of the text
          obtain rfl : s' = [] := by
            rw [hsplit, hrest', List.nil_append] at hend
            cases s' with
            | nil => rfl
            | cons c s' =>
                obtain rfl := hend c rfl
                cases (ih.solid '\n' rfl).1
          refine ⟨ih.solid, ?_, fun hne => absurd rfl hne⟩
          rw [List.append_nil]
          exact .comment hcs .nil
        · obtain rfl : c = '\n' := hend c (by rw [hsplit, hrest']; rfl)
          refine ⟨ih.solid, ?_, fun hne => ?_⟩
          · have hlayout := ih.isLayout_newline
            rw [hrest'] at hlayout
            rw [List.append_assoc]
            exact .comment hcs hlayout.of_newline
          · have hlayout := ih.isLayout hne
            rw [hrest'] at hlayout
            exact .comment hcs hlayout.of_newline

/-- Is the rule one of those for blanks and comments in a row? -/
def Rule.isSpace : Rule → Bool
  | .space | .someSpace => true
  | _ => false

/-- The same of every rule for layout in a row. -/
theorem isRun_of_parses (hr : r.isSpace = true) (h : Parses table (.call r) s (some (d, s'))) :
    IsRun d.chars s' := by
  obtain ⟨body, hbody, rfl⟩ := parses_call_iff.1 h
  show IsRun body.chars s'
  cases r with
  | space => exact isRun_of_parses_star hbody
  | someSpace =>
      obtain ⟨d₁, s₁, d₂, hfirst, hrest, rfl⟩ := parses_plus_iff.1 hbody
      exact isRun_of_parses_star (.star hfirst hrest)
  | _ => cases hr

/-- Blanks and comments stand for nothing. -/
theorem fragments_of_parses (hr : r.isSpace = true) (h : Parses table (.call r) s (some (d, s'))) :
    d.fragments = .ok [] := by
  have hof := isOf_of_parses h
  have hlexical : r.isLexical = true := by
    cases r <;> first | rfl | cases hr
  obtain ⟨parts, hparts, hyields⟩ := hof.means.ok (by rw [hof.numerals_eq_nil hlexical]; rfl)
  obtain rfl : parts = [] := by
    cases r <;> first | exact hyields.1 | cases hr
  exact hparts

end RiftLang
