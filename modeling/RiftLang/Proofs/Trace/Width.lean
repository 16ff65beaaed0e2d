import RiftLang.Proofs.Recognition

/-!
# Rules span text

No rule of Rift matches without consuming, blanks apart. So whatever is live at a look, a token of
such a rule spans text, also where the rules around it come to nothing later.

* `Token.IsWide`, `Trace.IsWide` — tokens of rules that are not trivia span text, those left and
  those live at a look.
* `Pattern.leavesWide_trace`, `leavesWide_rift` — traces of patterns and of the rules of Rift are
  wide.
* `Trace.IsWide.frontier` — so are the tokens of the frontier that they leave.
-/

namespace RiftLang

/-- If the token is of a rule that is not trivia, it spans text. -/
def Token.IsWide (t : Token) : Prop :=
  ∀ r, t.symbol = .rule r → r.isTrivia = false → t.start < t.stop

/-- Depth plays no part in whether a token spans text. -/
theorem Token.IsWide.deepen {t : Token} (h : t.IsWide) (d : Nat) : (t.deepen d).IsWide := h

/-- The same of several tokens. -/
theorem forall_isWide_map_deepen {tokens : List Token} (h : ∀ x ∈ tokens, x.IsWide) (d : Nat) :
    ∀ x ∈ tokens.map (Token.deepen d), x.IsWide :=
  List.forall_mem_map.2 fun x hx => (h x hx).deepen d

namespace Trace

/-- All tokens of the trace are wide, also those that were live at a look. -/
structure IsWide (t : Trace) : Prop where
  /-- The tokens of the trace are wide. -/
  tokens : ∀ x ∈ t.tokens, x.IsWide
  /-- So are those that were live at its looks. -/
  looks : ∀ l ∈ t.looks, ∀ x ∈ l.tokens, x.IsWide

variable {t u : Trace} {p : Nat}

/-- Nothing has no tokens. -/
theorem isWide_skip (p : Nat) : (skip p).IsWide :=
  ⟨by simp [skip], by simp [skip]⟩

/-- Reading a character has none. -/
theorem isWide_step (source : Array Char) (test : Char → Bool) (p : Nat) :
    (step source test p).IsWide :=
  ⟨by simp [step], by simp [step]⟩

/-- The token of an action is of no rule. -/
theorem isWide_act (a : Action) (p : Nat) : (act a p).IsWide := by
  refine ⟨List.forall_mem_singleton.2 ?_, by simp [act]⟩
  intro r hr
  cases hr

/-- Traces in a row are wide if both are. -/
theorem IsWide.andThen (ht : t.IsWide) (hu : u.IsWide) : (t.andThen u).IsWide where
  tokens := List.forall_mem_append.2 ⟨ht.tokens, hu.tokens⟩
  looks := List.forall_mem_append.2 ⟨ht.looks, List.forall_mem_map.2 fun l hl =>
    List.forall_mem_append.2 ⟨ht.tokens, hu.looks l hl⟩⟩

/-- Putting a trace back drops its tokens and leaves its looks as they were. -/
theorem IsWide.rewind (ht : t.IsWide) (p : Nat) : (t.rewind p).IsWide :=
  ⟨by simp [Trace.rewind], ht.looks⟩

/-- The verdict plays no part in it. -/
theorem IsWide.withVerdict (ht : t.IsWide) (matched : Bool) : (t.withVerdict matched).IsWide :=
  ⟨ht.tokens, ht.looks⟩

/-- A wide trace stays so, kept or put back. -/
theorem IsWide.settle (ht : t.IsWide) (p : Nat) : (t.settle p).IsWide := by
  unfold Trace.settle
  split
  · exact ht
  · exact ht.rewind p

/-- A capture is wide if its own token is. -/
theorem IsWide.inside (ht : t.IsWide) {symbol : Symbol}
    (hcapture : t.matched = true → (⟨symbol, p, t.stop, 0⟩ : Token).IsWide) :
    (t.inside symbol p).IsWide := by
  refine ⟨?_, List.forall_mem_map.2 fun l hl => forall_isWide_map_deepen (ht.looks l hl) 1⟩
  cases hm : t.matched with
  | false => simp [Trace.inside, hm]
  | true =>
    simp only [Trace.inside, hm, if_true]
    exact List.forall_mem_append.2
      ⟨forall_isWide_map_deepen ht.tokens 1, List.forall_mem_singleton.2 (hcapture hm)⟩

/-- The frontier shows what was live before or at one of the looks. -/
theorem forall_isWide_foldl_note {looks : List Look} {frontier : Option Frontier}
    (hlooks : ∀ l ∈ looks, ∀ x ∈ l.tokens, x.IsWide)
    (hfrontier : ∀ f, frontier = some f → ∀ x ∈ f.tokens, x.IsWide) :
    ∀ f, looks.foldl (View.note ⟨0, 0, [], [], none⟩) frontier = some f →
      ∀ x ∈ f.tokens, x.IsWide := by
  induction looks generalizing frontier with
  | nil => exact hfrontier
  | cons l looks ih =>
      obtain ⟨hl, hlooks⟩ := List.forall_mem_cons.1 hlooks
      have hnew : ∀ x ∈ l.tokens.map (Token.deepen 0), x.IsWide := forall_isWide_map_deepen hl 0
      refine ih hlooks fun f hf => ?_
      rcases frontier with _ | f'
      · cases hf
        exact hnew
      · unfold View.note Frontier.reach at hf
        dsimp only at hf
        split at hf
        · cases hf
          exact hnew
        · cases hf
          exact hfrontier _ rfl

/-- The tokens at the frontier of a wide trace are wide. -/
theorem IsWide.frontier (ht : t.IsWide) : ∀ x ∈ t.frontier.tokens, x.IsWide := by
  unfold Trace.frontier View.follow
  dsimp only
  rcases hf : t.looks.foldl (View.note ⟨0, 0, [], [], none⟩) none with _ | f
  · simp [Frontier.empty]
  · exact forall_isWide_foldl_note ht.looks (by simp) f hf

end Trace

/-! ## Patterns -/

/-- The pattern itself captures no rule. -/
def Pattern.CapturesNoRule : Pattern → Prop
  | both first second | either first second => first.CapturesNoRule ∧ second.CapturesNoRule
  | many body | absent body | text body => body.CapturesNoRule
  | rule _ _ | memo _ _ => False
  | succeed | one _ | action _ | call _ => True

/-- The pattern of an expression captures no rule; it only calls them. -/
theorem Peg.capturesNoRule_pattern (e : Peg) : e.pattern.CapturesNoRule := by
  induction e with
  | empty | fail | one _ | action _ | call _ => trivial
  | word s =>
      refine ⟨?_, trivial⟩
      show (Pattern.all (s.toList.map Pattern.char)).CapturesNoRule
      induction s.toList with
      | nil => trivial
      | cons c cs ih => exact ⟨trivial, ih⟩
  | seq _ _ iha ihb | choice _ _ iha ihb => exact ⟨iha, ihb⟩
  | star _ ih | absent _ ih | text _ ih => exact ih
  | plus _ ih => exact ⟨⟨ih, trivial⟩, ih⟩

/-- From within the source, traces end within it and are wide. -/
def LeavesWide (source : Array Char) (f : Nat → Option Trace) : Prop :=
  ∀ p t, p ≤ source.size → f p = some t → t.stop ≤ source.size ∧ t.IsWide

section patterns

variable {source : Array Char}

/-- A repetition is wide if its body is. -/
theorem LeavesWide.repeatTrace {f : Nat → Option Trace} (hf : LeavesWide source f) (budget : Nat) :
    LeavesWide source (RiftLang.repeatTrace f budget) := by
  induction budget with
  | zero =>
      intro p t hp h
      cases h
      exact ⟨hp, Trace.isWide_skip p⟩
  | succ budget ih =>
      intro p t hp h
      obtain ⟨u, hu, h⟩ := Option.bind_eq_some_iff.1 h
      obtain ⟨hstop, hwide⟩ := hf p u hp hu
      split_ifs at h
      · cases h
        exact ⟨hstop, hwide⟩
      · obtain ⟨w, hw, rfl⟩ := Option.map_eq_some_iff.1 h
        obtain ⟨hstop', hwide'⟩ := ih u.stop w hstop hw
        exact ⟨hstop', hwide.andThen hwide'⟩
      · cases h
        exact ⟨hp, (hwide.rewind p).withVerdict true⟩

/-- A pattern that captures no rule itself leaves wide traces if the rules called do. -/
theorem Pattern.leavesWide_trace {callee : Rule → Nat → Option Trace}
    (hcallee : ∀ r, LeavesWide source (callee r)) (pattern : Pattern)
    (hpattern : pattern.CapturesNoRule) : LeavesWide source (pattern.trace source callee) := by
  induction pattern with
  | succeed =>
      intro p t hp h
      cases h
      exact ⟨hp, Trace.isWide_skip p⟩
  | one test =>
      intro p t hp h
      cases h
      refine ⟨Trace.stop_step_of (P := (· ≤ source.size)) (fun hpassed => ?_) hp,
        Trace.isWide_step source test p⟩
      -- What passed the test is there.
      obtain ⟨ch, hnext, -⟩ := (Option.any_eq_true ..).1 hpassed
      exact (Array.getElem?_eq_some_iff.1 hnext).1
  | both first second ihf ihs =>
      intro p t hp h
      obtain ⟨u, hu, h⟩ := Option.bind_eq_some_iff.1 h
      obtain ⟨hstop, hwide⟩ := ihf hpattern.1 p u hp hu
      split_ifs at h
      · obtain ⟨w, hw, rfl⟩ := Option.map_eq_some_iff.1 h
        obtain ⟨hstop', hwide'⟩ := ihs hpattern.2 u.stop w hstop hw
        exact ⟨hstop', hwide.andThen hwide'⟩
      · cases h
        exact ⟨hstop, hwide⟩
  | either first second ihf ihs =>
      intro p t hp h
      obtain ⟨u, hu, h⟩ := Option.bind_eq_some_iff.1 h
      obtain ⟨hstop, hwide⟩ := ihf hpattern.1 p u hp hu
      split_ifs at h
      · cases h
        exact ⟨hstop, hwide⟩
      · obtain ⟨w, hw, rfl⟩ := Option.map_eq_some_iff.1 h
        obtain ⟨hstop', hwide'⟩ := ihs hpattern.2 p w hp hw
        exact ⟨Trace.stop_settle_of (P := (· ≤ source.size)) hstop' hp,
          (hwide.rewind p).andThen (hwide'.settle p)⟩
  | many body ih =>
      intro p
      exact (ih hpattern).repeatTrace _ p
  | absent body ih =>
      intro p t hp h
      obtain ⟨u, hu, rfl⟩ := Option.map_eq_some_iff.1 h
      obtain ⟨-, hwide⟩ := ih hpattern p u hp hu
      exact ⟨hp, (hwide.rewind p).withVerdict _⟩
  | text body ih =>
      intro p t hp h
      obtain ⟨u, hu, rfl⟩ := Option.map_eq_some_iff.1 h
      obtain ⟨hstop, hwide⟩ := ih hpattern p u hp hu
      exact ⟨Trace.stop_inside_of (P := (· ≤ source.size)) hstop hp .text,
        hwide.inside fun _ r hr => by cases hr⟩
  | rule _ _ | memo _ _ => exact absurd hpattern id
  | action a =>
      intro p t hp h
      cases h
      exact ⟨hp, Trace.isWide_act a p⟩
  | call r => exact hcallee r

/-- The rules of Rift leave wide traces. -/
theorem leavesWide_rift (depth : Nat) (r : Rule) :
    LeavesWide source (Grammar.rift.trace source depth r) := by
  induction depth generalizing r with
  | zero =>
      intro p t hp h
      cases h
  | succ depth ih =>
      intro p t hp h
      obtain ⟨res, hres, hshows⟩ := reads_rift (depth + 1) r p t hp h
      replace h : (Grammar.rift r).trace source (Grammar.rift.trace source depth) p = some t := h
      rw [trace_rift] at h
      obtain ⟨u, hu, rfl⟩ := Option.map_eq_some_iff.1 h
      obtain ⟨hstop, hwide⟩ :=
        (Peg.table r).pattern.leavesWide_trace ih (Peg.table r).capturesNoRule_pattern p u hp hu
      refine ⟨Trace.stop_inside_of (P := (· ≤ source.size)) hstop hp (.rule r),
        hwide.inside fun hm r' hr' htrivia => ?_⟩
      obtain rfl : r = r' := Symbol.rule.inj hr'
      rcases res with _ | ⟨d, s⟩
      · exact absurd (hm.symm.trans hshows) (by decide)
      · have hne : (Peg.call r).mayBeEmpty = false := by
          cases r <;> first | rfl | cases htrivia
        have hwidth := Peg.width_pos_of_parses hres hne
        have hstop' : (u.inside (.rule r) p).stop = p + d.width := hshows.2.1
        have hstop'' : (u.inside (.rule r) p).stop = u.stop := if_pos hm
        show p < u.stop
        omega

end patterns

end RiftLang
