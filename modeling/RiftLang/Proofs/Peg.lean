import Mathlib.Tactic.Linarith
import RiftLang.Token

/-!
# Parsing expressions

The meaning of a parsing expression grammar, said without a cursor: which prefix of a text an
expression matches, and by which derivation. Nothing is recorded on the way, and nothing is
remembered.

* `Peg` — parsing expressions, with `Peg.opt`, `Peg.ahead`, `Peg.seqs`, `Peg.choices`, … built from
  them.
* `Derivation` — how an expression matched. `Derivation.chars` is the text that it spans, and
  `Derivation.tokens` lists its rules, captures and actions in post-order.
* `Parses` — an expression matches a prefix of a text, or fails on the text. Choice is ordered,
  repetition is greedy, and lookahead consumes nothing.
* `Parses.unique` — there is at most one outcome, and `Parses.eq_append` — a match spans what it
  consumes.
-/

namespace RiftLang

/-- A parsing expression. -/
inductive Peg where
  /-- Matches the empty text. -/
  | empty
  /-- Matches nothing. -/
  | fail
  /-- One character that passes the test. -/
  | one (test : Char → Bool)
  /-- These characters in a row. -/
  | word (s : String)
  /-- One after the other. -/
  | seq (first second : Peg)
  /-- The first or, where it fails, the second. -/
  | choice (first second : Peg)
  /-- As often as it matches. -/
  | star (body : Peg)
  /-- As often as it matches, but at least once. -/
  | plus (body : Peg)
  /-- Only where the body fails; consumes nothing. -/
  | absent (body : Peg)
  /-- The body, as captured text. -/
  | text (body : Peg)
  /-- The empty text, with an action. -/
  | action (a : Action)
  /-- What the rules say. -/
  | call (r : Rule)

namespace Peg

/-- The body, or the empty text. -/
def opt (body : Peg) : Peg :=
  choice body empty

/-- Only where the body matches; consumes nothing. -/
def ahead (body : Peg) : Peg :=
  absent (absent body)

/-- All in a row. -/
def seqs (steps : List Peg) : Peg :=
  steps.foldr seq empty

/-- The first that matches. -/
def choices (alternatives : List Peg) : Peg :=
  alternatives.foldr choice fail

/-- Any character. -/
def any : Peg :=
  one fun _ => true

/-- This character. -/
def char (c : Char) : Peg :=
  one (· == c)

/-- One of these characters. -/
def oneOf (cs : List Char) : Peg :=
  one (cs.contains ·)

/-- A character of one of these inclusive ranges. -/
def within (ranges : List (Char × Char)) : Peg :=
  one fun c => ranges.any fun r => r.1 ≤ c && c ≤ r.2

/-- The steps between the opening and the closing of a node. -/
def node (kind : NodeKind) (steps : List Peg) : Peg :=
  seqs (action (.begin kind) :: steps ++ [action .finish])

end Peg

/-! ## Derivations -/

/-- How an expression matched. -/
inductive Derivation where
  /-- Characters in a row. -/
  | leaf (cs : List Char)
  /-- An action. -/
  | action (a : Action)
  /-- One derivation after the other. -/
  | append (first second : Derivation)
  /-- A match of a rule or captured text, with what it is made of. -/
  | capture (symbol : Symbol) (body : Derivation)
  deriving Inhabited

namespace Derivation

/-- The text that a derivation spans. -/
def chars : Derivation → List Char
  | leaf cs => cs
  | action _ => []
  | append first second => first.chars ++ second.chars
  | capture _ body => body.chars

/-- The number of characters spanned. -/
def width (d : Derivation) : Nat :=
  d.chars.length

/-- The rules, captured texts and actions of a derivation in post-order, each with its span and with
the number of captures around it. The derivation begins at the offset `start`, inside `depth`
captures. -/
def tokens : Derivation → (start depth : Nat) → List Token
  | leaf _, _, _ => []
  | action a, start, depth => [⟨.action a, start, start, depth⟩]
  | append first second, start, depth =>
    first.tokens start depth ++ second.tokens (start + first.width) depth
  | capture symbol body, start, depth =>
    body.tokens start (depth + 1) ++ [⟨symbol, start, start + body.width, depth⟩]

/-- Text is as wide as it is long. -/
@[simp] theorem width_leaf (cs : List Char) : (leaf cs).width = cs.length := rfl

/-- An action has no width. -/
@[simp] theorem width_action (a : Action) : (action a).width = 0 := rfl

/-- Derivations in a row are as wide as both. -/
@[simp] theorem width_append (d e : Derivation) : (d.append e).width = d.width + e.width := by
  simp [width, chars]

/-- A capture is as wide as its inside. -/
@[simp] theorem width_capture (s : Symbol) (d : Derivation) : (capture s d).width = d.width := rfl

end Derivation

/-! ## Outcomes -/

variable {rules : Rule → Peg}

variable (rules) in
/-- The outcome of an expression on a text: a derivation with the rest of the text, or a failure. -/
inductive Parses : Peg → List Char → Option (Derivation × List Char) → Prop where
  | empty {s : List Char} : Parses .empty s (some (.leaf [], s))
  | fail {s : List Char} : Parses .fail s none
  | one {test : Char → Bool} {c : Char} {s : List Char} (h : test c = true) :
      Parses (.one test) (c :: s) (some (.leaf [c], s))
  | one_fail {test : Char → Bool} {s : List Char} (h : ∀ c ∈ s.head?, test c = false) :
      Parses (.one test) s none
  | word {w : String} {s : List Char} : Parses (.word w) (w.toList ++ s) (some (.leaf w.toList, s))
  | word_fail {w : String} {s : List Char} (h : ¬ w.toList <+: s) : Parses (.word w) s none
  | seq {a b : Peg} {s s' s'' : List Char} {d e : Derivation} (ha : Parses a s (some (d, s')))
    (hb : Parses b s' (some (e, s''))) :
      Parses (.seq a b) s (some (d.append e, s''))
  | seq_fail_left {a b : Peg} {s : List Char} (ha : Parses a s none) : Parses (.seq a b) s none
  | seq_fail_right {a b : Peg} {s s' : List Char} {d : Derivation}
    (ha : Parses a s (some (d, s'))) (hb : Parses b s' none) :
      Parses (.seq a b) s none
  | choice_left {a b : Peg} {s : List Char} {m : Derivation × List Char}
    (ha : Parses a s (some m)) :
      Parses (.choice a b) s (some m)
  | choice_right {a b : Peg} {s : List Char} {res : Option (Derivation × List Char)}
    (ha : Parses a s none) (hb : Parses b s res) :
      Parses (.choice a b) s res
  | star_stop {a : Peg} {s : List Char} (ha : Parses a s none) :
      Parses (.star a) s (some (.leaf [], s))
  | star {a : Peg} {s s' s'' : List Char} {d e : Derivation} (ha : Parses a s (some (d, s')))
    (hs : Parses (.star a) s' (some (e, s''))) :
      Parses (.star a) s (some (d.append e, s''))
  | plus {a : Peg} {s s' s'' : List Char} {d e : Derivation} (ha : Parses a s (some (d, s')))
    (hs : Parses (.star a) s' (some (e, s''))) :
      Parses (.plus a) s (some (d.append e, s''))
  | plus_fail {a : Peg} {s : List Char} (ha : Parses a s none) : Parses (.plus a) s none
  | absent {a : Peg} {s : List Char} (ha : Parses a s none) :
      Parses (.absent a) s (some (.leaf [], s))
  | absent_fail {a : Peg} {s : List Char} {m : Derivation × List Char} (ha : Parses a s (some m)) :
      Parses (.absent a) s none
  | text {a : Peg} {s s' : List Char} {d : Derivation} (ha : Parses a s (some (d, s'))) :
      Parses (.text a) s (some (.capture .text d, s'))
  | text_fail {a : Peg} {s : List Char} (ha : Parses a s none) : Parses (.text a) s none
  | action {a : Action} {s : List Char} : Parses (.action a) s (some (.action a, s))
  | call {r : Rule} {s s' : List Char} {d : Derivation} (h : Parses (rules r) s (some (d, s'))) :
      Parses (.call r) s (some (.capture (.rule r) d, s'))
  | call_fail {r : Rule} {s : List Char} (h : Parses (rules r) s none) : Parses (.call r) s none

/-- An expression has one outcome on a text. -/
theorem Parses.unique {e : Peg} {s : List Char} {res res' : Option (Derivation × List Char)}
    (h : Parses rules e s res) (h' : Parses rules e s res') : res = res' := by
  induction h generalizing res' with
  | empty | fail | action => cases h'; rfl
  | one hc =>
      cases h' with
      | one => rfl
      | one_fail hf => simp [hf _ rfl] at hc
  | one_fail hf =>
      cases h' with
      | one hc => simp [hf _ rfl] at hc
      | one_fail => rfl
  | @word w s =>
      generalize hs : w.toList ++ s = s' at h'
      cases h' with
      | word => rw [List.append_cancel_left hs]
      | word_fail hf => exact absurd ⟨_, hs⟩ hf
  | word_fail hf =>
      cases h' with
      | word => exact absurd (List.prefix_append _ _) hf
      | word_fail => rfl
  | seq _ _ iha ihb =>
      cases h' with
      | seq ha hb => cases iha ha; cases ihb hb; rfl
      | seq_fail_left ha => cases iha ha
      | seq_fail_right ha hb => cases iha ha; cases ihb hb
  | seq_fail_left _ iha =>
      cases h' with
      | seq ha => cases iha ha
      | seq_fail_left | seq_fail_right => rfl
  | seq_fail_right _ _ iha ihb =>
      cases h' with
      | seq ha hb => cases iha ha; cases ihb hb
      | seq_fail_left | seq_fail_right => rfl
  | choice_left _ iha =>
      cases h' with
      | choice_left ha => exact iha ha
      | choice_right ha => cases iha ha
  | choice_right _ _ iha ihb =>
      cases h' with
      | choice_left ha => cases iha ha
      | choice_right _ hb => exact ihb hb
  | star_stop _ iha =>
      cases h' with
      | star_stop => rfl
      | star ha => cases iha ha
  | star _ _ iha ihs =>
      cases h' with
      | star_stop ha => cases iha ha
      | star ha hs => cases iha ha; cases ihs hs; rfl
  | plus _ _ iha ihs =>
      cases h' with
      | plus ha hs => cases iha ha; cases ihs hs; rfl
      | plus_fail ha => cases iha ha
  | plus_fail _ iha =>
      cases h' with
      | plus ha => cases iha ha
      | plus_fail => rfl
  | absent _ iha =>
      cases h' with
      | absent => rfl
      | absent_fail ha => cases iha ha
  | absent_fail _ iha =>
      cases h' with
      | absent ha => cases iha ha
      | absent_fail => rfl
  | text _ iha =>
      cases h' with
      | text ha => cases iha ha; rfl
      | text_fail ha => cases iha ha
  | text_fail _ iha =>
      cases h' with
      | text ha => cases iha ha
      | text_fail => rfl
  | call _ ih =>
      cases h' with
      | call h => cases ih h; rfl
      | call_fail h => cases ih h
  | call_fail _ ih =>
      cases h' with
      | call h => cases ih h
      | call_fail => rfl

/-- A match consumes what its derivation spans. -/
theorem Parses.eq_append {e : Peg} {s s' : List Char} {d : Derivation}
    (h : Parses rules e s (some (d, s'))) : s = d.chars ++ s' := by
  generalize hres : some (d, s') = res at h
  induction h generalizing d s' with
  | empty | one _ | word | action => cases hres; rfl
  | star_stop _ | absent _ => cases hres; rfl
  | seq _ _ iha ihb | star _ _ iha ihb | plus _ _ iha ihb =>
      cases hres
      rw [iha rfl, ihb rfl]
      exact (List.append_assoc _ _ _).symm
  | choice_left _ ih => exact ih hres
  | choice_right _ _ _ ih => exact ih hres
  | text _ ih =>
      cases hres
      have hbody := ih rfl
      exact hbody
  | call _ ih =>
      cases hres
      have hbody := ih rfl
      exact hbody
  | _ => cases hres

/-! ### Matches by expression -/

section inversion

variable {a b : Peg} {test : Char → Bool} {w : String} {r : Rule} {s s' : List Char}
  {d : Derivation}

/-- The empty expression matches nothing, everywhere. -/
theorem parses_empty_iff : Parses rules .empty s (some (d, s')) ↔ d = .leaf [] ∧ s' = s := by
  constructor
  · rintro ⟨⟩
    exact ⟨rfl, rfl⟩
  · rintro ⟨rfl, rfl⟩
    exact .empty

/-- A character is matched where the text begins with one that passes the test. -/
theorem parses_one_iff :
    Parses rules (.one test) s (some (d, s')) ↔ ∃ c, s = c :: s' ∧ test c = true ∧
      d = .leaf [c] := by
  constructor
  · rintro ⟨⟩
    exact ⟨_, rfl, ‹_›, rfl⟩
  · rintro ⟨c, rfl, hc, rfl⟩
    exact .one hc

/-- A word is matched where the text begins with it. -/
theorem parses_word_iff :
    Parses rules (.word w) s (some (d, s')) ↔ s = w.toList ++ s' ∧ d = .leaf w.toList := by
  constructor
  · rintro ⟨⟩
    exact ⟨rfl, rfl⟩
  · rintro ⟨rfl, rfl⟩
    exact .word

/-- Two expressions in a row match where the first matches and the second matches what it leaves. -/
theorem parses_seq_iff :
    Parses rules (.seq a b) s (some (d, s')) ↔
      ∃ d₁ s₁ d₂, Parses rules a s (some (d₁, s₁)) ∧ Parses rules b s₁ (some (d₂, s')) ∧
        d = d₁.append d₂ := by
  constructor
  · rintro ⟨⟩
    exact ⟨_, _, _, ‹_›, ‹_›, rfl⟩
  · rintro ⟨d₁, s₁, d₂, ha, hb, rfl⟩
    exact .seq ha hb

/-- A choice matches as its first branch does, or, where that fails, as its second does. -/
theorem parses_choice_iff :
    Parses rules (.choice a b) s (some (d, s')) ↔
      Parses rules a s (some (d, s')) ∨ Parses rules a s none ∧
        Parses rules b s (some (d, s')) := by
  constructor
  · rintro (_ | _)
    · exact .inl ‹_›
    · exact .inr ⟨‹_›, ‹_›⟩
  · rintro (ha | ⟨ha, hb⟩)
    · exact .choice_left ha
    · exact .choice_right ha hb

/-- A repetition with a round at least is a round and then a repetition. -/
theorem parses_plus_iff :
    Parses rules (.plus a) s (some (d, s')) ↔
      ∃ d₁ s₁ d₂, Parses rules a s (some (d₁, s₁)) ∧ Parses rules (.star a) s₁ (some (d₂, s')) ∧
        d = d₁.append d₂ := by
  constructor
  · rintro ⟨⟩
    exact ⟨_, _, _, ‹_›, ‹_›, rfl⟩
  · rintro ⟨d₁, s₁, d₂, ha, hs, rfl⟩
    exact .plus ha hs

/-- Absence matches nothing, where the body fails. -/
theorem parses_absent_iff :
    Parses rules (.absent a) s (some (d, s')) ↔ Parses rules a s none ∧ d = .leaf [] ∧ s' = s := by
  constructor
  · rintro ⟨⟩
    exact ⟨‹_›, rfl, rfl⟩
  · rintro ⟨ha, rfl, rfl⟩
    exact .absent ha

/-- A captured text is what its body matches. -/
theorem parses_text_iff :
    Parses rules (.text a) s (some (d, s')) ↔
      ∃ d₁, Parses rules a s (some (d₁, s')) ∧ d = .capture .text d₁ := by
  constructor
  · rintro ⟨⟩
    exact ⟨_, ‹_›, rfl⟩
  · rintro ⟨d₁, ha, rfl⟩
    exact .text ha

/-- An action matches nothing, everywhere. -/
theorem parses_action_iff {x : Action} :
    Parses rules (.action x) s (some (d, s')) ↔ d = .action x ∧ s' = s := by
  constructor
  · rintro ⟨⟩
    exact ⟨rfl, rfl⟩
  · rintro ⟨rfl, rfl⟩
    exact .action

/-- A rule matches what it stands for. -/
theorem parses_call_iff :
    Parses rules (.call r) s (some (d, s')) ↔
      ∃ d₁, Parses rules (rules r) s (some (d₁, s')) ∧ d = .capture (.rule r) d₁ := by
  constructor
  · rintro ⟨⟩
    exact ⟨_, ‹_›, rfl⟩
  · rintro ⟨d₁, h, rfl⟩
    exact .call h

/-- The failing expression matches nowhere. -/
theorem not_parses_fail {m : Derivation × List Char} : ¬ Parses rules .fail s (some m) := by
  rintro ⟨⟩

end inversion

end RiftLang
