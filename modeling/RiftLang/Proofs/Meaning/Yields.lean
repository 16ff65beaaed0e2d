import RiftLang.Proofs.Literal
import RiftLang.Proofs.Peg.Shape
import RiftLang.Proofs.Peg.Table

/-!
# What rules stand for

Every rule of the table stands for fragments of the sort that the rules around it ask for, unless a
number in it is out of range.

* `Peg.Spells`, `Rule.Spells` — the texts of an expression or of a rule of literals, with the flags
  put on the way.
* `Peg.Yields`, `Rule.Yields` — the fragments that an expression or a rule may stand for, with the
  flags put on the way.
* `Derivation.Means` — a derivation stands for such fragments, or fails at its first number out of
  range.
* `means_of_parses` — derivations of a rule stand for what the rule yields.
-/

namespace RiftLang

/-- Any number of items in a row. -/
inductive Rep {α β : Type} (item : List α → List β → Prop) : List α → List β → Prop where
  | nil : Rep item [] []
  | cons {as as' : List α} {bs bs' : List β} (h : item as bs) (hs : Rep item as' bs') :
      Rep item (as ++ as') (bs ++ bs')

/-- What every item says of its members holds of all members of a row. -/
theorem Rep.forall_mem {α β : Type} {item : List α → List β → Prop} {as : List α} {bs : List β}
    (h : Rep item as bs) {P : α → Prop} (hitem : ∀ as bs, item as bs → ∀ a ∈ as, P a) :
    ∀ a ∈ as, P a := by
  induction h with
  | nil => exact fun _ h => absurd h List.not_mem_nil
  | cons h _ ih =>
      intro a ha
      rcases List.mem_append.1 ha with ha | ha
      · exact hitem _ _ h a ha
      · exact ih a ha

/-! ## Texts -/

/-- The texts of a rule of literals, with the flags put on the way. Nothing is said of other
rules. -/
def Rule.Spells (r : Rule) (cs : List Char) (ms : List Mark) : Prop :=
  match r with
  | .digit => (∃ c, cs = [c] ∧ c.isDigit = true) ∧ ms = []
  | .wholeNumber | .integer => IsWhole cs ∧ ms = []
  | .decimal => IsDecimal cs ∧ ms = [.decimal]
  | .scientific => IsScientific cs ∧ .scientific ∈ ms
  | .stringChar => IsStringChar cs ∧ ms = []
  | .stringEscape => (∃ c, cs = ['\\', c] ∧ (escapeValue? c).isSome = true) ∧ ms = []
  | _ => True

namespace Peg

/-- The texts that an expression may match, with the flags put on the way. -/
def Spells : Peg → List Char → List Mark → Prop
  | empty | absent _ => fun cs ms => cs = [] ∧ ms = []
  | fail => fun _ _ => False
  | one test => fun cs ms => (∃ c, cs = [c] ∧ test c = true) ∧ ms = []
  | word w => fun cs ms => cs = w.toList ∧ ms = []
  | seq a b => fun cs ms => ∃ cs₁ ms₁ cs₂ ms₂,
    Spells a cs₁ ms₁ ∧ Spells b cs₂ ms₂ ∧ cs = cs₁ ++ cs₂ ∧ ms = ms₁ ++ ms₂
  | choice a b => fun cs ms => Spells a cs ms ∨ Spells b cs ms
  | star a => Rep (Spells a)
  | plus a => fun cs ms => ∃ cs₁ ms₁ cs₂ ms₂,
    Spells a cs₁ ms₁ ∧ Rep (Spells a) cs₂ ms₂ ∧ cs = cs₁ ++ cs₂ ∧ ms = ms₁ ++ ms₂
  | text a => Spells a
  | action (.mark m) => fun cs ms => cs = [] ∧ ms = [m]
  | action _ => fun cs ms => cs = [] ∧ ms = []
  | call r => r.Spells

end Peg

/-! ## Fragments -/

/-- The fragment is of the sort that the rule stands for. -/
def Rule.Fits (r : Rule) (part : Fragment) : Prop :=
  match r with
  | .rift => ∃ rift, part = .rift rift
  | .riftName | .reference | .localReference => ∃ ref, part = .node (.reference ref)
  | .block => ∃ lines, part = .block lines
  | .operator => ∃ op, part = .operator op
  | .parameters => ∃ parameters, part = .arguments parameters
  | .tuple => ∃ items, part = .node (.tuple items)
  | .mapEntry => ∃ key value, part = .entry key value
  | _ => ∃ n, part = .node n

/-- The fragments that a rule may stand for, with the flags put on the node around it. -/
def Rule.Yields (r : Rule) (parts : List Fragment) (ms : List Mark) : Prop :=
  match r with
  | .source => (∀ part ∈ parts, Rule.Fits .rift part) ∧ ms = []
  | .name => (∃ text, parts = [.text text]) ∧ ms = []
  | .decimal | .scientific => parts = []
  | .stringChar | .stringEscape | .integer | .wholeNumber | .digit | .someSpace | .space | .comment
  | .blank => parts = [] ∧ ms = []
  | r => (∃ part, parts = [part] ∧ r.Fits part) ∧ ms = []

namespace Peg

/-- The fragments that an expression may stand for, with the flags put on the way. -/
def Yields : Peg → List Fragment → List Mark → Prop
  | empty | one _ | word _ | absent _ => fun parts ms => parts = [] ∧ ms = []
  | fail => fun _ _ => False
  | seq a b => fun parts ms => ∃ parts₁ ms₁ parts₂ ms₂,
    Yields a parts₁ ms₁ ∧ Yields b parts₂ ms₂ ∧ parts = parts₁ ++ parts₂ ∧ ms = ms₁ ++ ms₂
  | choice a b => fun parts ms => Yields a parts ms ∨ Yields b parts ms
  | star a => Rep (Yields a)
  | plus a => fun parts ms => ∃ parts₁ ms₁ parts₂ ms₂,
    Yields a parts₁ ms₁ ∧ Rep (Yields a) parts₂ ms₂ ∧ parts = parts₁ ++ parts₂ ∧ ms = ms₁ ++ ms₂
  | text a => fun parts ms => ∃ cs, parts = [.text (String.ofList cs)] ∧ a.Spells cs ms
  | action (.mark m) => fun parts ms => parts = [] ∧ ms = [m]
  | action _ => fun parts ms => parts = [] ∧ ms = []
  | call r => r.Yields

end Peg

/-! ## Derivations -/

/-- The error of a number out of range. -/
def rangeError (text : List Char) : BuildError :=
  .invalidLiteral .numeric (String.ofList text) (rangeFault text)

namespace Derivation

/-- The derivation stands for such fragments with such flags, unless a number is out of range; then
it stands for the error of the first such number. -/
structure Means (d : Derivation) (P : List Fragment → List Mark → Prop) : Prop where
  /-- All numbers are in range. -/
  ok : d.numerals.find? isOutOfRange = none → ∃ parts, d.fragments = .ok parts ∧ P parts d.marks
  /-- A number is out of range. -/
  error : ∀ text, d.numerals.find? isOutOfRange = some text → d.fragments = .error (rangeError text)

variable {d e : Derivation} {P P' : List Fragment → List Mark → Prop}

/-- A derivation without numbers, with fragments as described, means what is described. -/
theorem means_of_eq {parts : List Fragment} (hnumerals : d.numerals = [])
    (hparts : d.fragments = .ok parts) (h : P parts d.marks) : d.Means P where
  ok _ := ⟨parts, hparts, h⟩
  error := by simp [hnumerals]

/-- What a derivation means may be described more widely. -/
theorem Means.mono (h : d.Means P) (hP : ∀ parts ms, P parts ms → P' parts ms) : d.Means P' where
  ok hnone := by
    obtain ⟨parts, hparts, hp⟩ := h.ok hnone
    exact ⟨parts, hparts, hP _ _ hp⟩
  error := h.error

/-- If a derivation stands for something at all, then for fragments as described. -/
theorem Means.of_fragments_eq (h : d.Means P) {parts : List Fragment}
    (hparts : d.fragments = .ok parts) :
    P parts d.marks := by
  rcases hnone : d.numerals.find? isOutOfRange with _ | text
  · obtain ⟨parts', hparts', hp⟩ := h.ok hnone
    obtain rfl := Except.ok.inj (hparts'.symm.trans hparts)
    exact hp
  · cases (h.error text hnone).symm.trans hparts

/-- Derivations in a row mean what both mean, in a row. The error is that of the first number out of
range in either. -/
theorem Means.append (hd : d.Means P) (he : e.Means P') :
    (d.append e).Means fun parts ms => ∃ parts₁ ms₁ parts₂ ms₂,
      P parts₁ ms₁ ∧ P' parts₂ ms₂ ∧ parts = parts₁ ++ parts₂ ∧ ms = ms₁ ++ ms₂ where
  ok hnone := by
    rw [numerals, List.find?_append, Option.or_eq_none_iff] at hnone
    obtain ⟨parts₁, hparts₁, h₁⟩ := hd.ok hnone.1
    obtain ⟨parts₂, hparts₂, h₂⟩ := he.ok hnone.2
    refine ⟨parts₁ ++ parts₂, ?_, _, _, _, _, h₁, h₂, rfl, rfl⟩
    rw [fragments, hparts₁, hparts₂]
    rfl
  error text htext := by
    rw [numerals, List.find?_append] at htext
    rcases hfirst : d.numerals.find? isOutOfRange with _ | first
    · rw [hfirst, Option.none_or] at htext
      obtain ⟨parts, hparts, -⟩ := hd.ok hfirst
      rw [fragments, hparts, he.error text htext]
      rfl
    · rw [hfirst, Option.some_or] at htext
      rw [fragments, hd.error first hfirst]
      cases htext
      rfl

/-- A rule other than that of numbers stands for what it makes of its parts. -/
theorem Means.construct {r : Rule} (hr : r ≠ .numeric) (h : d.Means P)
    (hconstruct : ∀ parts, P parts d.marks →
      ∃ made, RiftLang.construct r parts = .ok made ∧ P' made (capture (.rule r) d).marks) :
    (capture (.rule r) d).Means P' := by
  have hnumerals : (capture (.rule r) d).numerals = d.numerals := by simp [numerals, hr]
  refine ⟨fun hnone => ?_, fun text htext => ?_⟩
  · rw [hnumerals] at hnone
    obtain ⟨parts, hparts, hp⟩ := h.ok hnone
    obtain ⟨made, hmade, hp'⟩ := hconstruct parts hp
    refine ⟨made, ?_, hp'⟩
    rw [fragments, hparts]
    exact hmade
  · rw [hnumerals] at htext
    rw [fragments, h.error text htext]
    rfl

end Derivation

/-! ## Expressions by their shape -/

/-- The rules of blanks, names and the texts of literals. No number stands inside them. -/
def Rule.isLexical : Rule → Bool
  | .name | .stringChar | .stringEscape | .scientific | .decimal | .integer | .wholeNumber | .digit
  | .someSpace | .space | .comment | .blank => true
  | _ => false

namespace Peg

/-- Only lexical rules are called. -/
def isLexical : Peg → Bool
  | empty | fail | one _ | word _ | action _ | absent _ => true
  | seq a b | choice a b => a.isLexical && b.isLexical
  | star a | plus a | text a => a.isLexical
  | call r => r.isLexical

/-- Only lexical rules are called inside captured texts. -/
def capturesLexemes : Peg → Bool
  | empty | fail | one _ | word _ | action _ | absent _ | call _ => true
  | seq a b | choice a b => a.capturesLexemes && b.capturesLexemes
  | star a | plus a => a.capturesLexemes
  | text a => a.isLexical

end Peg

/-- What the derivations of a rule stand for and spell. -/
structure Derivation.IsOf (d : Derivation) (r : Rule) : Prop where
  /-- It stands for what the rule yields. -/
  means : d.Means r.Yields
  /-- It spells what the rule spells. -/
  spells : r.Spells d.chars d.marks
  /-- There is no number in it if the rule is lexical. -/
  numerals_eq_nil : r.isLexical = true → d.numerals = []

section shape

variable {rules : Rule → Peg} {item : List Char → Derivation → List Char → Prop}
  {stop : List Char → Prop} {s s' : List Char} {d : Derivation}

/-- If no item of a repetition has numbers, then the repetition has none. -/
theorem Chain.numerals_eq_nil (h : Chain item stop s d s')
    (hitem : ∀ s d s', item s d s' → d.numerals = []) : d.numerals = [] := by
  induction h with
  | nil _ => rfl
  | cons hd _ ih => simp [Derivation.numerals, hitem _ _ _ hd, ih]

/-- The derivations of a repetition spell a row, if each of them spells an item. -/
theorem Chain.spells {P : List Char → List Mark → Prop} (h : Chain item stop s d s')
    (hitem : ∀ s d s', item s d s' → P d.chars d.marks) : Rep P d.chars d.marks := by
  induction h with
  | nil _ => exact .nil
  | cons hd _ ih => exact .cons (hitem _ _ _ hd) ih

/-- The derivations of a repetition mean a row, if each of them means an item. -/
theorem Chain.means {P : List Fragment → List Mark → Prop} (h : Chain item stop s d s')
    (hitem : ∀ s d s', item s d s' → d.Means P) : d.Means (Rep P) := by
  induction h with
  | nil _ => exact Derivation.means_of_eq rfl rfl .nil
  | cons hd _ ih =>
      refine ((hitem _ _ _ hd).append ih).mono ?_
      rintro _ _ ⟨_, _, _, _, hp, hs, rfl, rfl⟩
      exact .cons hp hs

namespace Peg

/-- There is no number in a derivation that calls lexical rules only. -/
theorem numerals_eq_nil_of_shape {e : Peg} (he : e.isLexical = true)
    (h : e.Shape rules (fun r _ d _ => d.IsOf r) s d s') : d.numerals = [] := by
  induction e generalizing s d s' with
  | empty =>
      obtain ⟨rfl, -⟩ := h
      rfl
  | fail => exact h.elim
  | one _ =>
      obtain ⟨_, -, -, rfl⟩ := h
      rfl
  | word _ =>
      obtain ⟨-, rfl⟩ := h
      rfl
  | seq a b iha ihb =>
      obtain ⟨ha, hb⟩ := Bool.and_eq_true_iff.1 he
      obtain ⟨d₁, _, d₂, h₁, h₂, rfl⟩ := h
      simp [Derivation.numerals, iha ha h₁, ihb hb h₂]
  | choice a b iha ihb =>
      obtain ⟨ha, hb⟩ := Bool.and_eq_true_iff.1 he
      rcases h with h | ⟨-, h⟩
      · exact iha ha h
      · exact ihb hb h
  | star a ih => exact Chain.numerals_eq_nil h fun _ _ _ => ih he
  | plus a ih =>
      obtain ⟨d₁, _, d₂, h₁, h₂, rfl⟩ := h
      simp [Derivation.numerals, ih he h₁, h₂.numerals_eq_nil fun _ _ _ => ih he]
  | absent _ =>
      obtain ⟨-, rfl, -⟩ := h
      rfl
  | text a ih =>
      obtain ⟨d₁, h₁, rfl⟩ := h
      simp [Derivation.numerals, ih he h₁]
  | action _ =>
      obtain ⟨rfl, -⟩ := h
      rfl
  | call r => exact h.2.numerals_eq_nil he

/-- A derivation spells what its expression spells. -/
theorem spells_of_shape {e : Peg} (h : e.Shape rules (fun r _ d _ => d.IsOf r) s d s') :
    e.Spells d.chars d.marks := by
  induction e generalizing s d s' with
  | empty =>
      obtain ⟨rfl, -⟩ := h
      exact ⟨rfl, rfl⟩
  | fail => exact h.elim
  | one _ =>
      obtain ⟨c, -, hc, rfl⟩ := h
      exact ⟨⟨c, rfl, hc⟩, rfl⟩
  | word _ =>
      obtain ⟨-, rfl⟩ := h
      exact ⟨rfl, rfl⟩
  | seq a b iha ihb =>
      obtain ⟨d₁, _, d₂, h₁, h₂, rfl⟩ := h
      exact ⟨_, _, _, _, iha h₁, ihb h₂, rfl, rfl⟩
  | choice a b iha ihb => exact h.imp iha fun h => ihb h.2
  | star a ih => exact Chain.spells h fun _ _ _ => ih
  | plus a ih =>
      obtain ⟨d₁, _, d₂, h₁, h₂, rfl⟩ := h
      exact ⟨_, _, _, _, ih h₁, h₂.spells fun _ _ _ => ih, rfl, rfl⟩
  | absent _ =>
      obtain ⟨-, rfl, -⟩ := h
      exact ⟨rfl, rfl⟩
  | text a ih =>
      obtain ⟨d₁, h₁, rfl⟩ := h
      have hbody := ih h₁
      exact hbody
  | action x =>
      obtain ⟨rfl, -⟩ := h
      cases x <;> exact ⟨rfl, rfl⟩
  | call r => exact h.2.spells

/-- A derivation stands for what its expression yields. -/
theorem means_of_shape {e : Peg} (he : e.capturesLexemes = true)
    (h : e.Shape rules (fun r _ d _ => d.IsOf r) s d s') : d.Means e.Yields := by
  induction e generalizing s d s' with
  | empty =>
      obtain ⟨rfl, -⟩ := h
      exact Derivation.means_of_eq rfl rfl ⟨rfl, rfl⟩
  | fail => exact h.elim
  | one _ =>
      obtain ⟨c, -, -, rfl⟩ := h
      exact Derivation.means_of_eq rfl rfl ⟨rfl, rfl⟩
  | word _ =>
      obtain ⟨-, rfl⟩ := h
      exact Derivation.means_of_eq rfl rfl ⟨rfl, rfl⟩
  | seq a b iha ihb =>
      obtain ⟨ha, hb⟩ := Bool.and_eq_true_iff.1 he
      obtain ⟨d₁, _, d₂, h₁, h₂, rfl⟩ := h
      exact (iha ha h₁).append (ihb hb h₂)
  | choice a b iha ihb =>
      obtain ⟨ha, hb⟩ := Bool.and_eq_true_iff.1 he
      rcases h with h | ⟨-, h⟩
      · exact (iha ha h).mono fun _ _ => .inl
      · exact (ihb hb h).mono fun _ _ => .inr
  | star a ih => exact Chain.means h fun _ _ _ => ih he
  | plus a ih =>
      obtain ⟨d₁, _, d₂, h₁, h₂, rfl⟩ := h
      exact (ih he h₁).append (h₂.means fun _ _ _ => ih he)
  | absent _ =>
      obtain ⟨-, rfl, -⟩ := h
      exact Derivation.means_of_eq rfl rfl ⟨rfl, rfl⟩
  | text a =>
      obtain ⟨d₁, h₁, rfl⟩ := h
      refine Derivation.means_of_eq ?_ rfl ⟨_, rfl, spells_of_shape h₁⟩
      simp [Derivation.numerals, numerals_eq_nil_of_shape he h₁]
  | action x =>
      obtain ⟨rfl, -⟩ := h
      cases x <;> exact Derivation.means_of_eq rfl rfl ⟨rfl, rfl⟩
  | call r => exact h.2.means

end Peg

end shape

end RiftLang
