import RiftLang.Proofs.Meaning.Constructs
import RiftLang.Proofs.Recognition

/-!
# Replaying tokens builds what a derivation stands for

A rule whose tokens are replayed while a node is open adds to that node what the rule stands for,
whatever was open, flagged and captured before.

* `Derivation.play` — replays the tokens of a derivation.
* `Derivation.Fills` — replaying adds the fragments and the flags of the derivation to the innermost
  open node, or stops with its error.
* `Peg.isFillable`, `fills_of_shape` — expressions whose derivations do that: a captured text is
  attached before the next one is captured.
* `assemble_eq_construct` — a node closes to what its rule makes of its parts.
* `execute_eq_program` — replaying the tokens of a source builds its program.
-/

namespace RiftLang

open Peg

/-! ## Replaying derivations -/

namespace Replay

variable {source : Array Char} {r : Replay}

/-- A stream in two parts is replayed in two parts. -/
theorem steps_append (ts us : List Token) :
    r.steps source (ts ++ us) = (r.steps source ts).bind fun r => r.steps source us :=
  List.foldlM_append ..

/-- Replaying does not look at depths. -/
theorem steps_map_deepen (ts : List Token) (k : Nat) :
    r.steps source (ts.map (.deepen k)) = r.steps source ts := by
  rw [steps, List.foldlM_map]
  rfl

end Replay

namespace Derivation

variable {source : Array Char}

/-- Replays the tokens of a derivation that begins at an offset. -/
def play (source : Array Char) (d : Derivation) (start : Nat) (r : Replay) :
    Except BuildError Replay :=
  r.steps source (d.tokens start 0)

/-- Replaying the tokens of a derivation is playing the derivation. Depths play no part in it. -/
theorem steps_tokens (d : Derivation) (start depth : Nat) (r : Replay) :
    r.steps source (d.tokens start depth) = d.play source start r := by
  have hdeepen : d.tokens start depth = (d.tokens start 0).map (.deepen depth) := by
    rw [map_deepen_tokens, Nat.zero_add]
  rw [hdeepen, Replay.steps_map_deepen, play]

variable (start : Nat) (r : Replay)

/-- Text without tokens is passed over. -/
@[simp] theorem play_leaf (cs : List Char) : (leaf cs).play source start r = .ok r := rfl

/-- Derivations in a row are played one after the other. -/
theorem play_append (d e : Derivation) :
    (d.append e).play source start r =
      (d.play source start r).bind fun r => e.play source (start + d.width) r := by
  rw [play, tokens, Replay.steps_append]
  rfl

/-- A rule is played like its inside: its own token stands for nothing that the flags and actions
inside do not say. -/
@[simp] theorem play_capture_rule (rule : Rule) (d : Derivation) :
    (capture (.rule rule) d).play source start r = d.play source start r := by
  rw [play, tokens, Replay.steps_append, steps_tokens]
  rcases d.play source start r with _ | _ <;> rfl

/-- A captured text is played like its inside, and is then the text captured last. -/
theorem play_capture_text (d : Derivation) :
    (capture .text d).play source start r =
      (d.play source start r).map fun r =>
        { r with captured := some (start, start + d.width) } := by
  rw [play, tokens, Replay.steps_append, steps_tokens]
  rcases d.play source start r with _ | _ <;> rfl

/-- An action is played as one step. -/
theorem play_action (a : Action) :
    (action a).play source start r = r.step source ⟨.action a, start, start, 0⟩ := by
  show (r.step source ⟨.action a, start, start, 0⟩).bind _ = _
  rcases r.step source ⟨.action a, start, start, 0⟩ with _ | _ <;> rfl

end Derivation

/-- The text of a derivation is a slice of the source. -/
theorem slice_eq {source : Array Char} {start : Nat} {cs rest : List Char}
    (h : restFrom source start = cs ++ rest) :
    slice source start (start + cs.length) = String.ofList cs := by
  have htake : (restFrom source start).take cs.length = cs := by
    rw [h]
    exact List.take_left' rfl
  rw [slice, Array.toList_extract, List.extract_eq_take_drop, Nat.add_sub_cancel_left]
  exact congrArg String.ofList htake

/-- Past a text that the source has at an offset, the rest of the source is what follows the
text. -/
theorem restFrom_append {source : Array Char} {start : Nat} {cs rest : List Char}
    (h : restFrom source start = cs ++ rest) : restFrom source (start + cs.length) = rest := by
  have hdrop : restFrom source (start + cs.length) = (restFrom source start).drop cs.length := by
    simp [restFrom]
  rw [hdrop, h]
  exact List.drop_left' rfl

/-! ## Derivations in another grouping -/

namespace Derivation

variable {source : Array Char}

variable (source) in
/-- The derivations differ in how they are grouped, and in nothing else. -/
structure Alike (d e : Derivation) : Prop where
  /-- They span the same text. -/
  chars_eq : d.chars = e.chars
  /-- They stand for the same. -/
  fragments_eq : d.fragments = e.fragments
  /-- They put the same flags. -/
  marks_eq : d.marks = e.marks
  /-- Replaying them comes to the same. -/
  play_eq : ∀ start r, d.play source start r = e.play source start r

variable {a b c d e : Derivation}

/-- A derivation is like itself. -/
theorem Alike.refl (d : Derivation) : d.Alike source d := ⟨rfl, rfl, rfl, fun _ _ => rfl⟩

/-- Likeness goes both ways. -/
theorem Alike.symm (h : d.Alike source e) : e.Alike source d :=
  ⟨h.chars_eq.symm, h.fragments_eq.symm, h.marks_eq.symm, fun _ _ => (h.play_eq _ _).symm⟩

/-- What is like a third derivation is like what that one is like. -/
theorem Alike.trans (h : a.Alike source b) (h' : b.Alike source c) : a.Alike source c :=
  ⟨h.chars_eq.trans h'.chars_eq, h.fragments_eq.trans h'.fragments_eq, h.marks_eq.trans h'.marks_eq,
    fun _ _ => (h.play_eq _ _).trans (h'.play_eq _ _)⟩

/-- Derivations in a row are like others in a row, one by one. -/
theorem Alike.append (h : a.Alike source c) (h' : b.Alike source d) :
    (a.append b).Alike source (c.append d) where
  chars_eq := by rw [chars, chars, h.chars_eq, h'.chars_eq]
  fragments_eq := by rw [fragments, fragments, h.fragments_eq, h'.fragments_eq]
  marks_eq := by rw [marks, marks, h.marks_eq, h'.marks_eq]
  play_eq start r := by
    rw [play_append, play_append, h.play_eq, width, width, h.chars_eq]
    rcases c.play source start r with _ | r
    · rfl
    · exact h'.play_eq _ _

/-- In a row it makes no difference which derivations are taken together. -/
theorem alike_assoc (a b c : Derivation) :
    ((a.append b).append c).Alike source (a.append (b.append c)) where
  chars_eq := List.append_assoc _ _ _
  fragments_eq := by
    simp only [fragments]
    rcases a.fragments with _ | x
    · rfl
    · rcases b.fragments with _ | y
      · rfl
      · rcases c.fragments with _ | z
        · rfl
        · exact congrArg Except.ok (List.append_assoc x y z)
  marks_eq := List.append_assoc _ _ _
  play_eq start r := by
    simp only [play_append, width_append, ← Nat.add_assoc]
    rcases a.play source start r with _ | _ <;> rfl

/-- A derivation of nothing in front does not matter. -/
theorem alike_leaf_append (d : Derivation) : ((leaf []).append d).Alike source d where
  chars_eq := rfl
  fragments_eq := by
    rw [fragments]
    rcases d.fragments with _ | _ <;> rfl
  marks_eq := rfl
  play_eq start r := by
    rw [play_append]
    rfl

/-- It makes no difference that nothing follows. -/
theorem alike_append_leaf (d : Derivation) : (d.append (leaf [])).Alike source d where
  chars_eq := List.append_nil _
  fragments_eq := by
    rw [fragments]
    rcases d.fragments with _ | parts
    · rfl
    · exact congrArg Except.ok (List.append_nil parts)
  marks_eq := List.append_nil _
  play_eq start r := by
    rw [play_append]
    rcases d.play source start r with _ | _ <;> rfl

end Derivation

/-! ## Adding to an open node -/

/-- Adds parts and flags at the end. -/
def Frame.fill (f : Frame) (parts : List Fragment) (ms : List Mark) : Frame :=
  { f with parts := parts.reverse ++ f.parts, marks := ms.reverse ++ f.marks }

/-- Adding nothing leaves an open node as it is. -/
@[simp] theorem Frame.fill_nil (f : Frame) : f.fill [] [] = f := rfl

/-- Adding twice is adding all in a row. -/
@[simp] theorem Frame.fill_fill (f : Frame) (parts parts' : List Fragment) (ms ms' : List Mark) :
    (f.fill parts ms).fill parts' ms' = f.fill (parts ++ parts') (ms ++ ms') := by
  simp [fill]

namespace Derivation

variable (source : Array Char) in
/-- Replaying the derivation adds its fragments and flags to the innermost open node, or stops with
its error. -/
def Fills (d : Derivation) : Prop :=
  ∀ start rest, restFrom source start = d.chars ++ rest → ∀ f outer captured built,
    (∀ parts, d.fragments = .ok parts → ∃ captured',
      d.play source start ⟨f :: outer, captured, built⟩ =
        .ok ⟨f.fill parts d.marks :: outer, captured', built⟩) ∧
    ∀ e, d.fragments = .error e → d.play source start ⟨f :: outer, captured, built⟩ = .error e

variable (source : Array Char) in
/-- Replaying the derivation makes its text the one captured last. -/
structure Captures (d : Derivation) : Prop where
  /-- The derivation stands for its text. -/
  fragments_eq : d.fragments = .ok [.text (String.ofList d.chars)]
  /-- Flags apart, nothing else changes. -/
  play_eq : ∀ start rest, restFrom source start = d.chars ++ rest → ∀ f outer captured built,
    d.play source start ⟨f :: outer, captured, built⟩ =
      .ok ⟨f.fill [] d.marks :: outer, some (start, start + d.width), built⟩

variable (source : Array Char) in
/-- Replaying the derivation changes nothing, and it stands for nothing. -/
structure Still (d : Derivation) : Prop where
  /-- It stands for nothing. -/
  fragments_eq : d.fragments = .ok []
  /-- It puts no flag. -/
  marks_eq : d.marks = []
  /-- Nothing changes. -/
  play_eq : ∀ start r, d.play source start r = .ok r

variable {source : Array Char} {d e : Derivation}

/-- Text without tokens changes nothing. -/
theorem still_leaf (cs : List Char) : (leaf cs).Still source := ⟨rfl, rfl, fun _ _ => rfl⟩

/-- Two derivations that change nothing, in a row, change nothing. -/
theorem Still.append (hd : d.Still source) (he : e.Still source) : (d.append e).Still source where
  fragments_eq := by rw [fragments, hd.fragments_eq, he.fragments_eq]; rfl
  marks_eq := by rw [marks, hd.marks_eq, he.marks_eq]; rfl
  play_eq start r := by
    rw [play_append, hd.play_eq]
    exact he.play_eq _ _

/-- What changes nothing adds the fragments that it stands for, which are none. -/
theorem Still.fills (h : d.Still source) : d.Fills source := by
  intro start rest _ f outer captured built
  refine ⟨fun parts hparts => ⟨captured, ?_⟩, fun e he => ?_⟩
  · obtain rfl : [] = parts := Except.ok.inj (h.fragments_eq.symm.trans hparts)
    rw [h.play_eq, h.marks_eq, Frame.fill_nil]
  · cases h.fragments_eq.symm.trans he

/-- A flag is added to the innermost open node. -/
theorem fills_mark (m : Mark) : (action (.mark m)).Fills source := by
  intro start rest _ f outer captured built
  refine ⟨fun parts hparts => ⟨captured, ?_⟩, fun e he => by cases he⟩
  cases hparts
  rw [play_action]
  rfl

/-- Of two derivations that are alike, both fill or neither does. -/
theorem Alike.fills_iff (h : d.Alike source e) : d.Fills source ↔ e.Fills source := by
  unfold Fills
  rw [h.chars_eq, h.fragments_eq, h.marks_eq]
  simp only [h.play_eq]

/-- What is like a derivation that captures its text captures its text. -/
theorem Alike.captures (h : d.Alike source e) (he : e.Captures source) : d.Captures source where
  fragments_eq := by rw [h.fragments_eq, h.chars_eq, he.fragments_eq]
  play_eq start rest hrest f outer captured built := by
    rw [h.chars_eq] at hrest
    rw [h.play_eq, h.marks_eq, width, h.chars_eq]
    exact he.play_eq start rest hrest f outer captured built

/-- What is like a derivation that changes nothing changes nothing. -/
theorem Alike.still (h : d.Alike source e) (he : e.Still source) : d.Still source where
  fragments_eq := h.fragments_eq.trans he.fragments_eq
  marks_eq := h.marks_eq.trans he.marks_eq
  play_eq start r := (h.play_eq start r).trans (he.play_eq start r)

/-- Derivations in a row add their fragments in a row, up to the first error. -/
theorem Fills.append (hd : d.Fills source) (he : e.Fills source) : (d.append e).Fills source := by
  intro start rest hrest f outer captured built
  have hrest₁ : restFrom source start = d.chars ++ (e.chars ++ rest) := by
    rw [hrest]
    exact List.append_assoc _ _ _
  have hd' := hd start _ hrest₁ f outer captured built
  have he' := he (start + d.width) rest (restFrom_append hrest₁)
  refine ⟨fun parts hparts => ?_, fun x hx => ?_⟩
  · obtain ⟨parts₁, parts₂, h₁, h₂, rfl⟩ := fragments_append_eq_ok hparts
    obtain ⟨captured₁, hplay₁⟩ := hd'.1 parts₁ h₁
    obtain ⟨captured₂, hplay₂⟩ := (he' (f.fill parts₁ d.marks) outer captured₁ built).1 parts₂ h₂
    refine ⟨captured₂, ?_⟩
    rw [play_append, hplay₁]
    rw [Frame.fill_fill] at hplay₂
    exact hplay₂
  · rw [play_append]
    rcases fragments_append_eq_error hx with h₁ | ⟨parts₁, h₁, h₂⟩
    · rw [hd'.2 x h₁]
      rfl
    · obtain ⟨captured₁, hplay₁⟩ := hd'.1 parts₁ h₁
      rw [hplay₁]
      exact (he' (f.fill parts₁ d.marks) outer captured₁ built).2 x h₂

/-- A text that is attached after it was captured is added to the node. -/
theorem Captures.fills_attach_after (hd : d.Captures source) {k : Derivation} (hk : k.Still source)
    (he : e.Fills source) : (d.append (k.append ((action .attach).append e))).Fills source := by
  have hattached : (d.append (k.append (action .attach))).Fills source := by
    intro start rest hrest f outer captured built
    have hrest₁ : restFrom source start = d.chars ++ (k.chars ++ rest) := by
      rw [hrest]
      simp [chars]
    refine ⟨fun parts hparts => ⟨some (start, start + d.width), ?_⟩, fun x hx => ?_⟩
    · have hsingle : (d.append (k.append (action .attach))).fragments
          = .ok [.text (String.ofList d.chars)] := by
        rw [fragments, fragments, hd.fragments_eq, hk.fragments_eq]
        rfl
      obtain rfl := Except.ok.inj (hsingle.symm.trans hparts)
      have hplay : d.play source start ⟨f :: outer, captured, built⟩ =
          .ok ⟨f.fill [] d.marks :: outer, some (start, start + d.width), built⟩ :=
        hd.play_eq start _ hrest₁ f outer captured built
      rw [play_append, hplay]
      show (k.append (action .attach)).play source (start + d.width) _ = _
      rw [play_append, hk.play_eq]
      show (action .attach).play source _ _ = _
      have hslice : slice source start (start + d.width) = String.ofList d.chars := slice_eq hrest₁
      rw [play_action]
      simp [Replay.step, Replay.onTop, hslice, marks, hk.marks_eq, Frame.fill, Frame.push]
    · rw [fragments, fragments, hd.fragments_eq, hk.fragments_eq] at hx
      cases hx
  exact (((alike_assoc d _ e).trans ((Alike.refl d).append (alike_assoc k _ e))).fills_iff).1
    (hattached.append he)

/-- A text that was captured and is attached at once is added to the open node, before what
follows. -/
theorem Captures.fills_attach (hd : d.Captures source) (he : e.Fills source) :
    (d.append ((action .attach).append e)).Fills source :=
  (((Alike.refl d).append (alike_leaf_append _)).fills_iff).1
    (hd.fills_attach_after (still_leaf []) he)

end Derivation

/-! ## Expressions that add to an open node -/

/-- The rules whose tokens are replayed with a node open, texts apart. -/
def Rule.isFilling (r : Rule) : Bool :=
  r ≠ .source && r ≠ .rift && r ≠ .name

/-- The rules inside captured texts, which stand for nothing. -/
def Rule.isSilent (r : Rule) : Bool :=
  r.isLexical && r ≠ .name

namespace Peg

/-- Only blanks are called, and nothing is recorded beside the rules. -/
def isBlank : Peg → Bool
  | empty | fail | one _ | word _ | absent _ => true
  | action _ | text _ => false
  | seq a b | choice a b => a.isBlank && b.isBlank
  | star a | plus a => a.isBlank
  | call r => r.isTrivia

/-- Only rules that stand for nothing are called, and nothing but flags is recorded beside them. -/
def isSilent : Peg → Bool
  | empty | fail | one _ | word _ | absent _ | action (.mark _) => true
  | action _ | text _ => false
  | seq a b | choice a b => a.isSilent && b.isSilent
  | star a | plus a => a.isSilent
  | call r => r.isSilent

/-- Every text is attached to the open node right after it was captured. -/
def isFillable : Peg → Bool
  | empty | fail | one _ | word _ | absent _ | action (.mark _) => true
  | action _ | text _ => false
  | seq (call r) (seq (action .attach) e) => r = .name && e.isFillable
  | seq (text a) (seq (action .attach) e) => a.isSilent && (a.isFillable && e.isFillable)
  | seq (text a) (seq k (seq (action .attach) e)) =>
    a.isSilent && (a.isFillable && (k.isBlank && e.isFillable))
  | seq a b | choice a b => a.isFillable && b.isFillable
  | star a | plus a => a.isFillable
  | call r => r.isFilling

/-- A silent expression stands for nothing. -/
theorem allYield_of_isSilent {e : Peg} (h : e.isSilent = true) : e.AllYield fun _ => False := by
  induction e with
  | empty | fail | one _ | word _ | absent _ | action _ => trivial
  | seq a b iha ihb | choice a b iha ihb =>
      obtain ⟨ha, hb⟩ := Bool.and_eq_true_iff.1 h
      exact ⟨iha ha, ihb hb⟩
  | star a ih | plus a ih => exact ih h
  | text _ => cases h
  | call r =>
      intro parts ms hparts
      have hnil : parts = [] := by
        cases r with
        | decimal | scientific => exact hparts
        | stringChar | stringEscape | integer | wholeNumber | digit | someSpace | space
        | comment | blank =>
            exact hparts.1
        | _ => cases h
      rw [hnil]
      exact fun _ h => absurd h List.not_mem_nil

/-- A silent expression calls lexical rules only. -/
theorem isLexical_of_isSilent {e : Peg} (h : e.isSilent = true) : e.isLexical = true := by
  induction e with
  | empty | fail | one _ | word _ | absent _ | action _ => rfl
  | seq a b iha ihb | choice a b iha ihb =>
      obtain ⟨ha, hb⟩ := Bool.and_eq_true_iff.1 h
      exact Bool.and_eq_true_iff.2 ⟨iha ha, ihb hb⟩
  | star a ih | plus a ih => exact ih h
  | text _ => cases h
  | call r => exact (Bool.and_eq_true_iff.1 h).1

/-- A silent expression captures no text at all, hence none but of lexical rules. -/
theorem capturesLexemes_of_isSilent {e : Peg} (h : e.isSilent = true) :
    e.capturesLexemes = true := by
  induction e with
  | empty | fail | one _ | word _ | absent _ | action _ | call _ => rfl
  | seq a b iha ihb | choice a b iha ihb =>
      obtain ⟨ha, hb⟩ := Bool.and_eq_true_iff.1 h
      exact Bool.and_eq_true_iff.2 ⟨iha ha, ihb hb⟩
  | star a ih | plus a ih => exact ih h
  | text _ => cases h

end Peg

/-! ## Replaying by shape -/

namespace Derivation

variable (source : Array Char) in
/-- Replaying the derivation at the top adds one rift to those built, or stops with its error. -/
def Raises (d : Derivation) : Prop :=
  ∀ start rest, restFrom source start = d.chars ++ rest → ∀ captured built,
    (∀ parts, d.fragments = .ok parts → ∃ captured' rift, parts = [.rift rift] ∧
      d.play source start ⟨[], captured, built⟩ = .ok ⟨[], captured', rift :: built⟩) ∧
    ∀ e, d.fragments = .error e → d.play source start ⟨[], captured, built⟩ = .error e

variable (source : Array Char) in
/-- What replaying a derivation of a rule comes to. -/
structure Plays (d : Derivation) (r : Rule) : Prop where
  /-- It adds to the open node. -/
  fills : r.isFilling = true → d.Fills source
  /-- A name is captured. -/
  captures : r = .name → d.Captures source
  /-- Blanks change nothing. -/
  still : r.isTrivia = true → d.Still source
  /-- A rift is built. -/
  raises : r = .rift → d.Raises source

end Derivation

section shape

variable {source : Array Char} {item : List Char → Derivation → List Char → Prop}
  {stop : List Char → Prop} {s s' : List Char} {d : Derivation}

/-- A repetition of items that change nothing changes nothing. -/
theorem Chain.still (h : Chain item stop s d s') (hitem : ∀ s d s', item s d s' → d.Still source) :
    d.Still source := by
  induction h with
  | nil _ => exact Derivation.still_leaf []
  | cons h _ ih => exact (hitem _ _ _ h).append ih

/-- A repetition of items that fill fills. -/
theorem Chain.fills (h : Chain item stop s d s') (hitem : ∀ s d s', item s d s' → d.Fills source) :
    d.Fills source := by
  induction h with
  | nil _ => exact (Derivation.still_leaf []).fills
  | cons h _ ih => exact (hitem _ _ _ h).append ih

namespace Peg

/-- An expression of blanks changes nothing, if the rules that it calls play as they should. -/
theorem still_of_shape {e : Peg} (he : e.isBlank = true)
    (h : e.Shape table (fun r _ d _ => d.Plays source r) s d s') : d.Still source := by
  induction e generalizing s d s' with
  | empty =>
      obtain ⟨rfl, -⟩ := h
      exact Derivation.still_leaf []
  | fail => exact h.elim
  | one _ =>
      obtain ⟨_, -, -, rfl⟩ := h
      exact Derivation.still_leaf _
  | word _ =>
      obtain ⟨-, rfl⟩ := h
      exact Derivation.still_leaf _
  | seq a b iha ihb =>
      obtain ⟨ha, hb⟩ := Bool.and_eq_true_iff.1 he
      obtain ⟨d₁, _, d₂, h₁, h₂, rfl⟩ := h
      exact (iha ha h₁).append (ihb hb h₂)
  | choice a b iha ihb =>
      obtain ⟨ha, hb⟩ := Bool.and_eq_true_iff.1 he
      exact h.elim (iha ha) fun h => ihb hb h.2
  | star a ih => exact Chain.still h fun _ _ _ => ih he
  | plus a ih =>
      obtain ⟨d₁, _, d₂, h₁, h₂, rfl⟩ := h
      exact (ih he h₁).append (h₂.still fun _ _ _ => ih he)
  | absent _ =>
      obtain ⟨-, rfl, -⟩ := h
      exact Derivation.still_leaf []
  | text _ | action _ => cases he
  | call r => exact h.2.still he

/-- What stands inside a captured text stands for nothing. -/
theorem fragments_eq_nil_of_shape {Q : Rule → List Char → Derivation → List Char → Prop} {e : Peg}
    (he : e.isSilent = true) (h : e.Shape table Q s d s') : d.fragments = .ok [] := by
  have hof : e.Shape table (fun r _ d _ => d.IsOf r) s d s' :=
    h.mono fun _ _ _ _ hcall _ => isOf_of_parses hcall
  have hnumerals := numerals_eq_nil_of_shape (isLexical_of_isSilent he) hof
  obtain ⟨parts, hparts, hyields⟩ :=
    (means_of_shape (capturesLexemes_of_isSilent he) hof).ok (by simp [hnumerals])
  obtain rfl := (allYield_of_isSilent he).eq_nil hyields
  exact hparts

/-- Replaying a text that stands for nothing captures it. -/
theorem captures_text {d : Derivation} (hfills : d.Fills source) (hnil : d.fragments = .ok []) :
    (Derivation.capture .text d).Captures source where
  fragments_eq := rfl
  play_eq := by
    intro start rest hrest f outer captured built
    obtain ⟨captured', hplay⟩ := (hfills start rest hrest f outer captured built).1 [] hnil
    rw [Derivation.play_capture_text, hplay]
    rfl

/-- An expression that attaches every text that it captures fills, if the rules that it calls play
as they should. -/
theorem fills_of_shape {e : Peg} (he : e.isFillable = true)
    (h : e.Shape table (fun r _ d _ => d.Plays source r) s d s') : d.Fills source := by
  fun_induction isFillable e generalizing s d s' with
  | case1 =>
      obtain ⟨rfl, -⟩ := h
      exact (Derivation.still_leaf []).fills
  | case2 => exact h.elim
  | case3 =>
      obtain ⟨_, -, -, rfl⟩ := h
      exact (Derivation.still_leaf _).fills
  | case4 =>
      obtain ⟨-, rfl⟩ := h
      exact (Derivation.still_leaf _).fills
  | case5 =>
      obtain ⟨-, rfl, -⟩ := h
      exact (Derivation.still_leaf []).fills
  | case6 m =>
      obtain ⟨rfl, -⟩ := h
      exact Derivation.fills_mark m
  | case7 | case8 => cases he
  | case9 r e ih =>
      obtain ⟨hr, he⟩ := Bool.and_eq_true_iff.1 he
      obtain ⟨d₁, _, _, h₁, ⟨_, _, d₂, ⟨rfl, -⟩, h₂, rfl⟩, rfl⟩ := h
      exact (h₁.2.captures (of_decide_eq_true hr)).fills_attach (ih he h₂)
  | case10 a e iha ihe =>
      obtain ⟨hsilent, he⟩ := Bool.and_eq_true_iff.1 he
      obtain ⟨ha, he⟩ := Bool.and_eq_true_iff.1 he
      obtain ⟨_, _, _, ⟨d₁, h₁, rfl⟩, ⟨_, _, d₂, ⟨rfl, -⟩, h₂, rfl⟩, rfl⟩ := h
      have hcaptures := captures_text (iha ha h₁) (fragments_eq_nil_of_shape hsilent h₁)
      exact hcaptures.fills_attach (ihe he h₂)
  | case11 a k e _ iha ihe =>
      obtain ⟨hsilent, he⟩ := Bool.and_eq_true_iff.1 he
      obtain ⟨ha, he⟩ := Bool.and_eq_true_iff.1 he
      obtain ⟨hk, he⟩ := Bool.and_eq_true_iff.1 he
      obtain ⟨_, _, _, ⟨d₁, h₁, rfl⟩, ⟨_, _, _, h₂, ⟨_, _, d₃, ⟨rfl, -⟩, h₃, rfl⟩, rfl⟩, rfl⟩ := h
      have hcaptures := captures_text (iha ha h₁) (fragments_eq_nil_of_shape hsilent h₁)
      exact hcaptures.fills_attach_after (still_of_shape hk h₂) (ihe he h₃)
  | case12 a b _ _ _ iha ihb =>
      obtain ⟨ha, hb⟩ := Bool.and_eq_true_iff.1 he
      obtain ⟨d₁, _, d₂, h₁, h₂, rfl⟩ := h
      exact (iha ha h₁).append (ihb hb h₂)
  | case13 a b iha ihb =>
      obtain ⟨ha, hb⟩ := Bool.and_eq_true_iff.1 he
      exact h.elim (iha ha) fun h => ihb hb h.2
  | case14 a ih => exact Chain.fills h fun _ _ _ => ih he
  | case15 a ih =>
      obtain ⟨d₁, _, d₂, h₁, h₂, rfl⟩ := h
      exact (ih he h₁).append (h₂.fills fun _ _ _ => ih he)
  | case16 r => exact h.2.fills he

end Peg

end shape

/-! ## Closing a node -/

/-- What a rule that is a node opens. -/
def Rule.nodeKind : Rule → NodeKind
  | .riftName | .localReference | .reference => .reference
  | .block => .block
  | .conditional => .conditional
  | .assignment => .assignment
  | .operation => .operation
  | .operator => .binaryOperator
  | .application => .functionApply
  | .function => .functionDefinition
  | .parameters => .arguments
  | .tuple => .tuple
  | .list => .list
  | .map => .map
  | .mapEntry => .mapEntry
  | .string => .string
  | .numeric => .numeric
  | .boolean => .boolean
  | _ => .rift

/-- A node is a row of steps that add to it. -/
theorem exists_steps {r : Rule} (hr : r.isNode = true) :
    ∃ steps, table r = node r.nodeKind steps ∧ (seqs steps).isFillable = true := by
  cases r <;> first | exact ⟨_, rfl, rfl⟩ | cases hr

/-- A node that reads all its parts in one way closes to what they are read as. -/
theorem assemble_of_mapM {α : Type} {f : Frame} {read : Fragment → Except BuildError α}
    {make : List α → Fragment} (get? : Fragment → Option α) {parts : List Fragment}
    (hparts : f.parts.reverse = parts)
    (hf : f.assemble = do return make (← f.parts.reverse.mapM read))
    (h : ∀ part ∈ parts, ∃ a, read part = .ok a ∧ get? part = some a) :
    f.assemble = .ok (make (parts.filterMap get?)) := by
  have hread : parts.mapM read = .ok (parts.filterMap get?) := by
    clear hparts
    induction parts with
    | nil => rfl
    | cons part parts ih =>
        obtain ⟨⟨a, hread, hget⟩, hparts⟩ := List.forall_mem_cons.1 h
        rw [List.mapM_cons, hread, List.filterMap_cons_some hget, ih hparts]
        rfl
  rw [hf, hparts, hread]
  rfl

/-- Operators and operands in turn are taken for a chain. -/
theorem chainParts_eq_ok (f : Frame) (rest : List (BinaryOperator × Node)) :
    f.chainParts (rest.flatMap fun link => [.operator link.1, .node link.2]) = .ok rest := by
  induction rest with
  | nil => rfl
  | cons link rest ih =>
      show (do
        let op ← f.operatorPart (.operator link.1)
        let operand ← f.nodePart (.node link.2)
        return (op, operand) :: (← f.chainParts (rest.flatMap _))) = _
      rw [ih]
      rfl

/-- A node followed by a chain that is not empty is put together to an operation. -/
theorem assembleOperation_eq_ok {f : Frame} {first : Node} {rest : List (BinaryOperator × Node)}
    (hparts : f.parts.reverse =
      .node first :: rest.flatMap fun link => [.operator link.1, .node link.2])
    (hrest : rest ≠ []) : f.assembleOperation = .ok (.operation first rest) := by
  have hempty : rest.isEmpty = false := by simpa using hrest
  unfold Frame.assembleOperation
  rw [hparts]
  show (do
    let rest ← f.chainParts (rest.flatMap fun (link : BinaryOperator × Node) =>
      [.operator link.1, .node link.2])
    if rest.isEmpty then .error (f.misshapen .noOperator)
    else return Node.operation first rest) = _
  rw [chainParts_eq_ok]
  show (if rest.isEmpty then _ else _) = _
  rw [hempty]
  rfl

/-- The flags of a number tell its form, which its text tells as well. -/
theorem assembleNumeral_eq {f : Frame} {cs : List Char} {ms : List Mark}
    (hparts : f.parts.reverse = [.text (String.ofList cs)]) (hkind : f.kind = .numeric)
    (hmarks : f.marks = ms.reverse)
    (hform : IsWhole cs ∧ ms = [] ∨ IsDecimal cs ∧ ms = [.decimal] ∨ IsScientific cs ∧
      .scientific ∈ ms) :
    f.assembleNumeral = literalValue .numeric (String.ofList cs) (readNumeral cs) := by
  have htext : f.onlyText = .ok (String.ofList cs) := by
    unfold Frame.onlyText Frame.onePart
    rw [hparts]
    rfl
  have hliteral {α : Type} (value : Except LiteralFault α) :
      f.literal (String.ofList cs) value = literalValue .numeric (String.ofList cs) value := by
    rw [Frame.literal, hkind]
    rfl
  unfold Frame.assembleNumeral
  rw [htext]
  show (if f.has .scientific then _ else if f.has .decimal then _ else _) = _
  simp only [Frame.has, hmarks, hliteral, String.toList_ofList]
  rcases hform with ⟨h, rfl⟩ | ⟨h, rfl⟩ | ⟨h, hscientific⟩
  · rw [readNumeral_whole h, readInteger_whole h]
    by_cases hout : isOutOfRange cs = true <;> simp only [hout] <;> rfl
  · obtain ⟨x, hfloat, hnumeral, -⟩ := readNumeral_decimal h
    rw [hnumeral, hfloat]
    rfl
  · obtain ⟨x, hfloat, hnumeral, -⟩ := readNumeral_scientific h
    have hcontains : ms.reverse.contains .scientific = true := by simpa using hscientific
    rw [hnumeral, hfloat, hcontains]
    rfl

/-- A node closes to what its rule makes of its parts. -/
theorem assemble_eq_construct {r : Rule} (hr : r.isNode = true) {parts : List Fragment}
    {ms : List Mark} (h : r.Parts parts ms) (offset : Nat) :
    construct r parts =
      ((Frame.begin r.nodeKind offset).fill parts ms).assemble.map fun part => [part] := by
  have hparts : ((Frame.begin r.nodeKind offset).fill parts ms).parts.reverse = parts := by
    simp [Frame.fill, Frame.begin]
  cases r with
  | rift =>
      obtain ⟨name, lines, rfl⟩ := h
      rfl
  | riftName | localReference =>
      obtain ⟨⟨name, rfl⟩, rfl⟩ := h
      rfl
  | reference =>
      rcases h with ⟨⟨name, rfl⟩, rfl⟩ | ⟨⟨unit, name, rfl⟩, rfl⟩
      · rfl
      · rfl
  | block | tuple | list =>
      rw [assemble_of_mapM Fragment.node? hparts rfl]
      · rfl
      · rintro part hpart
        obtain ⟨n, rfl⟩ := h part hpart
        exact ⟨n, rfl, rfl⟩
  | parameters =>
      rw [assemble_of_mapM Fragment.reference? hparts rfl]
      · rfl
      · rintro part hpart
        obtain ⟨ref, rfl⟩ := h part hpart
        exact ⟨ref, rfl, rfl⟩
  | map =>
      rw [assemble_of_mapM Fragment.entry? hparts rfl]
      · rfl
      · rintro part hpart
        obtain ⟨key, value, rfl⟩ := h part hpart
        exact ⟨(key, value), rfl, rfl⟩
  | mapEntry =>
      obtain ⟨key, value, rfl⟩ := h
      rfl
  | conditional =>
      rcases h with ⟨⟨condition, lines, rfl⟩, rfl⟩ | ⟨⟨condition, lines, otherwise, rfl⟩, rfl⟩
      · rfl
      · rfl
  | assignment =>
      obtain ⟨target, value, rfl⟩ := h
      rfl
  | application =>
      obtain ⟨callee, arguments, rfl⟩ := h
      rfl
  | function =>
      obtain ⟨parameters, ⟨lines, rfl⟩ | ⟨value, rfl⟩⟩ := h
      · rfl
      · rfl
  | boolean =>
      rcases h with rfl | rfl
      · rfl
      · rfl
  | operation =>
      obtain ⟨first, rest, hrest, rfl⟩ := h
      have hassemble := assembleOperation_eq_ok hparts hrest
      show _ = Except.map _ (do return Fragment.node (← Frame.assembleOperation _))
      rw [hassemble]
      show Except.ok [Fragment.node (.operation first (operandChain _))] = _
      rw [operandChain_flatMap]
      rfl
  | operator =>
      obtain ⟨op, rfl⟩ := h
      show literalValue .binaryOperator op.text _ >>= _ =
        Except.map _ (literalValue .binaryOperator op.text _ >>= _)
      rcases literalValue .binaryOperator op.text _ with _ | _ <;> rfl
  | string =>
      obtain ⟨items, rfl, -⟩ := h
      show literalValue .string (String.ofList items.flatten) _ >>= _ =
        Except.map _ (literalValue .string (String.ofList items.flatten) _ >>= _)
      rcases literalValue .string (String.ofList items.flatten) _ with _ | _ <;> rfl
  | numeric =>
      obtain ⟨cs, rfl, hform⟩ := h
      have hmarks : ((Frame.begin .numeric offset).fill [.text (String.ofList cs)] ms).marks =
          ms.reverse :=
        List.append_nil _
      show (do
        let value ← literalValue .numeric (String.ofList cs) (readNumeral (String.ofList cs).toList)
        return [Fragment.node (.numeric value)]) =
        Except.map _ (do return Fragment.node (.numeric (← Frame.assembleNumeral _)))
      rw [assembleNumeral_eq hparts rfl hmarks hform, String.toList_ofList]
      rcases literalValue .numeric (String.ofList cs) (readNumeral cs) with _ | _ <;> rfl
  | _ => cases hr

/-! ## Replaying a node -/

section node

variable {source : Array Char} {Q : Rule → List Char → Derivation → List Char → Prop}
  {s s' : List Char} {d : Derivation}

variable (source) in
/-- A row of steps with an action at the end. -/
theorem exists_inner_of_shape_snoc {steps : List Peg} {a : Action}
    (h : (seqs (steps ++ [action a])).Shape table Q s d s') :
    ∃ m, (seqs steps).Shape table Q s m s' ∧ d.Alike source (m.append (.action a)) := by
  induction steps generalizing s d with
  | nil =>
      obtain ⟨_, _, _, ⟨rfl, rfl⟩, ⟨rfl, rfl⟩, rfl⟩ := h
      refine ⟨.leaf [], ⟨rfl, rfl⟩, ?_⟩
      exact (Derivation.alike_append_leaf _).trans (Derivation.alike_leaf_append _).symm
  | cons step steps ih =>
      obtain ⟨d₁, s₁, d₂, h₁, h₂, rfl⟩ := h
      obtain ⟨m, hm, halike⟩ := ih h₂
      refine ⟨d₁.append m, ⟨d₁, s₁, m, h₁, hm, rfl⟩, ?_⟩
      exact ((Derivation.Alike.refl d₁).append halike).trans (Derivation.alike_assoc d₁ m _).symm

/-- Replaying a node opens it, replays what stands inside it, and closes it. -/
theorem exists_inner_of_shape_node {kind : NodeKind} {steps : List Peg}
    (h : (node kind steps).Shape table Q s d s') :
    ∃ m, (seqs steps).Shape table Q s m s' ∧ d.chars = m.chars ∧ d.fragments = m.fragments ∧
      d.marks = m.marks ∧ ∀ start r, d.play source start r =
        (m.play source start { r with frames := .begin kind start :: r.frames }).bind
          fun r => r.close (start + m.width) := by
  obtain ⟨_, _, d', ⟨rfl, rfl⟩, h', rfl⟩ := h
  obtain ⟨m, hm, halike⟩ := exists_inner_of_shape_snoc source h'
  have hopened : ((Derivation.action (.begin kind)).append d').Alike source
      ((Derivation.action (.begin kind)).append (m.append (.action .finish))) :=
    (Derivation.Alike.refl _).append halike
  refine ⟨m, hm, ?_, ?_, ?_, fun start r => ?_⟩
  · exact hopened.chars_eq.trans (List.append_nil _)
  · rw [hopened.fragments_eq]
    show ((m.append (.action .finish)).fragments >>= fun parts => pure ([] ++ parts)) = _
    rw [Derivation.fragments]
    rcases m.fragments with _ | parts
    · rfl
    · exact congrArg Except.ok (List.append_nil parts)
  · exact hopened.marks_eq.trans (List.append_nil _)
  · rw [hopened.play_eq, Derivation.play_append, Derivation.play_action]
    show (m.append (.action .finish)).play source start _ = _
    rw [Derivation.play_append]
    congr 1
    funext r
    exact Derivation.play_action _ _ _

/-- Replaying a node comes down to closing a frame with its parts and flags. -/
theorem play_node {r : Rule} (hr : r.isNode = true)
    (h : (table r).Shape table (fun r _ d _ => d.Plays source r) s d s') {start : Nat}
    {rest : List Char} (hrest : restFrom source start = d.chars ++ rest) (frames : List Frame)
    (captured : Option (Nat × Nat)) (built : List RiftLang.Rift) :
    (∀ parts, d.fragments = .ok parts → ∃ captured',
      d.play source start ⟨frames, captured, built⟩ =
        (Replay.mk ((Frame.begin r.nodeKind start).fill parts d.marks :: frames)
          captured' built).close
          (start + d.width)) ∧
    ∀ e, d.fragments = .error e → d.play source start ⟨frames, captured, built⟩ = .error e := by
  obtain ⟨steps, htable, hfillable⟩ := exists_steps hr
  rw [htable] at h
  obtain ⟨m, hm, hchars, hfragments, hmarks, hplay⟩ := exists_inner_of_shape_node h
  have hwidth : d.width = m.width := congrArg List.length hchars
  rw [hchars] at hrest
  have hfills :=
    fills_of_shape hfillable hm start rest hrest (.begin r.nodeKind start) frames captured
    built
  rw [hplay, hwidth, hfragments, hmarks]
  refine ⟨fun parts hparts => ?_, fun e he => ?_⟩
  · obtain ⟨captured', hinner⟩ := hfills.1 parts hparts
    refine ⟨captured', ?_⟩
    rw [hinner]
    rfl
  · rw [hfills.2 e he]
    rfl

/-- What a node stands for is what its frame closes to. -/
theorem fragments_node {r : Rule} (hr : r.isNode = true) (hmeans : d.Means (table r).Yields)
    {parts : List Fragment} (hparts : d.fragments = .ok parts) (start : Nat) :
    (Derivation.capture (.rule r) d).fragments =
      ((Frame.begin r.nodeKind start).fill parts d.marks).assemble.map fun part => [part] := by
  rw [Derivation.fragments, hparts]
  exact assemble_eq_construct hr (parts_of_yields (hmeans.of_fragments_eq hparts)) start

/-- A node that cannot be put together stops the replay with its error. -/
theorem close_of_error {f : Frame} {outer : List Frame} {captured : Option (Nat × Nat)}
    {built : List RiftLang.Rift} {e : BuildError} (h : f.assemble = .error e) (offset : Nat) :
    (Replay.mk (f :: outer) captured built).close offset = .error e := by
  show (f.assemble >>= _) = _
  rw [h]
  rfl

/-- A node that closes inside another one becomes a part of it. -/
theorem close_inside {f g : Frame} {outer : List Frame} {captured : Option (Nat × Nat)}
    {built : List RiftLang.Rift} {part : Fragment} (h : f.assemble = .ok part) (offset : Nat) :
    (Replay.mk (f :: g :: outer) captured built).close offset =
      .ok ⟨g.push part :: outer, captured, built⟩ := by
  show (f.assemble >>= _) = _
  rw [h]
  rfl

/-- A rift that closes with nothing around it is built. -/
theorem close_outside {f : Frame} {captured : Option (Nat × Nat)} {built : List RiftLang.Rift}
    {rift : RiftLang.Rift} (h : f.assemble = .ok (.rift rift)) (offset : Nat) :
    (Replay.mk [f] captured built).close offset = .ok ⟨[], captured, rift :: built⟩ := by
  show (f.assemble >>= _) = _
  rw [h]
  rfl

/-- What goes wrong inside a rule goes wrong with the rule. -/
theorem fragments_capture_of_error {r : Rule} {e : BuildError} (h : d.fragments = .error e) :
    (Derivation.capture (.rule r) d).fragments = .error e := by
  rw [Derivation.fragments, h]
  rfl

/-- A rule that is a node adds that node to the one around it. It is opened, filled with what its
inside stands for, and closed. -/
theorem fills_node {r : Rule} (hr : r.isNode = true)
    (h : (table r).Shape table (fun r _ d _ => d.Plays source r) s d s')
    (hmeans : d.Means (table r).Yields) : (Derivation.capture (.rule r) d).Fills source := by
  intro start rest hrest f outer captured built
  obtain ⟨hok, herror⟩ := play_node hr h hrest (f :: outer) captured built
  have hmarks : (Derivation.capture (.rule r) d).marks = [] := if_pos hr
  rw [Derivation.play_capture_rule, hmarks]
  rcases hd : d.fragments with x | parts
  · rw [fragments_capture_of_error hd, herror x hd]
    refine ⟨fun _ h => (by cases h), fun e he => ?_⟩
    cases he
    rfl
  · obtain ⟨captured', hclose⟩ := hok parts hd
    rw [fragments_node hr hmeans hd start, hclose]
    rcases hassemble : ((Frame.begin r.nodeKind start).fill parts d.marks).assemble with x | part
    · rw [close_of_error hassemble]
      refine ⟨fun _ h => (by cases h), fun e he => ?_⟩
      cases he
      rfl
    · refine ⟨fun made hmade => ⟨captured', ?_⟩, fun _ h => (by cases h)⟩
      cases hmade
      exact close_inside hassemble _

/-- A rift at the top is opened, filled and closed, and then stands among those built. -/
theorem raises_rift (h : (table .rift).Shape table (fun r _ d _ => d.Plays source r) s d s')
    (hmeans : d.Means (table .rift).Yields) :
    (Derivation.capture (.rule .rift) d).Raises source := by
  intro start rest hrest captured built
  obtain ⟨hok, herror⟩ := play_node rfl h hrest [] captured built
  rw [Derivation.play_capture_rule]
  rcases hd : d.fragments with x | parts
  · rw [fragments_capture_of_error hd, herror x hd]
    refine ⟨fun _ h => (by cases h), fun e he => ?_⟩
    cases he
    rfl
  · obtain ⟨captured', hclose⟩ := hok parts hd
    obtain ⟨name, lines, rfl⟩ := parts_of_yields (hmeans.of_fragments_eq hd)
    have hassemble : ((Frame.begin .rift start).fill [.node (.reference name), .block lines]
        d.marks).assemble
        = .ok (.rift ⟨name, lines⟩) := rfl
    rw [Derivation.fragments, hd, hclose]
    refine ⟨fun made hmade => ⟨captured', ⟨name, lines⟩, ?_, close_outside hassemble _⟩, ?_⟩
    · cases hmade
      rfl
    · intro _ h
      cases h

end node

/-! ## Replaying a rule -/

section rule

variable {source : Array Char} {r : Rule} {s s' : List Char} {d : Derivation}

/-- A rule that is no node hands on what stands inside it. -/
theorem construct_of_not_isNode (hr : r.isNode = false) (parts : List Fragment) :
    construct r parts = .ok parts := by
  cases r <;> first | rfl | cases hr

/-- A rule that is no node hands on what stands inside it. -/
theorem fragments_capture_of_not_isNode (hr : r.isNode = false) :
    (Derivation.capture (.rule r) d).fragments = d.fragments := by
  rw [Derivation.fragments]
  rcases d.fragments with _ | parts
  · rfl
  · exact construct_of_not_isNode hr parts

/-- A rule that is no node is like its inside. -/
theorem alike_capture_of_not_isNode (hr : r.isNode = false) :
    (Derivation.capture (.rule r) d).Alike source d where
  chars_eq := rfl
  fragments_eq := fragments_capture_of_not_isNode hr
  marks_eq := if_neg (by simp [hr])
  play_eq start r := Derivation.play_capture_rule start r _ d

/-- A rule that is no node, but is replayed inside one, attaches every text that it captures. -/
theorem isFillable_table (hr : r.isNode = false) (hfilling : r.isFilling = true) :
    (table r).isFillable = true := by
  cases r <;> first | rfl | contradiction

/-- Trivia call blanks only and record nothing beside the rules. -/
theorem isBlank_table (hr : r.isTrivia = true) : (table r).isBlank = true := by
  cases r <;> first | rfl | contradiction

/-- Replaying a derivation of a rule builds what the rule stands for. -/
theorem plays_of_parses (h : Parses table (.call r) s (some (d, s'))) : d.Plays source r := by
  refine Parses.rule_induction (Q := fun r _ d _ => d.Plays source r) ?_ h
  intro r s d s' _ hshape
  have hmeans : d.Means (table r).Yields :=
    means_of_shape (capturesLexemes_table r)
      (hshape.mono fun _ _ _ _ hcall _ => isOf_of_parses hcall)
  refine ⟨fun hr => ?_, ?_, fun hr => ?_, ?_⟩
  · rcases hnode : r.isNode with _ | _
    · exact (alike_capture_of_not_isNode hnode).fills_iff.2
        (fills_of_shape (isFillable_table hnode hr) hshape)
    · exact fills_node hnode hshape hmeans
  · rintro rfl
    obtain ⟨t, ht, rfl⟩ := hshape
    have hcaptures : (Derivation.capture .text t).Captures source :=
      captures_text (fills_of_shape rfl ht) (fragments_eq_nil_of_shape rfl ht)
    exact (alike_capture_of_not_isNode rfl).captures hcaptures
  · have hnode : r.isNode = false := by cases r <;> first | rfl | contradiction
    exact (alike_capture_of_not_isNode hnode).still (still_of_shape (isBlank_table hr) hshape)
  · rintro rfl
    exact raises_rift hshape hmeans

end rule

/-! ## Replaying a source -/

section source

variable {source : Array Char} {s s' : List Char} {d e : Derivation}

namespace Derivation

variable (source) in
/-- Replaying the derivation at the top adds its rifts to those built, or stops with its error. -/
def Stacks (d : Derivation) : Prop :=
  ∀ start rest, restFrom source start = d.chars ++ rest → ∀ captured built,
    (∀ parts, d.fragments = .ok parts → ∃ captured' rifts, parts = List.map .rift rifts ∧
      d.play source start ⟨[], captured, built⟩ = .ok ⟨[], captured', rifts.reverse ++ built⟩) ∧
    ∀ e, d.fragments = .error e → d.play source start ⟨[], captured, built⟩ = .error e

/-- What changes nothing adds the rifts that it stands for, which are none. -/
theorem Still.stacks (h : d.Still source) : Stacks source d := by
  intro start rest _ captured built
  refine ⟨fun parts hparts => ⟨captured, [], ?_, h.play_eq _ _⟩, fun e he => ?_⟩
  · exact (Except.ok.inj (h.fragments_eq.symm.trans hparts)).symm
  · cases h.fragments_eq.symm.trans he

/-- What adds one rift adds its rifts. -/
theorem Raises.stacks (h : d.Raises source) : Stacks source d := by
  intro start rest hrest captured built
  obtain ⟨hok, herror⟩ := h start rest hrest captured built
  refine ⟨fun parts hparts => ?_, herror⟩
  obtain ⟨captured', rift, rfl, hplay⟩ := hok parts hparts
  exact ⟨captured', [rift], rfl, hplay⟩

/-- What is like a derivation that adds its rifts adds its rifts. -/
theorem Alike.stacks (h : d.Alike source e) (he : e.Stacks source) : d.Stacks source := by
  intro start rest hrest captured built
  rw [h.chars_eq] at hrest
  rw [h.fragments_eq, h.play_eq]
  exact he start rest hrest captured built

/-- Derivations in a row add their rifts in a row, up to the first error. -/
theorem Stacks.append (hd : Stacks source d) (he : Stacks source e) :
    Stacks source (d.append e) := by
  intro start rest hrest captured built
  have hrest₁ : restFrom source start = d.chars ++ (e.chars ++ rest) := by
    rw [hrest]
    exact List.append_assoc _ _ _
  obtain ⟨hok₁, herror₁⟩ := hd start _ hrest₁ captured built
  have he' := he (start + d.width) rest (restFrom_append hrest₁)
  refine ⟨fun parts hparts => ?_, fun x hx => ?_⟩
  · obtain ⟨parts₁, parts₂, h₁, h₂, rfl⟩ := fragments_append_eq_ok hparts
    obtain ⟨captured₁, rifts₁, rfl, hplay₁⟩ := hok₁ parts₁ h₁
    obtain ⟨captured₂, rifts₂, rfl, hplay₂⟩ := (he' captured₁ (rifts₁.reverse ++ built)).1 parts₂ h₂
    refine ⟨captured₂, rifts₁ ++ rifts₂, List.map_append.symm, ?_⟩
    rw [play_append, hplay₁, List.reverse_append, List.append_assoc]
    exact hplay₂
  · rw [play_append]
    rcases fragments_append_eq_error hx with h₁ | ⟨parts₁, h₁, h₂⟩
    · rw [herror₁ x h₁]
      rfl
    · obtain ⟨captured₁, rifts₁, rfl, hplay₁⟩ := hok₁ parts₁ h₁
      rw [hplay₁]
      exact (he' captured₁ (rifts₁.reverse ++ built)).2 x h₂

end Derivation

/-- A repetition of items that add their rifts adds their rifts. -/
theorem Chain.stacks {item : List Char → Derivation → List Char → Prop} {stop : List Char → Prop}
    (h : Chain item stop s d s') (hitem : ∀ s d s', item s d s' → d.Stacks source) :
    d.Stacks source := by
  induction h with
  | nil _ => exact (Derivation.still_leaf []).stacks
  | cons h _ ih => exact (hitem _ _ _ h).append ih

/-- Replaying a source stacks its rifts. -/
theorem stacks_of_parses_source (h : Parses table (.call .source) s (some (d, s'))) :
    d.Stacks source := by
  obtain ⟨d, hbody, rfl⟩ := parses_call_iff.1 h
  have hshape : (table .source).Shape table (fun r _ d _ => d.Plays source r) s d s' :=
    (hbody.shape fun _ _ _ _ hrule _ => plays_of_parses (.call hrule))
  have hitem : ∀ s d s', (seqs [call .rift, sp]).Shape table (fun r _ d _ => d.Plays source r)
      s d s' →
      d.Stacks source := by
    rintro s _ s' ⟨_, _, _, hrift, ⟨_, _, _, hsp, ⟨rfl, rfl⟩, rfl⟩, rfl⟩
    exact (hrift.2.raises rfl).stacks.append
      ((hsp.2.still rfl).append (Derivation.still_leaf [])).stacks
  obtain ⟨_, _, _, hsp, ⟨_, _, _, ⟨_, _, _, hfirst, hrest, rfl⟩,
    ⟨_, _, _, ⟨-, rfl, rfl⟩, ⟨rfl, rfl⟩, rfl⟩, rfl⟩, rfl⟩ := hshape
  have hrifts := (hitem _ _ _ hfirst).append (hrest.stacks hitem)
  have hend : ((Derivation.leaf []).append (.leaf [])).Still source :=
    (Derivation.still_leaf []).append (Derivation.still_leaf [])
  exact (alike_capture_of_not_isNode rfl).stacks
    ((hsp.2.still rfl).stacks.append (hrifts.append hend.stacks))

end source

/-- Replaying the tokens of a source builds the program that its derivation stands for. -/
theorem execute_eq_program {source : Array Char} {d : Derivation} {rest : List Char}
    (h : Parses table (.call .source) source.toList (some (d, rest))) :
    (Recognized.mk source (d.tokens 0 0)).execute = d.program := by
  have hstart : restFrom source 0 = d.chars ++ rest := h.eq_append
  obtain ⟨hok, herror⟩ := stacks_of_parses_source h 0 rest hstart none []
  show (d.play source 0 ⟨[], none, []⟩ >>= Replay.finish) = _
  rw [Derivation.program]
  rcases hd : d.fragments with e | parts
  · rw [herror e hd]
    rfl
  · obtain ⟨captured, rifts, rfl, hplay⟩ := hok parts hd
    rw [hplay]
    show Except.ok (Source.mk (rifts.reverse ++ []).reverse) = .ok ⟨_⟩
    rw [List.append_nil, List.reverse_reverse, Fragment.filterMap_rift?_map]

end RiftLang
