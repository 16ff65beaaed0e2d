import Mathlib.Computability.Language
import RiftLang.Proofs.Peg

/-!
# Longest matches

An ordered choice takes the first alternative that matches, and nothing that comes later makes it
try another one. An expression may still match the longest prefix of a text that is in a language,
if the language is put together with care.

* `IsLongest` — the longest prefix of a text that is in a language.
* `Munches` — an expression matches the longest prefix in a language, or fails because no prefix is
  in it.
* `Munches.seq` — one expression after another, where a text of the first language can only go on in
  one place.
* `Munches.choice` — a choice, where the first alternative matches more than the second could.
-/

namespace RiftLang

/-! ## Prefixes -/

section prefixes

variable {s t u v w rest : List Char} {c : Char}

/-- Of two prefixes of a text the one that lacks a character of the other is shorter. -/
theorem length_lt_of_notMem (ht : t <+: s) (hu : u <+: s) (hmem : c ∈ t) (hnot : c ∉ u) :
    u.length < t.length := by
  by_contra hle
  have htu : t <+: u := List.prefix_of_prefix_length_le ht hu (Nat.not_lt.1 hle)
  exact hnot (htu.subset hmem)

/-- A text that ends before a character ends where the other text does that lacks it. -/
theorem eq_of_append_cons_prefix (h : u ++ c :: v <+: w ++ rest) (hle : u.length ≤ w.length)
    (hnot : c ∉ w) :
    u = w := by
  have hw : w <+: w ++ rest := List.prefix_append w rest
  have hu : u <+: u ++ c :: v := List.prefix_append u (c :: v)
  have huc : u ++ [c] <+: u ++ c :: v := List.prefix_append_right_inj u |>.2 ⟨v, rfl⟩
  apply (List.prefix_of_prefix_length_le (hu.trans h) hw hle).eq_of_length
  by_contra hne
  have hlt : (u ++ [c]).length ≤ w.length := by
    rw [List.length_append, List.length_singleton]
    omega
  apply hnot
  exact (List.prefix_of_prefix_length_le (huc.trans h) hw hlt).subset (by simp)

end prefixes

/-! ## Languages -/

/-- The text is the longest prefix of `s` in the language. -/
structure IsLongest (L : Language Char) (s text : List Char) : Prop where
  /-- It is a prefix. -/
  isPrefix : text <+: s
  /-- It is in the language. -/
  mem : text ∈ L
  /-- No prefix in the language is longer. -/
  length_le : ∀ u ∈ L, u <+: s → u.length ≤ text.length

/-- The texts of one character that passes the test. -/
def charOf (test : Char → Bool) : Language Char :=
  {text | ∃ c, text = [c] ∧ test c = true}

/-- The texts whose characters all pass the test. -/
def charsOf (test : Char → Bool) : Language Char :=
  {text | ∀ c ∈ text, test c = true}

section languages

variable {L M : Language Char} {test : Char → Bool} {s t : List Char}

/-- The language of the empty text finds nothing longer. -/
theorem isLongest_nil : IsLongest 1 s [] where
  isPrefix := List.nil_prefix
  mem := Language.nil_mem_one
  length_le := by
    intro u hu _
    rw [(Language.mem_one u).1 hu]

/-- A text of a character and more begins with that character. -/
theorem mem_charOf_mul : t ∈ charOf test * M ↔ ∃ c more, t = c :: more ∧ test c = true ∧
    more ∈ M := by
  constructor
  · intro h
    obtain ⟨_, ⟨c, rfl, hc⟩, more, hmore, rfl⟩ := Language.mem_mul.1 h
    exact ⟨c, more, rfl, hc, hmore⟩
  · rintro ⟨c, more, rfl, hc, hmore⟩
    exact Language.append_mem_mul (a := [c]) ⟨c, rfl, hc⟩ hmore

/-- An optional character is there, or the text is empty. -/
theorem mem_charOf_add_one {c : Char} : t ∈ charOf (· == c) + 1 ↔ t = [c] ∨ t = [] := by
  constructor
  · rintro (⟨d, rfl, hd⟩ | h)
    · left
      rw [eq_of_beq hd]
    · right
      exact h
  · rintro (rfl | rfl)
    · left
      exact ⟨c, rfl, beq_self_eq_true c⟩
    · right
      rfl

/-- The longest text of `L` is the only one after which a text of `M` can go on. -/
def Continues (L M : Language Char) : Prop :=
  ∀ w rest u v, IsLongest L (w ++ rest) w → u ∈ L → v ∈ M → u ++ v <+: w ++ rest → u = w

/-- What comes next begins with a character that is not in the first text. -/
theorem continues_of_notMem (h : ∀ v ∈ M, ∃ c v', v = c :: v' ∧ ∀ u ∈ L, c ∉ u) :
    Continues L M := by
  intro w rest u v hw hu hv huv
  obtain ⟨c, v, rfl, hnot⟩ := h v hv
  have hle : u.length ≤ w.length := hw.length_le u hu ((List.prefix_append u (c :: v)).trans huv)
  exact eq_of_append_cons_prefix huv hle (hnot w hw.mem)

/-- All texts of the first language are equally long. -/
theorem continues_of_length {n : Nat} (h : ∀ u ∈ L, u.length = n) : Continues L M := by
  intro w rest u v hw hu _ huv
  have hstart : u <+: w ++ rest := (List.prefix_append u v).trans huv
  have hlength : u.length = w.length := (h u hu).trans (h w hw.mem).symm
  exact (List.prefix_of_prefix_length_le hstart (List.prefix_append w rest) hlength.le).eq_of_length
    hlength

/-- After nothing, any text can go on. -/
theorem continues_one : Continues 1 M :=
  continues_of_length fun _ hu => congrArg List.length ((Language.mem_one _).1 hu)

/-- After one character, any text can go on, since no other prefix has that length. -/
theorem continues_charOf : Continues (charOf test) M := by
  apply continues_of_length
  rintro u ⟨c, rfl, -⟩
  exact List.length_singleton

end languages

/-! ## Expressions -/

/-- The expression matches the longest prefix in the language, or fails because there is none. -/
structure Munches (rules : Rule → Peg) (e : Peg) (L : Language Char) : Prop where
  /-- What is matched is the longest prefix. -/
  isLongest : ∀ s d rest, Parses rules e s (some (d, rest)) → IsLongest L s d.chars
  /-- Where the expression fails there is no prefix. -/
  not_prefix : ∀ s, Parses rules e s none → ∀ u ∈ L, ¬ u <+: s

section munches

variable {rules : Rule → Peg} {a b : Peg} {L M : Language Char} {test : Char → Bool}

/-- The empty expression matches the empty text, its longest. -/
theorem munches_empty : Munches rules .empty 1 := by
  constructor
  · rintro s d rest ⟨⟩
    exact isLongest_nil
  · rintro s ⟨⟩

/-- So does an action. -/
theorem munches_action {x : Action} : Munches rules (.action x) 1 := by
  constructor
  · rintro s d rest ⟨⟩
    exact isLongest_nil
  · rintro s ⟨⟩

/-- The failing expression has no text at all. -/
theorem munches_fail : Munches rules .fail 0 := by
  constructor
  · intro s d rest h
    exact absurd h not_parses_fail
  · intro s _ u hu
    exact absurd hu (Language.notMem_zero u)

/-- A character is matched where there is one that passes the test. -/
theorem munches_one (test : Char → Bool) : Munches rules (.one test) (charOf test) := by
  constructor
  · intro s d rest h
    obtain ⟨c, rfl, hc, rfl⟩ := parses_one_iff.1 h
    refine ⟨⟨rest, rfl⟩, ⟨c, rfl, hc⟩, ?_⟩
    rintro u ⟨c', rfl, -⟩ _
    exact Nat.le_refl _
  · rintro s hfail u ⟨c, rfl, hc⟩ ⟨rest, rfl⟩
    cases hfail with
    | one_fail hnone => simp [hnone c rfl] at hc

/-- Capturing a text does not change which text is matched. -/
theorem Munches.text (ha : Munches rules a L) : Munches rules (.text a) L := by
  constructor
  · intro s d rest h
    obtain ⟨d, hd, rfl⟩ := parses_text_iff.1 h
    exact ha.isLongest s d rest hd
  · rintro s ⟨⟩
    exact ha.not_prefix s ‹_›

/-- A rule matches the texts of what it stands for. -/
theorem Munches.call {r : Rule} (h : Munches rules (rules r) L) : Munches rules (.call r) L := by
  constructor
  · intro s d rest hcall
    obtain ⟨d, hd, rfl⟩ := parses_call_iff.1 hcall
    exact h.isLongest s d rest hd
  · rintro s ⟨⟩
    exact h.not_prefix s ‹_›

/-- One expression after another matches the longest texts of both, if nothing can go on earlier
than there. -/
theorem Munches.seq (ha : Munches rules a L) (hb : Munches rules b M) (h : Continues L M) :
    Munches rules (.seq a b) (L * M) := by
  -- whatever the sequence could match begins with what the first expression does match
  have hsplit : ∀ {s d s'}, Parses rules a s (some (d, s')) → ∀ t ∈ L * M, t <+: s →
      ∃ v ∈ M, t = d.chars ++ v ∧ v <+: s' := by
    intro s d s' hd t ht hstart
    obtain ⟨u, hu, v, hv, rfl⟩ := Language.mem_mul.1 ht
    have hlongest := ha.isLongest s d s' hd
    rw [hd.eq_append] at hlongest hstart
    obtain rfl := h d.chars s' u v hlongest hu hv hstart
    exact ⟨v, hv, rfl, (List.prefix_append_right_inj _).1 hstart⟩
  constructor
  · intro s d rest hseq
    obtain ⟨d, s', e, hd, he, rfl⟩ := parses_seq_iff.1 hseq
    have hlongest := hb.isLongest s' e rest he
    refine ⟨?_, ?_, ?_⟩
    · rw [hseq.eq_append]
      exact List.prefix_append _ _
    · exact Language.append_mem_mul (ha.isLongest s d s' hd).mem hlongest.mem
    · intro t ht hstart
      obtain ⟨v, hv, rfl, hvs⟩ := hsplit hd t ht hstart
      have hle := hlongest.length_le v hv hvs
      simpa [Derivation.chars] using hle
  · intro s hfail t ht hstart
    cases hfail with
    | seq_fail_left hnone =>
        obtain ⟨u, hu, v, -, rfl⟩ := Language.mem_mul.1 ht
        exact ha.not_prefix s hnone u hu ((List.prefix_append u v).trans hstart)
    | seq_fail_right hd hnone =>
        obtain ⟨v, hv, -, hvs⟩ := hsplit hd t ht hstart
        exact hb.not_prefix _ hnone v hv hvs

/-- What matches nothing may come last. -/
theorem Munches.seq_one (ha : Munches rules a L) (hb : Munches rules b 1) :
    Munches rules (.seq a b) L := by
  constructor
  · intro s d rest hseq
    obtain ⟨d, s', e, hd, he, rfl⟩ := parses_seq_iff.1 hseq
    have hnil : e.chars = [] := (Language.mem_one _).1 (hb.isLongest s' e rest he).mem
    have hchars : (d.append e).chars = d.chars := by rw [Derivation.chars, hnil, List.append_nil]
    rw [hchars]
    exact ha.isLongest s d s' hd
  · intro s hfail
    cases hfail with
    | seq_fail_left hnone => exact ha.not_prefix s hnone
    | seq_fail_right _ hnone =>
      exact absurd List.nil_prefix (hb.not_prefix _ hnone [] Language.nil_mem_one)

/-- A choice matches the longest text, if the first alternative matches no less than the second
could. -/
theorem Munches.choice (ha : Munches rules a L) (hb : Munches rules b M)
    (h : ∀ s, ∀ t ∈ L, ∀ u ∈ M, t <+: s → u <+: s → u.length ≤ t.length) :
    Munches rules (.choice a b) (L + M) := by
  constructor
  · intro s d rest hchoice
    rcases parses_choice_iff.1 hchoice with hd | ⟨hnone, hd⟩
    · have hlongest := ha.isLongest s d rest hd
      refine ⟨hlongest.isPrefix, .inl hlongest.mem, ?_⟩
      rintro u (hu | hu) hstart
      · exact hlongest.length_le u hu hstart
      · exact h s _ hlongest.mem u hu hlongest.isPrefix hstart
    · have hlongest := hb.isLongest s d rest hd
      refine ⟨hlongest.isPrefix, .inr hlongest.mem, ?_⟩
      rintro u (hu | hu) hstart
      · exact absurd hstart (ha.not_prefix s hnone u hu)
      · exact hlongest.length_le u hu hstart
  · intro s hfail u hu
    cases hfail with
    | choice_right hnone hnone' =>
        rcases hu with hu | hu
        · exact ha.not_prefix s hnone u hu
        · exact hb.not_prefix s hnone' u hu

/-- A repetition of characters takes all there are. -/
theorem Munches.star_charOf (ha : Munches rules a (charOf test)) :
    Munches rules (.star a) (charsOf test) := by
  constructor
  · intro s d rest h
    generalize he : Peg.star a = e at h
    generalize hres : some (d, rest) = res at h
    induction h generalizing d rest with
    | star_stop hnone =>
        cases he
        cases hres
        refine ⟨List.nil_prefix, fun c hc => absurd hc List.not_mem_nil, ?_⟩
        intro u hu hstart
        cases u with
        | nil => exact Nat.le_refl _
        | cons c u =>
            have hc : [c] ∈ charOf test := ⟨c, rfl, hu c List.mem_cons_self⟩
            exact absurd (List.IsPrefix.trans ⟨u, rfl⟩ hstart) (ha.not_prefix _ hnone [c] hc)
    | @star _ s s' _ first more hd _ _ ih =>
        cases he
        cases hres
        obtain ⟨c, hchars, hc⟩ := (ha.isLongest s first s' hd).mem
        obtain ⟨hstart, hmem, hle⟩ := ih more _ rfl rfl
        have hsplit : s = c :: s' := by rw [hd.eq_append, hchars, List.singleton_append]
        have happend : (first.append more).chars = c :: more.chars := by
          rw [Derivation.chars, hchars, List.singleton_append]
        rw [hsplit, happend]
        refine ⟨List.cons_prefix_cons.2 ⟨rfl, hstart⟩, List.forall_mem_cons.2 ⟨hc, hmem⟩, ?_⟩
        intro u hu hmore
        cases u with
        | nil => exact Nat.zero_le _
        | cons c' u =>
            have htail :=
              hle u (fun x hx => hu x (List.mem_cons_of_mem _ hx)) (List.cons_prefix_cons.1 hmore).2
            exact Nat.succ_le_succ htail
    | _ => cases he
  · rintro s ⟨⟩

end munches

end RiftLang
