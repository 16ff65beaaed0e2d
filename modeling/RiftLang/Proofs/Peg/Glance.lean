import RiftLang.Proofs.Characters
import RiftLang.Proofs.Peg.Table

/-!
# What the next character tells

Often the next character alone, or that there is none, decides whether an expression matches.

* `Peg.glance` — the outcome that the next character decides, if it does.
* `parses_of_glance` — the outcome is as decided.
* `forall_mem_next` — what holds of each of some characters holds of the next one, if it is one of
  these.
* `nameFirsts` — the characters that names begin with.
-/

namespace RiftLang

/-- Does the expression match without consuming (`true`) or fail (`false`), whatever comes after the
next character? Calls may nest at most so deep. -/
def Peg.glance (rules : Rule → Peg) : (bound : Nat) → Peg → (next : Option Char) → Option Bool
  | 0, _, _ => none
  | n + 1, e, next =>
    match e with
    | empty | action _ => some true
    | fail => some false
    | one test => if next.any test then none else some false
    | word w =>
      match w.toList with
      | [] => some true
      | c :: _ => if next = some c then none else some false
    | seq a b =>
      match glance rules n a next with
      | some true => glance rules n b next
      | known => known
    | choice a b =>
      match glance rules n a next with
      | some false => glance rules n b next
      | known => known
    | star a =>
      match glance rules n a next with
      | some false => some true
      | _ => none
    | plus a =>
      match glance rules n a next with
      | some false => some false
      | _ => none
    | absent a => (glance rules n a next).map not
    | text a => glance rules n a next
    | call r => glance rules n (rules r) next

variable {rules : Rule → Peg} {e : Peg} {s : List Char} {n : Nat}

/-- What the next character decides is the outcome. -/
theorem parses_of_glance {matched : Bool} (h : e.glance rules n s.head? = some matched) :
    if matched then ∃ d, Parses rules e s (some (d, s)) else Parses rules e s none := by
  induction n generalizing e matched with
  | zero => cases h
  | succ n ih =>
      cases e with
      | empty =>
          cases h
          exact ⟨_, .empty⟩
      | action x =>
          cases h
          exact ⟨_, .action⟩
      | fail =>
          cases h
          exact .fail
      | one test =>
          by_cases htest : s.head?.any test = true
          · simp [Peg.glance, htest] at h
          · obtain rfl : false = matched := by simpa [Peg.glance, htest] using h
            refine .one_fail fun c hc => ?_
            rw [hc] at htest
            simpa using htest
      | word w =>
          rcases hw : w.toList with _ | ⟨c, cs⟩
          · obtain rfl : true = matched := by simpa [Peg.glance, hw] using h
            have hword : Parses rules (.word w) (w.toList ++ s) _ := .word
            rw [hw] at hword
            exact ⟨_, hword⟩
          · by_cases hc : s.head? = some c
            · simp [Peg.glance, hw, hc] at h
            · obtain rfl : false = matched := by simpa [Peg.glance, hw, hc] using h
              refine .word_fail fun hprefix => hc ?_
              obtain ⟨u, rfl⟩ := hprefix
              simp [hw]
      | seq a b =>
          rcases ha : a.glance rules n s.head? with _ | _ | _
          · simp [Peg.glance, ha] at h
          · obtain rfl : false = matched := by simpa [Peg.glance, ha] using h
            exact .seq_fail_left (ih ha)
          · have hb : b.glance rules n s.head? = some matched := by simpa [Peg.glance, ha] using h
            obtain ⟨d, hd⟩ := ih ha
            cases matched with
            | false => exact .seq_fail_right hd (ih hb)
            | true =>
                obtain ⟨d', hd'⟩ := ih hb
                exact ⟨_, .seq hd hd'⟩
      | choice a b =>
          rcases ha : a.glance rules n s.head? with _ | _ | _
          · simp [Peg.glance, ha] at h
          · have hb : b.glance rules n s.head? = some matched := by simpa [Peg.glance, ha] using h
            cases matched with
            | false => exact .choice_right (ih ha) (ih hb)
            | true =>
                obtain ⟨d, hd⟩ := ih hb
                exact ⟨_, .choice_right (ih ha) hd⟩
          · obtain rfl : true = matched := by simpa [Peg.glance, ha] using h
            obtain ⟨d, hd⟩ := ih ha
            exact ⟨_, .choice_left hd⟩
      | star a =>
          rcases ha : a.glance rules n s.head? with _ | _ | _
          · simp [Peg.glance, ha] at h
          · obtain rfl : true = matched := by simpa [Peg.glance, ha] using h
            exact ⟨_, .star_stop (ih ha)⟩
          · simp [Peg.glance, ha] at h
      | plus a =>
          rcases ha : a.glance rules n s.head? with _ | _ | _
          · simp [Peg.glance, ha] at h
          · obtain rfl : false = matched := by simpa [Peg.glance, ha] using h
            exact .plus_fail (ih ha)
          · simp [Peg.glance, ha] at h
      | absent a =>
          obtain ⟨_ | _, ha, rfl⟩ := Option.map_eq_some_iff.1 h
          · exact ⟨_, .absent (ih ha)⟩
          · obtain ⟨d, hd⟩ := ih ha
            exact .absent_fail hd
      | text a =>
          cases matched with
          | false => exact .text_fail (ih h)
          | true =>
              obtain ⟨d, hd⟩ := ih h
              exact ⟨_, .text hd⟩
      | call r =>
          cases matched with
          | false => exact .call_fail (ih h)
          | true =>
              obtain ⟨d, hd⟩ := ih h
              exact ⟨_, .call hd⟩

/-! ## Rules of the table -/

namespace Peg

/-- The expression fails on every text that goes on with such a character. -/
def failsAt (e : Peg) (next : Option Char) : Bool :=
  e.glance table 64 next == some false

/-- An expression that can be seen to fail from the next character fails. -/
theorem parses_none_of_failsAt (h : e.failsAt s.head? = true) : Parses table e s none :=
  parses_of_glance (beq_iff_eq.1 h)

/-- An expression that fails at each of some characters fails on a text that goes on with one. -/
theorem parses_none_of_all {nexts : List (Option Char)} (hs : s.head? ∈ nexts)
    (h : nexts.all e.failsAt = true) : Parses table e s none :=
  parses_none_of_failsAt (List.all_eq_true.1 h _ hs)

end Peg

/-! ## Next characters -/

/-- A test that all items pass is passed by each. -/
theorem forall_mem_of_all {α : Type} {p : α → Prop} [DecidablePred p] {items : List α}
    (h : items.all (p ·) = true) : ∀ x ∈ items, p x :=
  fun x hx => of_decide_eq_true (List.all_eq_true.1 h x hx)

/-- What holds of each of some characters holds of the next one, if it is one of these. -/
theorem forall_mem_next {p : Char → Prop} [DecidablePred p] {firsts : List Char}
    (hs : ∃ c ∈ firsts, s.head? = some c) (h : firsts.all (p ·) = true) : ∀ c ∈ s.head?, p c := by
  obtain ⟨c, hc, hhead⟩ := hs
  intro c' hc'
  obtain rfl := Option.some.inj (hhead.symm.trans hc')
  exact forall_mem_of_all h c hc

/-- The characters that names begin with. -/
def nameFirsts : List Char :=
  "@_ABCDEFGHIJKLMNOPQRSTUVWXYZabcdefghijklmnopqrstuvwxyz".toList

/-- A name begins with an `@`, a letter or an underscore. -/
theorem mem_nameFirsts {c : Char} (h : c = '@' ∨ isNameStart c = true) : c ∈ nameFirsts := by
  have hall : ∀ n ∈ List.range 128, Char.ofNat n = '@' ∨ isNameStart (Char.ofNat n) = true →
      Char.ofNat n ∈ nameFirsts :=
    forall_mem_of_all rfl
  have hc : c.toNat < 128 := by
    simp only [isNameStart, Bool.or_eq_true, Peg.isAlpha_iff, beq_iff_eq, Char.le_def,
      UInt32.le_iff_toNat_le] at h
    rcases h with rfl | (h | h) | rfl
    · decide
    · exact lt_of_le_of_lt h.2 (by decide)
    · exact lt_of_le_of_lt h.2 (by decide)
    · decide
  rw [← Char.ofNat_toNat c] at h ⊢
  exact hall _ (List.mem_range.2 hc) h

end RiftLang
