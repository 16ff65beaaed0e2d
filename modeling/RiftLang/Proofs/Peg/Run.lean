import RiftLang.Proofs.Peg

/-!
# Running parsing expressions

Outcomes of parsing expressions can be computed, as long as the nesting of steps stays below a
bound.

* `Peg.run` — the outcome of an expression on a text, or `none` if steps nest too deep to tell.
* `parses_of_run` — what is computed is an outcome; `exists_parses_of_run` — so what is computed of
  a match holds of a derivation.
-/

namespace RiftLang

namespace Peg

/-- The outcome of an expression on a text, when steps may nest at most so deep. -/
def run (rules : Rule → Peg) : (bound : Nat) → Peg → List Char →
    Option (Option (Derivation × List Char))
  | 0, _, _ => none
  | n + 1, e, s =>
    match e with
    | empty => some (some (.leaf [], s))
    | fail => some none
    | one test =>
      match s with
      | [] => some none
      | c :: s => some (if test c then some (.leaf [c], s) else none)
    | word w =>
      some (if w.toList.isPrefixOf s then some (.leaf w.toList, s.drop w.toList.length) else none)
    | seq a b =>
      (run rules n a s).bind fun res => match res with
        | none => some none
        | some (d, s) => (run rules n b s).map fun res => res.map fun m => (d.append m.1, m.2)
    | choice a b =>
      (run rules n a s).bind fun res => match res with
        | none => run rules n b s
        | some m => some (some m)
    | star a =>
      (run rules n a s).bind fun res => match res with
        | none => some (some (.leaf [], s))
        | some (d, s) => (run rules n (star a) s).map fun res => res.map fun m =>
          (d.append m.1, m.2)
    | plus a =>
      (run rules n a s).bind fun res => match res with
        | none => some none
        | some (d, s) => (run rules n (star a) s).map fun res => res.map fun m =>
          (d.append m.1, m.2)
    | absent a =>
      (run rules n a s).map fun res => match res with
        | none => some (.leaf [], s)
        | some _ => none
    | text a => (run rules n a s).map fun res => res.map fun m => (.capture .text m.1, m.2)
    | action x => some (some (.action x, s))
    | call r => (run rules n (rules r) s).map fun res => res.map fun m =>
      (.capture (.rule r) m.1, m.2)

end Peg

section run

variable {rules : Rule → Peg} {e : Peg} {s : List Char} {res : Option (Derivation × List Char)}

/-- A repetition never fails. -/
theorem not_parses_star_none {a : Peg} : ¬ Parses rules (.star a) s none := by
  rintro ⟨⟩

/-- What is computed is an outcome. -/
theorem parses_of_run {n : Nat} (h : e.run rules n s = some res) : Parses rules e s res := by
  induction n generalizing e s res with
  | zero => cases h
  | succ n ih =>
      cases e with
      | empty =>
          cases h
          exact .empty
      | fail =>
          cases h
          exact .fail
      | one test =>
          cases s with
          | nil =>
              cases h
              exact .one_fail (by simp)
          | cons c s =>
              by_cases hc : test c = true
              · obtain rfl : some (Derivation.leaf [c], s) = res := by simpa [Peg.run, hc] using h
                exact .one hc
              · obtain rfl : none = res := by simpa [Peg.run, hc] using h
                exact .one_fail (by simpa using hc)
      | word w =>
          by_cases hw : w.toList.isPrefixOf s = true
          · obtain ⟨s, rfl⟩ := List.isPrefixOf_iff_prefix.1 hw
            obtain rfl : some (Derivation.leaf w.toList, s) = res := by simpa [Peg.run] using h
            exact .word
          · obtain rfl : none = res := by simpa [Peg.run, hw] using h
            exact .word_fail fun hprefix => hw (List.isPrefixOf_iff_prefix.2 hprefix)
      | seq a b =>
          obtain ⟨_ | ⟨d, s₁⟩, ha, h⟩ := Option.bind_eq_some_iff.1 h
          · cases h
            exact .seq_fail_left (ih ha)
          · obtain ⟨_ | ⟨e, s₂⟩, hb, rfl⟩ := Option.map_eq_some_iff.1 h
            · exact .seq_fail_right (ih ha) (ih hb)
            · exact .seq (ih ha) (ih hb)
      | choice a b =>
          obtain ⟨_ | m, ha, h⟩ := Option.bind_eq_some_iff.1 h
          · exact .choice_right (ih ha) (ih h)
          · cases h
            exact .choice_left (ih ha)
      | star a =>
          obtain ⟨_ | ⟨d, s₁⟩, ha, h⟩ := Option.bind_eq_some_iff.1 h
          · cases h
            exact .star_stop (ih ha)
          · obtain ⟨_ | ⟨e, s₂⟩, hs, rfl⟩ := Option.map_eq_some_iff.1 h
            · exact absurd (ih hs) not_parses_star_none
            · exact .star (ih ha) (ih hs)
      | plus a =>
          obtain ⟨_ | ⟨d, s₁⟩, ha, h⟩ := Option.bind_eq_some_iff.1 h
          · cases h
            exact .plus_fail (ih ha)
          · obtain ⟨_ | ⟨e, s₂⟩, hs, rfl⟩ := Option.map_eq_some_iff.1 h
            · exact absurd (ih hs) not_parses_star_none
            · exact .plus (ih ha) (ih hs)
      | absent a =>
          obtain ⟨_ | m, ha, rfl⟩ := Option.map_eq_some_iff.1 h
          · exact .absent (ih ha)
          · exact .absent_fail (ih ha)
      | text a =>
          obtain ⟨_ | ⟨d, s₁⟩, ha, rfl⟩ := Option.map_eq_some_iff.1 h
          · exact .text_fail (ih ha)
          · exact .text (ih ha)
      | action x =>
          cases h
          exact .action
      | call r =>
          obtain ⟨_ | ⟨d, s₁⟩, hr, rfl⟩ := Option.map_eq_some_iff.1 h
          · exact .call_fail (ih hr)
          · exact .call (ih hr)

/-- What is computed of a match holds of a derivation. -/
theorem exists_parses_of_run {α : Type} {f : Derivation → α} {n : Nat} {a : α} {s' : List Char}
    (h : (e.run rules n s).map (·.map fun m => (f m.1, m.2)) = some (some (a, s'))) :
    ∃ d, Parses rules e s (some (d, s')) ∧ f d = a := by
  obtain ⟨res, hrun, hres⟩ := Option.map_eq_some_iff.1 h
  obtain ⟨⟨d, rest⟩, rfl, hd⟩ := Option.map_eq_some_iff.1 hres
  obtain ⟨rfl, rfl⟩ := Prod.mk.inj hd
  exact ⟨d, parses_of_run hrun, rfl⟩

end run

end RiftLang
