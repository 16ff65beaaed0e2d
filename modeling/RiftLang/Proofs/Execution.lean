import RiftLang.Proofs.Meaning.Replay
import RiftLang.Proofs.Peg.Run

/-!
# Executing recognised sources

What is recognised can be executed, except for integers that do not fit in 64 bits.

* `Recognized.numerals` — the tokens of numbers, in source order.
* `execute_recognized` — execution gives a program, or the error of the first integer that does not
  fit.
-/

namespace RiftLang

namespace Recognized

/-- The tokens of the numbers of a source, in emission order. -/
def numerals (r : Recognized) : List Token :=
  r.tokens.filter (·.symbol = .rule .numeric)

/-- The text that a token spans. -/
def textOf (r : Recognized) (t : Token) : String :=
  slice r.source t.start t.stop

end Recognized

namespace Derivation

/-- The tokens of a derivation end within its span. -/
theorem stop_of_mem_tokens {d : Derivation} {start depth : Nat} {t : Token}
    (h : t ∈ d.tokens start depth) :
    start ≤ t.stop ∧ t.stop ≤ start + d.width := by
  induction d generalizing start depth with
  | leaf cs => cases h
  | action a =>
      obtain rfl := List.mem_singleton.1 h
      exact ⟨le_rfl, le_rfl⟩
  | append d e ihd ihe =>
      rw [width_append]
      rcases List.mem_append.1 h with h | h
      · have hd := ihd h
        omega
      · have he := ihe h
        omega
  | capture symbol d ih =>
      rcases List.mem_append.1 h with h | h
      · exact ih h
      · obtain rfl := List.mem_singleton.1 h
        exact ⟨Nat.le_add_right _ _, le_rfl⟩

/-- Tokens are emitted by where they end. -/
theorem pairwise_tokens (d : Derivation) (start depth : Nat) :
    (d.tokens start depth).Pairwise (·.stop ≤ ·.stop) := by
  induction d generalizing start depth with
  | leaf cs => exact .nil
  | action a => exact List.pairwise_singleton _ _
  | append d e ihd ihe =>
      refine List.pairwise_append.2 ⟨ihd _ _, ihe _ _, fun t ht u hu => ?_⟩
      exact (stop_of_mem_tokens ht).2.trans (stop_of_mem_tokens hu).1
  | capture symbol d ih =>
      refine List.pairwise_append.2 ⟨ih _ _, List.pairwise_singleton _ _, fun t ht u hu => ?_⟩
      obtain rfl := List.mem_singleton.1 hu
      exact (stop_of_mem_tokens ht).2

/-- The tokens of numbers span the texts of the numbers. -/
theorem map_slice_filter_tokens {source : Array Char} {d : Derivation} {start depth : Nat}
    {rest : List Char} (h : restFrom source start = d.chars ++ rest) :
    ((d.tokens start depth).filter (·.symbol = .rule .numeric)).map
      (fun t => slice source t.start t.stop) =
      d.numerals.map String.ofList := by
  induction d generalizing start depth rest with
  | leaf cs => rfl
  | action a => rfl
  | append d e ihd ihe =>
      rw [chars, List.append_assoc] at h
      have hrest : restFrom source (start + d.width) = e.chars ++ rest := restFrom_append h
      rw [tokens, List.filter_append, List.map_append, ihd h, ihe hrest, numerals, List.map_append]
  | capture symbol d ih =>
      have hbody : restFrom source start = d.chars ++ rest := h
      have hslice : slice source start (start + d.width) = String.ofList d.chars := slice_eq hbody
      rw [tokens, List.filter_append, List.map_append, ih hbody, numerals, List.map_append]
      by_cases hs : symbol = .rule .numeric
      · simp [hs, hslice]
      · simp [hs]

end Derivation

/-- The numbers of a recognised source are those of its derivation. -/
theorem map_textOf_numerals {cs : List Char} {d : Derivation} {rest : List Char}
    (h : cs = d.chars ++ rest) :
    (Recognized.mk cs.toArray (d.tokens 0 0)).numerals.map
      (Recognized.textOf ⟨cs.toArray, d.tokens 0 0⟩) = d.numerals.map String.ofList :=
  Derivation.map_slice_filter_tokens h

/-- What is recognised executes to a program unless an integer of the source does not fit in 64
bits. Then execution fails at the first such integer, and says on which side it does not fit. -/
theorem execute_recognized {config : Config} {source : String} {r : Recognized}
    (h : recognize config source = .ok r) :
    r.numerals.Pairwise (·.stop ≤ ·.stop) ∧
      match (r.numerals.map r.textOf).find? (isOutOfRange ·.toList) with
      | none => ∃ program, r.execute = .ok program
      | some text =>
        r.execute = .error (.invalidLiteral .numeric text (rangeFault text.toList)) := by
  obtain ⟨d, hd, rfl⟩ := recognize_eq_ok_iff.1 h
  have hmeans := (isOf_of_parses hd).means
  have htexts := map_textOf_numerals hd.eq_append
  have hfind : ((d.numerals.map String.ofList).find? fun text => isOutOfRange text.toList) =
      (d.numerals.find? isOutOfRange).map String.ofList := by
    rw [List.find?_map]
    congr 2
    exact funext fun text => by simp
  refine ⟨(d.pairwise_tokens 0 0).filter _, ?_⟩
  rw [execute_eq_program (by simpa using hd), htexts, hfind, Derivation.program]
  rcases hnone : d.numerals.find? isOutOfRange with _ | text
  · obtain ⟨parts, hparts, -⟩ := hmeans.ok hnone
    exact ⟨_, by rw [hparts]; rfl⟩
  · rw [hmeans.error text hnone]
    simp [rangeError, Except.map]

set_option maxRecDepth 100000 in
/-- Of two integers that do not fit the first is reported, and a decimal is not one. -/
theorem execute_recognized_list :
    ∃ r, recognize {} "a => { [3.5, 9223372036854775808, -9223372036854775809] }" = .ok r ∧
      r.execute = .error (.invalidLiteral .numeric "9223372036854775808" .tooLarge) := by
  obtain ⟨d, hd, hnumerals⟩ : ∃ d, Parses Peg.table (.call .source)
      "a => { [3.5, 9223372036854775808, -9223372036854775809] }".toList (some (d, [])) ∧
      d.numerals = ["3.5".toList, "9223372036854775808".toList, "-9223372036854775809".toList] :=
    exists_parses_of_run (n := 200) (by decide +kernel)
  have hr : recognize {} "a => { [3.5, 9223372036854775808, -9223372036854775809] }" = .ok _ :=
    recognize_eq_ok_iff.2 ⟨d, hd, rfl⟩
  have h := (execute_recognized hr).2
  rw [map_textOf_numerals hd.eq_append, hnumerals] at h
  refine ⟨_, hr, ?_⟩
  exact h

end RiftLang
