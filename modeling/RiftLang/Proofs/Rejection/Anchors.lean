import Mathlib.Data.List.Nodup
import Mathlib.Data.Option.Basic
import RiftLang.Proofs.Nesting.Reading
import RiftLang.Proofs.Rejection

/-!
# The anchors of a path

A frontier selects one span for each depth. On the path to a look the selection is right, though it
keeps earlier siblings out by comparing offsets alone.

* `eq_of_unfinishedAt?`, `of_completedAt?`, `of_scopeOf` — what each step of the selection gives.
* `Sight.unfinished`, `Sight.HasCompleted` — the span of an open rule, and a token that was recorded
  inside the nearest rule open above it. `IsSourcePath.hasCompleted` — comparing offsets finds no
  other tokens.
* `Sight.Reports` — what the spans reported for a look have to be, and
  `IsSourcePath.reports_anchors` — the anchors are.
-/

namespace RiftLang

namespace Frontier

variable {f : Frontier} {tokens : List Token} {depth scope : Nat} {t : Token}

/-! ## The steps of the selection -/

/-- The span of the rule that is open at a depth. -/
theorem of_unfinishedAt? (h : f.unfinishedAt? depth = some t) :
    ∃ o ∈ f.openRules, o.rule.isTrivia = false ∧ o.depth = depth ∧
      t = ⟨.rule o.rule, o.start, max f.offset o.start, depth⟩ := by
  obtain ⟨o, ho, rfl⟩ := Option.map_eq_some_iff.1 h
  obtain ⟨hmem, htrivia⟩ := List.mem_filter.1 (List.mem_of_find?_eq_some ho)
  exact ⟨o, hmem, by simpa using htrivia, by simpa using List.find?_some ho, rfl⟩

/-- A completed token is of a rule that is not trivia, and does not begin before the scope. -/
theorem of_completedAt? (h : completedAt? (Layers.ofTokens tokens) depth scope = some t) :
    t ∈ tokens ∧ t.depth = depth ∧ scope ≤ t.start ∧ ∃ r, t.symbol = .rule r ∧
      r.isTrivia = false := by
  obtain ⟨u, hu, hselect⟩ := List.exists_of_findSome?_eq_some h
  rw [List.mem_reverse, Layers.layer_ofTokens] at hu
  obtain ⟨hmem, hdepth⟩ := List.mem_filter.1 hu
  split_ifs at hselect with hcond
  cases hselect
  obtain ⟨hscope, hrule⟩ := Bool.and_eq_true_iff.1 hcond
  refine ⟨mem_of_mem_indexedFrom hmem, by simpa using hdepth, by simpa using hscope, ?_⟩
  obtain ⟨r, hr, htrivia⟩ := (Option.any_eq_true ..).1 hrule
  refine ⟨r, ?_, by simpa using htrivia⟩
  cases hsymbol : u.symbol with
  | rule r' => simpa [hsymbol, Symbol.rule?] using hr
  | text | action _ => simp [hsymbol, Symbol.rule?] at hr

/-- The scope of a depth is the start of the innermost open rule above it. -/
theorem of_scopeOf (hnested : f.openRules.Pairwise fun o o' =>
    o.start ≤ o'.start ∧ o.depth < o'.depth) {o₀ : OpenRule}
    (ho₀ : o₀ ∈ f.openRules) (hdepth : o₀.depth < depth) :
    ∃ o ∈ f.openRules, o.depth < depth ∧
      (∀ o' ∈ f.openRules, o'.depth < depth → o'.depth ≤ o.depth) ∧
      f.scopeOf depth = o.start := by
  rcases hfind : f.openRules.reverse.find? (·.depth < depth) with _ | o
  · have hnone := List.find?_eq_none.1 hfind o₀ (List.mem_reverse.2 ho₀)
    simp [hdepth] at hnone
  · obtain ⟨hlt, before, after, hsplit, hbefore⟩ := List.find?_eq_some_iff_append.1 hfind
    have hmem : o ∈ f.openRules := List.mem_reverse.1 (List.mem_of_find?_eq_some hfind)
    refine ⟨o, hmem, by simpa using hlt, fun o' ho' hlt' => ?_, by simp [scopeOf, hfind]⟩
    -- of the open rules, those inside `o` are too deep, so `o'` is `o` or around it
    have hreverse : (before ++ o :: after).Pairwise fun o o' => o'.depth < o.depth := by
      rw [← hsplit, List.pairwise_reverse]
      exact hnested.imp fun h => h.2
    have ho'' : o' ∈ before ++ o :: after := hsplit ▸ List.mem_reverse.2 ho'
    rcases List.mem_append.1 ho'' with hin | hin
    · have hno := hbefore o' hin
      simp [hlt'] at hno
    · rcases List.mem_cons.1 hin with rfl | hin
      · exact Nat.le_refl _
      · exact ((List.pairwise_cons.1 (List.pairwise_append.1 hreverse).2.1).1 o' hin).le

end Frontier

/-- What begins in an open rule and spans text was recorded inside the rule. -/
theorem OpenRule.Divides.mem_inside {o : OpenRule} {tokens : List Token} {n : Nat} {t : Token}
    (h : o.Divides tokens n) (ht : t ∈ tokens) (hstart : o.start ≤ t.start)
    (hwide : t.start < t.stop) :
    t ∈ tokens.drop n ∧ o.depth < t.depth := by
  obtain ⟨before, inside, rfl, rfl, hbefore, hinside⟩ := h
  rw [List.drop_left' rfl]
  rcases List.mem_append.1 ht with ht | ht
  · have hstop := hbefore t ht
    omega
  · exact ⟨ht, (hinside t ht).2⟩

/-! ## What has to be reported -/

namespace Sight

/-- The span of an open rule, up to the offset looked at. -/
def unfinished (s : Sight) (o : OpenRule) : Token :=
  ⟨.rule o.rule, o.start, s.offset, o.depth⟩

/-- The token was recorded inside the nearest rule that is open above its depth. -/
def HasCompleted (s : Sight) (t : Token) : Prop :=
  ∃ o n, (o, n) ∈ s.openRules.zip s.entries ∧ o.depth < t.depth ∧
    (∀ o' ∈ s.openRules, o'.depth < t.depth → o'.depth ≤ o.depth) ∧ t ∈ s.tokens.drop n

/-- What is reported for a look: spans of rules, deepest first. -/
structure Reports (s : Sight) (spans : List Token) : Prop where
  /-- The deepest comes first, and there are no two of one depth. -/
  depths_decrease : spans.Pairwise fun t t' => t'.depth < t.depth
  /-- All spans are of rules that are not trivia. -/
  nonTrivia : ∀ t ∈ spans, ∃ r, t.symbol = .rule r ∧ r.isTrivia = false
  /-- No span is reversed or ends past the offset looked at. -/
  spans_le : ∀ t ∈ spans, t.start ≤ t.stop ∧ t.stop ≤ s.offset
  /-- First comes the deepest open rule that is not trivia. -/
  head_eq : ∃ o ∈ s.openRules, o.rule.isTrivia = false ∧
    (∀ o' ∈ s.openRules, o'.rule.isTrivia = false → o'.depth ≤ o.depth) ∧
    spans.head? = some (s.unfinished o)
  /-- Last comes the rule for sources. -/
  getLast_eq : spans.getLast? = some ⟨.rule .source, 0, s.offset, 0⟩
  /-- There is one span for each depth with an open rule that is not trivia. -/
  count_eq_one : ∀ o ∈ s.openRules, o.rule.isTrivia = false →
    (spans.map (·.depth)).count o.depth = 1
  /-- Below the first, spans are of open rules or of rules completed inside them. -/
  tail : ∀ t ∈ spans.tail, (∃ o ∈ s.openRules, t = s.unfinished o) ∨ s.HasCompleted t

namespace IsSourcePath

variable {s : Sight} {length depth : Nat} {t : Token}

/-- An open rule that is not trivia is the one found at its depth. -/
theorem unfinishedAt?_eq (h : s.IsSourcePath length) {o : OpenRule} (ho : o ∈ s.openRules)
    (htrivia : o.rule.isTrivia = false) : s.unfinishedAt? o.depth = some (s.unfinished o) := by
  have hsome : (s.unfinishedAt? o.depth).isSome := by
    unfold Frontier.unfinishedAt?
    rw [Option.isSome_map, List.find?_isSome]
    exact ⟨o, List.mem_filter.2 ⟨ho, by simp [htrivia]⟩, by simp⟩
  obtain ⟨t, ht⟩ := Option.isSome_iff_exists.1 hsome
  obtain ⟨o', ho', -, hdepth, rfl⟩ := Frontier.of_unfinishedAt? ht
  -- depths increase strictly, so no other rule is open there
  have hdistinct : (s.openRules.map (·.depth)).Nodup :=
    List.pairwise_map.2 (h.nested.imp fun h => h.2.ne)
  obtain rfl : o' = o := List.inj_on_of_nodup_map hdistinct ho' ho hdepth
  rw [ht, unfinished, Nat.max_eq_left (h.start_le o' ho)]

/-- The rule of the source is open on the path to every look. -/
theorem source_mem (h : s.IsSourcePath length) : (⟨.source, 0, 0⟩ : OpenRule) ∈ s.openRules :=
  List.mem_of_head? h.head_eq

/-- Every open rule was entered after so many tokens. -/
theorem exists_divides (h : s.IsSourcePath length) {o : OpenRule} (ho : o ∈ s.openRules) :
    ∃ n, (o, n) ∈ s.openRules.zip s.entries ∧ o.Divides s.tokens n := by
  obtain ⟨hlength, hzip⟩ := List.forall₂_iff_zip.1 h.entered
  obtain ⟨i, hi, rfl⟩ := List.mem_iff_getElem.1 ho
  have hmem : (s.openRules[i], s.entries.get ⟨i, hlength ▸ hi⟩) ∈ s.openRules.zip s.entries :=
    List.mem_iff_getElem.2 ⟨i, by simpa [← hlength] using hi, by simp⟩
  exact ⟨_, hmem, hzip hmem⟩

/-- A token that is selected as completed was recorded inside the nearest rule open above it. -/
theorem hasCompleted (h : s.IsSourcePath length)
    (ht : Frontier.completedAt? (Layers.ofTokens s.tokens) depth (s.scopeOf depth) = some t) :
    0 < depth ∧ s.HasCompleted t := by
  obtain ⟨hmem, rfl, hscope, r, hr, htrivia⟩ := Frontier.of_completedAt? ht
  have hwide := h.wide t hmem r hr htrivia
  -- every token is inside the rule for sources, so none has depth zero
  have hpos : 0 < t.depth := by
    obtain ⟨n, -, hdivides⟩ := h.exists_divides h.source_mem
    exact (hdivides.mem_inside hmem (Nat.zero_le _) hwide).2
  obtain ⟨o, ho, hlt, hnearest, hstart⟩ := Frontier.of_scopeOf h.nested h.source_mem hpos
  obtain ⟨n, hzip, hdivides⟩ := h.exists_divides ho
  rw [hstart] at hscope
  exact ⟨hpos, o, n, hzip, hlt, hnearest, (hdivides.mem_inside hmem hscope hwide).1⟩

/-- The anchor of a depth is the open rule of that depth, or was completed above it. -/
theorem of_anchorAt? (h : s.IsSourcePath length) {deepest : Nat}
    (ht : s.anchorAt? (Layers.ofTokens s.tokens) deepest depth = some t) :
    t.depth = depth ∧ t.start ≤ t.stop ∧ t.stop ≤ s.offset ∧
    (∃ r, t.symbol = .rule r ∧ r.isTrivia = false) ∧
      ((∃ o ∈ s.openRules, t = s.unfinished o) ∨ s.HasCompleted t) := by
  have hcases : s.unfinishedAt? depth = some t ∨
      Frontier.completedAt? (Layers.ofTokens s.tokens) depth (s.scopeOf depth) = some t := by
    unfold Frontier.anchorAt? at ht
    dsimp only at ht
    split_ifs at ht
    · exact ((Option.orElse_eq_some ..).1 ht).imp id And.right
    · exact (((Option.orElse_eq_some ..).1 ht).imp id And.right).symm
  rcases hcases with ht | ht
  · obtain ⟨o, ho, htrivia, rfl, -⟩ := Frontier.of_unfinishedAt? ht
    rw [h.unfinishedAt?_eq ho htrivia] at ht
    cases ht
    exact ⟨rfl, h.start_le o ho, Nat.le_refl _, ⟨o.rule, rfl, htrivia⟩, .inl ⟨o, ho, rfl⟩⟩
  · obtain ⟨hmem, hdepth, -, hrule⟩ := Frontier.of_completedAt? ht
    obtain ⟨hspan, hstop⟩ := h.spans t hmem
    exact ⟨hdepth, hspan, hstop, hrule, .inr (h.hasCompleted ht).2⟩

/-! ### All anchors -/

/-- An open rule that is not trivia is the deepest. -/
theorem exists_deepest (h : s.IsSourcePath length) (layers : Layers) :
    ∃ o ∈ s.openRules, o.rule.isTrivia = false ∧
      (∀ o' ∈ s.openRules, o'.rule.isTrivia = false → o'.depth ≤ o.depth) ∧
      s.deepest? layers = some o.depth := by
  have hsource : (⟨.source, 0, 0⟩ : OpenRule) ∈ s.openNonTrivia :=
    List.mem_filter.2 ⟨h.source_mem, rfl⟩
  have hne : s.openNonTrivia ≠ [] := List.ne_nil_of_mem hsource
  have hlast := List.dropLast_append_getLast hne
  obtain ⟨hmem, htrivia⟩ := List.mem_filter.1 (List.getLast_mem hne)
  refine ⟨s.openNonTrivia.getLast hne, hmem, by simpa using htrivia, fun o' ho' htrivia' => ?_, ?_⟩
  · have hnested : s.openNonTrivia.Pairwise fun o o' => o.depth < o'.depth :=
      (h.nested.imp fun h => h.2).sublist List.filter_sublist
    have ho'' : o' ∈ s.openNonTrivia := List.mem_filter.2 ⟨ho', by simp [htrivia']⟩
    rw [← hlast] at hnested ho''
    rcases List.mem_append.1 ho'' with hin | hin
    · exact ((List.pairwise_append.1 hnested).2.2 o' hin _ List.mem_cons_self).le
    · exact (congrArg OpenRule.depth (List.mem_singleton.1 hin)).le
  · unfold Frontier.deepest?
    rw [List.getLast?_eq_some_getLast hne]

/-- A depth with an open rule that is not trivia has an anchor. -/
theorem isSome_anchorAt? (h : s.IsSourcePath length) {o : OpenRule} (ho : o ∈ s.openRules)
    (htrivia : o.rule.isTrivia = false) (layers : Layers) (deepest : Nat) :
    (s.anchorAt? layers deepest o.depth).isSome := by
  unfold Frontier.anchorAt?
  dsimp only
  rw [h.unfinishedAt?_eq ho htrivia]
  split_ifs
  · rfl
  · cases Frontier.completedAt? layers o.depth (s.scopeOf o.depth) <;> rfl

/-- The anchor of the first depth is its open rule. -/
theorem anchorAt?_deepest (h : s.IsSourcePath length) {o : OpenRule} (ho : o ∈ s.openRules)
    (htrivia : o.rule.isTrivia = false) (layers : Layers) :
    s.anchorAt? layers o.depth o.depth = some (s.unfinished o) := by
  unfold Frontier.anchorAt?
  dsimp only
  rw [if_pos rfl, h.unfinishedAt?_eq ho htrivia]
  rfl

/-- The anchor of depth zero is the rule for sources: nothing is completed outside of it. -/
theorem anchorAt?_zero (h : s.IsSourcePath length) (deepest : Nat) :
    s.anchorAt? (Layers.ofTokens s.tokens) deepest 0 = some ⟨.rule .source, 0, s.offset, 0⟩ := by
  have hunfinished : s.unfinishedAt? 0 = some ⟨.rule .source, 0, s.offset, 0⟩ :=
    h.unfinishedAt?_eq h.source_mem rfl
  have hcompleted : Frontier.completedAt? (Layers.ofTokens s.tokens) 0 (s.scopeOf 0) = none := by
    by_contra hne
    obtain ⟨t, ht⟩ := Option.ne_none_iff_exists'.1 hne
    exact absurd (h.hasCompleted ht).1 (lt_irrefl 0)
  unfold Frontier.anchorAt?
  dsimp only
  rw [hunfinished, hcompleted]
  split_ifs <;> rfl

/-- The anchors are what has to be reported. -/
theorem reports_anchors (h : s.IsSourcePath length) : s.Reports s.anchors := by
  obtain ⟨o, ho, htrivia, hmax, hdeepest⟩ := h.exists_deepest (Layers.ofTokens s.tokens)
  have hanchors : s.anchors =
      (List.range (o.depth + 1)).reverse.filterMap
        (s.anchorAt? (Layers.ofTokens s.tokens) o.depth) := by
    unfold Frontier.anchors
    dsimp only
    rw [hdeepest]
  have hof : ∀ t ∈ s.anchors, ∃ depth, s.anchorAt? (Layers.ofTokens s.tokens) o.depth depth =
      some t := by
    intro t ht
    rw [hanchors] at ht
    obtain ⟨depth, -, ht⟩ := List.mem_filterMap.1 ht
    exact ⟨depth, ht⟩
  have hdecrease : s.anchors.Pairwise fun t t' => t'.depth < t.depth := by
    rw [hanchors, List.pairwise_filterMap, List.pairwise_reverse]
    refine List.pairwise_lt_range.imp fun hlt t ht t' ht' => ?_
    rw [(h.of_anchorAt? ht).1, (h.of_anchorAt? ht').1]
    exact hlt
  refine ⟨hdecrease, fun t ht => ?_, fun t ht => ?_, ⟨o, ho, htrivia, hmax, ?_⟩, ?_,
    fun o' ho' htrivia' => ?_,
    fun t ht => ?_⟩
  · obtain ⟨depth, ht⟩ := hof t ht
    exact (h.of_anchorAt? ht).2.2.2.1
  · obtain ⟨depth, ht⟩ := hof t ht
    exact ⟨(h.of_anchorAt? ht).2.1, (h.of_anchorAt? ht).2.2.1⟩
  · rw [hanchors, List.range_succ, List.reverse_append, List.reverse_singleton,
      List.singleton_append, List.filterMap_cons_some (h.anchorAt?_deepest ho htrivia _)]
    rfl
  · rw [hanchors, List.range_succ_eq_map, List.reverse_cons, List.filterMap_append,
      List.filterMap_cons_some (h.anchorAt?_zero _)]
    simp
  · -- depths decrease strictly, so no depth comes twice
    have hnodup : (s.anchors.map (·.depth)).Nodup :=
      List.pairwise_map.2 (hdecrease.imp fun h => h.ne')
    refine List.count_eq_one_of_mem hnodup ?_
    obtain ⟨t, ht⟩ :=
      Option.isSome_iff_exists.1 (h.isSome_anchorAt? ho' htrivia' (Layers.ofTokens s.tokens)
        o.depth)
    have hrange : o'.depth ∈ (List.range (o.depth + 1)).reverse := by
      have hle := hmax o' ho' htrivia'
      simp only [List.mem_reverse, List.mem_range]
      omega
    have hmem : t ∈ s.anchors := hanchors ▸ List.mem_filterMap.2 ⟨_, hrange, ht⟩
    exact List.mem_map.2 ⟨t, hmem, (h.of_anchorAt? ht).1⟩
  · obtain ⟨depth, ht⟩ := hof t (List.mem_of_mem_tail ht)
    exact (h.of_anchorAt? ht).2.2.2.2

end IsSourcePath

end Sight

end RiftLang
