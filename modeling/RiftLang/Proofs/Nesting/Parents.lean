import RiftLang.Proofs.Cursor.Forest
import RiftLang.Proofs.Nesting.Adoption
import RiftLang.Proofs.Nesting.Arena
import RiftLang.Proofs.Peg.Run

/-!
# Parents are captures

Which node of the table is the parent of which, for the tokens of a recognised source. The table is
filled by spans, but what it finds is the capture that was open.

* `Derivation.recordings` — the tokens of a derivation, each with the captures that are open when it
  is recorded.
* `perm_withParents` — the parents in the trees of a derivation are the innermost of these captures.
* `firstAround?`, `firstAbove?` — the first later token around another, by spans and by depths.
* `Separates` — what the two tests have in common. `find?_of_mem_recordings` — so both find the
  innermost capture.
* `Arena.IsParent` — parenthood in a table. `NestsAsRecorded` — every token that has width has a
  node, and parenthood is all of these.
* `parent_is_innermost_capture` — so it is for the tokens of a recognised source.
-/

namespace RiftLang

open RiftLang.Tree

/-! ## Open captures -/

namespace Derivation

/-- The tokens of a derivation in emission order, each with the tokens of the captures that are open
when it is recorded, innermost first. Around the derivation, those of `around` are open. A capture
is left before its own token is recorded. -/
def recordings : Derivation → (start depth first : Nat) → (around : List IndexedToken) →
    List (IndexedToken × List IndexedToken)
  | leaf _, _, _, _, _ => []
  | action a, start, depth, first, around => [(⟨⟨.action a, start, start, depth⟩, first⟩, around)]
  | append d e, start, depth, first, around =>
    d.recordings start depth first around ++ e.recordings (start + d.width)
      depth (first + d.count) around
  | capture symbol body, start, depth, first, around =>
    let t := captureToken symbol body start depth first
    body.recordings start (depth + 1) first (t :: around) ++ [(t, around)]

variable {start depth first : Nat} {around around' : List IndexedToken} {t : IndexedToken}

/-- The recorded tokens, without what is open around them, are the tokens of the derivation with
their places. -/
theorem map_fst_recordings (d : Derivation) (start depth first : Nat) (around : List IndexedToken) :
    (d.recordings start depth first around).map Prod.fst = d.stamped start depth first := by
  induction d generalizing start depth first around with
  | leaf _ | action _ => rfl
  | append d e ihd ihe => rw [recordings, List.map_append, ihd, ihe, stamped_append]
  | capture s d ih =>
      rw [recordings, List.map_append, ih, stamped_capture]
      rfl

/-- A recorded token is one of the derivation. -/
theorem mem_stamped_of_mem_recordings {d : Derivation}
    (h : (t, around') ∈ d.recordings start depth first around) :
    t ∈ d.stamped start depth first := by
  rw [← map_fst_recordings d start depth first around]
  exact List.mem_map_of_mem (f := Prod.fst) h

/-- As many captures are open as the depth of the token says. -/
theorem length_of_mem_recordings {d : Derivation} (haround : around.length = depth)
    (h : (t, around') ∈ d.recordings start depth first around) : around'.length = t.depth := by
  induction d generalizing start depth first around with
  | leaf _ => cases h
  | action _ =>
      obtain ⟨rfl, rfl⟩ := Prod.mk.inj (List.mem_singleton.1 h)
      exact haround
  | append d e ihd ihe =>
      rcases List.mem_append.1 h with h | h
      · exact ihd haround h
      · exact ihe haround h
  | capture s d ih =>
      rcases List.mem_append.1 h with h | h
      · exact ih (by rw [List.length_cons, haround]) h
      · obtain ⟨rfl, rfl⟩ := Prod.mk.inj (List.mem_singleton.1 h)
        exact haround

/-- The captures that are open are rules and texts, and their tokens are recorded as well. -/
theorem capture_of_mem_recordings {d : Derivation} (hd : d.IsPlain)
    (h : (t, around') ∈ d.recordings start depth first around) :
    ∀ p ∈ around', p ∈ around ∨ p ∈ d.stamped start depth first ∧ p.symbol.isAction = false := by
  induction d generalizing start depth first around with
  | leaf _ => cases h
  | action _ =>
      obtain ⟨-, rfl⟩ := Prod.mk.inj (List.mem_singleton.1 h)
      exact fun p hp => Or.inl hp
  | append d e ihd ihe =>
      rw [stamped_append]
      intro p hp
      rcases List.mem_append.1 h with h | h
      · exact (ihd hd.1 h p hp).imp_right (And.imp_left (List.mem_append_left _))
      · exact (ihe hd.2 h p hp).imp_right (And.imp_left (List.mem_append_right _))
  | capture s d ih =>
      rw [stamped_capture]
      intro p hp
      rcases List.mem_append.1 h with h | h
      · rcases ih hd.2 h p hp with hmem | ⟨hmem, hp⟩
        · rcases List.mem_cons.1 hmem with rfl | hmem
          · exact Or.inr ⟨List.mem_append_right _ List.mem_cons_self, hd.1⟩
          · exact Or.inl hmem
        · exact Or.inr ⟨List.mem_append_left _ hmem, hp⟩
      · obtain ⟨-, rfl⟩ := Prod.mk.inj (List.mem_singleton.1 h)
        exact Or.inl hp

/-! ## Parents in the trees -/

/-- A recorded token with the token of the innermost capture that is open. -/
def innermost (recording : IndexedToken × List IndexedToken) : Option IndexedToken × IndexedToken :=
  (recording.2.head?, recording.1)

/-- Is the recorded token one that has width? -/
def hasWidth (recording : IndexedToken × List IndexedToken) : Bool :=
  !recording.1.isEmpty

/-- Without width, nothing that has width is recorded. -/
theorem filter_recordings_of_width {d : Derivation} (h : d.width = 0) :
    (d.recordings start depth first around).filter hasWidth = [] := by
  have hnone : (d.stamped start depth first).filter (!·.isEmpty) = [] :=
    filter_stamped_eq_nil_of_width h
  rw [← map_fst_recordings d start depth first around, List.filter_map] at hnone
  exact List.map_eq_nil_iff.1 hnone

/-- What has a parent in the trees of a derivation has it in the innermost capture that is open. -/
theorem perm_withParents (d : Derivation) (start depth first : Nat) (around : List IndexedToken) :
    (((d.recordings start depth first around).filter hasWidth).map innermost).Perm
      ((allWithParents around.head? (d.trees start depth first)).map fun e =>
        (e.1, e.2.label)) := by
  induction d generalizing start depth first around with
  | leaf _ => exact .nil
  | action a =>
      rw [filter_recordings_of_width rfl]
      exact .nil
  | append d e ihd ihe =>
      rw [recordings, trees, allWithParents_append, List.filter_append, List.map_append,
        List.map_append]
      exact (ihd ..).append (ihe ..)
  | capture s d ih =>
      by_cases hw : d.width = 0
      · rw [filter_recordings_of_width (d := capture s d) hw, trees, if_pos hw]
        exact .nil
      · have hwidth : [(captureToken s d start depth first, around)].filter hasWidth =
            [(captureToken s d start depth first, around)] := by
          simp [hasWidth, Token.isEmpty, captureToken, hw]
        have hbody := ih start (depth + 1) first (captureToken s d start depth first :: around)
        rw [recordings, trees, if_neg hw, allWithParents, allWithParents, List.append_nil,
          withParents, List.filter_append, hwidth, List.map_append]
        exact List.perm_append_comm.trans (hbody.cons _)

end Derivation

/-! ## The first token around another -/

/-- The first token that was emitted after `b`, has width and spans what `b` spans. -/
def firstAround? (tokens : List Token) (b : IndexedToken) : Option IndexedToken :=
  (indexed tokens).find? fun t =>
    decide (b.index < t.index) && !t.isEmpty && t.toToken.contains b.toToken

/-- The first token that was emitted after `b` and is less deep. -/
def firstAbove? (tokens : List Token) (b : IndexedToken) : Option IndexedToken :=
  (indexed tokens).find? fun t => decide (b.index < t.index) && decide (t.depth < b.depth)

/-- A test of one token for another that has width. A capture passes it for what is recorded in it.
What comes before does not pass it, and neither does what is recorded beside it in the same
captures. -/
structure Separates (test : IndexedToken → IndexedToken → Bool) : Prop where
  /-- A capture passes for what is recorded inside it. -/
  capture : ∀ {s : Symbol} {d : Derivation} {start depth first : Nat} {b : IndexedToken},
    b.isEmpty = false →
    b ∈ d.stamped start (depth + 1) first →
    test b (Derivation.captureToken s d start depth first) = true
  /-- Nothing passes that was emitted no later. -/
  before : ∀ {b t : IndexedToken}, t.index ≤ b.index → test b t = false
  /-- Nothing passes that is recorded later inside the same captures. -/
  beside : ∀ {d e : Derivation} {start depth first : Nat} {b t : IndexedToken}, b.isEmpty = false →
    b.depth = depth →
    b ∈ d.stamped start depth first → t ∈ e.stamped (start + d.width) depth (first + d.count) →
    test b t = false

/-- Spanning a token and having been emitted after it separates captures: only what is recorded in a
capture is spanned by its token. -/
theorem separates_around :
    Separates fun b t =>
      decide (b.index < t.index) && !t.isEmpty && t.toToken.contains b.toToken where
  capture {s d start depth first b} hb hmem := by
    have hbounds := Derivation.bounds_of_mem_stamped hmem
    have hwidth : 0 < d.width := by
      have hne : b.start ≠ b.stop := by simpa [Token.isEmpty] using hb
      have hlow := hbounds.start_le
      have hspan := hbounds.le_stop
      have hhigh := hbounds.stop_le
      omega
    simp [Token.isEmpty, Token.contains, Derivation.captureToken, hbounds.index_lt,
      hbounds.start_le, hbounds.stop_le, hwidth.ne']
  before h := by rw [decide_eq_false (Nat.not_lt.2 h), Bool.false_and, Bool.false_and]
  beside {d e start depth first b t} hb _ hmem hmem' := by
    -- what is recorded later in the same captures begins where the token has ended
    have hbounds := Derivation.bounds_of_mem_stamped hmem
    have hne : b.start ≠ b.stop := by simpa [Token.isEmpty] using hb
    have hspan := hbounds.le_stop
    have hstop := hbounds.stop_le
    have hstart := (Derivation.bounds_of_mem_stamped hmem').start_le
    have houtside : ¬ t.start ≤ b.start := by omega
    simp [Token.contains, houtside]

/-- So does being less deep and having been emitted after it. -/
theorem separates_above : Separates fun b t =>
    decide (b.index < t.index) && decide (t.depth < b.depth) where
  capture _ hmem := by
    have hbounds := Derivation.bounds_of_mem_stamped hmem
    exact Bool.and_eq_true_iff.2 ⟨decide_eq_true hbounds.index_lt, decide_eq_true hbounds.depth_le⟩
  before h := by rw [decide_eq_false (Nat.not_lt.2 h), Bool.false_and]
  beside _ hdepth _ hmem' := by
    have hle := hdepth.trans_le (Derivation.bounds_of_mem_stamped hmem').depth_le
    rw [decide_eq_false (Nat.not_lt.2 hle), Bool.and_false]

/-- The first token of a derivation that passes the test is that of the innermost capture of the
derivation in which the other was recorded. -/
theorem find?_of_mem_recordings {test : IndexedToken → IndexedToken → Bool} (htest : Separates test)
    {d : Derivation} {start depth first : Nat} {around around' : List IndexedToken}
    {b : IndexedToken} (haround : around.length = depth) (hb : b.isEmpty = false)
    (h : (b, around') ∈ d.recordings start depth first around) :
    ∃ inner, around' = inner ++ around ∧
      (d.stamped start depth first).find? (test b) = inner.head? := by
  have hbefore : ∀ tokens : List IndexedToken, (∀ t ∈ tokens, t.index ≤ b.index) →
      tokens.find? (test b) = none :=
    fun tokens hle => List.find?_eq_none.2 fun t ht => by simp [htest.before (hle t ht)]
  induction d generalizing start depth first around with
  | leaf _ => cases h
  | action a =>
      obtain ⟨rfl, rfl⟩ := Prod.mk.inj (List.mem_singleton.1 h)
      simp [Token.isEmpty] at hb
  | append d e ihd ihe =>
      rw [Derivation.stamped_append, List.find?_append]
      rcases List.mem_append.1 h with h | h
      · obtain ⟨inner, rfl, hfind⟩ := ihd haround h
        refine ⟨inner, rfl, ?_⟩
        cases inner with
        | nil =>
          -- in no capture of the first part, and so in none of the second
          have hdepth : b.depth = depth :=
            (Derivation.length_of_mem_recordings haround h).symm.trans haround
          have hbeside : (e.stamped (start + d.width) depth (first + d.count)).find? (test b) =
              none :=
            List.find?_eq_none.2 fun t ht => by
              simp [htest.beside hb hdepth (Derivation.mem_stamped_of_mem_recordings h) ht]
          rw [hfind, hbeside]
          rfl
        | cons p inner =>
          rw [hfind]
          rfl
      · obtain ⟨inner, rfl, hfind⟩ := ihe haround h
        refine ⟨inner, rfl, ?_⟩
        have hfirst :=
          (Derivation.bounds_of_mem_stamped (Derivation.mem_stamped_of_mem_recordings h)).first_le
        rw [hbefore _ fun t ht => (Derivation.bounds_of_mem_stamped ht).index_lt.le.trans hfirst,
          hfind]
        rfl
  | capture s d ih =>
      rw [Derivation.stamped_capture, List.find?_append]
      rcases List.mem_append.1 h with h | h
      · obtain ⟨inner, rfl, hfind⟩ := ih (by rw [List.length_cons, haround]) h
        refine ⟨inner ++ [Derivation.captureToken s d start depth first], by simp, ?_⟩
        rw [hfind, List.head?_append, List.find?_singleton,
          htest.capture hb (Derivation.mem_stamped_of_mem_recordings h)]
        rfl
      · obtain ⟨rfl, rfl⟩ := Prod.mk.inj (List.mem_singleton.1 h)
        refine ⟨[], rfl, ?_⟩
        rw [hbefore _ fun t ht => ?_, hbefore _ fun t ht => ?_]
        · rfl
        · exact (congrArg IndexedToken.index (List.mem_singleton.1 ht)).le
        · exact (Derivation.bounds_of_mem_stamped ht).index_lt.le

/-! ## Parents in the table -/

namespace Tree

variable {α β : Type}

mutual

/-- Relabelling a tree relabels the parents in the list of its subtrees as well. -/
theorem withParents_map (f : α → β) (parent? : Option α) (t : Tree α) :
    (t.map f).withParents (parent?.map f) =
      (t.withParents parent?).map (Prod.map (Option.map f) (Tree.map f)) := by
  cases t with
  | node a ts =>
    rw [map, withParents, withParents, List.map_cons, ← allWithParents_mapAll f (some a) ts]
    rfl

/-- Other labels do not change which tree is the parent of which. -/
theorem allWithParents_mapAll (f : α → β) (parent? : Option α) (ts : List (Tree α)) :
    allWithParents (parent?.map f) (mapAll f ts) =
      (allWithParents parent? ts).map (Prod.map (Option.map f) (Tree.map f)) := by
  cases ts with
  | nil => rfl
  | cons t ts =>
    rw [mapAll, allWithParents, allWithParents, List.map_append, withParents_map f parent? t,
      allWithParents_mapAll f parent? ts]

end

end Tree

namespace Arena

/-- The node is one of the children of the other. -/
def IsParent (a : Arena) (parent child : Nat) : Prop :=
  ∃ row, a.children parent = some row ∧ child ∈ row

variable {tokens : List Token} {i j : Nat} {a b : IndexedToken}

/-- Nodes with the same token are the same, since a token carries its place. -/
theorem eq_of_token?_eq (hi : (ofTokens tokens).token? i = some a)
    (hj : (ofTokens tokens).token? j = some a) :
    i = j := by
  have hnodes := (holds_ofTokens tokens).2.2.2
  rcases Nat.lt_trichotomy i j with h | h | h
  · exact absurd (index_lt_of_lt hnodes hi hj h) (Nat.lt_irrefl _)
  · exact h
  · exact absurd (index_lt_of_lt hnodes hj hi h) (Nat.lt_irrefl _)

/-- A node is the parent of another if its token is that of the parent in the forest. -/
theorem isParent_iff_mem (hi : (ofTokens tokens).token? i = some a)
    (hj : (ofTokens tokens).token? j = some b) :
    (ofTokens tokens).IsParent i j ↔
      (some a, b) ∈
        (allWithParents none ((Forest.ofTokens tokens).map (Tree.map SpanNode.token))).map
        fun e => (e.1, e.2.label) := by
  obtain ⟨-, hholds, -, -⟩ := holds_ofTokens tokens
  have hparents :
      ((allWithParents none ((Forest.ofTokens tokens).map (Tree.map SpanNode.token))).map
      fun e => (e.1, e.2.label)) =
        (allWithParents none (Forest.ofTokens tokens)).map fun e =>
          (e.1.map SpanNode.token, e.2.label.token) := by
    have hmap : allWithParents none (mapAll SpanNode.token (Forest.ofTokens tokens)) = _ :=
      allWithParents_mapAll SpanNode.token none (Forest.ofTokens tokens)
    rw [← mapAll_eq, hmap, List.map_map]
    exact List.map_congr_left fun e _ => Prod.ext rfl (label_map _ _)
  rw [hparents]
  constructor
  · rintro ⟨row, hrow, hmem⟩
    have hsize : i < (ofTokens tokens).nodes.size := by
      by_contra hge
      rw [token?, Array.getElem?_eq_none (Nat.not_lt.1 hge)] at hi
      cases hi
    obtain ⟨p, hp, rfl⟩ := hholds.exists_of_lt hsize
    rw [hholds.children_eq hp] at hrow
    obtain rfl := Option.some.inj hrow
    obtain ⟨c, hc, rfl⟩ := List.mem_map.1 hmem
    rw [hholds.token?_eq hp] at hi
    rw [hholds.token?_eq (mem_allParts_of_child hp hc)] at hj
    refine List.mem_map.2 ⟨(some p.label, c), mem_allWithParents_of_child none hp hc, ?_⟩
    exact Prod.ext hi (Option.some.inj hj)
  · intro hmem
    obtain ⟨⟨x, c⟩, hc, heq⟩ := List.mem_map.1 hmem
    obtain ⟨hx, hlabel⟩ := Prod.mk.inj heq
    rcases exists_of_mem_allWithParents hc with ⟨rfl, -⟩ | ⟨p, hp, rfl, hchild⟩
    · cases hx
    · obtain rfl := eq_of_token?_eq hi ((hholds.token?_eq hp).trans hx)
      obtain rfl := eq_of_token?_eq hj
        ((hholds.token?_eq (mem_allParts_of_child hp hchild)).trans (congrArg some hlabel))
      exact ⟨_, hholds.children_eq hp, List.mem_map_of_mem hchild⟩

/-- Every token of the list that has width has a node. -/
theorem exists_token?_of_mem (hb : b ∈ indexed tokens) (hwidth : b.isEmpty = false) :
    ∃ i, (ofTokens tokens).token? i = some b := by
  have hmem : b ∈ (ofTokens tokens).nodes.toList.map (·.token) := by
    rw [(holds_ofTokens tokens).2.2.2]
    exact List.mem_filter.2 ⟨hb, by rw [hwidth]; rfl⟩
  obtain ⟨i, hi⟩ := List.mem_iff_getElem?.1 hmem
  rw [List.getElem?_map, Array.getElem?_toList] at hi
  exact ⟨i, hi⟩

/-- The token of a node has width, and is one of the list. -/
theorem mem_indexed_of_token? (hi : (ofTokens tokens).token? i = some a) :
    a ∈ indexed tokens ∧ a.isEmpty = false := by
  have hmem : a ∈ (ofTokens tokens).nodes.toList.map (·.token) := by
    obtain ⟨node, hnode, rfl⟩ := Option.map_eq_some_iff.1 hi
    exact List.mem_map_of_mem (List.mem_iff_getElem?.2 ⟨i, by rw [Array.getElem?_toList, hnode]⟩)
  rw [(holds_ofTokens tokens).2.2.2] at hmem
  obtain ⟨hmem, hwidth⟩ := List.mem_filter.1 hmem
  exact ⟨hmem, by simpa using hwidth⟩

end Arena

/-! ## Recognised sources -/

/-- What a derivation captures are rules and texts. -/
theorem Parses.isPlain {rules : Rule → Peg} {e : Peg} {s rest : List Char} {d : Derivation}
    (h : Parses rules e s (some (d, rest))) : d.IsPlain := by
  generalize hres : some (d, rest) = res at h
  induction h generalizing d rest with
  | fail | one_fail | word_fail | seq_fail_left | seq_fail_right | plus_fail | absent_fail
  | text_fail | call_fail =>
      cases hres
  | empty | one | word | star_stop | absent | action =>
      cases hres
      trivial
  | seq _ _ ih ih' | star _ _ ih ih' | plus _ _ ih ih' =>
      cases hres
      exact ⟨ih rfl, ih' rfl⟩
  | choice_left _ ih => exact ih hres
  | choice_right _ _ _ ih => exact ih hres
  | text _ ih | call _ ih =>
      cases hres
      exact ⟨rfl, ih rfl⟩

/-- Tokens that were recorded inside captures are nested in the table as the captures were. -/
structure NestsAsRecorded (tokens : List Token)
    (recordings : List (IndexedToken × List IndexedToken)) : Prop where
  /-- These are the tokens, in emission order. -/
  tokens_eq : recordings.map Prod.fst = indexed tokens
  /-- The depth of a token is the number of captures that were open. -/
  length_eq : ∀ b captures, (b, captures) ∈ recordings → captures.length = b.depth
  /-- Rules and texts were open, and have tokens of their own. -/
  capture : ∀ b captures, (b, captures) ∈ recordings → ∀ p ∈ captures, p ∈ indexed tokens ∧
    p.symbol.isAction = false
  /-- The nodes of the table are the tokens that have width, and none of these is missing. -/
  isNode_iff : ∀ b, b ∈ indexed tokens ∧ b.isEmpty = false ↔
    ∃ i, (Arena.ofTokens tokens).token? i = some b
  /-- The parent of a node is the first token that has width, was emitted after that of the node,
  and spans it. -/
  isParent_iff : ∀ i j a b, (Arena.ofTokens tokens).token? i = some a →
    (Arena.ofTokens tokens).token? j = some b →
    ((Arena.ofTokens tokens).IsParent i j ↔ firstAround? tokens b = some a)
  /-- This is the innermost capture that was open, and the first token after that of the node that
  is less deep. -/
  innermost : ∀ b captures, (b, captures) ∈ recordings → b.isEmpty = false →
    firstAround? tokens b = captures.head? ∧ firstAbove? tokens b = captures.head?

/-- The tokens of a derivation nest as they were recorded. -/
theorem Derivation.nestsAsRecorded {d : Derivation} (hd : d.IsPlain) :
    NestsAsRecorded (d.tokens 0 0) (d.recordings 0 0 0 []) := by
  have htokens : (d.recordings 0 0 0 []).map Prod.fst = indexed (d.tokens 0 0) :=
    d.map_fst_recordings 0 0 0 []
  have hfind : ∀ {test}, Separates test → ∀ b captures, (b, captures) ∈ d.recordings 0 0 0 [] →
      b.isEmpty = false →
      (indexed (d.tokens 0 0)).find? (test b) = captures.head? := by
    intro test htest b captures hmem hb
    obtain ⟨inner, rfl, hinner⟩ := find?_of_mem_recordings htest List.length_nil hb hmem
    rw [List.append_nil]
    exact hinner
  refine ⟨htokens, fun b captures => length_of_mem_recordings List.length_nil,
    fun b captures hmem p hp => ?_,
    fun b => ⟨fun h => Arena.exists_token?_of_mem h.1 h.2,
      fun ⟨i, hi⟩ => Arena.mem_indexed_of_token? hi⟩,
    fun i j a b hi hj => ?_, fun b captures hmem hb => ⟨hfind separates_around b captures hmem hb,
      hfind separates_above b captures hmem hb⟩⟩
  · rcases capture_of_mem_recordings hd hmem p hp with hp | hp
    · cases hp
    · exact hp
  · obtain ⟨hb, hwidth⟩ := Arena.mem_indexed_of_token? hj
    have hperm : (some a, b) ∈ ((d.recordings 0 0 0 []).filter hasWidth).map innermost ↔
        (some a, b) ∈ (allWithParents none (d.trees 0 0 0)).map fun e => (e.1, e.2.label) :=
      (d.perm_withParents 0 0 0 []).mem_iff
    rw [Arena.isParent_iff_mem hi hj, map_ofTokens, ← hperm]
    constructor
    · intro hmem
      obtain ⟨⟨b, captures⟩, hrecorded, heq⟩ := List.mem_map.1 hmem
      obtain ⟨hhead, rfl⟩ := Prod.mk.inj heq
      exact (hfind separates_around b captures (List.mem_filter.1 hrecorded).1 hwidth).trans hhead
    · intro hfirst
      rw [← htokens] at hb
      obtain ⟨⟨b, captures⟩, hrecorded, rfl⟩ := List.mem_map.1 hb
      have hhead : captures.head? = some a :=
        (hfind separates_around b captures hrecorded hwidth).symm.trans hfirst
      refine List.mem_map.2 ⟨(b, captures),
        List.mem_filter.2 ⟨hrecorded, by simpa [hasWidth] using hwidth⟩, ?_⟩
      exact Prod.ext hhead rfl

/-- The tokens of a recognised source nest as they were recorded. Each of them that has width has a
node, and nothing else has. The parent of a node is that of the first token after it that has width
and spans it, which is that of the innermost rule or text that was open when it was recorded. -/
theorem parent_is_innermost_capture {config : Config} {source : String} {r : Recognized}
    (h : recognize config source = .ok r) :
    ∃ d, Parses Peg.table (.call .source) source.toList (some (d, [])) ∧
      NestsAsRecorded r.tokens (d.recordings 0 0 0 []) := by
  obtain ⟨d, hd, rfl⟩ := recognize_eq_ok_iff.1 h
  exact ⟨d, hd, d.nestsAsRecorded hd.isPlain⟩

set_option maxRecDepth 100000 in
/-- A source with rules of the same span inside one another: around a literal there is a value. -/
theorem parent_is_innermost_capture_same_span :
    ∃ r d, recognize {} "a => \x7b ((1)) \x7d" = .ok r ∧
      Parses Peg.table (.call .source) "a => \x7b ((1)) \x7d".toList (some (d, [])) ∧
      NestsAsRecorded r.tokens (d.recordings 0 0 0 []) ∧
      firstAround? r.tokens ⟨⟨.rule .literal, 9, 10, 14⟩, 26⟩ =
        some ⟨⟨.rule .value, 9, 10, 13⟩, 27⟩ := by
  obtain ⟨d, hd, hfirst⟩ : ∃ d, Parses Peg.table (.call .source)
      "a => \x7b ((1)) \x7d".toList (some (d, [])) ∧
      firstAround? (d.tokens 0 0) ⟨⟨.rule .literal, 9, 10, 14⟩, 26⟩ =
        some ⟨⟨.rule .value, 9, 10, 13⟩, 27⟩ :=
    exists_parses_of_run (n := 100) (by decide +kernel)
  have hr : recognize {} "a => \x7b ((1)) \x7d" = .ok _ := recognize_eq_ok_iff.2 ⟨d, hd, rfl⟩
  obtain ⟨e, he, hnests⟩ := parent_is_innermost_capture hr
  exact ⟨_, e, hr, he, hnests, hfirst⟩

end RiftLang
