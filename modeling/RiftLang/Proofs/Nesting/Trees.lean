import RiftLang.Proofs.Peg
import RiftLang.Tree

/-!
# The trees of a derivation

How the tokens of a derivation nest is known from the derivation: what a capture is made of is below
it. The tokens without width are left out, with all that is below them.

* `indexedFrom`, `Derivation.stamped` — the tokens of a derivation with their places in emission
  order.
* `Derivation.Bounds`, `bounds_of_mem_stamped` — where the tokens of a derivation lie.
* `Derivation.trees` — the trees of the captures that have width.
* `Tree.IsLaid`, `Tree.AreLaid` — trees that span text, laid out one after the other within a span.
-/

namespace RiftLang

/-- Numbers tokens in emission order, from a number on. -/
def indexedFrom (first : Nat) (tokens : List Token) : List IndexedToken :=
  (tokens.zipIdx first).map fun (t, i) => { t with index := i }

/-- Emission order begins at zero. -/
theorem indexed_eq (tokens : List Token) : indexed tokens = indexedFrom 0 tokens := rfl

/-- Tokens after others are numbered on from where those end. -/
theorem indexedFrom_append (first : Nat) (ts us : List Token) :
    indexedFrom first (ts ++ us) = indexedFrom first ts ++ indexedFrom (first + ts.length) us := by
  simp [indexedFrom, List.zipIdx_append]

/-- A numbered token is one of the tokens. -/
theorem mem_of_mem_indexedFrom {first : Nat} {tokens : List Token} {t : IndexedToken}
    (h : t ∈ indexedFrom first tokens) : t.toToken ∈ tokens := by
  obtain ⟨⟨u, i⟩, hu, rfl⟩ := List.mem_map.1 h
  exact List.fst_mem_of_mem_zipIdx hu

/-- Numbered tokens without their numbers are the tokens. -/
theorem map_toToken_indexed (tokens : List Token) : (indexed tokens).map (·.toToken) = tokens := by
  rw [indexed, List.map_map]
  exact List.zipIdx_map_fst 0 tokens

/-- Numbering adds no token and drops none. -/
theorem length_indexed (tokens : List Token) : (indexed tokens).length = tokens.length := by
  rw [indexed, List.length_map, List.length_zipIdx]

/-- The numbers are those from zero on, in order. -/
theorem map_index_indexed (tokens : List Token) :
    (indexed tokens).map (·.index) = List.range tokens.length := by
  rw [indexed, List.map_map, List.range_eq_range']
  exact List.zipIdx_map_snd 0 tokens

/-- Places grow in emission order. -/
theorem pairwise_indexed (tokens : List Token) : (indexed tokens).Pairwise (·.index < ·.index) := by
  refine List.pairwise_map.1 ?_
  rw [map_index_indexed]
  exact List.pairwise_lt_range

namespace Derivation

/-- The number of tokens. -/
def count : Derivation → Nat
  | leaf _ => 0
  | action _ => 1
  | append first second => first.count + second.count
  | capture _ body => body.count + 1

/-- A derivation has as many tokens as are counted. -/
theorem length_tokens (d : Derivation) (start depth : Nat) :
    (d.tokens start depth).length = d.count := by
  induction d generalizing start depth with
  | leaf _ | action _ => rfl
  | append d e ihd ihe => rw [tokens, List.length_append, ihd, ihe, count]
  | capture _ d ih => rw [tokens, List.length_append, ih, count, List.length_singleton]

/-- The tokens of a derivation with their places in emission order, the first of them at `first`. -/
def stamped (d : Derivation) (start depth first : Nat) : List IndexedToken :=
  indexedFrom first (d.tokens start depth)

/-- The token of a capture whose body has its tokens from the place `first` on. -/
def captureToken (symbol : Symbol) (body : Derivation) (start depth first : Nat) : IndexedToken :=
  ⟨⟨symbol, start, start + body.width, depth⟩, first + body.count⟩

variable (start depth first : Nat)

/-- Text alone has no tokens. -/
@[simp] theorem stamped_leaf (cs : List Char) : (leaf cs).stamped start depth first = [] := rfl

/-- An action has one token, at its offset and without width. -/
@[simp] theorem stamped_action (a : Action) :
    (action a).stamped start depth first = [⟨⟨.action a, start, start, depth⟩, first⟩] := rfl

/-- Of derivations in a row, the second begins where the first ends, in the source and in emission
order. -/
theorem stamped_append (d e : Derivation) :
    (d.append e).stamped start depth first =
      d.stamped start depth first ++ e.stamped (start + d.width) depth (first + d.count) := by
  rw [stamped, tokens, indexedFrom_append, length_tokens]
  rfl

/-- A capture has the tokens inside it, one deeper, and then its own. -/
theorem stamped_capture (s : Symbol) (d : Derivation) :
    (capture s d).stamped start depth first =
      d.stamped start (depth + 1) first ++ [captureToken s d start depth first] := by
  rw [stamped, tokens, indexedFrom_append, length_tokens]
  rfl

variable {start depth first}

/-- Where a token of a derivation lies. -/
structure Bounds (d : Derivation) (start depth first : Nat) (t : IndexedToken) : Prop where
  /-- It begins no earlier than the derivation. -/
  start_le : start ≤ t.start
  /-- It is not reversed. -/
  le_stop : t.start ≤ t.stop
  /-- It ends no later than the derivation. -/
  stop_le : t.stop ≤ start + d.width
  /-- It is no less deep. -/
  depth_le : depth ≤ t.depth
  /-- It was emitted no earlier than the first token of the derivation. -/
  first_le : first ≤ t.index
  /-- Nor was it emitted later than the last. -/
  index_lt : t.index < first + d.count

/-- What lies within a part of a derivation lies within the derivation. -/
theorem Bounds.widen {d e : Derivation} {start' depth' first' : Nat} {t : IndexedToken}
    (h : d.Bounds start depth first t) (hstart : start' ≤ start)
    (hstop : start + d.width ≤ start' + e.width) (hdepth : depth' ≤ depth) (hfirst : first' ≤ first)
    (hcount : first + d.count ≤ first' + e.count) :
    e.Bounds start' depth' first' t where
  start_le := hstart.trans h.start_le
  le_stop := h.le_stop
  stop_le := h.stop_le.trans hstop
  depth_le := hdepth.trans h.depth_le
  first_le := hfirst.trans h.first_le
  index_lt := h.index_lt.trans_le hcount

/-- Every token of a derivation lies within its span, at its depth or deeper, and has a number from
its range. -/
theorem bounds_of_mem_stamped {d : Derivation} {t : IndexedToken}
    (h : t ∈ d.stamped start depth first) :
    d.Bounds start depth first t := by
  induction d generalizing start depth first with
  | leaf _ => cases h
  | action _ =>
      obtain rfl := List.mem_singleton.1 h
      exact ⟨le_rfl, le_rfl, le_rfl, le_rfl, le_rfl, Nat.lt_succ_self _⟩
  | append d e ihd ihe =>
      have hwidth := width_append d e
      have hcount : (d.append e).count = d.count + e.count := rfl
      rw [stamped_append] at h
      rcases List.mem_append.1 h with h | h
      · exact (ihd h).widen le_rfl (by omega) le_rfl le_rfl (by omega)
      · exact (ihe h).widen (by omega) (by omega) le_rfl (by omega) (by omega)
  | capture s d ih =>
      have hwidth := width_capture s d
      have hcount : (capture s d).count = d.count + 1 := rfl
      rw [stamped_capture] at h
      rcases List.mem_append.1 h with h | h
      · exact (ih h).widen le_rfl (by omega) (by omega) le_rfl (by omega)
      · obtain rfl := List.mem_singleton.1 h
        exact ⟨le_rfl, Nat.le_add_right _ _, le_rfl, le_rfl, Nat.le_add_right _ _,
          Nat.lt_succ_self _⟩

/-- A capture is the parent of every token in it. -/
theorem isParentOf_captureToken {s : Symbol} {d : Derivation} {t : IndexedToken}
    (h : t ∈ d.stamped start (depth + 1) first) :
    (captureToken s d start depth first).isParentOf t = true := by
  have hbounds := bounds_of_mem_stamped h
  have hcontains : (captureToken s d start depth first).toToken.contains t.toToken = true :=
    Bool.and_eq_true_iff.2 ⟨decide_eq_true hbounds.start_le, decide_eq_true hbounds.stop_le⟩
  exact Bool.and_eq_true_iff.2 ⟨hcontains, decide_eq_true hbounds.index_lt⟩

/-- No token is the parent of one that comes later. -/
theorem isParentOf_eq_false {p t : IndexedToken} (h : p.index ≤ t.index) :
    p.isParentOf t = false := by
  unfold IndexedToken.isParentOf
  rw [decide_eq_false (Nat.not_lt.2 h), Bool.and_false]

/-! ## Trees -/

/-- The trees of the captures that have width. -/
def trees : Derivation → (start depth first : Nat) → List (Tree IndexedToken)
  | leaf _, _, _, _ | action _, _, _, _ => []
  | append d e, start, depth, first =>
    d.trees start depth first ++ e.trees (start + d.width) depth (first + d.count)
  | capture symbol body, start, depth, first =>
    if body.width = 0 then []
    else [.node (captureToken symbol body start depth first) (body.trees start (depth + 1) first)]

/-- A capture that has width is one tree, whose children are the trees inside it. -/
theorem trees_capture_of_pos {s : Symbol} {d : Derivation} (h : 0 < d.width) :
    (capture s d).trees start depth first =
      [.node (captureToken s d start depth first) (d.trees start (depth + 1) first)] :=
  if_neg h.ne'

/-- The root of a tree is a token of the derivation. -/
theorem mem_stamped_of_mem_trees {d : Derivation} {t : Tree IndexedToken}
    (h : t ∈ d.trees start depth first) :
    t.label ∈ d.stamped start depth first ∧ t.label.start < t.label.stop := by
  induction d generalizing start depth first with
  | leaf _ | action _ => cases h
  | append d e ihd ihe =>
      rw [stamped_append]
      rcases List.mem_append.1 h with h | h
      · exact ⟨List.mem_append_left _ (ihd h).1, (ihd h).2⟩
      · exact ⟨List.mem_append_right _ (ihe h).1, (ihe h).2⟩
  | capture s d =>
      by_cases hw : d.width = 0
      · rw [trees, if_pos hw] at h
        cases h
      · rw [trees, if_neg hw] at h
        obtain rfl := List.mem_singleton.1 h
        rw [stamped_capture]
        exact ⟨List.mem_append_right _ List.mem_cons_self,
          Nat.lt_add_of_pos_right (Nat.pos_of_ne_zero hw)⟩

end Derivation

/-! ## Laid out -/

namespace Tree

mutual

/-- The root spans text, and the children are laid out within it. -/
def IsLaid : Tree IndexedToken → Prop
  | node t children => t.start < t.stop ∧ AreLaid t.start children t.stop

/-- The trees span text one after the other, within a span. -/
def AreLaid (low : Nat) (ts : List (Tree IndexedToken)) (high : Nat) : Prop :=
  match ts with
  | [] => low ≤ high
  | t :: rest => low ≤ t.label.start ∧ t.IsLaid ∧ AreLaid t.label.stop rest high

end

variable {low middle high : Nat} {ts us : List (Tree IndexedToken)}

/-- Trees within a span are within a span that begins earlier. -/
theorem AreLaid.mono_left (h : AreLaid middle us high) (hlow : low ≤ middle) :
    AreLaid low us high := by
  cases us with
  | nil => exact hlow.trans h
  | cons u us => exact ⟨hlow.trans h.1, h.2⟩

/-- Trees within a span, and trees within the span after it, are within both. -/
theorem AreLaid.append (h : AreLaid low ts middle) (h' : AreLaid middle us high) :
    AreLaid low (ts ++ us) high := by
  induction ts generalizing low with
  | nil => exact h'.mono_left h
  | cons t ts ih => exact ⟨h.1, h.2.1, ih h.2.2⟩

end Tree

/-- The trees of a derivation are laid out within its span. -/
theorem Derivation.areLaid_trees (d : Derivation) (start depth first : Nat) :
    Tree.AreLaid start (d.trees start depth first) (start + d.width) := by
  induction d generalizing start depth first with
  | leaf cs => exact Nat.le_add_right _ _
  | action a => exact le_rfl
  | append d e ihd ihe =>
      rw [width_append, ← Nat.add_assoc]
      exact (ihd start depth first).append (ihe _ _ _)
  | capture s d ih =>
      by_cases hw : d.width = 0
      · rw [trees, if_pos hw]
        exact Nat.le_add_right _ _
      · rw [trees, if_neg hw]
        exact ⟨le_rfl, ⟨Nat.lt_add_of_pos_right (Nat.pos_of_ne_zero hw), ih _ _ _⟩, le_rfl⟩

end RiftLang
