import Mathlib.Data.List.Perm.Basic
import Mathlib.Data.List.Nodup
import RiftLang.Tree

/-!
# The subtrees of trees

What is found below a list of trees, without regard to levels and to where it is found.

* `Tree.parts`, `Tree.allParts` — the subtrees of a tree and of several trees, in pre-order.
* `Tree.forall_forestSubtrees` — what holds of the roots and goes from a tree to its children holds
  of all subtrees.
* `Tree.perm_roots_children` — every subtree is a root or the child of one subtree.
* `Tree.withParents`, `Tree.allWithParents` — the subtrees with what their parents carry.
-/

namespace RiftLang

namespace Tree

variable {α β : Type}

mutual

/-- The subtrees of a tree in pre-order. -/
def parts : Tree α → List (Tree α)
  | node a ts => node a ts :: allParts ts

/-- The subtrees of several trees in pre-order. -/
def allParts : List (Tree α) → List (Tree α)
  | [] => []
  | t :: ts => parts t ++ allParts ts

end

mutual

/-- The subtrees without their levels. -/
theorem map_snd_subtrees (level : Nat) (t : Tree α) :
    (t.subtrees level).map Prod.snd = t.parts := by
  cases t with
  | node a ts => rw [subtrees, parts, List.map_cons, map_snd_forestSubtrees (level + 1) ts]

/-- The subtrees of several trees without their levels. -/
theorem map_snd_forestSubtrees (level : Nat) (ts : List (Tree α)) :
    (forestSubtrees level ts).map Prod.snd = allParts ts := by
  cases ts with
  | nil => rfl
  | cons t ts =>
    rw [forestSubtrees, allParts, List.map_append, map_snd_subtrees level t,
      map_snd_forestSubtrees level ts]

end

/-- The subtrees of trees in a row are those of the first trees and then those of the others. -/
theorem allParts_append (ts us : List (Tree α)) :
    allParts (ts ++ us) = allParts ts ++ allParts us := by
  induction ts with
  | nil => rfl
  | cons t ts ih => rw [List.cons_append, allParts, ih, allParts, List.append_assoc]

/-- A node in front of trees adds itself and the subtrees of its children. -/
theorem allParts_cons_node (a : α) (ts us : List (Tree α)) :
    allParts (node a ts :: us) = node a ts :: (allParts ts ++ allParts us) := by
  rw [allParts, parts, List.cons_append]

/-- In reverse order, trees have the same subtrees, though not in reverse order. -/
theorem perm_allParts_reverse (ts : List (Tree α)) : (allParts ts.reverse).Perm (allParts ts) := by
  induction ts with
  | nil => rfl
  | cons t ts ih =>
      rw [List.reverse_cons, allParts_append, allParts, allParts, allParts, List.append_nil]
      exact List.perm_append_comm.trans (ih.append_left _)

/-- A tree is one of its own subtrees. -/
theorem mem_allParts_of_mem {t : Tree α} {ts : List (Tree α)} (h : t ∈ ts) : t ∈ allParts ts := by
  obtain ⟨before, after, rfl⟩ := List.append_of_mem h
  cases t with
  | node a us =>
    rw [allParts_append, allParts_cons_node]
    exact List.mem_append_right _ List.mem_cons_self

/-! ## Levels -/

/-- A tree is listed at the level at which the listing begins. -/
theorem mem_forestSubtrees_of_mem {t : Tree α} {ts : List (Tree α)} (h : t ∈ ts) (level : Nat) :
    (level, t) ∈ forestSubtrees level ts := by
  induction ts with
  | nil => cases h
  | cons u ts ih =>
      rw [forestSubtrees]
      rcases List.mem_cons.1 h with rfl | h
      · cases t with
        | node a us =>
          rw [subtrees]
          exact List.mem_append_left _ List.mem_cons_self
      · exact List.mem_append_right _ (ih h)

mutual

/-- What holds of a tree at a level, and goes down from a subtree to its children at the next level,
holds of all subtrees. -/
theorem forall_subtrees {P : Nat → Tree α → Prop}
    (hchild : ∀ l p c, P l p → c ∈ p.children → P (l + 1) c) {level : Nat} {t : Tree α}
    (ht : P level t) : ∀ e ∈ t.subtrees level, P e.1 e.2 := by
  cases t with
  | node a ts =>
    rw [subtrees]
    have hchildren : ∀ c ∈ ts, P (level + 1) c := fun c hc => hchild level (node a ts) c ht hc
    exact List.forall_mem_cons.2 ⟨ht, forall_forestSubtrees hchild hchildren⟩

/-- What holds of the roots, and of a tree at one level more if it is the child of one of which it
holds, holds of all subtrees. -/
theorem forall_forestSubtrees {P : Nat → Tree α → Prop}
    (hchild : ∀ l p c, P l p → c ∈ p.children → P (l + 1) c) {level : Nat} {ts : List (Tree α)}
    (hts : ∀ t ∈ ts, P level t) : ∀ e ∈ forestSubtrees level ts, P e.1 e.2 := by
  cases ts with
  | nil => exact List.forall_mem_nil _
  | cons t ts =>
    obtain ⟨ht, hts⟩ := List.forall_mem_cons.1 hts
    rw [forestSubtrees]
    exact List.forall_mem_append.2 ⟨forall_subtrees hchild ht, forall_forestSubtrees hchild hts⟩

end

mutual

/-- A child is listed one level below its parent. -/
theorem mem_subtrees_of_child {t p c : Tree α} {l level : Nat} (h : (l, p) ∈ t.subtrees level)
    (hc : c ∈ p.children) : (l + 1, c) ∈ t.subtrees level := by
  cases t with
  | node a ts =>
    rw [subtrees] at h ⊢
    refine List.mem_cons_of_mem _ ?_
    rcases List.mem_cons.1 h with h | h
    · obtain ⟨rfl, rfl⟩ := Prod.mk.inj h
      exact mem_forestSubtrees_of_mem hc (l + 1)
    · exact mem_forestSubtrees_of_child h hc

/-- The children of a subtree are subtrees, one level down. -/
theorem mem_forestSubtrees_of_child {p c : Tree α} {ts : List (Tree α)} {l level : Nat}
    (h : (l, p) ∈ forestSubtrees level ts) (hc : c ∈ p.children) :
    (l + 1, c) ∈ forestSubtrees level ts := by
  cases ts with
  | nil => cases h
  | cons t ts =>
    rw [forestSubtrees] at h ⊢
    rcases List.mem_append.1 h with h | h
    · exact List.mem_append_left _ (mem_subtrees_of_child h hc)
    · exact List.mem_append_right _ (mem_forestSubtrees_of_child h hc)

end

/-- The children of a subtree are subtrees. -/
theorem mem_allParts_of_child {p c : Tree α} {ts : List (Tree α)} (h : p ∈ allParts ts)
    (hc : c ∈ p.children) :
    c ∈ allParts ts := by
  rw [← map_snd_forestSubtrees 0] at h ⊢
  obtain ⟨⟨l, p⟩, hp, rfl⟩ := List.mem_map.1 h
  have hchild : (l + 1, c) ∈ forestSubtrees 0 ts := mem_forestSubtrees_of_child hp hc
  exact List.mem_map_of_mem hchild

/-! ## Roots and children -/

/-- What the children of a tree carry. -/
def childLabels (t : Tree α) : List α :=
  t.children.map label

mutual

/-- The label of the root and those of all children are the labels of all subtrees, each once. -/
theorem perm_root_children (t : Tree α) :
    (t.label :: t.parts.flatMap childLabels).Perm (t.parts.map label) := by
  cases t with
  | node a ts =>
    rw [parts, List.flatMap_cons, List.map_cons]
    exact (perm_roots_children ts).cons a

/-- Taken together, the roots and the children of all subtrees are all subtrees, each of them
once. -/
theorem perm_roots_children (ts : List (Tree α)) :
    (ts.map label ++ (allParts ts).flatMap childLabels).Perm ((allParts ts).map label) := by
  cases ts with
  | nil => rfl
  | cons t ts =>
    rw [allParts, List.flatMap_append, List.map_append, List.map_cons]
    have hmiddle :
        (ts.map label ++ (t.parts.flatMap childLabels ++ (allParts ts).flatMap childLabels)).Perm
        (t.parts.flatMap childLabels ++ (ts.map label ++ (allParts ts).flatMap childLabels)) := by
      rw [← List.append_assoc, ← List.append_assoc]
      exact List.perm_append_comm.append_right _
    exact (hmiddle.cons t.label).trans ((perm_root_children t).append (perm_roots_children ts))

end

/-- Subtrees that carry the same are the same, where all carry different things. -/
theorem eq_of_label_eq {ts : List (Tree α)} (h : ((allParts ts).map label).Nodup) {t u : Tree α}
    (ht : t ∈ allParts ts) (hu : u ∈ allParts ts) (heq : t.label = u.label) : t = u :=
  List.inj_on_of_nodup_map h ht hu heq

/-! ## Parents -/

mutual

/-- The subtrees in pre-order, each with what its parent carries. -/
def withParents (parent? : Option α) : Tree α → List (Option α × Tree α)
  | node a ts => (parent?, node a ts) :: allWithParents (some a) ts

/-- The subtrees of several trees in pre-order, each with what its parent carries. -/
def allWithParents (parent? : Option α) : List (Tree α) → List (Option α × Tree α)
  | [] => []
  | t :: ts => withParents parent? t ++ allWithParents parent? ts

end

mutual

/-- The subtrees without what their parents carry. -/
theorem map_snd_withParents (parent? : Option α) (t : Tree α) :
    (t.withParents parent?).map Prod.snd = t.parts := by
  cases t with
  | node a ts => rw [withParents, parts, List.map_cons, map_snd_allWithParents (some a) ts]

/-- The subtrees of several trees without what their parents carry. -/
theorem map_snd_allWithParents (parent? : Option α) (ts : List (Tree α)) :
    (allWithParents parent? ts).map Prod.snd = allParts ts := by
  cases ts with
  | nil => rfl
  | cons t ts =>
    rw [allWithParents, allParts, List.map_append, map_snd_withParents parent? t,
      map_snd_allWithParents parent? ts]

end

/-- For trees in a row, the subtrees are those of the first trees and then those of the others. -/
theorem allWithParents_append (parent? : Option α) (ts us : List (Tree α)) :
    allWithParents parent? (ts ++ us) = allWithParents parent? ts ++ allWithParents parent? us := by
  induction ts with
  | nil => rfl
  | cons t ts ih => rw [List.cons_append, allWithParents, ih, allWithParents, List.append_assoc]

/-- A root is listed with what is around the trees. -/
theorem mem_allWithParents_of_mem (parent? : Option α) {t : Tree α} {ts : List (Tree α)}
    (h : t ∈ ts) :
    (parent?, t) ∈ allWithParents parent? ts := by
  induction ts with
  | nil => cases h
  | cons u ts ih =>
      rw [allWithParents]
      rcases List.mem_cons.1 h with rfl | h
      · cases t with
        | node a us =>
          rw [withParents]
          exact List.mem_append_left _ List.mem_cons_self
      · exact List.mem_append_right _ (ih h)

mutual

/-- A child is listed with the label of its parent. -/
theorem mem_withParents_of_child (parent? : Option α) {t p c : Tree α} (h : p ∈ t.parts)
    (hc : c ∈ p.children) :
    (some p.label, c) ∈ t.withParents parent? := by
  cases t with
  | node a ts =>
    rw [parts] at h
    rw [withParents]
    refine List.mem_cons_of_mem _ ?_
    rcases List.mem_cons.1 h with rfl | h
    · exact mem_allWithParents_of_mem (some a) hc
    · exact mem_allWithParents_of_child (some a) h hc

/-- A child of a subtree comes with what the subtree carries. -/
theorem mem_allWithParents_of_child (parent? : Option α) {p c : Tree α} {ts : List (Tree α)}
    (h : p ∈ allParts ts) (hc : c ∈ p.children) :
    (some p.label, c) ∈ allWithParents parent? ts := by
  cases ts with
  | nil => cases h
  | cons t ts =>
    rw [allParts] at h
    rw [allWithParents]
    rcases List.mem_append.1 h with h | h
    · exact List.mem_append_left _ (mem_withParents_of_child parent? h hc)
    · exact List.mem_append_right _ (mem_allWithParents_of_child parent? h hc)

end

mutual

/-- What is listed is the root with what is around it, or a child with the label of its parent. -/
theorem exists_of_mem_withParents {parent? x : Option α} {t c : Tree α}
    (h : (x, c) ∈ t.withParents parent?) :
    x = parent? ∧ c = t ∨ ∃ p ∈ t.parts, x = some p.label ∧ c ∈ p.children := by
  cases t with
  | node a ts =>
    rw [withParents] at h
    rcases List.mem_cons.1 h with h | h
    · exact Or.inl (Prod.mk.inj h)
    · rw [parts]
      right
      rcases exists_of_mem_allWithParents h with ⟨rfl, hc⟩ | ⟨p, hp, hx, hc⟩
      · exact ⟨node a ts, List.mem_cons_self, rfl, hc⟩
      · exact ⟨p, List.mem_cons_of_mem _ hp, hx, hc⟩

/-- What does not come with the parent of the roots is the child of a subtree. -/
theorem exists_of_mem_allWithParents {parent? x : Option α} {c : Tree α} {ts : List (Tree α)}
    (h : (x, c) ∈ allWithParents parent? ts) :
    x = parent? ∧ c ∈ ts ∨ ∃ p ∈ allParts ts, x = some p.label ∧ c ∈ p.children := by
  cases ts with
  | nil => cases h
  | cons t ts =>
    rw [allWithParents] at h
    rw [allParts]
    rcases List.mem_append.1 h with h | h
    · rcases exists_of_mem_withParents h with ⟨hx, rfl⟩ | ⟨p, hp, hx, hc⟩
      · exact Or.inl ⟨hx, List.mem_cons_self⟩
      · exact Or.inr ⟨p, List.mem_append_left _ hp, hx, hc⟩
    · rcases exists_of_mem_allWithParents h with ⟨hx, hc⟩ | ⟨p, hp, hx, hc⟩
      · exact Or.inl ⟨hx, List.mem_cons_of_mem _ hc⟩
      · exact Or.inr ⟨p, List.mem_append_right _ hp, hx, hc⟩

end

end Tree

end RiftLang
