import RiftLang.Cursor.Match
import RiftLang.Proofs.Cursor.View

/-!
# What a match puts into its memory

A remembered rule is tried where its outcome is not known, and afterwards its outcome is put into
the memory. Here every such trial is kept, in the order in which the outcomes were put there.

* `MemoTable.IsKept` — a later memory knows whatever an earlier one knew.
* `Evaluation` — a trial of a remembered rule: where, with what outcome, and into what memory the
  outcome was put.
* `Pattern.tally`, `Grammar.tally` — matching that also lists the trials. `Grammar.map_tally` —
  listing them changes nothing else.
* `History` — one memory becomes another by such trials alone, each of a rule whose outcome was not
  known. Then no rule was tried twice at an offset (`History.nodup_keys`), and nothing that was
  known has changed (`History.isKept`).
-/

namespace RiftLang

/-! ## Memories -/

namespace MemoTable

variable {T T' T'' : MemoTable} {r : Rule} {k : Nat} {memo : Memo}

/-- Whatever the first memory knows, the second knows as well. -/
def IsKept (T T' : MemoTable) : Prop :=
  ∀ r k memo, T.known? r k = some memo → T'.known? r k = some memo

/-- A memory knows what it knows. -/
theorem IsKept.refl (T : MemoTable) : T.IsKept T :=
  fun _ _ _ h => h

/-- What is kept twice over is kept. -/
theorem IsKept.trans (h : T.IsKept T') (h' : T'.IsKept T'') : T.IsKept T'' :=
  fun r k memo hknown => h' r k memo (h r k memo hknown)

/-- Nothing changes when something new is put into the memory. -/
theorem isKept_note (hnew : T.known? r k = none) : T.IsKept (T.note r k memo) := by
  intro q p known hknown
  have hne : ¬ (p = k ∧ q = r) := by
    rintro ⟨rfl, rfl⟩
    rw [hnew] at hknown
    cases hknown
  rw [known?_note_of_ne hne]
  exact hknown

end MemoTable

/-! ## Trials -/

/-- A trial of a remembered rule, which ended and was remembered. -/
structure Evaluation where
  /-- The rule whose body was tried. -/
  rule : Rule
  /-- The offset at which it was tried. -/
  offset : Nat
  /-- The memory that the outcome was put into. -/
  before : MemoTable
  /-- The outcome. -/
  memo : Memo

namespace Evaluation

/-- What was tried, and where. -/
def key (x : Evaluation) : Rule × Nat :=
  (x.rule, x.offset)

/-- The memory with the outcome. -/
def after (x : Evaluation) : MemoTable :=
  x.before.note x.rule x.offset x.memo

end Evaluation

/-- The trials that a match made, and its outcome; `none` if calls nested too deep to tell. -/
abbrev Tallied := Option (List Evaluation × Bool × Cursor)

/-- The match, after these trials. -/
def Tallied.after (done : List Evaluation) (w : Tallied) : Tallied :=
  w.map fun (later, outcome) => (done ++ later, outcome)

/-- `repeatMatch` with trials. -/
def repeatTally (body : Cursor → Tallied) : (budget : Nat) → Cursor → Tallied
  | 0, c => some ([], true, c)
  | budget + 1, c =>
    match body c with
    | none => none
    | some (done, false, d) => some (done, true, d.restore c.checkpoint)
    | some (done, true, d) =>
      if d.position = c.position then some (done, true, d)
        else (repeatTally body budget d).after done

/-- `captureMatch` with trials. -/
def captureTally (symbol : Symbol) (body : Cursor → Tallied) (c : Cursor) : Tallied :=
  (body (c.enter symbol)).map fun (done, matched, d) => (done, d.leave symbol c.checkpoint matched)

/-- `Pattern.eval` with trials. The body of a remembered rule is tried where nothing is known, and
only there. -/
def Pattern.tally (callee : Rule → Cursor → Tallied) : Pattern → Cursor → Tallied
  | succeed, c => some ([], true, c)
  | one test, c => some ([], c.step test)
  | both first second, c =>
    match tally callee first c with
    | some (done, true, d) => (tally callee second d).after done
    | failed => failed
  | either first second, c =>
    match tally callee first c with
    | some (done, false, d) =>
      match tally callee second (d.restore c.checkpoint) with
      | some (later, false, e) => some (done ++ later, false, e.restore c.checkpoint)
      | matched => matched.after done
    | matched => matched
  | many body, c => repeatTally (tally callee body) (c.source.size + 1 - c.position) c
  | absent body, c =>
    (tally callee body c).map fun (done, matched, d) => (done, !matched, d.restore c.checkpoint)
  | rule r body, c => captureTally (.rule r) (tally callee body) c
  | text body, c => captureTally .text (tally callee body) c
  | memo r body, c =>
    match c.remembered? r with
    | some known => some ([], c.replay known)
    | none =>
      (captureTally (.rule r) (tally callee body) c).map fun (done, matched, d) =>
        (done ++ [⟨r, c.position, d.memos, d.memoSince c.checkpoint matched⟩], matched,
          d.remember r c.checkpoint matched)
  | action a, c => some ([], true, c.act a)
  | call r, c => callee r c

/-- `Grammar.run` with trials. -/
def Grammar.tally (g : Grammar) : (depth : Nat) → Rule → Cursor → Tallied
  | 0, _, _ => none
  | depth + 1, r, c => (g r).tally (g.tally depth) c

/-! ### Listing trials changes nothing else -/

section erasure

variable {body : Cursor → Tallied} {run : Cursor → Outcome}

/-- Trials put before others leave the outcome as it is. -/
theorem Tallied.map_after (done : List Evaluation) (w : Tallied) :
    (w.after done).map Prod.snd = w.map Prod.snd := by
  unfold after
  rw [Option.map_map]
  rfl

/-- A capture with trials ends as the capture without, if its body does. -/
theorem map_captureTally (hbody : ∀ c, (body c).map Prod.snd = run c) (symbol : Symbol)
    (c : Cursor) :
    (captureTally symbol body c).map Prod.snd = captureMatch symbol run c := by
  unfold captureTally captureMatch
  rw [← hbody]
  rcases body (c.enter symbol) with _ | ⟨done, matched, d⟩
  · rfl
  · rfl

/-- A repetition with trials ends as the repetition without, if its body does. -/
theorem map_repeatTally (hbody : ∀ c, (body c).map Prod.snd = run c) (budget : Nat) (c : Cursor) :
    (repeatTally body budget c).map Prod.snd = repeatMatch run budget c := by
  induction budget generalizing c with
  | zero => rfl
  | succ budget ih =>
      unfold repeatTally repeatMatch
      rw [← hbody]
      rcases body c with _ | ⟨done, _ | _, d⟩
      · rfl
      · rfl
      · by_cases hstop : d.position = c.position
        · simp [hstop, Cursor.checkpoint]
        · simp [hstop, Cursor.checkpoint, Tallied.map_after, ih]

/-- A pattern with trials ends as the pattern without, if the rules that it calls do. The trials are
only noted on the way. -/
theorem Pattern.map_tally {tallied : Rule → Cursor → Tallied} {callee : Rule → Cursor → Outcome}
    (hcallee : ∀ r c, (tallied r c).map Prod.snd = callee r c) (p : Pattern) (c : Cursor) :
    (p.tally tallied c).map Prod.snd = p.eval callee c := by
  induction p generalizing c with
  | succeed | one _ | action _ => rfl
  | both first second ihf ihs =>
      unfold tally eval
      rw [← ihf]
      rcases first.tally tallied c with _ | ⟨done, _ | _, d⟩
      · rfl
      · rfl
      · exact (Tallied.map_after _ _).trans (ihs d)
  | either first second ihf ihs =>
      unfold tally eval
      rw [← ihf]
      rcases first.tally tallied c with _ | ⟨done, _ | _, d⟩
      · rfl
      · simp only [Option.map_some, ← ihs]
        rcases second.tally tallied (d.restore c.checkpoint) with _ | ⟨later, _ | _, e⟩
        · rfl
        · rfl
        · rfl
      · rfl
  | many body ih => exact map_repeatTally ih _ c
  | absent body ih =>
      unfold tally eval
      rw [← ih]
      rcases body.tally tallied c with _ | ⟨done, matched, d⟩
      · rfl
      · rfl
  | rule r body ih => exact map_captureTally ih _ c
  | text body ih => exact map_captureTally ih _ c
  | memo r body ih =>
      unfold tally eval
      cases c.remembered? r with
      | some known => rfl
      | none =>
        simp only [← map_captureTally ih]
        rcases captureTally (.rule r) (body.tally tallied) c with _ | ⟨done, matched, d⟩
        · rfl
        · rfl
  | call r => exact hcallee r c

/-- A rule does what it does, with its trials listed or not. -/
theorem Grammar.map_tally (g : Grammar) (depth : Nat) (r : Rule) (c : Cursor) :
    (g.tally depth r c).map Prod.snd = g.run depth r c := by
  induction depth generalizing r c with
  | zero => rfl
  | succ depth ih => exact (g r).map_tally ih c

end erasure

/-! ## Histories -/

/-- The first memory becomes the second by putting in the outcomes of these trials, one after
another. None of them was known before. -/
inductive History : MemoTable → List Evaluation → MemoTable → Prop where
  /-- Nothing was tried. -/
  | nil (T : MemoTable) : History T [] T
  /-- First one trial, which found nothing known, and then the others. -/
  | cons {x : Evaluation} {done : List Evaluation} {T' : MemoTable}
    (hnew : x.before.known? x.rule x.offset = none) (h : History x.after done T') :
      History x.before (x :: done) T'

namespace History

variable {T T' T'' : MemoTable} {done later : List Evaluation}

/-- Two histories that meet make one. -/
theorem append (h : History T done T') (h' : History T' later T'') :
    History T (done ++ later) T'' := by
  induction h with
  | nil _ => exact h'
  | cons hnew _ ih => exact .cons hnew (ih h')

/-- What was known stays known. -/
theorem isKept (h : History T done T') : T.IsKept T' := by
  induction h with
  | nil T => exact .refl T
  | cons hnew _ ih => exact (MemoTable.isKept_note hnew).trans ih

/-- A trial finds nothing known, and the memory with its outcome is kept from then on. -/
theorem isKept_after (h : History T done T') :
    ∀ x ∈ done, x.before.known? x.rule x.offset = none ∧ x.after.IsKept T' := by
  induction h with
  | nil _ => exact fun _ hx => absurd hx List.not_mem_nil
  | cons hnew hlater ih => exact List.forall_mem_cons.2 ⟨⟨hnew, hlater.isKept⟩, ih⟩

/-- What is known was known before, or is the outcome of one of the trials. -/
theorem known (h : History T done T') {r : Rule} {k : Nat} {memo : Memo}
    (hknown : T'.known? r k = some memo) :
    T.known? r k = some memo ∨ ∃ x ∈ done, x.key = (r, k) ∧ x.memo = memo := by
  induction h with
  | nil _ => exact .inl hknown
  | @cons x done T' _ _ ih =>
      rcases ih hknown with hafter | ⟨y, hy, hkey⟩
      · rcases MemoTable.known?_note_eq_some hafter with ⟨rfl, rfl, rfl⟩ | hbefore
        · exact .inr ⟨x, List.mem_cons_self, rfl, rfl⟩
        · exact .inl hbefore
      · exact .inr ⟨y, List.mem_cons_of_mem _ hy, hkey⟩

/-- What was tried was not known at first. -/
theorem known?_eq_none (h : History T done T') : ∀ x ∈ done, T.known? x.rule x.offset = none := by
  induction h with
  | nil _ => exact fun _ hx => absurd hx List.not_mem_nil
  | @cons x done T' hnew _ ih =>
      refine List.forall_mem_cons.2 ⟨hnew, fun y hy => ?_⟩
      cases hy' : x.before.known? y.rule y.offset with
      | none => rfl
      | some memo =>
          have hafter : x.after.known? y.rule y.offset = some memo :=
            MemoTable.isKept_note hnew _ _ _ hy'
          exact absurd ((ih y hy).symm.trans hafter) nofun

/-- The outcome of a trial is known in the end. -/
theorem known?_eq_some (h : History T done T') : ∀ x ∈ done, x.offset < T.size →
    T'.known? x.rule x.offset = some x.memo := by
  induction h with
  | nil _ => exact fun _ hx => absurd hx List.not_mem_nil
  | @cons x done T' hnew hlater ih =>
      refine List.forall_mem_cons.2 ⟨fun hx => ?_, fun y hy hsize => ?_⟩
      · exact hlater.isKept _ _ _ (MemoTable.known?_note_self hx)
      · exact ih y hy (by simpa [Evaluation.after] using hsize)

/-- No rule was tried twice at an offset. -/
theorem nodup_keys (h : History T done T') (hsize : ∀ x ∈ done, x.offset < T.size) :
    (done.map Evaluation.key).Nodup := by
  induction h with
  | nil _ => exact List.nodup_nil
  | @cons x done T' hnew hlater ih =>
      obtain ⟨hx, hdone⟩ := List.forall_mem_cons.1 hsize
      refine List.nodup_cons.2 ⟨?_, ih (by simpa [Evaluation.after] using hdone)⟩
      intro hmem
      obtain ⟨y, hy, hkey⟩ := List.mem_map.1 hmem
      obtain ⟨hrule, hoffset⟩ := Prod.mk.inj hkey
      have hnone : x.after.known? y.rule y.offset = none := hlater.known?_eq_none y hy
      rw [hrule, hoffset] at hnone
      exact absurd (hnone.symm.trans (MemoTable.known?_note_self hx)) nofun

end History

end RiftLang
