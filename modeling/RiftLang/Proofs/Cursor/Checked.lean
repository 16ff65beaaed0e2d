import RiftLang.Proofs.Cursor.Growth
import RiftLang.Proofs.Cursor.Path

/-!
# Matching with checks

Writing a slot that is neither there nor the next one adds it at the end, slots that are not there
are left out of a stretch, and a difference that would be negative is zero. Here matching stops at
all three.

* `Fault` — what a check finds. `Checked` — a value, unless a check fails.
* `Cursor.checkedEmit`, `checkedLeave`, `checkedReplay`, `checkedRemember` — the operations on
  cursors that write slots, read stretches of them or take differences.
* `Pattern.check`, `Grammar.check` — matching with these operations.
* `Pattern.check_eq` — from a steady cursor no check fails, and matching does what it does without
  checks.
-/

namespace RiftLang

/-! ## Checks -/

/-- What a check finds. -/
inductive Fault where
  /-- A slot was to be written that is neither there nor the next one. -/
  | slot (index size : Nat)
  /-- Slots were to be read that are not there. -/
  | stretch (first last size : Nat)
  /-- More was to be taken away than there is. -/
  | difference (m n : Nat)
  deriving DecidableEq, Repr

/-- A value, unless a check fails. -/
abbrev Checked := Except Fault

/-- A difference that may not be negative. -/
def checkedSub (m n : Nat) : Checked Nat :=
  if n ≤ m then .ok (m - n) else .error (.difference m n)

namespace Log

/-- Writes an existing slot or the next one. -/
def checkedRecord (log : Log) (index : Nat) (token : Token) : Checked Log :=
  if index ≤ log.size then .ok (log.record index token) else .error (.slot index log.size)

/-- The tokens of slots that are all there. -/
def checkedBetween (log : Log) (i j : Nat) : Checked (List Token) :=
  if i ≤ j ∧ j ≤ log.size then .ok (log.between i j) else .error (.stretch i j log.size)

end Log

/-! ## Operations on cursors -/

/-- `Snapshot.preserve` with checks. -/
def Snapshot.checkedPreserve (s : Snapshot) (log : Log) (index : Nat) : Checked Snapshot :=
  if index < s.kept then do
    let overwritten ← log.checkedBetween index s.kept
    return { s with kept := index, displaced := overwritten ++ s.displaced }
  else
    return s

namespace Cursor

/-- `Cursor.emit` with checks. -/
def checkedEmit (c : Cursor) (token : Token) : Checked Cursor := do
  let snapshot ← c.snapshot.mapM (·.checkedPreserve c.log c.tokenCount)
  let log ← c.log.checkedRecord c.tokenCount token
  return { c with snapshot := snapshot, log := log, tokenCount := c.tokenCount + 1 }

/-- `Cursor.leave` with checks. -/
def checkedLeave (symbol : Symbol) (entry : Checkpoint) (matched : Bool) (c : Cursor) :
    Checked (Bool × Cursor) :=
  let c := { c with
    openRules := match symbol.rule? with
      | some _ => c.openRules.tail
      | none => c.openRules }
  if matched then do
    let depth ← checkedSub c.depth 1
    let c ← { c with depth := depth }.checkedEmit ⟨symbol, entry.position, c.position, depth⟩
    return (true, c)
  else
    return (false, c.restore entry)

/-- `Cursor.replay` with checks. -/
def checkedReplay (c : Cursor) : Memo → Checked (Bool × Cursor)
  | .failed => return (false, c)
  | .matched stop tokens => do
    let c ← tokens.foldlM (fun c t => c.checkedEmit { t with depth := t.depth + c.depth }) c
    return (true, { c with position := stop })

/-- `Cursor.memoSince` with checks. -/
def checkedMemoSince (c : Cursor) (entry : Checkpoint) (matched : Bool) : Checked Memo :=
  if matched then do
    let tokens ← c.log.checkedBetween entry.tokenCount c.tokenCount
    let tokens ← tokens.mapM fun t => do
      let depth ← checkedSub t.depth entry.depth
      return { t with depth := depth }
    return .matched c.position tokens
  else
    return .failed

/-- `Cursor.remember` with checks. -/
def checkedRemember (c : Cursor) (rule : Rule) (entry : Checkpoint) (matched : Bool) :
    Checked Cursor := do
  let memo ← c.checkedMemoSince entry matched
  return c.note rule entry.position memo

end Cursor

/-! ## Matching -/

/-- `repeatMatch` with checks. -/
def repeatCheck (body : Cursor → Checked Outcome) : (budget : Nat) → Cursor → Checked Outcome
  | 0, c => return some (true, c)
  | budget + 1, c => do
    match ← body c with
    | none => return none
    | some (false, d) => return some (true, d.restore c.checkpoint)
    | some (true, d) =>
      if d.position = c.position then return some (true, d) else repeatCheck body budget d

/-- `captureMatch` with checks. -/
def captureCheck (symbol : Symbol) (body : Cursor → Checked Outcome) (c : Cursor) :
    Checked Outcome := do
  match ← body (c.enter symbol) with
  | none => return none
  | some (matched, d) => return some (← d.checkedLeave symbol c.checkpoint matched)

/-- `Pattern.eval` with checks. -/
def Pattern.check (callee : Rule → Cursor → Checked Outcome) : Pattern → Cursor → Checked Outcome
  | succeed, c => return some (true, c)
  | one test, c => return some (c.step test)
  | both first second, c => do
    match ← check callee first c with
    | some (true, d) => check callee second d
    | failed => return failed
  | either first second, c => do
    match ← check callee first c with
    | some (false, d) =>
      match ← check callee second (d.restore c.checkpoint) with
      | some (false, e) => return some (false, e.restore c.checkpoint)
      | matched => return matched
    | matched => return matched
  | many body, c => repeatCheck (check callee body) (c.source.size + 1 - c.position) c
  | absent body, c => do
    match ← check callee body c with
    | none => return none
    | some (matched, d) => return some (!matched, d.restore c.checkpoint)
  | rule r body, c => captureCheck (.rule r) (check callee body) c
  | text body, c => captureCheck .text (check callee body) c
  | memo r body, c =>
    match c.remembered? r with
    | some known => return some (← c.checkedReplay known)
    | none => do
      match ← captureCheck (.rule r) (check callee body) c with
      | none => return none
      | some (matched, d) => return some (matched, ← d.checkedRemember r c.checkpoint matched)
  | action a, c => return some (true, ← c.checkedEmit ⟨.action a, c.position, c.position, c.depth⟩)
  | call r, c => callee r c

/-- `Grammar.run` with checks. -/
def Grammar.check (g : Grammar) : (depth : Nat) → Rule → Cursor → Checked Outcome
  | 0, _, _ => return none
  | depth + 1, r, c => (g r).check (g.check depth) c

/-! ## No check fails -/

/-- Checks in a row of which none fails. -/
theorem mapM_eq_ok {α β : Type} {f : α → Checked β} {g : α → β} {as : List α}
    (h : ∀ a ∈ as, f a = .ok (g a)) :
    as.mapM f = .ok (as.map g) := by
  induction as with
  | nil => rfl
  | cons a as ih =>
      obtain ⟨ha, has⟩ := List.forall_mem_cons.1 h
      rw [List.mapM_cons, ha, ih has]
      rfl

/-- A difference of a number and a lesser one passes its check. -/
theorem checkedSub_eq {m n : Nat} (h : n ≤ m) : checkedSub m n = .ok (m - n) :=
  if_pos h

namespace Log

variable {log : Log} {i j : Nat}

/-- Writing an existing slot, or the one after the last, passes its check. -/
theorem checkedRecord_eq (h : i ≤ log.size) (t : Token) :
    log.checkedRecord i t = .ok (log.record i t) :=
  if_pos h

/-- Reading slots passes its check where they are all there. -/
theorem checkedBetween_eq (hij : i ≤ j) (hj : j ≤ log.size) :
    log.checkedBetween i j = .ok (log.between i j) :=
  if_pos ⟨hij, hj⟩

end Log

/-- A snapshot that counts only on slots that were written is saved without a fault. -/
theorem Snapshot.checkedPreserve_eq {s : Snapshot} {log : Log} (h : s.kept ≤ log.size)
    (index : Nat) :
    s.checkedPreserve log index = .ok (s.preserve log index) := by
  unfold checkedPreserve preserve
  split
  · next hlt =>
    rw [Log.checkedBetween_eq hlt.le h]
    rfl
  · rfl

namespace Cursor

variable {c d : Cursor} {w : Derivation}

/-- On a sound cursor a token is recorded without a fault: its slot exists or is the next one, and
the snapshot counts on slots that are there. -/
theorem Sound.checkedEmit_eq (hc : c.Sound) (t : Token) : c.checkedEmit t = .ok (c.emit t) := by
  have hsnapshot : c.snapshot.mapM (·.checkedPreserve c.log c.tokenCount) =
      .ok c.preserve.snapshot := by
    rcases hs : c.snapshot with _ | s
    · simp [preserve, hs]
      rfl
    · simp [preserve, hs, Snapshot.checkedPreserve_eq (hc.kept_le s hs)]
  unfold checkedEmit
  rw [hsnapshot, Log.checkedRecord_eq hc.tokenCount_le]
  rfl

/-- On a sound cursor a remembered outcome is repeated without a fault, token by token. -/
theorem Sound.checkedReplay_eq (hc : c.Sound) (memo : Memo) :
    c.checkedReplay memo = .ok (c.replay memo) := by
  have htokens : ∀ (tokens : List Token) (c : Cursor), c.Sound →
      tokens.foldlM (fun c t => c.checkedEmit { t with depth := t.depth + c.depth }) c =
        .ok (tokens.foldl (fun c t => c.emit { t with depth := t.depth + c.depth }) c) := by
    intro tokens
    induction tokens with
    | nil =>
        intro c hc
        rfl
    | cons t tokens ih =>
        intro c hc
        rw [List.foldlM_cons, hc.checkedEmit_eq]
        exact ih _ (hc.emit _)
  cases memo with
  | failed => rfl
  | matched stop tokens =>
      simp only [checkedReplay, htokens tokens c hc]
      rfl

/-- A capture is one deeper than where it was entered, whatever its body did. -/
theorem Records.checkedLeave_eq {symbol : Symbol} (h : (c.enter symbol).Records w d)
    (matched : Bool) :
    d.checkedLeave symbol c.checkpoint matched = .ok (d.leave symbol c.checkpoint matched) := by
  cases matched with
  | false => rfl
  | true =>
      have hdepth : 1 ≤ d.depth := by
        rw [h.depth_eq]
        exact Nat.le_add_left 1 c.depth
      -- the cursor with the capture closed, before its token is written
      have hclosed :=
        (h.steady.moved d.position (d.depth - 1)
          (d.leave symbol c.checkpoint true).2.openRules).sound
      have hemit := hclosed.checkedEmit_eq ⟨symbol, c.position, d.position, d.depth - 1⟩
      simp only [checkedLeave, if_true, checkedSub_eq hdepth]
      exact congrArg (· >>= fun c => pure (true, c)) hemit

/-- What was recorded since an attempt began is there, and none of it is less deep. -/
theorem Records.checkedRemember_eq (h : c.Records w d) (hc : c.Sound) (r : Rule) (matched : Bool) :
    d.checkedRemember r c.checkpoint matched = .ok (d.remember r c.checkpoint matched) := by
  have hmemo : d.checkedMemoSince c.checkpoint matched =
      .ok (d.memoSince c.checkpoint matched) := by
    cases matched with
    | false => rfl
    | true =>
        have hstretch := Log.checkedBetween_eq (h.tokenCount_le hc) h.steady.sound.tokenCount_le
        have hdeep : ∀ t ∈ d.log.between c.tokenCount d.tokenCount, c.depth ≤ t.depth := by
          rw [h.between_eq hc]
          exact fun t ht => (Derivation.bounds_of_mem_tokens ht).2.2.2
        have hdepth : ∀ t ∈ d.log.between c.tokenCount d.tokenCount,
            (checkedSub t.depth c.depth >>= fun depth =>
              pure { t with depth := depth } : Checked Token) =
              .ok { t with depth := t.depth - c.depth } := by
          intro t ht
          rw [checkedSub_eq (hdeep t ht)]
          rfl
        have hdepths := mapM_eq_ok hdepth
        simp only [checkedMemoSince, if_true, checkpoint, hstretch]
        exact congrArg (· >>= fun tokens => pure (Memo.matched d.position tokens)) hdepths
  unfold checkedRemember
  rw [hmemo]
  rfl

end Cursor

section matching

variable {g : Grammar} {depth : Nat} {p body : Pattern} {c d : Cursor} {matched : Bool}

/-- Whatever a pattern does, a derivation was recorded. -/
theorem Pattern.exists_records (h : p.eval (g.run depth) c = some (matched, d)) (hc : c.Steady) :
    ∃ w, c.Records w d := by
  obtain ⟨sights, hmoves⟩ := exists_moves_of_eval h
  exact hmoves.exists_records hc

/-- With checks the run does from steady cursors what it does without. -/
def ChecksAs (check : Cursor → Checked Outcome) (run : Cursor → Outcome) : Prop :=
  ∀ c, c.Steady → check c = .ok (run c)

variable {callee : Rule → Cursor → Checked Outcome}

/-- If the body of a capture passes its checks, then so does the capture: on the way out the depth
is positive, since nothing inside has left it below where it was entered. -/
theorem ChecksAs.captureCheck (hbody : ChecksAs (body.check callee) (body.eval (g.run depth)))
    (symbol : Symbol) :
    ChecksAs (captureCheck symbol (body.check callee))
      (captureMatch symbol (body.eval (g.run depth))) := by
  intro c hc
  unfold RiftLang.captureCheck captureMatch
  rw [hbody _ (hc.enter symbol)]
  rcases hrun : body.eval (g.run depth) (c.enter symbol) with _ | ⟨matched, d⟩
  · rfl
  · obtain ⟨w, hw⟩ := Pattern.exists_records hrun (hc.enter symbol)
    have hleave := hw.checkedLeave_eq matched
    exact congrArg (· >>= fun result => pure (some result)) hleave

/-- If the body of a repetition passes its checks, then so does every round. -/
theorem ChecksAs.repeatCheck (hbody : ChecksAs (body.check callee) (body.eval (g.run depth)))
    (budget : Nat) :
    ChecksAs (repeatCheck (body.check callee) budget)
      (repeatMatch (body.eval (g.run depth)) budget) := by
  induction budget with
  | zero =>
      intro c hc
      rfl
  | succ budget ih =>
      intro c hc
      unfold RiftLang.repeatCheck repeatMatch
      rw [hbody c hc]
      rcases hrun : body.eval (g.run depth) c with _ | ⟨_ | _, d⟩
      · rfl
      · rfl
      · obtain ⟨w, hw⟩ := Pattern.exists_records hrun hc
        show (if d.position = c.position then pure (some (true, d)) else _) =
          Except.ok (if d.position = c.position then some (true, d) else _)
        by_cases hstop : d.position = c.position
        · rw [if_pos hstop, if_pos hstop]
          rfl
        · rw [if_neg hstop, if_neg hstop]
          exact ih d hw.steady

/-- From a steady cursor no check fails, whatever the pattern, if none fails in the rules that it
calls. -/
theorem Pattern.check_eq (hcallee : ∀ r, ChecksAs (callee r) (g.run depth r)) (p : Pattern) :
    ChecksAs (p.check callee) (p.eval (g.run depth)) := by
  induction p with
  | succeed =>
      intro c hc
      rfl
  | one test =>
      intro c hc
      rfl
  | both first second ihf ihs =>
      intro c hc
      unfold check eval
      rw [ihf c hc]
      rcases hfirst : first.eval (g.run depth) c with _ | ⟨_ | _, d⟩
      · rfl
      · rfl
      · obtain ⟨w, hw⟩ := exists_records hfirst hc
        exact ihs d hw.steady
  | either first second ihf ihs =>
      intro c hc
      unfold check eval
      rw [ihf c hc]
      rcases hfirst : first.eval (g.run depth) c with _ | ⟨_ | _, d⟩
      · rfl
      · obtain ⟨w, hw⟩ := exists_records hfirst hc
        have hsecond := ihs _ (hw.restore hc.sound).steady
        show (second.check callee (d.restore c.checkpoint) >>= _) = _
        rw [hsecond]
        dsimp only
        rcases second.eval (g.run depth) (d.restore c.checkpoint) with _ | ⟨_ | _, e⟩
        · rfl
        · rfl
        · rfl
      · rfl
  | many body ih =>
      intro c
      exact ih.repeatCheck _ c
  | absent body ih =>
      intro c hc
      unfold check eval
      rw [ih c hc]
      rcases body.eval (g.run depth) c with _ | ⟨matched, d⟩
      · rfl
      · rfl
  | rule r body ih => exact ih.captureCheck (.rule r)
  | text body ih => exact ih.captureCheck .text
  | memo r body ih =>
      intro c hc
      unfold check eval
      rcases hknown : c.remembered? r with _ | known
      · show (RiftLang.captureCheck (.rule r) (body.check callee) c >>= _) = _
        rw [ih.captureCheck (.rule r) c hc]
        dsimp only
        rcases hcapture : captureMatch (.rule r) (body.eval (g.run depth)) c with _ | ⟨matched, d⟩
        · rfl
        · obtain ⟨w, hw⟩ := exists_records (p := .rule r body) hcapture hc
          have hremember := hw.checkedRemember_eq hc.sound r matched
          exact congrArg (· >>= fun d => pure (some (matched, d))) hremember
      · exact congrArg (· >>= fun result => pure (some result)) (hc.sound.checkedReplay_eq known)
  | action a =>
      intro c hc
      exact congrArg (· >>= fun d => pure (some (true, d))) (hc.sound.checkedEmit_eq _)
  | call r => exact hcallee r

/-- From a steady cursor no check fails in a rule. -/
theorem Grammar.check_eq (g : Grammar) (depth : Nat) (r : Rule) :
    ChecksAs (g.check depth r) (g.run depth r) := by
  induction depth generalizing r with
  | zero =>
      intro c hc
      rfl
  | succ depth ih => exact (g r).check_eq ih

end matching

end RiftLang
