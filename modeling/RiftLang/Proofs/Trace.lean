import RiftLang.Cursor.Match
import RiftLang.Proofs.Cursor.View

/-!
# Traces of patterns

What a pattern does from an offset of a source depends on nothing else: not on the depth, the tokens
already recorded, the open rules or earlier attempts. A trace is that doing, said once for all
contexts.

* `Trace` — whether the pattern matched, where it stopped, the tokens it left and the looks it took
  on the way; depths are relative to where it began.
* `Pattern.trace` — the trace of a pattern, where a remembered rule is matched like any other.
  `Grammar.trace` bounds the nesting of calls as `Grammar.run` does, and `Traces` drops the bound.
* `View.follow` — what a trace does to a view.
* `follow_andThen`, `follow_rewind`, `follow_skip` — the operations on traces, said of views.
* `Trace.frontier` — the frontier of a trace from a fresh cursor.

That matching follows traces is the matter of `Proofs.Trace.Matching`.
-/

namespace RiftLang

/-! ## Relative depths -/

/-- The token, recorded deeper. -/
def Token.deepen (d : Nat) (t : Token) : Token :=
  { t with depth := t.depth + d }

/-- The open rule, entered deeper. -/
def OpenRule.deepen (d : Nat) (r : OpenRule) : OpenRule :=
  { r with depth := r.depth + d }

/-- Deeper and deeper again is deeper by both. -/
@[simp] theorem Token.deepen_comp_deepen (d e : Nat) :
    Token.deepen d ∘ Token.deepen e = Token.deepen (e + d) := by
  funext t
  simp [Token.deepen, Nat.add_assoc]

/-- Deeper and deeper again is deeper by both. -/
@[simp] theorem OpenRule.deepen_comp_deepen (d e : Nat) :
    OpenRule.deepen d ∘ OpenRule.deepen e = OpenRule.deepen (e + d) := by
  funext r
  simp [OpenRule.deepen, Nat.add_assoc]

/-! ## Traces -/

/-- A look at an offset, and what was open and recorded since the attempt began. -/
structure Look where
  /-- The offset looked at. -/
  offset : Nat
  /-- The rules opened since, innermost first. -/
  openRules : List OpenRule
  /-- The tokens recorded since and still live. -/
  tokens : List Token

namespace Look

/-- The look, after these tokens. -/
def after (tokens : List Token) (l : Look) : Look :=
  { l with tokens := tokens ++ l.tokens }

/-- The look, inside a capture that began at `start`. -/
def within (symbol : Symbol) (start : Nat) (l : Look) : Look where
  offset := l.offset
  openRules := l.openRules.map (.deepen 1) ++
    match symbol.rule? with
    | some r => [⟨r, start, 0⟩]
    | none => []
  tokens := l.tokens.map (.deepen 1)

end Look

/-- What a pattern does from an offset. -/
structure Trace where
  /-- Did it match? -/
  matched : Bool
  /-- Where it stopped. -/
  stop : Nat
  /-- The tokens it left. -/
  tokens : List Token
  /-- The looks it took. -/
  looks : List Look

namespace Trace

/-- A match of nothing at `p`. -/
def skip (p : Nat) : Trace :=
  ⟨true, p, [], []⟩

/-- A look at the character at `p`, consumed if it passes the test. -/
def step (source : Array Char) (test : Char → Bool) (p : Nat) : Trace :=
  let passed := source[p]?.any test
  ⟨passed, if passed then p + 1 else p, [], [⟨p, [], []⟩]⟩

/-- A token for an action. -/
def act (a : Action) (p : Nat) : Trace :=
  ⟨true, p, [⟨.action a, p, p, 0⟩], []⟩

/-- The second trace after the first. -/
def andThen (t u : Trace) : Trace :=
  ⟨u.matched, u.stop, t.tokens ++ u.tokens, t.looks ++ u.looks.map (.after t.tokens)⟩

/-- The trace, put back to where it began. The looks remain. -/
def rewind (p : Nat) (t : Trace) : Trace :=
  { t with stop := p, tokens := [] }

/-- The trace, put back if it failed. -/
def settle (p : Nat) (t : Trace) : Trace :=
  if t.matched then t else t.rewind p

/-- The trace with another verdict. -/
def withVerdict (matched : Bool) (t : Trace) : Trace :=
  { t with matched := matched }

/-- The trace as the inside of a capture: a match is recorded, a failure put back. -/
def inside (symbol : Symbol) (p : Nat) (t : Trace) : Trace where
  matched := t.matched
  stop := if t.matched then t.stop else p
  tokens := if t.matched then t.tokens.map (.deepen 1) ++ [⟨symbol, p, t.stop, 0⟩] else []
  looks := t.looks.map (.within symbol p)

/-- What to remember of an attempt. -/
def memo (t : Trace) : Memo :=
  if t.matched then .matched t.stop t.tokens else .failed

/-- Matching nothing always matches. -/
@[simp] theorem matched_skip (p : Nat) : (skip p).matched = true := rfl

/-- Matching nothing moves nowhere. -/
@[simp] theorem stop_skip (p : Nat) : (skip p).stop = p := rfl

/-- Of two traces in a row, the second decides. -/
@[simp] theorem matched_andThen (t u : Trace) : (t.andThen u).matched = u.matched := rfl

/-- Two traces in a row end where the second ends. -/
@[simp] theorem stop_andThen (t u : Trace) : (t.andThen u).stop = u.stop := rfl

/-- Putting a trace back does not change its verdict. -/
@[simp] theorem matched_rewind (p : Nat) (t : Trace) : (t.rewind p).matched = t.matched := rfl

/-- A trace that was put back ends where it began. -/
@[simp] theorem stop_rewind (p : Nat) (t : Trace) : (t.rewind p).stop = p := rfl

/-- A capture matches where its body does. -/
@[simp] theorem matched_inside (s : Symbol) (p : Nat) (t : Trace) :
    (t.inside s p).matched = t.matched := rfl

/-- A trace that matched is kept. -/
theorem settle_of_matched {t : Trace} (h : t.matched = true) (p : Nat) : t.settle p = t :=
  if_pos h

/-- A trace that failed is put back. -/
theorem settle_of_failed {t : Trace} (h : t.matched = false) (p : Nat) :
    t.settle p = t.rewind p := by
  simp [settle, h]

/-- Putting a trace back drops none of its looks. -/
@[simp] theorem looks_settle (t : Trace) (p : Nat) : (t.settle p).looks = t.looks := by
  unfold settle
  split <;> rfl

/-! A look, a capture and an alternative stop ahead or where they began. What holds of both holds of
where they stop. -/

section stop

variable {P : Nat → Prop} {t : Trace} {p : Nat}

/-- What holds where a character is read, and past it if it passes, holds where reading it ends. -/
theorem stop_step_of {source : Array Char} {test : Char → Bool}
    (hpassed : source[p]?.any test = true → P (p + 1)) (hp : P p) :
    P (step source test p).stop := by
  unfold step
  dsimp only
  split
  next h => exact hpassed h
  next => exact hp

/-- What holds where a capture begins and where its body ends holds where the capture ends. -/
theorem stop_inside_of (ht : P t.stop) (hp : P p) (symbol : Symbol) :
    P (t.inside symbol p).stop := by
  unfold inside
  dsimp only
  split
  · exact ht
  · exact hp

/-- What holds where a trace begins and where it ends holds where it ends once settled. -/
theorem stop_settle_of (ht : P t.stop) (hp : P p) : P (t.settle p).stop := by
  unfold settle
  split
  · exact ht
  · exact hp

end stop

end Trace

/-! ## The trace of a pattern -/

/-- The trace of a repetition of `body`, at most `budget` times. -/
def repeatTrace (body : Nat → Option Trace) : (budget : Nat) → Nat → Option Trace
  | 0, p => some (.skip p)
  | budget + 1, p =>
    (body p).bind fun t =>
      if t.matched then
        if t.stop = p then some t else (repeatTrace body budget t.stop).map t.andThen
      else
        some ((t.rewind p).withVerdict true)

namespace Pattern

/-- What a pattern does from an offset, where `callee` says what a called rule does. -/
def trace (source : Array Char) (callee : Rule → Nat → Option Trace) : Pattern → Nat → Option Trace
  | succeed, p => some (.skip p)
  | one test, p => some (.step source test p)
  | both first second, p =>
    (trace source callee first p).bind fun t =>
      if t.matched then (trace source callee second t.stop).map t.andThen else some t
  | either first second, p =>
    (trace source callee first p).bind fun t =>
      if t.matched then some t
      else (trace source callee second p).map fun u => (t.rewind p).andThen (u.settle p)
  | many body, p => repeatTrace (trace source callee body) (source.size + 1 - p) p
  | absent body, p =>
    (trace source callee body p).map fun t => (t.rewind p).withVerdict (!t.matched)
  | rule r body, p => (trace source callee body p).map (.inside (.rule r) p)
  | text body, p => (trace source callee body p).map (.inside .text p)
  | memo r body, p => (trace source callee body p).map (.inside (.rule r) p)
  | action a, p => some (.act a p)
  | call r, p => callee r p

end Pattern

/-- What a rule does from an offset, when calls may nest at most `depth` deep. -/
def Grammar.trace (g : Grammar) (source : Array Char) : (depth : Nat) → Rule → Nat → Option Trace
  | 0, _, _ => none
  | depth + 1, r, p => (g r).trace source (g.trace source depth) p

/-- The pattern does this from offset `p`, however deep calls have to nest. -/
def Traces (g : Grammar) (source : Array Char) (pattern : Pattern) (p : Nat) (t : Trace) : Prop :=
  ∃ depth, pattern.trace source (g.trace source depth) p = some t

/-! ### More calls change nothing -/

section mono

variable {source : Array Char}

/-- If a trace function agrees with another wherever that one is defined, then so do their
repetitions. -/
theorem repeatTrace_mono {f g : Nat → Option Trace} (h : ∀ p t, f p = some t → g p = some t)
    {budget p : Nat} {t : Trace} (ht : repeatTrace f budget p = some t) :
    repeatTrace g budget p = some t := by
  induction budget generalizing p t with
  | zero => exact ht
  | succ budget ih =>
      obtain ⟨u, hu, ht⟩ := Option.bind_eq_some_iff.1 ht
      refine Option.bind_eq_some_iff.2 ⟨u, h p u hu, ?_⟩
      split_ifs at ht ⊢
      · exact ht
      · obtain ⟨w, hw, rfl⟩ := Option.map_eq_some_iff.1 ht
        exact Option.map_eq_some_iff.2 ⟨w, ih hw, rfl⟩
      · exact ht

/-- A callee that tells more gives the same trace where there was one. -/
theorem Pattern.trace_mono {f g : Rule → Nat → Option Trace}
    (h : ∀ r p t, f r p = some t → g r p = some t) (pattern : Pattern) {p : Nat} {t : Trace}
    (ht : pattern.trace source f p = some t) : pattern.trace source g p = some t := by
  induction pattern generalizing p t with
  | succeed => exact ht
  | one test => exact ht
  | both first second ih₁ ih₂ =>
      obtain ⟨u, hu, ht⟩ := Option.bind_eq_some_iff.1 ht
      refine Option.bind_eq_some_iff.2 ⟨u, ih₁ hu, ?_⟩
      split_ifs at ht ⊢
      · obtain ⟨w, hw, rfl⟩ := Option.map_eq_some_iff.1 ht
        exact Option.map_eq_some_iff.2 ⟨w, ih₂ hw, rfl⟩
      · exact ht
  | either first second ih₁ ih₂ =>
      obtain ⟨u, hu, ht⟩ := Option.bind_eq_some_iff.1 ht
      refine Option.bind_eq_some_iff.2 ⟨u, ih₁ hu, ?_⟩
      split_ifs at ht ⊢
      · exact ht
      · obtain ⟨w, hw, rfl⟩ := Option.map_eq_some_iff.1 ht
        exact Option.map_eq_some_iff.2 ⟨w, ih₂ hw, rfl⟩
  | many body ih => exact repeatTrace_mono (fun _ _ => ih) ht
  | absent body ih | rule _ body ih | text body ih | memo _ body ih =>
      obtain ⟨u, hu, rfl⟩ := Option.map_eq_some_iff.1 ht
      exact Option.map_eq_some_iff.2 ⟨u, ih hu, rfl⟩
  | action a => exact ht
  | call r => exact h r p t ht

/-- A trace found with calls nested so deep is found with calls nested deeper. -/
theorem Grammar.trace_mono (g : Grammar) {m n : Nat} (hmn : m ≤ n) {r : Rule} {p : Nat} {t : Trace}
    (h : g.trace source m r p = some t) : g.trace source n r p = some t := by
  induction m generalizing n r p t with
  | zero => exact absurd h (by simp [Grammar.trace])
  | succ m ih =>
      obtain ⟨n, rfl⟩ : ∃ k, n = k + 1 := ⟨n - 1, by omega⟩
      exact (g r).trace_mono (fun _ _ _ => ih (by omega)) h

variable {g : Grammar} {pattern : Pattern} {p : Nat} {t u : Trace}

/-- A trace is found from some depth of calls on. -/
theorem Traces.exists_depth_le (h : Traces g source pattern p t) :
    ∃ n, ∀ m, n ≤ m → pattern.trace source (g.trace source m) p = some t :=
  let ⟨n, hn⟩ := h
  ⟨n, fun _ hm => pattern.trace_mono (fun _ _ _ => g.trace_mono hm) hn⟩

/-- A pattern does one thing from an offset. -/
theorem Traces.unique (ht : Traces g source pattern p t) (hu : Traces g source pattern p u) :
    t = u := by
  obtain ⟨m, hm⟩ := ht.exists_depth_le
  obtain ⟨n, hn⟩ := hu.exists_depth_le
  exact Option.some.inj ((hm _ (Nat.le_max_left m n)).symm.trans (hn _ (Nat.le_max_right m n)))

end mono

/-! ### Traces of larger patterns from those of their parts -/

section parts

variable {g : Grammar} {source : Array Char} {first second body : Pattern} {p : Nat} {t u : Trace}

/-- In a row, a trace that matched goes on with that of the second pattern. -/
theorem Traces.both_of_matched (ht : Traces g source first p t) (hm : t.matched = true)
    (hu : Traces g source second t.stop u) :
    Traces g source (.both first second) p (t.andThen u) := by
  obtain ⟨m, hm'⟩ := ht.exists_depth_le
  obtain ⟨n, hn⟩ := hu.exists_depth_le
  refine ⟨max m n, Option.bind_eq_some_iff.2 ⟨t, hm' _ (Nat.le_max_left m n), ?_⟩⟩
  rw [if_pos hm]
  exact Option.map_eq_some_iff.2 ⟨u, hn _ (Nat.le_max_right m n), rfl⟩

/-- In a row, a trace that failed is the end, and what it has consumed is not put back. -/
theorem Traces.both_of_failed (ht : Traces g source first p t) (hm : t.matched = false) :
    Traces g source (.both first second) p t := by
  obtain ⟨m, hm'⟩ := ht
  refine ⟨m, Option.bind_eq_some_iff.2 ⟨t, hm', ?_⟩⟩
  rw [hm]
  rfl

/-- A choice takes the trace of its first branch if that matched. -/
theorem Traces.either_of_matched (ht : Traces g source first p t) (hm : t.matched = true) :
    Traces g source (.either first second) p t := by
  obtain ⟨m, hm'⟩ := ht
  refine ⟨m, Option.bind_eq_some_iff.2 ⟨t, hm', ?_⟩⟩
  rw [if_pos hm]

/-- If it failed, it is put back, and the second branch is tried from there. -/
theorem Traces.either_of_failed (ht : Traces g source first p t) (hm : t.matched = false)
    (hu : Traces g source second p u) :
    Traces g source (.either first second) p ((t.rewind p).andThen (u.settle p)) := by
  obtain ⟨m, hm'⟩ := ht.exists_depth_le
  obtain ⟨n, hn⟩ := hu.exists_depth_le
  refine ⟨max m n, Option.bind_eq_some_iff.2 ⟨t, hm' _ (Nat.le_max_left m n), ?_⟩⟩
  rw [hm]
  exact Option.map_eq_some_iff.2 ⟨u, hn _ (Nat.le_max_right m n), rfl⟩

/-- The absence of a pattern puts its trace back, and turns the verdict round. -/
theorem Traces.absent (ht : Traces g source body p t) :
    Traces g source (.absent body) p ((t.rewind p).withVerdict (!t.matched)) := by
  obtain ⟨m, hm⟩ := ht
  exact ⟨m, Option.map_eq_some_iff.2 ⟨t, hm, rfl⟩⟩

/-- A rule has the trace of its body, inside its capture. -/
theorem Traces.rule (r : Rule) (ht : Traces g source body p t) :
    Traces g source (.rule r body) p (t.inside (.rule r) p) := by
  obtain ⟨m, hm⟩ := ht
  exact ⟨m, Option.map_eq_some_iff.2 ⟨t, hm, rfl⟩⟩

/-- A captured text has the trace of its body, inside its capture. -/
theorem Traces.text (ht : Traces g source body p t) :
    Traces g source (.text body) p (t.inside .text p) := by
  obtain ⟨m, hm⟩ := ht
  exact ⟨m, Option.map_eq_some_iff.2 ⟨t, hm, rfl⟩⟩

/-- A call has the traces of what the grammar says the rule is. -/
theorem traces_call_iff {r : Rule} :
    Traces g source (.call r) p t ↔ Traces g source (g r) p t := by
  constructor
  · rintro ⟨_ | n, hn⟩
    · cases hn
    · exact ⟨n, hn⟩
  · rintro ⟨n, hn⟩
    exact ⟨n + 1, hn⟩

end parts

/-! ## What a trace does to a view -/

namespace View

/-- The frontier after a look, in a context that shows as `v`. -/
def note (v : View) (frontier : Option Frontier) (l : Look) : Option Frontier :=
  Frontier.reach frontier l.offset (l.openRules.map (.deepen v.depth) ++ v.openRules)
    (v.live ++ l.tokens.map (.deepen v.depth))

/-- The view after a trace. -/
def follow (v : View) (t : Trace) : View where
  position := t.stop
  depth := v.depth
  live := v.live ++ t.tokens.map (.deepen v.depth)
  openRules := v.openRules
  frontier := t.looks.foldl v.note v.frontier

variable (v : View) (t u : Trace)

/-- A trace leads to where it ends. -/
@[simp] theorem position_follow : (v.follow t).position = t.stop := rfl

/-- A trace comes back to the depth where it began. -/
@[simp] theorem depth_follow : (v.follow t).depth = v.depth := rfl

/-- A trace closes the rules that it opens. -/
@[simp] theorem openRules_follow : (v.follow t).openRules = v.openRules := rfl

/-- Looks at offsets already reached leave the frontier as it is. -/
theorem foldl_note_of_hasReached {frontier : Option Frontier} {looks : List Look}
    (h : ∀ l ∈ looks, Frontier.HasReached frontier l.offset) :
    looks.foldl v.note frontier = frontier := by
  induction looks with
  | nil => rfl
  | cons l looks ih =>
      have hl : v.note frontier l = frontier :=
        Frontier.reach_of_hasReached (h l List.mem_cons_self) _ _
      rw [List.foldl_cons, hl]
      exact ih fun k hk => h k (List.mem_cons_of_mem l hk)

/-- An offset that was reached stays reached. -/
theorem hasReached_foldl_note {frontier : Option Frontier} {k : Nat}
    (h : Frontier.HasReached frontier k) (looks : List Look) :
    Frontier.HasReached (looks.foldl v.note frontier) k := by
  induction looks generalizing frontier with
  | nil => exact h
  | cons l looks ih => exact ih (h.reach _ _ _)

/-- After a look its offset is reached. -/
theorem hasReached_foldl_note_of_mem {frontier : Option Frontier} {looks : List Look} {l : Look}
    (h : l ∈ looks) : Frontier.HasReached (looks.foldl v.note frontier) l.offset := by
  induction looks generalizing frontier with
  | nil => cases h
  | cons k looks ih =>
      rcases List.mem_cons.1 h with rfl | h
      · exact v.hasReached_foldl_note (Frontier.hasReached_reach _ _ _ _) looks
      · exact ih h

/-- A view follows one trace and then another as it follows both in a row. -/
theorem follow_andThen : v.follow (t.andThen u) = (v.follow t).follow u := by
  have hnote : (fun f l => v.note f (Look.after t.tokens l)) = (v.follow t).note := by
    funext f l
    simp [note, Look.after, follow, List.map_append, List.append_assoc]
  ext1
  · rfl
  · rfl
  · simp [follow, Trace.andThen]
  · rfl
  · show (t.looks ++ u.looks.map (Look.after t.tokens)).foldl v.note v.frontier = _
    rw [List.foldl_append, List.foldl_map, hnote]
    rfl

/-- Rewinding a trace puts position and tokens back. -/
theorem follow_rewind :
    v.follow (t.rewind v.position) =
      { v.follow t with position := v.position, live := v.live } := by
  ext1 <;> simp [follow, Trace.rewind]

/-- Nothing happens along a skip. -/
theorem follow_skip : v.follow (.skip v.position) = v := by
  simp [follow, Trace.skip]

end View

/-- The frontier that the trace leaves on a fresh cursor. -/
def Trace.frontier (t : Trace) : Frontier :=
  (View.follow ⟨0, 0, [], [], none⟩ t).frontier.getD .empty

/-- No look of the trace is past its frontier. -/
theorem Trace.offset_le_frontier {t : Trace} {l : Look} (h : l ∈ t.looks) :
    l.offset ≤ t.frontier.offset := by
  obtain ⟨f, hf, hle⟩ :
      Frontier.HasReached (View.follow ⟨0, 0, [], [], none⟩ t).frontier l.offset :=
    View.hasReached_foldl_note_of_mem _ h
  unfold Trace.frontier
  rw [hf]
  exact hle

end RiftLang
