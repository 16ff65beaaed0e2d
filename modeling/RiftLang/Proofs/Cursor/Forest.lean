import RiftLang.Proofs.Cursor.Course
import RiftLang.Proofs.Cursor.Growth

/-!
# Forests of tokens

The tokens that a pattern over any grammar records, matched or not, form an ordered forest in
post-order.

* `IsForest` — trees at one depth, one after the other within a span, each token after the forest
  inside it.
* `Derivation.IsPlain` — captures are of rules and of texts, so the tokens of actions are leaves.
  `isForest_tokens` — then the tokens are a forest.
* `Cursor.Rooted` — what is remembered of a match of a rule is one tree with the rule at its root.
* `Cursor.Plants` — between two cursors a plain derivation was recorded. `Pattern.grows` — so it is
  for every pattern, and `Ends.exists_tree` — a rule that matches records one tree, also where it is
  repeated from memory.
-/

namespace RiftLang

/-! ## Forests -/

/-- The tokens are trees at this depth in post-order, one after the other within the span from `low`
to `high`. -/
inductive IsForest : (depth low high : Nat) → List Token → Prop where
  /-- No tree at all. -/
  | nil {depth low high : Nat} (h : low ≤ high) : IsForest depth low high []
  /-- Trees and after them an action, which is a leaf without width. -/
  | action {depth low high p : Nat} {before : List Token} (hbefore : IsForest depth low p before)
    (a : Action) (hp : p ≤ high) :
      IsForest depth low high (before ++ [⟨.action a, p, p, depth⟩])
  /-- Trees and after them one more, whose token follows the forest inside it. -/
  | tree {depth low high start stop : Nat} {before inside : List Token} {symbol : Symbol}
    (hbefore : IsForest depth low start before) (hinside : IsForest (depth + 1) start stop inside)
    (hsymbol : symbol.isAction = false) (hstop : stop ≤ high) :
      IsForest depth low high (before ++ inside ++ [⟨symbol, start, stop, depth⟩])

namespace IsForest

variable {depth low mid high : Nat} {tokens later : List Token}

/-- Trees lie one after the other in a span that is not reversed. -/
theorem low_le_high (h : IsForest depth low high tokens) : low ≤ high := by
  induction h with
  | nil h => exact h
  | action _ _ hp ih => exact ih.trans hp
  | tree _ _ _ hstop ih ih' => exact ih.trans (ih'.trans hstop)

/-- One forest after another. -/
theorem append (h : IsForest depth low mid tokens) (h' : IsForest depth mid high later) :
    IsForest depth low high (tokens ++ later) := by
  induction h' generalizing tokens with
  | nil hle =>
      rw [List.append_nil]
      cases h with
      | nil h => exact .nil (h.trans hle)
      | action hbefore a hp => exact .action hbefore a (hp.trans hle)
      | tree hbefore hinside hsymbol hstop => exact .tree hbefore hinside hsymbol (hstop.trans hle)
  | action _ a hp ih =>
      rw [← List.append_assoc]
      exact .action (ih h) a hp
  | tree _ hinside hsymbol hstop ih _ =>
      rw [← List.append_assoc, ← List.append_assoc]
      exact .tree (ih h) hinside hsymbol hstop

/-- The tokens of a forest lie within its span, at its depth or deeper. -/
theorem bounds (h : IsForest depth low high tokens) :
    ∀ t ∈ tokens, low ≤ t.start ∧ t.start ≤ t.stop ∧ t.stop ≤ high ∧ depth ≤ t.depth := by
  induction h with
  | nil _ => simp
  | action hbefore a hp ih =>
      intro t ht
      rcases List.mem_append.1 ht with ht | ht
      · obtain ⟨hlow, hspan, hstop, hdepth⟩ := ih t ht
        exact ⟨hlow, hspan, hstop.trans hp, hdepth⟩
      · obtain rfl := List.mem_singleton.1 ht
        exact ⟨hbefore.low_le_high, Nat.le_refl _, hp, Nat.le_refl _⟩
  | tree hbefore hinside _ hstop ih ih' =>
      have hlow := hbefore.low_le_high
      have hspan := hinside.low_le_high
      intro t ht
      rcases List.mem_append.1 ht with ht | ht
      · rcases List.mem_append.1 ht with ht | ht
        · have := ih t ht
          omega
        · have := ih' t ht
          omega
      · obtain rfl := List.mem_singleton.1 ht
        exact ⟨hlow, hspan, hstop, Nat.le_refl _⟩

end IsForest

namespace Derivation

/-- What is captured are rules and texts. -/
def IsPlain : Derivation → Prop
  | leaf _ | action _ => True
  | append first second => first.IsPlain ∧ second.IsPlain
  | capture symbol body => symbol.isAction = false ∧ body.IsPlain

/-- The tokens of a plain derivation are a forest as wide as the derivation. -/
theorem isForest_tokens {d : Derivation} (hd : d.IsPlain) (start depth : Nat) :
    IsForest depth start (start + d.width) (d.tokens start depth) := by
  induction d generalizing start depth with
  | leaf cs => exact .nil (Nat.le_add_right _ _)
  | action a => exact .action (.nil (Nat.le_refl start)) a (Nat.le_refl _)
  | append d e ihd ihe =>
      rw [width_append, ← Nat.add_assoc]
      exact (ihd hd.1 start depth).append (ihe hd.2 _ depth)
  | capture symbol d ih =>
      exact .tree (.nil (Nat.le_refl start)) (ih hd.2 start (depth + 1)) hd.1 (Nat.le_refl _)

end Derivation

/-! ## Recording -/

namespace Cursor

variable {c c' c'' : Cursor} {d e : Derivation}

/-- What is remembered of a match of a rule is one tree with the rule at its root. -/
structure Rooted (c : Cursor) : Prop where
  /-- What is remembered are derivations. -/
  steady : c.Steady
  /-- They are captures of the rule, with a plain inside. -/
  recalls : ∀ r k stop tokens, (c.memos.getD k []).lookup r = some (.matched stop tokens) →
    ∃ body : Derivation, body.IsPlain ∧ stop = k + body.width ∧
      tokens = (Derivation.capture (.rule r) body).tokens k 0

/-- From `c` to `c'` a plain derivation was recorded, and what is remembered are still trees of
rules. -/
structure Plants (c : Cursor) (d : Derivation) (c' : Cursor) : Prop where
  /-- The derivation was recorded. -/
  records : c.Records d c'
  /-- It is plain. -/
  isPlain : d.IsPlain
  /-- What is remembered is still rooted. -/
  rooted : c'.Rooted

/-- A fresh cursor remembers nothing that might not be a tree. -/
theorem rooted_ofChars (source : Array Char) (capacity : Nat) :
    (ofChars source capacity).Rooted where
  steady := steady_ofChars source capacity
  recalls r k stop tokens h := by
    rw [getD_memos_ofChars] at h
    cases h

/-- Steps that leave the memory alone keep it as it is. -/
theorem Rooted.plants (hc : c.Rooted) (h : c.Records d c') (hmemos : c'.memos = c.memos)
    (hd : d.IsPlain) :
    c.Plants d c' where
  records := h
  isPlain := hd
  rooted := by
    refine ⟨h.steady, fun r k stop tokens hlookup => ?_⟩
    rw [hmemos] at hlookup
    exact hc.recalls r k stop tokens hlookup

/-- Doing nothing plants nothing. -/
theorem Rooted.plants_nothing (hc : c.Rooted) : c.Plants (.leaf []) c :=
  hc.plants hc.steady.records_nothing rfl trivial

/-- What is planted in two stretches is planted in a row. -/
theorem Plants.trans (h : c.Plants d c') (h' : c'.Plants e c'') : c.Plants (d.append e) c'' :=
  ⟨h.records.trans h'.records, ⟨h.isPlain, h'.isPlain⟩, h'.rooted⟩

/-- Reading a character plants no tree, though it may move the position. -/
theorem Rooted.exists_plants_step (hc : c.Rooted) (test : Char → Bool) :
    ∃ d, c.Plants d (c.step test).2 := by
  obtain ⟨cs, hcs⟩ := hc.steady.exists_records_step test
  exact ⟨_, hc.plants hcs (c.memos_step test) trivial⟩

/-- Going back to where a stretch began drops what was planted in it and keeps what was
remembered. -/
theorem Plants.restore (h : c.Plants d c') (hc : c.Rooted) :
    c.Plants (.leaf []) (c'.restore c.checkpoint) := by
  have hback := h.records.restore hc.steady.sound
  exact ⟨hback, trivial, hback.steady, h.rooted.recalls⟩

/-- Entering a capture leaves what is remembered as it is. -/
theorem Rooted.enter (hc : c.Rooted) (symbol : Symbol) : (c.enter symbol).Rooted :=
  ⟨hc.steady.enter symbol, hc.recalls⟩

/-- Leaving a capture that matched plants a tree. -/
theorem Plants.leave_true {symbol : Symbol} (h : (c.enter symbol).Plants d c')
    (hs : symbol.isAction = false) :
    c.Plants (.capture symbol d) (c'.leave symbol c.checkpoint true).2 := by
  have hleave := h.records.leave_true
  exact ⟨hleave, ⟨hs, h.isPlain⟩, hleave.steady, h.rooted.recalls⟩

/-- A capture that failed has planted nothing. -/
theorem Plants.leave_false {symbol : Symbol} (h : (c.enter symbol).Plants d c') (hc : c.Rooted) :
    c.Plants (.leaf []) (c'.leave symbol c.checkpoint false).2 := by
  have hleave := h.records.leave_false hc.steady
  exact ⟨hleave, trivial, hleave.steady, h.rooted.recalls⟩

/-- Repeating a remembered match of a rule plants one tree, with the rule at its root. -/
theorem Rooted.exists_plants_replay (hc : c.Rooted) {r : Rule} {stop : Nat} {tokens : List Token}
    (h : c.remembered? r = some (.matched stop tokens)) :
    ∃ body, c.Plants (.capture (.rule r) body) (c.replay (.matched stop tokens)).2 := by
  obtain ⟨body, hbody, rfl, rfl⟩ := hc.recalls r c.position stop tokens h
  exact ⟨body, hc.plants (hc.steady.records_replay _) (memos_foldl_emit _ _) ⟨rfl, hbody⟩⟩

/-- A match of a rule is remembered as the tree that it planted. -/
theorem Plants.remember {r : Rule} (h : c.Plants (.capture (.rule r) d) c') (hc : c.Rooted) :
    c.Plants (.capture (.rule r) d) (c'.remember r c.checkpoint true) := by
  have hrecords := h.records.remember hc.steady.sound r true
  refine ⟨hrecords, h.isPlain, hrecords.steady, fun r' k stop tokens hlookup => ?_⟩
  rcases lookup_note hlookup with ⟨rfl, rfl, hnew⟩ | hold
  · rw [h.records.memoSince_eq hc.steady.sound] at hnew
    cases hnew
    exact ⟨d, h.isPlain.2, rfl, rfl⟩
  · exact h.rooted.recalls r' k stop tokens hold

/-- To remember a failure plants nothing new, and no tree has to be shown for it. -/
theorem Plants.remember_false (h : c.Plants d c') (hc : c.Rooted) (r : Rule) :
    c.Plants d (c'.remember r c.checkpoint false) := by
  have hrecords := h.records.remember hc.steady.sound r false
  refine ⟨hrecords, h.isPlain, hrecords.steady, fun r' k stop tokens hlookup => ?_⟩
  rcases lookup_note hlookup with ⟨-, -, hnew⟩ | hold
  · cases hnew
  · exact h.rooted.recalls r' k stop tokens hold

end Cursor

/-! ## Patterns -/

section patterns

variable {c c' : Cursor} {matched : Bool} {run : Cursor → Outcome}

/-- Where the run ends, a plain derivation was recorded. -/
def Grows (run : Cursor → Outcome) : Prop :=
  ∀ c matched c', c.Rooted → run c = some (matched, c') → ∃ d, c.Plants d c'

/-- A capture that matches plants one tree, and one that fails plants nothing. -/
theorem Grows.captureMatch (hrun : Grows run) {symbol : Symbol} (hs : symbol.isAction = false)
    (hc : c.Rooted) (h : captureMatch symbol run c = some (matched, c')) :
    ∃ d, c.Plants d c' ∧ (matched = true → ∃ body, d = .capture symbol body) := by
  obtain ⟨inner, b, hbody, hleft⟩ := captureMatch_eq_some h
  obtain ⟨d, hd⟩ := hrun _ _ _ (hc.enter symbol) hbody
  cases inner with
  | true =>
      have hleave := hd.leave_true hs
      rw [hleft] at hleave
      exact ⟨_, hleave, fun _ => ⟨d, rfl⟩⟩
  | false =>
      have hleave := hd.leave_false hc
      rw [hleft] at hleave
      refine ⟨_, hleave, fun hmatched => ?_⟩
      cases hleft
      cases hmatched

/-- If every round plants a derivation, then a repetition plants them in a row. -/
theorem Grows.repeatMatch (hrun : Grows run) (budget : Nat) : Grows (repeatMatch run budget) := by
  induction budget with
  | zero =>
      intro c matched c' hc h
      cases h
      exact ⟨_, hc.plants_nothing⟩
  | succ budget ih =>
      intro c matched c' hc h
      rcases repeatMatch_succ_cases h with
        ⟨e, hround, -, rfl⟩ | ⟨hround, -, -⟩ | ⟨e, hround, -, hrest⟩
      · obtain ⟨d, hd⟩ := hrun _ _ _ hc hround
        exact ⟨_, hd.restore hc⟩
      · exact hrun _ _ _ hc hround
      · obtain ⟨d, hd⟩ := hrun _ _ _ hc hround
        obtain ⟨d', hd'⟩ := ih _ _ _ hd.rooted hrest
        exact ⟨_, hd.trans hd'⟩

/-- What a remembered rule plants: a match is one tree, tried anew or not. -/
theorem Pattern.exists_plants_memo {callee : Rule → Cursor → Outcome} {r : Rule} {body : Pattern}
    (hbody : Grows (body.eval callee)) (hc : c.Rooted)
    (h : (Pattern.memo r body).eval callee c = some (matched, c')) :
    ∃ d, c.Plants d c' ∧ (matched = true → ∃ body, d = .capture (.rule r) body) := by
  rcases eval_memo_cases h with ⟨known, hknown, hreplay⟩ | ⟨e, hcapture, rfl⟩
  · cases known with
    | failed =>
        cases hreplay
        exact ⟨_, hc.plants_nothing, fun hm => nomatch hm⟩
    | matched stop tokens =>
        obtain ⟨body, hplants⟩ := hc.exists_plants_replay hknown
        rw [hreplay] at hplants
        exact ⟨_, hplants, fun _ => ⟨body, rfl⟩⟩
  · obtain ⟨d, hd, htree⟩ := hbody.captureMatch rfl hc hcapture
    cases matched with
    | true =>
        obtain ⟨body, rfl⟩ := htree rfl
        exact ⟨_, hd.remember hc, fun _ => ⟨body, rfl⟩⟩
    | false => exact ⟨_, hd.remember_false hc r, fun hm => nomatch hm⟩

/-- Whatever a pattern does, it records a plain derivation. -/
theorem Pattern.grows {callee : Rule → Cursor → Outcome} (hcallee : ∀ r, Grows (callee r))
    (p : Pattern) :
    Grows (p.eval callee) := by
  induction p with
  | succeed =>
      intro c matched c' hc h
      cases h
      exact ⟨_, hc.plants_nothing⟩
  | one test =>
      intro c matched c' hc h
      obtain ⟨d, hd⟩ := hc.exists_plants_step test
      rw [Option.some.inj h] at hd
      exact ⟨d, hd⟩
  | both a b iha ihb =>
      intro c matched c' hc h
      rcases eval_both_cases h with ⟨ha, -⟩ | ⟨e, ha, hb⟩
      · exact iha _ _ _ hc ha
      · obtain ⟨d, hd⟩ := iha _ _ _ hc ha
        obtain ⟨d', hd'⟩ := ihb _ _ _ hd.rooted hb
        exact ⟨_, hd.trans hd'⟩
  | either a b iha ihb =>
      intro c matched c' hc h
      rcases eval_either_cases h with ⟨ha, -⟩ | ⟨e, e', ha, hb, rfl⟩
      · exact iha _ _ _ hc ha
      · obtain ⟨d, hd⟩ := iha _ _ _ hc ha
        have hback := hd.restore hc
        obtain ⟨d', hd'⟩ := ihb _ _ _ hback.rooted hb
        cases matched with
        | true => exact ⟨_, hback.trans hd'⟩
        | false => exact ⟨_, (hback.trans hd').restore hc⟩
  | many body ih =>
      intro c
      exact ih.repeatMatch _ c
  | absent body ih =>
      intro c matched c' hc h
      obtain ⟨inner, e, hbody, -, rfl⟩ := eval_absent_eq_some h
      obtain ⟨d, hd⟩ := ih _ _ _ hc hbody
      exact ⟨_, hd.restore hc⟩
  | rule r body ih | text body ih =>
      intro c matched c' hc h
      obtain ⟨d, hd, -⟩ := ih.captureMatch rfl hc h
      exact ⟨d, hd⟩
  | memo r body ih =>
      intro c matched c' hc h
      obtain ⟨d, hd, -⟩ := exists_plants_memo ih hc h
      exact ⟨d, hd⟩
  | action a =>
      intro c matched c' hc h
      cases h
      exact ⟨_, hc.plants (hc.steady.records_act a) rfl trivial⟩
  | call r => exact hcallee r

/-- Wherever a rule of a grammar ends, a plain derivation was recorded. -/
theorem Grammar.grows_run (g : Grammar) (depth : Nat) (r : Rule) : Grows (g.run depth r) := by
  induction depth generalizing r with
  | zero =>
      intro c matched c' hc h
      cases h
  | succ depth ih => exact (g r).grows ih

/-- What ends has recorded a plain derivation. -/
theorem Ends.exists_plants {g : Grammar} {p : Pattern} (h : Ends g p c matched c') (hc : c.Rooted) :
    ∃ d, c.Plants d c' := by
  obtain ⟨depth, h⟩ := h
  exact p.grows (g.grows_run depth) _ _ _ hc h

/-- A rule that matches has recorded one tree, also where the match is repeated from memory. -/
theorem Ends.exists_tree {g : Grammar} {r : Rule} {body : Pattern}
    (h : Ends g (.rule r body) c true c' ∨ Ends g (.memo r body) c true c') (hc : c.Rooted) :
    ∃ d, c.Plants (.capture (.rule r) d) c' := by
  obtain ⟨d, hd, htree⟩ : ∃ d, c.Plants d c' ∧ (true = true → ∃ b, d = .capture (.rule r) b) := by
    rcases h with ⟨depth, h⟩ | ⟨depth, h⟩
    · exact (body.grows (g.grows_run depth)).captureMatch rfl hc h
    · exact Pattern.exists_plants_memo (body.grows (g.grows_run depth)) hc h
  obtain ⟨b, rfl⟩ := htree rfl
  exact ⟨b, hd⟩

end patterns

end RiftLang
