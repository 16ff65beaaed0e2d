import RiftLang.Proofs.Meaning.Replay

/-!
# Attempts on one rule

A rule may be matched anywhere in the course of a run, from a cursor that has recorded and
remembered before. The tokens that the attempt records can be replayed by themselves, inside a node
that is open.

* `Cursor.Reliable.moved` — such a cursor may be put at any offset.
* `exists_attempt` — an attempt on a rule ends as the table has it, and records the tokens of the
  derivation.
* `Adds` — a replay adds one part to the innermost open node and leaves the rest alone.
* `adds_of_parses` — what replaying the tokens of a rule adds.
-/

namespace RiftLang

open Peg

variable {c : Cursor}

/-- A cursor of a run may be put at any offset. -/
theorem Cursor.Reliable.moved {g : Grammar} {bodies : Rule → Pattern} (hc : c.Reliable g bodies)
    (p : Nat) :
    Cursor.Reliable g bodies { c with position := p } where
  sound := ⟨hc.sound.tokenCount_le, hc.sound.kept_le⟩
  recalls := hc.recalls

/-- An attempt on a rule ends, at any offset and whatever was recorded and remembered before. Where
the table has a derivation it matches the text of the derivation and records its tokens, and where
the table fails it fails. -/
theorem exists_attempt (hc : c.Reliable Grammar.rift Grammar.body) {p : Nat}
    (hp : p ≤ c.source.size) (r : Rule) :
    ∃ d res, (Pattern.call r).eval (Grammar.rift.run (Grammar.callBound c.source.size))
    { c with position := p }
        = some (res.isSome, d) ∧
      Parses table (.call r) (restFrom c.source p) res ∧
      ∀ w rest, res = some (w, rest) → d.position = p + w.width ∧
        d.log.between c.tokenCount d.tokenCount = w.tokens p c.depth := by
  obtain ⟨t, d, res, hd, hfollows, hres, hshows⟩ := exists_eval_call_from (hc.moved p) hp r
  cases res with
  | none =>
      have hm : t.matched = false := hshows
      rw [hm] at hd
      exact ⟨d, none, hd, hres, nofun⟩
  | some m =>
      obtain ⟨hm, hstop, htokens⟩ := hshows
      rw [hm] at hd
      refine ⟨d, some m, hd, hres, ?_⟩
      rintro w rest ⟨⟩
      constructor
      · rw [hfollows.position_eq, hstop]
      · have hbetween := hfollows.between_eq (hc.moved p).sound
        rwa [htokens, Derivation.map_deepen_tokens, Nat.zero_add] at hbetween

/-- The replay has added the part to the innermost open node. Which text was captured last may have
changed, and nothing else has. -/
def Adds (f : Frame) (outer : List Frame) (built : List Rift) (part : Fragment)
    (outcome : Except BuildError Replay) :
    Prop :=
  ∃ captured, outcome = .ok ⟨f.push part :: outer, captured, built⟩

section adds

variable {f : Frame} {outer : List Frame} {built : List Rift} {part part' : Fragment}
  {outcome : Except BuildError Replay}

/-- A replay adds one part only. -/
theorem Adds.unique (h : Adds f outer built part outcome) (h' : Adds f outer built part' outcome) :
    part = part' := by
  obtain ⟨captured, rfl⟩ := h
  obtain ⟨captured', heq⟩ := h'
  have hframes : f.push part :: outer = f.push part' :: outer :=
    congrArg Replay.frames (Except.ok.inj heq)
  have hparts : part :: f.parts = part' :: f.parts := congrArg Frame.parts (List.cons.inj hframes).1
  exact (List.cons.inj hparts).1

/-- What has added a part has not ended in an error. -/
theorem Adds.ne_error (h : Adds f outer built part outcome) (e : BuildError) :
    outcome ≠ .error e := by
  obtain ⟨captured, rfl⟩ := h
  exact nofun

end adds

/-- Replaying the tokens of a node adds the part that the node stands for, or stops with its
error. -/
theorem adds_of_parses {source : Array Char} {p : Nat} {r : Rule} {w : Derivation}
    {rest : List Char} (h : Parses table (.call r) (restFrom source p) (some (w, rest)))
    (hnode : r.isNode = true) (hfilling : r.isFilling = true) (depth : Nat) (f : Frame)
    (outer : List Frame) (captured : Option (Nat × Nat)) (built : List Rift) :
    (∀ part, w.fragments = .ok [part] →
      Adds f outer built part ((Replay.mk (f :: outer) captured built).steps source
        (w.tokens p depth))) ∧
    ∀ e, w.fragments = .error e →
      (Replay.mk (f :: outer) captured built).steps source (w.tokens p depth) = .error e := by
  have hmarks : w.marks = [] := by
    obtain ⟨d, -, rfl⟩ := parses_call_iff.1 h
    exact if_pos hnode
  obtain ⟨hok, herror⟩ :=
    (plays_of_parses h).fills hfilling p rest h.eq_append f outer captured built
  rw [Derivation.steps_tokens]
  constructor
  · intro part hpart
    obtain ⟨captured', hplay⟩ := hok [part] hpart
    rw [hmarks] at hplay
    exact ⟨captured', hplay⟩
  · exact herror

end RiftLang
