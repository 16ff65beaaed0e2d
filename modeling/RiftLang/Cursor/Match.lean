import RiftLang.Pattern
import RiftLang.Cursor

/-!
# Matching patterns

A pattern drives a cursor and reports whether it matched.

* `Pattern.eval` — by recursion on the pattern, given what a called rule does.
* `Grammar.run` — a rule of a grammar, with a bound on how deep calls may nest. A bound that is too
  small gives `none`, which is neither a match nor a failure.
* `Cursor.tryMatch` — a pattern over a grammar, with a bound taken from the length of the source: a
  rule that is called again below itself without having consumed anything would never end, so calls
  that end nest at most once per rule and offset.
-/

namespace RiftLang

/-- Whether a pattern matched and the cursor it left, or `none` if calls nested too deep to tell. -/
abbrev Outcome := Option (Bool × Cursor)

/-- Repeats `body` while it matches and consumes, at most `budget` times. A failed repetition is put
back. -/
def repeatMatch (body : Cursor → Outcome) : (budget : Nat) → Cursor → Outcome
  | 0, c => some (true, c)
  | budget + 1, c =>
    let entry := c.checkpoint
    match body c with
    | none => none
    | some (false, c) => some (true, c.restore entry)
    | some (true, c) =>
      if c.position = entry.position then some (true, c) else repeatMatch body budget c

/-- Runs `body` as the inside of a capture. -/
def captureMatch (symbol : Symbol) (body : Cursor → Outcome) (c : Cursor) : Outcome :=
  let entry := c.checkpoint
  match body (c.enter symbol) with
  | none => none
  | some (matched, c) => some (c.leave symbol entry matched)

namespace Pattern

/-- What a pattern does to a cursor, where `callee` says what a called rule does. -/
def eval (callee : Rule → Cursor → Outcome) : Pattern → Cursor → Outcome
  | succeed, c => some (true, c)
  | one test, c => some (c.step test)
  | both first second, c =>
    match eval callee first c with
    | some (true, c) => eval callee second c
    | failed => failed
  | either first second, c =>
    let entry := c.checkpoint
    match eval callee first c with
    | some (false, c) =>
      match eval callee second (c.restore entry) with
      | some (false, c) => some (false, c.restore entry)
      | matched => matched
    | matched => matched
  | many body, c => repeatMatch (eval callee body) (c.source.size + 1 - c.position) c
  | absent body, c =>
    let entry := c.checkpoint
    match eval callee body c with
    | none => none
    | some (matched, c) => some (!matched, c.restore entry)
  | rule r body, c => captureMatch (.rule r) (eval callee body) c
  | text body, c => captureMatch .text (eval callee body) c
  | memo r body, c =>
    match c.remembered? r with
    | some known => some (c.replay known)
    | none =>
      let entry := c.checkpoint
      match captureMatch (.rule r) (eval callee body) c with
      | none => none
      | some (matched, c) => some (matched, c.remember r entry matched)
  | action a, c => some (true, c.act a)
  | call r, c => callee r c

end Pattern

namespace Grammar

/-- What a rule does to a cursor, when calls may nest at most `depth` deep. -/
def run (g : Grammar) : (depth : Nat) → Rule → Cursor → Outcome
  | 0, _, _ => none
  | depth + 1, r, c => (g r).eval (run g depth) c

/-- How deep calls nest in a source of the given length: at most once per rule and offset. -/
def callBound (length : Nat) : Nat :=
  Rule.all.length * (length + 1) + 1

end Grammar

namespace Cursor

/-- Matches a pattern over a grammar from where the cursor is. A pattern whose calls never end
counts as failed. -/
def tryMatch (c : Cursor) (g : Grammar) (p : Pattern) : Bool × Cursor :=
  match p.eval (g.run (Grammar.callBound c.source.size)) c with
  | some result => result
  | none => (false, c)

end Cursor

end RiftLang
