import Mathlib.Data.List.Forall2
import RiftLang.Text.Escape

/-!
# Decoding escapes

The body of a string is decoded item by item: a character other than a backslash stands for itself,
and a backslash with the character after it stands for what the table of escapes says.

* `escapes` — the escapes with their values.
* `Stands` — a plain character or an escape stands for a character.
* `decodeEscapes_eq_some_iff` — what is decoded is made of such items, and in their order.
* `Alternates` — stretches of plain characters and escapes in turn, which is how a decoder may go
  through a text at a time. `alternates_iff` — it comes to the same text, and `unescapeWith_eq` —
  with any scanner that goes so.
-/

namespace RiftLang

/-- The characters that may follow a backslash, and what the two stand for. -/
def escapes : List (Char × Char) :=
  [('n', '\n'), ('t', '\t'), ('r', '\r'), ('f', '\x0c'), ('b', '\x08'), ('a', '\x07'),
    ('v', '\x0b'), ('\\', '\\'), ('?', '?'), ('"', '"'), ('\'', '\'')]

/-- The characters that may follow a backslash are those of the list, with these values. -/
theorem escapeValue?_eq_some_iff {c v : Char} : escapeValue? c = some v ↔ (c, v) ∈ escapes := by
  constructor
  · intro h
    unfold escapeValue? at h
    split at h <;> cases h <;> decide
  · intro h
    have hall : ∀ e ∈ escapes, escapeValue? e.1 = some e.2 := by decide
    exact hall (c, v) h

/-- A part of the body of a string stands for a character. -/
inductive Stands : List Char → Char → Prop where
  /-- A plain character stands for itself. -/
  | plain {c : Char} (h : c ≠ '\\') : Stands [c] c
  /-- An escape stands for its value. -/
  | escape {c v : Char} (h : (c, v) ∈ escapes) : Stands ['\\', c] v

section decode

variable {c v : Char} {raw rest text out : List Char}

/-- A character other than a backslash is decoded to itself. -/
theorem decodeEscapes_plain (hc : c ≠ '\\') :
    decodeEscapes (c :: rest) = (decodeEscapes rest).map (c :: ·) := by
  simp [decodeEscapes, hc]

/-- A backslash with a character of the list is decoded to the value of that escape. -/
theorem decodeEscapes_escape (h : (c, v) ∈ escapes) :
    decodeEscapes ('\\' :: c :: rest) = (decodeEscapes rest).map (v :: ·) := by
  have hvalue : escapeValue? c = some v := escapeValue?_eq_some_iff.2 h
  simp only [decodeEscapes, hvalue]
  rcases decodeEscapes rest with _ | values <;> rfl

/-- The first item of what can be decoded, and the text that the rest stands for. -/
theorem exists_item_of_decodeEscapes (h : decodeEscapes raw = some text) (hne : raw ≠ []) :
    ∃ item v rest values, raw = item ++ rest ∧ text = v :: values ∧ Stands item v ∧
      decodeEscapes rest = some values := by
  obtain ⟨c, rest, rfl⟩ := List.exists_cons_of_ne_nil hne
  by_cases hc : c = '\\'
  · subst hc
    cases rest with
    | nil => cases h
    | cons c rest =>
        cases hvalue : escapeValue? c with
        | none => simp [decodeEscapes, hvalue] at h
        | some v =>
            have hmem : (c, v) ∈ escapes := escapeValue?_eq_some_iff.1 hvalue
            rw [decodeEscapes_escape hmem] at h
            obtain ⟨values, hvalues, rfl⟩ := Option.map_eq_some_iff.1 h
            exact ⟨['\\', c], v, rest, values, rfl, rfl, .escape hmem, hvalues⟩
  · rw [decodeEscapes_plain hc] at h
    obtain ⟨values, hvalues, rfl⟩ := Option.map_eq_some_iff.1 h
    exact ⟨[c], c, rest, values, rfl, rfl, .plain hc, hvalues⟩

/-- A part that stands for a character is decoded to it, whatever comes after the part. -/
theorem Stands.decodeEscapes_append {item : List Char} (h : Stands item v) :
    decodeEscapes (item ++ rest) = (decodeEscapes rest).map (v :: ·) := by
  cases h with
  | plain hc => exact decodeEscapes_plain hc
  | escape hmem => exact decodeEscapes_escape hmem

/-- A part that stands for a character is not empty. -/
theorem Stands.length_pos {item : List Char} (h : Stands item v) : 0 < item.length := by
  cases h with
  | plain _ => exact Nat.one_pos
  | escape _ => exact Nat.two_pos

/-- A text decodes just if it is made of plain characters and defined escapes, and then to what they
stand for. -/
theorem decodeEscapes_eq_some_iff :
    decodeEscapes raw = some text ↔ ∃ items, items.flatten = raw ∧
      List.Forall₂ Stands items text := by
  constructor
  · intro h
    induction hn : raw.length using Nat.strongRecOn generalizing raw text with
    | ind n ih =>
        by_cases hne : raw = []
        · subst hne
          obtain rfl : [] = text := Option.some.inj h
          exact ⟨[], rfl, .nil⟩
        · obtain ⟨item, v, rest, values, rfl, rfl, hitem, hrest⟩ :=
            exists_item_of_decodeEscapes h hne
          have hpos := hitem.length_pos
          obtain ⟨items, rfl, hitems⟩ :=
            ih rest.length (by rw [← hn, List.length_append]; omega) hrest rfl
          exact ⟨item :: items, rfl, .cons hitem hitems⟩
  · rintro ⟨items, rfl, hitems⟩
    induction hitems with
    | nil => rfl
    | cons hitem _ ih => rw [List.flatten_cons, hitem.decodeEscapes_append, ih, Option.map_some]

/-- A text is decoded to another exactly if it can be cut into parts, each of which stands for the
next character of the other. -/
theorem unescape_eq_some_iff {raw text : String} :
    unescape raw = some text ↔ ∃ items, items.flatten = raw.toList ∧
      List.Forall₂ Stands items text.toList := by
  rw [← decodeEscapes_eq_some_iff]
  unfold unescape
  rw [Option.map_eq_some_iff]
  constructor
  · rintro ⟨cs, hcs, rfl⟩
    rwa [String.toList_ofList]
  · intro hcs
    exact ⟨text.toList, hcs, String.ofList_toList⟩

/-! ## Stretches of plain characters -/

/-- Stretches without a backslash, each as long as possible, and escapes in turn until the text
ends. -/
inductive Alternates : List Char → List Char → Prop where
  /-- The text ends. -/
  | done : Alternates [] []
  /-- A stretch is copied. -/
  | stretch {plain rest out : List Char} (hne : plain ≠ []) (hplain : ∀ c ∈ plain, c ≠ '\\')
    (hend : ∀ c ∈ rest.head?, c = '\\') (h : Alternates rest out) :
      Alternates (plain ++ rest) (plain ++ out)
  /-- An escape is replaced. -/
  | escape {c v : Char} {rest out : List Char} (hmem : (c, v) ∈ escapes) (h : Alternates rest out) :
      Alternates ('\\' :: c :: rest) (v :: out)

/-- A plain character before a text that alternates begins a stretch, or is the first of one. -/
theorem Alternates.plain (hc : c ≠ '\\') (h : Alternates rest out) :
    Alternates (c :: rest) (c :: out) := by
  have hsingle : ∀ d ∈ [c], d ≠ '\\' := by simpa using hc
  have hfirst (hend : ∀ d ∈ rest.head?, d = '\\') : Alternates ([c] ++ rest) ([c] ++ out) :=
    .stretch (List.cons_ne_nil c []) hsingle hend h
  cases h with
  | done => exact hfirst (by simp)
  | @stretch plain rest out hne hplain hend h =>
      have hlonger : ∀ d ∈ c :: plain, d ≠ '\\' := List.forall_mem_cons.2 ⟨hc, hplain⟩
      exact .stretch (List.cons_ne_nil c plain) hlonger hend h
  | escape hmem h => exact hfirst (by simp)

/-- Going through a text in stretches comes to what decoding it by characters does. -/
theorem alternates_iff : Alternates raw out ↔ decodeEscapes raw = some out := by
  constructor
  · intro h
    induction h with
    | done => rfl
    | @stretch plain rest out hne hplain _ _ ih =>
        clear hne
        induction plain with
        | nil => exact ih
        | cons c plain ihplain =>
            obtain ⟨hc, hplain⟩ := List.forall_mem_cons.1 hplain
            rw [List.cons_append, decodeEscapes_plain hc, ihplain hplain]
            rfl
    | escape hmem _ ih => rw [decodeEscapes_escape hmem, ih, Option.map_some]
  · intro h
    obtain ⟨items, rfl, hitems⟩ := decodeEscapes_eq_some_iff.1 h
    clear h
    induction hitems with
    | nil => exact .done
    | cons hitem _ ih =>
        cases hitem with
        | plain hc => exact ih.plain hc
        | escape hmem => exact .escape hmem ih

/-- Decodes a text with a scanner that says what it left and what it read. Nothing may be left, and
an empty text is not scanned. -/
def unescapeWith (scan : List Char → Option (List Char × List Char)) (raw : String) :
    Option String :=
  if raw.isEmpty then some ""
  else
    match scan raw.toList with
    | some ([], decoded) => some (String.ofList decoded)
    | _ => none

/-- Whatever scanner takes stretches and escapes in turn, texts are decoded alike. -/
theorem unescapeWith_eq {scan : List Char → Option (List Char × List Char)}
    (hscan : ∀ raw, raw ≠ [] → ∀ out, scan raw = some ([], out) ↔ Alternates raw out)
    (raw : String) :
    unescapeWith scan raw = unescape raw := by
  by_cases hempty : raw.isEmpty = true
  · obtain rfl := String.isEmpty_iff.1 hempty
    rfl
  · have hne : raw.toList ≠ [] := by simpa using hempty
    have hdecodes (out : List Char) : scan raw.toList = some ([], out) ↔
        decodeEscapes raw.toList = some out :=
      (hscan raw.toList hne out).trans alternates_iff
    unfold unescapeWith unescape
    rw [if_neg hempty]
    split
    · next decoded hscanned => rw [(hdecodes decoded).1 hscanned, Option.map_some]
    · next hleft =>
        cases hdecoded : decodeEscapes raw.toList with
        | none => rfl
        | some out => exact absurd ((hdecodes out).2 hdecoded) (hleft out)

end decode

end RiftLang
