import RiftLang.Proofs.Escapes
import RiftLang.Proofs.Meaning.Attempts
import RiftLang.Proofs.Printing.Literals

/-!
# Strings are matched and decoded alike

The grammar lets some characters follow a backslash in a string, and the decoder of escapes knows
some. They agree, so that whatever is matched can be decoded, and every text can be written as a
string.

* `exists_items_of_parses` — the body of a string is made of items that stand for characters, and
  captures nothing.
* `exists_body_of_parses` — so the body decodes, and the string stands for the text.
* `literalChars` — a text as a string literal, which is matched whole.
* `string_literals_decode` — what decoding says of any text, of the texts that the rule of strings
  captures, and of literals.
-/

namespace RiftLang

open Peg

/-! ## The body of a string -/

section body

variable {s rest : List Char} {d : Derivation}

/-- The derivation records no captured text. -/
def Derivation.IsTextless (d : Derivation) : Prop :=
  ∀ start depth, (d.tokens start depth).filter (·.symbol = .text) = []

/-- Text alone captures no text. -/
theorem Derivation.isTextless_leaf (cs : List Char) : (leaf cs).IsTextless :=
  fun _ _ => rfl

/-- Derivations in a row capture no text, if neither does. -/
theorem Derivation.IsTextless.append {e : Derivation} (hd : d.IsTextless) (he : e.IsTextless) :
    (d.append e).IsTextless := by
  intro start depth
  rw [tokens, List.filter_append, hd, he, List.append_nil]

/-- A rule captures no text by itself. -/
theorem Derivation.IsTextless.rule (hd : d.IsTextless) (r : Rule) :
    (capture (.rule r) d).IsTextless := by
  intro start depth
  rw [tokens, List.filter_append, hd]
  rfl

/-- The letters that the grammar lets follow a backslash are those of the table of escapes. -/
theorem exists_mem_escapes {c : Char}
    (h : ['n', 't', 'r', 'f', 'b', 'a', 'v', '\\', '?', '"', '\''].contains c = true) :
    ∃ v, (c, v) ∈ escapes := by
  have hkeys : c ∈ escapes.map Prod.fst := List.contains_iff_mem.1 h
  obtain ⟨⟨c, v⟩, hmem, rfl⟩ := List.mem_map.1 hkeys
  exact ⟨v, hmem⟩

/-- A character of a string is an item. -/
theorem exists_stands_of_parses (h : Parses table (.call .stringChar) s (some (d, rest))) :
    (∃ v, Stands d.chars v) ∧ d.IsTextless := by
  obtain ⟨d, hbody, rfl⟩ := parses_call_iff.1 h
  rcases parses_choice_iff.1 hbody with hescape | ⟨-, hplain⟩
  · obtain ⟨d, hsteps, rfl⟩ := parses_call_iff.1 hescape
    obtain ⟨_, _, _, hfirst, htail, rfl⟩ := parses_seq_iff.1 hsteps
    obtain ⟨_, _, _, hletter, hend, rfl⟩ := parses_seq_iff.1 htail
    obtain ⟨backslash, -, hbackslash, rfl⟩ := parses_one_iff.1 hfirst
    obtain ⟨c, -, hc, rfl⟩ := parses_one_iff.1 hletter
    obtain ⟨rfl, -⟩ := parses_empty_iff.1 hend
    obtain rfl := eq_of_beq hbackslash
    obtain ⟨v, hv⟩ := exists_mem_escapes hc
    constructor
    · exact ⟨v, .escape hv⟩
    · exact ((Derivation.isTextless_leaf _).append
        ((Derivation.isTextless_leaf _).append (Derivation.isTextless_leaf _))).rule _ |>.rule _
  · obtain ⟨_, _, _, habsent, htail, rfl⟩ := parses_seq_iff.1 hplain
    obtain ⟨_, _, _, hany, hend, rfl⟩ := parses_seq_iff.1 htail
    obtain ⟨hnone, rfl, rfl⟩ := parses_absent_iff.1 habsent
    obtain ⟨c, rfl, -, rfl⟩ := parses_one_iff.1 hany
    obtain ⟨rfl, -⟩ := parses_empty_iff.1 hend
    have hc : c ≠ '\\' := by
      rintro rfl
      cases hnone with
      | one_fail hnone => exact absurd (hnone '\\' rfl) (by decide)
    constructor
    · exact ⟨c, .plain hc⟩
    · exact ((Derivation.isTextless_leaf _).append
        ((Derivation.isTextless_leaf _).append (Derivation.isTextless_leaf _))).rule _

/-- The body of a string is made of items. -/
theorem exists_items_of_parses (h : Parses table (.star (.call .stringChar)) s (some (d, rest))) :
    (∃ items text, items.flatten = d.chars ∧ List.Forall₂ Stands items text) ∧ d.IsTextless := by
  generalize he : Peg.star (.call .stringChar) = e at h
  generalize hres : some (d, rest) = res at h
  induction h generalizing d rest with
  | star_stop _ =>
      cases hres
      exact ⟨⟨[], [], rfl, .nil⟩, Derivation.isTextless_leaf _⟩
  | star hd _ _ ih =>
      cases he
      cases hres
      obtain ⟨⟨v, hv⟩, hfirst⟩ := exists_stands_of_parses hd
      obtain ⟨⟨items, text, hitems, hstands⟩, hmore⟩ := ih rfl rfl
      refine ⟨⟨_ :: items, v :: text, ?_, .cons hv hstands⟩, hfirst.append hmore⟩
      rw [List.flatten_cons, hitems]
      rfl
  | _ => cases he

/-- A string is a body between quotes. The body is the one text that is captured, it decodes, and
the string stands for what it decodes to. -/
theorem exists_body_of_parses (h : Parses table (.call .string) s (some (d, rest))) :
    ∃ raw text, d.chars = '"' :: raw ++ ['"'] ∧ unescape (String.ofList raw) = some text ∧
      d.fragments = .ok [.node (.string text)] ∧
      ∀ start depth, (d.tokens start depth).filter (·.symbol = .text)
        = [⟨.text, start + 1, start + 1 + raw.length, depth + 1⟩] := by
  obtain ⟨d, hbody, rfl⟩ := parses_call_iff.1 h
  obtain ⟨_, _, _, hbegin, h₁, rfl⟩ := parses_seq_iff.1 hbody
  obtain ⟨_, _, _, hopen, h₂, rfl⟩ := parses_seq_iff.1 h₁
  obtain ⟨_, _, _, htext, h₃, rfl⟩ := parses_seq_iff.1 h₂
  obtain ⟨_, _, _, hclose, h₄, rfl⟩ := parses_seq_iff.1 h₃
  obtain ⟨_, _, _, hattach, h₅, rfl⟩ := parses_seq_iff.1 h₄
  obtain ⟨_, _, _, hfinish, h₆, rfl⟩ := parses_seq_iff.1 h₅
  obtain ⟨rfl, rfl⟩ := parses_action_iff.1 hbegin
  obtain ⟨opening, -, hopening, rfl⟩ := parses_one_iff.1 hopen
  obtain ⟨b, hb, rfl⟩ := parses_text_iff.1 htext
  obtain ⟨closing, -, hclosing, rfl⟩ := parses_one_iff.1 hclose
  obtain ⟨rfl, rfl⟩ := parses_action_iff.1 hattach
  obtain ⟨rfl, rfl⟩ := parses_action_iff.1 hfinish
  obtain ⟨rfl, rfl⟩ := parses_empty_iff.1 h₆
  obtain rfl := eq_of_beq hopening
  obtain rfl := eq_of_beq hclosing
  obtain ⟨⟨items, text, hitems, hstands⟩, htextless⟩ := exists_items_of_parses hb
  have hraw : unescape (String.ofList b.chars) = some (String.ofList text) := by
    rw [unescape, String.toList_ofList, decodeEscapes_eq_some_iff.2 ⟨items, hitems, hstands⟩,
      Option.map_some]
  refine ⟨b.chars, String.ofList text, ?_, hraw, ?_, ?_⟩
  · simp [Derivation.chars]
  · have hparts : construct .string [.text (String.ofList b.chars)] =
        .ok [.node (.string (String.ofList text))] := by
      simp only [construct, hraw]
      rfl
    exact hparts
  · intro start depth
    simp only [Derivation.tokens, List.filter_append, htextless _ _, Derivation.width_action,
      Derivation.width_leaf]
    simp [Derivation.width]

end body

/-! ## Literals -/

/-- A text as a string literal. Backslashes, quotes and line feeds are escaped. -/
def literalChars (text : String) : List Char :=
  '"' :: text.toList.flatMap escapedChar ++ ['"']

/-- The literal of a text is matched whole, whatever comes after it, and stands for the text. -/
theorem exists_parses_literalChars (text : String) (rest : List Char) :
    ∃ w, Parses table (.call .string) (literalChars text ++ rest) (some (w, rest)) ∧
      w.chars = literalChars text ∧ w.fragments = .ok [.node (.string text)] := by
  obtain ⟨w, hw, hfragments⟩ := @takes_string rest text
  have hchars : w.chars = literalChars text := by
    apply List.append_cancel_right
    exact hw.eq_append.symm
  exact ⟨w, hw, hchars, hfragments⟩

/-- A text decodes just if it is made of plain characters and defined escapes, and then to what they
stand for in order; so does a scanner decode it that goes by stretches. At any offset of a source,
whatever was recorded and remembered before, the rule of strings captures one text, which decodes,
and its tokens add what it decodes to. The literal of a text is matched whole, and adds the text. -/
theorem string_literals_decode {scan : List Char → Option (List Char × List Char)}
    (hscan : ∀ raw, raw ≠ [] → ∀ out, scan raw = some ([], out) ↔ Alternates raw out) {c : Cursor}
    (hc : c.Reliable Grammar.rift Grammar.body) {p : Nat} (hp : p ≤ c.source.size) :
    (∀ raw, unescapeWith scan raw = unescape raw ∧ ∀ text, unescape raw = some text ↔
      ∃ items, items.flatten = raw.toList ∧ List.Forall₂ Stands items text.toList) ∧
    ∃ matched d, (Pattern.call .string).eval (Grammar.rift.run (Grammar.callBound c.source.size))
        { c with position := p } = some (matched, d) ∧
      let recorded := d.log.between c.tokenCount d.tokenCount
      let replayed f outer captured built :=
        (Replay.mk (f :: outer) captured built).steps c.source recorded
      (matched = true → ∃ raw text, '"' :: raw ++ ['"'] <+: restFrom c.source p ∧
        d.position = p + raw.length + 2 ∧
        recorded.filter (·.symbol = .text) = [⟨.text, p + 1, p + 1 + raw.length, c.depth + 1⟩] ∧
        unescape (String.ofList raw) = some text ∧
        ∀ f outer captured built, Adds f outer built (.node (.string text))
          (replayed f outer captured built)) ∧
      ∀ text, literalChars text <+: restFrom c.source p →
        matched = true ∧ d.position = p + (literalChars text).length ∧
        unescape (String.ofList (text.toList.flatMap escapedChar)) = some text ∧
        ∀ f outer captured built, Adds f outer built (.node (.string text))
          (replayed f outer captured built) := by
  constructor
  · intro raw
    exact ⟨unescapeWith_eq hscan raw, fun text => unescape_eq_some_iff⟩
  · obtain ⟨d, res, hd, hres, hmatch⟩ := exists_attempt hc hp .string
    refine ⟨res.isSome, d, hd, ?_⟩
    intro recorded replayed
    constructor
    · intro hm
      obtain ⟨⟨w, rest⟩, rfl⟩ := Option.isSome_iff_exists.1 hm
      obtain ⟨hposition, htokens⟩ := hmatch w rest rfl
      obtain ⟨raw, text, hchars, hraw, hfragments, htexts⟩ := exists_body_of_parses hres
      refine ⟨raw, text, ?_, ?_, ?_, hraw, fun f outer captured built => ?_⟩
      · rw [hres.eq_append, hchars]
        exact List.prefix_append _ rest
      · rw [hposition, Derivation.width, hchars]
        simp only [List.length_append, List.length_cons, List.length_nil]
        omega
      · show (d.log.between _ _).filter _ = _
        rw [htokens]
        exact htexts p c.depth
      · show Adds f outer built _ (Replay.steps c.source _ (d.log.between _ _))
        rw [htokens]
        exact (adds_of_parses hres rfl rfl c.depth f outer captured built).1 _ hfragments
    · rintro text ⟨rest, hrest⟩
      obtain ⟨w, hw, hchars, hfragments⟩ := exists_parses_literalChars text rest
      rw [hrest] at hw
      obtain rfl := hres.unique hw
      obtain ⟨hposition, htokens⟩ := hmatch w rest rfl
      refine ⟨rfl, ?_, unescape_flatMap text, fun f outer captured built => ?_⟩
      · rw [hposition, Derivation.width, hchars]
      · show Adds f outer built _ (Replay.steps c.source _ (d.log.between _ _))
        rw [htokens]
        exact (adds_of_parses hw rfl rfl c.depth f outer captured built).1 _ hfragments

/-- An escaped quote does not end the string, which stands for a letter, a quote and a line feed. -/
theorem string_literals_decode_quote :
    let c := Cursor.ofString "=\"a\\\"\\n\" " 4
    ∃ d, (Pattern.call .string).eval (Grammar.rift.run (Grammar.callBound c.source.size))
      { c with position := 1 }
        = some (true, d) ∧
      d.position = 8 ∧
      Adds (.begin .tuple 0) [] [] (.node (.string "a\"\n"))
        ((Replay.mk [.begin .tuple 0] none []).steps c.source
          (d.log.between c.tokenCount d.tokenCount)) := by
  intro c
  have hc : c.Reliable Grammar.rift Grammar.body := Cursor.reliable_ofChars _ 4
  have hscan : ∀ raw, raw ≠ [] → ∀ out, (decodeEscapes raw).map (([], ·)) =
      some (([] : List Char), out)
      ↔ Alternates raw out := by
    intro raw _ out
    rw [alternates_iff, Option.map_eq_some_iff]
    simp
  obtain ⟨-, matched, d, hd, -, hliteral⟩ := string_literals_decode hscan hc (p := 1) (by decide)
  obtain ⟨rfl, hposition, -, hadds⟩ := hliteral "a\"\n" (List.isPrefixOf_iff_prefix.1 (by decide))
  exact ⟨d, hd, hposition, hadds (.begin .tuple 0) [] none []⟩

end RiftLang
