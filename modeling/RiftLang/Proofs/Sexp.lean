import RiftLang.Proofs.Json
import RiftLang.Sexp
import RiftLang.Text.Quoted

/-!
# Reading S-expressions back

S-expressions as they are written by `Sexp.render`: a form is its head and its parts in parentheses,
with one blank before each part.

* `readQuoted` — the text between double quotes, with its escapes, and `unquote?`.
* `Sexp.IsReadable` — heads are words, and atoms are words or quoted texts.
* `readSexp` — the expression at the front of a text.
* `readSexp_render` — a readable expression is read back from its text, if no word runs on after it.
* `readLines_intercalate` — so are expressions on lines of their own.

The text tells neither the length of a form nor the sort of an atom. Parentheses are balanced
outside quotes, a quoted text ends with its first bare quote, and a word ends where no character of
a word follows.
-/

namespace RiftLang

open Json (Reader hexValue? readUntilQuote)

/-! ## Readers -/

/-- The value of hexadecimal digits that follow digits worth `value`, up to a closing brace. -/
def readCodePoint (value : Nat) : Reader Nat
  | '\x7d' :: s => some (value, s)
  | c :: s => do readCodePoint (16 * value + (← hexValue? c)) s
  | [] => none

/-- The character of an escape by letter in quoted text. -/
def quotedEscapeValue? : Char → Option Char
  | '"' => some '"'
  | '\\' => some '\\'
  | 't' => some '\t'
  | 'r' => some '\r'
  | 'n' => some '\n'
  | '0' => some '\x00'
  | _ => none

/-- One character of quoted text or, at the closing quote, nothing. -/
def readQuotedChar : Reader (Option Char)
  | '"' :: s => some (none, s)
  | '\\' :: 'u' :: '\x7b' :: s => (readCodePoint 0 s).map fun (code, s) =>
    (some (Char.ofNat code), s)
  | '\\' :: c :: s => (quotedEscapeValue? c).map fun c => (some c, s)
  | c :: s => if c = '\\' then none else some (some c, s)
  | [] => none

/-- Quoted text after its opening quote. -/
def readQuoted : Reader String := fun s =>
  (readUntilQuote readQuotedChar (s.length + 1) s).map fun (cs, s) => (String.ofList cs, s)

/-- The text of a quoted form. -/
def unquote? (text : String) : Option String :=
  match text.toList with
  | '"' :: s => (readQuoted s).map (·.1)
  | _ => none

/-- Neither a blank or a line break nor a parenthesis or a quote. -/
def isBareChar (c : Char) : Bool :=
  c != ' ' && c != '\n' && c != '(' && c != ')' && c != '"'

/-- A word: at least one character of a word. -/
def readBare : Reader String := fun s =>
  let word := s.takeWhile isBareChar
  if word.isEmpty then none else some (String.ofList word, s.dropWhile isBareChar)

mutual

/-- An expression, with at most `n` expressions and parentheses in it. -/
def readSexp : (n : Nat) → Reader Sexp
  | 0, _ => none
  | n + 1, s =>
    match s with
    | '(' :: s => do
      let (head, s) ← readBare s
      let (parts, s) ← readParts n s
      return (.form head parts, s)
    | '"' :: s => (readQuoted s).map fun (text, s) => (.atom (quoted text), s)
    | _ => (readBare s).map fun (word, s) => (.atom word, s)

/-- The parts of a form up to its end. -/
def readParts : (n : Nat) → Reader (List Sexp)
  | 0, _ => none
  | n + 1, s =>
    match s with
    | ' ' :: s => do
      let (part, s) ← readSexp n s
      let (parts, s) ← readParts n s
      return (part :: parts, s)
    | ')' :: s => some ([], s)
    | _ => none

end

/-- The expressions on the lines of a text, at most `n`. -/
def readLines : (n : Nat) → List Char → Option (List Sexp)
  | 0, _ => none
  | n + 1, s => do
    match ← readSexp (s.length + 1) s with
    | (e, []) => return [e]
    | (e, '\n' :: s) => return e :: (← readLines n s)
    | _ => none

/-! ## Quoted text -/

/-- Hexadecimal digits are read as their number. -/
theorem readCodePoint_hexDigits (n : Nat) (s : List Char) :
    readCodePoint 0 (hexDigits n ++ s) = readCodePoint n s := by
  have hdigit : ∀ (value : Nat) {r : Nat}, r < 16 → ∀ s : List Char,
      readCodePoint value (r.digitChar :: s) = readCodePoint (16 * value + r) s := by
    intro value r hr s
    have hbrace : ∀ r < 16, r.digitChar ≠ '\x7d' := by decide
    have hvalue : hexValue? r.digitChar = some r := Json.hexValue?_hexDigit hr
    simp [readCodePoint, hbrace r hr, hvalue]
  induction n using Nat.strongRecOn generalizing s with
  | ind n ih =>
      rw [hexDigits, Nat.toDigits_eq_if (by decide)]
      split
      · next hn => exact (hdigit 0 hn s).trans (by rw [Nat.mul_zero, Nat.zero_add])
      · have hfront := ih (n / 16) (by omega) ((n % 16).digitChar :: s)
        have hlast := hdigit (n / 16) (Nat.mod_lt n (by decide)) s
        rw [List.append_assoc]
        exact (hfront.trans hlast).trans (by rw [Nat.div_add_mod])

/-- The form of a character is read as the character. -/
theorem readQuotedChar_quotedChar (c : Char) (s : List Char) :
    readQuotedChar (quotedChar c ++ s) = some (some c, s) := by
  unfold quotedChar
  split
  iterate 6 rfl
  next hquote hbackslash _ _ _ _ =>
    split
    · have hcode : readCodePoint 0 (hexDigits c.toNat ++ '\x7d' :: s) = some (c.toNat, s) := by
        rw [readCodePoint_hexDigits, readCodePoint]
      simp [readQuotedChar, hcode]
    · simp only [readQuotedChar.eq_def, List.cons_append, List.nil_append]
      split <;> simp_all

/-- A text is read back from its quoted form, whatever it holds. -/
theorem readQuoted_quoted (text : String) (s : List Char) :
    ∃ body, (quoted text).toList ++ s = '"' :: body ∧ readQuoted body = some (text, s) := by
  refine ⟨text.toList.flatMap quotedChar ++ '"' :: s, by simp [quoted], ?_⟩
  rw [readQuoted, Json.readUntilQuote_length readQuotedChar_quotedChar (fun _ => rfl)]
  simp

/-- A text is read back from its quoted form. -/
theorem unquote?_quoted (text : String) : unquote? (quoted text) = some text := by
  obtain ⟨body, hbody, hread⟩ := readQuoted_quoted text []
  rw [List.append_nil] at hbody
  simp [unquote?, hbody, hread]

/-! ## Words -/

/-- A word, and nothing more. -/
def isBare (text : String) : Bool :=
  !text.toList.isEmpty && text.toList.all isBareChar

/-- No word runs on into the text. -/
def EndsBare (s : List Char) : Prop :=
  ∀ c ∈ s.head?, isBareChar c = false

/-- A word is read up to where it ends. -/
theorem readBare_append {text : String} (h : isBare text = true) {s : List Char} (hs : EndsBare s) :
    readBare (text.toList ++ s) = some (text, s) := by
  obtain ⟨hne, hall⟩ := Bool.and_eq_true_iff.1 h
  rw [List.all_eq_true] at hall
  have htake := takeWhile_append_of_head hall s hs
  have hdrop := dropWhile_append_of_head hall s hs
  simp [readBare, htake, hdrop, by simpa using hne]

/-! ## Expressions -/

namespace Sexp

/-- A word or a quoted text. -/
def IsAtom (text : String) : Prop :=
  isBare text = true ∨ ∃ content, text = quoted content

mutual

/-- Heads are words, and atoms are words or quoted texts. -/
def IsReadable : Sexp → Prop
  | atom text => IsAtom text
  | form head parts => isBare head = true ∧ AreReadable parts

/-- All of the expressions are readable. -/
def AreReadable : List Sexp → Prop
  | [] => True
  | part :: rest => IsReadable part ∧ AreReadable rest

end

/-- A word or a quoted text is read as an atom. -/
theorem readSexp_atom {text : String} (h : IsAtom text) (n : Nat) {s : List Char}
    (hs : EndsBare s) :
    readSexp (n + 1) (text.toList ++ s) = some (.atom text, s) := by
  rcases h with hword | ⟨content, rfl⟩
  · have hread := readBare_append hword hs
    obtain ⟨hne, hall⟩ := Bool.and_eq_true_iff.1 hword
    obtain ⟨c, cs, hcs⟩ := List.exists_cons_of_ne_nil (l := text.toList) (by simpa using hne)
    have hc : isBareChar c = true := List.all_eq_true.1 hall c (hcs ▸ List.mem_cons_self)
    have hother : c ≠ '(' ∧ c ≠ '"' := by
      constructor <;> rintro rfl <;> exact absurd hc (by decide)
    rw [hcs, List.cons_append] at hread ⊢
    simp [readSexp, hother, hread]
  · obtain ⟨body, hbody, hread⟩ := readQuoted_quoted content s
    rw [hbody, readSexp, hread]
    rfl

/-- A word ends before the parts of a form, and before its end. -/
theorem endsBare_renderParts (parts : List Sexp) (s : List Char) :
    EndsBare ((renderParts parts).toList ++ ')' :: s) := by
  cases parts with
  | nil => exact forall_mem_head_cons rfl
  | cons part rest =>
      rw [renderParts, String.toList_append, String.toList_append]
      exact forall_mem_head_cons rfl

mutual

/-- A readable expression is read back from its text, if no word runs on after it. -/
theorem readSexp_render : ∀ (e : Sexp) (n : Nat) (s : List Char), e.IsReadable →
    e.render.toList.length ≤ n → EndsBare s → readSexp (n + 1) (e.render.toList ++ s) = some (e, s)
  | atom _, n, _, hatom, _, hs => readSexp_atom hatom n hs
  | form head parts, n, s, ⟨hhead, hparts⟩, hlength, _ => by
      have htext : (form head parts).render.toList ++ s =
          '(' :: (head.toList ++ ((renderParts parts).toList ++ ')' :: s)) := by simp [render]
      have hbound : (renderParts parts).toList.length + 2 ≤ n := by
        simp only [render, String.toList_append, List.length_append] at hlength
        have hbrackets : "(".toList.length = 1 ∧ ")".toList.length = 1 := ⟨rfl, rfl⟩
        omega
      obtain ⟨m, rfl⟩ : ∃ m, n = m + 1 := ⟨n - 1, by omega⟩
      have hword := readBare_append hhead (endsBare_renderParts parts s)
      have hread := readParts_render parts m s hparts (by omega)
      rw [htext, readSexp]
      simp [hword, hread]

/-- The parts of a form are read back up to its end. -/
theorem readParts_render : ∀ (parts : List Sexp) (n : Nat) (s : List Char), AreReadable parts →
    (renderParts parts).toList.length < n →
    readParts (n + 1) ((renderParts parts).toList ++ ')' :: s) = some (parts, s)
  | [], _, _, _, _ => rfl
  | part :: rest, n, s, ⟨hpart, hrest⟩, hlength => by
      have htext : (renderParts (part :: rest)).toList ++ ')' :: s =
          ' ' :: (part.render.toList ++ ((renderParts rest).toList ++ ')' :: s)) :=
            by simp [renderParts]
      have hbound : part.render.toList.length + (renderParts rest).toList.length + 1 < n := by
        simp only [renderParts, String.toList_append, List.length_append] at hlength
        have hblank : " ".toList.length = 1 := rfl
        omega
      obtain ⟨m, rfl⟩ : ∃ m, n = m + 1 := ⟨n - 1, by omega⟩
      have hfirst := readSexp_render part m ((renderParts rest).toList ++ ')' :: s) hpart (by omega)
        (endsBare_renderParts rest s)
      have hparts := readParts_render rest m s hrest (by omega)
      rw [htext, readParts]
      simp [hfirst, hparts]

end

/-- Expressions on lines of their own are read back. -/
theorem readLines_intercalate {es : List Sexp} (hne : es ≠ [])
    (hreadable : ∀ e ∈ es, e.IsReadable) {n : Nat}
    (hn : ("\n".intercalate (es.map render)).toList.length < n) :
    readLines n ("\n".intercalate (es.map render)).toList = some es := by
  have hread (e : Sexp) (s : List Char) (he : e.IsReadable) (hs : EndsBare s) :
      readSexp ((e.render.toList ++ s).length + 1) (e.render.toList ++ s) = some (e, s) :=
    readSexp_render e _ s he (by rw [List.length_append]; omega) hs
  induction es generalizing n with
  | nil => exact (hne rfl).elim
  | cons e rest ih =>
      obtain ⟨he, hrest⟩ := List.forall_mem_cons.1 hreadable
      obtain ⟨n, rfl⟩ := Nat.exists_eq_succ_of_ne_zero (Nat.ne_zero_of_lt hn)
      by_cases hlast : rest = []
      · subst hlast
        have hline := hread e [] he nofun
        rw [List.append_nil] at hline
        simp [readLines, hline]
      · have htext : ("\n".intercalate ((e :: rest).map render)).toList =
            e.render.toList ++ '\n' :: ("\n".intercalate (rest.map render)).toList := by
          rw [List.map_cons, String.intercalate_cons_of_ne_nil (by simpa using hlast)]
          simp
        rw [htext] at hn ⊢
        have hline := hread e ('\n' :: ("\n".intercalate (rest.map render)).toList)
          he (forall_mem_head_cons rfl)
        have hlines := ih hlast hrest (n := n) (by
          rw [List.length_append, List.length_cons] at hn
          omega)
        rw [readLines, hline]
        simp only [Option.bind_eq_bind, Option.bind_some, hlines]
        rfl

end Sexp

end RiftLang
