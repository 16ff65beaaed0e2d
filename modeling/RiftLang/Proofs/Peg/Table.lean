import RiftLang.Grammar
import RiftLang.Proofs.Peg
import RiftLang.Proofs.Trace.Matching

/-!
# The rule table

The grammar of Rift as a table of parsing expressions.

* `Peg.table` — one expression for every rule, as the table of the language has it.
* `Peg.pattern` — an expression as a pattern, and `body_eq_pattern_table` — the patterns of the
  grammar are those of the table.
* `Peg.mayBeEmpty` — could an expression match without consuming? `width_pos_of_parses` — one that
  could not consumes.
* `Peg.heads`, `Rule.rank` — the rules that an expression may try before anything is consumed, and
  an order of rules that every such call goes down (`rank_lt_of_mem_heads`). No rule is its own
  head, so the grammar is not left-recursive.
-/

namespace RiftLang

namespace Peg

/-- Any number of blanks and comments. -/
def sp : Peg :=
  call .space

/-- The characters that may begin a name. -/
def nameStart : Peg :=
  within [('A', 'Z'), ('a', 'z'), ('_', '_')]

/-- The characters that may go on with a name. -/
def nameChar : Peg :=
  within [('A', 'Z'), ('a', 'z'), ('0', '9'), ('_', '_')]

/-- Items in brackets, with commas between them. -/
def bracketed (opening : Char) (item : Peg) (closing : Char) : List Peg :=
  [char opening, sp,
   opt (seqs [item, star (seqs [sp, char ',', sp, item]), sp]),
   char closing]

/-- What each rule stands for. -/
def table : Rule → Peg
  | .source => seqs [sp, plus (seqs [call .rift, sp]), absent any]
  | .rift => node .rift [call .riftName, sp, word "=>", sp, call .block]
  | .riftName => node .reference [call .name, action .attach]
  | .block =>
    node .block
      [char '{', sp, star (seqs [call .line, choice (call .someSpace) (ahead (char '}'))]),
        char '}']
  | .line => choices [call .conditional, call .assignment, call .expr]
  | .conditional =>
    node .conditional
      [word "if", absent nameChar, sp, call .expr, sp, call .block,
       opt (seqs [sp, word "else", sp, call .block, action (.mark .otherwise)])]
  | .assignment =>
    node .assignment [call .localReference, sp, char '=', absent (char '>'), sp, call .expr]
  | .expr => choices [call .operation, call .application, call .value]
  | .operation =>
    node .operation [call .operand, plus (seqs [sp, call .operator, sp, call .operand])]
  | .operand => choices [call .application, call .value]
  | .operator =>
    node .binaryOperator
      [text (choices [word "**", word "*", word "/", word "%", word "+", word "-"]), action .attach]
  | .application => node .functionApply [call .reference, call .tuple]
  | .value => choices [call .literal, call .reference]
  | .reference =>
    node .reference
      [call .name, action .attach,
       opt (seqs [action (.mark .qualified), char ':', call .name, action .attach])]
  | .localReference => node .reference [call .name, action .attach]
  | .name => text (seqs [opt (char '@'), nameStart, star nameChar])
  | .literal =>
    choices
      [call .function, call .tuple, call .list, call .map, call .string, call .numeric,
        call .boolean]
  | .function =>
    node .functionDefinition
      [call .parameters, sp, word "->", sp, choices [call .block, call .expr]]
  | .parameters => node .arguments (bracketed '(' (call .localReference) ')')
  | .tuple => node .tuple (bracketed '(' (call .expr) ')')
  | .list => node .list (bracketed '[' (call .expr) ']')
  | .map => node .map (bracketed '{' (call .mapEntry) '}')
  | .mapEntry => node .mapEntry [call .mapKey, sp, char ':', sp, call .expr]
  | .mapKey => choices [call .string, call .numeric, call .boolean, call .localReference]
  | .string => node .string [char '"', text (star (call .stringChar)), char '"', action .attach]
  | .stringChar => choice (call .stringEscape) (seqs [absent (oneOf ['\\', '\n', '"']), any])
  | .stringEscape =>
    seqs [char '\\', oneOf ['n', 't', 'r', 'f', 'b', 'a', 'v', '\\', '?', '"', '\'']]
  | .numeric =>
    node .numeric
      [text (choices [call .scientific, call .decimal, call .integer]), action .attach]
  | .scientific =>
    seqs
      [choices [call .decimal, call .integer], oneOf ['e', 'E'], call .integer,
       action (.mark .scientific)]
  | .decimal => seqs [call .integer, char '.', star (call .digit), action (.mark .decimal)]
  | .integer => call .wholeNumber
  | .wholeNumber =>
    choice (char '0') (seqs [opt (char '-'), within [('1', '9')], star (call .digit)])
  | .digit => within [('0', '9')]
  | .boolean =>
    node .boolean [text (choices [word "true", word "false"]), absent nameChar, action .attach]
  | .someSpace => plus (choice (call .blank) (call .comment))
  | .space => star (choice (call .blank) (call .comment))
  | .comment => seqs [char '#', star (seqs [absent (char '\n'), any])]
  | .blank => oneOf [' ', '\t', '\r', '\n']

/-! ## Expressions as patterns -/

/-- The pattern that looks for an expression. -/
def pattern : Peg → Pattern
  | empty => .succeed
  | fail => .fail
  | one test => .one test
  | word s => .literal s
  | seq first second => .both first.pattern second.pattern
  | choice first second => .either first.pattern second.pattern
  | star body => .many body.pattern
  | plus body => .many1 body.pattern
  | absent body => .absent body.pattern
  | text body => .text body.pattern
  | action a => .action a
  | call r => .call r

/-- Letters are those of the two ranges of the grammar. -/
theorem isAlpha_iff {c : Char} : c.isAlpha = true ↔ ('A' ≤ c ∧ c ≤ 'Z') ∨ ('a' ≤ c ∧ c ≤ 'z') :=
  Bool.or_eq_true_iff.trans
    (or_congr decide_eq_true_iff
      (Bool.and_eq_true_iff.trans (and_congr decide_eq_true_iff decide_eq_true_iff)))

/-- The choice of characters that may begin a name is one test. -/
theorem pattern_nameStart : nameStart.pattern = .one isNameStart := by
  refine congrArg Pattern.one (funext fun c => ?_)
  rw [Bool.eq_iff_iff]
  simp only [isNameStart, isAlpha_iff, Char.le_def, Char.ext_iff, List.any_cons, List.any_nil,
    Bool.or_eq_true, Bool.and_eq_true, decide_eq_true_eq, beq_iff_eq, ← UInt32.toNat_inj,
    UInt32.le_iff_toNat_le, Bool.or_false]
  omega

/-- So is the choice of characters that may go on with one. -/
theorem pattern_nameChar : nameChar.pattern = .one isNameChar := by
  refine congrArg Pattern.one (funext fun c => ?_)
  rw [Bool.eq_iff_iff]
  simp only [isNameChar, Char.isAlphanum, isAlpha_iff, Char.isDigit, Char.le_def, Char.ext_iff,
    List.any_cons, List.any_nil, Bool.or_eq_true, Bool.and_eq_true, decide_eq_true_eq, beq_iff_eq,
    ← UInt32.toNat_inj, UInt32.le_iff_toNat_le, ge_iff_le, Bool.or_false]
  omega

/-- One range of characters is the pattern of that range. -/
theorem pattern_within_singleton (low high : Char) :
    (within [(low, high)]).pattern = Pattern.range low high :=
  congrArg Pattern.one (funext fun c => by simp)

/-- The choice of blanks is one test. -/
theorem pattern_blank : (oneOf [' ', '\t', '\r', '\n']).pattern = .one isBlank := by
  refine congrArg Pattern.one (funext fun c => ?_)
  rw [Bool.eq_iff_iff]
  simp [isBlank, or_assoc]

/-- The range of digits is the test for digits. -/
theorem any_digit (c : Char) : ([('0', '9')].any fun r => r.1 ≤ c && c ≤ r.2) = c.isDigit := by
  simp [Char.isDigit, Char.le_def]

/-- The range of digits from one on is the test for digits other than zero. -/
theorem any_nonzeroDigit (c : Char) :
    ([('1', '9')].any fun r => r.1 ≤ c && c ≤ r.2) = (c.isDigit && c != '0') := by
  rw [Bool.eq_iff_iff]
  simp only [Char.isDigit, List.any_cons, List.any_nil, Bool.or_false, Bool.and_eq_true,
    decide_eq_true_eq, bne_iff_ne, ne_eq, Char.le_def, Char.ext_iff, ← UInt32.toNat_inj,
    UInt32.le_iff_toNat_le, ge_iff_le]
  have h0 : ('0' : Char).val.toNat = 48 := rfl
  have h1 : ('1' : Char).val.toNat = 49 := rfl
  have h9 : ('9' : Char).val.toNat = 57 := rfl
  have h0' : (48 : UInt32).toNat = 48 := rfl
  have h9' : (57 : UInt32).toNat = 57 := rfl
  omega

/-- The patterns of the grammar are those of the table. -/
theorem body_eq_pattern_table (r : Rule) : Grammar.body r = (table r).pattern := by
  cases r with
  | name =>
      show _ = Pattern.text (.both _ (.both nameStart.pattern (.both (.many nameChar.pattern) _)))
      rw [pattern_nameStart, pattern_nameChar]
      rfl
  | wholeNumber =>
      show _ = Pattern.either _ (.both _ (.both (within [('1', '9')]).pattern _))
      rw [pattern_within_singleton]
      rfl
  | digit => exact (pattern_within_singleton '0' '9').symm
  | blank => exact pattern_blank.symm
  | conditional =>
      show _ = Pattern.both _ (.both _ (.both (.absent nameChar.pattern) _))
      rw [pattern_nameChar]
      rfl
  | boolean =>
      show _ = Pattern.both _ (.both _ (.both (.absent nameChar.pattern) _))
      rw [pattern_nameChar]
      rfl
  | _ => rfl

/-- An expression of the table remembers nothing. -/
theorem memoizes_pattern (bodies : Rule → Pattern) (e : Peg) : e.pattern.Memoizes bodies := by
  induction e with
  | empty | one _ | action _ | call _ => trivial
  | fail => exact trivial
  | word s =>
      refine ⟨?_, trivial⟩
      show (Pattern.all (s.toList.map Pattern.char)).Memoizes bodies
      induction s.toList with
      | nil => trivial
      | cons c cs ih => exact ⟨trivial, ih⟩
  | seq _ _ iha ihb | choice _ _ iha ihb => exact ⟨iha, ihb⟩
  | star _ ih | absent _ ih | text _ ih => exact ih
  | plus _ ih => exact ⟨⟨ih, trivial⟩, ih⟩

/-! ## Empty matches -/

/-- Could the expression match without consuming anything? Of the rules only blanks could. -/
def mayBeEmpty : Peg → Bool
  | empty | star _ | absent _ | action _ => true
  | fail | one _ => false
  | word s => s.toList.isEmpty
  | seq first second => first.mayBeEmpty && second.mayBeEmpty
  | choice first second => first.mayBeEmpty || second.mayBeEmpty
  | plus body | text body => body.mayBeEmpty
  | call r => r = .space

/-- Every repetition in the expression is of something that consumes. -/
def isProductive : Peg → Bool
  | empty | fail | one _ | word _ | action _ | call _ => true
  | seq first second | choice first second => first.isProductive && second.isProductive
  | star body | plus body => !body.mayBeEmpty && body.isProductive
  | absent body | text body => body.isProductive

/-- Of the rules only that of optional blanks could match without consuming anything. -/
theorem mayBeEmpty_table {r : Rule} (h : r ≠ .space) : (table r).mayBeEmpty = false := by
  cases r <;> first | rfl | exact absurd rfl h

/-- What a rule repeats always consumes. -/
theorem isProductive_table (r : Rule) : (table r).isProductive = true := by
  cases r <;> rfl

/-- What cannot match without consuming consumes. -/
theorem width_pos_of_parses {e : Peg} {s s' : List Char} {d : Derivation}
    (h : Parses table e s (some (d, s'))) (he : e.mayBeEmpty = false) : 0 < d.width := by
  generalize hres : some (d, s') = res at h
  induction h generalizing d s' with
  | empty | action | star_stop | star | absent => simp [mayBeEmpty] at he
  | one _ =>
      cases hres
      exact Nat.one_pos
  | word =>
      cases hres
      simpa [mayBeEmpty, List.length_pos_iff, Derivation.width, Derivation.chars] using he
  | seq _ _ iha ihb =>
      cases hres
      rw [Derivation.width_append]
      rcases Bool.and_eq_false_iff.1 he with h | h
      · exact Nat.add_pos_left (iha h rfl) _
      · exact Nat.add_pos_right _ (ihb h rfl)
  | choice_left _ ih => exact ih (Bool.or_eq_false_iff.1 he).1 hres
  | choice_right _ _ _ ih => exact ih (Bool.or_eq_false_iff.1 he).2 hres
  | plus _ _ iha _ =>
      cases hres
      rw [Derivation.width_append]
      exact Nat.add_pos_left (iha he rfl) _
  | text _ ih =>
      cases hres
      have hbody := ih he rfl
      exact hbody
  | call _ ih =>
      cases hres
      have hbody := ih (mayBeEmpty_table (by simpa [mayBeEmpty] using he)) rfl
      exact hbody
  | _ => cases hres

/-! ## Calls before anything is consumed -/

/-- The rules that the expression may try before anything is consumed. -/
def heads : Peg → List Rule
  | empty | fail | one _ | word _ | action _ => []
  | seq first second => first.heads ++ if first.mayBeEmpty then second.heads else []
  | choice first second => first.heads ++ second.heads
  | star body | plus body | absent body | text body => body.heads
  | call r => [r]

end Peg

namespace Rule

/-- An order of the rules in which each stands above those it tries first. -/
def rank : Rule → Nat
  | blank | comment | digit | wholeNumber | stringEscape | string | boolean | name | parameters
  | tuple | list | map | block | operator | conditional => 0
  | space | someSpace | integer | stringChar | riftName | reference | localReference | function => 1
  | decimal | application | assignment | rift => 2
  | scientific | source => 3
  | numeric => 4
  | mapKey | literal => 5
  | mapEntry | value => 6
  | operand => 7
  | operation => 8
  | expr => 9
  | line => 10

/-- The rules have eleven ranks, so calls that consume nothing nest less than that deep. -/
theorem rank_lt (r : Rule) : r.rank < 11 := by
  cases r <;> decide

/-- A rule only tries rules below itself before anything is consumed. -/
theorem rank_lt_of_mem_heads {r q : Rule} (h : q ∈ (Peg.table r).heads) : q.rank < r.rank := by
  have hall : ∀ q ∈ (Peg.table r).heads, q.rank < r.rank := by
    cases r <;> decide
  exact hall q h

end Rule

end RiftLang
