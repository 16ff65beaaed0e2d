import RiftLang.Pattern

/-!
# The grammar of Rift

One pattern for every rule. A rule's pattern records one token for the rule, around a body made of
blanks, other rules and the actions that build the syntax tree. In outline, with blanks and actions
left out:

```text
Source     <- Rift+ !.                       Value      <- Literal / Ref
Rift       <- RiftName '=>' Block            Ref        <- Name (':' Name)?
Block      <- '{' (Line (msp / &'}'))* '}'   Literal    <- Func / Tuple / List / Map
Line       <- If / Assignment / Expr                     / String / Numeric / Boolean
If         <- 'if' Expr Block ('else' Block)?  Func     <- Params '->' (Block / Expr)
Assignment <- LocalRef '=' !'>' Expr         MapEntry   <- MapKey ':' Expr
Expr       <- Op / FuncApply / Value         Numeric    <- SciNum / Decimal / Integer
Op         <- Operand (BinaryOp Operand)+    Name       <- '@'? NameStart NameChar*
FuncApply  <- Ref Tuple
```

* `Grammar.body` — what each rule looks for.
* `Rule.isMemoized` — the rules of expressions, whose outcome is remembered per offset: without
  that, the cost of an expression would double with every level of nesting.
* `Grammar.rift` — the grammar.
-/

namespace RiftLang

/-! ## Characters -/

/-- A character that may begin a name. -/
def isNameStart (c : Char) : Bool :=
  c.isAlpha || c == '_'

/-- A character that may go on with a name. -/
def isNameChar (c : Char) : Bool :=
  c.isAlphanum || c == '_'

/-- Space, tab, carriage return and line feed. -/
def isBlank (c : Char) : Bool :=
  c == ' ' || c == '\t' || c == '\r' || c == '\n'

/-- The characters that may follow a backslash in a string. -/
def escapeLetters : List Char :=
  ['n', 't', 'r', 'f', 'b', 'a', 'v', '\\', '?', '"', '\'']

/-- The operators, longer ones before those they begin with. -/
def operatorTexts : List String :=
  ["**", "*", "/", "%", "+", "-"]

namespace Pattern

/-! ## Common shapes -/

/-- The steps between the opening and the closing of a node. -/
def node (kind : NodeKind) (steps : List Pattern) : Pattern :=
  all (action (.begin kind) :: steps ++ [action .finish])

/-- Gives the open node the text captured last. -/
def attach : Pattern :=
  action .attach

/-- Flags the open node. -/
def mark (m : Mark) : Pattern :=
  action (.mark m)

/-- Any number of blanks and comments. -/
def space : Pattern :=
  call .space

/-- A character that may go on with a name. -/
def nameChar : Pattern :=
  one isNameChar

/-- Items in brackets, with commas between them; none at all is allowed, a trailing comma is not. -/
def bracketed (opening : Char) (item : Pattern) (closing : Char) : List Pattern :=
  [char opening, space,
   optional (all [item, many (all [space, char ',', space, item]), space]),
   char closing]

end Pattern

namespace Rule

/-- The rules whose outcome is remembered per offset. -/
def isMemoized : Rule → Bool
  | expr | operand | application | value | reference | literal => true
  | _ => false

end Rule

namespace Grammar

open Pattern in
/-- What a rule looks for, without the token for the rule itself. -/
def body : Rule → Pattern
  | .source => all [space, many1 (all [call .rift, space]), absent any]
  | .rift => node .rift [call .riftName, space, literal "=>", space, call .block]
  | .riftName => node .reference [call .name, attach]
  | .block =>
    node .block
      [char '{', space,
       many (all [call .line, either (call .someSpace) (peek (char '}'))]),
       char '}']
  | .line => choice [call .conditional, call .assignment, call .expr]
  | .conditional =>
    node .conditional
      [literal "if", absent nameChar, space, call .expr, space, call .block,
       optional (all [space, literal "else", space, call .block, mark .otherwise])]
  | .assignment =>
    node .assignment [call .localReference, space, char '=', absent (char '>'), space, call .expr]
  | .expr => choice [call .operation, call .application, call .value]
  | .operation =>
    node .operation [call .operand, many1 (all [space, call .operator, space, call .operand])]
  | .operand => choice [call .application, call .value]
  | .operator => node .binaryOperator [text (choice (operatorTexts.map literal)), attach]
  | .application => node .functionApply [call .reference, call .tuple]
  | .value => choice [call .literal, call .reference]
  | .reference =>
    node .reference
      [call .name, attach, optional (all [mark .qualified, char ':', call .name, attach])]
  | .localReference => node .reference [call .name, attach]
  | .name => text (all [optional (char '@'), one isNameStart, many nameChar])
  | .literal =>
    choice
      [call .function, call .tuple, call .list, call .map, call .string, call .numeric,
        call .boolean]
  | .function =>
    node .functionDefinition
      [call .parameters, space, literal "->", space, choice [call .block, call .expr]]
  | .parameters => node .arguments (bracketed '(' (call .localReference) ')')
  | .tuple => node .tuple (bracketed '(' (call .expr) ')')
  | .list => node .list (bracketed '[' (call .expr) ']')
  | .map => node .map (bracketed '{' (call .mapEntry) '}')
  | .mapEntry => node .mapEntry [call .mapKey, space, char ':', space, call .expr]
  | .mapKey => choice [call .string, call .numeric, call .boolean, call .localReference]
  | .string => node .string [char '"', text (many (call .stringChar)), char '"', attach]
  | .stringChar => either (call .stringEscape) (all [absent (oneOf ['\\', '\n', '"']), any])
  | .stringEscape => all [char '\\', oneOf escapeLetters]
  | .numeric =>
    node .numeric [text (choice [call .scientific, call .decimal, call .integer]), attach]
  | .scientific =>
    all [choice [call .decimal, call .integer], oneOf ['e', 'E'], call .integer, mark .scientific]
  | .decimal => all [call .integer, char '.', many (call .digit), mark .decimal]
  | .integer => call .wholeNumber
  | .wholeNumber => either (char '0') (all [optional (char '-'), range '1' '9', many (call .digit)])
  | .digit => range '0' '9'
  | .boolean =>
    node .boolean [text (choice [literal "true", literal "false"]), absent nameChar, attach]
  | .someSpace => many1 (either (call .blank) (call .comment))
  | .space => many (either (call .blank) (call .comment))
  | .comment => all [char '#', many (all [absent (char '\n'), any])]
  | .blank => one isBlank

/-- The grammar of Rift. -/
def rift : Grammar := fun r =>
  if r.isMemoized then .memo r (body r) else .rule r (body r)

end Grammar

end RiftLang
