/-!
# S-expressions

The form in which syntax trees are shown: words and lists in parentheses, whose first word says what
kind of list it is.

* `Sexp` — an atom, or a form with a head and parts.
* `Sexp.render` — the text, with one blank between the parts of a form.
-/

namespace RiftLang

/-- An atom, or a head with parts. -/
inductive Sexp where
  | atom (text : String)
  | form (head : String) (parts : List Sexp)
  deriving Repr, Inhabited

namespace Sexp

mutual

/-- The text of an expression. -/
def render : Sexp → String
  | atom text => text
  | form head parts => "(" ++ head ++ renderParts parts ++ ")"

/-- The parts of a form, each after a blank. -/
def renderParts : List Sexp → String
  | [] => ""
  | part :: rest => " " ++ render part ++ renderParts rest

end

end Sexp

end RiftLang
