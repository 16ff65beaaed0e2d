import RiftLang.Symbol

/-!
# Tokens

A token records one match: which symbol, over which span of characters, how deep in the nesting of
rules.

* `Token` — the record; `Token.contains` is inclusion of spans.
* `IndexedToken` — a token with its place in emission order. `IndexedToken.isParentOf` is the
  parenthood that both tree builders use: a parent spans its child and is emitted after it.
* `slice` — the characters of a span, cut to the source.
-/

namespace RiftLang

/-- One recorded match. Offsets count characters of the source.

Offsets and depths are natural numbers without bound. A program keeps them in machine words, which
could only overflow for a source, or a nesting, longer than the address space. -/
structure Token where
  /-- Why the token was recorded. -/
  symbol : Symbol
  /-- The offset of the first character. -/
  start : Nat
  /-- The offset just past the last character. -/
  stop : Nat
  /-- How many captures were open around the match. -/
  depth : Nat
  deriving DecidableEq, Repr, Inhabited

namespace Token

/-- A token that spans no text. -/
def isEmpty (t : Token) : Bool :=
  t.start == t.stop

/-- The number of characters spanned, for a token whose span is not reversed. -/
def size (t : Token) : Nat :=
  t.stop - t.start

/-- The span of `inner` lies within the span of `t`. -/
def contains (t inner : Token) : Bool :=
  t.start ≤ inner.start && inner.stop ≤ t.stop

/-- The written form: symbol, span and depth. -/
def render (t : Token) : String :=
  s!"{t.symbol.render} {t.start} {t.stop} {t.depth}"

end Token

/-- A token together with its place in emission order. -/
structure IndexedToken extends Token where
  /-- The place of the token in emission order. -/
  index : Nat
  deriving DecidableEq, Repr, Inhabited

namespace IndexedToken

/-- A parent spans its child and is emitted after it, since a rule records its token only once its
body has matched. -/
def isParentOf (parent child : IndexedToken) : Bool :=
  parent.toToken.contains child.toToken && child.index < parent.index

end IndexedToken

/-- Numbers tokens in emission order. -/
def indexed (tokens : List Token) : List IndexedToken :=
  tokens.zipIdx.map fun (t, i) => { t with index := i }

/-- The characters from `start` up to `stop`, cut to the source. -/
def slice (source : Array Char) (start stop : Nat) : String :=
  String.ofList (source.extract start stop).toList

end RiftLang
