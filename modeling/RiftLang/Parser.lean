import RiftLang.Cursor.Match
import RiftLang.Error
import RiftLang.Grammar
import RiftLang.Token.Walk

/-!
# Parsing

From a source to its syntax tree, in two stages.

* `recognize` — matches the grammar against the whole source. Success gives a `Recognized` source
  with its committed tokens, whose nesting can be looked at; failure gives a `SyntaxError`.
* `Recognized.execute` — replays the tokens and gives the program.
* `parse` — both stages, and `parseReader`, which takes a source in chunks of bytes.
* `Config.load` — settings from a text or from a file's content.
-/

namespace RiftLang

/-- A source that matches the grammar, with its tokens in emission order. -/
structure Recognized where
  /-- The characters of the source. -/
  source : Array Char
  /-- The tokens of the match, in emission order. -/
  tokens : List Token
  deriving DecidableEq, Repr, Inhabited

namespace Recognized

/-- The tokens by depth. -/
def layers (r : Recognized) : Layers :=
  Layers.ofTokens r.tokens

/-- The tokens nested by their spans. -/
def forest (r : Recognized) : Forest :=
  Forest.ofTokens r.tokens

/-- The program that the tokens build. -/
def execute (r : Recognized) : Except BuildError Source :=
  replay r.source r.tokens

end Recognized

/-- Matches the grammar against the whole of a source. -/
def recognize (config : Config) (source : String) : Except SyntaxError Recognized :=
  let start := Cursor.ofString source config.initialTokenCapacity
  match start.tryMatch .rift (.call .source) with
  | (true, c) => .ok ⟨c.source, c.commit.log.toList⟩
  | (false, c) => .error (.ofFrontier c.source c.frontier config)

/-- The program that a source stands for. -/
def parse (config : Config) (source : String) : Except Error Source := do
  let recognized ← (recognize config source).mapError .syntaxError
  recognized.execute.mapError .build

/-! ## Reading a source -/

/-- A reader of bytes: it hands out chunks, and then ends or fails. -/
structure ByteReader where
  /-- What it hands out, in order. -/
  chunks : List ByteArray
  /-- The message with which it fails after the last chunk, if it does. -/
  failure : Option String
  deriving Inhabited

namespace ByteReader

/-- All bytes of a reader as text. A failing reader is reported before bytes that are no text. -/
def readText (r : ByteReader) : Except ReadError String :=
  match r.failure with
  | some message => .error (.failed message)
  | none =>
    match String.fromUTF8? (r.chunks.foldl (· ++ ·) ByteArray.empty) with
    | some s => .ok s
    | none => .error .notUtf8

end ByteReader

/-- The program that the text of a reader stands for. -/
def parseReader (config : Config) (reader : ByteReader) : Except Error Source := do
  parse config (← reader.readText.mapError .read)

/-! ## Loading settings -/

/-- Where settings come from. -/
inductive ConfigOrigin where
  /-- A text. -/
  | text (content : String)
  /-- A file; there is no content if the file does not exist. -/
  | file (content : Option String)
  deriving DecidableEq, Repr, Inhabited

/-- Loads settings. -/
def Config.load : ConfigOrigin → Except Error Config
  | .text content => (ofJson? content).elim (.error (.config .malformedText)) .ok
  | .file none => .error (.config .missingFile)
  | .file (some content) => (ofJson? content).elim (.error (.config .malformedFile)) .ok

end RiftLang
