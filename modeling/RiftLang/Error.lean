import RiftLang.Diagnostic
import RiftLang.Replay

/-!
# Errors

What can go wrong between a source, or a text of settings, and its value.

* `ReadError`, `ConfigError` — causes outside the grammar.
* `Error` — all causes, and `Error.message`, the wording that says which it was.
-/

namespace RiftLang

/-- Why a source could not be read. -/
inductive ReadError where
  /-- The reader gave up with a message of its own. -/
  | failed (message : String)
  /-- The bytes read are not UTF-8. -/
  | notUtf8
  deriving DecidableEq, Repr, Inhabited

/-- The wording of a read error. -/
def ReadError.text : ReadError → String
  | failed message => message
  | notUtf8 => "stream did not contain valid UTF-8"

/-- Why settings could not be loaded. -/
inductive ConfigError where
  /-- The file of settings does not exist. -/
  | missingFile
  /-- The content of the file is not settings. -/
  | malformedFile
  /-- The text is not settings. -/
  | malformedText
  /-- Any other cause, with a message of its own. -/
  | other (message : String)
  deriving DecidableEq, Repr, Inhabited

/-- The wording of a settings error. For text that is not settings it stops short of the colon after
which the reader of that text would say what it found wrong: that cause is not modelled. -/
def ConfigError.text : ConfigError → String
  | missingFile => "Failed to open config file: No such file or directory (os error 2)"
  | malformedFile => "Failed to parse config file"
  | malformedText => "Failed to parse config"
  | other message => message

/-- Any error. -/
inductive Error where
  /-- The source could not be read. -/
  | read (cause : ReadError)
  /-- The source is not in the grammar. -/
  | syntaxError (cause : SyntaxError)
  /-- A text in the source is no value, or a stream of tokens is no tree. -/
  | build (cause : BuildError)
  /-- The settings could not be loaded. -/
  | config (cause : ConfigError)
  deriving DecidableEq, Repr, Inhabited

/-- The wording of an error, with its stage in front. -/
def Error.message : Error → String
  | read cause => "Read error: " ++ cause.text
  | syntaxError cause => "Syntax error: " ++ cause.message
  | build cause => "Build error: " ++ cause.text
  | config cause => "Config error: " ++ cause.text

end RiftLang
