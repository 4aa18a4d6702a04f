import MessageBinder.Catalogue.Basic
import MessageBinder.Config.Error
import MessageBinder.FileTree
import MessageBinder.Sequence

/-!
# Failures

What can go wrong with a file once it has been read as a module: the system, the text of a
catalogue, the configuration, a loader, and an edit of the module. Each failure keeps its cause; the
wording and the word for its kind are worked out here.
-/

namespace MessageBinder

/-- Why an operation on files came to no result. -/
inductive Failure where
  /-- The system refuses. -/
  | file (e : IoError)
  /-- A text is not UTF-8. -/
  | text (e : Text.Utf8Error)
  /-- A catalogue cannot be read. -/
  | catalogue (e : CatalogueError)
  /-- A JSON text holds an integer with too many digits. -/
  | longInteger (digits : Nat)
  /-- The configuration is at fault. -/
  | config (e : ConfigError)
  /-- A loader gives up with a message of its own. -/
  | loader (message : String)
  /-- An edit refers to a statement that is not there. -/
  | edit (e : AbsentStmt)
deriving DecidableEq, Repr

namespace Failure

/-- The wording of a failure. -/
def message : Failure → String
  | file e => e.message
  | text e => e.message
  | catalogue e => e.message
  | longInteger digits => Text.tooManyDigits digits
  | config e => e.message
  | loader message => message
  | edit e => e.message

/-- The word for the kind of a failure. -/
def word : Failure → String
  | file e => e.word
  | text _ => "UnicodeDecodeError"
  | catalogue _ => "LoaderError"
  | config _ => "ConfigurationError"
  | loader _ => "RuntimeError"
  | edit _ | longInteger _ => "ValueError"

/-- The failure to load a catalogue whose text is at fault. An integer with too many digits is no
fault of the text. -/
def ofCatalogue : CatalogueError → Failure
  | ⟨.invalidJson (.longInteger digits), _⟩ => .longInteger digits
  | e => .catalogue e

end Failure

/-- Reads a text file. -/
def FileTree.readText (t : FileTree) (p : Path) : Except Failure String := do
  let bytes ← (t.read p).mapError Failure.file
  (FileTree.textOf bytes).mapError Failure.text

end MessageBinder
