import MessageBinder.Json.Basic
import MessageBinder.Span

/-!
# Diagnostics

What the command line reports about a file: a message with the code of its kind, the phase it arose
in, how severe it is, where it belongs, and notes.
-/

namespace MessageBinder

/-- A report. -/
structure Diagnostic where
  /-- The message. -/
  message : String
  /-- The code of its kind. -/
  code : Option String := none
  /-- The phase it arose in. -/
  phase : Option String := none
  /-- How severe it is. -/
  severity : String := "error"
  /-- Where it belongs. -/
  span : Span := {}
  /-- Further remarks. -/
  notes : List String := []
deriving DecidableEq, Repr

namespace Diagnostic

/-- The JSON value of what may be absent. -/
def optional {α : Type} (encode : α → Json) : Option α → Json
  | some x => encode x
  | none => .null

/-- The diagnostic as a JSON object. -/
def toJson (d : Diagnostic) : Json :=
  .object
    [("phase", optional .ofString d.phase), ("code", optional .ofString d.code),
     ("message", .ofString d.message), ("severity", .ofString d.severity),
     ("file", optional .ofString d.span.file), ("line", optional .int d.span.line),
     ("column", optional .int d.span.column), ("notes", .array (d.notes.map .ofString))]

/-- The diagnostic as text: a line, and a line for each note. -/
def render (d : Diagnostic) : String :=
  d.span.render ++ ": " ++ d.severity ++ ": " ++ d.message ++
    String.join (d.notes.map ("\n  note: " ++ ·))

end Diagnostic

end MessageBinder
