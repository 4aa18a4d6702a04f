/-!
# Spans

A span says where a diagnostic belongs as far as that is known: a file, a line, a column, each of
them perhaps unknown. An empty file name stands for none when a span is made from a place, and shows
as unknown.
-/

namespace MessageBinder

/-- Where something belongs, as far as it is known. -/
structure Span where
  /-- The file. -/
  file : Option String := none
  /-- The line, counted from one. -/
  line : Option Int := none
  /-- The column, counted from one. -/
  column : Option Int := none
deriving DecidableEq, Repr, Inhabited

/-- What a span can be made from. -/
inductive Location where
  /-- Nothing. -/
  | unknown
  /-- A place of a text. -/
  | place (file : Option String) (line column : Option Int)
  /-- A span. -/
  | span (s : Span)
deriving DecidableEq, Repr, Inhabited

namespace Location

/-- Whether the location is the place of a text. -/
def isPlace : Location → Bool
  | place .. => true
  | _ => false

/-- The span of a location in a file. A span is complete in itself, and a place keeps its own file
where none is given. -/
def toSpan (file : Option String) : Location → Span
  | unknown => { file }
  | place ownFile line column => ⟨file.filter (· ≠ "") <|> ownFile, line, column⟩
  | span s => s

end Location

namespace Span

/-- A part of a span as it is shown. -/
def part : Option Int → String
  | some n => toString n
  | none => "?"

/-- The span as it is shown, with question marks for what is unknown. -/
def render (s : Span) : String :=
  (s.file.filter (· ≠ "")).getD "?" ++ ":" ++ part s.line ++ ":" ++ part s.column

end Span

end MessageBinder
