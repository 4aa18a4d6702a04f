import MessageBinder.Text.CodeText
import MessageBinder.Text.Printable

/-!
# Text shown in messages

Messages show a text between single quotes, or between double quotes where that spares an escape:
when the text holds a single quote and no double quote. The chosen quote and the backslash are
escaped, three controls have a letter, and whatever else is not printable is written by its code
point in the shortest of three widths.
-/

namespace MessageBinder.Text

/-- The quote that a text is shown in. -/
def shownQuote (s : CodeText) : Char :=
  if s.codes.contains (.char '\'') && !s.codes.contains (.char '"') then '"' else '\''

/-- How one character is shown between the given quotes. -/
def shownChar (quote c : Char) : List Char :=
  if c = quote ∨ c = '\\' then ['\\', c]
  else if c = '\n' then ['\\', 'n']
  else if c = '\r' then ['\\', 'r']
  else if c = '\t' then ['\\', 't']
  else if isPrintable c then [c]
  else if c.toNat < 0x100 then '\\' :: 'x' :: hexPadded 2 c.toNat
  else if c.toNat < 0x10000 then '\\' :: 'u' :: hexPadded 4 c.toNat
  else '\\' :: 'U' :: hexPadded 8 c.toNat

/-- How one code point is shown between the given quotes. -/
def shownCode (quote : Char) : CodePoint → List Char
  | .char c => shownChar quote c
  | .surrogate offset => '\\' :: 'u' :: hexPadded 4 (CodePoint.surrogate offset).toNat

/-- A text as messages show it. -/
def shown (s : CodeText) : String :=
  let quote := shownQuote s
  String.ofList (quote :: s.codes.flatMap (shownCode quote) ++ [quote])

end MessageBinder.Text
