/-!
# Lines

Two rules on line ends. Text read from a file has its carriage returns made line feeds first, so
that the rest of the library meets one line end only. The lines of a properties text end at more
characters than that: at the vertical controls, at three of the information separators, at the
next-line control and at the two separators of Unicode, a carriage return with its line feed
counting once.
-/

namespace MessageBinder.Text

/-- The text with each carriage return, alone or before a line feed, made one line feed. -/
def unifyNewlines : List Char → List Char
  | [] => []
  | '\r' :: '\n' :: cs => '\n' :: unifyNewlines cs
  | c :: cs => (if c = '\r' then '\n' else c) :: unifyNewlines cs

/-- Whether a character ends a line of a properties text. -/
def isLineEnd (c : Char) : Bool :=
  c = '\n' || c = '\r' || c = '\x0b' || c = '\x0c' || c = '\x1c' || c = '\x1d' || c = '\x1e' ||
    c = '\u0085' || c = '\u2028' || c = '\u2029'

/-- Puts a character in front of the first line. -/
def consLine (c : Char) : List (List Char) → List (List Char)
  | [] => [[c]]
  | line :: lines => (c :: line) :: lines

/-- The lines of a text without their ends; a text that ends with a line end has no empty line after
it. -/
def splitLines : List Char → List (List Char)
  | [] => []
  | '\r' :: '\n' :: cs => [] :: splitLines cs
  | c :: cs => if isLineEnd c then [] :: splitLines cs else consLine c (splitLines cs)

end MessageBinder.Text
