import MessageBinder.Text.CodeText

/-!
# Double-quoted text

The written form of a text between double quotes, as the printed module and the injected literal
need it: the quote, the backslash and the control characters below U+0020 are escaped, five of them
by a letter and the others by four hexadecimal digits. A second repertoire keeps the output within
ASCII, for consumers that may not read UTF-8; beyond the basic plane it writes a surrogate pair. A
surrogate stands for itself unless the output is to be ASCII.
-/

namespace MessageBinder.Text

/-- Which characters may stand for themselves in a quoted text. -/
inductive Repertoire where
  /-- Every character that need not be escaped. -/
  | unicode
  /-- The printable characters of ASCII only. -/
  | ascii
deriving DecidableEq, Repr

/-- The letter that stands for a character after a backslash. -/
def escapeLetter? : Char → Option Char
  | '"' => some '"'
  | '\\' => some '\\'
  | '\n' => some 'n'
  | '\r' => some 'r'
  | '\t' => some 't'
  | '\x08' => some 'b'
  | '\x0c' => some 'f'
  | _ => none

/-- The escape of a 16-bit unit by its four hexadecimal digits. -/
def unitEscape (n : Nat) : List Char := '\\' :: 'u' :: hexPadded 4 n

/-- How one character is written inside a quoted text. -/
def quotedChar (repertoire : Repertoire) (c : Char) : List Char :=
  match escapeLetter? c with
  | some letter => ['\\', letter]
  | none =>
    if c.toNat < 0x20 then unitEscape c.toNat
    else if repertoire = .unicode || c.toNat < 0x7F then [c]
    else if c.toNat < 0x10000 then unitEscape c.toNat
    else unitEscape (splitSurrogates c.toNat).1 ++ unitEscape (splitSurrogates c.toNat).2

/-- How one code point is written inside a quoted text. -/
def quotedCode (repertoire : Repertoire) : CodePoint → List CodePoint
  | .char c => (quotedChar repertoire c).map .char
  | .surrogate offset =>
    if repertoire = .unicode then [.surrogate offset]
    else (unitEscape (CodePoint.surrogate offset).toNat).map .char

/-- A text between double quotes. -/
def quoted (repertoire : Repertoire) (s : CodeText) : CodeText :=
  ⟨.char '"' :: s.codes.flatMap (quotedCode repertoire) ++ [.char '"']⟩

end MessageBinder.Text
