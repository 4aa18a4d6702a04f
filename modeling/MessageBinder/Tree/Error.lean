import MessageBinder.Span
import MessageBinder.Text.Shown
import MessageBinder.Token.Basic

/-!
# Why a text is no module

Some faults are met while the tokens are read in order: a token, a character or the end where
something else must stand. The others concern what has been read: they are looked for only once the
whole text has the form of a module. A string without a value and an integer with too many digits
are among these, and the only ones without a place.
-/

namespace MessageBinder

/-- What is wrong at a place of a text. -/
inductive SyntaxFault where
  /-- A token cannot stand here. -/
  | unexpectedToken (kind : TokenKind) (text : String)
  /-- A character starts no token. -/
  | unexpectedCharacter (c : Char)
  /-- The text ends where more must follow. -/
  | unexpectedEnd
  /-- What is assigned to is no name, member or element. -/
  | assignmentTarget
  /-- A pair of parentheses holds no expression, or several. -/
  | groupSize
  /-- A parameter of an arrow function is no name. -/
  | arrowParameter
  /-- The default export is imported under no other name. -/
  | importedDefault
  /-- A list of local exports names `default`. -/
  | exportedDefault
deriving DecidableEq, Repr

/-- How a character that starts no token is described. -/
def describeCharacter (c : Char) : String := "character " ++ Text.shown (String.singleton c)

/-- The wording of a fault. -/
def SyntaxFault.message : SyntaxFault → String
  | .unexpectedToken kind text => "unexpected input: " ++ kind.label ++ " " ++ Text.shown text
  | .unexpectedCharacter c => "unexpected input: " ++ describeCharacter c
  | .unexpectedEnd => "unexpected input: end of input"
  | .assignmentTarget => "invalid assignment target"
  | .groupSize => "parenthesized expression must contain exactly one expression"
  | .arrowParameter => "arrow function parameters must be plain names"
  | .importedDefault => "\x60default\x60 must be imported under another name"
  | .exportedDefault => "\x60default\x60 is not a local name"

/-- Whether a fault is met while the tokens are read, and not in what has been read. -/
def SyntaxFault.isUnexpected : SyntaxFault → Bool
  | .unexpectedToken .. | .unexpectedCharacter _ | .unexpectedEnd => true
  | _ => false

/-- Why a string has no value. -/
inductive StringFault where
  /-- It holds a null character. -/
  | nullCharacter
  /-- It holds an escape that cannot be read, or a raw carriage return. -/
  | malformed
deriving DecidableEq, Repr

namespace StringFault

/-- The word for the kind of a fault. -/
def word : StringFault → String
  | nullCharacter => "ValueError"
  | malformed => "SyntaxError"

/-- The wording of a fault, where it has one. -/
def message? : StringFault → Option String
  | nullCharacter => some "source code string cannot contain null bytes"
  | malformed => none

end StringFault

/-- Why a text is no module. -/
inductive ModuleError where
  /-- A fault at a line and a column. -/
  | fault (fault : SyntaxFault) (line column : Nat)
  /-- A string without a value. -/
  | unreadableString (fault : StringFault)
  /-- An integer with too many digits. -/
  | longInteger (digits : Nat)
deriving DecidableEq, Repr

namespace ModuleError

/-- A fault at the place of an origin. -/
def faultAt (fault : SyntaxFault) (o : Origin) : ModuleError := .fault fault o.line o.column

/-- Where the error belongs. A fault in what has been read is a place of the file; one met while
reading keeps the name of the file as it was given. -/
def span (file : Option String) : ModuleError → Span
  | .fault f line column =>
    if f.isUnexpected then ⟨file, some line, some column⟩
    else (Location.place none (some line) (some column)).toSpan file
  | .unreadableString _ | .longInteger _ => {}

end ModuleError

end MessageBinder
