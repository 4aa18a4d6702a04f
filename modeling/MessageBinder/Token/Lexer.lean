import MessageBinder.Text.DecimalDigit
import MessageBinder.Token.Basic

/-!
# Reading tokens

The longest alternative wins at each place: a comment before a slash, `===` before `==` before `=`.
A class of lexemes is given by the number of further characters that belong to the lexeme, so the
text left is always shorter and the lexer needs no other bound. Blanks and comments are lexemes
without a token; a newline is a token, except inside a block comment. Reading stops at the first
character that starts no lexeme, and an unclosed string is such a place.
-/

namespace MessageBinder

namespace Lexer

/-! ### Classes of characters -/

/-- Whether a character is a blank that separates tokens without ending a line. -/
def isBlank (c : Char) : Bool := c = ' ' || c = '\t' || c = '\x0c' || c = '\r'

/-- Whether a character can start a name. -/
def isNameStart (c : Char) : Bool := c.isAlpha || c = '_' || c = '$'

/-- Whether a character can continue a name. -/
def isNameChar (c : Char) : Bool := c.isAlphanum || c = '_' || c = '$'

/-! ### Extents -/

/-- The number of characters at the front that satisfy a test. -/
def run (p : Char → Bool) (cs : List Char) : Nat := (cs.takeWhile p).length

/-- The number of characters up to the closing quote and with it; a backslash protects the character
after it, and a line feed stands in no string. -/
def stringExtent (quote : Char) : List Char → Option Nat
  | [] => none
  | c :: cs =>
    if c = '\n' then none
    else if c = quote then some 1
    else if c = '\\' then
      match cs with
      | [] => none
      | d :: ds => if d = '\n' then none else (stringExtent quote ds).map (· + 2)
    else (stringExtent quote cs).map (· + 1)

/-- The number of characters up to the end of a block comment and with it. -/
def commentExtent : List Char → Option Nat
  | [] => none
  | '*' :: '/' :: _ => some 2
  | _ :: cs => (commentExtent cs).map (· + 1)

/-- The number of characters of a fraction: a point and at least one digit, or nothing. -/
def fractionExtent : List Char → Nat
  | '.' :: cs => if run Text.isDecimalDigit cs = 0 then 0 else run Text.isDecimalDigit cs + 1
  | _ => 0

/-- The number of characters of an exponent: a mark, perhaps a sign, and at least one digit, or
nothing. -/
def exponentExtent : List Char → Nat
  | mark :: cs =>
    if mark = 'e' ∨ mark = 'E' then
      let sign := match cs with
        | '+' :: _ | '-' :: _ => 1
        | _ => 0
      let digits := run Text.isDecimalDigit (cs.drop sign)
      if digits = 0 then 0 else 1 + sign + digits
    else 0
  | [] => 0

/-- The number of characters that belong to a number after its first digit. -/
def numberExtent (cs : List Char) : Nat :=
  let whole := run Text.isDecimalDigit cs
  let fraction := fractionExtent (cs.drop whole)
  whole + fraction + exponentExtent (cs.drop (whole + fraction))

/-- An operator or bracket with its first character `c`: its kind and the number of further
characters. -/
def operator? (c : Char) (cs : List Char) : Option (TokenKind × Nat) :=
  match c, cs with
  | '=', '=' :: '=' :: _ => some (.strictEqual, 2)
  | '=', '=' :: _ => some (.equal, 1)
  | '=', '>' :: _ => some (.arrow, 1)
  | '=', _ => some (.assign, 0)
  | '!', '=' :: '=' :: _ => some (.strictUnequal, 2)
  | '!', '=' :: _ => some (.unequal, 1)
  | '!', _ => some (.bang, 0)
  | '<', '=' :: _ => some (.atMost, 1)
  | '<', _ => some (.less, 0)
  | '>', '=' :: _ => some (.atLeast, 1)
  | '>', _ => some (.greater, 0)
  | '&', '&' :: _ => some (.both, 1)
  | '|', '|' :: _ => some (.either, 1)
  | '+', '=' :: _ => some (.plusAssign, 1)
  | '+', _ => some (.plus, 0)
  | '-', '=' :: _ => some (.minusAssign, 1)
  | '-', _ => some (.minus, 0)
  | '*', _ => some (.star, 0)
  | '/', _ => some (.slash, 0)
  | '%', _ => some (.percent, 0)
  | '?', _ => some (.question, 0)
  | ':', _ => some (.colon, 0)
  | ',', _ => some (.comma, 0)
  | '.', _ => some (.dot, 0)
  | ';', _ => some (.semicolon, 0)
  | '(', _ => some (.leftParen, 0)
  | ')', _ => some (.rightParen, 0)
  | '[', _ => some (.leftBracket, 0)
  | ']', _ => some (.rightBracket, 0)
  | '\x7b', _ => some (.leftBrace, 0)
  | '\x7d', _ => some (.rightBrace, 0)
  | _, _ => none

/-- The blanks or the comment that start with `c`, by the number of further characters. -/
def gap? (c : Char) (cs : List Char) : Option Nat :=
  if isBlank c then some (run isBlank cs)
  else if c = '/' then
    match cs with
    | '/' :: rest => some (run (· ≠ '\n') rest + 1)
    | '*' :: rest => (commentExtent rest).map (· + 1)
    | _ => none
  else none

/-- The token that starts with `c`: its kind and the number of further characters. -/
def token? (c : Char) (cs : List Char) : Option (TokenKind × Nat) :=
  if c = '\n' then some (.newline, 0)
  else if isNameStart c then
    let more := run isNameChar cs
    some (.ofWord (String.ofList (c :: cs.take more)), more)
  else if Text.isDecimalDigit c then some (.number, numberExtent cs)
  else if c = '"' ∨ c = '\'' then (stringExtent c cs).map (TokenKind.string, ·)
  else operator? c cs

end Lexer

/-- What reading a text gives: its tokens, and the character that stopped it, if one did. -/
structure Tokens where
  /-- The tokens in order. -/
  tokens : List Token
  /-- The character that starts no lexeme, with its place. -/
  stop : Option (Char × Origin)

namespace Lexer

/-- Reads the tokens of a text that starts at the given place. -/
def scan (o : Origin) : List Char → Tokens
  | [] => ⟨[], none⟩
  | c :: cs =>
    match gap? c cs with
    | some n => scan (o.advance (c :: cs.take n)) (cs.drop n)
    | none =>
      match token? c cs with
      | some (kind, n) =>
        let text := c :: cs.take n
        let rest := scan (o.advance text) (cs.drop n)
        { rest with tokens := ⟨kind, String.ofList text, o⟩ :: rest.tokens }
      | none => ⟨[], some (c, o)⟩
termination_by cs => cs.length
decreasing_by all_goals simp only [List.length_drop, List.length_cons]; omega

end Lexer

/-- The tokens of a text. Numbers of places count from `base`. -/
def Tokens.ofText (text : String) (base : Nat) : Tokens := Lexer.scan ⟨base, 1, 1⟩ text.toList

end MessageBinder
