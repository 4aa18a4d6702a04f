import MessageBinder.Decimal
import MessageBinder.Text.DecimalDigit
import MessageBinder.Tree.Basic

/-!
# Literals

The value of a string between its quotes, and the value of a number. An escape is a backslash with
one of eleven letters and marks, with up to three octal digits, with two, four or eight hexadecimal
digits after `x`, `u` and `U`, or with the name of a character in braces after `N`; a backslash
before a carriage return is dropped together with it, and before anything else it stays. A
hexadecimal escape with too few digits or beyond the last code point, a name that no character goes
by, and a raw carriage return or null make the string unreadable.

The names of characters are a table that the reader is given. The value of a string is a text of
code points, since an escape may write a surrogate.
-/

namespace MessageBinder

/-- The names that characters go by. -/
class CharacterNames where
  /-- The character of a name. -/
  char? : String → Option Char

/-- No character goes by a name. -/
@[reducible] def CharacterNames.nameless : CharacterNames := ⟨fun _ => none⟩

namespace StringLiteral

variable [CharacterNames]

/-- The code point that a letter or mark stands for after a backslash. -/
def escapeValue? : Char → Option Nat
  | '\\' => some 0x5C
  | '\'' => some 0x27
  | '"' => some 0x22
  | 'a' => some 0x07
  | 'b' => some 0x08
  | 'f' => some 0x0C
  | 'n' => some 0x0A
  | 'r' => some 0x0D
  | 't' => some 0x09
  | 'v' => some 0x0B
  | _ => none

/-- Whether a character is an octal digit. -/
def isOctal (c : Char) : Bool := '0' ≤ c && c ≤ '7'

/-- The number of hexadecimal digits after a letter that starts a code point escape. -/
def hexWidth? : Char → Option Nat
  | 'x' => some 2
  | 'u' => some 4
  | 'U' => some 8
  | _ => none

/-- The code point of exactly `width` hexadecimal digits, if the text starts with them. -/
def hexEscape? (width : Nat) (cs : List Char) : Option Nat :=
  if (cs.take width).length < width then none
  else (Text.hexNumber? (cs.take width)).filter (· < 0x110000)

/-- Whether a character can stand in the name of a character. -/
def isNameChar (c : Char) : Bool := c.isAlphanum || c = ' ' || c = '-'

/-- The character whose name stands in braces at the front of a text, and the number of characters
that the name and the braces take. -/
def namedEscape? : List Char → Option (Char × Nat)
  | '\x7b' :: cs =>
    let name := cs.takeWhile isNameChar
    if (cs.drop name.length).head? = some '\x7d' && !name.isEmpty then
      (CharacterNames.char? (String.ofList name)).map fun c => (c, name.length + 2)
    else none
  | _ => none

/-- What follows a backslash: the code points it writes and the number of characters it takes. -/
def escape? (c : Char) (cs : List Char) : Option (List Nat × Nat) :=
  if c = '\r' then some ([], 1)
  else if isOctal c then
    let digits := ((c :: cs).take 3).takeWhile isOctal
    some ([digits.foldl (fun n d => 8 * n + (d.toNat - '0'.toNat)) 0], digits.length)
  else
    match hexWidth? c with
    | some width => (hexEscape? width cs).map fun n => ([n], width + 1)
    | none =>
      match escapeValue? c with
      | some n => some ([n], 1)
      | none =>
        if c = 'N' then (namedEscape? cs).map fun (d, width) => ([d.toNat], width + 1)
        else if c = '\x00' then none
        else some ([0x5C, c.toNat], 1)

/-- The code points that the characters between the quotes write. -/
def codePoints? : List Char → Option (List Nat)
  | [] => some []
  | c :: cs =>
    if c = '\\' then
      match cs with
      | [] => none
      | d :: ds => do
        let (ns, n) ← escape? d ds
        return ns ++ (← codePoints? (ds.drop (n - 1)))
    else if c = '\r' ∨ c = '\x00' then none
    else (codePoints? cs).map (c.toNat :: ·)
termination_by cs => cs.length
decreasing_by all_goals simp only [List.length_drop, List.length_cons]; omega

/-- The value of a string literal, given with its quotes. -/
def value? (raw : String) : Option CodeText :=
  (codePoints? raw.toList.tail.dropLast).map .ofNats

end StringLiteral

namespace NumberLiteral

/-- Whether a character marks a number that is no integer. -/
def isFloatMark (c : Char) : Bool := c = '.' || c = 'e' || c = 'E'

/-- The decimal that a number with a point or an exponent writes. -/
def decimal (cs : List Char) : Decimal :=
  let whole := cs.takeWhile (!isFloatMark ·)
  let rest := cs.drop whole.length
  let part :=
    match rest with
    | '.' :: ds => ds.takeWhile (!isFloatMark ·)
    | _ => []
  let exponent : Int :=
    match (rest.dropWhile fun c => c ≠ 'e' && c ≠ 'E').tail with
    | '-' :: ds => -(Text.decimalNumber ds : Int)
    | '+' :: ds => Text.decimalNumber ds
    | ds => Text.decimalNumber ds
  ⟨Text.decimalNumber (whole ++ part), exponent - part.length⟩

/-- The value of a number literal, or the number of its digits if they are too many for an
integer. -/
def value (raw : String) : Except Nat LiteralValue :=
  let cs := raw.toList
  if cs.any isFloatMark then .ok (.float (decimal cs).toFloat)
  else if Text.maxDigits < cs.length then .error cs.length
  else .ok (.integer (Text.decimalNumber cs))

end NumberLiteral

end MessageBinder
