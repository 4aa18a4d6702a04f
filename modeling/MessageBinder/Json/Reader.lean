import MessageBinder.Decimal
import MessageBinder.Json.Basic
import MessageBinder.Text.DecimalDigit

/-!
# Reading JSON

One value, blanks around it, and nothing else. The reader accepts the three numbers that are not
finite, keeps the order of an object's keys and lets a later value of a key replace the earlier one.
A failure says what was expected and on which line. A byte order mark at the start is refused, and
so is an integer with more digits than the reader admits, if it limits them. Two escapes in a row
that name a high and a low surrogate are one character; any other surrogate stays what it is.

Inside the reader a place in the text is given by the number of characters from it to the end; the
line is worked out once, when the failure leaves the reader.
-/

namespace MessageBinder

/-- Why a text is no JSON value. -/
inductive JsonFault where
  /-- The text starts with a byte order mark. -/
  | byteOrderMark
  /-- A value should stand here. -/
  | expectedValue
  /-- A second value follows the first. -/
  | extraData
  /-- A quoted key should stand here. -/
  | expectedKey
  /-- A colon should stand here. -/
  | expectedColon
  /-- A comma or the closing bracket should stand here. -/
  | expectedComma
  /-- A string is not closed. -/
  | unterminatedString
  /-- A string holds a raw control character. -/
  | controlCharacter
  /-- A backslash is followed by no known letter. -/
  | invalidEscape
  /-- A code point escape has too few hexadecimal digits. -/
  | invalidCodePoint
  /-- An integer has too many digits. -/
  | longInteger (digits : Nat)
deriving DecidableEq, Repr

/-- The wording of a fault. -/
def JsonFault.message : JsonFault → String
  | .byteOrderMark => "Unexpected UTF-8 BOM (decode using utf-8-sig)"
  | .expectedValue => "Expecting value"
  | .extraData => "Extra data"
  | .expectedKey => "Expecting property name enclosed in double quotes"
  | .expectedColon => "Expecting ':' delimiter"
  | .expectedComma => "Expecting ',' delimiter"
  | .unterminatedString => "Unterminated string starting at"
  | .controlCharacter => "Invalid control character at"
  | .invalidEscape => "Invalid \\escape"
  | .invalidCodePoint => "Invalid \\uXXXX escape"
  | .longInteger digits => Text.tooManyDigits digits

/-- A failure to read JSON. -/
structure JsonError where
  /-- The cause. -/
  fault : JsonFault
  /-- The line of the failure, counted from one. -/
  line : Nat
deriving DecidableEq, Repr

namespace Json

/-- The outcome of reading: a result, or a fault and the number of characters from its place to the
end. A result goes with the characters after it. -/
abbrev Reading := Except (JsonFault × Nat)

/-- Drops the blanks at the front. -/
def skipBlanks (cs : List Char) : List Char :=
  cs.dropWhile fun c => c = ' ' || c = '\t' || c = '\n' || c = '\r'

/-! ### Strings -/

/-- The code point that a letter stands for after a backslash. -/
def escapeValue? : Char → Option Nat
  | '"' => some 0x22
  | '\\' => some 0x5C
  | '/' => some 0x2F
  | 'b' => some 0x08
  | 'f' => some 0x0C
  | 'n' => some 0x0A
  | 'r' => some 0x0D
  | 't' => some 0x09
  | _ => none

/-- Reads a string after its opening quote, at which `start` characters were left. A code point
escape must not be the last thing in the text. -/
def readString (start : Nat) : List Char → Reading (List Nat × List Char)
  | [] => .error (.unterminatedString, start)
  | c :: cs =>
    if c = '"' then .ok ([], cs)
    else if c = '\\' then
      match cs with
      | [] => .error (.unterminatedString, start)
      | 'u' :: ds =>
        match Text.hexNumber? (ds.take 4) with
        | some n =>
          if ds.length < 5 then .error (.invalidCodePoint, ds.length + 1)
          else do
            let (ns, rest) ← readString start (ds.drop 4)
            return (n :: ns, rest)
        | none => .error (.invalidCodePoint, ds.length + 1)
      | l :: ds =>
        match escapeValue? l with
        | some n => do
          let (ns, rest) ← readString start ds
          return (n :: ns, rest)
        | none => .error (.invalidEscape, ds.length + 2)
    else if c.toNat < 0x20 then .error (.controlCharacter, cs.length + 1)
    else do
      let (ns, rest) ← readString start cs
      return (c.toNat :: ns, rest)
termination_by cs => cs.length
decreasing_by all_goals grind

/-- Reads a string after its opening quote. -/
def readText (cs : List Char) : Reading (CodeText × List Char) := do
  let (ns, rest) ← readString (cs.length + 1) cs
  return (.ofNats (Text.joinPairs ns), rest)

/-! ### Numbers -/

/-- The part of a number after its integer digits: the fraction digits, the exponent, and what is
left. A point or an exponent mark that no digit follows belongs to what comes after the number. -/
def readScale (cs : List Char) : Option (List Char) × Option Int × List Char :=
  let (fraction, cs) :=
    match cs with
    | '.' :: ds =>
      if (ds.takeWhile Char.isDigit).isEmpty then (none, cs)
      else (some (ds.takeWhile Char.isDigit), ds.dropWhile Char.isDigit)
    | _ => (none, cs)
  match cs with
  | mark :: ds =>
    if mark = 'e' ∨ mark = 'E' then
      let (negative, es) :=
        match ds with
        | '-' :: es => (true, es)
        | '+' :: es => (false, es)
        | _ => (false, ds)
      let digits := es.takeWhile Char.isDigit
      if digits.isEmpty then (fraction, none, cs)
      else
        let n : Int := (Nat.ofDigitChars 10 digits 0 : Nat)
        (fraction, some (if negative then -n else n), es.dropWhile Char.isDigit)
    else (fraction, none, cs)
  | [] => (fraction, none, cs)

/-- Reads a number, whose digits may be limited if it is an integer. -/
def readNumber (limit : Option Nat) (cs : List Char) : Reading (Json × List Char) :=
  let (negative, ds) :=
    match cs with
    | '-' :: ds => (true, ds)
    | _ => (false, cs)
  let whole :=
    match ds with
    | '0' :: _ => ['0']
    | _ => ds.takeWhile Char.isDigit
  if whole.isEmpty then .error (.expectedValue, cs.length)
  else
    let (fraction, exponent, rest) := readScale (ds.drop whole.length)
    if fraction.isNone && exponent.isNone then
      if limit.any (· < whole.length) then .error (.longInteger whole.length, ds.length)
      else
        let n : Int := (Nat.ofDigitChars 10 whole 0 : Nat)
        .ok (.int (if negative then -n else n), rest)
    else
      let part := fraction.getD []
      let x := Decimal.toFloat
        ⟨Nat.ofDigitChars 10 (whole ++ part) 0, exponent.getD 0 - part.length⟩
      .ok (.float (if negative then -x else x), rest)

/-- The values that are written as a word. -/
def words : List (String × Json) :=
  [("null", .null), ("true", .bool true), ("false", .bool false),
   ("NaN", .float (Float.ofBits 0x7FF8000000000000)),
   ("Infinity", .float (Float.ofBits 0x7FF0000000000000)),
   ("-Infinity", .float (Float.ofBits 0xFFF0000000000000))]

/-- Reads a number or a word. -/
def readScalar (limit : Option Nat) (cs : List Char) : Reading (Json × List Char) :=
  match words.find? fun w => w.1.toList.isPrefixOf cs with
  | some (word, value) => .ok (value, cs.drop word.length)
  | none => readNumber limit cs

/-! ### Values -/

variable (limit : Option Nat)

mutual

/-- Reads a value. The first argument bounds the nesting; the length of the text is enough. -/
def readValue : Nat → List Char → Reading (Json × List Char)
  | 0, cs => .error (.expectedValue, cs.length)
  | depth + 1, cs =>
    match cs with
    | '"' :: rest => do
      let (s, rest) ← readText rest
      return (.string s, rest)
    | '[' :: rest =>
      match skipBlanks rest with
      | ']' :: rest => .ok (.array [], rest)
      | rest => do
        let (items, rest) ← readItems depth rest
        return (.array items, rest)
    | '\x7b' :: rest =>
      match skipBlanks rest with
      | '\x7d' :: rest => .ok (.object [], rest)
      | rest => do
        let (fields, rest) ← readFields depth rest
        return (.object (Table.ofEntries fields), rest)
    | _ => readScalar limit cs

/-- Reads the items of an array up to its closing bracket. -/
def readItems : Nat → List Char → Reading (List Json × List Char)
  | 0, cs => .error (.expectedValue, cs.length)
  | depth + 1, cs => do
    let (item, rest) ← readValue depth cs
    match skipBlanks rest with
    | ']' :: rest => return ([item], rest)
    | ',' :: rest =>
      let (items, rest) ← readItems depth (skipBlanks rest)
      return (item :: items, rest)
    | rest => throw (.expectedComma, rest.length)

/-- Reads the fields of an object up to its closing brace. -/
def readFields : Nat → List Char → Reading (List (CodeText × Json) × List Char)
  | 0, cs => .error (.expectedKey, cs.length)
  | depth + 1, cs =>
    match cs with
    | '"' :: rest => do
      let (key, rest) ← readText rest
      match skipBlanks rest with
      | ':' :: rest =>
        let (value, rest) ← readValue depth (skipBlanks rest)
        match skipBlanks rest with
        | '\x7d' :: rest => return ([(key, value)], rest)
        | ',' :: rest =>
          let (fields, rest) ← readFields depth (skipBlanks rest)
          return ((key, value) :: fields, rest)
        | rest => throw (.expectedComma, rest.length)
      | rest => throw (.expectedColon, rest.length)
    | _ => .error (.expectedKey, cs.length)

end

/-- Reads a text that holds one value. -/
def readAll (limit : Option Nat) (cs : List Char) : Reading Json := do
  if cs.head? = some '\ufeff' then throw (.byteOrderMark, cs.length)
  let (value, rest) ← readValue limit (cs.length + 1) (skipBlanks cs)
  let rest := skipBlanks rest
  if rest.isEmpty then return value else throw (.extraData, rest.length)

/-- The JSON value of a text, the digits of whose integers may be limited. -/
def parse (limit : Option Nat) (text : String) : Except JsonError Json :=
  let cs := text.toList
  (readAll limit cs).mapError fun (fault, left) =>
    ⟨fault, (cs.take (cs.length - left)).count '\n' + 1⟩

end Json

end MessageBinder
