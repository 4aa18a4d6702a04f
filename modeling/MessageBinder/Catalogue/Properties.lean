import MessageBinder.Catalogue.Basic
import MessageBinder.Text.Lines

/-!
# Properties text

A catalogue as lines of a key and a value. Blanks at the front of a line do not count; a line that
is empty then, or starts with a number sign or an exclamation mark, is a comment. A line that ends
in an odd number of backslashes goes on with the next line. The key ends at the first blank, equals
sign or colon that no backslash protects; blanks around one such sign belong to neither side.

A backslash writes four controls by a letter and code points by four hexadecimal digits; before any
other character it stands for that character. Each escape writes a code point of its own, also one
that names half of a surrogate pair. A later value of a key replaces the earlier one.
-/

namespace MessageBinder

namespace Properties

/-! ### Lines -/

/-- Whether a character is a blank. -/
def isBlank (c : Char) : Bool := c = ' ' || c = '\t' || c = '\x0c'

/-- Whether a character parts a key from its value. -/
def isSeparator (c : Char) : Bool := c = '=' || c = ':'

/-- A text without the blanks at its front. -/
def trimLeft (cs : List Char) : List Char := cs.dropWhile isBlank

/-- Whether a line goes on with the next one: it ends in an odd number of backslashes. -/
def continues (cs : List Char) : Bool := (cs.reverse.takeWhile (· = '\\')).length % 2 = 1

/-- Whether a line holds no entry. -/
def isComment : List Char → Bool
  | [] => true
  | c :: _ => c = '#' || c = '!'

/-- A line that joins lines of the text, with the number of the first of them. -/
structure LogicalLine where
  /-- The number of its first line. -/
  line : Nat
  /-- Its characters. -/
  text : List Char
deriving DecidableEq, Repr

/-- Joins lines, the first of which has the given number. A line begun is `pending`. -/
def logicalLines (pending : Option LogicalLine) (number : Nat) :
    List (List Char) → List LogicalLine
  | [] => pending.toList
  | raw :: rest =>
    let text := trimLeft raw
    if pending.isNone && isComment text then logicalLines none (number + 1) rest
    else
      let begun := pending.getD ⟨number, []⟩
      if continues text then
        logicalLines (some { begun with text := begun.text ++ text.dropLast }) (number + 1) rest
      else { begun with text := begun.text ++ text } :: logicalLines none (number + 1) rest

/-! ### Entries -/

/-- The number of characters of the key at the front of a line. -/
def keyExtent : List Char → Nat
  | [] => 0
  | ['\\'] => 1
  | '\\' :: _ :: cs => keyExtent cs + 2
  | c :: cs => if isSeparator c || isBlank c then 0 else keyExtent cs + 1

/-- A value without the separator in front of it. -/
def withoutSeparator (cs : List Char) : List Char :=
  match trimLeft cs with
  | c :: rest => if isSeparator c then trimLeft rest else c :: rest
  | [] => []

/-- The key and the value of a line, escapes and all. -/
def splitEntry (cs : List Char) : List Char × List Char :=
  (cs.take (keyExtent cs), withoutSeparator (cs.drop (keyExtent cs)))

/-- The character that a letter stands for after a backslash. -/
def escaped : Char → Char
  | 't' => '\t'
  | 'n' => '\n'
  | 'r' => '\r'
  | 'f' => '\x0c'
  | c => c

/-- The code points that a key or a value writes, unless an escape is malformed. -/
def codePoints? : List Char → Option (List Nat)
  | [] => some []
  | ['\\'] => some []
  | '\\' :: 'u' :: cs =>
    if (cs.take 4).length < 4 then none
    else do
      let n ← Text.hexNumber? (cs.take 4)
      return n :: (← codePoints? (cs.drop 4))
  | '\\' :: c :: cs => (codePoints? cs).map ((escaped c).toNat :: ·)
  | c :: cs => (codePoints? cs).map (c.toNat :: ·)
termination_by cs => cs.length
decreasing_by all_goals simp only [List.length_drop, List.length_cons]; omega

/-- The text that a key or a value writes, unless an escape is malformed. -/
def unescape? (cs : List Char) : Option CodeText := (codePoints? cs).map .ofNats

/-- The entry of a line. -/
def entry (origin : String) (l : LogicalLine) : Except CatalogueError (CodeText × CodeText) :=
  let (key, value) := splitEntry l.text
  match unescape? key, unescape? value with
  | some k, some v => .ok (k, v)
  | _, _ => .error ⟨.malformedEscape l.line, origin⟩

/-- The catalogue that a text writes. -/
def parse (text origin : String) : Except CatalogueError Catalogue := do
  let lines := logicalLines none 1 (Text.splitLines text.toList)
  return Table.ofEntries (← lines.mapM (entry origin))

end Properties

end MessageBinder
