import Mathlib.Data.List.Chain
import MessageBinder.Proofs.Catalogue.Characters

/-!
# A reader of the format

The properties format is usually told as what a reader does with one character after the other, and
this is such a reader. It goes through the text once and puts the logical lines together
(`MessageBinder.Properties.Reader.linesFrom`): where it is in them tells what the next character is
taken for (`MessageBinder.Properties.Reader.Position`), and nothing else is remembered but the
number of the natural line. It goes through each logical line once more, for the key and the value,
and through each of these for the escapes (`MessageBinder.Properties.Reader.Decoder`).

It is written down on its own, to compare with. Natural lines end at line feeds, at carriage returns
and at both together, spaces, tabs and form feeds are white space wherever there is any, and a
logical line that is empty has no entry. What an escape writes is one unit of sixteen bits, so that
a high surrogate and a low one behind it write one character
(`MessageBinder.Properties.Reader.textOf`).

In what is made of a logical line the two agree already, but for such pairs: where a reader leaves
their halves apart, it reads the entry that is found
(`MessageBinder.Properties.Reader.entry_eq`).
-/

namespace MessageBinder.Properties.Reader

/-! ### Logical lines -/

/-- Whether a character is white space. -/
def isWhite (c : Char) : Bool := c = ' ' || c = '\t' || c = '\x0c'

/-- Whether a character ends a natural line. -/
def isBreak (c : Char) : Bool := c = '\n' || c = '\r'

/-- Where a reader is in its lines. -/
inductive Position where
  /-- In white space at the front of a natural line that continues none. -/
  | front
  /-- In a comment. -/
  | comment
  /-- In white space at the front of a natural line that continues a logical line. -/
  | resumed (line : LogicalLine)
  /-- In a logical line, with an odd number of backslashes just read or not. -/
  | content (line : LogicalLine) (escaped : Bool)
deriving DecidableEq, Repr

/-- Where a reader is behind a character that does not end its natural line, which has the given
number. -/
def Position.take (number : Nat) (c : Char) : Position → Position
  | front =>
    if isWhite c then front
    else if c = '#' || c = '!' then comment
    else content ⟨number, [c]⟩ (c = '\\')
  | comment => comment
  | resumed line =>
    if isWhite c then resumed line
    else content { line with text := line.text ++ [c] } (c = '\\')
  | content line escaped =>
    content { line with text := line.text ++ [c] } (c = '\\' && !escaped)

/-- The logical line that ends with a natural line, if one does, and where a reader is behind it. -/
def Position.endLine : Position → Option LogicalLine × Position
  | front => (none, front)
  | comment => (none, front)
  | resumed line => (some line, front)
  | content line false => (some line, front)
  | content line true => (none, resumed { line with text := line.text.dropLast })

/-- The logical line that ends with the text, if one does. -/
def Position.endText : Position → Option LogicalLine
  | front => none
  | comment => none
  | resumed line => some line
  | content line false => some line
  | content line true => some { line with text := line.text.dropLast }

/-- The logical lines of a text from a position on, in a natural line of the given number. -/
def linesFrom (p : Position) (number : Nat) : List Char → List LogicalLine
  | [] => p.endText.toList
  | '\r' :: '\n' :: cs => p.endLine.1.toList ++ linesFrom p.endLine.2 (number + 1) cs
  | c :: cs =>
    if isBreak c then p.endLine.1.toList ++ linesFrom p.endLine.2 (number + 1) cs
    else linesFrom (p.take number c) number cs

/-- The logical lines of a text, those that are empty among them. -/
def lines (text : String) : List LogicalLine := linesFrom .front 1 text.toList

/-! ### Entries -/

/-- Cuts a logical line behind its key: at the first separator or white space with no odd number of
backslashes in front. -/
def cutKey (escaped : Bool) : List Char → List Char × List Char
  | [] => ([], [])
  | c :: cs =>
    if !escaped && (isSeparator c || isWhite c) then ([], c :: cs)
    else
      let (key, rest) := cutKey (c = '\\' && !escaped) cs
      (c :: key, rest)

/-- What is behind the white space at the front of a line, and behind one separator in it. -/
def skipSeparator (separated : Bool) : List Char → List Char
  | [] => []
  | c :: cs =>
    if isWhite c then skipSeparator separated cs
    else if !separated && isSeparator c then skipSeparator true cs
    else c :: cs

/-- Where a reader is in the escapes of a key or a value. -/
inductive Decoder where
  /-- In none. -/
  | plain
  /-- Behind a backslash. -/
  | backslash
  /-- In the digits of a code point: how many are missing beside the next one, and the value of
  those that have been read. -/
  | digits (missing value : Nat)
deriving DecidableEq, Repr

/-- What a character stands for behind a backslash. -/
def meaning (c : Char) : Char :=
  if c = 't' then '\t'
  else if c = 'n' then '\n'
  else if c = 'r' then '\r'
  else if c = 'f' then '\x0c'
  else c

/-- The code points that a character completes and where a reader is behind it, unless it is no
digit where one is missing. -/
def Decoder.step? (c : Char) : Decoder → Option (List Nat × Decoder)
  | plain => some (if c = '\\' then ([], backslash) else ([c.toNat], plain))
  | backslash => some (if c = 'u' then ([], digits 3 0) else ([(meaning c).toNat], plain))
  | digits 0 value => (Text.hexValue? c).map fun d => ([16 * value + d], plain)
  | digits (missing + 1) value => (Text.hexValue? c).map fun d =>
    ([], digits missing (16 * value + d))

/-- The code points that characters write, unless digits are missing. -/
def decode? : Decoder → List Char → Option (List Nat)
  | .digits _ _, [] => none
  | _, [] => some []
  | d, c :: cs => do
    let (ns, d) ← d.step? c
    return ns ++ (← decode? d cs)

/-- The text that units write: a high surrogate and a low one behind it are one character. -/
def textOf (ns : List Nat) : CodeText := .ofNats (Text.joinPairs ns)

/-- The units that the key and the value of a logical line write, unless digits are missing. -/
def unitsOf? (line : LogicalLine) : Option (List Nat × List Nat) := do
  let (key, rest) := cutKey false line.text
  return (← decode? .plain key, ← decode? .plain (skipSeparator false rest))

/-- The entry of a logical line, whose texts are made of units in a given way. -/
def readEntry (make : List Nat → CodeText) (origin : String) (line : LogicalLine) :
    Except CatalogueError (CodeText × CodeText) :=
  match unitsOf? line with
  | some (ks, vs) => .ok (make ks, make vs)
  | none => .error ⟨.malformedEscape line.line, origin⟩

/-- The catalogue that logical lines write. -/
def readLines (make : List Nat → CodeText) (origin : String) (lines : List LogicalLine) :
    Except CatalogueError Catalogue := Table.ofEntries <$> lines.mapM (readEntry make origin)

/-- **The catalogue that a text writes** in the properties format. -/
def read (text origin : String) : Except CatalogueError Catalogue :=
  readLines textOf origin ((lines text).filter fun line => line.text ≠ [])

/-! ### Entries are read alike -/

theorem isWhite_eq_isBlank : isWhite = isBlank := rfl

theorem meaning_eq_escaped : meaning = escaped := by
  funext c
  unfold escaped
  split
  · rfl
  · rfl
  · rfl
  · rfl
  · rename_i ht hn hr hf
    rw [meaning, if_neg ht, if_neg hn, if_neg hr, if_neg hf]

/-- A line is cut at the end of its key. -/
theorem cutKey_eq (cs : List Char) :
    cutKey false cs = (cs.take (keyExtent cs), cs.drop (keyExtent cs)) := by
  fun_induction keyExtent cs with
  | case1 => rfl
  | case2 => rfl
  | case3 c cs ih => simp [cutKey, isSeparator, isWhite, ih]
  | case4 c cs _ hbackslash hends =>
    rw [cutKey, isWhite_eq_isBlank]
    simp [hends]
  | case5 c cs hlast hbackslash hends ih =>
    have hc : c ≠ '\\' := by
      rintro rfl
      cases cs with
      | nil => exact hlast rfl rfl
      | cons d cs => exact hbackslash d cs rfl rfl
    rw [cutKey, isWhite_eq_isBlank, if_neg (by simpa using hends)]
    simp [hc, ih]

/-- Behind the separator there is only white space to skip. -/
theorem skipSeparator_true (cs : List Char) : skipSeparator true cs = trimLeft cs := by
  induction cs with
  | nil => rfl
  | cons c cs ih =>
    rw [skipSeparator, isWhite_eq_isBlank]
    by_cases hc : isBlank c
    · rw [if_pos hc, ih, trimLeft, trimLeft, List.dropWhile_cons_of_pos hc]
    · rw [if_neg hc, trimLeft, List.dropWhile_cons_of_neg hc]
      rfl

theorem skipSeparator_false (cs : List Char) : skipSeparator false cs = withoutSeparator cs := by
  induction cs with
  | nil => rfl
  | cons c cs ih =>
    rw [skipSeparator, isWhite_eq_isBlank]
    by_cases hc : isBlank c
    · rw [if_pos hc, ih, withoutSeparator, withoutSeparator, trimLeft, trimLeft,
        List.dropWhile_cons_of_pos hc]
    · rw [if_neg hc, withoutSeparator, trimLeft, List.dropWhile_cons_of_neg hc, skipSeparator_true]
      rfl

/-- Digits are read to the end, or one of them is none. -/
theorem decode?_digits (missing value : Nat) (cs : List Char) :
    decode? (.digits missing value) cs = if cs.length < missing + 1 then none else do
      let n ← (cs.take (missing + 1)).foldlM (fun n c => (Text.hexValue? c).map (16 * n + ·)) value
      return n :: (← decode? .plain (cs.drop (missing + 1))) := by
  induction missing generalizing value cs with
  | zero =>
    cases cs with
    | nil => rfl
    | cons c cs =>
      rw [decode?, Decoder.step?]
      cases hc : Text.hexValue? c <;> simp [hc]
  | succ missing ih =>
    cases cs with
    | nil => rfl
    | cons c cs =>
      rw [decode?, Decoder.step?]
      cases hc : Text.hexValue? c <;> simp [hc, ih]

/-- **Escapes are read alike.** -/
theorem decode?_plain (cs : List Char) : decode? .plain cs = codePoints? cs := by
  have hunit : ∀ cs, decode? .plain ('\\' :: 'u' :: cs) = decode? (.digits 3 0) cs := fun cs => by
    simp [decode?, Decoder.step?]
  fun_induction codePoints? cs with
  | case1 => rfl
  | case2 => rfl
  | case3 cs hshort =>
    rw [List.length_take] at hshort
    rw [hunit, decode?_digits, if_pos (by omega)]
  | case4 cs hlong ih =>
    rw [List.length_take] at hlong
    rw [hunit, decode?_digits, if_neg (by omega), ih]
    rfl
  | case5 c cs hu ih =>
    rw [decode?, Decoder.step?, if_pos rfl, ← ih, ← meaning_eq_escaped]
    simp only [Option.bind_eq_bind, Option.bind_some, decode?, Decoder.step?, if_neg hu]
    cases decode? .plain cs <;> rfl
  | case6 c cs hlast _ hpair ih =>
    have hc : c ≠ '\\' := by
      rintro rfl
      cases cs with
      | nil => exact hlast rfl rfl
      | cons d cs => exact hpair d cs rfl rfl
    rw [decode?, Decoder.step?, if_neg hc, ← ih]
    simp only [Option.bind_eq_bind, Option.bind_some]
    cases decode? .plain cs <;> rfl

/-- **An entry is read alike** from whatever line, but for the halves of surrogate pairs: they are
left apart. -/
theorem entry_eq (origin : String) (line : LogicalLine) :
    entry origin line = readEntry .ofNats origin line := by
  rw [entry, readEntry, unitsOf?, splitEntry, cutKey_eq]
  simp only [decode?_plain, skipSeparator_false, unescape?]
  cases codePoints? (line.text.take (keyExtent line.text)) <;>
    cases codePoints? (withoutSeparator (line.text.drop (keyExtent line.text))) <;> rfl

/-! ### Surrogate pairs -/

/-- No low surrogate is right behind a high one. -/
def Unpaired (ns : List Nat) : Prop :=
  ns.IsChain fun m n => (Text.isHighSurrogate m && Text.isLowSurrogate n) = false

instance (ns : List Nat) : Decidable (Unpaired ns) := inferInstanceAs (Decidable (ns.IsChain _))

/-- **No pair of surrogates is written** in the key or in the value of a line. -/
def WritesNoPair (line : LogicalLine) : Prop :=
  ∀ us ∈ unitsOf? line, Unpaired us.1 ∧ Unpaired us.2

instance (line : LogicalLine) : Decidable (WritesNoPair line) :=
  inferInstanceAs (Decidable (∀ us ∈ unitsOf? line, Unpaired us.1 ∧ Unpaired us.2))

/-- Without pairs there is nothing to join. -/
theorem joinPairs_of_unpaired {ns : List Nat} (h : Unpaired ns) : Text.joinPairs ns = ns := by
  fun_induction Text.joinPairs ns with
  | case1 => rfl
  | case2 => rfl
  | case3 high low rest hpair =>
    rw [(List.isChain_cons_cons.1 h).1] at hpair
    cases hpair
  | case4 high low rest _ ih => rw [ih (List.isChain_cons_cons.1 h).2]

/-- Without pairs it does not matter whether their halves are left apart. -/
theorem readEntry_of_writesNoPair {line : LogicalLine} (h : WritesNoPair line) (origin : String) :
    readEntry .ofNats origin line = readEntry textOf origin line := by
  rw [readEntry, readEntry]
  cases hunits : unitsOf? line with
  | none => rfl
  | some us =>
    obtain ⟨hkey, hvalue⟩ := h us hunits
    simp only [textOf, joinPairs_of_unpaired hkey, joinPairs_of_unpaired hvalue]

theorem readLines_of_writesNoPair {lines : List LogicalLine}
    (h : ∀ line ∈ lines, WritesNoPair line) (origin : String) :
    readLines .ofNats origin lines = readLines textOf origin lines := by
  have hentries : lines.mapM (readEntry .ofNats origin) = lines.mapM (readEntry textOf origin) := by
    induction lines with
    | nil => rfl
    | cons line lines ih =>
      obtain ⟨hline, hlines⟩ := List.forall_mem_cons.1 h
      rw [List.mapM_cons, List.mapM_cons, readEntry_of_writesNoPair hline, ih hlines]
  rw [readLines, readLines, hentries]

end MessageBinder.Properties.Reader
