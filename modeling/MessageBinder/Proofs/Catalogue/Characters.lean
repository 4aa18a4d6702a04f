import Mathlib.Data.List.TakeWhile
import MessageBinder.Catalogue.Properties

/-!
# Properties text, one character after the other

What is made of a line of properties text is decided in several passes over it. Each of them is told
here by what it does with one character, so that a text can be followed while it is written or read:

* a line is over with the first line end (`MessageBinder.Text.splitLines_line`);
* the blanks at its front are over with the first other character
  (`MessageBinder.Properties.trimLeft_concat`);
* at its back each character turns the parity of the backslashes or clears it
  (`MessageBinder.Properties.continues_concat`);
* a key, and what it writes, goes on with a character or with an escape, which a backslash opens
  (`MessageBinder.Properties.keyExtent_escape`, `MessageBinder.Properties.codePoints?_escape` and
  their likes).
-/

namespace MessageBinder

namespace Text

/-- Whether a character ends a line of a text beside line breaks and form feeds. -/
def isForeignEnd (c : Char) : Bool :=
  c = '\x0b' || c = '\x1c' || c = '\x1d' || c = '\x1e' || c = '\u0085' || c = '\u2028' ||
    c = '\u2029'

theorem isLineEnd_eq (c : Char) :
    isLineEnd c = (c = '\n' || c = '\r' || c = '\x0c' || isForeignEnd c) := by
  simp only [isLineEnd, isForeignEnd]
  ac_rfl

theorem splitLines_crlf (cs : List Char) : splitLines ('\r' :: '\n' :: cs) = [] :: splitLines cs :=
  rfl

/-- A character that opens no pair ends its line or is part of it. -/
theorem splitLines_single {c : Char} {cs : List Char} (hpair : c = '\r' → cs.head? ≠ some '\n') :
    splitLines (c :: cs)
      = if isLineEnd c then [] :: splitLines cs else consLine c (splitLines cs) := by
  rw [splitLines.eq_def]
  split
  · rename_i hcs
    cases hcs
  · rename_i hcs
    obtain ⟨rfl, rfl⟩ := List.cons.inj hcs
    exact absurd rfl (hpair rfl)
  · rename_i hcs
    obtain ⟨rfl, rfl⟩ := List.cons.inj hcs
    rfl

/-- A line ends at a line end; a carriage return takes a line feed with it. -/
theorem splitLines_end {c : Char} {cs : List Char} (hc : isLineEnd c)
    (hpair : c = '\r' → cs.head? ≠ some '\n') : splitLines (c :: cs) = [] :: splitLines cs := by
  rw [splitLines_single hpair, if_pos hc]

/-- Any other character is part of its line. -/
theorem splitLines_cons {c : Char} (hc : isLineEnd c = false) (cs : List Char) :
    splitLines (c :: cs) = consLine c (splitLines cs) := by
  have hreturn : c ≠ '\r' := by
    rintro rfl
    exact absurd hc (by decide)
  rw [splitLines_single fun h => absurd h hreturn, if_neg (by simp [hc])]

/-- **A line in front of a text** that has no line end of its own is the first line. -/
theorem splitLines_line {line : List Char} (h : ∀ c ∈ line, isLineEnd c = false) (cs : List Char) :
    splitLines (line ++ '\n' :: cs) = line :: splitLines cs := by
  induction line with
  | nil => exact splitLines_end (by decide) nofun
  | cons c line ih =>
    obtain ⟨hc, hline⟩ := List.forall_mem_cons.1 h
    rw [List.cons_append, splitLines_cons hc, ih hline, consLine]

end Text

namespace Properties

variable {c : Char} {cs : List Char}

/-! ### The front of a line -/

/-- Behind its blanks a line is as it is. -/
theorem trimLeft_eq_self (h : ∀ c ∈ cs.head?, isBlank c = false) : trimLeft cs = cs := by
  cases cs with
  | nil => rfl
  | cons c cs => exact List.dropWhile_cons_of_neg (by simpa using h c rfl)

/-- The blanks at the front of a line are over with the first other character. -/
theorem trimLeft_concat (cs : List Char) (c : Char) : trimLeft (cs ++ [c]) =
    if trimLeft cs = [] then if isBlank c then [] else [c] else trimLeft cs ++ [c] := by
  rw [trimLeft, trimLeft, List.dropWhile_append]
  by_cases hcs : cs.dropWhile isBlank = []
  · rw [if_pos hcs, if_pos (by simp [hcs])]
    by_cases hc : isBlank c <;> simp [hc]
  · rw [if_neg hcs, if_neg (by simpa using hcs)]

/-! ### The back of a line -/

/-- **Each character turns or clears the parity** of the backslashes at the end of a line. -/
theorem continues_concat (cs : List Char) (c : Char) :
    continues (cs ++ [c]) = (c = '\\' && !continues cs) := by
  rw [continues, continues, List.reverse_concat]
  by_cases hc : c = '\\'
  · rw [List.takeWhile_cons_of_pos (by simpa using hc), List.length_cons]
    simp only [hc]
    grind
  · rw [List.takeWhile_cons_of_neg (by simpa using hc)]
    simp [hc]

/-- A line that ends in something else does not go on. -/
theorem continues_concat_of_ne (hc : c ≠ '\\') (cs : List Char) :
    continues (cs ++ [c]) = false := by
  simp [continues_concat, hc]

/-! ### Joining lines -/

/-- A line that is no comment and does not go on is a logical line. -/
theorem logicalLines_cons {line : List Char} (hfront : ∀ c ∈ line.head?, isBlank c = false)
    (hcomment : isComment line = false) (hends : continues line = false) (number : Nat)
    (rest : List (List Char)) : logicalLines none number (line :: rest)
      = ⟨number, line⟩ :: logicalLines none (number + 1) rest := by
  simp [logicalLines, trimLeft_eq_self hfront, hcomment, hends]

/-! ### Keys -/

theorem keyExtent_escape (c : Char) (cs : List Char) :
    keyExtent ('\\' :: c :: cs) = keyExtent cs + 2 := by
  rw [keyExtent]

/-- A key ends at a separator or a blank that no backslash protects. -/
theorem keyExtent_cons (hc : c ≠ '\\') (cs : List Char) :
    keyExtent (c :: cs) = if isSeparator c || isBlank c then 0 else keyExtent cs + 1 := by
  rw [keyExtent]
  · exact fun hbackslash => absurd hbackslash hc
  · exact fun _ _ hbackslash => absurd hbackslash hc

/-! ### Escapes -/

/-- Four digits behind a backslash and a `u` write a code point. -/
theorem codePoints?_unit {ds : List Char} {n : Nat} (hlength : ds.length = 4)
    (h : Text.hexNumber? ds = some n) (cs : List Char) :
    codePoints? ('\\' :: 'u' :: (ds ++ cs)) = (codePoints? cs).map (n :: ·) := by
  rw [codePoints?, List.take_left' hlength, List.drop_left' hlength, if_neg (by omega), h]
  cases codePoints? cs <;> rfl

/-- Any other character behind a backslash stands for one of its own. -/
theorem codePoints?_escape (hc : c ≠ 'u') (cs : List Char) :
    codePoints? ('\\' :: c :: cs) = (codePoints? cs).map ((escaped c).toNat :: ·) := by
  rw [codePoints?]
  exact hc

theorem codePoints?_cons (hc : c ≠ '\\') (cs : List Char) :
    codePoints? (c :: cs) = (codePoints? cs).map (c.toNat :: ·) := by
  rw [codePoints?]
  · exact fun hbackslash => absurd hbackslash hc
  · exact fun _ hbackslash => absurd hbackslash hc
  · exact fun _ _ hbackslash => absurd hbackslash hc

end Properties

end MessageBinder
