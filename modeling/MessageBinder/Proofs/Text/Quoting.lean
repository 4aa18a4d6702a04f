import Mathlib.Algebra.GroupWithZero.Nat
import MessageBinder.Text.Quoted
import MessageBinder.Token.Lexer
import MessageBinder.Tree.Literal

/-!
# A quoted text is read back

Between double quotes every text is one string token, and its value is the text
(`MessageBinder.StringLiteral.value?_quoted`). Both are shown code point by code point: a character
that stands for itself is no quote, backslash, line feed or carriage return, and the escape of any
other is read back as its number.

What is read is a text of characters, and a text of code points is one only if it holds no
surrogates. It is therefore read in the form in which escapes stand for them
(`MessageBinder.CodeText.written`): inside quotes these are read back as the surrogates, and a text
without surrogates is written as it is.
-/

namespace MessageBinder

/-! ### Escapes in the place of surrogates -/

/-- The characters that write a code point: those of its escape if it is a surrogate. -/
def CodePoint.written : CodePoint → List Char
  | char c => [c]
  | surrogate offset => Text.unitEscape (CodePoint.surrogate offset).toNat

namespace CodeText

/-- The characters that write a text, with an escape in the place of each surrogate. -/
def written (s : CodeText) : List Char := s.codes.flatMap CodePoint.written

@[simp] theorem written_append (s t : CodeText) : (s ++ t).written = s.written ++ t.written := by
  simp [written]

@[simp] theorem written_join (texts : List CodeText) :
    (join texts).written = texts.flatMap written := by
  rw [written, join, List.flatMap_assoc]
  rfl

@[simp] theorem written_intercalate (separator : CodeText) (texts : List CodeText) :
    (intercalate separator texts).written = separator.written.intercalate (texts.map written) := by
  induction texts with
  | nil => rfl
  | cons s texts ih =>
    cases texts with
    | nil => simp
    | cons t texts => simp [intercalate_cons_cons, ih]

/-- A text without surrogates is written as it is. -/
@[simp] theorem written_ofString (s : String) : (s : CodeText).written = s.toList := by
  simp [written, List.flatMap_map, CodePoint.written]

end CodeText

namespace Text

/-! ### Hexadecimal digits -/

theorem hexValue?_hexDigit {n : Nat} (h : n < 16) : hexValue? (hexDigit n) = some n := by
  rcases n with _ | _ | _ | _ | _ | _ | _ | _ | _ | _ | _ | _ | _ | _ | _ | _ | n
  all_goals first | rfl | omega

@[simp] theorem length_hexPadded (width n : Nat) : (hexPadded width n).length = width := by
  induction width generalizing n with
  | zero => rfl
  | succ width ih => rw [hexPadded, List.length_append, ih, List.length_singleton]

/-- Padded digits write the number, as far as they reach. -/
theorem hexNumber?_hexPadded (width n : Nat) :
    hexNumber? (hexPadded width n) = some (n % 16 ^ width) := by
  induction width generalizing n with
  | zero => simp [hexPadded, hexNumber?, Nat.mod_one]
  | succ width ih =>
    have hdigit := hexValue?_hexDigit (Nat.mod_lt n (by decide : 0 < 16))
    unfold hexNumber? at ih ⊢
    rw [hexPadded, List.foldlM_append, ih, Nat.pow_succ']
    simp only [Option.bind_eq_bind, Option.bind_some, List.foldlM_cons, List.foldlM_nil, hdigit,
      Option.map_some, Option.pure_def]
    rw [Nat.mod_mul, Nat.add_comm]

/-- A digit is no character that a quoted text has to escape. -/
theorem mem_hexPadded {width n : Nat} {c : Char} (hc : c ∈ hexPadded width n) :
    c ≠ '\n' ∧ c ≠ '"' ∧ c ≠ '\\' := by
  induction width generalizing n with
  | zero => cases hc
  | succ width ih =>
    rw [hexPadded, List.mem_append, List.mem_singleton] at hc
    rcases hc with hc | rfl
    · exact ih hc
    · have hlt := Nat.mod_lt n (by decide : 0 < 16)
      revert hlt
      generalize n % 16 = d
      intro hd
      rcases d with _ | _ | _ | _ | _ | _ | _ | _ | _ | _ | _ | _ | _ | _ | _ | _ | d
      all_goals first | decide | omega

/-! ### Code points -/

theorem isHighSurrogate_toNat (c : Char) : isHighSurrogate c.toNat = false := by
  have hvalid : c.toNat < 0xD800 ∨ 0xDFFF < c.toNat ∧ c.toNat < 0x110000 := c.valid
  simp only [isHighSurrogate, Bool.and_eq_false_imp, decide_eq_true_eq, decide_eq_false_iff_not]
  omega

/-- The characters that write a code point inside a quoted text. -/
def quotedCodeChars (repertoire : Repertoire) : CodePoint → List Char
  | .char c => quotedChar repertoire c
  | .surrogate offset => unitEscape (CodePoint.surrogate offset).toNat

/-- The characters between the quotes. -/
def quotedBody (repertoire : Repertoire) (codes : List CodePoint) : List Char :=
  codes.flatMap (quotedCodeChars repertoire)

theorem flatMap_written_char (cs : List Char) :
    (cs.map CodePoint.char).flatMap CodePoint.written = cs := by
  simp [List.flatMap_map, CodePoint.written]

theorem flatMap_written_quotedCode (repertoire : Repertoire) (code : CodePoint) :
    (quotedCode repertoire code).flatMap CodePoint.written = quotedCodeChars repertoire code := by
  cases code with
  | char c => exact flatMap_written_char _
  | surrogate offset =>
    rw [quotedCode]
    split
    · exact List.flatMap_singleton ..
    · exact flatMap_written_char _

/-- The characters of a quoted text are a quote, those of its code points, and a quote. -/
theorem written_quoted (repertoire : Repertoire) (s : CodeText) :
    (quoted repertoire s).written = '"' :: (quotedBody repertoire s.codes ++ ['"']) := by
  simp only [CodeText.written, quoted, quotedBody, List.cons_append, List.flatMap_cons,
    List.flatMap_append, List.flatMap_assoc, flatMap_written_quotedCode, List.flatMap_nil]
  rfl

theorem toNat_surrogate_lt (offset : Fin 0x800) : (CodePoint.surrogate offset).toNat < 0x10000 := by
  have hoffset := offset.isLt
  rw [CodePoint.toNat]
  omega

/-- A text without surrogates is quoted without any. -/
theorem isText_quoted_of_isText {s : CodeText} (h : s.IsText) (repertoire : Repertoire) :
    (quoted repertoire s).IsText := by
  simp only [CodeText.isText_iff, quoted, List.mem_append, List.mem_cons, List.mem_flatMap,
    List.not_mem_nil, or_false] at h ⊢
  rintro code ((rfl | ⟨code', hcode', hcode⟩) | rfl)
  · rfl
  · rw [h code' hcode', quotedCode, List.mem_map] at hcode
    obtain ⟨c, -, rfl⟩ := hcode
    rfl
  · rfl

/-- Among all characters surrogates stand for themselves, so that a text is quoted without them only
if it has none. -/
@[simp] theorem isText_quoted {s : CodeText} : (quoted .unicode s).IsText ↔ s.IsText := by
  refine ⟨fun h => ?_, fun h => isText_quoted_of_isText h _⟩
  rw [CodeText.isText_iff] at h ⊢
  intro code hcode
  cases code with
  | char c => rfl
  | surrogate offset =>
    have hmem : CodePoint.surrogate offset ∈ (quoted .unicode s).codes :=
      List.mem_append_left _ (List.mem_cons_of_mem _ (List.mem_flatMap.2
        ⟨_, hcode, List.mem_singleton_self _⟩))
    exact h _ hmem

/-! ### Characters that stand for themselves -/

theorem ne_of_escapeLetter?_eq_none {c : Char} (h : escapeLetter? c = none) :
    c ≠ '"' ∧ c ≠ '\\' ∧ c ≠ '\n' ∧ c ≠ '\r' := by
  refine ⟨?_, ?_, ?_, ?_⟩
  all_goals
    rintro rfl
    cases h

theorem ne_newline_of_escapeLetter? {c d : Char} (h : escapeLetter? c = some d) : d ≠ '\n' := by
  unfold escapeLetter? at h
  split at h
  all_goals first
    | (obtain rfl := Option.some.inj h
       decide)
    | cases h

/-- A letter behind a backslash is read back as the character that it stands for. -/
theorem escape?_of_escapeLetter? [CharacterNames] {c d : Char} (h : escapeLetter? c = some d)
    (cs : List Char) : StringLiteral.escape? d cs = some ([c.toNat], 1) := by
  unfold escapeLetter? at h
  split at h
  all_goals first
    | (obtain rfl := Option.some.inj h
       rfl)
    | cases h

end Text

/-! ### The extent of a quoted text -/

namespace Lexer

open Text

theorem stringExtent_close (cs : List Char) : stringExtent '"' ('"' :: cs) = some 1 := by
  unfold stringExtent
  rw [if_neg (by decide), if_pos rfl]

theorem stringExtent_escape {d : Char} (h : d ≠ '\n') (cs : List Char) :
    stringExtent '"' ('\\' :: d :: cs) = (stringExtent '"' cs).map (· + 2) := by
  rw [stringExtent.eq_def]
  simp only [if_neg (by decide : ¬ '\\' = '\n'), if_neg (by decide : ¬ '\\' = '"'), if_true,
    if_neg h]

/-- Characters without a meaning in strings are passed over. -/
theorem stringExtent_append {cs : List Char} (h : ∀ c ∈ cs, c ≠ '\n' ∧ c ≠ '"' ∧ c ≠ '\\')
    (rest : List Char) :
    stringExtent '"' (cs ++ rest) = (stringExtent '"' rest).map (· + cs.length) := by
  induction cs with
  | nil => simp
  | cons c cs ih =>
    obtain ⟨hline, hquote, hbackslash⟩ := h c (List.mem_cons_self ..)
    rw [List.cons_append, stringExtent.eq_def]
    simp only [if_neg hline, if_neg hquote, if_neg hbackslash]
    rw [ih fun d hd => h d (List.mem_cons_of_mem _ hd), Option.map_map]
    rfl

theorem stringExtent_unitEscape (n : Nat) (rest : List Char) :
    stringExtent '"' (unitEscape n ++ rest)
      = (stringExtent '"' rest).map (· + (unitEscape n).length) := by
  rw [unitEscape, List.cons_append, List.cons_append, stringExtent_escape (by decide),
    stringExtent_append fun c hc => mem_hexPadded hc, Option.map_map]
  rfl

theorem stringExtent_quotedChar (c : Char) (rest : List Char) :
    stringExtent '"' (quotedChar .unicode c ++ rest)
      = (stringExtent '"' rest).map (· + (quotedChar .unicode c).length) := by
  unfold quotedChar
  split
  · rename_i d hd
    exact stringExtent_escape (ne_newline_of_escapeLetter? hd) rest
  · rename_i hnone
    split
    · exact stringExtent_unitEscape _ rest
    · obtain ⟨hquote, hbackslash, hline, -⟩ := ne_of_escapeLetter?_eq_none hnone
      rw [if_pos (by simp)]
      exact stringExtent_append (by simpa using ⟨hline, hquote, hbackslash⟩) rest

theorem stringExtent_quotedCodeChars (code : CodePoint) (rest : List Char) :
    stringExtent '"' (quotedCodeChars .unicode code ++ rest)
      = (stringExtent '"' rest).map (· + (quotedCodeChars .unicode code).length) := by
  cases code with
  | char c => exact stringExtent_quotedChar c rest
  | surrogate offset => exact stringExtent_unitEscape _ rest

theorem stringExtent_quotedBody (codes : List CodePoint) (rest : List Char) :
    stringExtent '"' (quotedBody .unicode codes ++ '"' :: rest)
      = some ((quotedBody .unicode codes).length + 1) := by
  induction codes with
  | nil => exact stringExtent_close rest
  | cons code codes ih =>
    rw [quotedBody, List.flatMap_cons, List.append_assoc, stringExtent_quotedCodeChars]
    rw [quotedBody] at ih
    rw [ih, Option.map_some, List.length_append]
    congr 1
    omega

end Lexer

/-! ### The value of a quoted text -/

namespace StringLiteral

open Text

theorem codePoints?_escape [CharacterNames] {d : Char} {ds : List Char} {ns : List Nat} {n : Nat}
    (h : escape? d ds = some (ns, n)) :
    codePoints? ('\\' :: d :: ds) = (codePoints? (ds.drop (n - 1))).map (ns ++ ·) := by
  rw [codePoints?, if_pos rfl]
  simp only [h, Option.bind_eq_bind, Option.bind_some]
  cases codePoints? (ds.drop (n - 1)) <;> rfl

variable [CharacterNames]

/-- The escape of a number of 16 bits is read back as the number. -/
theorem codePoints?_unitEscape {n : Nat} (hn : n < 0x10000) (rest : List Char) :
    codePoints? (unitEscape n ++ rest) = (codePoints? rest).map (n :: ·) := by
  have hhex : hexEscape? 4 (hexPadded 4 n ++ rest) = some n := by
    rw [hexEscape?, List.take_left' (length_hexPadded ..), length_hexPadded,
      if_neg (by decide), hexNumber?_hexPadded, Nat.mod_eq_of_lt (by omega)]
    simp only [Option.filter_some, decide_eq_true_eq]
    rw [if_pos (by omega)]
  have hescape : escape? 'u' (hexPadded 4 n ++ rest) = some ([n], 5) := by
    rw [escape?, if_neg (by decide), if_neg (by decide)]
    simp only [hexWidth?, hhex, Option.map_some]
  rw [unitEscape, List.cons_append, List.cons_append, codePoints?_escape hescape,
    List.drop_left' (length_hexPadded ..)]
  rfl

theorem codePoints?_quotedChar (c : Char) (rest : List Char) :
    codePoints? (quotedChar .unicode c ++ rest) = (codePoints? rest).map (c.toNat :: ·) := by
  unfold quotedChar
  split
  · rename_i d hd
    exact codePoints?_escape (escape?_of_escapeLetter? hd rest)
  · rename_i hnone
    split
    · rename_i hlt
      exact codePoints?_unitEscape (by omega) rest
    · rename_i hle
      obtain ⟨-, hbackslash, -, hreturn⟩ := ne_of_escapeLetter?_eq_none hnone
      have hnull : c ≠ '\x00' := by
        rintro rfl
        exact hle (by decide)
      rw [if_pos (by simp), List.singleton_append, codePoints?.eq_def]
      simp only [if_neg hbackslash]
      rw [if_neg (by simp [hreturn, hnull])]

theorem codePoints?_quotedBody (codes : List CodePoint) :
    codePoints? (quotedBody .unicode codes) = some (codes.map CodePoint.toNat) := by
  induction codes with
  | nil =>
    unfold codePoints?
    rfl
  | cons code codes ih =>
    rw [quotedBody] at ih ⊢
    rw [List.flatMap_cons]
    cases code with
    | char c =>
      rw [quotedCodeChars, codePoints?_quotedChar, ih]
      rfl
    | surrogate offset =>
      rw [quotedCodeChars, codePoints?_unitEscape (toNat_surrogate_lt offset), ih]
      rfl

/-- **The value of a quoted text is the text.** -/
theorem value?_quoted (s : CodeText) :
    value? (String.ofList (quoted .unicode s).written) = some s := by
  rw [value?, String.toList_ofList, written_quoted, List.tail_cons, List.dropLast_concat,
    codePoints?_quotedBody, Option.map_some, CodeText.ofNats_map_toNat]

end StringLiteral

end MessageBinder
