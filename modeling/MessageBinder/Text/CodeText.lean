import MessageBinder.Text.Digits

/-!
# Texts of code points

Source files, arguments and paths are decoded before anything looks at them, so that their texts
hold characters only. An escape, however, writes a code point by its number, and the number may be
that of a surrogate: one of the 2048 code points that are halves of a pair and no characters. What
escapes can write is therefore a *text of code points*. Every text of characters is one; a text of
code points that holds a surrogate has no bytes in UTF-8 and cannot be stored.

Two surrogates in a row stay two code points here, also where together they could stand for one
character. Only JSON joins them, and its reader does so before the numbers become code points.
-/

namespace MessageBinder

/-- A character, or one of the surrogates, counted from U+D800. -/
inductive CodePoint where
  /-- A character. -/
  | char (c : Char)
  /-- A surrogate. -/
  | surrogate (offset : Fin 0x800)
deriving DecidableEq, Repr, Inhabited

namespace CodePoint

/-- The number of a code point. -/
def toNat : CodePoint → Nat
  | char c => c.toNat
  | surrogate offset => 0xD800 + offset

/-- The code point of a number, which lies below U+110000. -/
def ofNat (n : Nat) : CodePoint :=
  if n.isValidChar then char (Char.ofNat n) else surrogate (Fin.ofNat 0x800 (n - 0xD800))

/-- The character that a code point is. -/
def char? : CodePoint → Option Char
  | char c => some c
  | surrogate _ => none

/-- The character that stands in the place of a code point where only characters can stand. -/
def standIn : CodePoint → Char
  | char c => c
  | surrogate _ => '\ufffd'

@[simp] theorem ofNat_toNat (c : Char) : ofNat c.toNat = char c := by
  rw [ofNat, if_pos (show c.toNat.isValidChar from c.valid), Char.ofNat_toNat]

/-- A code point is that of its number. -/
theorem ofNat_toNat_self (code : CodePoint) : ofNat code.toNat = code := by
  cases code with
  | char c => exact ofNat_toNat c
  | surrogate offset =>
    have hinvalid : ¬ (0xD800 + offset.val).isValidChar := by
      have hoffset := offset.isLt
      rw [Nat.isValidChar]
      omega
    rw [toNat, ofNat, if_neg hinvalid, Nat.add_sub_cancel_left]
    exact congrArg _ (Fin.ofNat_val_eq_self offset)

/-- Only the number of a character is read as the character. -/
theorem ofNat_eq_char_iff {n : Nat} {c : Char} : ofNat n = char c ↔ n = c.toNat := by
  refine ⟨fun h => ?_, fun h => h ▸ ofNat_toNat c⟩
  unfold ofNat at h
  split at h
  · rename_i hn
    obtain rfl := char.inj h
    rw [Char.ofNat, dif_pos hn]
    rfl
  · cases h

end CodePoint

/-- A text of code points. -/
structure CodeText where
  /-- Its code points in order. -/
  codes : List CodePoint
deriving DecidableEq, Repr, Inhabited

namespace CodeText

/-- A text of characters as one of code points. -/
@[coe] def ofString (s : String) : CodeText := ⟨s.toList.map .char⟩

instance : Coe String CodeText := ⟨ofString⟩

instance : Append CodeText := ⟨fun s t => ⟨s.codes ++ t.codes⟩⟩

/-- The text of the code points with the given numbers. -/
def ofNats (ns : List Nat) : CodeText := ⟨ns.map .ofNat⟩

/-- Whether a text is empty. -/
def isEmpty (s : CodeText) : Bool := s.codes.isEmpty

/-- Texts one after the other. -/
def join (texts : List CodeText) : CodeText := ⟨texts.flatMap codes⟩

/-- Texts one after the other, with a separator between them. -/
def intercalate (separator : CodeText) (texts : List CodeText) : CodeText :=
  ⟨separator.codes.intercalate (texts.map codes)⟩

/-- The text as one of characters, unless it holds a surrogate. -/
def text? (s : CodeText) : Option String := (s.codes.mapM CodePoint.char?).map String.ofList

/-- The characters of a text, with U+FFFD in the place of each surrogate. -/
def toList (s : CodeText) : List Char := s.codes.map CodePoint.standIn

/-- The text of characters with U+FFFD in the place of each surrogate. -/
def string (s : CodeText) : String := String.ofList s.toList

/-! ### Code points one after the other -/

@[ext] theorem ext {s t : CodeText} (h : s.codes = t.codes) : s = t := by
  cases s; cases t; simpa using h

@[simp] theorem codes_append (s t : CodeText) : (s ++ t).codes = s.codes ++ t.codes := rfl

@[simp] theorem codes_ofString (s : String) : (s : CodeText).codes = s.toList.map .char := rfl

/-- The numbers of characters write the text of the characters. -/
@[simp] theorem ofNats_toNat (cs : List Char) : ofNats (cs.map Char.toNat) = String.ofList cs := by
  ext1; simp [ofNats, Function.comp_def]

/-- The numbers of code points write the text of the code points. -/
theorem ofNats_map_toNat (codes : List CodePoint) :
    ofNats (codes.map CodePoint.toNat) = ⟨codes⟩ := by
  ext1; simp [ofNats, Function.comp_def, CodePoint.ofNat_toNat_self]

/-- Only the numbers of its characters write a text of characters. -/
theorem ofNats_eq_ofString_iff {ns : List Nat} {s : String} :
    ofNats ns = s ↔ ns = s.toList.map Char.toNat := by
  simp only [CodeText.ext_iff, ofNats, codes_ofString]
  generalize s.toList = cs
  induction ns generalizing cs with
  | nil => cases cs <;> simp
  | cons n ns ih => cases cs <;> simp [CodePoint.ofNat_eq_char_iff, ih]

@[simp] theorem ofString_append (s t : String) :
    ((s ++ t : String) : CodeText) = (s : CodeText) ++ (t : CodeText) := by
  ext1; simp

@[simp] theorem intercalate_nil (separator : CodeText) : intercalate separator [] = "" := rfl

@[simp] theorem intercalate_singleton (separator s : CodeText) : intercalate separator [s] = s := by
  ext1; simp [intercalate]

theorem intercalate_cons_cons (separator s t : CodeText) (texts : List CodeText) :
    intercalate separator (s :: t :: texts)
      = s ++ (separator ++ intercalate separator (t :: texts)) := by
  ext1; simp [intercalate]

/-! ### Texts of characters -/

theorem mapM_char?_eq_some_iff {codes : List CodePoint} {cs : List Char} :
    codes.mapM CodePoint.char? = some cs ↔ codes = cs.map .char := by
  induction codes generalizing cs with
  | nil => cases cs <;> simp
  | cons code codes ih =>
    cases code with
    | char c =>
      cases cs with
      | nil => simp [CodePoint.char?, Option.bind_eq_some_iff]
      | cons d ds =>
        simp only [List.mapM_cons, CodePoint.char?, Option.pure_def, Option.bind_eq_bind,
          Option.bind_some, Option.bind_eq_some_iff, ih, Option.some.injEq, List.cons.injEq,
          List.map_cons, CodePoint.char.injEq]
        exact ⟨fun ⟨_, hcodes, hc, hds⟩ => ⟨hc, hds ▸ hcodes⟩,
          fun ⟨hc, hcodes⟩ => ⟨ds, hcodes, hc, rfl⟩⟩
    | surrogate offset => cases cs <;> simp [CodePoint.char?]

theorem text?_eq_some_iff {s : CodeText} {t : String} : s.text? = some t ↔ s = t := by
  simp only [text?, Option.map_eq_some_iff, mapM_char?_eq_some_iff, CodeText.ext_iff,
    codes_ofString]
  refine ⟨fun ⟨cs, hcodes, ht⟩ => ?_, fun h => ⟨t.toList, h, String.ofList_toList⟩⟩
  rw [hcodes, ← ht, String.toList_ofList]

@[simp] theorem text?_ofString (s : String) : (s : CodeText).text? = some s :=
  text?_eq_some_iff.2 rfl

@[simp] theorem ofString_inj {s t : String} : (s : CodeText) = t ↔ s = t := by
  refine ⟨fun h => ?_, fun h => h ▸ rfl⟩
  simpa using congrArg text? h

@[simp] theorem toList_ofString (s : String) : (s : CodeText).toList = s.toList := by
  simp [toList, Function.comp_def, CodePoint.standIn]

@[simp] theorem string_ofString (s : String) : (s : CodeText).string = s := by
  simp [string]

@[simp] theorem toList_string (s : CodeText) : s.string.toList = s.toList := by
  simp [string]

/-- A text without surrogates. -/
def IsText (s : CodeText) : Prop := ∃ t : String, s = t

@[simp] theorem isText_ofString (s : String) : (s : CodeText).IsText := ⟨s, rfl⟩

instance (s : CodeText) : Decidable s.IsText :=
  decidable_of_iff s.text?.isSome <| by
    rw [Option.isSome_iff_exists]
    exact exists_congr fun _ => text?_eq_some_iff

/-- A text has no surrogates if no code point of it is one. -/
theorem isText_iff {s : CodeText} : s.IsText ↔ ∀ code ∈ s.codes, code = .char code.standIn := by
  constructor
  · rintro ⟨t, rfl⟩ code hcode
    obtain ⟨c, -, rfl⟩ := List.mem_map.1 hcode
    rfl
  · intro h
    refine ⟨s.string, ?_⟩
    ext1
    rw [codes_ofString, toList_string, toList, List.map_map]
    exact (List.map_id _).symm.trans (List.map_congr_left fun code hcode => h code hcode)

@[simp] theorem isText_append {s t : CodeText} : (s ++ t).IsText ↔ s.IsText ∧ t.IsText := by
  simp only [isText_iff, codes_append, List.forall_mem_append]

/-- Texts with a separator between them have no surrogates if none of them has, nor the
separator. -/
theorem isText_intercalate {separator : CodeText} (h : separator.IsText) {texts : List CodeText}
    (htexts : ∀ s ∈ texts, s.IsText) : (intercalate separator texts).IsText := by
  induction texts with
  | nil => exact isText_ofString ""
  | cons s texts ih =>
    obtain ⟨hs, htexts⟩ := List.forall_mem_cons.1 htexts
    cases texts with
    | nil => rwa [intercalate_singleton]
    | cons t texts =>
      rw [intercalate_cons_cons]
      exact isText_append.2 ⟨hs, isText_append.2 ⟨h, ih htexts⟩⟩

@[simp] theorem isText_join {texts : List CodeText} :
    (join texts).IsText ↔ ∀ s ∈ texts, s.IsText := by
  simp only [isText_iff, join, List.mem_flatMap]
  grind

end CodeText

end MessageBinder
