import MessageBinder.Proofs.Catalogue.Characters
import MessageBinder.Proofs.Locale.Discovery
import MessageBinder.Proofs.Token.Escapes

/-!
# Entries that are written and read

Entries are written as properties text one to a line: the key, an equals sign, the value. What would
be taken for something else is protected by a backslash, and which characters these are depends on
where they stand (`MessageBinder.Properties.Place`). In a key they are those that end it or open a
comment, at the front of a value the blanks that do not count there, and behind them the backslash
alone. Four controls are written by letters, and any character of the basic plane may be written by
its digits.

Whichever way is taken for each character, what is written is read as the table in which the last
value of each key counts (`MessageBinder.Properties.parse_of_writesEntries`). The passes over a line
are told from what one character is written as:

* the end of a line: it holds none (`MessageBinder.Properties.WritesChar.isLineEnd_of_mem`);
* a line that goes on: it leaves an even number of backslashes
  (`MessageBinder.Properties.WritesChar.continues`);
* the end of the key: it does not end it (`MessageBinder.Properties.WritesChar.keyExtent`);
* escapes: it is read as itself (`MessageBinder.Properties.WritesChar.codePoints?`).

What cannot be written as itself are the characters that end a line and have no escape of their own
(`MessageBinder.Text.isForeignEnd`); entries without them can always be written.
-/

namespace MessageBinder

/-! ### Tables -/

/-- **The last value of a key counts** in a table that entries write. -/
theorem Table.find?_ofEntries {α : Type} (key : CodeText) (entries : List (CodeText × α)) :
    find? key (ofEntries entries) = find? key entries.reverse := by
  induction entries using List.reverseRecOn with
  | nil => rfl
  | append_singleton entries e ih =>
    have hinsert : ofEntries (entries ++ [e]) = insert e.1 e.2 (ofEntries entries) := by
      rw [ofEntries, List.foldl_concat]
      rfl
    rw [hinsert, List.reverse_concat]
    by_cases hkey : e.1 = key
    · subst hkey
      rw [find?_insert_self]
      simp [find?]
    · rw [find?_insert_of_ne (Ne.symm hkey), ih]
      simp [find?, hkey]

namespace Properties

/-! ### What is written -/

/-- Where a character stands in an entry. -/
inductive Place where
  /-- In a key. -/
  | key
  /-- Among the spaces at the front of a value. -/
  | front
  /-- Behind them. -/
  | value
deriving DecidableEq

/-- Whether a backslash protects a character. -/
def Place.guards : Place → Char → Bool
  | key, c => c = '\\' || c = '=' || c = ':' || c = '#' || c = '!' || c = ' '
  | front, c => c = '\\' || c = ' '
  | value, c => c = '\\'

/-- The letter that writes a control behind a backslash. -/
def controlLetter? : Char → Option Char
  | '\t' => some 't'
  | '\n' => some 'n'
  | '\r' => some 'r'
  | '\x0c' => some 'f'
  | _ => none

/-- **How a character is written**: as itself, behind a backslash, by a letter, or by the four
digits of its code point. -/
inductive WritesChar (p : Place) (c : Char) : List Char → Prop
  | itself (hguards : p.guards c = false) (hletter : controlLetter? c = none) : WritesChar p c [c]
  | guarded (h : p.guards c) : WritesChar p c ['\\', c]
  | control {l : Char} (h : controlLetter? c = some l) : WritesChar p c ['\\', l]
  | unit {ds : List Char} (hlength : ds.length = 4) (h : Text.hexNumber? ds = some c.toNat) :
      WritesChar p c ('\\' :: 'u' :: ds)

/-- How characters are written that stand at the given places. -/
inductive WritesChars : List (Place × Char) → List Char → Prop
  | nil : WritesChars [] []
  | cons {p : Place} {c : Char} {cs : List (Place × Char)} {ds ds' : List Char}
      (hchar : WritesChar p c ds) (h : WritesChars cs ds') : WritesChars ((p, c) :: cs) (ds ++ ds')

/-- The characters of a key at their places. -/
def placedKey (cs : List Char) : List (Place × Char) := cs.map (.key, ·)

/-- The characters of a value at their places. -/
def placedValue (cs : List Char) : List (Place × Char) :=
  (cs.takeWhile (· = ' ')).map (.front, ·) ++ (cs.dropWhile (· = ' ')).map (.value, ·)

/-- **How entries are written**, one to a line. -/
inductive WritesEntries : List (String × String) → List Char → Prop
  | nil : WritesEntries [] []
  | cons {key value : String} {entries : List (String × String)} {ks vs text : List Char}
      (hkey : WritesChars (placedKey key.toList) ks)
      (hvalue : WritesChars (placedValue value.toList) vs)
      (h : WritesEntries entries text) :
      WritesEntries ((key, value) :: entries) (ks ++ '=' :: (vs ++ '\n' :: text))

/-- Entries of characters as entries of code points. -/
def textEntries (entries : List (String × String)) : List (CodeText × CodeText) :=
  entries.map fun e => (e.1, e.2)

/-! ### A written character -/

variable {p : Place} {c : Char} {cs ds : List Char}

/-- No digit is a sign of properties text. -/
theorem isSign_of_hexValue? {d : Char} (h : (Text.hexValue? d).isSome) :
    d ≠ '\\' ∧ isSeparator d = false ∧ isBlank d = false ∧ Text.isLineEnd d = false := by
  refine ⟨?_, ?_, ?_, ?_⟩
  · rintro rfl
    cases h
  all_goals
    by_contra hsign
    simp only [Bool.not_eq_false, isSeparator, isBlank, Text.isLineEnd, Bool.or_eq_true,
      decide_eq_true_eq, or_assoc] at hsign
    rcases hsign with rfl | rfl | rfl | rfl | rfl | rfl | rfl | rfl | rfl | rfl <;> cases h

theorem forall_isSign_of_hexNumber? {n : Nat} (h : Text.hexNumber? ds = some n) : ∀ d ∈ ds,
    d ≠ '\\' ∧ isSeparator d = false ∧ isBlank d = false ∧ Text.isLineEnd d = false :=
  fun d hd => isSign_of_hexValue? ((Text.hexNumber?_spec h).2 d hd)

/-- A letter that writes a control is none of the signs, and stands for the control. -/
theorem controlLetter?_spec {l : Char} (h : controlLetter? c = some l) :
    l ≠ '\\' ∧ l ≠ 'u' ∧ Text.isLineEnd l = false ∧ escaped l = c := by
  unfold controlLetter? at h
  split at h
  all_goals first | (obtain rfl := Option.some.inj h; decide) | cases h

/-- A character without such a letter is none of the controls. -/
theorem ne_of_controlLetter? (h : controlLetter? c = none) :
    c ≠ '\t' ∧ c ≠ '\n' ∧ c ≠ '\r' ∧ c ≠ '\x0c' := by
  refine ⟨?_, ?_, ?_, ?_⟩ <;> rintro rfl <;> cases h

/-- A character without such a letter ends a line only if it is foreign. -/
theorem isLineEnd_of_controlLetter? (h : controlLetter? c = none)
    (hforeign : Text.isForeignEnd c = false) : Text.isLineEnd c = false := by
  rw [Text.isLineEnd_eq, hforeign]
  simp [ne_of_controlLetter? h]

/-- A blank without such a letter is a space. -/
theorem isBlank_of_controlLetter? (h : controlLetter? c = none) (hspace : c ≠ ' ') :
    isBlank c = false := by
  simp [isBlank, ne_of_controlLetter? h, hspace]

/-- A backslash is protected everywhere. -/
theorem Place.ne_backslash (h : p.guards c = false) : c ≠ '\\' := by
  rintro rfl
  cases p <;> cases h

/-- What is protected is a sign that stands for itself behind a backslash. -/
theorem Place.guards_spec (h : p.guards c) :
    c ≠ 'u' ∧ Text.isLineEnd c = false ∧ escaped c = c := by
  have hsigns : c = '\\' ∨ c = '=' ∨ c = ':' ∨ c = '#' ∨ c = '!' ∨ c = ' ' := by
    cases p <;> simp only [guards, Bool.or_eq_true, decide_eq_true_eq, or_assoc] at h <;> tauto
  rcases hsigns with rfl | rfl | rfl | rfl | rfl | rfl <;> decide

namespace WritesChar

/-- A written character holds no line end. -/
theorem isLineEnd_of_mem (h : WritesChar p c ds) (hforeign : Text.isForeignEnd c = false) :
    ∀ d ∈ ds, Text.isLineEnd d = false := by
  have hbackslash : Text.isLineEnd '\\' = false := by decide
  cases h with
  | itself hguards hletter => simpa using isLineEnd_of_controlLetter? hletter hforeign
  | guarded h => simpa [hbackslash] using (Place.guards_spec h).2.1
  | control h => simpa [hbackslash] using (controlLetter?_spec h).2.2.1
  | unit hlength h =>
    refine List.forall_mem_cons.2 ⟨hbackslash, List.forall_mem_cons.2 ⟨by decide, ?_⟩⟩
    exact fun d hd => (forall_isSign_of_hexNumber? h d hd).2.2.2

/-- A written character leaves an even number of backslashes behind. -/
theorem continues (h : WritesChar p c ds) {line : List Char}
    (hline : Properties.continues line = false) : Properties.continues (line ++ ds) = false := by
  -- Behind the one backslash of an escape even a backslash makes the number even again.
  have hpair : ∀ d, Properties.continues (line ++ ['\\', d]) = false := fun d => by
    rw [List.append_cons, continues_concat, continues_concat, hline]
    simp
  cases h with
  | itself hguards hletter => exact continues_concat_of_ne (Place.ne_backslash hguards) line
  | guarded h => exact hpair c
  | control h => exact hpair _
  | @unit ds hlength h =>
    rcases List.eq_nil_or_concat' ds with rfl | ⟨ds, d, rfl⟩
    · cases hlength
    · have hd := (forall_isSign_of_hexNumber? h d (by simp)).1
      have hlast : line ++ '\\' :: 'u' :: (ds ++ [d]) = (line ++ '\\' :: 'u' :: ds) ++ [d] := by
        simp
      rw [hlast, continues_concat_of_ne hd]

/-- A written character of a key does not end it. -/
theorem keyExtent (h : WritesChar .key c ds) (cs : List Char) :
    Properties.keyExtent (ds ++ cs) = ds.length + Properties.keyExtent cs := by
  cases h with
  | itself hguards hletter =>
    rw [List.singleton_append, keyExtent_cons (Place.ne_backslash hguards)]
    simp only [Place.guards, Bool.or_eq_false_iff, decide_eq_false_iff_not] at hguards
    have hblank := isBlank_of_controlLetter? hletter hguards.2
    simp [isSeparator, hguards, hblank, Nat.add_comm]
  | guarded h => simp [keyExtent_escape, Nat.add_comm]
  | control h => simp [keyExtent_escape, Nat.add_comm]
  | @unit ds hlength h =>
    have hdigits : ∀ ds : List Char, (∀ d ∈ ds, d ≠ '\\' ∧ isSeparator d = false ∧
        isBlank d = false ∧ Text.isLineEnd d = false) →
          Properties.keyExtent (ds ++ cs) = ds.length + Properties.keyExtent cs := by
      intro ds hds
      induction ds with
      | nil => simp
      | cons d ds ih =>
        obtain ⟨⟨hne, hseparator, hblank, -⟩, hds⟩ := List.forall_mem_cons.1 hds
        rw [List.cons_append, keyExtent_cons hne, ih hds]
        simp [hseparator, hblank, Nat.add_right_comm]
    rw [List.cons_append, List.cons_append, keyExtent_escape,
      hdigits ds (forall_isSign_of_hexNumber? h), List.length_cons, List.length_cons]
    omega

/-- **A written character is read as itself.** -/
theorem codePoints? (h : WritesChar p c ds) (cs : List Char) :
    Properties.codePoints? (ds ++ cs) = (Properties.codePoints? cs).map (c.toNat :: ·) := by
  cases h with
  | itself hguards hletter => exact codePoints?_cons (Place.ne_backslash hguards) cs
  | guarded h =>
    obtain ⟨hne, -, hself⟩ := Place.guards_spec h
    rw [List.cons_append, List.singleton_append, codePoints?_escape hne, hself]
  | control h =>
    obtain ⟨-, hne, -, hcontrol⟩ := controlLetter?_spec h
    rw [List.cons_append, List.singleton_append, codePoints?_escape hne, hcontrol]
  | unit hlength h => exact codePoints?_unit hlength h cs

/-- At the front of a key or of a value a written character is no blank. -/
theorem isBlank_of_head? (h : WritesChar p c ds) (hspace : p = .value → c ≠ ' ') :
    ds ≠ [] ∧ ∀ d ∈ ds.head?, isBlank d = false := by
  cases h with
  | itself hguards hletter =>
    have hspace : c ≠ ' ' := by
      rintro rfl
      cases p with
      | key => cases hguards
      | front => cases hguards
      | value => exact hspace rfl rfl
    simp [isBlank_of_controlLetter? hletter hspace]
  | guarded h => simp [isBlank]
  | control h => simp [isBlank]
  | unit hlength h => simp [isBlank]

/-- In a key a written character does not open a comment. -/
theorem isComment_append (h : WritesChar .key c ds) (cs : List Char) :
    isComment (ds ++ cs) = false := by
  cases h with
  | itself hguards hletter =>
    simp only [Place.guards, Bool.or_eq_false_iff, decide_eq_false_iff_not] at hguards
    simp [isComment, hguards]
  | guarded h => simp [isComment]
  | control h => simp [isComment]
  | unit hlength h => simp [isComment]

end WritesChar

/-! ### A written key or value -/

variable {placed : List (Place × Char)}

namespace WritesChars

theorem isLineEnd_of_mem (h : WritesChars placed ds)
    (hforeign : ∀ x ∈ placed, Text.isForeignEnd x.2 = false) :
    ∀ d ∈ ds, Text.isLineEnd d = false := by
  induction h with
  | nil => exact nofun
  | cons hchar h ih =>
    obtain ⟨hc, hcs⟩ := List.forall_mem_cons.1 hforeign
    exact List.forall_mem_append.2 ⟨hchar.isLineEnd_of_mem hc, ih hcs⟩

theorem continues (h : WritesChars placed ds) {line : List Char}
    (hline : Properties.continues line = false) : Properties.continues (line ++ ds) = false := by
  induction h generalizing line with
  | nil => rwa [List.append_nil]
  | cons hchar h ih =>
    rw [← List.append_assoc]
    exact ih (hchar.continues hline)

theorem keyExtent (h : WritesChars placed ds) (hkey : ∀ x ∈ placed, x.1 = .key) (cs : List Char) :
    Properties.keyExtent (ds ++ cs) = ds.length + Properties.keyExtent cs := by
  induction h with
  | nil => simp
  | cons hchar h ih =>
    obtain ⟨rfl, hcs⟩ := List.forall_mem_cons.1 hkey
    rw [List.append_assoc, hchar.keyExtent, ih hcs, List.length_append, Nat.add_assoc]

theorem codePoints? (h : WritesChars placed ds) :
    Properties.codePoints? ds = some (placed.map (·.2.toNat)) := by
  induction h with
  | nil => rw [Properties.codePoints?]; rfl
  | cons hchar h ih => rw [hchar.codePoints?, ih]; rfl

/-- **What is written is read.** -/
theorem unescape? (h : WritesChars placed ds) :
    Properties.unescape? ds = some (String.ofList (placed.map (·.2)) : CodeText) := by
  have hpoints : placed.map (·.2.toNat) = (placed.map (·.2)).map Char.toNat := by simp
  rw [Properties.unescape?, h.codePoints?, Option.map_some, hpoints, CodeText.ofNats_toNat]

end WritesChars

theorem map_snd_placedKey (cs : List Char) : (placedKey cs).map (·.2) = cs := by
  simp [placedKey, Function.comp_def]

theorem map_snd_placedValue (cs : List Char) : (placedValue cs).map (·.2) = cs := by
  simp [placedValue, Function.comp_def]

/-- A written key opens a line that is no comment and has no blank at its front. -/
theorem opens_placedKey (h : WritesChars (placedKey cs) ds) (rest : List Char) :
    (∀ d ∈ (ds ++ '=' :: rest).head?, isBlank d = false) ∧
      isComment (ds ++ '=' :: rest) = false := by
  cases cs with
  | nil =>
    cases h
    exact ⟨by simp [isBlank], by simp [isComment]⟩
  | cons c cs =>
    obtain - | ⟨hchar, h⟩ := h
    obtain ⟨hne, hblank⟩ := hchar.isBlank_of_head? fun hplace => by cases hplace
    rw [List.append_assoc]
    refine ⟨?_, hchar.isComment_append _⟩
    rwa [List.head?_append_of_ne_nil _ hne]

/-- A written value has no blank at its front. -/
theorem trimLeft_placedValue (h : WritesChars (placedValue cs) ds) : trimLeft ds = ds := by
  refine trimLeft_eq_self ?_
  cases cs with
  | nil =>
    cases h
    exact nofun
  | cons c cs =>
    -- The first character decides, and a space does not stand behind the spaces.
    obtain ⟨p, placed, hplaced, hspace⟩ : ∃ p placed, placedValue (c :: cs) = (p, c) :: placed ∧
        (p = .value → c ≠ ' ') := by
      by_cases hc : c = ' '
      · exact ⟨.front, placedValue cs, by simp [placedValue, hc], nofun⟩
      · exact ⟨.value, cs.map (.value, ·), by simp [placedValue, hc], fun _ => hc⟩
    rw [hplaced] at h
    obtain - | ⟨hchar, h⟩ := h
    obtain ⟨hne, hblank⟩ := hchar.isBlank_of_head? hspace
    rwa [List.head?_append_of_ne_nil _ hne]

/-! ### Written entries -/

/-- Whether a text can be written whatever is written for its characters: none of them ends a line
without having a letter for it. -/
def IsWritable (s : String) : Prop := ∀ c ∈ s.toList, Text.isForeignEnd c = false

instance (s : String) : Decidable (IsWritable s) := List.decidableBAll _ _

theorem forall_foreign_placedKey {key : String} (h : IsWritable key) :
    ∀ x ∈ placedKey key.toList, Text.isForeignEnd x.2 = false := fun x hx =>
  h x.2 (by rw [← map_snd_placedKey key.toList]; exact List.mem_map_of_mem hx)

theorem forall_foreign_placedValue {value : String} (h : IsWritable value) :
    ∀ x ∈ placedValue value.toList, Text.isForeignEnd x.2 = false := fun x hx =>
  h x.2 (by rw [← map_snd_placedValue value.toList]; exact List.mem_map_of_mem hx)

variable {key value : String} {ks vs : List Char}

/-- A written entry is cut at the sign between its key and its value. -/
theorem splitEntry_written (hkey : WritesChars (placedKey key.toList) ks)
    (hvalue : WritesChars (placedValue value.toList) vs) :
    splitEntry (ks ++ '=' :: vs) = (ks, vs) := by
  have hextent : keyExtent (ks ++ '=' :: vs) = ks.length := by
    rw [hkey.keyExtent (by simp [placedKey]), keyExtent_cons (by decide)]
    rfl
  have hsign : trimLeft ('=' :: vs) = '=' :: vs := trimLeft_eq_self (by simp [isBlank])
  rw [splitEntry, hextent, List.take_left, List.drop_left, withoutSeparator, hsign]
  simp [isSeparator, trimLeft_placedValue hvalue]

/-- **A written entry is read** from its line. -/
theorem entry_written (hkey : WritesChars (placedKey key.toList) ks)
    (hvalue : WritesChars (placedValue value.toList) vs) (origin : String) (number : Nat) :
    entry origin ⟨number, ks ++ '=' :: vs⟩ = .ok (key, value) := by
  rw [entry, splitEntry_written hkey hvalue]
  simp only [hkey.unescape?, hvalue.unescape?, map_snd_placedKey, map_snd_placedValue,
    String.ofList_toList]

/-- **A written entry is one logical line**, in front of whatever follows it. -/
theorem logicalLines_written (hkey : WritesChars (placedKey key.toList) ks)
    (hvalue : WritesChars (placedValue value.toList) vs) (hk : IsWritable key)
    (hv : IsWritable value) (number : Nat) (text : List Char) :
    logicalLines none number (Text.splitLines (ks ++ '=' :: (vs ++ '\n' :: text)))
      = ⟨number, ks ++ '=' :: vs⟩ :: logicalLines none (number + 1) (Text.splitLines text) := by
  have hline : ∀ d ∈ ks ++ '=' :: vs, Text.isLineEnd d = false :=
    List.forall_mem_append.2 ⟨hkey.isLineEnd_of_mem (forall_foreign_placedKey hk),
      List.forall_mem_cons.2 ⟨by decide,
        hvalue.isLineEnd_of_mem (forall_foreign_placedValue hv)⟩⟩
  have hends : continues (ks ++ '=' :: vs) = false := by
    rw [List.append_cons]
    exact hvalue.continues (continues_concat_of_ne (by decide) ks)
  obtain ⟨hfront, hcomment⟩ := opens_placedKey hkey vs
  have hsplit := Text.splitLines_line hline text
  rw [List.append_assoc, List.cons_append] at hsplit
  rw [hsplit, logicalLines_cons hfront hcomment hends]

/-- Written entries are read in their order. -/
theorem mapM_entry_written {entries : List (String × String)} {text : List Char}
    (h : WritesEntries entries text) (hall : ∀ e ∈ entries, IsWritable e.1 ∧ IsWritable e.2)
    (origin : String) (number : Nat) :
    (logicalLines none number (Text.splitLines text)).mapM (entry origin)
      = .ok (textEntries entries) := by
  induction h generalizing number with
  | nil => rfl
  | cons hkey hvalue h ih =>
    obtain ⟨⟨hk, hv⟩, hall⟩ := List.forall_mem_cons.1 hall
    rw [logicalLines_written hkey hvalue hk hv, List.mapM_cons, entry_written hkey hvalue,
      ih hall (number + 1)]
    rfl

/-! ### Entries can be written -/

theorem exists_writesChar (p : Place) (c : Char) : ∃ ds, WritesChar p c ds := by
  cases hletter : controlLetter? c with
  | some l => exact ⟨_, .control hletter⟩
  | none =>
    cases hguards : p.guards c with
    | true => exact ⟨_, .guarded hguards⟩
    | false => exact ⟨_, .itself hguards hletter⟩

theorem exists_writesChars (placed : List (Place × Char)) : ∃ ds, WritesChars placed ds := by
  induction placed with
  | nil => exact ⟨_, .nil⟩
  | cons x placed ih =>
    obtain ⟨ds, hchar⟩ := exists_writesChar x.1 x.2
    obtain ⟨ds', h⟩ := ih
    exact ⟨_, .cons hchar h⟩

theorem exists_writesEntries (entries : List (String × String)) :
    ∃ text, WritesEntries entries text := by
  induction entries with
  | nil => exact ⟨_, .nil⟩
  | cons e entries ih =>
    obtain ⟨ks, hkey⟩ := exists_writesChars (placedKey e.1.toList)
    obtain ⟨vs, hvalue⟩ := exists_writesChars (placedValue e.2.toList)
    obtain ⟨text, h⟩ := ih
    exact ⟨_, .cons hkey hvalue h⟩

/-- **Entries can be written, and however they are written, they are read back**: the reading
succeeds, and each key has the value that the last of its entries gives it. The keys are in the
order of their first entries. -/
theorem parse_of_writesEntries {entries : List (String × String)}
    (hall : ∀ e ∈ entries, IsWritable e.1 ∧ IsWritable e.2) :
    (∃ text, WritesEntries entries text) ∧
      ∀ text origin : String, WritesEntries entries text.toList → ∃ c, parse text origin = .ok c ∧
        Table.keys c = ((textEntries entries).map Prod.fst).eraseDups ∧
        ∀ key, Table.find? key c = Table.find? key (textEntries entries).reverse := by
  refine ⟨exists_writesEntries entries, fun text origin h =>
    ⟨Table.ofEntries (textEntries entries), ?_, ?_, ?_⟩⟩
  · rw [parse, mapM_entry_written h hall origin 1]
    rfl
  · exact Table.keys_foldl_insert Prod.fst Prod.snd (textEntries entries)
  · exact fun key => Table.find?_ofEntries key (textEntries entries)

/-- Two entries of a key that opens a comment, one with a value that opens with a space and ends in
a backslash, and one with a value that is written by its digits, are read back. -/
theorem parse_of_writesEntries_signs :
    (∀ e ∈ [("#", " \\"), ("#", "=é")], IsWritable e.1 ∧ IsWritable e.2) ∧
      ∃ c, parse "\\#=\\ \\\\\n\\#==\\u00E9\n" "<text>" = .ok c ∧
        Table.keys c = [.ofString "#"] ∧ Table.find? "#" c = some (.ofString "=é") := by
  have hall : ∀ e ∈ [("#", " \\"), ("#", "=é")], IsWritable e.1 ∧ IsWritable e.2 := by
    decide +kernel
  have hkey : WritesChars (placedKey "#".toList) ['\\', '#'] := .cons (.guarded rfl) .nil
  have hvalue : WritesChars (placedValue " \\".toList) ['\\', ' ', '\\', '\\'] :=
    .cons (.guarded rfl) (.cons (.guarded rfl) .nil)
  have hunit : WritesChar .value 'é' ('\\' :: 'u' :: ['0', '0', 'E', '9']) :=
    .unit rfl (by decide)
  have hchars : "=é".toList = ['=', 'é'] := by decide
  have hvalue' : WritesChars (placedValue "=é".toList) ['=', '\\', 'u', '0', '0', 'E', '9'] := by
    rw [hchars]
    exact .cons (.itself rfl rfl) (.cons hunit .nil)
  obtain ⟨c, hparse, hkeys, hfind⟩ := (parse_of_writesEntries hall).2
    "\\#=\\ \\\\\n\\#==\\u00E9\n" "<text>" (.cons hkey hvalue (.cons hkey hvalue' .nil))
  exact ⟨hall, c, hparse, hkeys, hfind "#"⟩

end Properties

end MessageBinder
