import MessageBinder.Json.Reader
import MessageBinder.Proofs.Printing.Data

/-!
# Written values are read back

The text that is written for a JSON value is read back as the value, with either repertoire
(`MessageBinder.Json.Exact.exists_parse_render`). Some things are lost in writing and are left out:
a number with a point or an exponent is written by the fewest digits that round to it, of two fields
of an object with one key only the later value is read, and two surrogates that make a pair are read
as one character. A reader may also limit the digits of an integer (`MessageBinder.Json.Admits`).

Within ASCII a character beyond the basic plane is written as a surrogate pair, and the reader sees
two code points where there was one character (`MessageBinder.Text.units`); they are put together
when the text is made. A number says by no mark of its own where it ends, so that what is read back
is told together with what follows (`MessageBinder.Json.Ends`).
-/

namespace MessageBinder

/-! ### Tables -/

namespace Table

variable {α : Type}

/-- A new key goes to the end. -/
theorem insert_of_not_mem {key : CodeText} {t : Table α} (h : key ∉ keys t) (value : α) :
    insert key value t = t ++ [(key, value)] := by
  induction t with
  | nil => rfl
  | cons e t ih =>
    rw [keys, List.map_cons, List.mem_cons, not_or] at h
    rw [insert, if_neg (Ne.symm h.1), ih h.2, List.cons_append]

/-- Entries whose keys differ are the table that they write. -/
theorem ofEntries_of_nodup {entries : List (CodeText × α)} (h : (keys entries).Nodup) :
    ofEntries entries = entries := by
  have hall : ∀ t : Table α, (keys (t ++ entries)).Nodup →
      entries.foldl (fun t e => insert e.1 e.2 t) t = t ++ entries := by
    clear h
    induction entries with
    | nil => exact fun t _ => (List.append_nil t).symm
    | cons e entries ih =>
      intro t ht
      have hnew : e.1 ∉ keys t := by
        rw [keys, List.map_append, List.map_cons] at ht
        exact fun hmem => (List.nodup_append.1 ht).2.2 _ hmem _ List.mem_cons_self rfl
      rw [List.append_cons] at ht ⊢
      rw [List.foldl_cons, insert_of_not_mem hnew, ih _ ht]
  exact hall [] h

end Table

/-! ### Texts -/

namespace Text

/-- The code points that a reader sees where a character was quoted. -/
def units (repertoire : Repertoire) (c : Char) : List Nat :=
  if repertoire = .unicode ∨ c.toNat < 0x10000 then [c.toNat]
  else [(splitSurrogates c.toNat).1, (splitSurrogates c.toNat).2]

theorem joinPairs_cons (c : Char) (ns : List Nat) :
    joinPairs (c.toNat :: ns) = c.toNat :: joinPairs ns := by
  cases ns with
  | nil => rfl
  | cons n ns =>
    rw [joinPairs, isHighSurrogate_toNat, Bool.false_and, if_neg Bool.false_ne_true]

theorem isHighSurrogate_add {n : Nat} (hn : n < 0x400) : isHighSurrogate (0xD800 + n) := by
  simp only [isHighSurrogate, Bool.and_eq_true, decide_eq_true_eq]
  omega

theorem isLowSurrogate_add {n : Nat} (hn : n < 0x400) : isLowSurrogate (0xDC00 + n) := by
  simp only [isLowSurrogate, Bool.and_eq_true, decide_eq_true_eq]
  omega

theorem joinSurrogates_add (high low : Nat) :
    joinSurrogates (0xD800 + high) (0xDC00 + low) = 0x10000 + high * 0x400 + low := by
  unfold joinSurrogates
  omega

/-- **The halves of a surrogate pair are put together.** -/
theorem joinPairs_splitSurrogates {c : Char} (h : 0x10000 ≤ c.toNat) (ns : List Nat) :
    joinPairs ((splitSurrogates c.toNat).1 :: (splitSurrogates c.toNat).2 :: ns)
      = c.toNat :: joinPairs ns := by
  have hvalid : c.toNat < 0xD800 ∨ 0xDFFF < c.toNat ∧ c.toNat < 0x110000 := c.valid
  rw [splitSurrogates, joinPairs, isHighSurrogate_add (by omega), isLowSurrogate_add (by omega),
    Bool.and_self, if_pos rfl, joinSurrogates_add, Nat.add_assoc, Nat.div_add_mod',
    Nat.add_sub_cancel' h]

theorem joinPairs_units (repertoire : Repertoire) (cs : List Char) :
    joinPairs (cs.flatMap (units repertoire)) = cs.map Char.toNat := by
  induction cs with
  | nil => rfl
  | cons c cs ih =>
    rw [List.flatMap_cons, units, List.map_cons]
    split
    · rw [List.singleton_append, joinPairs_cons, ih]
    · rename_i h
      rw [List.cons_append, List.singleton_append, joinPairs_splitSurrogates (by omega), ih]

end Text

namespace Json

open Text

/-- What has a letter of its own is a control character, a quote or a backslash. -/
theorem toNat_lt_of_escapeLetter? {c d : Char} (h : escapeLetter? c = some d) :
    c.toNat < 0x60 := by
  unfold escapeLetter? at h
  split at h
  all_goals first
    | decide
    | cases h

/-- A letter behind a backslash is read as the code point that it stands for. -/
theorem readString_escape {l : Char} {n : Nat} (hl : l ≠ 'u') (hvalue : escapeValue? l = some n)
    {start : Nat} {cs rest : List Char} {ns : List Nat}
    (hrest : readString start cs = .ok (ns, rest)) :
    readString start ('\\' :: l :: cs) = .ok (n :: ns, rest) := by
  rw [readString.eq_def]
  dsimp only
  rw [if_neg (by decide), if_pos rfl]
  split
  · rename_i heq
    cases heq
  · rename_i heq
    exact absurd (List.cons.inj heq).1 hl
  · rename_i heq
    obtain ⟨rfl, rfl⟩ := List.cons.inj heq
    rw [hvalue, hrest]
    rfl

theorem readString_escapeLetter {c d : Char} (h : escapeLetter? c = some d) {start : Nat}
    {cs rest : List Char} {ns : List Nat} (hrest : readString start cs = .ok (ns, rest)) :
    readString start ('\\' :: d :: cs) = .ok (c.toNat :: ns, rest) := by
  unfold escapeLetter? at h
  split at h
  all_goals first
    | (obtain rfl := Option.some.inj h
       exact readString_escape (by decide) rfl hrest)
    | cases h

/-- A unit that is escaped is read as it is. -/
theorem readString_unitEscape {n : Nat} (hn : n < 0x10000) {start : Nat} {cs rest : List Char}
    {ns : List Nat} (hrest : readString start cs = .ok (ns, rest)) :
    readString start (unitEscape n ++ cs) = .ok (n :: ns, rest) := by
  -- An escape at the end of the text would be refused, but the closing quote is still to come.
  have hne : 0 < cs.length := by
    cases cs with
    | nil => rw [readString] at hrest; cases hrest
    | cons c cs => exact Nat.succ_pos _
  have htake : hexNumber? ((hexPadded 4 n ++ cs).take 4) = some n := by
    rw [List.take_left' (length_hexPadded ..), hexNumber?_hexPadded, Nat.mod_eq_of_lt (by omega)]
  have hdrop : (hexPadded 4 n ++ cs).drop 4 = cs := List.drop_left' (length_hexPadded ..)
  rw [unitEscape, List.cons_append, List.cons_append, readString.eq_def]
  have hlong : ¬ (hexPadded 4 n ++ cs).length < 5 := by
    rw [List.length_append, length_hexPadded]
    omega
  simp only [if_neg (by decide : ¬ '\\' = '"'), if_true, htake, if_neg hlong, hdrop, hrest]
  rfl

/-- A character that stands for itself is read as its code point. -/
theorem readString_self {c : Char} (hletter : escapeLetter? c = none) (hc : ¬ c.toNat < 0x20)
    {start : Nat} {cs rest : List Char} {ns : List Nat}
    (hrest : readString start cs = .ok (ns, rest)) :
    readString start (c :: cs) = .ok (c.toNat :: ns, rest) := by
  obtain ⟨hquote, hbackslash, -, -⟩ := ne_of_escapeLetter?_eq_none hletter
  rw [readString.eq_def]
  simp only [if_neg hquote, if_neg hbackslash, if_neg hc, hrest]
  rfl

/-- **A quoted character is read as its code points.** -/
theorem readString_quotedChar (repertoire : Repertoire) (c : Char) {start : Nat}
    {cs rest : List Char} {ns : List Nat} (hrest : readString start cs = .ok (ns, rest)) :
    readString start (quotedChar repertoire c ++ cs) = .ok (units repertoire c ++ ns, rest) := by
  unfold quotedChar
  split
  · rename_i d hd
    have hlt := toNat_lt_of_escapeLetter? hd
    rw [units, if_pos (Or.inr (by omega))]
    exact readString_escapeLetter hd hrest
  · rename_i hnone
    split
    · rw [units, if_pos (Or.inr (by omega))]
      exact readString_unitEscape (by omega) hrest
    · rename_i hge
      split
      · rename_i hself
        simp only [Bool.or_eq_true, decide_eq_true_eq] at hself
        rw [units, if_pos (hself.imp_right fun hlt => by omega)]
        exact readString_self hnone hge hrest
      · rename_i hself
        simp only [Bool.or_eq_true, decide_eq_true_eq, not_or] at hself
        split
        · rename_i hlt
          rw [units, if_pos (Or.inr hlt)]
          exact readString_unitEscape hlt hrest
        · -- beyond the basic plane both halves of the pair are read one after the other
          rename_i hle
          have hvalid : c.toNat < 0xD800 ∨ 0xDFFF < c.toNat ∧ c.toNat < 0x110000 := c.valid
          rw [units, if_neg (not_or.2 ⟨hself.1, hle⟩), List.append_assoc]
          refine readString_unitEscape ?_ (readString_unitEscape ?_ hrest)
          · simp only [splitSurrogates]
            omega
          · simp only [splitSurrogates]
            omega

theorem readString_quotedBody (repertoire : Repertoire) (cs : List Char) (start : Nat)
    (rest : List Char) :
    readString start (quotedBody repertoire (cs.map .char) ++ '"' :: rest)
      = .ok (cs.flatMap (units repertoire), rest) := by
  induction cs with
  | nil =>
    rw [List.map_nil, quotedBody, List.flatMap_nil, List.nil_append, readString.eq_def]
    rfl
  | cons c cs ih =>
    rw [quotedBody] at ih ⊢
    rw [List.map_cons, List.flatMap_cons, List.append_assoc]
    exact readString_quotedChar repertoire c ih

/-- **A quoted text is read as the text**, if it has no surrogates. -/
theorem readText_quoted (repertoire : Repertoire) {s : CodeText} (hs : s.IsText)
    (rest : List Char) : readText (quotedBody repertoire s.codes ++ '"' :: rest)
      = .ok (s, rest) := by
  obtain ⟨t, rfl⟩ := hs
  rw [readText, CodeText.codes_ofString, readString_quotedBody]
  change Except.ok (CodeText.ofNats (joinPairs _), rest) = _
  rw [joinPairs_units, CodeText.ofNats_toNat, String.ofList_toList]

/-! ### Numbers -/

/-- What follows a number does not continue it. -/
def Ends (rest : List Char) : Prop :=
  ∀ c ∈ rest.head?, c.isDigit = false ∧ c ≠ '.' ∧ c ≠ 'e' ∧ c ≠ 'E'

theorem Ends.readScale {rest : List Char} (h : Ends rest) :
    readScale rest = (none, none, rest) := by
  cases rest with
  | nil => rfl
  | cons c rest =>
    obtain ⟨-, hpoint, hmark, hmark'⟩ := h c rfl
    unfold Json.readScale
    split
    · rename_i heq
      split at heq
      · rename_i hhead
        exact absurd (List.cons.inj hhead).1 hpoint
      · obtain ⟨rfl, rfl⟩ := Prod.mk.inj heq
        simp [hmark, hmark']

theorem takeWhile_digits {n : Nat} {rest : List Char} (h : Ends rest) :
    (Nat.toDigits 10 n ++ rest).takeWhile Char.isDigit = Nat.toDigits 10 n := by
  have hdigits : ∀ c ∈ Nat.toDigits 10 n, c.isDigit := fun c hc =>
    Nat.isDigit_of_mem_toDigits (by decide) (by decide) hc
  rw [List.takeWhile_append_of_pos hdigits]
  cases rest with
  | nil => simp
  | cons c rest => simp [(h c rfl).1]

/-- The digits of a positive number do not start with a zero. -/
theorem exists_toDigits {n : Nat} (hn : 0 < n) :
    ∃ c cs, Nat.toDigits 10 n = c :: cs ∧ c ≠ '0' := by
  induction n using Nat.strongRecOn with
  | _ n ih =>
    rw [Nat.toDigits_eq_if (by decide)]
    split
    · rename_i hlt
      have hdigit : ∀ d < 10, 0 < d → Nat.digitChar d ≠ '0' := by decide
      exact ⟨_, [], rfl, hdigit n hlt hn⟩
    · rename_i hle
      obtain ⟨c, cs, heq, hc⟩ := ih (n / 10) (by omega) (by omega)
      exact ⟨c, cs ++ [(n % 10).digitChar], by rw [heq, List.cons_append], hc⟩

/-- A number has no more digits than a reader admits. -/
def Admits (limit : Option Nat) (n : Nat) : Prop := ∀ k ∈ limit, (Nat.toDigits 10 n).length ≤ k

/-- Without a limit every number is admitted. -/
theorem admits_none (n : Nat) : Admits none n := fun _ h => by cases h

/-- **A whole number is read as the number**, with its sign in front. -/
theorem readNumber_toDigits {limit : Option Nat} {n : Nat} (hn : Admits limit n)
    {rest : List Char} (h : Ends rest) :
    readNumber limit (Nat.toDigits 10 n ++ rest) = .ok (.int n, rest) ∧
      readNumber limit ('-' :: (Nat.toDigits 10 n ++ rest)) = .ok (.int (-n), rest) := by
  have hshort : (limit.any fun k => decide (k < (Nat.toDigits 10 n).length)) = false := by
    cases limit with
    | none => rfl
    | some k => exact decide_eq_false (Nat.not_lt.2 (hn k rfl))
  have hvalue := Nat.ofDigitChars_toDigits (n := n) (by decide : 1 < 10) (by decide : 10 ≤ 10)
  rcases Nat.eq_zero_or_pos n with rfl | hpos
  -- A zero is read by itself, so that the digits of no other number may start with one.
  · have hzero : Nat.ofDigitChars 10 ['0'] 0 = 0 := rfl
    have hshort : (limit.any fun k => decide (k < ['0'].length)) = false := hshort
    exact ⟨by simpa [readNumber, h.readScale, hzero] using hshort,
      by simpa [readNumber, h.readScale, hzero] using hshort⟩
  · obtain ⟨c, cs, heq, hzero⟩ := exists_toDigits hpos
    have hdigits : ((c :: cs) ++ rest).takeWhile Char.isDigit = c :: cs :=
      heq ▸ takeWhile_digits h
    have hminus : c ≠ '-' := by
      rintro rfl
      have hdigit := Nat.isDigit_of_mem_toDigits (b := 10) (n := n) (by decide) (by decide)
        (heq ▸ List.mem_cons_self)
      cases hdigit
    rw [heq] at hvalue hshort ⊢
    rw [List.cons_append] at hdigits ⊢
    constructor
    · simpa [readNumber, hdigits, hminus, hzero, h.readScale, hvalue] using hshort
    · simpa [readNumber, hdigits, hzero, h.readScale, hvalue] using hshort

/-- Neither digits nor a sign in front of them start a word. -/
theorem find?_words {c : Char} (h : c.isDigit) (cs : List Char) :
    (words.find? fun w => w.1.toList.isPrefixOf (c :: cs)) = none ∧
      (words.find? fun w => w.1.toList.isPrefixOf ('-' :: c :: cs)) = none := by
  have hletters : ∀ d ∈ ['n', 't', 'f', 'N', 'I', '-'], (d == c) = false := by
    intro d hd
    have hdigits : ['n', 't', 'f', 'N', 'I', '-'].all (!·.isDigit) := by decide
    have hdigit : d.isDigit = false := by simpa using List.all_eq_true.1 hdigits d hd
    refine beq_eq_false_iff_ne.2 ?_
    rintro rfl
    rw [h] at hdigit
    cases hdigit
  simp only [List.forall_mem_cons] at hletters
  simp [words, List.find?, List.isPrefixOf, hletters]

/-- The text of a whole number is its digits, with a sign in front if it is negative. -/
theorem toList_toString_int (n : Int) : ∃ c cs, c.isDigit ∧ Nat.toDigits 10 n.natAbs = c :: cs ∧
    ((toString n).toList = c :: cs ∧ (n.natAbs : Int) = n ∨
      (toString n).toList = '-' :: c :: cs ∧ -(n.natAbs : Int) = n) := by
  obtain ⟨c, cs, heq⟩ :=
    List.exists_cons_of_ne_nil (Nat.toDigits_ne_nil (n := n.natAbs) (b := 10))
  have hdigit := Nat.isDigit_of_mem_toDigits (b := 10) (n := n.natAbs) (by decide) (by decide)
    (heq ▸ List.mem_cons_self)
  refine ⟨c, cs, hdigit, heq, ?_⟩
  rw [← heq]
  cases n with
  | ofNat n => exact Or.inl ⟨String.toList_ofList, rfl⟩
  | negSucc n =>
    exact Or.inr ⟨String.toList_append.trans (congrArg ('-' :: ·) String.toList_ofList), rfl⟩

/-- **A whole number is read as itself.** -/
theorem readScalar_int {limit : Option Nat} {n : Int} (hn : Admits limit n.natAbs)
    {rest : List Char} (h : Ends rest) :
    readScalar limit ((toString n).toList ++ rest) = .ok (.int n, rest) := by
  obtain ⟨c, cs, hdigit, heq, htext⟩ := toList_toString_int n
  obtain ⟨hplain, hsign⟩ := readNumber_toDigits hn h
  obtain ⟨hword, hword'⟩ := find?_words hdigit (cs ++ rest)
  rw [heq, List.cons_append] at hplain hsign
  rcases htext with ⟨htext, hn⟩ | ⟨htext, hn⟩
  · rw [htext, readScalar, List.cons_append, hword]
    exact hplain.trans (by rw [hn])
  · rw [htext, readScalar, List.cons_append, List.cons_append, hword']
    exact hsign.trans (by rw [hn])

/-! ### Values -/

/-- Blanks, closing brackets and the byte order mark, which no value starts with. -/
def closers : List Char := [' ', '\t', '\n', '\r', ']', '\x7d', '\ufeff']

theorem skipBlanks_cons {c : Char} (h : c ∉ closers) (cs : List Char) :
    skipBlanks (c :: cs) = c :: cs := by
  simp only [closers, List.mem_cons, not_or] at h
  simp [skipBlanks, h]

theorem skipBlanks_space_cons {c : Char} (h : c ∉ closers) (cs : List Char) :
    skipBlanks (' ' :: c :: cs) = c :: cs := skipBlanks_cons h cs

/-- No number goes on with a comma, a blank or a closing bracket. -/
theorem ends_cons {c : Char} (h : c ∈ ',' :: closers) (cs : List Char) : Ends (c :: cs) := by
  have hall : (',' :: closers).all fun d => !d.isDigit && d != '.' && d != 'e' && d != 'E' := by
    decide
  rintro d hd
  obtain rfl := Option.mem_some_iff.1 hd
  simpa [and_assoc] using List.all_eq_true.1 hall c h

/-- A value in which there are no numbers but whole ones that a reader admits, no surrogates, and no
object with a repeated key. -/
inductive Exact (limit : Option Nat) : Json → Prop
  /-- The null value. -/
  | null : Exact limit .null
  /-- A truth value. -/
  | bool {b : Bool} : Exact limit (.bool b)
  /-- A whole number. -/
  | int {n : Int} (hn : Admits limit n.natAbs) : Exact limit (.int n)
  /-- A text. -/
  | string {s : CodeText} (hs : s.IsText) : Exact limit (.string s)
  /-- An array of such values. -/
  | array {items : List Json} (h : ∀ j ∈ items, Exact limit j) : Exact limit (.array items)
  /-- An object of such values, whose keys differ. -/
  | object {fields : List (CodeText × Json)} (hkeys : (Table.keys fields).Nodup)
      (htexts : ∀ e ∈ fields, e.1.IsText) (h : ∀ e ∈ fields, Exact limit e.2) :
      Exact limit (.object fields)

/-- **A value is read back**: what is written for it starts no other value, and it is read to its
end, with a depth beyond its length. -/
structure ReadBack (limit : Option Nat) (repertoire : Repertoire) (j : Json) : Prop where
  /-- The text starts with no blank and no closing bracket. -/
  starts : ∃ c cs, (j.render repertoire).written = c :: cs ∧ c ∉ closers
  /-- The text is read as the value. -/
  reads : ∀ depth rest, (j.render repertoire).written.length < depth → Ends rest →
    readValue limit depth ((j.render repertoire).written ++ rest) = .ok (j, rest)

variable {limit : Option Nat} {repertoire : Repertoire}

/-- A value that is neither a text nor put together is read as a number or a word. -/
theorem readBack_of_readScalar {j : Json} {c : Char} {cs : List Char}
    (htext : (j.render repertoire).written = c :: cs)
    (hc : c ∉ '"' :: '[' :: '\x7b' :: closers)
    (hreads : ∀ rest, Ends rest → readScalar limit (c :: cs ++ rest) = .ok (j, rest)) :
    j.ReadBack limit repertoire := by
  simp only [List.mem_cons, not_or] at hc
  obtain ⟨hquote, hbracket, hbrace, hclosers⟩ := hc
  refine ⟨⟨c, cs, htext, hclosers⟩, fun depth rest hdepth hrest => ?_⟩
  obtain ⟨depth, rfl⟩ := Nat.exists_eq_succ_of_ne_zero (Nat.ne_zero_of_lt hdepth)
  rw [htext, ← hreads rest hrest, List.cons_append]
  unfold readValue
  simp [hquote, hbracket, hbrace]

theorem readBack_null : Json.null.ReadBack limit repertoire := by
  have htext : (Json.null.render repertoire).written = ['n', 'u', 'l', 'l'] := by
    rw [render]
    rfl
  exact readBack_of_readScalar htext (by decide) fun rest _ => rfl

theorem readBack_bool (b : Bool) : (Json.bool b).ReadBack limit repertoire := by
  cases b with
  | true =>
    have htext : ((Json.bool true).render repertoire).written = ['t', 'r', 'u', 'e'] := by
      rw [render]
      rfl
    exact readBack_of_readScalar htext (by decide) fun rest _ => rfl
  | false =>
    have htext : ((Json.bool false).render repertoire).written = ['f', 'a', 'l', 's', 'e'] := by
      rw [render]
      rfl
    exact readBack_of_readScalar htext (by decide) fun rest _ => rfl

theorem readBack_int {n : Int} (hn : Admits limit n.natAbs) :
    (Json.int n).ReadBack limit repertoire := by
  have hrender : ((Json.int n).render repertoire).written = (toString n).toList := by
    rw [render, CodeText.written_ofString]
  have hreads : ∀ rest, Ends rest →
      readScalar limit (((Json.int n).render repertoire).written ++ rest) = .ok (.int n, rest) :=
    fun rest hrest => hrender ▸ readScalar_int hn hrest
  obtain ⟨c, cs, hdigit, -, htext⟩ := toList_toString_int n
  rw [hrender] at hreads
  rcases htext with ⟨htext, -⟩ | ⟨htext, -⟩
  · rw [htext] at hreads
    refine readBack_of_readScalar (hrender.trans htext) (fun hc => ?_) hreads
    have hdigits : ('"' :: '[' :: '\x7b' :: closers).all (!·.isDigit) := by decide
    have hno := List.all_eq_true.1 hdigits c hc
    rw [hdigit] at hno
    cases hno
  · rw [htext] at hreads
    exact readBack_of_readScalar (hrender.trans htext) (by decide) hreads

theorem readBack_string {s : CodeText} (hs : s.IsText) :
    (Json.string s).ReadBack limit repertoire := by
  have htext : ((Json.string s).render repertoire).written
      = '"' :: (quotedBody repertoire s.codes ++ ['"']) := by
    rw [render, written_quoted]
  refine ⟨⟨_, _, htext, by decide⟩, fun depth rest hdepth _ => ?_⟩
  obtain ⟨depth, rfl⟩ := Nat.exists_eq_succ_of_ne_zero (Nat.ne_zero_of_lt hdepth)
  rw [htext, List.cons_append, List.append_assoc, readValue, List.singleton_append,
    readText_quoted repertoire hs]
  rfl

/-- What is written between brackets starts as its first part does. -/
theorem exists_intercalate_eq {α : Type} (separator : List Char) (text : α → List Char) {a : α}
    (h : ∃ c cs, text a = c :: cs ∧ c ∉ closers) (as : List α) :
    ∃ c cs, separator.intercalate ((a :: as).map text) = c :: cs ∧ c ∉ closers := by
  obtain ⟨c, cs, htext, hc⟩ := h
  rw [List.map_cons, htext]
  cases as with
  | nil => exact ⟨c, cs, List.intercalate_singleton, hc⟩
  | cons b as =>
    rw [List.map_cons, List.intercalate_cons_cons, List.append_assoc, List.cons_append]
    exact ⟨c, _, rfl, hc⟩

/-- **The items of an array are read back**, with a depth beyond their length. -/
theorem readItems_intercalate {item : Json} {items : List Json}
    (h : ∀ j ∈ item :: items, j.ReadBack limit repertoire) (depth : Nat) (rest : List Char)
    (hdepth : ([',', ' '].intercalate
      ((item :: items).map fun j => (j.render repertoire).written)).length + 1 < depth) :
    readItems limit depth ([',', ' '].intercalate
      ((item :: items).map fun j => (j.render repertoire).written) ++ ']' :: rest)
        = .ok (item :: items, rest) := by
  induction items generalizing item depth with
  | nil =>
    obtain ⟨depth, rfl⟩ := Nat.exists_eq_succ_of_ne_zero (Nat.ne_zero_of_lt hdepth)
    rw [List.map_singleton, List.intercalate_singleton] at hdepth ⊢
    rw [readItems, (h item (by simp)).reads depth _ (by omega) (ends_cons (by decide) _)]
    rfl
  | cons item' items ih =>
    obtain ⟨depth, rfl⟩ := Nat.exists_eq_succ_of_ne_zero (Nat.ne_zero_of_lt hdepth)
    rw [List.forall_mem_cons] at h
    obtain ⟨c, cs, htext, hc⟩ := exists_intercalate_eq [',', ' ']
      (fun j => (j.render repertoire).written) (h.2 item' (by simp)).starts items
    rw [List.map_cons, List.map_cons, List.intercalate_cons_cons, ← List.map_cons
      (f := fun j : Json => (j.render repertoire).written)] at hdepth ⊢
    simp only [List.length_append, List.length_cons, List.length_nil] at hdepth
    have hothers := ih h.2 depth (by omega)
    -- The blank behind the comma is skipped, and no more, since no item starts with one.
    rw [htext, List.cons_append] at hothers
    rw [htext, List.append_assoc, List.append_assoc, List.cons_append, List.cons_append,
      List.nil_append, List.cons_append, readItems,
      h.1.reads depth _ (by omega) (ends_cons (by decide) _)]
    change (readItems limit depth (skipBlanks (' ' :: c :: (cs ++ ']' :: rest))) >>= fun p =>
      pure (item :: p.1, p.2)) = _
    rw [skipBlanks_space_cons hc, hothers]
    rfl

/-- What stands behind an opening bracket is read as the items of an array. -/
theorem readValue_bracket {depth : Nat} {c : Char} {cs rest : List Char} {items : List Json}
    (hc : c ∉ closers) (h : readItems limit depth (c :: cs) = .ok (items, rest)) :
    readValue limit (depth + 1) ('[' :: c :: cs) = .ok (.array items, rest) := by
  have hbracket : c ≠ ']' := by
    rintro rfl
    exact hc (by decide)
  rw [readValue, skipBlanks_cons hc]
  split
  · rename_i heq
    exact absurd (List.cons.inj heq).1 hbracket
  · rw [h]
    rfl

/-- What stands behind an opening brace is read as the fields of an object. -/
theorem readValue_brace {depth : Nat} {c : Char} {cs rest : List Char}
    {fields : List (CodeText × Json)} (hc : c ∉ closers)
    (h : readFields limit depth (c :: cs) = .ok (fields, rest)) :
    readValue limit (depth + 1) ('\x7b' :: c :: cs)
      = .ok (.object (Table.ofEntries fields), rest) := by
  have hbrace : c ≠ '\x7d' := by
    rintro rfl
    exact hc (by decide)
  rw [readValue, skipBlanks_cons hc]
  split
  · rename_i heq
    exact absurd (List.cons.inj heq).1 hbrace
  · rw [h]
    rfl

theorem readBack_array {items : List Json}
    (h : ∀ j ∈ items, j.ReadBack limit repertoire) :
    (Json.array items).ReadBack limit repertoire := by
  have htext : ((Json.array items).render repertoire).written = '[' :: ([',', ' '].intercalate
      (items.map fun j => (j.render repertoire).written) ++ [']']) := by
    rw [render_array, CodeText.written_append, CodeText.written_append,
      CodeText.written_intercalate, List.map_map]
    rfl
  refine ⟨⟨_, _, htext, by decide⟩, fun depth rest hdepth _ => ?_⟩
  obtain ⟨depth, rfl⟩ := Nat.exists_eq_succ_of_ne_zero (Nat.ne_zero_of_lt hdepth)
  rw [htext] at hdepth ⊢
  cases items with
  | nil => rfl
  | cons item items =>
    rw [List.length_cons, List.length_append, List.length_singleton] at hdepth
    have hitems := readItems_intercalate h depth rest (by omega)
    obtain ⟨c, cs, hstart, hc⟩ := exists_intercalate_eq [',', ' ']
      (fun j => (j.render repertoire).written) (h item (by simp)).starts items
    rw [hstart, List.cons_append] at hitems
    rw [hstart, List.cons_append, List.append_assoc, List.singleton_append]
    exact readValue_bracket hc hitems

theorem written_renderField (e : CodeText × Json) :
    (renderField repertoire e).written = '"' :: (quotedBody repertoire e.1.codes ++
      '"' :: ':' :: ' ' :: (e.2.render repertoire).written) := by
  simp [renderField, written_quoted]

/-- Behind the text of a field a brace or a comma is expected. -/
theorem readFields_renderField {e : CodeText × Json}
    (hkey : e.1.IsText) (h : e.2.ReadBack limit repertoire) {depth : Nat} {rest : List Char}
    (hdepth : (renderField repertoire e).written.length ≤ depth) (hrest : Ends rest) :
    readFields limit (depth + 1) ((renderField repertoire e).written ++ rest) =
      match skipBlanks rest with
      | '\x7d' :: rest => .ok ([e], rest)
      | ',' :: rest => do
        let (fields, rest) ← readFields limit depth (skipBlanks rest)
        return (e :: fields, rest)
      | rest => .error (.expectedComma, rest.length) := by
  obtain ⟨c, cs, hvalue, hc⟩ := h.starts
  rw [written_renderField] at hdepth ⊢
  simp only [List.length_cons, List.length_append] at hdepth
  have hreads := h.reads depth rest (by omega) hrest
  rw [hvalue, List.cons_append] at hreads
  rw [hvalue, List.cons_append, List.append_assoc, readFields, List.cons_append, List.cons_append,
    List.cons_append, List.cons_append, readText_quoted repertoire hkey]
  change (readValue limit depth (skipBlanks (' ' :: c :: (cs ++ rest))) >>= fun p =>
    match skipBlanks p.2 with
    | '\x7d' :: rest => pure ([(e.1, p.1)], rest)
    | ',' :: rest => do
      let (fields, rest) ← readFields limit depth (skipBlanks rest)
      return ((e.1, p.1) :: fields, rest)
    | rest => throw (JsonFault.expectedComma, rest.length)) = _
  rw [skipBlanks_space_cons hc, hreads]
  rfl

/-- **The fields of an object are read back**, with a depth beyond their length. -/
theorem readFields_intercalate {field : CodeText × Json}
    {fields : List (CodeText × Json)}
    (h : ∀ e ∈ field :: fields, e.1.IsText ∧ e.2.ReadBack limit repertoire)
    (depth : Nat) (rest : List Char)
    (hdepth : ([',', ' '].intercalate
      ((field :: fields).map fun e => (renderField repertoire e).written)).length + 1 < depth) :
    readFields limit depth ([',', ' '].intercalate
      ((field :: fields).map fun e => (renderField repertoire e).written) ++ '\x7d' :: rest)
        = .ok (field :: fields, rest) := by
  induction fields generalizing field depth with
  | nil =>
    obtain ⟨depth, rfl⟩ := Nat.exists_eq_succ_of_ne_zero (Nat.ne_zero_of_lt hdepth)
    rw [List.map_singleton, List.intercalate_singleton] at hdepth ⊢
    obtain ⟨hkey, hvalue⟩ := h field (by simp)
    rw [readFields_renderField hkey hvalue (by omega) (ends_cons (by decide) _)]
    rfl
  | cons field' fields ih =>
    obtain ⟨depth, rfl⟩ := Nat.exists_eq_succ_of_ne_zero (Nat.ne_zero_of_lt hdepth)
    rw [List.forall_mem_cons] at h
    obtain ⟨c, cs, htext, hc⟩ := exists_intercalate_eq [',', ' ']
      (fun e => (renderField repertoire e).written)
      ⟨_, _, written_renderField field', by decide⟩ fields
    rw [List.map_cons, List.map_cons, List.intercalate_cons_cons, ← List.map_cons
      (f := fun e => (renderField repertoire e).written)] at hdepth ⊢
    simp only [List.length_append, List.length_cons, List.length_nil] at hdepth
    -- the depth goes down by one with each field, and the length by more
    have hothers := ih h.2 depth (by omega)
    rw [htext, List.cons_append] at hothers
    rw [htext, List.append_assoc, List.append_assoc, List.cons_append, List.cons_append,
      List.nil_append, List.cons_append,
      readFields_renderField h.1.1 h.1.2 (by omega) (ends_cons (by decide) _)]
    change (do
      let (fields, rest) ← readFields limit depth (skipBlanks (' ' :: c :: (cs ++ '\x7d' :: rest)))
      return (field :: fields, rest)) = _
    rw [skipBlanks_space_cons hc, hothers]
    rfl

theorem readBack_object {fields : List (CodeText × Json)}
    (hkeys : (Table.keys fields).Nodup) (htexts : ∀ e ∈ fields, e.1.IsText)
    (h : ∀ e ∈ fields, e.2.ReadBack limit repertoire) :
    (Json.object fields).ReadBack limit repertoire := by
  have htext : ((Json.object fields).render repertoire).written = '\x7b' :: ([',', ' '].intercalate
      (fields.map fun e => (renderField repertoire e).written) ++ ['\x7d']) := by
    rw [render_object, CodeText.written_append, CodeText.written_append,
      CodeText.written_intercalate, List.map_map]
    rfl
  refine ⟨⟨_, _, htext, by decide⟩, fun depth rest hdepth _ => ?_⟩
  obtain ⟨depth, rfl⟩ := Nat.exists_eq_succ_of_ne_zero (Nat.ne_zero_of_lt hdepth)
  rw [htext] at hdepth ⊢
  cases fields with
  | nil => rfl
  | cons field fields =>
    rw [List.length_cons, List.length_append, List.length_singleton] at hdepth
    have hfields := readFields_intercalate (fun e he => ⟨htexts e he, h e he⟩) depth rest (by omega)
    obtain ⟨c, cs, hstart, hc⟩ := exists_intercalate_eq [',', ' ']
      (fun e => (renderField repertoire e).written)
      ⟨_, _, written_renderField field, by decide⟩ fields
    rw [hstart, List.cons_append] at hfields
    rw [hstart, List.cons_append, List.append_assoc, List.singleton_append]
    -- The reader makes a table of the fields, which keeps them all if their keys differ.
    exact (readValue_brace hc hfields).trans (by rw [Table.ofEntries_of_nodup hkeys])

/-- **Every exact value is read back.** -/
theorem Exact.readBack {j : Json} (h : j.Exact limit) : j.ReadBack limit repertoire := by
  induction h with
  | null => exact readBack_null
  | bool => exact readBack_bool _
  | int hn => exact readBack_int hn
  | string hs => exact readBack_string hs
  | array _ ih => exact readBack_array ih
  | object hkeys htexts _ ih => exact readBack_object hkeys htexts ih

theorem Exact.isText_render {j : Json} (h : j.Exact limit) : (j.render repertoire).IsText := by
  induction h with
  | null => exact isText_render_null
  | bool => exact isText_render_bool _
  | int =>
    rw [render]
    exact CodeText.isText_ofString _
  | string hs => exact isText_render_string hs
  | array _ ih => exact isText_render_array ih
  | object _ htexts _ ih => exact isText_render_object htexts ih

theorem ends_of_skipBlanks {rest : List Char} (h : skipBlanks rest = []) : Ends rest := by
  cases rest with
  | nil => nofun
  | cons c rest =>
    have hblank : c ∈ closers := Decidable.byContradiction fun hc => by
      rw [skipBlanks_cons hc] at h
      cases h
    exact ends_cons (List.mem_cons_of_mem _ hblank) rest

/-- **The text of a value is parsed as the value**, also with blanks behind it. -/
theorem Exact.exists_parse_render {j : Json} (h : j.Exact limit) (repertoire : Repertoire) :
    ∃ text : String, j.render repertoire = text ∧ ∀ blanks : String,
      skipBlanks blanks.toList = [] → Json.parse limit (text ++ blanks) = .ok j := by
  obtain ⟨text, htext⟩ : (j.render repertoire).IsText := h.isText_render
  refine ⟨text, htext, fun blanks hblanks => ?_⟩
  have hread : j.ReadBack limit repertoire := h.readBack
  have hwritten : (j.render repertoire).written = text.toList := by
    rw [htext, CodeText.written_ofString]
  obtain ⟨c, cs, hstarts, hc⟩ := hread.starts
  rw [hwritten] at hstarts
  -- The parser refuses a byte order mark, and starts with a depth beyond the length of the text.
  have hmark : c ≠ '\ufeff' := by
    rintro rfl
    exact hc (by decide)
  have hvalue := hread.reads ((text ++ blanks).toList.length + 1) blanks.toList
    (by rw [hwritten, String.toList_append, List.length_append]; omega)
    (ends_of_skipBlanks hblanks)
  rw [hwritten, ← String.toList_append] at hvalue
  have hstart : (text ++ blanks).toList = c :: (cs ++ blanks.toList) := by
    rw [String.toList_append, hstarts, List.cons_append]
  have hall : readAll limit (text ++ blanks).toList = .ok j := by
    rw [hstart] at hvalue ⊢
    rw [readAll, skipBlanks_cons hc, List.head?_cons, if_neg (by simp [hmark]), hvalue]
    change (if (skipBlanks blanks.toList).isEmpty then (pure j : Reading Json)
      else throw (.extraData, (skipBlanks blanks.toList).length)) = _
    rw [hblanks]
    rfl
  rw [parse, hall]
  rfl

end Json

end MessageBinder
