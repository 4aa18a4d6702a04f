import MessageBinder.Proofs.Catalogue.Entries
import MessageBinder.Proofs.Catalogue.Reader

/-!
# Line ends of properties text

The reader of the format goes through a text once, and a catalogue is read from lines that have been
cut and trimmed before. Where the two cut alike they find the same logical lines
(`MessageBinder.Properties.Reader.linesFrom_behind`): where the reader is in the middle of a natural
line is told by the part of it that has been read, with the blanks at its front taken away, and by
the logical line that it continues (`MessageBinder.Properties.Reader.Position.behind`).

They do not cut alike everywhere. Eight characters end a line here that are content, or white space,
in the format (`MessageBinder.Properties.isStray`). What is read is what the format has for the text
with a line break in the place of each of them (`MessageBinder.Properties.FollowsFormat.always`),
and no logical line that holds one is ever found (`MessageBinder.Properties.FollowsFormat.found`).
There are two other differences. A logical line that is empty, a lone backslash with nothing behind
it, is an entry here, with an empty key. And two escapes that write a surrogate pair write two code
points here, where the format has one character.
-/

namespace MessageBinder.Properties

/-- Whether a character ends a line here and none in the format: the form feed, which is white space
there, and those that are content. -/
def isStray (c : Char) : Bool := c = '\x0c' || Text.isForeignEnd c

theorem isLineEnd_eq_isBreak (c : Char) :
    Text.isLineEnd c = (Reader.isBreak c || isStray c) := by
  rw [Text.isLineEnd_eq, Reader.isBreak, isStray, Bool.or_assoc]

namespace Reader

/-! ### Where a reader is -/

/-- Where a reader is behind a part of a natural line of the given number, at the front of which a
logical line was pending or not. -/
def Position.behind (pending : Option LogicalLine) (number : Nat) (raw : List Char) : Position :=
  let text := trimLeft raw
  match pending with
  | none =>
    if text = [] then front
    else if isComment text then comment
    else content ⟨number, text⟩ (continues text)
  | some line =>
    if text = [] then resumed line
    else content { line with text := line.text ++ text } (continues text)

variable {pending : Option LogicalLine} {number : Nat} {raw cs : List Char} {c : Char}

/-- A comment is told by its first character. -/
theorem isComment_concat (hcs : cs ≠ []) (c : Char) : isComment (cs ++ [c]) = isComment cs := by
  cases cs with
  | nil => exact absurd rfl hcs
  | cons d cs => rfl

theorem continues_singleton (c : Char) : continues [c] = decide (c = '\\') := by
  rw [← List.nil_append [c], continues_concat]
  exact Bool.and_true _

/-- **A character of a natural line** takes a reader behind the part of the line with it. -/
theorem take_behind (pending : Option LogicalLine) (number : Nat) (raw : List Char) (c : Char) :
    (Position.behind pending number raw).take number c
      = Position.behind pending number (raw ++ [c]) := by
  simp only [Position.behind, trimLeft_concat]
  by_cases htext : trimLeft raw = []
  · -- as long as there are only blanks, the character may open a comment or the content
    cases pending <;> by_cases hc : isBlank c <;>
      simp [htext, hc, Position.take, isWhite_eq_isBlank, isComment, continues_singleton]
  · cases pending with
    | none =>
      by_cases hcomment : isComment (trimLeft raw) = true <;>
        simp [htext, hcomment, isComment_concat, Position.take, continues_concat]
    | some line => simp [htext, Position.take, continues_concat]

/-- The logical line that a reader goes on with at the front of a natural line. -/
def Position.pending? : Position → Option LogicalLine
  | resumed line => some line
  | _ => none

/-- Behind the end of a natural line nothing of the next one has been read. -/
theorem endLine_snd (p : Position) (number : Nat) :
    p.endLine.2 = .behind p.endLine.2.pending? number [] := by
  cases p with
  | front => rfl
  | comment => rfl
  | resumed line => rfl
  | content line escaped => cases escaped <;> rfl

/-- At the end of the text a line that would go on is given as well. -/
theorem toList_endText (p : Position) :
    p.endText.toList = p.endLine.1.toList ++ p.endLine.2.pending?.toList := by
  cases p with
  | front => rfl
  | comment => rfl
  | resumed line => rfl
  | content line escaped => cases escaped <;> rfl

/-- **The end of a natural line** gives a reader the logical line that ends with it, and the one to
go on with. -/
theorem logicalLines_behind (pending : Option LogicalLine) (number : Nat) (raw : List Char)
    (rest : List (List Char)) : logicalLines pending number (raw :: rest) =
      let p := Position.behind pending number raw
      p.endLine.1.toList ++ logicalLines p.endLine.2.pending? (number + 1) rest := by
  by_cases htext : trimLeft raw = []
  · have hends : continues [] = false := rfl
    cases pending <;>
      simp [Position.behind, logicalLines, htext, hends, isComment, Position.endLine,
        Position.pending?]
  · cases pending with
    | none =>
      cases hcomment : isComment (trimLeft raw) with
      | true =>
        simp [Position.behind, logicalLines, htext, hcomment, Position.endLine, Position.pending?]
      | false =>
        cases hcontinues : continues (trimLeft raw) <;>
          simp [Position.behind, logicalLines, htext, hcomment, hcontinues, Position.endLine,
            Position.pending?]
    | some line =>
      cases hcontinues : continues (trimLeft raw) <;>
        simp [Position.behind, logicalLines, htext, hcontinues, Position.endLine,
          Position.pending?, List.dropLast_append_of_ne_nil htext]

/-! ### Logical lines are found alike -/

/-- A carriage return that is no pair has no line feed behind it. -/
theorem head?_ne_of_pair (h : ∀ cs', c = '\r' → cs = '\n' :: cs' → False) :
    c = '\r' → cs.head? ≠ some '\n' := by
  intro hc hhead
  obtain ⟨cs', rfl⟩ := List.head?_eq_some_iff.1 hhead
  exact h cs' hc rfl

theorem linesFrom_break {p : Position} (hc : isBreak c) (hpair : c = '\r' → cs.head? ≠ some '\n') :
    linesFrom p number (c :: cs)
      = p.endLine.1.toList ++ linesFrom p.endLine.2 (number + 1) cs := by
  rw [linesFrom, if_pos hc]
  rintro cs' rfl rfl
  exact hpair rfl rfl

theorem linesFrom_cons {p : Position} (hc : isBreak c = false) :
    linesFrom p number (c :: cs) = linesFrom (p.take number c) number cs := by
  rw [linesFrom, if_neg (by simp [hc])]
  rintro cs' rfl -
  exact absurd hc (by decide)

theorem foldr_consLine_cons (raw line : List Char) (lines : List (List Char)) :
    raw.foldr Text.consLine (line :: lines) = (raw ++ line) :: lines := by
  induction raw with
  | nil => rfl
  | cons c raw ih => rw [List.foldr_cons, ih]; rfl

theorem foldr_consLine_nil (hraw : raw ≠ []) : raw.foldr Text.consLine [] = [raw] := by
  induction raw with
  | nil => exact absurd rfl hraw
  | cons c raw ih =>
    cases raw with
    | nil => rfl
    | cons d raw => rw [List.foldr_cons, ih (List.cons_ne_nil d raw)]; rfl

/-- **The reader finds the logical lines** of a text without strays, from within a natural line
on. -/
theorem linesFrom_behind (h : ∀ c ∈ cs, isStray c = false) (pending : Option LogicalLine)
    (number : Nat) (raw : List Char) : linesFrom (.behind pending number raw) number cs
      = logicalLines pending number (raw.foldr Text.consLine (Text.splitLines cs)) := by
  -- The induction is on the cuts; between two of them the part that has been read grows.
  fun_induction Text.splitLines cs generalizing pending number raw with
  | case1 =>
    cases raw with
    | nil => cases pending <;> rfl
    | cons c raw =>
      rw [foldr_consLine_nil (List.cons_ne_nil c raw), logicalLines_behind, linesFrom,
        toList_endText]
      rfl
  | case2 cs ih =>
    have hcs : ∀ c ∈ cs, isStray c = false := fun c hc => h c (by simp [hc])
    rw [foldr_consLine_cons, List.append_nil, logicalLines_behind, linesFrom,
      endLine_snd _ (number + 1), ih hcs]
    rfl
  | case3 c cs hpair hend ih =>
    obtain ⟨hc, hcs⟩ := List.forall_mem_cons.1 h
    rw [isLineEnd_eq_isBreak, hc, Bool.or_false] at hend
    rw [foldr_consLine_cons, List.append_nil, logicalLines_behind,
      linesFrom_break hend (head?_ne_of_pair hpair), endLine_snd _ (number + 1), ih hcs]
    rfl
  | case4 c cs hpair hend ih =>
    obtain ⟨hc, hcs⟩ := List.forall_mem_cons.1 h
    rw [isLineEnd_eq_isBreak, hc, Bool.or_false] at hend
    rw [linesFrom_cons (by simpa using hend), take_behind, ih hcs, List.foldr_append]
    rfl

end Reader

/-! ### Strays -/

/-- A text with a line break in the place of each stray. -/
def breakStrays (cs : List Char) : List Char :=
  cs.flatMap fun c => if isStray c then ['\r', '\n'] else [c]

variable {cs : List Char}

theorem breakStrays_eq_self (h : ∀ c ∈ cs, isStray c = false) : breakStrays cs = cs := by
  induction cs with
  | nil => rfl
  | cons c cs ih =>
    obtain ⟨hc, hcs⟩ := List.forall_mem_cons.1 h
    rw [breakStrays, List.flatMap_cons, hc]
    exact congrArg (c :: ·) (ih hcs)

/-- No stray is left. -/
theorem isStray_of_mem_breakStrays {c : Char} (hc : c ∈ breakStrays cs) : isStray c = false := by
  obtain ⟨d, -, hd⟩ := List.mem_flatMap.1 hc
  split at hd
  · rcases List.mem_pair.1 hd with rfl | rfl <;> decide
  · rename_i hstray
    rw [List.mem_singleton.1 hd]
    simpa using hstray

/-- The first character is what it was, or opens a line break. -/
theorem head?_breakStrays_ne (h : cs.head? ≠ some '\n') : (breakStrays cs).head? ≠ some '\n' := by
  cases cs with
  | nil => exact h
  | cons c cs =>
    rw [breakStrays, List.flatMap_cons]
    split
    · simp
    · simpa using h

/-- **Strays cut a text into the same lines** as line breaks in their places. -/
theorem splitLines_breakStrays (cs : List Char) :
    Text.splitLines (breakStrays cs) = Text.splitLines cs := by
  fun_induction Text.splitLines cs with
  | case1 => rfl
  | case2 cs ih =>
    have hpair : breakStrays ('\r' :: '\n' :: cs) = '\r' :: '\n' :: breakStrays cs := rfl
    rw [hpair, Text.splitLines_crlf, ih]
  | case3 c cs hpair hend ih =>
    rw [breakStrays, List.flatMap_cons]
    split
    · exact (Text.splitLines_crlf _).trans (congrArg _ ih)
    · have hhead := fun hc => head?_breakStrays_ne (Reader.head?_ne_of_pair hpair hc)
      exact (Text.splitLines_end hend hhead).trans (congrArg _ ih)
  | case4 c cs hpair hend ih =>
    have hline : Text.isLineEnd c = false := by simpa using hend
    have hstray : isStray c = false := by
      rw [isLineEnd_eq_isBreak, Bool.or_eq_false_iff] at hline
      exact hline.2
    rw [breakStrays, List.flatMap_cons, hstray]
    exact (Text.splitLines_cons hline _).trans (congrArg _ ih)

/-- No line holds a line end. -/
theorem isLineEnd_of_mem_splitLines (cs : List Char) :
    ∀ line ∈ Text.splitLines cs, ∀ c ∈ line, Text.isLineEnd c = false := by
  fun_induction Text.splitLines cs with
  | case1 => exact nofun
  | case2 cs ih => exact List.forall_mem_cons.2 ⟨nofun, ih⟩
  | case3 c cs hpair hend ih => exact List.forall_mem_cons.2 ⟨nofun, ih⟩
  | case4 c cs hpair hend ih =>
    have hc : Text.isLineEnd c = false := by simpa using hend
    cases hlines : Text.splitLines cs with
    | nil =>
      rw [Text.consLine]
      simpa using hc
    | cons line lines =>
      rw [hlines] at ih
      obtain ⟨hline, hlines⟩ := List.forall_mem_cons.1 ih
      exact List.forall_mem_cons.2 ⟨List.forall_mem_cons.2 ⟨hc, hline⟩, hlines⟩

/-- Joining lines brings in no characters. -/
theorem forall_mem_logicalLines {P : Char → Prop} {lines : List (List Char)}
    (hlines : ∀ line ∈ lines, ∀ c ∈ line, P c) (pending : Option LogicalLine)
    (hpending : ∀ l ∈ pending, ∀ c ∈ l.text, P c) (number : Nat) :
    ∀ l ∈ logicalLines pending number lines, ∀ c ∈ l.text, P c := by
  induction lines generalizing pending number with
  | nil =>
    intro l hl
    exact hpending l (Option.mem_toList.1 hl)
  | cons raw lines ih =>
    obtain ⟨hraw, hlines⟩ := List.forall_mem_cons.1 hlines
    have htext : ∀ c ∈ trimLeft raw, P c := fun c hc => hraw c (List.dropWhile_subset _ hc)
    have hbegun : ∀ c ∈ (pending.getD ⟨number, []⟩).text, P c := by
      cases pending with
      | none => simp
      | some l => exact hpending l rfl
    have hnone : ∀ l ∈ (none : Option LogicalLine), ∀ c ∈ l.text, P c := by simp
    rw [logicalLines]
    split
    · exact ih hlines none hnone _
    · split
      · refine ih hlines _ ?_ _
        rintro l ⟨⟩
        exact List.forall_mem_append.2
          ⟨hbegun, fun c hc => htext c (List.dropLast_subset _ hc)⟩
      · exact List.forall_mem_cons.2
          ⟨List.forall_mem_append.2 ⟨hbegun, htext⟩, ih hlines none hnone _⟩

/-! ### What is read -/

/-- The logical lines that are found in a text. -/
def linesOf (text : String) : List LogicalLine := logicalLines none 1 (Text.splitLines text.toList)

/-- **What is found** is what the reader finds with line breaks in the places of strays. -/
theorem linesOf_eq (text : String) :
    linesOf text = Reader.lines (String.ofList (breakStrays text.toList)) := by
  have hstrays : ∀ c ∈ breakStrays text.toList, isStray c = false := fun c hc =>
    isStray_of_mem_breakStrays hc
  have hlines := Reader.linesFrom_behind hstrays none 1 []
  rw [Reader.lines, String.toList_ofList, linesOf, ← splitLines_breakStrays]
  exact hlines.symm

theorem parse_eq_readLines (text origin : String) :
    parse text origin = Reader.readLines .ofNats origin (linesOf text) := by
  have hentry : entry origin = Reader.readEntry .ofNats origin :=
    funext (Reader.entry_eq origin)
  rw [parse, hentry]
  rfl

/-- No stray is found in a logical line. -/
theorem isStray_of_mem_linesOf {text : String} {line : LogicalLine} (hline : line ∈ linesOf text)
    {c : Char} (hc : c ∈ line.text) : isStray c = false := by
  have hend := forall_mem_logicalLines (isLineEnd_of_mem_splitLines text.toList) none nofun 1
    line hline c hc
  rw [isLineEnd_eq_isBreak, Bool.or_eq_false_iff] at hend
  exact hend.2

/-! ### Empty logical lines -/

/-- **Readings agree but for a key**: the same failure, or catalogues with the same values for all
other keys. -/
inductive AgreesBut (key : CodeText) :
    Except CatalogueError Catalogue → Except CatalogueError Catalogue → Prop
  | error (e : CatalogueError) : AgreesBut key (.error e) (.error e)
  | ok {c c' : Catalogue} (h : ∀ k ≠ key, Table.find? k c = Table.find? k c') :
      AgreesBut key (.ok c) (.ok c')

/-- The entries of an empty key are met by no other key. -/
theorem find?_ofEntries_filter {key k : CodeText} (hk : k ≠ key)
    (entries : List (CodeText × CodeText)) :
    Table.find? k (Table.ofEntries (entries.filter (·.1 ≠ key)))
      = Table.find? k (Table.ofEntries entries) := by
  rw [Table.find?_ofEntries, Table.find?_ofEntries, ← List.filter_reverse, Table.find?, Table.find?,
    List.find?_filter]
  congr 2
  funext e
  by_cases he : e.1 = k
  · simp [he, hk]
  · simp [he]

/-- Leaving out empty lines leaves out entries of the empty key, and no failure. -/
theorem mapM_readEntry_filter (origin : String) (lines : List LogicalLine) :
    (∃ e, lines.mapM (Reader.readEntry Reader.textOf origin) = .error e ∧
        (lines.filter fun line => line.text ≠ []).mapM (Reader.readEntry Reader.textOf origin)
          = .error e) ∨
      ∃ es es', lines.mapM (Reader.readEntry Reader.textOf origin) = .ok es ∧
        (lines.filter fun line => line.text ≠ []).mapM (Reader.readEntry Reader.textOf origin)
          = .ok es' ∧
        es.filter (·.1 ≠ CodeText.ofString "") = es'.filter (·.1 ≠ CodeText.ofString "") := by
  induction lines with
  | nil => exact Or.inr ⟨[], [], rfl, rfl, rfl⟩
  | cons line lines ih =>
    -- An empty line has an entry and no failure, so the first failure is that of the same line.
    by_cases hline : line.text = []
    · have hentry : Reader.readEntry Reader.textOf origin line = .ok ("", "") := by
        rw [Reader.readEntry, Reader.unitsOf?, hline]
        rfl
      rw [List.filter_cons_of_neg (by simpa using hline), List.mapM_cons, hentry]
      rcases ih with ⟨e, hall, hfilter⟩ | ⟨es, es', hall, hfilter, heq⟩
      · exact Or.inl ⟨e, by rw [hall]; rfl, hfilter⟩
      · exact Or.inr ⟨("", "") :: es, es', by rw [hall]; rfl, hfilter, by simpa using heq⟩
    · rw [List.filter_cons_of_pos (by simpa using hline), List.mapM_cons, List.mapM_cons]
      cases hentry : Reader.readEntry Reader.textOf origin line with
      | error e => exact Or.inl ⟨e, rfl, rfl⟩
      | ok entry =>
        rcases ih with ⟨e, hall, hfilter⟩ | ⟨es, es', hall, hfilter, heq⟩
        · exact Or.inl ⟨e, by rw [hall]; rfl, by rw [hfilter]; rfl⟩
        · exact Or.inr ⟨entry :: es, entry :: es', by rw [hall]; rfl, by rw [hfilter]; rfl, by
            rw [List.filter_cons, List.filter_cons, heq]⟩

/-- **Empty lines touch the empty key alone.** -/
theorem agreesBut_readLines (origin : String) (lines : List LogicalLine) :
    AgreesBut "" (Reader.readLines Reader.textOf origin lines)
      (Reader.readLines Reader.textOf origin (lines.filter fun line => line.text ≠ [])) := by
  rw [Reader.readLines, Reader.readLines]
  rcases mapM_readEntry_filter origin lines with ⟨e, hall, hfilter⟩ | ⟨es, es', hall, hfilter, heq⟩
  · rw [hall, hfilter]
    exact .error e
  · rw [hall, hfilter]
    refine .ok fun k hk => ?_
    rw [← find?_ofEntries_filter hk es, heq, find?_ofEntries_filter hk]

/-! ### The format -/

/-- **How properties text is read**, against the format. -/
structure FollowsFormat (text origin : String) : Prop where
  /-- As in the format, if there are no strays, no empty logical lines and no surrogate pairs. -/
  alike : (∀ c ∈ text.toList, isStray c = false) → (∀ line ∈ Reader.lines text, line.text ≠ []) →
    (∀ line ∈ Reader.lines text, Reader.WritesNoPair line) →
    parse text origin = Reader.read text origin
  /-- With empty logical lines as in the format but for the empty key. -/
  emptied : (∀ c ∈ text.toList, isStray c = false) →
    (∀ line ∈ Reader.lines text, Reader.WritesNoPair line) →
    AgreesBut "" (parse text origin) (Reader.read text origin)
  /-- In any case as the format has it for the text with line breaks in the places of strays, where
  the logical lines that are empty have entries and the halves of surrogate pairs are left apart. -/
  always : parse text origin
    = Reader.readLines .ofNats origin (Reader.lines (String.ofList (breakStrays text.toList)))
  /-- A logical line of the format that holds a stray is not found. -/
  found : ∀ line ∈ Reader.lines text, (∃ c ∈ line.text, isStray c) → line ∉ linesOf text

/-- **Properties text is read as the format has it**, but for strays, for logical lines that are
empty, and for surrogate pairs. -/
theorem followsFormat (text origin : String) : FollowsFormat text origin := by
  have hlines : (∀ c ∈ text.toList, isStray c = false) → linesOf text = Reader.lines text := by
    intro h
    rw [linesOf_eq, breakStrays_eq_self h, String.ofList_toList]
  refine ⟨fun hstrays hempty hpairs => ?_, fun hstrays hpairs => ?_, ?_,
    fun line _ hstray hfound => ?_⟩
  · have hall : ((Reader.lines text).filter fun line => line.text ≠ []) = Reader.lines text :=
      List.filter_eq_self.2 fun line hline => by simpa using hempty line hline
    rw [parse_eq_readLines, hlines hstrays, Reader.readLines_of_writesNoPair hpairs, Reader.read,
      hall]
  · rw [parse_eq_readLines, hlines hstrays, Reader.readLines_of_writesNoPair hpairs]
    exact agreesBut_readLines origin (Reader.lines text)
  · rw [parse_eq_readLines, linesOf_eq]
  · obtain ⟨c, hc, hstray⟩ := hstray
    rw [isStray_of_mem_linesOf hfound hc] at hstray
    cases hstray

/-- Lines that end in all three ways, a comment among them and a continuation, are read as in the
format. -/
theorem followsFormat_lineEnds :
    parse "! a\\\rk : b\\\r\n\t# c\n" "<text>" = Reader.read "! a\\\rk : b\\\r\n\t# c\n" "<text>" ∧
      (parse "! a\\\rk : b\\\r\n\t# c\n" "<text>").toOption
        = some (textEntries [("k", "b# c")]) := by
  have hstrays : ∀ c ∈ "! a\\\rk : b\\\r\n\t# c\n".toList, isStray c = false := by
    simp [isStray, Text.isForeignEnd]
  have hempty : ∀ line ∈ Reader.lines "! a\\\rk : b\\\r\n\t# c\n", line.text ≠ [] := by
    decide +kernel
  have hpairs : ∀ line ∈ Reader.lines "! a\\\rk : b\\\r\n\t# c\n",
      Reader.WritesNoPair line := by
    decide +kernel
  exact ⟨(followsFormat _ _).alike hstrays hempty hpairs, by decide +kernel⟩

/-- **Three differences**: a line separator in a value ends it and opens another key, a backslash
with a blank line behind it is an entry, and the halves of a surrogate pair are two code points. -/
theorem parse_ne_read :
    (parse "k=a\u2028b" "<text>").toOption = some (textEntries [("k", "a"), ("b", "")]) ∧
      (Reader.read "k=a\u2028b" "<text>").toOption = some (textEntries [("k", "a\u2028b")]) ∧
      (parse "\\\n\nk=v" "<text>").toOption = some (textEntries [("", ""), ("k", "v")]) ∧
      (Reader.read "\\\n\nk=v" "<text>").toOption = some (textEntries [("k", "v")]) ∧
      (parse "k=\\ud83d\\ude00" "<text>").toOption
        = some [(.ofString "k", .ofNats [0xD83D, 0xDE00])] ∧
      (Reader.read "k=\\ud83d\\ude00" "<text>").toOption
        = some [(.ofString "k", .ofNats [0x1F600])] := by
  decide +kernel

end MessageBinder.Properties
