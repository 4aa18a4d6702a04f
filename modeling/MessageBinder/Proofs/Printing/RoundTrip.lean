import MessageBinder.Proofs.Grammar.Completeness
import MessageBinder.Proofs.Printing.Nodes
import MessageBinder.Proofs.Printing.Statements

/-!
# Printing and reading back

A module that can be printed is read back from its text, up to what the printer does not keep
(`MessageBinder.Module.parse_written`). A module that was read from a text can be printed, as its
names and operators were put together by the grammar. Hence printing what was read and reading it
again gives the same module, and the printed text is printed again as it is
(`MessageBinder.Module.parse_text_of_parse`).

A string that holds a surrogate is printed with it, and what is printed then is no text of
characters, which alone can be read. All else holds of such a module too: written with an escape in
the place of each surrogate, it is read back.
-/

namespace MessageBinder

/-- The statements of one module behind those of another. -/
theorem Derives.body_append [CharacterNames] {ss ss' : List Stmt} {c c' : List Token}
    (h : Derives (.body ss) c) (h' : Derives (.body ss') c') :
    Derives (.body (ss ++ ss')) (c ++ c') := by
  generalize hp : Phrase.body ss = p at h
  induction h generalizing ss with
  | noStmts =>
    cases hp
    exact h'
  | nothing ht _ ih =>
    cases hp
    exact .nothing ht (ih rfl)
  | stmts h _ _ ih =>
    cases hp
    rw [List.append_assoc]
    exact .stmts h (ih rfl)
  | _ => cases hp

/-- What is emitted at the end of a text is a terminator or nothing. -/
theorem StatementScan.areTerminators_finish (s : StatementScan) : AreTerminators s.finish := by
  unfold finish
  split
  · split
    · exact areTerminators_singleton rfl
    · exact areTerminators_nil
  · exact areTerminators_nil

namespace Module

theorem written_text (m : Module) : m.text.written = lines 0 m.body := by
  rw [text, CodeText.written_join, Stmt.texts_eq_map, lines]
  simp [List.flatMap_map]

/-- A module is printed as a text of characters if its statements are. -/
theorem isText_text {m : Module} (h : ∀ s ∈ m.body, (s.text 0).IsText) : m.text.IsText := by
  rw [text, CodeText.isText_join, Stmt.texts_eq_map]
  simpa [List.forall_mem_map] using h

section Parsing

variable [CharacterNames]

/-- A text that is read as the tokens of statements is a module of them. -/
theorem parse_of_read {cs : List Char} {base : Nat} {o : Origin} {s : StatementScan}
    {out : List Token} {ss : List Stmt}
    (hread : StatementScan.read {} ⟨base, 1, 1⟩ cs = (s.read o []).behind out)
    (hss : Derives (.body ss) out) (filename : Option String) :
    Module.parse (String.ofList cs) filename base = .ok ⟨ss, filename, base + cs.length + 1⟩ := by
  rw [StatementScan.read_nil, ← String.toList_ofList (l := cs)] at hread
  have htokens : (Tokens.ofText (String.ofList cs) base).terminate = ⟨out ++ s.finish, none⟩ :=
    hread
  have hbody : readTokens (Tokens.ofText (String.ofList cs) base).terminate = .ok ss := by
    rw [readTokens_eq_ok_iff, htokens]
    refine ⟨rfl, ?_⟩
    have happend := hss.body_append (s.areTerminators_finish.body .noStmts)
    rwa [List.append_nil, List.append_nil] at happend
  rw [Module.parse, hbody, String.length_ofList]
  rfl

/-- **A module that can be printed is read back** from its text. -/
theorem parse_written {marks texts : Bool} {m : Module} (h : PrintableBody marks texts m.body)
    (filename : Option String) (base : Nat) :
    ∃ m', Module.parse (String.ofList m.text.written) filename base = .ok m' ∧
      m'.plain marks = m.plain marks := by
  obtain ⟨o, s, out, ss, -, -, hss, hp, hread⟩ :=
    read_lines (fun s hs => (h s hs).writable) (fun s hs => (h s hs).opens 0 rfl)
      ⟨base, 1, 1⟩ {} [] rfl
  rw [List.append_nil, ← written_text] at hread
  exact ⟨_, parse_of_read hread hss filename, by simp only [plain, Stmt.plainList_eq_map, hp]⟩

/-- **A module whose first statement is written as something else** is read back with that in front,
if the others can be printed. -/
theorem parse_written_cons {marks texts : Bool} {m : Module} {stmt : Stmt} {stmts : List Stmt}
    {P : Stmt → Prop} (hbody : m.body = stmt :: stmts)
    (hwrites : ∀ (last : Option TokenKind) (rest : List Char), last.all TokenKind.precedesBlock →
      Lexer.Apart rest → Writes last (stmt.text 0).written rest fun c =>
        ∃ stmt', Derives (.stmt stmt') c ∧ P stmt')
    (hopens : Opens (stmt.text 0).written) (h : PrintableBody marks texts stmts)
    (filename : Option String) (base : Nat) :
    ∃ (m' : Module) (stmt' : Stmt) (stmts' : List Stmt),
      Module.parse (String.ofList m.text.written) filename base = .ok m' ∧
        m'.body = stmt' :: stmts' ∧ P stmt' ∧
        stmts'.map (Stmt.plain marks) = stmts.map (Stmt.plain marks) := by
  obtain ⟨o₁, s₁, out₁, stmt', -, hlast₁, hP, hderives, hread₁⟩ :=
    read_line hwrites hopens ⟨base, 1, 1⟩ {} (lines 0 stmts) rfl
  obtain ⟨o₂, s₂, out₂, stmts', -, -, hss, hp, hread₂⟩ :=
    read_lines (fun s hs => (h s hs).writable) (fun s hs => (h s hs).opens 0 rfl) o₁ s₁ [] hlast₁
  rw [List.append_nil] at hread₂
  rw [hread₂, Tokens.behind_behind, ← lines_cons, ← hbody, ← written_text] at hread₁
  exact ⟨_, stmt', stmts', parse_of_read hread₁ (hderives _ _ hss) filename, rfl, hP, hp⟩

/-- What is read can be printed. -/
theorem printable_of_parse {text : String} {filename : Option String} {base : Nat} {m : Module}
    (h : Module.parse text filename base = .ok m) : PrintableBody true false m.body := by
  obtain ⟨body, hbody, hm⟩ := Checked.bind_eq_ok.1 h
  obtain rfl := Checked.pure_eq_ok.1 hm
  exact (readTokens_derives hbody).2.canPrint none (Tokens.settled_ofText text base) nofun
    fun _ => rfl

/-- **Printing what was read and reading it again gives the module back**, but for what the printer
does not keep; and the printed text is printed again as it is. -/
theorem parse_text_of_parse {text : String} {filename : Option String} {base : Nat} {m : Module}
    (h : Module.parse text filename base = .ok m) (hm : AreTexts m.nodes)
    (filename' : Option String) (base' : Nat) :
    ∃ printed : String, m.text = printed ∧ ∃ m', Module.parse printed filename' base' = .ok m' ∧
      m'.plain true = m.plain true ∧ m'.text = m.text := by
  have hbody := printable_of_parse h
  obtain ⟨printed, hprinted⟩ := isText_text fun s hs => (hm.printableBody hbody s hs).isText_text 0
  obtain ⟨m', hparse, hp⟩ := parse_written hbody filename' base'
  rw [hprinted, CodeText.written_ofString, String.ofList_toList] at hparse
  exact ⟨printed, hprinted, m', hparse, hp, text_eq_of_plain_eq hp⟩

end Parsing

section

attribute [local instance] CharacterNames.nameless

/-- Statements that end in newlines, a block in an arrow function, a property by its key alone, an
escape, a word of the language behind a dot, and an alternative that is no statement. -/
theorem parse_text_of_parse_lines : ∃ (m m' : Module) (printed : String),
    Module.parse ("import \x7b a as b \x7d from \"m\"\nconst f = x => \x7b\n return " ++
      "\x7b b, c: x.if \x7d\n\x7d\nif (!b) f(\"\\t\")\nelse ;") none 0 = .ok m ∧
    AreTexts m.nodes ∧ m.text = printed ∧ Module.parse printed (some "a.js") 7 = .ok m' ∧
      m'.plain true = m.plain true ∧ m'.text = m.text := by
  have hparses : ((Module.parse
      ("import \x7b a as b \x7d from \"m\"\nconst f = x => \x7b\n return " ++
      "\x7b b, c: x.if \x7d\n\x7d\nif (!b) f(\"\\t\")\nelse ;") none 0).toOption.filter
        fun m => AreTexts m.nodes).isSome := by
    decide +kernel
  obtain ⟨m, hm⟩ := Option.isSome_iff_exists.1 hparses
  obtain ⟨hm, htexts⟩ := Option.filter_eq_some_iff.1 hm
  have hparse := Except.eq_ok_of_toOption hm
  have htexts : AreTexts m.nodes := of_decide_eq_true htexts
  obtain ⟨printed, hprinted, m', hparse', hp, htext⟩ :=
    parse_text_of_parse hparse htexts (some "a.js") 7
  exact ⟨m, m', printed, hparse, htexts, hprinted, hparse', hp, htext⟩

end

end Module

end MessageBinder
