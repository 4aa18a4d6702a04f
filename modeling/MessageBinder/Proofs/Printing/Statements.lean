import MessageBinder.Proofs.Printing.Writing

/-!
# Writing statements

The statements that can be printed are writable too. Where a statement ends, a block and a module
go on with a newline, which waits for the token behind it: so lines are read from any state in which
a statement can start (`MessageBinder.writes_lines`), and what the newline becomes is one terminator
or none, which the grammar skips.
-/

namespace MessageBinder

/-! ### Terminators between statements -/

theorem AreTerminators.untilBrace [CharacterNames] {ss : List Stmt} {c c' : List Token}
    (h : AreTerminators c) (h' : Derives (.untilBrace ss) c') :
    Derives (.untilBrace ss) (c ++ c') := by
  induction c with
  | nil => exact h'
  | cons t c ih =>
    exact .blockNothing (h t (List.mem_cons_self ..))
      (ih fun t ht => h t (List.mem_cons_of_mem _ ht))

theorem AreTerminators.body [CharacterNames] {ss : List Stmt} {c c' : List Token}
    (h : AreTerminators c) (h' : Derives (.body ss) c') : Derives (.body ss) (c ++ c') := by
  induction c with
  | nil => exact h'
  | cons t c ih =>
    exact .nothing (h t (List.mem_cons_self ..)) (ih fun t ht => h t (List.mem_cons_of_mem _ ht))

/-- The statements of a module with a closing brace are those of a block. -/
theorem Derives.untilBrace_of_body [CharacterNames] {ss : List Stmt} {c c' : List Token}
    (h : Derives (.body ss) c) (h' : Derives (.untilBrace []) c') :
    Derives (.untilBrace ss) (c ++ c') := by
  generalize hp : Phrase.body ss = p at h
  induction h generalizing ss with
  | noStmts =>
    cases hp
    exact h'
  | nothing ht _ ih =>
    cases hp
    exact .blockNothing ht (ih rfl)
  | stmts h _ _ ih =>
    cases hp
    rw [List.append_assoc]
    exact .blockStmt h (ih rfl)
  | _ => cases hp

/-! ### Lines -/

section Lines

variable {marks : Bool} {depth : Nat} {ss : List Stmt}

/-- Statements on a line each. -/
def lines (depth : Nat) (ss : List Stmt) : List Char :=
  ss.flatMap fun s => ((indentation depth : CodeText) ++ s.text depth).written ++ ['\n']

theorem lines_cons (depth : Nat) (stmt : Stmt) (ss : List Stmt) :
    lines depth (stmt :: ss)
      = ((indentation depth : CodeText) ++ stmt.text depth).written ++ '\n' :: lines depth ss := by
  rw [lines, List.flatMap_cons, ← lines, List.append_assoc, List.singleton_append]

theorem toList_indentation (depth : Nat) :
    (indentation depth).toList = List.replicate (2 * depth) ' ' := by
  rw [indentation, String.toList_ofList]

/-- The lines of a block, with newlines between them and one behind. -/
theorem written_intercalate_texts (depth : Nat) (stmt : Stmt) (ss : List Stmt) :
    (CodeText.intercalate "\n" (Stmt.texts depth (stmt :: ss)) ++ "\n").written
      = lines depth (stmt :: ss) := by
  induction ss generalizing stmt with
  | nil => simp [Stmt.texts, lines]
  | cons stmt' ss ih =>
    have htail := ih stmt'
    simp only [Stmt.texts, CodeText.written_append] at htail
    rw [lines, List.flatMap_cons, ← lines, ← htail, Stmt.texts, Stmt.texts,
      CodeText.intercalate_cons_cons]
    simp

/-- **A line is read as what its statement is written as**, from any state in which a statement can
start, and with the terminators that waited in front of it. -/
theorem read_line [CharacterNames] {stmt : Stmt} {P : Stmt → Prop}
    (hwrites : ∀ (last : Option TokenKind) (rest : List Char), last.all TokenKind.precedesBlock →
      Lexer.Apart rest → Writes last (stmt.text depth).written rest fun c =>
        ∃ stmt', Derives (.stmt stmt') c ∧ P stmt')
    (hopens : Opens (stmt.text depth).written) (o : Origin) (s : StatementScan) (rest : List Char)
    (hlast : s.last.all TokenKind.precedesBlock) :
    ∃ (o' : Origin) (s' : StatementScan) (out : List Token) (stmt' : Stmt),
      s'.stack = s.stack ∧ s'.last.all TokenKind.precedesBlock ∧ P stmt' ∧
        (∀ ss c, Derives (.body ss) c → Derives (.body (stmt' :: ss)) (out ++ c)) ∧
        s.read o (((indentation depth : CodeText) ++ stmt.text depth).written ++ '\n' :: rest)
          = (s'.read o' rest).behind out := by
  obtain ⟨c, cs, htext, hc⟩ := hopens
  have hline : ((indentation depth : CodeText) ++ stmt.text depth).written ++ '\n' :: rest
      = List.replicate (2 * depth) ' ' ++ ((c :: cs) ++ '\n' :: rest) := by
    rw [CodeText.written_append, CodeText.written_ofString, toList_indentation, htext,
      List.append_assoc]
  -- the indentation, and what waits in front of the statement
  obtain ⟨o₁, hblanks⟩ := s.read_blanks (o := o) (2 * depth) ((c :: cs) ++ '\n' :: rest)
  obtain ⟨out₁, s₁, hout₁, hpasses₁, hread₁⟩ := StatementScan.read_settled hc
    (ne_dot_of_precedesBlock hlast) o₁ (cs ++ '\n' :: rest)
  have hlast₁ : s₁.last.all TokenKind.precedesBlock := by
    rw [hpasses₁.last]
    exact hout₁.precedesBlock hlast
  -- the statement and its newline
  obtain ⟨o₂, s₂, out₂, hpasses₂, ⟨stmt', hstmt', hP⟩, hread₂⟩ :=
    hwrites s₁.last ('\n' :: rest) hlast₁ (Lexer.apart_cons rfl rfl (by decide) _) o₁ s₁ rfl
      hpasses₁.newline
  obtain ⟨o₃, t, hnewline⟩ := s₂.read_newline (o := o₂) rest
  refine ⟨o₃, { s₂ with newline := some t }, out₁ ++ out₂, stmt',
    hpasses₂.stack.trans hpasses₁.stack, ?_, hP, fun ss c hss => ?_, ?_⟩
  · show s₂.last.all TokenKind.precedesBlock
    rw [hpasses₂.last]
    exact hstmt'.endsStatement _
  · rw [List.append_assoc]
    exact hout₁.body (.stmts hstmt' hss)
  · rw [htext, List.cons_append] at hread₂
    rw [hline, hblanks, List.cons_append, hread₁, hread₂, hnewline, Tokens.behind_behind]

/-- **Lines of statements are read as statements**, from any state in which one can start. -/
theorem read_lines [CharacterNames] (h : ∀ s ∈ ss, (Phrase.stmt s).Writable marks)
    (hopens : ∀ s ∈ ss, Opens (s.text depth).written) :
    ∀ (o : Origin) (s : StatementScan) (rest : List Char),
      s.last.all TokenKind.precedesBlock →
      ∃ (o' : Origin) (s' : StatementScan) (out : List Token) (ss' : List Stmt),
        s'.stack = s.stack ∧ s'.last.all TokenKind.precedesBlock ∧ Derives (.body ss') out ∧
          ss'.map (Stmt.plain marks) = ss.map (Stmt.plain marks) ∧
          s.read o (lines depth ss ++ rest) = (s'.read o' rest).behind out := by
  induction ss with
  | nil => exact fun o s rest hlast => ⟨o, s, [], [], rfl, hlast, .noStmts, rfl, rfl⟩
  | cons stmt ss ih =>
    intro o s rest hlast
    obtain ⟨o₁, s₁, out₁, stmt', hstack₁, hlast₁, hp, hbody, hread₁⟩ :=
      read_line (h stmt (List.mem_cons_self ..) depth) (hopens stmt (List.mem_cons_self ..)) o s
        (lines depth ss ++ rest) hlast
    obtain ⟨o₂, s₂, out₂, ss', hstack₂, hlast₂, hss', hps, hread₂⟩ :=
      ih (fun s hs => h s (List.mem_cons_of_mem _ hs))
        (fun s hs => hopens s (List.mem_cons_of_mem _ hs)) o₁ s₁ rest hlast₁
    refine ⟨o₂, s₂, out₁ ++ out₂, stmt' :: ss', hstack₂.trans hstack₁, hlast₂, hbody _ _ hss',
      by rw [List.map_cons, hp, hps, List.map_cons], ?_⟩
    rw [lines_cons, List.append_assoc, List.cons_append, hread₁, hread₂, Tokens.behind_behind]

end Lines

/-! ### Texts of imports and exports -/

theorem toList_alias (a b : String) : (a ++ " as " ++ b).toList
    = a.toList ++ (' ' :: (TokenKind.asWord.spelling.toList ++ ' ' :: b.toList)) := by
  simp [TokenKind.spelling]

theorem ImportSpecifier.text_named (exported : String) (binding : Identifier) (o : Origin) :
    (ImportSpecifier.named exported binding o).text
      = if exported = binding.name then binding.name else exported ++ " as " ++ binding.name := by
  rw [ImportSpecifier.text]
  split
  · assumption
  · rfl

theorem written_importClause_all (id : Identifier) (o : Origin) :
    (importClause [.all id o]).written = TokenKind.star.spelling.toList ++
      ' ' :: (TokenKind.asWord.spelling.toList ++ ' ' :: id.name.toList) := by
  simp [importClause, ImportSpecifier.isNamed, ImportSpecifier.text, commaSeparated,
    TokenKind.spelling]

/-- The names of an import without a default export are printed like a list in braces. -/
theorem importClause_listed {ss : List ImportSpecifier} (h : ∀ s ∈ ss, s.IsListed) (hne : ss ≠ []) :
    importClause ss = inBraces (ss.map fun s => (s.text : CodeText)) := by
  have hnamed : ∀ s ∈ ss, s.isNamed := by
    intro s hs
    have hlisted := h s hs
    cases s <;> first | rfl | exact hlisted.elim
  have hfirst : ss.filter (!·.isNamed) = [] :=
    List.filter_eq_nil_iff.2 fun s hs => by simp [hnamed s hs]
  rw [importClause, hfirst, List.filter_eq_self.2 hnamed]
  simp [hne, commaSeparated]

theorem importClause_single (id : Identifier) (o : Origin) :
    importClause [.default id o] = id.name := by
  simp [importClause, ImportSpecifier.isNamed, ImportSpecifier.text, commaSeparated]

theorem commaSeparated_cons (x : CodeText) {xs : List CodeText} (hne : xs ≠ []) :
    commaSeparated (x :: xs) = x ++ (", " ++ commaSeparated xs) := by
  obtain ⟨y, ys, rfl⟩ := List.exists_cons_of_ne_nil hne
  exact CodeText.intercalate_cons_cons ..

/-- Texts of which the first is not empty are not empty together. -/
theorem isEmpty_commaSeparated_cons {x : CodeText} (hx : x.isEmpty = false) (xs : List CodeText) :
    (commaSeparated (x :: xs)).isEmpty = false := by
  cases xs with
  | nil => rwa [commaSeparated, CodeText.intercalate_singleton]
  | cons y ys =>
    rw [commaSeparated_cons x (by simp)]
    obtain ⟨_ | ⟨code, codes⟩⟩ := x
    · cases hx
    · rfl

theorem importClause_default (id : Identifier) (o : Origin) {ss : List ImportSpecifier}
    (hne : ss ≠ []) :
    importClause (.default id o :: ss) = id.name ++ (", " ++ importClause ss) := by
  have hparts : (ss.filter (!·.isNamed)).map (fun s => (s.text : CodeText)) ++
      (if ((ss.filter (·.isNamed)).map fun s => (s.text : CodeText)).isEmpty then []
        else [inBraces ((ss.filter (·.isNamed)).map fun s => (s.text : CodeText))]) ≠ [] := by
    obtain ⟨s, ss, rfl⟩ := List.exists_cons_of_ne_nil hne
    cases hs : s.isNamed <;> simp [hs]
  rw [importClause, importClause, ← commaSeparated_cons _ hparts]
  rfl

theorem written_importClause_default (id : Identifier) (o : Origin) {ss : List ImportSpecifier}
    (hne : ss ≠ []) : (importClause (.default id o :: ss)).written
      = id.name.toList ++ (TokenKind.comma.spelling.toList ++
        ' ' :: (importClause ss).written) := by
  rw [importClause_default id o hne]
  simp [TokenKind.spelling]

/-- The names of an export are printed like a list in braces. -/
theorem exportText_eq {isLocal : Bool} {ss : List ExportSpecifier} (h : AreExports isLocal ss)
    (source : Option CodeText) : exportText ss source = "export " ++
      inBraces (ss.map fun s => (s.text : CodeText)) ++
        (match source with
        | some s => " from " ++ quotedString s
        | none => "") ++ ";" := by
  have hempty : (commaSeparated (ss.map fun s => (s.text : CodeText))).isEmpty
      = (ss.map fun s => (s.text : CodeText)).isEmpty := by
    cases ss with
    | nil => rfl
    | cons s ss =>
      have hexported : s.exported ≠ "" := by
        intro hnil
        obtain ⟨c, cs, hname, -⟩ := (h s (List.mem_cons_self ..)).1.1
        rw [hnil] at hname
        cases hname
      have hne : (s.text : CodeText).isEmpty = false := by
        rw [ExportSpecifier.text]
        split
        · simpa [CodeText.isEmpty] using hexported
        · simp [CodeText.isEmpty]
      rw [List.map_cons, isEmpty_commaSeparated_cons hne]
      rfl
  cases source <;> simp only [exportText, inBraces, hempty]

/-! ### Imports and exports -/

section Names

variable {last : Option TokenKind} {rest : List Char} {Q : List Token → Prop}

/-- What follows the names of an import or a re-export. -/
theorem writes_source [CharacterNames] (s : CodeText) (hdot : last ≠ some .dot)
    (hQ : ∀ word source fin : Token, word.kind = .fromWord → StringToken s source →
      fin.kind = .terminator → Q [word, source, fin]) :
    Writes last (' ' :: (TokenKind.fromWord.spelling.toList ++
      ' ' :: ((quotedString s).written ++ [';']))) rest Q := by
  refine .blank (.word rfl hdot (Lexer.apart_blank _) fun word hword => .blank ?_)
  refine .token (Lexer.front_quoted s _) rfl nofun fun source hsource htext => ?_
  refine .semicolon fun fin hfin => hQ word source fin hword ⟨hsource, ?_⟩ hfin
  rw [htext]
  exact StringLiteral.value?_quoted s

/-- A name of a list, and the name behind `as` if it is another one. -/
theorem writes_alias {admits : TokenKind → Bool} {a b : String} (ha : IsExportName a)
    (hb : IsName b.toList) (hadmits : admits (.ofWord b)) (hdot : last ≠ some .dot)
    (hrest : Lexer.Apart rest)
    (hQ : ∀ (t second : Token) (c : List Token), AliasTokens admits t second c →
      t.kind = .ofWord a → t.text = a → second.kind = .ofWord b → second.text = b → Q c) :
    Writes last (if a = b then b else a ++ " as " ++ b).toList rest Q := by
  split
  · rename_i heq
    subst heq
    refine writes_name hb hdot hrest fun t ht htext => ?_
    exact hQ t t [t] ⟨ht ▸ ha.2, Or.inl ⟨rfl, rfl⟩⟩ ht htext ht htext
  · rw [toList_alias]
    refine writes_name_append ha.1 hdot (Lexer.apart_blank _) fun t ht htext => .blank ?_
    refine .word rfl (TokenKind.ofWord_ne_dot a) (Lexer.apart_blank _) fun as has => .blank ?_
    refine writes_name hb (by decide) hrest fun second hsecond htext' => ?_
    exact hQ t second _ ⟨ht ▸ ha.2, Or.inr ⟨as, has, hsecond ▸ hadmits, rfl⟩⟩ ht htext hsecond
      htext'

theorem writesItems_imports {ss : List ImportSpecifier} (h : ∀ s ∈ ss, s.IsListed) :
    WritesItems ImportTokens (fun s => (s.text : CodeText)) ImportSpecifier.plain ss
      (some .leftBrace) := by
  intro s hs last' rest' hlast' hrest
  have hdot : last' ≠ some .dot := by rcases hlast' with rfl | rfl <;> exact nofun
  have hs := h s hs
  match s with
  | .named exported binding o =>
    simp only [ImportSpecifier.text_named, CodeText.written_ofString]
    refine writes_alias hs.1 hs.2.1 hs.2.2 hdot hrest fun t second c halias ht htext hsecond
      htext' => ?_
    refine ⟨_, ⟨t, second, halias, ?_, rfl⟩, ?_⟩
    · intro hk
      have hbinding := hs.2.2
      rw [← hsecond, hk] at hbinding
      cases hbinding
    · simp only [ImportSpecifier.plain, Identifier.plain, Token.identifier, htext, htext']
  | .default .. | .all .. => exact hs.elim

theorem writesItems_exports {ss : List ExportSpecifier} {isLocal : Bool}
    (h : AreExports isLocal ss) : WritesItems (ExportTokens isLocal)
      (fun s => (s.text : CodeText)) ExportSpecifier.plain ss (some .leftBrace) := by
  intro s hs last' rest' hlast' hrest
  have hdot : last' ≠ some .dot := by rcases hlast' with rfl | rfl <;> exact nofun
  obtain ⟨hexported, hsource, hlocal⟩ := h s hs
  simp only [ExportSpecifier.text, CodeText.written_ofString]
  refine writes_alias hsource hexported.1 hexported.2 hdot hrest fun t second c halias ht htext
    hsecond htext' => ?_
  refine ⟨⟨t.identifier, second.text, t.origin⟩, ⟨t, second, halias, ?_, rfl⟩, ?_⟩
  · intro hloc hk
    have hbinding := (hlocal hloc).2
    rw [← ht, hk] at hbinding
    cases hbinding
  · simp only [ExportSpecifier.plain, Identifier.plain, Token.identifier, htext, htext']

theorem writes_importRest {ss : List ImportSpecifier} (h : AreImportRest ss) (hne : ss ≠ [])
    {k : TokenKind} (hk : k.precedesBlock = false) (hrest : Lexer.Apart rest) :
    Writes (some k) (importClause ss).written rest fun c =>
      ∃ ss', ImportRest ss' c ∧ ss'.map ImportSpecifier.plain = ss.map ImportSpecifier.plain := by
  obtain ⟨id, o, rfl, hid⟩ | h := h
  · rw [written_importClause_all]
    refine .symbol rfl rfl fun star hstar _ => ?_
    refine .word rfl (by decide) (Lexer.apart_blank _) fun as has => .blank ?_
    refine writes_name hid.1 (by decide) hrest fun t ht htext => ?_
    refine ⟨_, .all hstar has (ht.trans hid.2), ?_⟩
    simp only [List.map_cons, List.map_nil, ImportSpecifier.plain, Identifier.plain,
      Token.identifier, htext]
  · rw [importClause_listed h hne]
    have hbrace : (some k).all TokenKind.precedesBlock = false := hk
    refine ((writesItems_imports h).inBraces true hbrace).mono ?_
    rintro c ⟨t, c', ss', ht, hss', hp, rfl⟩
    exact ⟨ss', .list ht hss', hp⟩

/-- The names of an import end with a name or a brace. -/
theorem ImportClause.lastKind_ne_dot {ss : List ImportSpecifier} {c : List Token}
    (h : ImportClause ss c) (previous : Option TokenKind) :
    lastKind previous c ≠ some .dot := by
  have hrest : ∀ {ss : List ImportSpecifier} {c : List Token} (previous : Option TokenKind),
      ImportRest ss c → lastKind previous c ≠ some .dot := by
    intro ss c previous h
    cases h with
    | all _ _ ht => simp [ht]
    | list _ h =>
      rw [lastKind_cons, h.lastKind_eq]
      exact nofun
  cases h with
  | default ht => simp [ht]
  | both _ _ h =>
    rw [lastKind_cons, lastKind_cons]
    exact hrest _ h
  | rest h => exact hrest previous h

theorem writes_importClause {ss : List ImportSpecifier} (h : AreImports ss) (hne : ss ≠ [])
    (hrest : Lexer.Apart rest) :
    Writes (some .importWord) (importClause ss).written rest fun c =>
      ∃ ss', ImportClause ss' c ∧ ss'.map ImportSpecifier.plain = ss.map ImportSpecifier.plain := by
  obtain h | ⟨id, o, more, rfl, hid, hmore⟩ := h
  · refine (writes_importRest h hne (k := .importWord) rfl hrest).mono ?_
    rintro c ⟨ss', hss', hp⟩
    exact ⟨ss', .rest hss', hp⟩
  by_cases hnil : more = []
  · subst hnil
    rw [importClause_single, CodeText.written_ofString]
    refine writes_name hid.1 (by decide) hrest fun t ht htext => ?_
    refine ⟨_, .default (ht.trans hid.2), ?_⟩
    simp only [List.map_cons, List.map_nil, ImportSpecifier.plain, Identifier.plain,
      Token.identifier, htext]
  · rw [written_importClause_default id o hnil]
    refine writes_name_append hid.1 (by decide) (Lexer.apart_cons rfl rfl (by decide) _)
      fun t ht htext => ?_
    refine .symbol rfl rfl fun comma hcomma _ => ?_
    refine (writes_importRest hmore hnil (k := .comma) rfl hrest).mono ?_
    rintro c ⟨ss', hss', hp⟩
    refine ⟨_, .both (ht.trans hid.2) hcomma hss', ?_⟩
    simp only [List.map_cons, ImportSpecifier.plain, Identifier.plain, Token.identifier, htext, hp]

end Names

/-! ### Texts of declarations and statements -/

section Texts

variable (ss : List Stmt) (stmt : Stmt) (id : Identifier) (ids : List Identifier) (e : Expr)
  (b : Block) (d : Declaration) (source : CodeText) (o : Origin) (depth : Nat)

theorem Block.written_text_nil :
    (Block.text depth ⟨[], o⟩).written = '\x7b' :: ([] ++ ['\x7d']) := by
  rw [Block.text]
  rfl

theorem Block.written_text_cons : (Block.text depth ⟨stmt :: ss, o⟩).written
    = '\x7b' :: ('\n' :: (lines (depth + 1) (stmt :: ss) ++ (indentation depth).toList) ++
      ['\x7d']) := by
  rw [← written_intercalate_texts]
  simp [Block.text]

theorem Declarator.written_text_init : (Declarator.text depth ⟨id, some e, o⟩).written
    = id.name.toList ++ (' ' :: (TokenKind.assign.spelling.toList ++
      ' ' :: (e.text depth).written)) := by
  simp [Declarator.text, TokenKind.spelling]

theorem Declaration.written_text_variables (kind : VariableKind) (ds : List Declarator) :
    (Declaration.text depth (.variables kind ds o)).written
      = kind.word.toList ++ (' ' :: ((commaSeparated (ds.map (Declarator.text depth))).written ++
        [';'])) := by
  simp [Declaration.text, Declarator.texts_eq_map]

theorem Declaration.written_text_function : (Declaration.text depth (.function id ids b o)).written
    = TokenKind.functionWord.spelling.toList ++ (' ' :: (id.name.toList ++
      ((TokenKind.leftParen.spelling.toList ++
        ((paramsText ids).written ++ TokenKind.rightParen.spelling.toList)) ++
      (' ' :: (b.text depth).written)))) := by
  simp [Declaration.text, TokenKind.spelling]

theorem Stmt.written_text_importBare : (Stmt.text depth (.importDecl [] source o)).written
    = TokenKind.importWord.spelling.toList ++ (' ' :: ((quotedString source).written ++
      [';'])) := by
  simp [Stmt.text, importText, TokenKind.spelling]

theorem Stmt.written_text_import {ss : List ImportSpecifier} (hne : ss ≠ []) :
    (Stmt.text depth (.importDecl ss source o)).written
      = TokenKind.importWord.spelling.toList ++ (' ' :: ((importClause ss).written ++
        (' ' :: (TokenKind.fromWord.spelling.toList ++
          ' ' :: ((quotedString source).written ++ [';']))))) := by
  simp [Stmt.text, importText, hne, TokenKind.spelling]

theorem Stmt.written_text_export {ss : List ExportSpecifier} {source : Option CodeText}
    (hss : AreExports source.isNone ss) : (Stmt.text depth (.exportNamed ss source o)).written
      = TokenKind.exportWord.spelling.toList ++ (' ' ::
        ((inBraces (ss.map fun s => (s.text : CodeText))).written ++
          match source with
          | some s => ' ' :: (TokenKind.fromWord.spelling.toList ++
            ' ' :: ((quotedString s).written ++ [';']))
          | none => [';'])) := by
  cases source <;> simp [Stmt.text, exportText_eq hss, TokenKind.spelling]

theorem Stmt.written_text_exportAll : (Stmt.text depth (.exportAll source o)).written
    = TokenKind.exportWord.spelling.toList ++ (' ' :: (TokenKind.star.spelling.toList ++
      (' ' :: (TokenKind.fromWord.spelling.toList ++
        ' ' :: ((quotedString source).written ++ [';']))))) := by
  simp [Stmt.text, TokenKind.spelling]

theorem Stmt.written_text_exportDecl : (Stmt.text depth (.exportDecl d o)).written
    = TokenKind.exportWord.spelling.toList ++ (' ' :: (d.text depth).written) := by
  simp [Stmt.text, TokenKind.spelling]

theorem Stmt.written_text_exportDefault : (Stmt.text depth (.exportDefault e o)).written
    = TokenKind.exportWord.spelling.toList ++ (' ' :: (TokenKind.defaultWord.spelling.toList ++
      (' ' :: ((e.text depth).written ++ [';'])))) := by
  simp [Stmt.text, TokenKind.spelling]

theorem Stmt.written_text_returnNothing : (Stmt.text depth (.returnValue none o)).written
    = TokenKind.returnWord.spelling.toList ++ [';'] := by
  simp [Stmt.text, TokenKind.spelling]

theorem Stmt.written_text_returnValue : (Stmt.text depth (.returnValue (some e) o)).written
    = TokenKind.returnWord.spelling.toList ++ (' ' :: ((e.text depth).written ++ [';'])) := by
  simp [Stmt.text, TokenKind.spelling]

theorem Stmt.written_text_expr :
    (Stmt.text depth (.expr e o)).written = (e.text depth).written ++ [';'] := by
  simp [Stmt.text]

/-- A statement that starts like one has no blanks to lose as a branch. -/
theorem Stmt.branch_text {s : Stmt} (h : Opens (s.text depth).written) :
    s.branch (s.text depth) = s.text depth := by
  have htrim : trimLeft (s.text depth) = s.text depth := by
    obtain ⟨c, cs, hcs, hc⟩ := h
    generalize s.text depth = text at hcs ⊢
    obtain ⟨codes⟩ := text
    cases codes with
    | nil => rfl
    | cons code codes =>
      have hne : code ≠ .char ' ' := by
        rintro rfl
        obtain rfl : ' ' = c := (List.cons.inj hcs).1
        exact absurd hc (by decide)
      rw [trimLeft, List.dropWhile_cons_of_neg (by simpa using hne)]
  cases s with
  | block b => rfl
  | _ => exact htrim

theorem Stmt.written_text_ifThen {s : Stmt} (h : Opens (s.text depth).written) :
    (Stmt.text depth (.ifThen e s none o)).written
      = TokenKind.ifWord.spelling.toList ++ (' ' ::
        ((TokenKind.leftParen.spelling.toList ++
          ((e.text depth).written ++ TokenKind.rightParen.spelling.toList)) ++
          ' ' :: (s.text depth).written)) := by
  simp [Stmt.text, Stmt.branch_text depth h, TokenKind.spelling]

theorem Stmt.written_text_ifElse {s a : Stmt} (h : Opens (s.text depth).written)
    (h' : Opens (a.text depth).written) : (Stmt.text depth (.ifThen e s (some a) o)).written
      = TokenKind.ifWord.spelling.toList ++ (' ' ::
        ((TokenKind.leftParen.spelling.toList ++
          ((e.text depth).written ++ TokenKind.rightParen.spelling.toList)) ++
          ' ' :: ((s.text depth).written ++ (' ' :: (TokenKind.elseWord.spelling.toList ++
            ' ' :: (a.text depth).written))))) := by
  simp [Stmt.text, Stmt.branch_text depth h, Stmt.branch_text depth h', TokenKind.spelling]

end Texts

/-! ### Declarations and statements -/

namespace Phrase.Writable

variable [CharacterNames]

section Statements

variable {marks : Bool} {o : Origin}

theorem block {ss : List Stmt} (h : ∀ s ∈ ss, (Phrase.stmt s).Writable marks)
    (hopens : ∀ s ∈ ss, ∀ depth, Opens (s.text depth).written) :
    (Phrase.block ⟨ss, o⟩).Writable marks := by
  intro depth last rest hlast hrest
  obtain ⟨cs, htext, hcs⟩ : ∃ cs, (Block.text depth ⟨ss, o⟩).written = '\x7b' :: (cs ++ ['\x7d']) ∧
      ∀ (o : Origin) (s : StatementScan), s.last = some .blockBrace →
        ∃ (o' : Origin) (s' : StatementScan) (out : List Token), s'.stack = s.stack ∧
          (∃ ss', Derives (.body ss') out ∧
            ss'.map (Stmt.plain marks) = ss.map (Stmt.plain marks)) ∧
          s.read o (cs ++ ('\x7d' :: rest)) = (s'.read o' ('\x7d' :: rest)).behind out := by
    cases ss with
    | nil =>
      exact ⟨[], Block.written_text_nil o depth, fun o s _ =>
        ⟨o, s, [], rfl, ⟨[], .noStmts, rfl⟩, rfl⟩⟩
    | cons stmt ss =>
      refine ⟨_, Block.written_text_cons ss stmt o depth, fun o s hlast => ?_⟩
      obtain ⟨o₁, t, hnewline⟩ := s.read_newline (o := o)
        (lines (depth + 1) (stmt :: ss) ++ (indentation depth).toList ++ '\x7d' :: rest)
      obtain ⟨o₂, s₂, out, ss', hstack, -, hss', hps, hread⟩ :=
        read_lines h (fun s hs => hopens s hs (depth + 1)) o₁ { s with newline := some t }
          ((indentation depth).toList ++ '\x7d' :: rest) (by rw [hlast]; rfl)
      obtain ⟨o₃, hblanks⟩ := s₂.read_blanks (o := o₂) (2 * depth) ('\x7d' :: rest)
      refine ⟨o₃, s₂, out, hstack, ⟨ss', hss', hps⟩, ?_⟩
      rw [List.cons_append, hnewline, List.append_assoc, hread, toList_indentation, hblanks]
  simp only [Phrase.text, htext]
  refine .block hlast hcs ?_
  rintro t t' c c' ht ht' ⟨ss', hss', hps⟩ hc'
  refine ⟨_, .block ht (hss'.untilBrace_of_body (hc'.untilBrace (.brace ht'))), ?_⟩
  simp only [Block.plain, Stmt.plainList_eq_map, hps]

theorem declarator {id : Identifier} (hid : IsBindingName id.name) :
    (Phrase.declarator ⟨id, none, o⟩).Writable marks := by
  intro depth last rest hlast hrest
  simp only [Phrase.text, Declarator.text, CodeText.written_ofString]
  refine writes_name hid.1 hlast hrest fun t ht htext => ⟨_, .declarator (ht ▸ hid.2), ?_⟩
  simp only [Declarator.plain, Identifier.plain, Token.identifier, htext]

theorem declaratorInit {id : Identifier} {e : Expr} (hid : IsBindingName id.name)
    (h : (Phrase.expr e).Writable marks) :
    (Phrase.declarator ⟨id, some e, o⟩).Writable marks := by
  intro depth last rest hlast hrest
  simp only [Phrase.text, Declarator.written_text_init]
  refine writes_name_append hid.1 hlast (Lexer.apart_blank _) fun t ht htext => ?_
  refine .blank (.symbol rfl rfl fun assign hassign _ => ?_)
  refine (h depth (some .assign) rest (standsBehind_of_leads rfl e) hrest).mono ?_
  rintro c ⟨e', he', hpe⟩
  refine ⟨_, .declaratorInit (ht ▸ hid.2) hassign he', ?_⟩
  simp only [Declarator.plain, Identifier.plain, Token.identifier, htext, hpe]

theorem variableDecl {kind : VariableKind} {ds : List Declarator} (hne : ds ≠ [])
    (h : ∀ d ∈ ds, (Phrase.declarator d).Writable marks) :
    (Phrase.declaration (.variables kind ds o)).Writable marks := by
  intro depth last rest hlast hrest
  obtain ⟨k, hk, hword, hleads, hspelling⟩ : ∃ k : TokenKind, k.variableKind? = some kind ∧
      k.isWord ∧ k.leads ∧ kind.word = k.spelling := by
    cases kind
    · exact ⟨.constWord, rfl, rfl, rfl, rfl⟩
    · exact ⟨.letWord, rfl, rfl, rfl, rfl⟩
    · exact ⟨.varWord, rfl, rfl, rfl, rfl⟩
  have hitems : WritesItems (fun d => Derives (.declarator d)) (Declarator.text depth)
      (Declarator.plain marks) ds (some k) := by
    intro d hd last' rest' hlast hrest
    have hdot : last' ≠ some .dot := by
      rcases hlast with rfl | rfl
      · exact (standsBehind_of_leads hleads default).1
      · exact nofun
    exact h d hd depth last' rest' hdot hrest
  simp only [Phrase.text, Declaration.written_text_variables, hspelling]
  refine .word hword hlast (Lexer.apart_blank _) fun t ht => .blank ?_
  refine (hitems.separated hne (Lexer.apart_cons rfl rfl (by decide) _)).append ?_
  rintro c ⟨ds', hds', hpds⟩
  refine .semicolon fun fin hfin => ⟨_, .variableDecl (ht ▸ hk) hfin hds'.declarators, ?_⟩
  simp only [Declaration.plain, Declarator.plainList_eq_map, hpds]

theorem functionDecl {f : Identifier} {ids : List Identifier} {b : Block}
    (hf : IsBindingName f.name) (hids : AreBindingNames ids) (h : (Phrase.block b).Writable marks) :
    (Phrase.declaration (.function f ids b o)).Writable marks := by
  intro depth last rest hlast hrest
  simp only [Phrase.text, Declaration.written_text_function]
  refine .word rfl hlast (Lexer.apart_blank _) fun t ht => .blank ?_
  refine writes_name_append hf.1 (by decide) (Lexer.apart_cons rfl rfl (by decide) _)
    fun t' ht' htext' => ?_
  refine (writes_params hids).append ?_
  rintro _ ⟨paren, c, ids', hparen, hids', hpids, rfl⟩
  have hstands : (Phrase.block b).StandsBehind (lastKind (some (.ofWord f.name)) (paren :: c)) := by
    rw [lastKind_cons, hids'.lastKind_eq]
    rfl
  refine .blank ((h depth _ rest hstands hrest).mono ?_)
  rintro c' ⟨b', hb', hpb⟩
  refine ⟨_, .functionDecl ht (ht' ▸ hf.2) hparen hids' hb', ?_⟩
  simp only [Declaration.plain, Identifier.plain, Token.identifier, htext', hpb, hpids]

theorem importDecl {ss : List ImportSpecifier} {source : CodeText} (hss : AreImports ss) :
    (Phrase.stmt (.importDecl ss source o)).Writable marks := by
  intro depth last rest hlast hrest
  have hdot := ne_dot_of_precedesBlock hlast
  by_cases hnil : ss = []
  · subst hnil
    simp only [Phrase.text, Stmt.written_text_importBare]
    refine .word rfl hdot (Lexer.apart_blank _) fun t ht => .blank ?_
    refine .token (Lexer.front_quoted source _) rfl (by simp) fun t' ht' htext => ?_
    refine .semicolon fun fin hfin => ⟨_, .importBare ht ⟨ht', ?_⟩ hfin, rfl⟩
    rw [htext]
    exact StringLiteral.value?_quoted source
  · simp only [Phrase.text, Stmt.written_text_import _ _ _ hnil]
    refine .word rfl hdot (Lexer.apart_blank _) fun t ht => .blank ?_
    refine (writes_importClause hss hnil (Lexer.apart_blank _)).append ?_
    rintro c ⟨ss', hss', hp⟩
    refine writes_source source (hss'.lastKind_ne_dot _) fun word t' fin hword ht' hfin => ?_
    exact ⟨_, .importNames ht hss' hword ht' hfin, by simp only [Stmt.plain, hp]⟩

theorem exportNamed {ss : List ExportSpecifier} {source : Option CodeText}
    (hss : AreExports source.isNone ss) :
    (Phrase.stmt (.exportNamed ss source o)).Writable marks := by
  intro depth last rest hlast hrest
  have hdot := ne_dot_of_precedesBlock hlast
  simp only [Phrase.text, Stmt.written_text_export _ _ hss]
  refine .word rfl hdot (Lexer.apart_blank _) fun t ht => .blank ?_
  refine ((writesItems_exports hss).inBraces true rfl).append ?_
  rintro _ ⟨brace, c, ss', hbrace, hss', hp, rfl⟩
  cases source with
  | none =>
    refine .semicolon fun fin hfin => ?_
    exact ⟨_, .exportLocal ht hbrace hss' hfin, by simp only [Stmt.plain, hp]⟩
  | some s =>
    refine writes_source s ?_ fun word t' fin hword ht' hfin => ?_
    · rw [lastKind_cons, hss'.lastKind_eq]
      decide
    · exact ⟨_, .exportFrom ht hbrace hss' hword ht' hfin, by simp only [Stmt.plain, hp]⟩

theorem exportAll {source : CodeText} : (Phrase.stmt (.exportAll source o)).Writable marks := by
  intro depth last rest hlast hrest
  simp only [Phrase.text, Stmt.written_text_exportAll]
  refine .word rfl (ne_dot_of_precedesBlock hlast) (Lexer.apart_blank _) fun t ht => .blank ?_
  refine .closed rfl rfl fun star hstar => ?_
  refine writes_source source (by decide) fun word t' fin hword ht' hfin => ?_
  exact ⟨_, .exportAll ht hstar hword ht' hfin, rfl⟩

theorem exportDecl {d : Declaration} (h : (Phrase.declaration d).Writable marks) :
    (Phrase.stmt (.exportDecl d o)).Writable marks := by
  intro depth last rest hlast hrest
  simp only [Phrase.text, Stmt.written_text_exportDecl]
  refine .word rfl (ne_dot_of_precedesBlock hlast) (Lexer.apart_blank _) fun t ht => .blank ?_
  have hstands : some TokenKind.exportWord ≠ some .dot := by decide
  refine (h depth (some .exportWord) rest hstands hrest).mono ?_
  rintro c ⟨d', hd', hpd⟩
  exact ⟨_, .exportDecl ht hd', by simp only [Stmt.plain, hpd]⟩

theorem exportDefault {e : Expr} (h : (Phrase.expr e).Writable marks) :
    (Phrase.stmt (.exportDefault e o)).Writable marks := by
  intro depth last rest hlast hrest
  simp only [Phrase.text, Stmt.written_text_exportDefault]
  refine .word rfl (ne_dot_of_precedesBlock hlast) (Lexer.apart_blank _) fun t ht => .blank ?_
  refine .word rfl (by decide) (Lexer.apart_blank _) fun default hdefault => .blank ?_
  refine (h depth (some .defaultWord) _ (standsBehind_of_leads rfl e)
    (Lexer.apart_cons rfl rfl (by decide) _)).append ?_
  rintro c ⟨e', he', hpe⟩
  refine .semicolon fun fin hfin => ?_
  exact ⟨_, .exportDefault ht hdefault hfin he', by simp only [Stmt.plain, hpe]⟩

/-! ### Other statements -/

theorem declaration {d : Declaration} (h : (Phrase.declaration d).Writable marks) :
    (Phrase.stmt (.declaration d)).Writable marks := by
  refine h.lift (fun depth => by simp only [Phrase.text, Stmt.text])
    (fun _ hlast => ne_dot_of_precedesBlock hlast) ?_
  rintro c ⟨d', hd', hpd⟩
  exact ⟨_, .declaration hd', by simp only [Stmt.plain, hpd]⟩

theorem blockStatement {b : Block} (h : (Phrase.block b).Writable marks) :
    (Phrase.stmt (.block b)).Writable marks := by
  refine h.lift (fun depth => by simp only [Phrase.text, Stmt.text]) (fun _ h => h) ?_
  rintro c ⟨b', hb', hpb⟩
  exact ⟨_, .blockStatement hb', by simp only [Stmt.plain, hpb]⟩

theorem returnNothing : (Phrase.stmt (.returnValue none o)).Writable marks := by
  intro depth last rest hlast hrest
  simp only [Phrase.text, Stmt.written_text_returnNothing]
  refine .word rfl (ne_dot_of_precedesBlock hlast) (Lexer.apart_cons rfl rfl (by decide) _)
    fun t ht => ?_
  exact .semicolon fun fin hfin => ⟨_, .returnNothing ht hfin, rfl⟩

theorem returnValue {e : Expr} (h : (Phrase.expr e).Writable marks) :
    (Phrase.stmt (.returnValue (some e) o)).Writable marks := by
  intro depth last rest hlast hrest
  simp only [Phrase.text, Stmt.written_text_returnValue]
  refine .word rfl (ne_dot_of_precedesBlock hlast) (Lexer.apart_blank _) fun t ht => .blank ?_
  refine (h depth (some .returnWord) _ (standsBehind_of_leads rfl e)
    (Lexer.apart_cons rfl rfl (by decide) _)).append ?_
  rintro c ⟨e', he', hpe⟩
  refine .semicolon fun fin hfin => ?_
  exact ⟨_, .returnValue ht hfin he', by simp only [Stmt.plain, hpe]⟩

theorem exprStatement {e : Expr} (hbrace : e.opensBrace = false)
    (h : (Phrase.expr e).Writable marks) : (Phrase.stmt (.expr e o)).Writable marks := by
  intro depth last rest hlast hrest
  simp only [Phrase.text, Stmt.written_text_expr]
  refine (h depth last _ ⟨ne_dot_of_precedesBlock hlast, by simp [hbrace]⟩
    (Lexer.apart_cons rfl rfl (by decide) _)).append ?_
  rintro c ⟨e', he', hpe⟩
  exact .semicolon fun fin hfin => ⟨_, .exprStatement hfin he', by simp only [Stmt.plain, hpe]⟩

/-! ### Choices -/

/-- The condition of a choice. -/
theorem writes_condition {e : Expr} {depth : Nat} {last : Option TokenKind} {cs rest : List Char}
    {Q : List Token → Prop} (h : (Phrase.expr e).Writable marks) (hdot : last ≠ some .dot)
    (hQ : ∀ (t paren close : Token) (c : List Token) (e' : Expr), t.kind = .ifWord →
      paren.kind = .leftParen → close.kind = .rightParen → Derives (.expr e') c →
      e'.plain marks = e.plain marks →
      Writes (some .rightParen) cs rest fun c' => Q (t :: paren :: (c ++ close :: c'))) :
    Writes last (TokenKind.ifWord.spelling.toList ++ (' ' ::
      ((TokenKind.leftParen.spelling.toList ++
        ((e.text depth).written ++ TokenKind.rightParen.spelling.toList)) ++ ' ' :: cs)))
      rest Q := by
  refine .word rfl hdot (Lexer.apart_blank _) fun t ht => .blank ?_
  refine .append (P := fun c => ∃ paren close c' e', paren.kind = .leftParen ∧
    close.kind = .rightParen ∧ Derives (.expr e') c' ∧ e'.plain marks = e.plain marks ∧
    c = paren :: (c' ++ [close])) ?_ ?_
  · refine .enclosed rfl nofun (h depth _ _ (standsBehind_of_leads rfl e)
      (Lexer.apart_closing (k := .leftParen) rfl _)) ?_
    rintro paren close c hparen hclose ⟨e', he', hpe⟩
    exact ⟨paren, close, c, e', hparen, hclose, he', hpe, rfl⟩
  · rintro _ ⟨paren, close, c, e', hparen, hclose, he', hpe, rfl⟩
    rw [lastKind_cons, lastKind_append, lastKind_cons, hclose]
    refine .blank ((hQ t paren close c e' ht hparen hclose he' hpe).mono fun c' hc' => ?_)
    simpa using hc'

theorem ifThen {e : Expr} {s : Stmt} (h : (Phrase.expr e).Writable marks)
    (hs : (Phrase.stmt s).Writable marks) (hopens : ∀ depth, Opens (s.text depth).written) :
    (Phrase.stmt (.ifThen e s none o)).Writable marks := by
  intro depth last rest hlast hrest
  simp only [Phrase.text, Stmt.written_text_ifThen _ _ _ (hopens depth)]
  refine writes_condition h (ne_dot_of_precedesBlock hlast)
    fun t paren close c e' ht hparen hclose he' hpe => ?_
  refine (hs depth (some .rightParen) rest rfl hrest).mono ?_
  rintro c' ⟨s', hs', hps⟩
  exact ⟨_, .ifThen ht hparen hclose he' (.branchStmt hs'), by simp only [Stmt.plain, hpe, hps]⟩

theorem ifElse {e : Expr} {s a : Stmt} (hopen : s.isOpen = false)
    (h : (Phrase.expr e).Writable marks) (hs : (Phrase.stmt s).Writable marks)
    (ha : (Phrase.stmt a).Writable marks) (hopens : ∀ depth, Opens (s.text depth).written)
    (hopens' : ∀ depth, Opens (a.text depth).written) :
    (Phrase.stmt (.ifThen e s (some a) o)).Writable marks := by
  intro depth last rest hlast hrest
  simp only [Phrase.text, Stmt.written_text_ifElse _ _ _ (hopens depth) (hopens' depth)]
  refine writes_condition h (ne_dot_of_precedesBlock hlast)
    fun t paren close c e' ht hparen hclose he' hpe => ?_
  refine (hs depth (some .rightParen) _ rfl (Lexer.apart_blank _)).append ?_
  rintro cs ⟨s', hs', hps⟩
  have hdot := ne_dot_of_precedesBlock (hs'.endsStatement (some .rightParen))
  refine .blank (.word rfl hdot (Lexer.apart_blank _) fun other hother => .blank ?_)
  refine (ha depth (some .elseWord) rest rfl hrest).mono ?_
  rintro ca ⟨a', ha', hpa⟩
  refine ⟨_, .ifElse ht hparen hclose hother (by rwa [Stmt.isOpen_of_plain_eq hps]) he'
    (.branchStmt hs') (.branchStmt ha'), ?_⟩
  simp only [Stmt.plain, hpe, hps, hpa]

end Statements

end Phrase.Writable

/-! ### Modules -/

/-- **What can be printed is written by its text.** -/
theorem Printable.writable [CharacterNames] {marks texts : Bool} {p : Phrase}
    (h : Printable marks texts p) :
    p.Writable marks := by
  induction h with
  | exprChoice _ ih =>
    exact ih.lift (fun _ => rfl) (fun _ h => h) fun c ⟨e', h, hp⟩ => ⟨e', .exprChoice h, hp⟩
  | arrow hids hbrace _ ih => exact .arrow hids hbrace ih
  | arrowBlock hids _ ih => exact .arrowBlock hids ih
  | assign hk htarget _ _ ih ih' => exact .assign hk htarget ih ih'
  | choiceOperation _ ih =>
    exact ih.lift (fun _ => rfl) (fun _ h => h) fun c ⟨e', h, hp⟩ => ⟨e', .choiceOperation h, hp⟩
  | conditional _ _ _ iht ihc iha => exact .conditional iht ihc iha
  | operationOperand _ ih =>
    exact ih.lift (fun _ => rfl) (fun _ h => h) fun c ⟨e', h, hp⟩ => ⟨e', .operationOperand h, hp⟩
  | operationTighter _ ih =>
    exact ih.lift (fun _ => rfl) (fun _ h => h) fun c ⟨e', h, hp⟩ => ⟨e', .operationTighter h, hp⟩
  | binary hk _ _ ih ih' => exact .binary hk ih ih'
  | operandSuffixed _ ih =>
    exact ih.lift (fun _ => rfl) (fun _ h => h) fun c ⟨e', h, hp⟩ => ⟨e', .operandSuffixed h, hp⟩
  | unary hk h ih => exact .unary hk (fun depth => h.opens depth rfl) ih
  | suffixedPrimary _ ih =>
    exact ih.lift (fun _ => rfl) (fun _ h => h) fun c ⟨e', h, hp⟩ => ⟨e', .suffixedPrimary h, hp⟩
  | member hname _ ih => exact .member hname ih
  | index _ _ ih ih' => exact .index ih ih'
  | call _ _ ih ih' => exact .call ih ih'
  | string _ => exact .string
  | number h hv => exact .number h hv
  | truth => exact .truth
  | null => exact .null
  | name h => exact .name h
  | array _ ih => exact .array ih
  | object _ ih => exact .object ih
  | group _ ih => exact .group ih
  | property hkey _ hmark _ ih => exact .property hkey hmark ih
  | block h ih => exact .block ih fun s hs depth => (h s hs).opens depth rfl
  | declarator hid => exact .declarator hid
  | declaratorInit hid _ ih => exact .declaratorInit hid ih
  | variableDecl hne _ ih => exact .variableDecl hne ih
  | functionDecl hf hids _ ih => exact .functionDecl hf hids ih
  | importDecl hss _ => exact .importDecl hss
  | exportNamed hss _ => exact .exportNamed hss
  | exportAll _ => exact .exportAll
  | exportDecl _ ih => exact .exportDecl ih
  | exportDefault _ ih => exact .exportDefault ih
  | declaration _ ih => exact .declaration ih
  | blockStatement _ ih => exact .blockStatement ih
  | returnNothing => exact .returnNothing
  | returnValue _ ih => exact .returnValue ih
  | ifThen _ hs ih ihs => exact .ifThen ih ihs fun depth => hs.opens depth rfl
  | ifElse hopen _ hs ha ih ihs iha =>
    exact .ifElse hopen ih ihs iha (fun depth => hs.opens depth rfl)
      fun depth => ha.opens depth rfl
  | exprStatement hbrace _ ih => exact .exprStatement hbrace ih

end MessageBinder
