import MessageBinder.Proofs.Grammar.Expressions

/-!
# What follows the grammar is read

The other half of `MessageBinder.readTokens_derives`: tokens that derive the statements of a module
are read as these statements (`MessageBinder.readTokens_eq_ok_iff`). So the bound on the descent is
never reached for the text of a module, and no look-ahead goes wrong.
-/

namespace MessageBinder

open Parse

/-! ### Properties, blocks and declarations -/

namespace Phrase.Read

variable {c c' : List Token} {t : Token} {e : Expr}

theorem quotedProperty [CharacterNames] {key : CodeText} {colon : Token} (ht : StringToken key t)
    (hcolon : colon.kind = .colon) (h : (Phrase.expr e).Read c) :
    (Phrase.property ⟨key, e, false, true, t.origin⟩).Read (t :: colon :: c) := by
  rintro n _ hn ⟨t', rest, rfl, ht'⟩
  simp only [List.length_cons] at hn
  obtain ⟨n, rfl⟩ : ∃ m, n = m + 1 := ⟨n - 1, by omega⟩
  obtain ⟨r, hr, hread⟩ := h n (t' :: rest) (by omega)
    (Free.cons (by rcases ht' with ht' | ht' <;> rw [ht'] <;> rfl))
  refine ⟨_, rfl, ?_⟩
  rw [List.cons_append, List.cons_append, readProperty, peek_bind, if_pos (by simp [ht.1]),
    bind_of_eq_ok (expect_cons ht.1), bind_of_eq_ok (expect_cons hcolon), bind_of_eq_ok hread]
  simp only [hr.expr, Token.stringValue, ht.2]
  rfl

theorem property [CharacterNames] {colon : Token} (ht : t.kind.isBindingName)
    (hcolon : colon.kind = .colon) (h : (Phrase.expr e).Read c) :
    (Phrase.property ⟨t.text, e, false, false, t.origin⟩).Read (t :: colon :: c) := by
  rintro n _ hn ⟨t', rest, rfl, ht'⟩
  simp only [List.length_cons] at hn
  obtain ⟨n, rfl⟩ : ∃ m, n = m + 1 := ⟨n - 1, by omega⟩
  obtain ⟨r, hr, hread⟩ := h n (t' :: rest) (by omega)
    (Free.cons (by rcases ht' with ht' | ht' <;> rw [ht'] <;> rfl))
  have hne : t.kind ≠ .string := fun hk => by
    rw [hk] at ht
    cases ht
  refine ⟨_, rfl, ?_⟩
  rw [List.cons_append, List.cons_append, readProperty, peek_bind, if_neg (by simpa using hne),
    bind_of_eq_ok (accept_cons ht), bind_of_eq_ok (skip?_cons hcolon), if_pos rfl,
    bind_of_eq_ok hread]
  simp only [hr.expr]
  rfl

theorem shortProperty [CharacterNames] (ht : t.kind.isBindingName) :
    (Phrase.property ⟨t.text, .name t.identifier, true, false, t.origin⟩).Read [t] := by
  rintro n _ hn ⟨t', rest, rfl, ht'⟩
  rw [List.length_singleton] at hn
  obtain ⟨n, rfl⟩ : ∃ m, n = m + 1 := ⟨n - 1, by omega⟩
  have hne : t.kind ≠ .string := fun hk => by
    rw [hk] at ht
    cases ht
  refine ⟨_, rfl, ?_⟩
  rw [List.singleton_append, readProperty, peek_bind, if_neg (by simpa using hne),
    bind_of_eq_ok (accept_cons ht), bind_of_eq_ok (skip?_of_ne ?_), if_neg Bool.false_ne_true]
  · rfl
  · rintro _ ⟨⟩
    rcases ht' with ht' | ht' <;> rw [ht'] <;> decide

theorem block [CharacterNames] {ss : List Stmt} (ht : t.kind = .blockBrace)
    (h : (Phrase.untilBrace ss).Read c) :
    (Phrase.block ⟨ss, t.origin⟩).Read (t :: c) := by
  intro n rest hn _
  rw [List.length_cons] at hn
  obtain ⟨n, rfl⟩ : ∃ m, n = m + 1 := ⟨n - 1, by omega⟩
  obtain ⟨rs, hrs, hread⟩ := h n rest (by omega) trivial
  refine ⟨_, rfl, ?_⟩
  rw [List.cons_append, readBlock, bind_of_eq_ok (expect_cons ht), bind_of_eq_ok hread]
  simp only [hrs]
  rfl

theorem brace [CharacterNames] (ht : t.kind = .rightBrace) : (Phrase.untilBrace []).Read [t] := by
  intro n rest hn _
  rw [List.length_singleton] at hn
  obtain ⟨n, rfl⟩ : ∃ m, n = m + 1 := ⟨n - 1, by omega⟩
  refine ⟨[], List.mapM_nil, ?_⟩
  rw [List.singleton_append, readUntilBrace, bind_of_eq_ok (skip?_cons ht), if_pos rfl]
  rfl

/-- A terminator where a statement could stand is read as nothing. -/
theorem readStmt_nothing [CharacterNames] {n : Nat} {rest : List Token}
    (ht : t.kind = .terminator) :
    readStmt (n + 1) (t :: rest) = .ok (.nothing t.origin, rest) := by
  rw [readStmt, peek_bind, List.head?_cons, Option.map_some, ht]
  show (expect .terminator >>= _) _ = _
  rw [bind_of_eq_ok (expect_cons ht)]
  rfl

theorem body_nothing {o : Origin} {rs : List ReadStmt} :
    ReadStmt.body (.nothing o :: rs) = ReadStmt.body rs := rfl

theorem body_stmt {s : Stmt} {rs : List ReadStmt} {ss : List Stmt}
    (h : ReadStmt.body rs = .ok ss) : ReadStmt.body (.stmt (.ok s) :: rs) = .ok (s :: ss) :=
  Checked.mapM_cons_eq_ok.2 ⟨s, ss, rfl, h, rfl⟩

theorem blockNothing [CharacterNames] {ss : List Stmt} (ht : t.kind = .terminator)
    (h : (Phrase.untilBrace ss).Read c) (hstart : (Phrase.untilBrace ss).Starts c) :
    (Phrase.untilBrace ss).Read (t :: c) := by
  intro n rest hn _
  have hpos := length_pos_of_starts hstart
  rw [List.length_cons] at hn
  obtain ⟨n, rfl⟩ : ∃ m, n = m + 2 := ⟨n - 2, by omega⟩
  obtain ⟨rs, hrs, hread⟩ := h (n + 1) rest (by omega) trivial
  refine ⟨.nothing t.origin :: rs, body_nothing.trans hrs, ?_⟩
  rw [List.cons_append, readUntilBrace, bind_of_eq_ok (skip?_of_ne (by simp [ht])),
    if_neg Bool.false_ne_true, bind_of_eq_ok (readStmt_nothing ht), bind_of_eq_ok hread]
  rfl

theorem blockStmt [CharacterNames] {s : Stmt} {ss : List Stmt} (h : (Phrase.stmt s).Read c)
    (hstart : (Phrase.stmt s).Starts c) (h' : (Phrase.untilBrace ss).Read c')
    (hstart' : (Phrase.untilBrace ss).Starts c') :
    (Phrase.untilBrace (s :: ss)).Read (c ++ c') := by
  intro n rest hn _
  have hpos := length_pos_of_starts hstart
  have hpos' := length_pos_of_starts hstart'
  rw [List.length_append] at hn
  obtain ⟨n, rfl⟩ : ∃ m, n = m + 1 := ⟨n - 1, by omega⟩
  have hends : s.Ends (c' ++ rest) := by
    obtain ⟨t, c', rfl, ht⟩ := hstart'
    rintro - _ ⟨⟩ hk
    rw [hk] at ht
    cases ht
  obtain ⟨r, rfl, hread⟩ := h n (c' ++ rest) (by omega) hends
  obtain ⟨rs, hrs, hreads⟩ := h' n rest (by omega) trivial
  refine ⟨_, body_stmt hrs, ?_⟩
  obtain ⟨t, c, rfl, ht⟩ := hstart
  have hne : t.kind ≠ .rightBrace := fun hk => by
    rw [hk] at ht
    cases ht
  rw [List.append_assoc, readUntilBrace, bind_of_eq_ok (skip?_of_ne (by simpa using hne)),
    if_neg Bool.false_ne_true, bind_of_eq_ok hread, bind_of_eq_ok hreads]
  rfl

theorem declarator [CharacterNames] (ht : t.kind.isBindingName) :
    (Phrase.declarator ⟨t.identifier, none, t.origin⟩).Read [t] := by
  intro n rest hn hfree
  rw [List.length_singleton] at hn
  obtain ⟨n, rfl⟩ : ∃ m, n = m + 1 := ⟨n - 1, by omega⟩
  have hassign : ∀ t ∈ rest.head?, t.kind ≠ .assign := fun t ht hk => by
    have := hfree t ht
    rw [hk] at this
    cases this
  refine ⟨_, rfl, ?_⟩
  rw [List.singleton_append, readDeclarator, bind_of_eq_ok (accept_cons ht),
    bind_of_eq_ok (skip?_of_ne hassign), if_neg Bool.false_ne_true]
  rfl

theorem declaratorInit [CharacterNames] {assign : Token} (ht : t.kind.isBindingName)
    (hassign : assign.kind = .assign) (h : (Phrase.expr e).Read c) :
    (Phrase.declarator ⟨t.identifier, some e, t.origin⟩).Read (t :: assign :: c) := by
  intro n rest hn hfree
  simp only [List.length_cons] at hn
  obtain ⟨n, rfl⟩ : ∃ m, n = m + 1 := ⟨n - 1, by omega⟩
  obtain ⟨r, hr, hread⟩ := h n rest (by omega) hfree
  refine ⟨_, rfl, ?_⟩
  rw [List.cons_append, List.cons_append, readDeclarator, bind_of_eq_ok (accept_cons ht),
    bind_of_eq_ok (skip?_cons hassign), if_pos rfl, bind_of_eq_ok hread]
  simp only [hr.expr]
  rfl

theorem lastDeclarator [CharacterNames] {d : Declarator} (h : (Phrase.declarator d).Read c)
    (hstart : (Phrase.declarator d).Starts c) : (Phrase.declarators [d]).Read c := by
  rintro n _ hn ⟨t, rest, rfl, ht⟩
  have hpos := length_pos_of_starts hstart
  obtain ⟨n, rfl⟩ : ∃ m, n = m + 1 := ⟨n - 1, by omega⟩
  obtain ⟨r, rfl, hread⟩ := h n (t :: rest) (by omega) (Free.cons (by rw [ht]; rfl))
  refine ⟨[.ok d], Checked.mapM_cons_eq_ok.2 ⟨d, [], rfl, List.mapM_nil, rfl⟩, ?_⟩
  rw [readDeclarators, bind_of_eq_ok hread, bind_of_eq_ok (skip?_of_ne (by simp [ht])),
    if_neg Bool.false_ne_true]
  rfl

theorem moreDeclarators [CharacterNames] {d : Declarator} {ds : List Declarator} {comma : Token}
    (hcomma : comma.kind = .comma) (h : (Phrase.declarator d).Read c)
    (h' : (Phrase.declarators ds).Read c') :
    (Phrase.declarators (d :: ds)).Read (c ++ comma :: c') := by
  rintro n _ hn ⟨t, rest, rfl, ht⟩
  simp only [List.length_append, List.length_cons] at hn
  obtain ⟨n, rfl⟩ : ∃ m, n = m + 1 := ⟨n - 1, by omega⟩
  obtain ⟨r, rfl, hread⟩ := h n (comma :: (c' ++ t :: rest)) (by omega)
    (Free.cons (by rw [hcomma]; rfl))
  obtain ⟨rs, hrs, hreads⟩ := h' n (t :: rest) (by omega) ⟨t, rest, rfl, ht⟩
  refine ⟨.ok d :: rs, Checked.mapM_cons_eq_ok.2 ⟨d, ds, rfl, hrs, rfl⟩, ?_⟩
  rw [List.append_assoc, List.cons_append, readDeclarators, bind_of_eq_ok hread,
    bind_of_eq_ok (skip?_cons hcomma), if_pos rfl, bind_of_eq_ok hreads]
  rfl

theorem variableDecl [CharacterNames] {kind : VariableKind} {ds : List Declarator} {fin : Token}
    (ht : t.kind.variableKind? = some kind) (hfin : fin.kind = .terminator)
    (h : (Phrase.declarators ds).Read c) :
    (Phrase.declaration (.variables kind ds t.origin)).Read (t :: (c ++ [fin])) := by
  intro n rest hn _
  simp only [List.length_cons, List.length_append, List.length_nil] at hn
  obtain ⟨n, rfl⟩ : ∃ m, n = m + 1 := ⟨n - 1, by omega⟩
  obtain ⟨rs, hrs, hread⟩ := h n (fin :: rest) (by omega) ⟨fin, rest, rfl, hfin⟩
  refine ⟨_, rfl, ?_⟩
  rw [List.cons_append, List.append_assoc, List.singleton_append, readVariables,
    bind_of_eq_ok (accept_cons (by rw [ht]; rfl)), bind_of_eq_ok hread,
    bind_of_eq_ok (expect_cons hfin)]
  simp only [hrs, ht]
  rfl

theorem functionDecl [CharacterNames] {ids : List Identifier} {b : Block} {f paren : Token}
    (ht : t.kind = .functionWord) (hf : f.kind.isBindingName) (hparen : paren.kind = .leftParen)
    (hids : Listed BindingToken .rightParen false ids c') (h : (Phrase.block b).Read c) :
    (Phrase.declaration (.function f.identifier ids b t.origin)).Read
      (t :: f :: paren :: (c' ++ c)) := by
  intro n rest hn _
  simp only [List.length_cons, List.length_append] at hn
  obtain ⟨n, rfl⟩ : ∃ m, n = m + 1 := ⟨n - 1, by omega⟩
  have hitem : ∀ (id : Identifier) (c : List Token) (t : Token) (rest : List Token),
      BindingToken id c → c.length ≤ c'.length → (t.kind = .comma ∨ t.kind = .rightParen) →
      ∃ t', (.ok t'.identifier : Checked Identifier) = .ok id ∧
        accept TokenKind.isBindingName (c ++ t :: rest) = .ok (t', t :: rest) := by
    rintro id _ t rest ⟨t', ht', rfl, rfl⟩ _ _
    exact ⟨t', rfl, accept_cons ht'⟩
  obtain ⟨ts, hts, hreads⟩ := items_of_listed (by decide) hitem
    (fun id c ⟨t, ht, _, hc⟩ => ⟨t, [], hc, fun hk => by rw [hk] at ht; cases ht⟩) hids
    (m := n) (by omega) (Nat.le_refl _) (c ++ rest)
  obtain rfl : ts.map Token.identifier = ids := Except.ok.inj ((List.mapM_pure ..).symm.trans hts)
  obtain ⟨_, rfl, hread⟩ := h n rest (by omega) trivial
  refine ⟨_, rfl, ?_⟩
  rw [List.cons_append, List.cons_append, List.cons_append, List.append_assoc, readFunction,
    bind_of_eq_ok (expect_cons ht), bind_of_eq_ok (accept_cons hf),
    bind_of_eq_ok (expect_cons hparen), bind_of_eq_ok hreads, bind_of_eq_ok hread]
  rfl

end Phrase.Read

/-! ### Imports and exports -/

section Lists

variable {c : List Token} {t : Token} {rest : List Token}

theorem readAlias_of_tokens {admits : TokenKind → Bool} {second : Token}
    (h : AliasTokens admits t second c) (hrest : ∀ t ∈ rest.head?, t.kind ≠ .asWord) :
    ∃ alias?, alias?.getD t = second ∧ readAlias admits (c ++ rest) = .ok ((t, alias?), rest) := by
  obtain ⟨ht, ⟨rfl, rfl⟩ | ⟨as, has, hsecond, rfl⟩⟩ := h
  · refine ⟨none, rfl, ?_⟩
    rw [List.singleton_append, readAlias, bind_of_eq_ok (accept_cons ht),
      bind_of_eq_ok (skip?_of_ne hrest), if_neg Bool.false_ne_true]
    rfl
  · refine ⟨some second, rfl, ?_⟩
    rw [List.cons_append, List.cons_append, List.singleton_append, readAlias,
      bind_of_eq_ok (accept_cons ht), bind_of_eq_ok (skip?_cons has), if_pos rfl,
      bind_of_eq_ok (accept_cons hsecond)]
    rfl

/-- The name of a list starts with no brace. -/
theorem AliasTokens.first {admits : TokenKind → Bool} {second : Token}
    (h : AliasTokens admits t second c) : ∃ t c', c = t :: c' ∧ t.kind ≠ .rightBrace := by
  have hne : t.kind ≠ .rightBrace := fun hk => by
    have ht := h.1
    rw [hk] at ht
    cases ht
  obtain ⟨-, ⟨-, rfl⟩ | ⟨as, -, -, rfl⟩⟩ := h
  · exact ⟨t, [], rfl, hne⟩
  · exact ⟨t, _, rfl, hne⟩

theorem ImportTokens.first {s : ImportSpecifier} (h : ImportTokens s c) :
    ∃ t c', c = t :: c' ∧ t.kind ≠ .rightBrace := by
  obtain ⟨_, _, halias, -⟩ := h
  exact halias.first

theorem ExportTokens.first {isLocal : Bool} {s : ExportSpecifier} (h : ExportTokens isLocal s c) :
    ∃ t c', c = t :: c' ∧ t.kind ≠ .rightBrace := by
  obtain ⟨_, _, halias, -⟩ := h
  exact halias.first

theorem ne_asWord_of_separates (ht : t.kind = .comma ∨ t.kind = .rightBrace) :
    ∀ t' ∈ (t :: rest).head?, t'.kind ≠ .asWord := by
  rintro _ ⟨⟩
  rcases ht with ht | ht <;> rw [ht] <;> nofun

theorem readImportSpecifier_of_tokens {s : ImportSpecifier} (h : ImportTokens s c)
    (ht : t.kind = .comma ∨ t.kind = .rightBrace) :
    readImportSpecifier (c ++ t :: rest) = .ok (.ok s, t :: rest) := by
  obtain ⟨first, second, halias, hne, rfl⟩ := h
  obtain ⟨alias?, rfl, hread⟩ := readAlias_of_tokens halias (ne_asWord_of_separates ht)
  rw [readImportSpecifier, bind_of_eq_ok hread]
  simp only [if_neg hne]
  rfl

theorem readExportSpecifier_of_tokens {isLocal : Bool} {s : ExportSpecifier}
    (h : ExportTokens isLocal s c) (ht : t.kind = .comma ∨ t.kind = .rightBrace) :
    ∃ first, (isLocal → first.kind ≠ .defaultWord) ∧
      readExportSpecifier (c ++ t :: rest) = .ok ((first, s), t :: rest) := by
  obtain ⟨first, second, halias, hne, rfl⟩ := h
  obtain ⟨alias?, rfl, hread⟩ := readAlias_of_tokens halias (ne_asWord_of_separates ht)
  refine ⟨first, hne, ?_⟩
  rw [readExportSpecifier, bind_of_eq_ok hread]
  rfl

theorem readImportRest_of_tokens {ss : List ImportSpecifier} (h : ImportRest ss c) {n : Nat}
    (rest : List Token) (hn : c.length ≤ n) :
    ∃ a : Checked (List ImportSpecifier), a = .ok ss ∧
      readImportRest n (c ++ rest) = .ok (a, rest) := by
  cases h with
  | @all star as t hstar has ht =>
    refine ⟨_, rfl, ?_⟩
    rw [readImportRest, List.cons_append, bind_of_eq_ok (skip?_cons hstar), if_pos rfl,
      List.cons_append, bind_of_eq_ok (expect_cons has), List.singleton_append,
      bind_of_eq_ok (expect_cons ht)]
    rfl
  | @list _ c t ht h =>
    rw [List.length_cons] at hn
    obtain ⟨as, has, hreads⟩ := items_of_listed (g := id) (N := c.length) (by decide)
      (fun s c t rest hs _ ht => ⟨_, rfl, readImportSpecifier_of_tokens hs ht⟩)
      (fun _ _ hs => hs.first) h (m := n) (by omega) (Nat.le_refl _) rest
    refine ⟨_, has, ?_⟩
    rw [List.cons_append, readImportRest, bind_of_eq_ok (skip?_of_ne (by simp [ht])),
      if_neg Bool.false_ne_true, bind_of_eq_ok (expect_cons ht), bind_of_eq_ok hreads]
    rfl

theorem readImportClause_of_tokens {ss : List ImportSpecifier} (h : ImportClause ss c) {n : Nat}
    (rest : List Token) (hn : c.length ≤ n) (hrest : ∀ t ∈ rest.head?, t.kind ≠ .comma) :
    ∃ a : Checked (List ImportSpecifier), a = .ok ss ∧
      readImportClause n (c ++ rest) = .ok (a, rest) := by
  cases h with
  | @default t ht =>
    refine ⟨_, rfl, ?_⟩
    rw [List.singleton_append, readImportClause, peek_bind, if_pos (by simpa using ht),
      bind_of_eq_ok (expect_cons ht), bind_of_eq_ok (skip?_of_ne hrest), if_neg Bool.false_ne_true]
    rfl
  | @both t comma ss c ht hcomma h =>
    simp only [List.length_cons] at hn
    obtain ⟨_, rfl, hread⟩ := readImportRest_of_tokens h (n := n) rest (by omega)
    refine ⟨_, rfl, ?_⟩
    rw [List.cons_append, List.cons_append, readImportClause, peek_bind,
      if_pos (by simpa using ht), bind_of_eq_ok (expect_cons ht),
      bind_of_eq_ok (skip?_cons hcomma), if_pos rfl, bind_of_eq_ok hread]
    rfl
  | rest h =>
    obtain ⟨_, rfl, hread⟩ := readImportRest_of_tokens h rest hn
    refine ⟨_, rfl, ?_⟩
    rw [readImportClause, peek_bind, if_neg, hread]
    cases h with
    | all hstar _ _ => simp [hstar]
    | list ht _ => simp [ht]

theorem readSource_of_tokens {source fin : Token} (hsource : source.kind = .string)
    (hfin : fin.kind = .terminator) : readSource (source :: fin :: rest) = .ok (source, rest) := by
  rw [readSource, bind_of_eq_ok (expect_cons hsource), bind_of_eq_ok (expect_cons hfin)]
  rfl

theorem StringToken.value [CharacterNames] {s : CodeText} (h : StringToken s t) :
    t.stringValue = .ok s := by
  rw [Token.stringValue, h.2]

end Lists

/-! ### Statements -/

namespace Phrase.Read

variable {c : List Token} {t fin : Token} {e : Expr}

theorem readStmt_import [CharacterNames] {n : Nat} {s : Checked Stmt} {ts rest : List Token}
    (ht : t.kind = .importWord) (h : readImport t.origin n ts = .ok (s, rest)) :
    readStmt (n + 1) (t :: ts) = .ok (.stmt s, rest) := by
  rw [readStmt, peek_bind, List.head?_cons, Option.map_some, ht]
  show (expect .importWord >>= _) _ = _
  rw [bind_of_eq_ok (expect_cons ht), bind_of_eq_ok h]
  rfl

theorem importBare [CharacterNames] {s : CodeText} {source : Token} (ht : t.kind = .importWord)
    (hsource : StringToken s source) (hfin : fin.kind = .terminator) :
    (Phrase.stmt (.importDecl [] s t.origin)).Read [t, source, fin] := by
  intro n rest hn _
  simp only [List.length_cons, List.length_nil] at hn
  obtain ⟨n, rfl⟩ : ∃ m, n = m + 1 := ⟨n - 1, by omega⟩
  refine ⟨_, rfl, readStmt_import ht ?_⟩
  rw [readImport, peek_bind, if_pos (by simpa using hsource.1)]
  show (readSource >>= _) (source :: fin :: rest) = _
  rw [bind_of_eq_ok (readSource_of_tokens hsource.1 hfin), hsource.value]
  rfl

theorem importNames [CharacterNames] {ss : List ImportSpecifier} {s : CodeText}
    {source from' : Token} (ht : t.kind = .importWord) (hclause : ImportClause ss c)
    (hfrom : from'.kind = .fromWord) (hsource : StringToken s source)
    (hfin : fin.kind = .terminator) :
    (Phrase.stmt (.importDecl ss s t.origin)).Read (t :: (c ++ [from', source, fin])) := by
  intro n rest hn _
  simp only [List.length_cons, List.length_append, List.length_nil] at hn
  obtain ⟨n, rfl⟩ : ∃ m, n = m + 1 := ⟨n - 1, by omega⟩
  obtain ⟨_, rfl, hread⟩ := readImportClause_of_tokens hclause (n := n)
    (from' :: source :: fin :: rest) (by omega) (by simp [hfrom])
  refine ⟨_, rfl, readStmt_import ht ?_⟩
  have hfirst : ((c ++ from' :: source :: fin :: rest).head?.map (·.kind)) ≠ some .string := by
    cases hclause with
    | default ht => simp [ht]
    | both ht _ _ => simp [ht]
    | rest h =>
      cases h with
      | all hstar _ _ => simp [hstar]
      | list ht _ => simp [ht]
  show readImport t.origin n ((c ++ [from', source, fin]) ++ rest) = _
  rw [List.append_assoc, readImport, peek_bind]
  simp only [List.cons_append, List.nil_append]
  rw [if_neg hfirst, bind_of_eq_ok hread, bind_of_eq_ok (expect_cons hfrom),
    bind_of_eq_ok (readSource_of_tokens hsource.1 hfin), hsource.value]
  rfl

theorem readStmt_export [CharacterNames] {n : Nat} {s : Checked Stmt} {ts rest : List Token}
    (ht : t.kind = .exportWord) (h : readExport n t.origin ts = .ok (s, rest)) :
    readStmt (n + 1) (t :: ts) = .ok (.stmt s, rest) := by
  rw [readStmt, peek_bind, List.head?_cons, Option.map_some, ht]
  show (expect .exportWord >>= _) _ = _
  rw [bind_of_eq_ok (expect_cons ht), bind_of_eq_ok h]
  rfl

theorem readExport_list [CharacterNames] {n : Nat} {o : Origin} {s : Checked Stmt}
    {ts rest : List Token} (ht : t.kind = .leftBrace) (h : readExportList o n ts = .ok (s, rest)) :
    readExport (n + 1) o (t :: ts) = .ok (s, rest) := by
  rw [readExport, peek_bind, List.head?_cons, Option.map_some, ht]
  show (expect .leftBrace >>= _) _ = _
  rw [bind_of_eq_ok (expect_cons ht), h]

theorem exportLocal [CharacterNames] {ss : List ExportSpecifier} {brace : Token}
    (ht : t.kind = .exportWord) (hbrace : brace.kind = .leftBrace)
    (hss : Listed (ExportTokens true) .rightBrace true ss c) (hfin : fin.kind = .terminator) :
    (Phrase.stmt (.exportNamed ss none t.origin)).Read (t :: brace :: (c ++ [fin])) := by
  intro n rest hn _
  simp only [List.length_cons, List.length_append, List.length_nil] at hn
  obtain ⟨n, rfl⟩ : ∃ m, n = m + 2 := ⟨n - 2, by omega⟩
  obtain ⟨ps, hps, hreads⟩ := items_of_listed (g := localExport) (N := c.length) (by decide)
    (fun s c' t rest hs _ ht => by
      obtain ⟨first, hne, hread⟩ := readExportSpecifier_of_tokens hs ht
      exact ⟨(first, s), if_neg (hne rfl), hread⟩)
    (fun _ _ hs => hs.first) hss (m := n) (by omega) (Nat.le_refl _)
    (fin :: rest)
  refine ⟨_, rfl, readStmt_export ht (readExport_list hbrace ?_)⟩
  show readExportList t.origin n ((c ++ [fin]) ++ rest) = _
  rw [List.append_assoc, List.singleton_append, readExportList, bind_of_eq_ok hreads,
    bind_of_eq_ok (skip?_of_ne (by simp [hfin])), if_neg Bool.false_ne_true,
    bind_of_eq_ok (expect_cons hfin), hps]
  rfl

theorem exportFrom [CharacterNames] {ss : List ExportSpecifier} {s : CodeText}
    {brace from' source : Token} (ht : t.kind = .exportWord) (hbrace : brace.kind = .leftBrace)
    (hss : Listed (ExportTokens false) .rightBrace true ss c) (hfrom : from'.kind = .fromWord)
    (hsource : StringToken s source) (hfin : fin.kind = .terminator) :
    (Phrase.stmt (.exportNamed ss (some s) t.origin)).Read
      (t :: brace :: (c ++ [from', source, fin])) := by
  intro n rest hn _
  simp only [List.length_cons, List.length_append, List.length_nil] at hn
  obtain ⟨n, rfl⟩ : ∃ m, n = m + 2 := ⟨n - 2, by omega⟩
  obtain ⟨ps, hps, hreads⟩ := items_of_listed
    (g := fun p : Token × ExportSpecifier => (.ok p.2 : Checked ExportSpecifier)) (N := c.length)
    (by decide)
    (fun s c' t rest hs _ ht => by
      obtain ⟨first, -, hread⟩ := readExportSpecifier_of_tokens hs ht
      exact ⟨(first, s), rfl, hread⟩)
    (fun _ _ hs => hs.first) hss (m := n) (by omega) (Nat.le_refl _)
    (from' :: source :: fin :: rest)
  obtain rfl : ps.map (·.2) = ss := Except.ok.inj ((List.mapM_pure ..).symm.trans hps)
  refine ⟨_, rfl, readStmt_export ht (readExport_list hbrace ?_)⟩
  show readExportList t.origin n ((c ++ [from', source, fin]) ++ rest) = _
  rw [List.append_assoc]
  simp only [List.cons_append, List.nil_append]
  rw [readExportList, bind_of_eq_ok hreads, bind_of_eq_ok (skip?_cons hfrom), if_pos rfl,
    bind_of_eq_ok (readSource_of_tokens hsource.1 hfin), hsource.value]
  rfl

theorem exportAll [CharacterNames] {s : CodeText} {star from' source : Token}
    (ht : t.kind = .exportWord) (hstar : star.kind = .star) (hfrom : from'.kind = .fromWord)
    (hsource : StringToken s source) (hfin : fin.kind = .terminator) :
    (Phrase.stmt (.exportAll s t.origin)).Read [t, star, from', source, fin] := by
  intro n rest hn _
  simp only [List.length_cons, List.length_nil] at hn
  obtain ⟨n, rfl⟩ : ∃ m, n = m + 2 := ⟨n - 2, by omega⟩
  refine ⟨_, rfl, readStmt_export ht ?_⟩
  show readExport (n + 1) t.origin (star :: from' :: source :: fin :: rest) = _
  rw [readExport, peek_bind, List.head?_cons, Option.map_some, hstar]
  show (expect .star >>= _) _ = _
  rw [bind_of_eq_ok (expect_cons hstar), readExportAll, bind_of_eq_ok (expect_cons hfrom),
    bind_of_eq_ok (readSource_of_tokens hsource.1 hfin), hsource.value]
  rfl

theorem exportDefault [CharacterNames] {default : Token} (ht : t.kind = .exportWord)
    (hdefault : default.kind = .defaultWord) (hfin : fin.kind = .terminator)
    (h : (Phrase.expr e).Read c) :
    (Phrase.stmt (.exportDefault e t.origin)).Read (t :: default :: (c ++ [fin])) := by
  intro n rest hn _
  simp only [List.length_cons, List.length_append, List.length_nil] at hn
  obtain ⟨n, rfl⟩ : ∃ m, n = m + 2 := ⟨n - 2, by omega⟩
  obtain ⟨r, hr, hread⟩ := h n (fin :: rest) (by omega) (Free.cons (by rw [hfin]; rfl))
  refine ⟨_, rfl, readStmt_export ht ?_⟩
  show readExport (n + 1) t.origin (default :: ((c ++ [fin]) ++ rest)) = _
  rw [List.append_assoc, List.singleton_append, readExport, peek_bind, List.head?_cons,
    Option.map_some, hdefault]
  show (expect .defaultWord >>= _) _ = _
  rw [bind_of_eq_ok (expect_cons hdefault), bind_of_eq_ok hread, bind_of_eq_ok (expect_cons hfin),
    hr.expr]
  rfl

theorem exportDecl [CharacterNames] {d : Declaration} (ht : t.kind = .exportWord)
    (h : (Phrase.declaration d).Read c) (hstart : (Phrase.declaration d).Starts c) :
    (Phrase.stmt (.exportDecl d t.origin)).Read (t :: c) := by
  intro n rest hn _
  rw [List.length_cons] at hn
  obtain ⟨n, rfl⟩ : ∃ m, n = m + 2 := ⟨n - 2, by omega⟩
  refine ⟨_, rfl, readStmt_export ht ?_⟩
  cases d with
  | «variables» k ds o =>
    obtain ⟨_, rfl, hread⟩ := h n rest (by omega) trivial
    obtain ⟨t', c, rfl, ht'⟩ := hstart
    replace ht' : t'.kind.variableKind?.isSome := ht'
    rw [List.cons_append] at hread
    have hdecl : (do
        let d ← readVariables n
        return return .exportDecl (← d) t.origin : Parse (Checked Stmt)) (t' :: (c ++ rest))
          = .ok (.ok (.exportDecl (.variables k ds o) t.origin), rest) := by
      rw [bind_of_eq_ok hread]
      rfl
    show readExport (n + 1) t.origin (t' :: (c ++ rest)) = _
    rw [readExport, peek_bind, List.head?_cons, Option.map_some]
    cases hk : t'.kind <;> rw [hk] at ht' <;> first | exact hdecl | cases ht'
  | function f ids b o =>
    obtain ⟨_, rfl, hread⟩ := h n rest (by omega) trivial
    obtain ⟨t', c, rfl, ht'⟩ := hstart
    rw [List.cons_append] at hread
    show readExport (n + 1) t.origin (t' :: (c ++ rest)) = _
    rw [readExport, peek_bind, List.head?_cons, Option.map_some, of_decide_eq_true ht']
    show (readFunction n >>= _) _ = _
    rw [bind_of_eq_ok hread]
    rfl

theorem declaration [CharacterNames] {d : Declaration} (h : (Phrase.declaration d).Read c)
    (hstart : (Phrase.declaration d).Starts c) : (Phrase.stmt (.declaration d)).Read c := by
  intro n rest hn _
  have hpos : 0 < c.length := by
    cases d <;> exact length_pos_of_starts hstart
  obtain ⟨n, rfl⟩ : ∃ m, n = m + 1 := ⟨n - 1, by omega⟩
  refine ⟨_, rfl, ?_⟩
  cases d with
  | «variables» k ds o =>
    obtain ⟨_, rfl, hread⟩ := h n rest (by omega) trivial
    obtain ⟨t', c, rfl, ht'⟩ := hstart
    replace ht' : t'.kind.variableKind?.isSome := ht'
    rw [List.cons_append] at hread
    have hdecl : (do
        let d ← readVariables n
        return ReadStmt.stmt (d.map .declaration) : Parse ReadStmt) (t' :: (c ++ rest))
          = .ok (.stmt (.ok (.declaration (.variables k ds o))), rest) := by
      rw [bind_of_eq_ok hread]
      rfl
    rw [List.cons_append, readStmt, peek_bind, List.head?_cons, Option.map_some]
    cases hk : t'.kind <;> rw [hk] at ht' <;> first | exact hdecl | cases ht'
  | function f ids b o =>
    obtain ⟨_, rfl, hread⟩ := h n rest (by omega) trivial
    obtain ⟨t', c, rfl, ht'⟩ := hstart
    rw [List.cons_append] at hread
    rw [List.cons_append, readStmt, peek_bind, List.head?_cons, Option.map_some,
      of_decide_eq_true ht']
    show (readFunction n >>= _) _ = _
    rw [bind_of_eq_ok hread]
    rfl

theorem blockStatement [CharacterNames] {b : Block} (h : (Phrase.block b).Read c)
    (hstart : (Phrase.block b).Starts c) : (Phrase.stmt (.block b)).Read c := by
  intro n rest hn _
  have hpos := length_pos_of_starts hstart
  obtain ⟨n, rfl⟩ : ∃ m, n = m + 1 := ⟨n - 1, by omega⟩
  obtain ⟨_, rfl, hread⟩ := h n rest (by omega) trivial
  obtain ⟨t, c, rfl, ht⟩ := hstart
  rw [List.cons_append] at hread
  refine ⟨_, rfl, ?_⟩
  rw [List.cons_append, readStmt, peek_bind, List.head?_cons, Option.map_some,
    of_decide_eq_true ht]
  show (readBlock n >>= _) _ = _
  rw [bind_of_eq_ok hread]
  rfl

theorem returnNothing [CharacterNames] (ht : t.kind = .returnWord) (hfin : fin.kind = .terminator) :
    (Phrase.stmt (.returnValue none t.origin)).Read [t, fin] := by
  intro n rest hn _
  simp only [List.length_cons, List.length_nil] at hn
  obtain ⟨n, rfl⟩ : ∃ m, n = m + 1 := ⟨n - 1, by omega⟩
  refine ⟨_, rfl, ?_⟩
  rw [List.cons_append, List.singleton_append, readStmt, peek_bind, List.head?_cons,
    Option.map_some, ht]
  show (expect .returnWord >>= _) _ = _
  rw [bind_of_eq_ok (expect_cons ht), bind_of_eq_ok (skip?_cons hfin), if_pos rfl]
  rfl

theorem returnValue [CharacterNames] (ht : t.kind = .returnWord) (hfin : fin.kind = .terminator)
    (h : (Phrase.expr e).Read c) (hstart : (Phrase.expr e).Starts c) :
    (Phrase.stmt (.returnValue (some e) t.origin)).Read (t :: (c ++ [fin])) := by
  intro n rest hn _
  simp only [List.length_cons, List.length_append, List.length_nil] at hn
  obtain ⟨n, rfl⟩ : ∃ m, n = m + 1 := ⟨n - 1, by omega⟩
  obtain ⟨r, hr, hread⟩ := h n (fin :: rest) (by omega) (Free.cons (by rw [hfin]; rfl))
  obtain ⟨t', c, rfl, ht'⟩ := hstart
  have hne : t'.kind ≠ .terminator := fun hk => by
    rw [hk] at ht'
    cases ht'
  refine ⟨_, rfl, ?_⟩
  rw [List.cons_append, List.append_assoc, List.singleton_append, readStmt, peek_bind,
    List.head?_cons, Option.map_some, ht]
  show (expect .returnWord >>= _) _ = _
  rw [bind_of_eq_ok (expect_cons ht), bind_of_eq_ok (skip?_of_ne (by simpa using hne)),
    if_neg Bool.false_ne_true, bind_of_eq_ok hread, bind_of_eq_ok (expect_cons hfin), hr.expr]
  rfl

/-- A choice is read up to its alternative. -/
theorem readStmt_choice [CharacterNames] {n : Nat} {s : Stmt} {cs rest rest' : List Token}
    {paren close : Token} {a : Option ReadStmt} (ht : t.kind = .ifWord)
    (hparen : paren.kind = .leftParen) (hclose : close.kind = .rightParen)
    (h : (Phrase.expr e).Read c) (hn : 16 * c.length ≤ n + 5) (hs : (Phrase.branch s).Read cs)
    (hns : 16 * cs.length ≤ n) (hends : s.Ends rest) (ha : readElse n rest = .ok (a, rest')) :
    ∃ r rs, Reading.Holds r e ∧ rs.branch = .ok s ∧
      readStmt (n + 1) (t :: paren :: (c ++ close :: (cs ++ rest)))
        = .ok (.stmt (readChoice t.origin r rs a), rest') := by
  obtain ⟨r, hr, hread⟩ := h n (close :: (cs ++ rest)) hn (Free.cons (by rw [hclose]; rfl))
  obtain ⟨rs, hrs, hreads⟩ := hs n rest hns hends
  refine ⟨r, rs, hr, hrs, ?_⟩
  rw [readStmt, peek_bind, List.head?_cons, Option.map_some, ht]
  show (expect .ifWord >>= _) _ = _
  rw [bind_of_eq_ok (expect_cons ht), bind_of_eq_ok (expect_cons hparen), bind_of_eq_ok hread,
    bind_of_eq_ok (expect_cons hclose), bind_of_eq_ok hreads, bind_of_eq_ok ha]
  rfl

theorem ifThen [CharacterNames] {s : Stmt} {cs : List Token} {paren close : Token}
    (ht : t.kind = .ifWord) (hparen : paren.kind = .leftParen) (hclose : close.kind = .rightParen)
    (h : (Phrase.expr e).Read c) (hs : (Phrase.branch s).Read cs) :
    (Phrase.stmt (.ifThen e s none t.origin)).Read (t :: paren :: (c ++ close :: cs)) := by
  intro n rest hn hends
  simp only [List.length_cons, List.length_append] at hn
  obtain ⟨n, rfl⟩ : ∃ m, n = m + 2 := ⟨n - 2, by omega⟩
  have hnone : readElse (n + 1) rest = .ok (none, rest) := by
    rw [readElse, bind_of_eq_ok (skip?_of_ne (hends rfl)), if_neg Bool.false_ne_true]
    rfl
  obtain ⟨r, rs, hr, hrs, hread⟩ := readStmt_choice (n := n + 1) ht hparen hclose h (by omega) hs
    (by omega) (fun _ => hends rfl) hnone
  refine ⟨_, ?_, by simpa using hread⟩
  simp only [readChoice, hr.expr, hrs]
  rfl

theorem ifElse [CharacterNames] {s a : Stmt} {cs ca : List Token} {paren close other : Token}
    (ht : t.kind = .ifWord) (hparen : paren.kind = .leftParen) (hclose : close.kind = .rightParen)
    (hother : other.kind = .elseWord) (hopen : s.isOpen = false) (h : (Phrase.expr e).Read c)
    (hs : (Phrase.branch s).Read cs) (ha : (Phrase.branch a).Read ca) :
    (Phrase.stmt (.ifThen e s (some a) t.origin)).Read
      (t :: paren :: (c ++ close :: (cs ++ other :: ca))) := by
  intro n rest hn hends
  simp only [List.length_cons, List.length_append] at hn
  obtain ⟨n, rfl⟩ : ∃ m, n = m + 2 := ⟨n - 2, by omega⟩
  obtain ⟨ra, hra, hreada⟩ := ha n rest (by omega) hends
  have halternate : readElse (n + 1) (other :: (ca ++ rest)) = .ok (some ra, rest) := by
    rw [readElse, bind_of_eq_ok (skip?_cons hother), if_pos rfl, bind_of_eq_ok hreada]
    rfl
  obtain ⟨r, rs, hr, hrs, hread⟩ := readStmt_choice (n := n + 1) ht hparen hclose h (by omega) hs
    (by omega) (fun h => by rw [hopen] at h; cases h) halternate
  refine ⟨_, ?_, by simpa using hread⟩
  simp only [readChoice, hr.expr, hrs, hra]
  rfl

theorem exprStatement [CharacterNames] (hfin : fin.kind = .terminator) (h : (Phrase.expr e).Read c)
    (hstart : (Phrase.expr e).Starts c) :
    (Phrase.stmt (.expr e e.origin)).Read (c ++ [fin]) := by
  intro n rest hn _
  simp only [List.length_append, List.length_singleton] at hn
  obtain ⟨n, rfl⟩ : ∃ m, n = m + 1 := ⟨n - 1, by omega⟩
  obtain ⟨r, hr, hread⟩ := h n (fin :: rest) (by omega) (Free.cons (by rw [hfin]; rfl))
  obtain ⟨t, c, rfl, ht⟩ := hstart
  have hexpr : (do
      let value ← readExpr n
      let _ ← expect .terminator
      return ReadStmt.stmt (value.expr.map (.expr · value.origin)) : Parse ReadStmt)
        (t :: (c ++ fin :: rest)) = .ok (.stmt (.ok (.expr e e.origin)), rest) := by
    rw [List.cons_append] at hread
    rw [bind_of_eq_ok hread, bind_of_eq_ok (expect_cons hfin), hr.expr, hr.origin]
    rfl
  refine ⟨_, rfl, ?_⟩
  rw [List.append_assoc, List.singleton_append, List.cons_append, readStmt, peek_bind,
    List.head?_cons, Option.map_some]
  cases hk : t.kind <;> rw [hk] at ht <;> first | exact hexpr | cases ht

theorem branchStmt [CharacterNames] {s : Stmt} (h : (Phrase.stmt s).Read c) :
    (Phrase.branch s).Read c := by
  intro n rest hn hends
  obtain ⟨_, rfl, hread⟩ := h n rest hn hends
  exact ⟨_, rfl, hread⟩

theorem branchNothing [CharacterNames] (ht : t.kind = .terminator) :
    (Phrase.branch (.block ⟨[], t.origin⟩)).Read [t] := by
  intro n rest hn _
  rw [List.length_singleton] at hn
  obtain ⟨n, rfl⟩ : ∃ m, n = m + 1 := ⟨n - 1, by omega⟩
  exact ⟨_, rfl, readStmt_nothing ht⟩

/-! ### Modules -/

theorem noStmts [CharacterNames] : (Phrase.body []).Read [] := by
  intro n hn
  obtain ⟨n, rfl⟩ : ∃ m, n = m + 1 := ⟨n - 1, by omega⟩
  exact ⟨[], List.mapM_nil, rfl⟩

theorem nothing [CharacterNames] {ss : List Stmt} (ht : t.kind = .terminator)
    (h : (Phrase.body ss).Read c) :
    (Phrase.body ss).Read (t :: c) := by
  intro n hn
  rw [List.length_cons] at hn
  obtain ⟨n, rfl⟩ : ∃ m, n = m + 2 := ⟨n - 2, by omega⟩
  obtain ⟨rs, hrs, hread⟩ := h (n + 1) (by omega)
  refine ⟨.nothing t.origin :: rs, body_nothing.trans hrs, ?_⟩
  rw [readStatements, peek_bind, if_neg (by simp), bind_of_eq_ok (readStmt_nothing ht),
    bind_of_eq_ok hread]
  rfl

theorem stmts [CharacterNames] {s : Stmt} {ss : List Stmt} {c' : List Token}
    (h : (Phrase.stmt s).Read c) (hstart : (Phrase.stmt s).Starts c) (h' : (Phrase.body ss).Read c')
    (hstart' : (Phrase.body ss).Starts c') : (Phrase.body (s :: ss)).Read (c ++ c') := by
  intro n hn
  have hpos := length_pos_of_starts hstart
  rw [List.length_append] at hn
  obtain ⟨n, rfl⟩ : ∃ m, n = m + 1 := ⟨n - 1, by omega⟩
  have hends : s.Ends c' := fun _ t ht hk => by
    have := hstart' t ht
    rw [hk] at this
    cases this
  obtain ⟨_, rfl, hread⟩ := h n c' (by omega) hends
  obtain ⟨rs, hrs, hreads⟩ := h' n (by omega)
  refine ⟨_, body_stmt hrs, ?_⟩
  obtain ⟨t, c, rfl, -⟩ := hstart
  rw [readStatements, peek_bind, if_neg (by simp), bind_of_eq_ok hread, bind_of_eq_ok hreads]
  rfl

end Phrase.Read

/-- **What derives a phrase is read as the phrase.** -/
theorem Derives.read [CharacterNames] {p : Phrase} {c : List Token} (h : Derives p c) :
    p.Read c := by
  -- where a reader looks ahead, it has to be told with which tokens the phrase starts
  induction h with
  | exprChoice h ih => exact ih.exprChoice h.starts
  | arrow hids hfirst ht h ih => exact .arrow hids hfirst ht ih h.starts
  | arrowBlock hids hfirst ht h ih => exact .arrowBlock hids hfirst ht ih h.starts
  | assign hop htarget _ _ ih ih' => exact .assign hop htarget ih ih'
  | choiceOperation h ih => exact ih.choiceOperation h.starts
  | conditional hquestion hcolon hx _ _ ihx ihy ihz =>
    exact .conditional hquestion hcolon ihx hx.starts ihy ihz
  | operationOperand h ih => exact ih.operationOperand h.starts
  | operationTighter h ih => exact ih.operationTighter h.starts
  | binary hop _ h' ih ih' => exact .binary hop ih ih' h'.starts
  | operandSuffixed h ih => exact ih.operandSuffixed h.starts
  | unary hop _ ih => exact .unary hop ih
  | suffixedPrimary h ih => exact ih.suffixedPrimary h.starts
  | member hdot ht _ ih => exact .member hdot ht ih
  | index ht ht' _ _ ih ih' => exact .index ht ht' ih ih'
  | call ht _ _ ih ih' => exact .call ht ih ih'
  | string ht => exact .string ht
  | number ht => exact .number ht
  | truth ht => exact .truth ht
  | null ht => exact .null ht
  | name ht => exact .name ht
  | array ht _ ih => exact .array ht ih
  | object ht _ ih => exact .object ht ih
  | group ht ht' h ih => exact .group ht ht' ih h.starts
  | noExprs ht => exact Or.inl ⟨rfl, _, ht, rfl⟩
  | exprsSome _ ih => exact Or.inr ih
  | lastExpr ht h ih => exact .last ⟨ih, h.starts⟩ ht
  | trailedExpr hcomma ht h ih => exact .trailed ⟨ih, h.starts⟩ hcomma ht rfl
  | moreExprs hcomma h _ ih ih' => exact .more ⟨ih, h.starts⟩ hcomma ih'
  | quotedProperty ht hcolon _ ih => exact .quotedProperty ht hcolon ih
  | property ht hcolon _ ih => exact .property ht hcolon ih
  | shortProperty ht => exact .shortProperty ht
  | noProperties ht => exact Or.inl ⟨rfl, _, ht, rfl⟩
  | propertiesSome _ ih => exact Or.inr ih
  | lastProperty ht h ih => exact .last ⟨ih, h.starts⟩ ht
  | trailedProperty hcomma ht h ih => exact .trailed ⟨ih, h.starts⟩ hcomma ht rfl
  | moreProperties hcomma h _ ih ih' => exact .more ⟨ih, h.starts⟩ hcomma ih'
  | block ht _ ih => exact .block ht ih
  | brace ht => exact .brace ht
  | blockNothing ht h ih => exact .blockNothing ht ih h.starts
  | blockStmt h h' ih ih' => exact .blockStmt ih h.starts ih' h'.starts
  | declarator ht => exact .declarator ht
  | declaratorInit ht hassign _ ih => exact .declaratorInit ht hassign ih
  | lastDeclarator h ih => exact ih.lastDeclarator h.starts
  | moreDeclarators hcomma _ _ ih ih' => exact .moreDeclarators hcomma ih ih'
  | variableDecl ht hfin _ ih => exact .variableDecl ht hfin ih
  | functionDecl ht hf hparen hids _ ih => exact .functionDecl ht hf hparen hids ih
  | importBare ht hsource hfin => exact .importBare ht hsource hfin
  | importNames ht hclause hfrom hsource hfin => exact .importNames ht hclause hfrom hsource hfin
  | exportLocal ht hbrace hss hfin => exact .exportLocal ht hbrace hss hfin
  | exportFrom ht hbrace hss hfrom hsource hfin =>
    exact .exportFrom ht hbrace hss hfrom hsource hfin
  | exportAll ht hstar hfrom hsource hfin => exact .exportAll ht hstar hfrom hsource hfin
  | exportDecl ht h ih => exact .exportDecl ht ih h.starts
  | exportDefault ht hdefault hfin _ ih => exact .exportDefault ht hdefault hfin ih
  | declaration h ih => exact .declaration ih h.starts
  | blockStatement h ih => exact .blockStatement ih h.starts
  | returnNothing ht hfin => exact .returnNothing ht hfin
  | returnValue ht hfin h ih => exact .returnValue ht hfin ih h.starts
  | ifThen ht hparen hclose _ _ ih ihs => exact .ifThen ht hparen hclose ih ihs
  | ifElse ht hparen hclose hother hopen _ _ _ ih ihs iha =>
    exact .ifElse ht hparen hclose hother hopen ih ihs iha
  | exprStatement hfin h ih => exact .exprStatement hfin ih h.starts
  | branchStmt _ ih => exact .branchStmt ih
  | branchNothing ht => exact .branchNothing ht
  | noStmts => exact .noStmts
  | nothing ht _ ih => exact .nothing ht ih
  | stmts h h' ih ih' => exact .stmts ih h.starts ih' h'.starts

/-- **Tokens are read as statements if and only if they derive them**, where the whole text has been
made into tokens. -/
theorem readTokens_eq_ok_iff [CharacterNames] {ts : Tokens} {ss : List Stmt} :
    readTokens ts = .ok ss ↔ ts.stop = none ∧ Derives (.body ss) ts.tokens := by
  refine ⟨readTokens_derives, fun ⟨hstop, h⟩ => ?_⟩
  obtain ⟨rs, hrs, hread⟩ := h.read (maxDepth ts.tokens) (by unfold maxDepth; omega)
  rw [readTokens, hread, hstop]
  exact hrs

end MessageBinder
