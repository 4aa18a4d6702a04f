import MessageBinder.Proofs.Grammar.Reader

/-!
# What is read follows the grammar

Every reader of the descent takes tokens that derive what it makes of them
(`MessageBinder.readTokens_derives` is the result for whole modules). The proof goes by the bound on
the descent: `MessageBinder.Sound` collects what each reader takes at one bound, and each field at
the next bound follows from the fields at this one.

Three things are said beside the derivation. A reading starts at its first token, has the shape that
its tokens have, and a statement that ends in a choice without an alternative is not followed by
one. A reading with a fault is none the less of some length and shape: parameters in parentheses are
no expression, and become one half of an arrow function only when the arrow comes.
-/

namespace MessageBinder

variable [CharacterNames]

open Parse

/-- A shape fits the tokens from which it was read. -/
def Shape.Fits : Shape → List Token → Prop
  | .name id, c => BindingToken id c
  | .group items, c => ∃ t c', c = t :: c' ∧ t.kind = .leftParen ∧
      ∀ ids, items.mapM (fun p => match p.2 with
        | some id => .ok id
        | none => .error (.faultAt .arrowParameter p.1)) = (.ok ids : Checked (List Identifier)) →
        Listed BindingToken .rightParen false ids c'
  | .other, _ => True

omit [CharacterNames] in
theorem Shape.Fits.params {s : Shape} {c : List Token} (h : s.Fits c) {ids : List Identifier}
    (hids : s.params? = some (.ok ids)) : ArrowParams ids c := by
  cases s with
  | name id =>
    obtain rfl : [id] = ids := Except.ok.inj (Option.some.inj hids)
    exact .name h
  | group items =>
    obtain ⟨t, c', rfl, ht, hlist⟩ := h
    exact .group ht (hlist ids (Option.some.inj hids))
  | other => exact absurd hids nofun

/-- A reading fits the tokens from which it was read: they derive its expression, if it has no
fault. -/
structure Reading.Fits (x : Expr → Phrase) (r : Reading) (c : List Token) : Prop where
  /-- The tokens derive the expression. -/
  derives : ∀ e, r.expr = .ok e → Derives (x e) c ∧ e.origin = r.origin
  /-- The shape is that of the tokens. -/
  shape : r.shape.Fits c
  /-- The reading starts at the first token. -/
  first : ∃ t, c.head? = some t ∧ t.origin = r.origin

namespace Reading.Fits

variable {x y : Expr → Phrase} {r : Reading} {c : List Token}

theorem mono (h : r.Fits x c) (hxy : ∀ e, Derives (x e) c → Derives (y e) c) : r.Fits y c where
  derives e he := ⟨hxy e (h.derives e he).1, (h.derives e he).2⟩
  shape := h.shape
  first := h.first

/-- A reading with nothing special about it. -/
theorem other {o : Origin} {e : Checked Expr} {c : List Token} {t : Token}
    (hfirst : c.head? = some t) (ho : t.origin = o)
    (h : ∀ e', e = .ok e' → Derives (x e') c ∧ e'.origin = o) :
    Reading.Fits x ⟨o, .other, e⟩ c :=
  ⟨h, trivial, t, hfirst, ho⟩

/-- A reading that starts with another one and goes on. -/
theorem further (hr : r.Fits x c) {c' : List Token} {e : Checked Expr}
    (h : ∀ e', e = .ok e' → Derives (y e') (c ++ c') ∧ e'.origin = r.origin) :
    Reading.Fits y ⟨r.origin, .other, e⟩ (c ++ c') := by
  obtain ⟨t, hfirst, ho⟩ := hr.first
  exact .other (by rw [List.head?_append, hfirst, Option.some_or]) ho h

end Reading.Fits

/-- A checked part of a tree fits the tokens from which it was read. -/
def Checked.Fits {α : Type} (x : α → Phrase) (a : Checked α) (c : List Token) : Prop :=
  ∀ a', a = .ok a' → Derives (x a') c

/-- A statement fits the tokens from which it was read, and what follows them. -/
def ReadStmt.Fits : ReadStmt → List Token → List Token → Prop
  | .nothing o, c, _ => ∃ t, c = [t] ∧ t.kind = .terminator ∧ t.origin = o
  | .stmt s, c, rest => ∀ s', s = .ok s' → Derives (.stmt s') c ∧
      (s'.isOpen → rest.head?.map (·.kind) ≠ some .elseWord)

/-- A statement that does not end in a choice without an alternative may stand before anything. -/
theorem ReadStmt.Fits.plain {s : Checked Stmt} {c rest : List Token}
    (h : ∀ s', s = .ok s' → Derives (.stmt s') c ∧ s'.isOpen = false) :
    (ReadStmt.stmt s).Fits c rest :=
  fun s' hs' => ⟨(h s' hs').1, fun hopen => absurd ((h s' hs').2 ▸ hopen) nofun⟩

theorem ReadStmt.Fits.declaration {d : Checked Declaration} {c rest : List Token}
    (h : Checked.Fits .declaration d c) : (ReadStmt.stmt (d.map .declaration)).Fits c rest := by
  refine .plain fun s' hs' => ?_
  obtain ⟨d', hd', rfl⟩ := Checked.map_eq_ok.1 hs'
  exact ⟨.declaration (h d' hd'), rfl⟩

/-- A branch is a statement, or an empty block where there is none. -/
theorem ReadStmt.Fits.branch {r : ReadStmt} {c rest : List Token} (h : r.Fits c rest) {s : Stmt}
    (hs : r.branch = .ok s) : Derives (.branch s) c ∧
      (s.isOpen → rest.head?.map (·.kind) ≠ some .elseWord) := by
  cases r with
  | nothing o =>
    obtain ⟨t, rfl, ht, rfl⟩ := h
    obtain rfl : Stmt.block ⟨[], t.origin⟩ = s := Except.ok.inj hs
    exact ⟨.branchNothing ht, nofun⟩
  | stmt s' =>
    obtain ⟨hd, hopen⟩ := h s hs
    exact ⟨.branchStmt hd, hopen⟩

/-! ### Lists -/

theorem Derives.someExprs_of_items {close : TokenKind} {trailing : Bool} {es : List Expr}
    {c : List Token} (h : Items (fun e => Derives (.expr e)) close trailing es c) :
    Derives (.someExprs close trailing es) c := by
  induction h with
  | last hx ht => exact .lastExpr ht hx
  | trailed hx hc ht htrailing =>
    rw [htrailing]
    exact .trailedExpr hc ht hx
  | more hx hc _ ih => exact .moreExprs hc hx ih

theorem Derives.exprs_of_listed {close : TokenKind} {trailing : Bool} {es : List Expr}
    {c : List Token} (h : Listed (fun e => Derives (.expr e)) close trailing es c) :
    Derives (.exprs close trailing es) c := by
  rcases h with ⟨rfl, t, ht, rfl⟩ | h
  · exact .noExprs ht
  · exact .exprsSome (.someExprs_of_items h)

theorem Derives.properties_of_listed {ps : List Property} {c : List Token}
    (h : Listed (fun p => Derives (.property p)) .rightBrace true ps c) :
    Derives (.properties ps) c := by
  rcases h with ⟨rfl, t, ht, rfl⟩ | h
  · exact .noProperties ht
  · refine .propertiesSome ?_
    induction h with
    | last hx ht => exact .lastProperty ht hx
    | trailed hx hc ht _ => exact .trailedProperty hc ht hx
    | more hx hc _ ih => exact .moreProperties hc hx ih

/-- Readings that fit the items of a list fit the list of expressions. -/
theorem Reading.exprs_fits {close : TokenKind} {trailing : Bool} {rs : List Reading}
    {c : List Token} (h : Listed (Reading.Fits .expr) close trailing rs c) {es : List Expr}
    (hes : rs.mapM (·.expr) = .ok es) : Derives (.exprs close trailing es) c :=
  .exprs_of_listed (h.mapM (fun _ _ e hr he => (hr.derives e he).1) hes)

/-- The items of a grouping give it its shape. -/
theorem Reading.group_fits {rs : List Reading} {c : List Token} {t : Token}
    (ht : t.kind = .leftParen) (h : Listed (Reading.Fits .expr) .rightParen false rs c) :
    Reading.Fits .primary (.group t.origin rs) (t :: c) where
  derives e he := by
    match rs with
    | [r] =>
      obtain ⟨e', he', rfl⟩ := Checked.map_eq_ok.1 he
      refine ⟨?_, rfl⟩
      rcases h with ⟨hnil, -⟩ | h
      · exact absurd hnil nofun
      · cases h with
        | last hx ht' => exact .group ht ht' (hx.derives e' he').1
        | trailed _ _ _ htrailing => exact absurd htrailing nofun
        | more _ _ hxs => cases hxs
    | [] => exact absurd he nofun
    | _ :: _ :: _ => exact absurd he nofun
  shape := by
    refine ⟨t, c, rfl, ht, fun ids hids => ?_⟩
    rw [List.mapM_map] at hids
    refine h.mapM (fun r c' id hr hid => ?_) hids
    have hname : r.identifier? = some id := by
      rw [Function.comp_apply] at hid
      cases hr' : r.identifier? with
      | none => simp [hr'] at hid
      | some id' => simpa [hr'] using hid
    rw [Reading.identifier?] at hname
    split at hname
    · rename_i id' hshape
      have hfits := hr.shape
      rw [hshape] at hfits
      rw [← Option.some.inj hname]
      exact hfits
    · exact absurd hname nofun
  first := ⟨t, rfl, rfl⟩

/-! ### Imports and exports -/

theorem stringValue_eq_ok {t : Token} {s : CodeText} (ht : t.kind = .string)
    (h : t.stringValue = .ok s) : StringToken s t := by
  refine ⟨ht, ?_⟩
  rw [Token.stringValue] at h
  split at h
  · rename_i s' hs
    rw [hs, Except.ok.inj h]
  · exact absurd h nofun

omit [CharacterNames] in
theorem numberValue_eq_ok {t : Token} {v : LiteralValue} (ht : t.kind = .number)
    (h : t.numberValue = .ok v) : NumberToken v t := by
  refine ⟨ht, ?_⟩
  rw [Token.numberValue] at h
  cases hv : NumberLiteral.value t.text with
  | ok v' =>
    rw [hv] at h
    exact congrArg Except.ok (Except.ok.inj h)
  | error n =>
    rw [hv] at h
    cases h

omit [CharacterNames] in
theorem takes_readAlias (admits : TokenKind → Bool) :
    Takes (readAlias admits) fun p c => AliasTokens admits p.1 (p.2.getD p.1) c := by
  rw [readAlias]
  refine .accept fun t ht => .skip? (fun as has => ?_) ?_
  · exact .accept fun second hsecond => .pure fun _ => ⟨ht, Or.inr ⟨as, has, hsecond, rfl⟩⟩
  · exact .pure fun _ => ⟨ht, Or.inl ⟨rfl, rfl⟩⟩

omit [CharacterNames] in
theorem takes_readImportSpecifier :
    Takes readImportSpecifier fun s c => ∀ s', s = .ok s' → ImportTokens s' c := by
  rw [readImportSpecifier]
  refine .bind (takes_readAlias _) ?_
  rintro ⟨t, alias?⟩ c hc
  dsimp only
  split
  · exact .pure fun _ => nofun
  · rename_i hkind
    refine .pure fun _ s' hs' => ?_
    rw [List.append_nil]
    exact ⟨t, _, hc, hkind, (Except.ok.inj hs').symm⟩

omit [CharacterNames] in
theorem takes_readExportSpecifier :
    Takes readExportSpecifier fun p c => ∃ second, AliasTokens TokenKind.isExportName p.1 second c ∧
      p.2 = ⟨p.1.identifier, second.text, p.1.origin⟩ := by
  rw [readExportSpecifier]
  exact .last (takes_readAlias _) fun p c hc _ => ⟨_, hc, rfl⟩

omit [CharacterNames] in
theorem takes_readImportRest (n : Nat) :
    Takes (readImportRest n) fun ss c => ∀ ss', ss = .ok ss' → ImportRest ss' c := by
  rw [readImportRest]
  refine .skip? (fun star hstar => ?_) ?_
  · refine .expect fun as has => .expect fun t ht => .pure fun _ ss' hss' => ?_
    rw [← Except.ok.inj hss']
    exact .all hstar has ht
  · refine .expect fun t ht => ?_
    refine .last (takes_readImportSpecifier.items _ _ _) fun xs c hc _ ss' hss' => ?_
    exact .list ht (hc.mapM (fun _ _ y hx hy => hx y hy) hss')

omit [CharacterNames] in
theorem takes_readImportClause (n : Nat) :
    Takes (readImportClause n) fun ss c => ∀ ss', ss = .ok ss' → ImportClause ss' c := by
  rw [readImportClause]
  refine .peek fun next => ?_
  split
  · refine .expect fun t ht => .skip? (fun comma hcomma => ?_) ?_
    · refine .last (takes_readImportRest n) fun others c hc _ ss' hss' => ?_
      obtain ⟨ss'', hss'', hss'⟩ := Checked.bind_eq_ok.1 hss'
      rw [Checked.pure_eq_ok.1 hss']
      exact .both ht hcomma (hc ss'' hss'')
    · refine .pure fun _ ss' hss' => ?_
      rw [← Except.ok.inj hss']
      exact .default ht
  · exact (takes_readImportRest n).mono fun _ _ _ hc ss' hss' => .rest (hc ss' hss')

omit [CharacterNames] in
/-- A source with the end of its statement. -/
theorem reads_source {β : Type} {f : Token → Parse β} {Q : β → List Token → List Token → Prop}
    (h : ∀ source fin, source.kind = .string → fin.kind = .terminator →
      Reads (f source) fun b c rest => Q b (source :: fin :: c) rest) :
    Reads (readSource >>= f) Q := by
  have hsource : Takes readSource fun t c =>
      t.kind = .string ∧ ∃ fin, fin.kind = .terminator ∧ c = [t, fin] :=
    .expect fun t ht => .expect fun fin hfin => .pure fun _ => ⟨ht, fin, hfin, rfl⟩
  refine .bind hsource ?_
  rintro source _ ⟨hkind, fin, hfin, rfl⟩
  exact h source fin hkind hfin

theorem takes_readImport {t : Token} (ht : t.kind = .importWord) (n : Nat) :
    Takes (readImport t.origin n) fun s c => Checked.Fits .stmt s (t :: c) := by
  rw [readImport]
  refine .peek fun next => ?_
  split
  · refine reads_source fun source fin hkind hfin => .pure fun _ s' hs' => ?_
    obtain ⟨text, htext, hs'⟩ := Checked.bind_eq_ok.1 hs'
    rw [Checked.pure_eq_ok.1 hs']
    exact .importBare ht (stringValue_eq_ok hkind htext) hfin
  · refine .bind (takes_readImportClause n) fun ss c hc => .expect fun from' hfrom => ?_
    refine reads_source fun source fin hkind hfin => .pure fun _ s' hs' => ?_
    obtain ⟨text, htext, hs'⟩ := Checked.bind_eq_ok.1 hs'
    obtain ⟨ss', hss', hs'⟩ := Checked.bind_eq_ok.1 hs'
    rw [Checked.pure_eq_ok.1 hs']
    exact .importNames ht (hc ss' hss') hfrom (stringValue_eq_ok hkind htext) hfin

theorem takes_readExportList {t brace : Token} (ht : t.kind = .exportWord)
    (hbrace : brace.kind = .leftBrace) (n : Nat) :
    Takes (readExportList t.origin n) fun s c => Checked.Fits .stmt s (t :: brace :: c) := by
  rw [readExportList]
  refine .bind (takes_readExportSpecifier.items _ _ _) fun ps c hc => ?_
  refine .skip? (fun from' hfrom => ?_) ?_
  · refine reads_source fun source fin hkind hfin => .pure fun _ s' hs' => ?_
    obtain ⟨text, htext, hs'⟩ := Checked.bind_eq_ok.1 hs'
    rw [Checked.pure_eq_ok.1 hs']
    refine .exportFrom ht hbrace ?_ hfrom (stringValue_eq_ok hkind htext) hfin
    have hmap : ps.mapM (fun p => (.ok p.2 : Checked ExportSpecifier)) = .ok (ps.map (·.2)) :=
      List.mapM_pure ..
    refine hc.mapM (fun p c' s hp hs => ?_) hmap
    obtain ⟨second, hsecond, hp⟩ := hp
    exact ⟨p.1, second, hsecond, nofun, by rw [← Except.ok.inj hs, hp]⟩
  · refine .expect fun fin hfin => .pure fun _ s' hs' => ?_
    obtain ⟨ss, hss, hs'⟩ := Checked.bind_eq_ok.1 hs'
    rw [Checked.pure_eq_ok.1 hs']
    refine .exportLocal ht hbrace (hc.mapM (fun p c' s hp hs => ?_) hss) hfin
    obtain ⟨second, hsecond, hp⟩ := hp
    obtain ⟨t', s'⟩ := p
    rw [localExport] at hs
    split at hs
    · exact absurd hs nofun
    · rename_i hkind
      exact ⟨t', second, hsecond, fun _ => hkind, (Except.ok.inj hs).symm.trans hp⟩

theorem takes_readExportAll {t star : Token} (ht : t.kind = .exportWord)
    (hstar : star.kind = .star) :
    Takes (readExportAll t.origin) fun s c => Checked.Fits .stmt s (t :: star :: c) := by
  rw [readExportAll]
  refine .expect fun from' hfrom => reads_source fun source fin hkind hfin => ?_
  refine .pure fun _ s' hs' => ?_
  obtain ⟨text, htext, hs'⟩ := Checked.bind_eq_ok.1 hs'
  rw [Checked.pure_eq_ok.1 hs']
  exact .exportAll ht hstar hfrom (stringValue_eq_ok hkind htext) hfin

/-! ### The descent, one step down -/

/-- **What the readers take** at a bound on the descent. -/
structure Sound (n : Nat) : Prop where
  expr : Takes (readExpr n) (Reading.Fits .expr)
  arrowBody : Takes (readArrowBody n) fun b c => match b with
    | .inl e => Checked.Fits .expr e c
    | .inr b => Checked.Fits .block b c
  conditional : Takes (readConditional n) (Reading.Fits .choice)
  binary : ∀ l, Takes (readBinary n l) (Reading.Fits (.operation l))
  operators : ∀ l left c, left.Fits (.operation (l + 1)) c →
    Takes (readOperators n l left) fun r c' => r.Fits (.operation (l + 1)) (c ++ c')
  unary : Takes (readUnary n) (Reading.Fits .operand)
  suffixes : ∀ left c, left.Fits .suffixed c →
    Takes (readSuffixes n left) fun r c' => r.Fits .suffixed (c ++ c')
  primary : Takes (readPrimary n) (Reading.Fits .primary)
  property : Takes (readProperty n) (Checked.Fits .property)
  block : Takes (readBlock n) (Checked.Fits .block)
  untilBrace : Takes (readUntilBrace n) fun rs c =>
    ∀ ss, ReadStmt.body rs = .ok ss → Derives (.untilBrace ss) c
  declarator : Takes (readDeclarator n) (Checked.Fits .declarator)
  declarators : Takes (readDeclarators n) fun rs c =>
    ∀ ds, rs.mapM id = .ok ds → Derives (.declarators ds) c
  variableDecl : Takes (readVariables n) (Checked.Fits .declaration)
  functionDecl : Takes (readFunction n) (Checked.Fits .declaration)
  exported : ∀ t, t.kind = .exportWord →
    Takes (readExport n t.origin) fun s c => Checked.Fits .stmt s (t :: c)
  alternate : Reads (readElse n) fun a c rest => match a with
    | none => c = [] ∧ rest.head?.map (·.kind) ≠ some .elseWord
    | some a => ∃ t c', c = t :: c' ∧ t.kind = .elseWord ∧ a.Fits c' rest
  stmt : Reads (readStmt n) ReadStmt.Fits

namespace Sound

variable {n : Nat}

theorem takes_readExpr (ih : Sound n) : Takes (readExpr (n + 1)) (Reading.Fits .expr) := by
  rw [readExpr]
  refine .bind ih.conditional fun left c hc => .peek fun next => ?_
  have hplain : Takes (pure left) fun r c' => r.Fits .expr (c ++ c') :=
    .pure fun _ => by simpa using hc.mono fun _ => .exprChoice
  split
  · generalize hparams : left.shape.params? = params?
    cases params? with
    | some params =>
      -- an arrow behind parameters
      refine .expect fun t ht => .last ih.arrowBody fun body c' hbody _ => ?_
      obtain ⟨first, hfirst, ho⟩ := hc.first
      refine hc.further fun e he => ?_
      obtain ⟨ids, hids, he⟩ := Checked.bind_eq_ok.1 he
      have harrow := hc.shape.params (hparams.trans (congrArg some hids))
      cases body with
      | inl e' =>
        obtain ⟨e'', he'', he⟩ := Checked.bind_eq_ok.1 he
        rw [Checked.pure_eq_ok.1 he, ← ho]
        exact ⟨.arrow harrow hfirst ht (hbody e'' he''), rfl⟩
      | inr b =>
        obtain ⟨b', hb', he⟩ := Checked.bind_eq_ok.1 he
        rw [Checked.pure_eq_ok.1 he, ← ho]
        exact ⟨.arrowBlock harrow hfirst ht (hbody b' hb'), rfl⟩
    | none => exact hplain
  · split
    · -- an assignment
      refine .accept fun op hop => .last ih.expr fun value c' hvalue _ => hc.further fun e he => ?_
      obtain ⟨t, ht, he⟩ := Checked.bind_eq_ok.1 he
      obtain ⟨htarget, hto⟩ := hc.derives t ht
      have hdone : t.isTarget → ∀ v, value.expr = .ok v →
          Derives (.expr (.assign op.text t v left.origin)) (c ++ op :: c') := fun htt v hv => by
        rw [← hto]
        exact .assign hop htt htarget (hvalue.derives v hv).1
      split at he
      · obtain ⟨v, hv, he⟩ := Checked.bind_eq_ok.1 he
        rw [Checked.pure_eq_ok.1 he]
        exact ⟨hdone rfl v hv, rfl⟩
      · obtain ⟨v, hv, he⟩ := Checked.bind_eq_ok.1 he
        rw [Checked.pure_eq_ok.1 he]
        exact ⟨hdone rfl v hv, rfl⟩
      · obtain ⟨v, hv, he⟩ := Checked.bind_eq_ok.1 he
        rw [Checked.pure_eq_ok.1 he]
        exact ⟨hdone rfl v hv, rfl⟩
      · exact absurd he nofun
    · exact hplain
  · exact hplain

theorem takes_readArrowBody (ih : Sound n) :
    Takes (readArrowBody (n + 1)) fun b c => match b with
      | .inl e => Checked.Fits .expr e c
      | .inr b => Checked.Fits .block b c := by
  rw [readArrowBody]
  refine .peek fun next => ?_
  split
  · exact .last ih.block fun b c hc _ => hc
  · exact .last ih.expr fun e c hc _ e' he' => (hc.derives e' he').1

theorem takes_readConditional (ih : Sound n) :
    Takes (readConditional (n + 1)) (Reading.Fits .choice) := by
  rw [readConditional]
  refine .bind (ih.binary loosest) fun test ct ht => .skip? (fun question hquestion => ?_) ?_
  · refine .bind ih.expr fun consequent cc hc => .expect fun colon hcolon => ?_
    refine .last ih.expr fun alternate ca ha _ => ht.further fun e he => ?_
    obtain ⟨t, ht', he⟩ := Checked.bind_eq_ok.1 he
    obtain ⟨c, hc', he⟩ := Checked.bind_eq_ok.1 he
    obtain ⟨a, ha', he⟩ := Checked.bind_eq_ok.1 he
    obtain ⟨hdt, hto⟩ := ht.derives t ht'
    rw [Checked.pure_eq_ok.1 he, ← hto]
    exact ⟨.conditional hquestion hcolon hdt (hc.derives c hc').1 (ha.derives a ha').1, rfl⟩
  · refine .pure fun _ => ?_
    rw [List.append_nil]
    exact ht.mono fun _ => .choiceOperation

theorem takes_readBinary (ih : Sound n) (l : Nat) :
    Takes (readBinary (n + 1) l) (Reading.Fits (.operation l)) := by
  cases l with
  | zero =>
    rw [readBinary]
    exact ih.unary.mono fun _ _ _ h => h.mono fun _ => .operationOperand
  | succ l =>
    rw [readBinary]
    refine .bind (ih.binary l) fun left c hc => ?_
    exact ih.operators l left c (hc.mono fun _ => .operationTighter)

theorem takes_readOperators (ih : Sound n) (l : Nat) (left : Reading) (c : List Token)
    (hleft : left.Fits (.operation (l + 1)) c) :
    Takes (readOperators (n + 1) l left) fun r c' => r.Fits (.operation (l + 1)) (c ++ c') := by
  rw [readOperators]
  refine .peek fun next => ?_
  split
  · refine .accept fun op hop => .bind (ih.binary l) fun right c' hc' => ?_
    have hboth : (left.binary op right).Fits (.operation (l + 1)) (c ++ op :: c') := by
      refine hleft.further fun e he => ?_
      obtain ⟨el, hl, he⟩ := Checked.bind_eq_ok.1 he
      obtain ⟨er, hr, he⟩ := Checked.bind_eq_ok.1 he
      obtain ⟨hdl, hlo⟩ := hleft.derives el hl
      rw [Checked.pure_eq_ok.1 he, ← hlo]
      exact ⟨.binary (of_decide_eq_true hop) hdl (hc'.derives er hr).1, rfl⟩
    exact (ih.operators l _ _ hboth).mono fun _ _ _ h => by simpa using h
  · exact .pure fun _ => by simpa using hleft

theorem takes_readUnary (ih : Sound n) :
    Takes (readUnary (n + 1)) (Reading.Fits .operand) := by
  rw [readUnary]
  refine .peek fun next => ?_
  split
  · refine .accept fun op hop => .last ih.unary fun r c hc _ => ?_
    refine Reading.Fits.other rfl rfl fun e he => ?_
    obtain ⟨e', he', he⟩ := Checked.bind_eq_ok.1 he
    rw [Checked.pure_eq_ok.1 he]
    exact ⟨.unary hop (hc.derives e' he').1, rfl⟩
  · refine .bind ih.primary fun r c hc => ?_
    refine (ih.suffixes r c (hc.mono fun _ => .suffixedPrimary)).mono fun _ _ _ h => ?_
    exact h.mono fun _ => .operandSuffixed

theorem takes_readSuffixes (ih : Sound n) (left : Reading) (c : List Token)
    (hleft : left.Fits .suffixed c) :
    Takes (readSuffixes (n + 1) left) fun r c' => r.Fits .suffixed (c ++ c') := by
  -- a suffix, and then those after it
  have hnext (c' : List Token) (e : Checked Expr)
      (he : ∀ e', e = .ok e' → Derives (.suffixed e') (c ++ c') ∧ e'.origin = left.origin) :
      Takes (readSuffixes n ⟨left.origin, .other, e⟩) fun r c'' =>
        r.Fits .suffixed (c ++ (c' ++ c'')) :=
    (ih.suffixes _ _ (hleft.further he)).mono fun _ _ _ h => by simpa using h
  rw [readSuffixes]
  refine .peek fun next => ?_
  split
  · refine .expect fun dot hdot => .expect fun t ht => hnext [dot, t] _ fun e he => ?_
    obtain ⟨e', he', he⟩ := Checked.bind_eq_ok.1 he
    obtain ⟨hd, heo⟩ := hleft.derives e' he'
    rw [Checked.pure_eq_ok.1 he, ← heo]
    exact ⟨.member hdot ht hd, rfl⟩
  · refine .expect fun t ht => .bind ih.expr fun i c' hc' => .expect fun t' ht' => ?_
    refine (hnext (t :: (c' ++ [t'])) _ fun e he => ?_).mono fun _ _ _ h => by simpa using h
    obtain ⟨e', he', he⟩ := Checked.bind_eq_ok.1 he
    obtain ⟨i', hi', he⟩ := Checked.bind_eq_ok.1 he
    obtain ⟨hd, heo⟩ := hleft.derives e' he'
    rw [Checked.pure_eq_ok.1 he, ← heo]
    exact ⟨.index ht ht' hd (hc'.derives i' hi').1, rfl⟩
  · refine .expect fun t ht => .bind (ih.expr.items .rightParen false n) fun args c' hc' => ?_
    refine hnext (t :: c') _ fun e he => ?_
    obtain ⟨e', he', he⟩ := Checked.bind_eq_ok.1 he
    obtain ⟨as, has, he⟩ := Checked.bind_eq_ok.1 he
    obtain ⟨hd, heo⟩ := hleft.derives e' he'
    rw [Checked.pure_eq_ok.1 he, ← heo]
    exact ⟨.call ht hd (Reading.exprs_fits hc' has), rfl⟩
  · exact .pure fun _ => by simpa using hleft

/-- A literal is a token with a value. -/
theorem literal_fits {t : Token} {v : Checked LiteralValue}
    (h : ∀ v', v = .ok v' → Derives (.primary (.literal v' t.text t.origin)) [t]) :
    Reading.Fits .primary (.literal t v) [t] := by
  refine Reading.Fits.other rfl rfl fun e he => ?_
  obtain ⟨v', hv', rfl⟩ := Checked.map_eq_ok.1 he
  exact ⟨h v' hv', rfl⟩

theorem takes_readPrimary (ih : Sound n) :
    Takes (readPrimary (n + 1)) (Reading.Fits .primary) := by
  rw [readPrimary]
  refine .peek fun next => ?_
  split
  · -- literals
    refine .expect fun t ht => .pure fun _ => literal_fits fun v hv => ?_
    obtain ⟨s, hs, rfl⟩ := Checked.map_eq_ok.1 hv
    exact .string (stringValue_eq_ok ht hs)
  · refine .expect fun t ht => .pure fun _ => literal_fits fun v hv => ?_
    exact .number (numberValue_eq_ok ht hv)
  · refine .expect fun t ht => .pure fun _ => literal_fits fun v hv => ?_
    exact Except.ok.inj hv ▸ .truth ht
  · refine .expect fun t ht => .pure fun _ => literal_fits fun v hv => ?_
    exact Except.ok.inj hv ▸ .truth ht
  · refine .expect fun t ht => .pure fun _ => literal_fits fun v hv => ?_
    exact Except.ok.inj hv ▸ .null ht
  · -- lists, of which a grouping is one until it is checked
    refine .expect fun t ht => .last (ih.expr.items .rightBracket true n) fun rs c hc _ => ?_
    refine Reading.Fits.other rfl rfl fun e he => ?_
    obtain ⟨es, hes, he⟩ := Checked.bind_eq_ok.1 he
    rw [Checked.pure_eq_ok.1 he]
    exact ⟨.array ht (Reading.exprs_fits hc hes), rfl⟩
  · refine .expect fun t ht => .last (ih.property.items .rightBrace true n) fun rs c hc _ => ?_
    refine Reading.Fits.other rfl rfl fun e he => ?_
    obtain ⟨ps, hps, he⟩ := Checked.bind_eq_ok.1 he
    rw [Checked.pure_eq_ok.1 he]
    exact ⟨.object ht (.properties_of_listed (hc.mapM (fun _ _ p hp hp' => hp p hp') hps)), rfl⟩
  · refine .expect fun t ht => .last (ih.expr.items .rightParen false n) fun rs c hc _ => ?_
    exact Reading.group_fits ht hc
  · refine .accept fun t ht => .pure fun _ => ?_
    refine ⟨fun e he => ?_, ⟨t, ht, rfl, rfl⟩, t, rfl, rfl⟩
    rw [← Except.ok.inj he]
    exact ⟨.name ht, rfl⟩

/-! ### Properties, blocks and declarations -/

theorem takes_readProperty (ih : Sound n) :
    Takes (readProperty (n + 1)) (Checked.Fits .property) := by
  rw [readProperty]
  refine .peek fun next => ?_
  split
  · refine .expect fun t ht => .expect fun colon hcolon => ?_
    refine .last ih.expr fun value c hc _ p' hp' => ?_
    obtain ⟨v, hv, hp'⟩ := Checked.bind_eq_ok.1 hp'
    obtain ⟨key, hkey, hp'⟩ := Checked.bind_eq_ok.1 hp'
    rw [Checked.pure_eq_ok.1 hp']
    exact .quotedProperty (stringValue_eq_ok ht hkey) hcolon (hc.derives v hv).1
  · refine .accept fun t ht => .skip? (fun colon hcolon => ?_) ?_
    · refine .last ih.expr fun value c hc _ p' hp' => ?_
      obtain ⟨v, hv, hp'⟩ := Checked.bind_eq_ok.1 hp'
      rw [Checked.pure_eq_ok.1 hp']
      exact .property ht hcolon (hc.derives v hv).1
    · refine .pure fun _ p' hp' => ?_
      rw [← Except.ok.inj hp']
      exact .shortProperty ht

theorem takes_readBlock (ih : Sound n) : Takes (readBlock (n + 1)) (Checked.Fits .block) := by
  rw [readBlock]
  refine .expect fun t ht => .last ih.untilBrace fun rs c hc _ b' hb' => ?_
  obtain ⟨ss, hss, hb'⟩ := Checked.bind_eq_ok.1 hb'
  rw [Checked.pure_eq_ok.1 hb']
  exact .block ht (hc ss hss)

omit [CharacterNames] in
/-- The statements that were read, without those that are nothing. -/
theorem body_cons_eq_ok {r : ReadStmt} {rs : List ReadStmt} {ss : List Stmt}
    (h : ReadStmt.body (r :: rs) = .ok ss) :
    (∃ o, r = .nothing o ∧ ReadStmt.body rs = .ok ss) ∨
      ∃ s ss', r = .stmt (.ok s) ∧ ReadStmt.body rs = .ok ss' ∧ ss = s :: ss' := by
  cases r with
  | nothing o => exact Or.inl ⟨o, rfl, h⟩
  | stmt s =>
    obtain ⟨s', ss', hs, hss, rfl⟩ := Checked.mapM_cons_eq_ok.1 h
    exact Or.inr ⟨s', ss', congrArg ReadStmt.stmt hs, hss, rfl⟩

theorem takes_readUntilBrace (ih : Sound n) :
    Takes (readUntilBrace (n + 1)) fun rs c =>
      ∀ ss, ReadStmt.body rs = .ok ss → Derives (.untilBrace ss) c := by
  rw [readUntilBrace]
  refine .skip? (fun t ht => .pure fun _ ss hss => ?_) ?_
  · rw [Checked.mapM_nil_eq_ok.1 hss]
    exact .brace ht
  · refine .bind_behind ih.stmt fun r c => .last ih.untilBrace fun rs' c' hc' _ hc ss hss => ?_
    rcases body_cons_eq_ok hss with ⟨o, rfl, hss'⟩ | ⟨s, ss', rfl, hss', rfl⟩
    · obtain ⟨t, rfl, ht, -⟩ := hc
      exact .blockNothing ht (hc' ss hss')
    · exact .blockStmt (hc s rfl).1 (hc' ss' hss')

theorem takes_readDeclarator (ih : Sound n) :
    Takes (readDeclarator (n + 1)) (Checked.Fits .declarator) := by
  rw [readDeclarator]
  refine .accept fun t ht => .skip? (fun assign hassign => ?_) ?_
  · refine .last ih.expr fun init c hc _ d' hd' => ?_
    obtain ⟨e, he, hd'⟩ := Checked.bind_eq_ok.1 hd'
    rw [Checked.pure_eq_ok.1 hd']
    exact .declaratorInit ht hassign (hc.derives e he).1
  · refine .pure fun _ d' hd' => ?_
    rw [← Except.ok.inj hd']
    exact .declarator ht

theorem takes_readDeclarators (ih : Sound n) :
    Takes (readDeclarators (n + 1)) fun rs c =>
      ∀ ds, rs.mapM id = .ok ds → Derives (.declarators ds) c := by
  rw [readDeclarators]
  refine .bind ih.declarator fun d c hc => .skip? (fun comma hcomma => ?_) ?_
  · refine .last ih.declarators fun rs' c' hc' _ ds hds => ?_
    obtain ⟨d', ds', hd', hds', rfl⟩ := Checked.mapM_cons_eq_ok.1 hds
    exact .moreDeclarators hcomma (hc d' hd') (hc' ds' hds')
  · refine .pure fun _ ds hds => ?_
    obtain ⟨d', ds', hd', hds', rfl⟩ := Checked.mapM_cons_eq_ok.1 hds
    rw [Checked.mapM_nil_eq_ok.1 hds', List.append_nil]
    exact .lastDeclarator (hc d' hd')

theorem takes_readVariables (ih : Sound n) :
    Takes (readVariables (n + 1)) (Checked.Fits .declaration) := by
  rw [readVariables]
  refine .accept fun t ht => .bind ih.declarators fun rs c hc => .expect fun fin hfin => ?_
  refine .pure fun _ d' hd' => ?_
  obtain ⟨kind, hkind⟩ := Option.isSome_iff_exists.1 ht
  obtain ⟨ds, hds, hd'⟩ := Checked.bind_eq_ok.1 hd'
  rw [Checked.pure_eq_ok.1 hd', hkind, Option.getD_some]
  exact .variableDecl hkind hfin (hc ds hds)

theorem takes_readFunction (ih : Sound n) :
    Takes (readFunction (n + 1)) (Checked.Fits .declaration) := by
  rw [readFunction]
  refine .expect fun t ht => .accept fun f hf => .expect fun paren hparen => ?_
  refine .bind ((takes_accept TokenKind.isBindingName).items .rightParen false n)
    fun params ci hci => ?_
  refine .last ih.block fun b c hc _ d' hd' => ?_
  obtain ⟨b', hb', hd'⟩ := Checked.bind_eq_ok.1 hd'
  rw [Checked.pure_eq_ok.1 hd']
  have hmap : params.mapM (fun t => (.ok t.identifier : Checked Identifier))
      = .ok (params.map Token.identifier) := List.mapM_pure ..
  refine .functionDecl ht hf hparen (hci.mapM (fun p c' id hp hid => ?_) hmap) (hc b' hb')
  exact ⟨p, hp.2, (Except.ok.inj hid).symm, hp.1⟩

/-! ### Statements -/

theorem takes_readExport (ih : Sound n) {t : Token} (ht : t.kind = .exportWord) :
    Takes (readExport (n + 1) t.origin) fun s c => Checked.Fits .stmt s (t :: c) := by
  have hdeclaration {x : Parse (Checked Declaration)} (hx : Takes x (Checked.Fits .declaration)) :
      Takes (x >>= fun d => pure (d >>= fun d => pure (Stmt.exportDecl d t.origin))) fun s c =>
        Checked.Fits .stmt s (t :: c) := by
    refine .last hx fun d c hc _ s' hs' => ?_
    obtain ⟨d', hd', hs'⟩ := Checked.bind_eq_ok.1 hs'
    rw [Checked.pure_eq_ok.1 hs']
    exact .exportDecl ht (hc d' hd')
  rw [readExport]
  refine .peek fun next => ?_
  split
  · exact .expect fun brace hbrace => takes_readExportList ht hbrace n
  · exact .expect fun star hstar => takes_readExportAll ht hstar
  · exact hdeclaration ih.functionDecl
  · refine .expect fun default hdefault =>
      .bind ih.expr fun value c hc => .expect fun fin hfin => ?_
    refine .pure fun _ s' hs' => ?_
    obtain ⟨e, he, hs'⟩ := Checked.bind_eq_ok.1 hs'
    rw [Checked.pure_eq_ok.1 hs']
    exact .exportDefault ht hdefault hfin (hc.derives e he).1
  · exact hdeclaration ih.variableDecl

/-- The reader looks for an alternative, so where it takes none there is none. -/
theorem reads_readElse (ih : Sound n) :
    Reads (readElse (n + 1)) fun a c rest => match a with
      | none => c = [] ∧ rest.head?.map (·.kind) ≠ some .elseWord
      | some a => ∃ t c', c = t :: c' ∧ t.kind = .elseWord ∧ a.Fits c' rest := by
  intro ts a rest h
  rw [readElse, skip?_bind_eq_ok] at h
  rcases h with ⟨t, mid, rfl, ht, h⟩ | ⟨hne, h⟩
  · obtain ⟨r, mid', hr, hend⟩ := bind_eq_ok.1 h
    obtain ⟨c, rfl, hc⟩ := ih.stmt _ _ _ hr
    obtain ⟨rfl, rfl⟩ := pure_eq_ok.1 hend
    exact ⟨t :: c, rfl, t, c, rfl, ht, hc⟩
  · obtain ⟨rfl, rfl⟩ := pure_eq_ok.1 h
    exact ⟨[], rfl, rfl, hne⟩

/-- A choice takes the nearest alternative. -/
theorem choice_fits {e : Reading} {s : ReadStmt} {a : Option ReadStmt} {c cs ca rest : List Token}
    {t paren close : Token} (ht : t.kind = .ifWord) (hparen : paren.kind = .leftParen)
    (hclose : close.kind = .rightParen) (he : e.Fits .expr c) (hs : s.Fits cs (ca ++ rest))
    (ha : match a with
      | none => ca = [] ∧ rest.head?.map (·.kind) ≠ some .elseWord
      | some a => ∃ t c', ca = t :: c' ∧ t.kind = .elseWord ∧ a.Fits c' rest) :
    (ReadStmt.stmt (readChoice t.origin e s a)).Fits
      (t :: paren :: (c ++ close :: (cs ++ ca))) rest := by
  intro s' hs'
  obtain ⟨e', he', hs'⟩ := Checked.bind_eq_ok.1 hs'
  obtain ⟨c', hc', hs'⟩ := Checked.bind_eq_ok.1 hs'
  obtain ⟨hbranch, hopen⟩ := hs.branch hc'
  cases a with
  | none =>
    obtain ⟨rfl, hne⟩ := ha
    rw [Checked.pure_eq_ok.1 hs', List.append_nil]
    exact ⟨.ifThen ht hparen hclose (he.derives e' he').1 hbranch, fun _ => hne⟩
  | some a =>
    obtain ⟨other, ca', rfl, hother, hfits⟩ := ha
    obtain ⟨a', ha', hs'⟩ := Checked.bind_eq_ok.1 hs'
    obtain ⟨halternate, haopen⟩ := hfits.branch ha'
    rw [Checked.pure_eq_ok.1 hs']
    have hclosed : c'.isOpen = false := by
      rw [Bool.eq_false_iff]
      exact fun hc => hopen hc (congrArg some hother)
    exact ⟨.ifElse ht hparen hclose hother hclosed (he.derives e' he').1 hbranch halternate,
      haopen⟩

/-- Only a choice ends in a choice without an alternative. -/
theorem isOpen_eq_false {s : Stmt} {t : Token} {c : List Token} (h : Derives (.stmt s) (t :: c))
    (ht : t.kind ≠ .ifWord) : s.isOpen = false := by
  generalize hts : t :: c = ts at h
  cases s with
  | ifThen e s a o =>
    cases h with
    | ifThen ht' => exact absurd ((List.cons.inj hts).1 ▸ ht') ht
    | ifElse ht' => exact absurd ((List.cons.inj hts).1 ▸ ht') ht
  | _ => rfl

theorem reads_readStmt (ih : Sound n) : Reads (readStmt (n + 1)) ReadStmt.Fits := by
  rw [readStmt]
  refine .peek fun next => ?_
  split
  · exact .expect fun t ht => .pure fun _ => ⟨t, rfl, ht, rfl⟩
  · refine .expect fun t ht => .last (takes_readImport ht n) fun s c hc _ => .plain fun s' hs' => ?_
    exact ⟨hc s' hs', isOpen_eq_false (hc s' hs') (by simp [ht])⟩
  · refine .expect fun t ht => .last (ih.exported t ht) fun s c hc _ => .plain fun s' hs' => ?_
    exact ⟨hc s' hs', isOpen_eq_false (hc s' hs') (by simp [ht])⟩
  · exact .last ih.functionDecl fun d c hc _ => .declaration hc
  · exact .last ih.variableDecl fun d c hc _ => .declaration hc
  · exact .last ih.variableDecl fun d c hc _ => .declaration hc
  · exact .last ih.variableDecl fun d c hc _ => .declaration hc
  · refine .last ih.block fun b c hc _ => .plain fun s' hs' => ?_
    obtain ⟨b', hb', rfl⟩ := Checked.map_eq_ok.1 hs'
    exact ⟨.blockStatement (hc b' hb'), rfl⟩
  · refine .expect fun t ht => .skip? (fun fin hfin => .pure fun _ => .plain fun s' hs' => ?_) ?_
    · rw [← Except.ok.inj hs']
      exact ⟨.returnNothing ht hfin, rfl⟩
    · refine .bind ih.expr fun value c hc => .expect fun fin hfin => ?_
      refine .pure fun _ => .plain fun s' hs' => ?_
      obtain ⟨e, he, rfl⟩ := Checked.map_eq_ok.1 hs'
      exact ⟨.returnValue ht hfin (hc.derives e he).1, rfl⟩
  · -- whether the branch may stand there is known only behind the alternative
    refine .expect fun t ht => .expect fun paren hparen => .bind ih.expr fun test c hc => ?_
    refine .expect fun close hclose => .bind_behind ih.stmt fun s cs => ?_
    refine .bind_behind ih.alternate fun a ca => .pure fun rest ha hs => ?_
    rw [List.append_nil] at hs ⊢
    exact choice_fits ht hparen hclose hc hs ha
  · refine .bind ih.expr fun value c hc => .expect fun fin hfin => ?_
    refine .pure fun _ => .plain fun s' hs' => ?_
    obtain ⟨e, he, rfl⟩ := Checked.map_eq_ok.1 hs'
    obtain ⟨hd, ho⟩ := hc.derives e he
    rw [← ho]
    exact ⟨.exprStatement hfin hd, rfl⟩

end Sound

/-- **Every reader takes what derives its result**, at every bound. -/
theorem sound (n : Nat) : Sound n := by
  induction n with
  | zero =>
    constructor
    case operators => exact fun l left c _ => .tooDeep
    case suffixes => exact fun left c _ => .tooDeep
    case binary => exact fun l => .tooDeep
    case exported => exact fun t _ => .tooDeep
    all_goals exact .tooDeep
  | succ n ih =>
    exact {
      expr := ih.takes_readExpr
      arrowBody := ih.takes_readArrowBody
      conditional := ih.takes_readConditional
      binary := ih.takes_readBinary
      operators := ih.takes_readOperators
      unary := ih.takes_readUnary
      suffixes := ih.takes_readSuffixes
      primary := ih.takes_readPrimary
      property := ih.takes_readProperty
      block := ih.takes_readBlock
      untilBrace := ih.takes_readUntilBrace
      declarator := ih.takes_readDeclarator
      declarators := ih.takes_readDeclarators
      variableDecl := ih.takes_readVariables
      functionDecl := ih.takes_readFunction
      exported := fun _ ht => ih.takes_readExport ht
      alternate := ih.reads_readElse
      stmt := ih.reads_readStmt }

/-! ### Modules -/

theorem takes_readStatements (n : Nat) :
    Reads (readStatements n) fun rs c rest =>
      rest = [] ∧ ∀ ss, ReadStmt.body rs = .ok ss → Derives (.body ss) c := by
  induction n with
  | zero => exact .tooDeep
  | succ n ih =>
    rw [readStatements]
    refine .peek_ahead fun next => ?_
    split
    · rename_i hnone
      refine .pure fun rest hnext => ?_
      have hnil : rest = [] := by
        rw [← hnext] at hnone
        simpa using hnone
      refine ⟨hnil, fun ss hss => ?_⟩
      rw [Checked.mapM_nil_eq_ok.1 hss]
      exact .noStmts
    · refine .bind_behind (sound n).stmt fun r c => .bind_behind ih fun rs' c' => ?_
      refine .pure fun rest ⟨hnil, hc'⟩ hc _ => ⟨hnil, fun ss hss => ?_⟩
      rw [List.append_nil]
      rcases Sound.body_cons_eq_ok hss with ⟨o, rfl, hss'⟩ | ⟨s, ss', rfl, hss', rfl⟩
      · obtain ⟨t, rfl, ht, -⟩ := hc
        exact .nothing ht (hc' ss hss')
      · exact .stmts (hc s rfl).1 (hc' ss' hss')

/-- **The tokens of a module derive its statements.** -/
theorem readTokens_derives {ts : Tokens} {ss : List Stmt} (h : readTokens ts = .ok ss) :
    ts.stop = none ∧ Derives (.body ss) ts.tokens := by
  rw [readTokens] at h
  split at h
  · rename_i rs rest hread hstop
    obtain ⟨c, hts, rfl, hc⟩ := takes_readStatements _ _ _ _ hread
    rw [List.append_nil] at hts
    exact ⟨hstop, hts ▸ hc ss h⟩
  · exact absurd h nofun
  · exact absurd h nofun

end MessageBinder
