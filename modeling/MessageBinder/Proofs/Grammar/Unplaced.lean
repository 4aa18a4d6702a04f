import MessageBinder.Proofs.Grammar.Completeness
import MessageBinder.Proofs.Printing.Plain
import MessageBinder.Proofs.Token.Lockstep

/-!
# Trees without their places

Two texts can write one module at different places. The *unplaced* tree has every node at the same
place and tells all else, so it tells modules apart exactly as far as their places do not matter.

The grammar never asks where a token stands, nor for the text of a terminator: tokens that show the
same derive trees that are the same without their places (`MessageBinder.Derives.retold`), and what
is read of them differs in nothing else (`MessageBinder.readTokens_of_shown`).
-/

namespace MessageBinder

mutual

/-- The expression without its places. -/
def Expr.unplaced : Expr → Expr
  | .name id => .name id.plain
  | .literal v raw _ => .literal v raw nowhere
  | .verbatim text _ => .verbatim text nowhere
  | .array es _ => .array (Expr.unplacedList es) nowhere
  | .object ps _ => .object (Property.unplacedList ps) nowhere
  | .member e p _ => .member e.unplaced p nowhere
  | .index e i _ => .index e.unplaced i.unplaced nowhere
  | .call f as _ => .call f.unplaced (Expr.unplacedList as) nowhere
  | .unary op e _ => .unary op e.unplaced nowhere
  | .binary op l r _ => .binary op l.unplaced r.unplaced nowhere
  | .conditional t c a _ => .conditional t.unplaced c.unplaced a.unplaced nowhere
  | .assign op t v _ => .assign op t.unplaced v.unplaced nowhere
  | .group e _ => .group e.unplaced nowhere
  | .arrow ids e _ => .arrow (ids.map Identifier.plain) e.unplaced nowhere
  | .arrowBlock ids b _ => .arrowBlock (ids.map Identifier.plain) b.unplaced nowhere

/-- The expressions without their places. -/
def Expr.unplacedList : List Expr → List Expr
  | [] => []
  | e :: es => e.unplaced :: Expr.unplacedList es

/-- The property without its places. -/
def Property.unplaced : Property → Property
  | ⟨key, value, shorthand, quoted, _⟩ => ⟨key, value.unplaced, shorthand, quoted, nowhere⟩

/-- The properties without their places. -/
def Property.unplacedList : List Property → List Property
  | [] => []
  | p :: ps => p.unplaced :: Property.unplacedList ps

/-- The variable without its places. -/
def Declarator.unplaced : Declarator → Declarator
  | ⟨id, none, _⟩ => ⟨id.plain, none, nowhere⟩
  | ⟨id, some e, _⟩ => ⟨id.plain, some e.unplaced, nowhere⟩

/-- The variables without their places. -/
def Declarator.unplacedList : List Declarator → List Declarator
  | [] => []
  | d :: ds => d.unplaced :: Declarator.unplacedList ds

/-- The block without its places. -/
def Block.unplaced : Block → Block
  | ⟨body, _⟩ => ⟨Stmt.unplacedList body, nowhere⟩

/-- The declaration without its places. -/
def Declaration.unplaced : Declaration → Declaration
  | .variables k ds _ => .variables k (Declarator.unplacedList ds) nowhere
  | .function f ids b _ => .function f.plain (ids.map Identifier.plain) b.unplaced nowhere

/-- The statement without its places. -/
def Stmt.unplaced : Stmt → Stmt
  | .importDecl ss s _ => .importDecl (ss.map ImportSpecifier.plain) s nowhere
  | .exportNamed ss s _ => .exportNamed (ss.map ExportSpecifier.plain) s nowhere
  | .exportAll s _ => .exportAll s nowhere
  | .exportDecl d _ => .exportDecl d.unplaced nowhere
  | .exportDefault e _ => .exportDefault e.unplaced nowhere
  | .declaration d => .declaration d.unplaced
  | .block b => .block b.unplaced
  | .returnValue none _ => .returnValue none nowhere
  | .returnValue (some e) _ => .returnValue (some e.unplaced) nowhere
  | .ifThen t c none _ => .ifThen t.unplaced c.unplaced none nowhere
  | .ifThen t c (some a) _ => .ifThen t.unplaced c.unplaced (some a.unplaced) nowhere
  | .expr e _ => .expr e.unplaced nowhere

/-- The statements without their places. -/
def Stmt.unplacedList : List Stmt → List Stmt
  | [] => []
  | s :: ss => s.unplaced :: Stmt.unplacedList ss

end

/-- The module without its places. -/
def Module.unplaced (m : Module) : Module := ⟨Stmt.unplacedList m.body, m.filename, 0⟩

theorem Expr.isTarget_unplaced (e : Expr) : e.unplaced.isTarget = e.isTarget := by
  cases e <;> simp only [Expr.unplaced, Expr.isTarget]

theorem Stmt.isOpen_unplaced : ∀ s : Stmt, s.unplaced.isOpen = s.isOpen
  | .ifThen _ _ (some a) _ => by
    simp only [Stmt.unplaced, Stmt.isOpen, Stmt.isOpen_unplaced a]
  | .ifThen _ _ none _ | .importDecl .. | .exportNamed .. | .exportAll .. | .exportDecl ..
  | .exportDefault .. | .declaration _ | .block _ | .returnValue none _ | .returnValue (some _) _
  | .expr .. => by simp only [Stmt.unplaced, Stmt.isOpen]

theorem Expr.isTarget_of_unplaced_eq {e e' : Expr} (h : e'.unplaced = e.unplaced) :
    e'.isTarget = e.isTarget := by
  rw [← Expr.isTarget_unplaced e', h, Expr.isTarget_unplaced]

theorem Stmt.isOpen_of_unplaced_eq {s s' : Stmt} (h : s'.unplaced = s.unplaced) :
    s'.isOpen = s.isOpen := by
  rw [← Stmt.isOpen_unplaced s', h, Stmt.isOpen_unplaced]

/-! ### Tokens that show the same -/

/-- The tokens show the same. -/
def Told (c c' : List Token) : Prop := c'.map Token.shown = c.map Token.shown

namespace Told

variable {c d c' : List Token} {t : Token}

theorem nil (h : Told [] c') : c' = [] := List.map_eq_nil_iff.1 h

theorem cons (h : Told (t :: c) c') :
    ∃ t' d', c' = t' :: d' ∧ t'.shown = t.shown ∧ Told c d' := List.map_eq_cons_iff.1 h

theorem append (h : Told (c ++ d) c') : ∃ e e', c' = e ++ e' ∧ Told c e ∧ Told d e' := by
  rw [Told, List.map_append] at h
  exact List.map_eq_append_iff.1 h

theorem join {d' : List Token} (h : Told c c') (h' : Told d d') : Told (c ++ d) (c' ++ d') := by
  unfold Told at h h' ⊢
  rw [List.map_append, List.map_append, h, h']

theorem singleton (h : Told [t] c') : ∃ t', c' = [t'] ∧ t'.shown = t.shown := by
  obtain ⟨t', d', rfl, ht, hd⟩ := h.cons
  obtain rfl := hd.nil
  exact ⟨t', rfl, ht⟩

/-- Items and the token behind them. -/
theorem snoc (h : Told (c ++ [t]) c') : ∃ e t', c' = e ++ [t'] ∧ Told c e ∧ t'.shown = t.shown := by
  obtain ⟨e, e', rfl, he, he'⟩ := h.append
  obtain ⟨t', rfl, ht⟩ := he'.singleton
  exact ⟨e, t', rfl, he, ht⟩

/-! What follows from tokens that show the same is passed to the parts of a row. -/

variable {Q R : List Token → Prop}

/-- A part behind another. -/
theorem both (h : Told (c ++ d) c') (hc : ∀ x, Told c x → Q x) (hd : ∀ y, Told d y → R y) :
    ∃ x y, c' = x ++ y ∧ Q x ∧ R y := by
  obtain ⟨x, y, rfl, hx, hy⟩ := h.append
  exact ⟨x, y, rfl, hc x hx, hd y hy⟩

/-- A part behind a token. -/
theorem first (h : Told (t :: c) c') (hc : ∀ x, Told c x → Q x) :
    ∃ t' x, c' = t' :: x ∧ t'.shown = t.shown ∧ Q x := by
  obtain ⟨t', x, rfl, ht, hx⟩ := h.cons
  exact ⟨t', x, rfl, ht, hc x hx⟩

/-- A part in front of a token. -/
theorem last (h : Told (c ++ [t]) c') (hc : ∀ x, Told c x → Q x) :
    ∃ x t', c' = x ++ [t'] ∧ Q x ∧ t'.shown = t.shown := by
  obtain ⟨x, t', rfl, hx, ht⟩ := h.snoc
  exact ⟨x, t', rfl, hc x hx, ht⟩

/-- Two parts with a token between them. -/
theorem between (h : Told (c ++ t :: d) c') (hc : ∀ x, Told c x → Q x)
    (hd : ∀ y, Told d y → R y) :
    ∃ x t' y, c' = x ++ t' :: y ∧ Q x ∧ t'.shown = t.shown ∧ R y := by
  obtain ⟨x, z, rfl, hx, hz⟩ := h.append
  obtain ⟨t', y, rfl, ht, hy⟩ := hz.cons
  exact ⟨x, t', y, rfl, hc x hx, ht, hd y hy⟩

end Told

namespace Token

variable {t t' : Token}

theorem text_of_kind {k : TokenKind} (h : t'.shown = t.shown) (hk : t.kind = k)
    (hne : k ≠ .terminator ∧ k ≠ .newline := by decide) : t'.text = t.text :=
  text_of_shown h (hk ▸ hne)

theorem text_of_test {q : TokenKind → Bool} (h : t'.shown = t.shown) (hq : q t.kind)
    (hne : q .terminator = false ∧ q .newline = false := by decide) : t'.text = t.text := by
  refine text_of_shown h ⟨fun hk => ?_, fun hk => ?_⟩
  · rw [hk, hne.1] at hq
    cases hq
  · rw [hk, hne.2] at hq
    cases hq

theorem identifier_plain_of_text (h : t'.text = t.text) :
    t'.identifier.plain = t.identifier.plain :=
  congrArg (fun text => (⟨text, nowhere⟩ : Identifier)) h

end Token

/-! ### Lists of names -/

section Lists

variable {α : Type} {item : α → List Token → Prop} {f : α → α} {close : TokenKind}
  {trailing : Bool} {xs : List α} {c c' : List Token}

theorem Items.retold (hitem : ∀ x c c', item x c → Told c c' → ∃ y, f y = f x ∧ item y c')
    (h : Items item close trailing xs c) (hc : Told c c') :
    ∃ ys, ys.map f = xs.map f ∧ Items item close trailing ys c' := by
  induction h generalizing c' with
  | last hx ht =>
    obtain ⟨d, t', rfl, hd, ht'⟩ := hc.snoc
    obtain ⟨y, hy, h⟩ := hitem _ _ _ hx hd
    exact ⟨[y], by simp [hy], .last h ((Token.kind_of_shown ht').trans ht)⟩
  | trailed hx hcomma ht htrailing =>
    obtain ⟨d, d', rfl, hd, hd'⟩ := hc.append
    obtain ⟨comma', e, rfl, hcomma', he⟩ := hd'.cons
    obtain ⟨t', rfl, ht'⟩ := he.singleton
    obtain ⟨y, hy, h⟩ := hitem _ _ _ hx hd
    exact ⟨[y], by simp [hy], .trailed h ((Token.kind_of_shown hcomma').trans hcomma)
      ((Token.kind_of_shown ht').trans ht) htrailing⟩
  | more hx hcomma _ ih =>
    obtain ⟨d, d', rfl, hd, hd'⟩ := hc.append
    obtain ⟨comma', e, rfl, hcomma', he⟩ := hd'.cons
    obtain ⟨y, hy, h⟩ := hitem _ _ _ hx hd
    obtain ⟨ys, hys, h'⟩ := ih he
    exact ⟨y :: ys, by simp [hy, hys],
      .more h ((Token.kind_of_shown hcomma').trans hcomma) h'⟩

theorem Listed.retold (hitem : ∀ x c c', item x c → Told c c' → ∃ y, f y = f x ∧ item y c')
    (h : Listed item close trailing xs c) (hc : Told c c') :
    ∃ ys, ys.map f = xs.map f ∧ Listed item close trailing ys c' := by
  rcases h with ⟨rfl, t, ht, rfl⟩ | h
  · obtain ⟨t', rfl, ht'⟩ := hc.singleton
    exact ⟨[], rfl, .inl ⟨rfl, t', (Token.kind_of_shown ht').trans ht, rfl⟩⟩
  · obtain ⟨ys, hys, h⟩ := h.retold hitem hc
    exact ⟨ys, hys, .inr h⟩

end Lists

theorem BindingToken.retold (id : Identifier) (c c' : List Token) (h : BindingToken id c)
    (hc : Told c c') : ∃ id', id'.plain = id.plain ∧ BindingToken id' c' := by
  obtain ⟨t, ht, rfl, rfl⟩ := h
  obtain ⟨t', rfl, ht'⟩ := hc.singleton
  exact ⟨t'.identifier, Token.identifier_plain_of_text (Token.text_of_test ht' ht), t',
    (Token.kind_of_shown ht').symm ▸ ht, rfl, rfl⟩

theorem ArrowParams.retold {ids : List Identifier} {c c' : List Token} (h : ArrowParams ids c)
    (hc : Told c c') :
    ∃ ids', ids'.map Identifier.plain = ids.map Identifier.plain ∧ ArrowParams ids' c' := by
  cases h with
  | name h =>
    obtain ⟨id, hid, h⟩ := h.retold _ _ _ hc
    exact ⟨[id], by simp [hid], .name h⟩
  | group ht h =>
    obtain ⟨t', d, rfl, ht', hd⟩ := hc.cons
    obtain ⟨ids', hids, h⟩ := h.retold BindingToken.retold hd
    exact ⟨ids', hids, .group ((Token.kind_of_shown ht').trans ht) h⟩

theorem StringToken.retold [CharacterNames] {s : CodeText} {t t' : Token} (h : StringToken s t)
    (ht : t'.shown = t.shown) : StringToken s t' :=
  ⟨(Token.kind_of_shown ht).trans h.1, by rw [Token.text_of_kind ht h.1]; exact h.2⟩

theorem NumberToken.retold {v : LiteralValue} {t t' : Token} (h : NumberToken v t)
    (ht : t'.shown = t.shown) : NumberToken v t' :=
  ⟨(Token.kind_of_shown ht).trans h.1, by rw [Token.text_of_kind ht h.1]; exact h.2⟩

theorem text_of_isExportName {t t' : Token} (h : t'.shown = t.shown) (hk : t.kind.isExportName) :
    t'.text = t.text := Token.text_of_test h hk

/-- The two names of an entry keep their kinds and their texts. -/
theorem AliasTokens.retold {admits : TokenKind → Bool} {t second : Token} {c c' : List Token}
    (hadmits : ∀ k, admits k → k.isExportName) (h : AliasTokens admits t second c)
    (hc : Told c c') :
    ∃ t' second', AliasTokens admits t' second' c' ∧ t'.text = t.text ∧
      second'.text = second.text ∧ t'.kind = t.kind ∧ second'.kind = second.kind := by
  obtain ⟨hexport, ⟨rfl, rfl⟩ | ⟨as, has, hsecond, rfl⟩⟩ := h
  · obtain ⟨t', rfl, ht'⟩ := hc.singleton
    have hk := Token.kind_of_shown ht'
    have htext := text_of_isExportName ht' hexport
    exact ⟨t', t', ⟨hk.symm ▸ hexport, .inl ⟨rfl, rfl⟩⟩, htext, htext, hk, hk⟩
  · obtain ⟨t', d, rfl, ht', hd⟩ := hc.cons
    obtain ⟨as', d', rfl, has', hd'⟩ := hd.cons
    obtain ⟨second', rfl, hsecond'⟩ := hd'.singleton
    have hk := Token.kind_of_shown ht'
    have hks := Token.kind_of_shown hsecond'
    exact ⟨t', second', ⟨hk.symm ▸ hexport, .inr ⟨as', (Token.kind_of_shown has').trans has,
      hks.symm ▸ hsecond, rfl⟩⟩, text_of_isExportName ht' hexport,
      text_of_isExportName hsecond' (hadmits _ hsecond), hk, hks⟩

theorem ImportTokens.retold (s : ImportSpecifier) (c c' : List Token) (h : ImportTokens s c)
    (hc : Told c c') : ∃ s', s'.plain = s.plain ∧ ImportTokens s' c' := by
  obtain ⟨t, second, halias, hne, rfl⟩ := h
  obtain ⟨t', second', halias', htext, hsecond, hk, hks⟩ :=
    halias.retold (fun k hk => by rw [TokenKind.isExportName, hk]; rfl) hc
  refine ⟨_, ?_, t', second', halias', hks.symm ▸ hne, rfl⟩
  simp only [ImportSpecifier.plain, htext, Token.identifier_plain_of_text hsecond]

theorem ExportTokens.retold (isLocal : Bool) (s : ExportSpecifier) (c c' : List Token)
    (h : ExportTokens isLocal s c) (hc : Told c c') :
    ∃ s', s'.plain = s.plain ∧ ExportTokens isLocal s' c' := by
  obtain ⟨t, second, halias, hne, rfl⟩ := h
  obtain ⟨t', second', halias', htext, hsecond, hk, hks⟩ := halias.retold (fun _ => id) hc
  refine ⟨_, ?_, t', second', halias', hk.symm ▸ hne, rfl⟩
  simp only [ExportSpecifier.plain, hsecond, Token.identifier_plain_of_text htext]

theorem ImportRest.retold {ss : List ImportSpecifier} {c c' : List Token} (h : ImportRest ss c)
    (hc : Told c c') :
    ∃ ss', ss'.map ImportSpecifier.plain = ss.map ImportSpecifier.plain ∧ ImportRest ss' c' := by
  cases h with
  | all hstar has ht =>
    obtain ⟨star', d, rfl, hstar', hd⟩ := hc.cons
    obtain ⟨as', d', rfl, has', hd'⟩ := hd.cons
    obtain ⟨t', rfl, ht'⟩ := hd'.singleton
    refine ⟨_, ?_, .all ((Token.kind_of_shown hstar').trans hstar)
      ((Token.kind_of_shown has').trans has) ((Token.kind_of_shown ht').trans ht)⟩
    simp only [List.map_cons, List.map_nil, ImportSpecifier.plain,
      Token.identifier_plain_of_text (Token.text_of_kind ht' ht)]
  | list ht h =>
    obtain ⟨t', d, rfl, ht', hd⟩ := hc.cons
    obtain ⟨ss', hss, h⟩ := h.retold ImportTokens.retold hd
    exact ⟨ss', hss, .list ((Token.kind_of_shown ht').trans ht) h⟩

theorem ImportClause.retold {ss : List ImportSpecifier} {c c' : List Token}
    (h : ImportClause ss c) (hc : Told c c') :
    ∃ ss', ss'.map ImportSpecifier.plain = ss.map ImportSpecifier.plain ∧ ImportClause ss' c' := by
  cases h with
  | default ht =>
    obtain ⟨t', rfl, ht'⟩ := hc.singleton
    refine ⟨_, ?_, .default ((Token.kind_of_shown ht').trans ht)⟩
    simp only [List.map_cons, List.map_nil, ImportSpecifier.plain,
      Token.identifier_plain_of_text (Token.text_of_kind ht' ht)]
  | both ht hcomma h =>
    obtain ⟨t', d, rfl, ht', hd⟩ := hc.cons
    obtain ⟨comma', d', rfl, hcomma', hd'⟩ := hd.cons
    obtain ⟨ss', hss, h⟩ := h.retold hd'
    refine ⟨_, ?_, .both ((Token.kind_of_shown ht').trans ht)
      ((Token.kind_of_shown hcomma').trans hcomma) h⟩
    simp only [List.map_cons, ImportSpecifier.plain, hss,
      Token.identifier_plain_of_text (Token.text_of_kind ht' ht)]
  | rest h =>
    obtain ⟨ss', hss, h⟩ := h.retold hc
    exact ⟨ss', hss, .rest h⟩

/-! ### Phrases -/

/-- The tokens derive a phrase that differs from the given one in places only. -/
def Phrase.Retold [CharacterNames] : Phrase → List Token → Prop
  | .expr e, c => ∃ e', e'.unplaced = e.unplaced ∧ Derives (.expr e') c
  | .choice e, c => ∃ e', e'.unplaced = e.unplaced ∧ Derives (.choice e') c
  | .operation n e, c => ∃ e', e'.unplaced = e.unplaced ∧ Derives (.operation n e') c
  | .operand e, c => ∃ e', e'.unplaced = e.unplaced ∧ Derives (.operand e') c
  | .suffixed e, c => ∃ e', e'.unplaced = e.unplaced ∧ Derives (.suffixed e') c
  | .primary e, c => ∃ e', e'.unplaced = e.unplaced ∧ Derives (.primary e') c
  | .exprs close trailing es, c => ∃ es', Expr.unplacedList es' = Expr.unplacedList es ∧
      Derives (.exprs close trailing es') c
  | .someExprs close trailing es, c => ∃ es', Expr.unplacedList es' = Expr.unplacedList es ∧
      Derives (.someExprs close trailing es') c
  | .property p, c => ∃ p', p'.unplaced = p.unplaced ∧ Derives (.property p') c
  | .properties ps, c => ∃ ps', Property.unplacedList ps' = Property.unplacedList ps ∧
      Derives (.properties ps') c
  | .someProperties ps, c => ∃ ps', Property.unplacedList ps' = Property.unplacedList ps ∧
      Derives (.someProperties ps') c
  | .block b, c => ∃ b', b'.unplaced = b.unplaced ∧ Derives (.block b') c
  | .untilBrace ss, c => ∃ ss', Stmt.unplacedList ss' = Stmt.unplacedList ss ∧
      Derives (.untilBrace ss') c
  | .declarator d, c => ∃ d', d'.unplaced = d.unplaced ∧ Derives (.declarator d') c
  | .declarators ds, c => ∃ ds', Declarator.unplacedList ds' = Declarator.unplacedList ds ∧
      Derives (.declarators ds') c
  | .declaration d, c => ∃ d', d'.unplaced = d.unplaced ∧ Derives (.declaration d') c
  | .stmt s, c => ∃ s', s'.unplaced = s.unplaced ∧ Derives (.stmt s') c
  | .branch s, c => ∃ s', s'.unplaced = s.unplaced ∧ Derives (.branch s') c
  | .body ss, c => ∃ ss', Stmt.unplacedList ss' = Stmt.unplacedList ss ∧ Derives (.body ss') c

/-- **Tokens that show the same derive the same**, but for places. -/
theorem Derives.retold [CharacterNames] {p : Phrase} {c : List Token} (h : Derives p c) :
    ∀ c', Told c c' → p.Retold c' := by
  -- a token keeps its kind, and with it what rules ask of the kind
  have same : ∀ {t t' : Token} {k : TokenKind}, t'.shown = t.shown → t.kind = k → t'.kind = k :=
    fun h hk => (Token.kind_of_shown h).trans hk
  have keep : ∀ {t t' : Token} {q : TokenKind → Bool}, t'.shown = t.shown → q t.kind →
      q t'.kind := fun h hq => (Token.kind_of_shown h).symm ▸ hq
  induction h with
  -- expressions
  | exprChoice _ ih => exact fun c' hc => (ih c' hc).imp fun _ => .imp_right .exprChoice
  | arrow hids _ ht _ ih =>
    intro c' hc
    obtain ⟨x, t', y, rfl, ⟨ids', hids', hparams⟩, ht', e', he', h⟩ :=
      hc.between (fun _ => hids.retold) ih
    obtain ⟨first', rest, rfl, -⟩ := hparams.starts
    exact ⟨_, by simp only [Expr.unplaced, hids', he'], .arrow hparams rfl (same ht' ht) h⟩
  | arrowBlock hids _ ht _ ih =>
    intro c' hc
    obtain ⟨x, t', y, rfl, ⟨ids', hids', hparams⟩, ht', b', hb', h⟩ :=
      hc.between (fun _ => hids.retold) ih
    obtain ⟨first', rest, rfl, -⟩ := hparams.starts
    exact ⟨_, by simp only [Expr.unplaced, hids', hb'], .arrowBlock hparams rfl (same ht' ht) h⟩
  | assign hop htarget _ _ ih ih' =>
    intro c' hc
    obtain ⟨x, op', y, rfl, ⟨target', ht', h⟩, hop', value', hv', h'⟩ := hc.between ih ih'
    exact ⟨_, by simp only [Expr.unplaced, ht', hv', Token.text_of_test hop' hop],
      .assign (keep hop' hop) (by rw [Expr.isTarget_of_unplaced_eq ht']; exact htarget) h h'⟩
  | choiceOperation _ ih => exact fun c' hc => (ih c' hc).imp fun _ => .imp_right .choiceOperation
  | conditional hquestion hcolon _ _ _ iht ihc iha =>
    intro c' hc
    obtain ⟨x, question', y, rfl, ⟨t', ht', h⟩, hquestion', z, colon', w, rfl, ⟨e', he', h'⟩,
      hcolon', a', ha', h''⟩ := hc.between iht fun _ hy => hy.between ihc iha
    exact ⟨_, by simp only [Expr.unplaced, ht', he', ha'],
      .conditional (same hquestion' hquestion) (same hcolon' hcolon) h h' h''⟩
  | operationOperand _ ih => exact fun c' hc => (ih c' hc).imp fun _ => .imp_right .operationOperand
  | operationTighter _ ih => exact fun c' hc => (ih c' hc).imp fun _ => .imp_right .operationTighter
  | @binary n l r c d op hop _ _ ih ih' =>
    intro c' hc
    obtain ⟨x, op', y, rfl, ⟨l', hl', h⟩, hop', r', hr', h'⟩ := hc.between ih ih'
    have htext : op'.text = op.text :=
      Token.text_of_test (q := fun k => k.looseness?.isSome) hop' (by rw [hop]; rfl)
    exact ⟨_, by simp only [Expr.unplaced, hl', hr', htext],
      .binary ((Token.kind_of_shown hop').symm ▸ hop) h h'⟩
  | operandSuffixed _ ih => exact fun c' hc => (ih c' hc).imp fun _ => .imp_right .operandSuffixed
  | unary hop _ ih =>
    intro c' hc
    obtain ⟨op', x, rfl, hop', e, he, h⟩ := hc.first ih
    exact ⟨_, by simp only [Expr.unplaced, he, Token.text_of_test hop' hop],
      .unary (keep hop' hop) h⟩
  | suffixedPrimary _ ih => exact fun c' hc => (ih c' hc).imp fun _ => .imp_right .suffixedPrimary
  | member hdot ht _ ih =>
    intro c' hc
    obtain ⟨x, dot', y, rfl, ⟨e, he, h⟩, hdot', t', rfl, ht'⟩ :=
      hc.between ih fun _ => Told.singleton
    exact ⟨_, by simp only [Expr.unplaced, he, Token.text_of_kind ht' ht],
      .member (same hdot' hdot) (same ht' ht) h⟩
  | index ht ht₂ _ _ ih ih' =>
    intro c' hc
    obtain ⟨x, t', y, rfl, ⟨e, he, h⟩, ht', z, t₂', rfl, ⟨i, hi, h'⟩, ht₂'⟩ :=
      hc.between ih fun _ hy => hy.last ih'
    exact ⟨_, by simp only [Expr.unplaced, he, hi],
      .index (same ht' ht) (same ht₂' ht₂) h h'⟩
  | call ht _ _ ih ih' =>
    intro c' hc
    obtain ⟨x, t', y, rfl, ⟨f, hf, h⟩, ht', as, has, h'⟩ := hc.between ih ih'
    exact ⟨_, by simp only [Expr.unplaced, hf, has], .call (same ht' ht) h h'⟩
  | string ht =>
    intro c' hc
    obtain ⟨t', rfl, ht'⟩ := hc.singleton
    exact ⟨_, by simp only [Expr.unplaced, Token.text_of_kind ht' ht.1],
      .string (ht.retold ht')⟩
  | number ht =>
    intro c' hc
    obtain ⟨t', rfl, ht'⟩ := hc.singleton
    exact ⟨_, by simp only [Expr.unplaced, Token.text_of_kind ht' ht.1],
      .number (ht.retold ht')⟩
  | @truth t b ht =>
    intro c' hc
    obtain ⟨t', rfl, ht'⟩ := hc.singleton
    have htext : t'.text = t.text := Token.text_of_kind ht' ht (by cases b <;> decide)
    exact ⟨_, by simp only [Expr.unplaced, htext], .truth (same ht' ht)⟩
  | null ht =>
    intro c' hc
    obtain ⟨t', rfl, ht'⟩ := hc.singleton
    exact ⟨_, by simp only [Expr.unplaced, Token.text_of_kind ht' ht], .null (same ht' ht)⟩
  | name ht =>
    intro c' hc
    obtain ⟨t', rfl, ht'⟩ := hc.singleton
    exact ⟨_, by
      simp only [Expr.unplaced, Token.identifier_plain_of_text (Token.text_of_test ht' ht)],
      .name (keep ht' ht)⟩
  | array ht _ ih =>
    intro c' hc
    obtain ⟨t', x, rfl, ht', es, hes, h⟩ := hc.first ih
    exact ⟨_, by simp only [Expr.unplaced, hes], .array (same ht' ht) h⟩
  | object ht _ ih =>
    intro c' hc
    obtain ⟨t', x, rfl, ht', ps, hps, h⟩ := hc.first ih
    exact ⟨_, by simp only [Expr.unplaced, hps], .object (same ht' ht) h⟩
  | group ht ht₂ _ ih =>
    intro c' hc
    obtain ⟨t', x, rfl, ht', y, t₂', rfl, ⟨e, he, h⟩, ht₂'⟩ := hc.first fun _ hx => hx.last ih
    exact ⟨_, by simp only [Expr.unplaced, he], .group (same ht' ht) (same ht₂' ht₂) h⟩
  -- lists of expressions
  | noExprs ht =>
    intro c' hc
    obtain ⟨t', rfl, ht'⟩ := hc.singleton
    exact ⟨[], rfl, .noExprs (same ht' ht)⟩
  | exprsSome _ ih => exact fun c' hc => (ih c' hc).imp fun _ => .imp_right .exprsSome
  | lastExpr ht _ ih =>
    intro c' hc
    obtain ⟨x, t', rfl, ⟨e, he, h⟩, ht'⟩ := hc.last ih
    exact ⟨[e], by simp only [Expr.unplacedList, he], .lastExpr (same ht' ht) h⟩
  | trailedExpr hcomma ht _ ih =>
    intro c' hc
    obtain ⟨x, comma', y, rfl, ⟨e, he, h⟩, hcomma', t', rfl, ht'⟩ :=
      hc.between ih fun _ => Told.singleton
    exact ⟨[e], by simp only [Expr.unplacedList, he],
      .trailedExpr (same hcomma' hcomma) (same ht' ht) h⟩
  | moreExprs hcomma _ _ ih ih' =>
    intro c' hc
    obtain ⟨x, comma', y, rfl, ⟨e, he, h⟩, hcomma', es, hes, h'⟩ := hc.between ih ih'
    exact ⟨e :: es, by simp only [Expr.unplacedList, he, hes],
      .moreExprs (same hcomma' hcomma) h h'⟩
  -- properties
  | quotedProperty ht hcolon _ ih =>
    intro c' hc
    obtain ⟨t', x, rfl, ht', colon', y, rfl, hcolon', v, hv, h⟩ := hc.first fun _ hx => hx.first ih
    exact ⟨_, by simp only [Property.unplaced, hv],
      .quotedProperty (ht.retold ht') (same hcolon' hcolon) h⟩
  | property ht hcolon _ ih =>
    intro c' hc
    obtain ⟨t', x, rfl, ht', colon', y, rfl, hcolon', v, hv, h⟩ := hc.first fun _ hx => hx.first ih
    exact ⟨_, by simp only [Property.unplaced, hv, Token.text_of_test ht' ht],
      .property (keep ht' ht) (same hcolon' hcolon) h⟩
  | shortProperty ht =>
    intro c' hc
    obtain ⟨t', rfl, ht'⟩ := hc.singleton
    have htext := Token.text_of_test ht' ht
    exact ⟨_, by simp only [Property.unplaced, Expr.unplaced, htext,
      Token.identifier_plain_of_text htext], .shortProperty (keep ht' ht)⟩
  | noProperties ht =>
    intro c' hc
    obtain ⟨t', rfl, ht'⟩ := hc.singleton
    exact ⟨[], rfl, .noProperties (same ht' ht)⟩
  | propertiesSome _ ih => exact fun c' hc => (ih c' hc).imp fun _ => .imp_right .propertiesSome
  | lastProperty ht _ ih =>
    intro c' hc
    obtain ⟨x, t', rfl, ⟨p, hp, h⟩, ht'⟩ := hc.last ih
    exact ⟨[p], by simp only [Property.unplacedList, hp], .lastProperty (same ht' ht) h⟩
  | trailedProperty hcomma ht _ ih =>
    intro c' hc
    obtain ⟨x, comma', y, rfl, ⟨p, hp, h⟩, hcomma', t', rfl, ht'⟩ :=
      hc.between ih fun _ => Told.singleton
    exact ⟨[p], by simp only [Property.unplacedList, hp],
      .trailedProperty (same hcomma' hcomma) (same ht' ht) h⟩
  | moreProperties hcomma _ _ ih ih' =>
    intro c' hc
    obtain ⟨x, comma', y, rfl, ⟨p, hp, h⟩, hcomma', ps, hps, h'⟩ := hc.between ih ih'
    exact ⟨p :: ps, by simp only [Property.unplacedList, hp, hps],
      .moreProperties (same hcomma' hcomma) h h'⟩
  -- blocks
  | block ht _ ih =>
    intro c' hc
    obtain ⟨t', x, rfl, ht', ss, hss, h⟩ := hc.first ih
    exact ⟨_, by simp only [Block.unplaced, hss], .block (same ht' ht) h⟩
  | brace ht =>
    intro c' hc
    obtain ⟨t', rfl, ht'⟩ := hc.singleton
    exact ⟨[], rfl, .brace (same ht' ht)⟩
  | blockNothing ht _ ih =>
    intro c' hc
    obtain ⟨t', x, rfl, ht', ss, hss, h⟩ := hc.first ih
    exact ⟨ss, hss, .blockNothing (same ht' ht) h⟩
  | blockStmt _ _ ih ih' =>
    intro c' hc
    obtain ⟨x, y, rfl, ⟨s, hs, h⟩, ss, hss, h'⟩ := hc.both ih ih'
    exact ⟨s :: ss, by simp only [Stmt.unplacedList, hs, hss], .blockStmt h h'⟩
  -- declarations
  | declarator ht =>
    intro c' hc
    obtain ⟨t', rfl, ht'⟩ := hc.singleton
    exact ⟨_, by
      simp only [Declarator.unplaced, Token.identifier_plain_of_text (Token.text_of_test ht' ht)],
      .declarator (keep ht' ht)⟩
  | declaratorInit ht hassign _ ih =>
    intro c' hc
    obtain ⟨t', x, rfl, ht', assign', y, rfl, hassign', e, he, h⟩ :=
      hc.first fun _ hx => hx.first ih
    exact ⟨_, by simp only [Declarator.unplaced, he,
      Token.identifier_plain_of_text (Token.text_of_test ht' ht)],
      .declaratorInit (keep ht' ht) (same hassign' hassign) h⟩
  | lastDeclarator _ ih =>
    intro c' hc
    obtain ⟨d, hd, h⟩ := ih c' hc
    exact ⟨[d], by simp only [Declarator.unplacedList, hd], .lastDeclarator h⟩
  | moreDeclarators hcomma _ _ ih ih' =>
    intro c' hc
    obtain ⟨x, comma', y, rfl, ⟨d, hd, h⟩, hcomma', ds, hds, h'⟩ := hc.between ih ih'
    exact ⟨d :: ds, by simp only [Declarator.unplacedList, hd, hds],
      .moreDeclarators (same hcomma' hcomma) h h'⟩
  | variableDecl ht hfin _ ih =>
    intro c' hc
    obtain ⟨t', x, rfl, ht', y, fin', rfl, ⟨ds, hds, h⟩, hfin'⟩ := hc.first fun _ hx => hx.last ih
    exact ⟨_, by simp only [Declaration.unplaced, hds],
      .variableDecl ((Token.kind_of_shown ht').symm ▸ ht) (same hfin' hfin) h⟩
  | functionDecl ht hf hparen hids _ ih =>
    intro c' hc
    obtain ⟨t', x, rfl, ht', f', y, rfl, hf', paren', z, rfl, hparen', u, v, rfl,
      ⟨ids', hids', hlist⟩, b, hb, h⟩ := hc.first fun _ hx => hx.first fun _ hy => hy.first
        fun _ hz => hz.both (fun _ => hids.retold BindingToken.retold) ih
    exact ⟨_, by simp only [Declaration.unplaced, hids', hb,
      Token.identifier_plain_of_text (Token.text_of_test hf' hf)],
      .functionDecl (same ht' ht) (keep hf' hf) (same hparen' hparen) hlist h⟩
  -- statements
  | importBare ht hsource hfin =>
    intro c' hc
    obtain ⟨t', x, rfl, ht', source', y, rfl, hsource', fin', rfl, hfin'⟩ :=
      hc.first fun _ hx => hx.first fun _ => Told.singleton
    exact ⟨_, by simp only [Stmt.unplaced],
      .importBare (same ht' ht) (hsource.retold hsource') (same hfin' hfin)⟩
  | importNames ht hclause hfrom hsource hfin =>
    intro c' hc
    obtain ⟨t', x, rfl, ht', y, from', z, rfl, ⟨ss, hss, h⟩, hfrom', source', w, rfl, hsource',
      fin', rfl, hfin'⟩ := hc.first fun _ hx => hx.between (fun _ => hclause.retold)
        fun _ hz => hz.first fun _ => Told.singleton
    exact ⟨_, by simp only [Stmt.unplaced, hss],
      .importNames (same ht' ht) h (same hfrom' hfrom) (hsource.retold hsource')
        (same hfin' hfin)⟩
  | exportLocal ht hbrace hlist hfin =>
    intro c' hc
    obtain ⟨t', x, rfl, ht', brace', y, rfl, hbrace', z, fin', rfl, ⟨ss, hss, h⟩, hfin'⟩ :=
      hc.first fun _ hx => hx.first fun _ hy => hy.last
        fun _ => hlist.retold (ExportTokens.retold true)
    exact ⟨_, by simp only [Stmt.unplaced, hss],
      .exportLocal (same ht' ht) (same hbrace' hbrace) h (same hfin' hfin)⟩
  | exportFrom ht hbrace hlist hfrom hsource hfin =>
    intro c' hc
    obtain ⟨t', x, rfl, ht', brace', y, rfl, hbrace', z, from', w, rfl, ⟨ss, hss, h⟩, hfrom',
      source', v, rfl, hsource', fin', rfl, hfin'⟩ := hc.first fun _ hx => hx.first fun _ hy =>
        hy.between (fun _ => hlist.retold (ExportTokens.retold false))
        fun _ hw => hw.first fun _ => Told.singleton
    exact ⟨_, by simp only [Stmt.unplaced, hss],
      .exportFrom (same ht' ht) (same hbrace' hbrace) h (same hfrom' hfrom)
        (hsource.retold hsource') (same hfin' hfin)⟩
  | exportAll ht hstar hfrom hsource hfin =>
    intro c' hc
    obtain ⟨t', x, rfl, ht', star', y, rfl, hstar', from', z, rfl, hfrom', source', w, rfl,
      hsource', fin', rfl, hfin'⟩ := hc.first fun _ hx => hx.first fun _ hy => hy.first fun _ hz =>
        hz.first fun _ => Told.singleton
    exact ⟨_, by simp only [Stmt.unplaced], .exportAll (same ht' ht) (same hstar' hstar)
      (same hfrom' hfrom) (hsource.retold hsource') (same hfin' hfin)⟩
  | exportDecl ht _ ih =>
    intro c' hc
    obtain ⟨t', x, rfl, ht', d, hd, h⟩ := hc.first ih
    exact ⟨_, by simp only [Stmt.unplaced, hd], .exportDecl (same ht' ht) h⟩
  | exportDefault ht hdefault hfin _ ih =>
    intro c' hc
    obtain ⟨t', x, rfl, ht', default', y, rfl, hdefault', z, fin', rfl, ⟨e, he, h⟩, hfin'⟩ :=
      hc.first fun _ hx => hx.first fun _ hy => hy.last ih
    exact ⟨_, by simp only [Stmt.unplaced, he],
      .exportDefault (same ht' ht) (same hdefault' hdefault) (same hfin' hfin) h⟩
  | declaration _ ih =>
    intro c' hc
    obtain ⟨d, hd, h⟩ := ih c' hc
    exact ⟨_, by simp only [Stmt.unplaced, hd], .declaration h⟩
  | blockStatement _ ih =>
    intro c' hc
    obtain ⟨b, hb, h⟩ := ih c' hc
    exact ⟨_, by simp only [Stmt.unplaced, hb], .blockStatement h⟩
  | returnNothing ht hfin =>
    intro c' hc
    obtain ⟨t', x, rfl, ht', fin', rfl, hfin'⟩ := hc.first fun _ => Told.singleton
    exact ⟨_, by simp only [Stmt.unplaced], .returnNothing (same ht' ht) (same hfin' hfin)⟩
  | returnValue ht hfin _ ih =>
    intro c' hc
    obtain ⟨t', x, rfl, ht', y, fin', rfl, ⟨e, he, h⟩, hfin'⟩ := hc.first fun _ hx => hx.last ih
    exact ⟨_, by simp only [Stmt.unplaced, he],
      .returnValue (same ht' ht) (same hfin' hfin) h⟩
  | ifThen ht hparen hclose _ _ ih ihs =>
    intro c' hc
    obtain ⟨t', x, rfl, ht', paren', y, rfl, hparen', z, close', w, rfl, ⟨e, he, h⟩, hclose',
      s, hs, h'⟩ := hc.first fun _ hx => hx.first fun _ hy => hy.between ih ihs
    exact ⟨_, by simp only [Stmt.unplaced, he, hs],
      .ifThen (same ht' ht) (same hparen' hparen) (same hclose' hclose) h h'⟩
  | ifElse ht hparen hclose hother hopen _ _ _ ih ihs iha =>
    intro c' hc
    obtain ⟨t', x, rfl, ht', paren', y, rfl, hparen', z, close', w, rfl, ⟨e, he, h⟩, hclose',
      u, other', v, rfl, ⟨s, hs, h'⟩, hother', a, ha, h''⟩ := hc.first fun _ hx => hx.first
        fun _ hy => hy.between ih fun _ hw => hw.between ihs iha
    exact ⟨_, by simp only [Stmt.unplaced, he, hs, ha],
      .ifElse (same ht' ht) (same hparen' hparen) (same hclose' hclose) (same hother' hother)
        ((Stmt.isOpen_of_unplaced_eq hs).trans hopen) h h' h''⟩
  | exprStatement hfin _ ih =>
    intro c' hc
    obtain ⟨x, fin', rfl, ⟨e, he, h⟩, hfin'⟩ := hc.last ih
    exact ⟨_, by simp only [Stmt.unplaced, he], .exprStatement (same hfin' hfin) h⟩
  | branchStmt _ ih => exact fun c' hc => (ih c' hc).imp fun _ => .imp_right .branchStmt
  | branchNothing ht =>
    intro c' hc
    obtain ⟨t', rfl, ht'⟩ := hc.singleton
    exact ⟨_, by simp only [Stmt.unplaced, Block.unplaced], .branchNothing (same ht' ht)⟩
  -- modules
  | noStmts =>
    intro c' hc
    obtain rfl := hc.nil
    exact ⟨[], rfl, .noStmts⟩
  | nothing ht _ ih =>
    intro c' hc
    obtain ⟨t', x, rfl, ht', ss, hss, h⟩ := hc.first ih
    exact ⟨ss, hss, .nothing (same ht' ht) h⟩
  | stmts _ _ ih ih' =>
    intro c' hc
    obtain ⟨x, y, rfl, ⟨s, hs, h⟩, ss, hss, h'⟩ := hc.both ih ih'
    exact ⟨s :: ss, by simp only [Stmt.unplacedList, hs, hss], .stmts h h'⟩

/-- **Tokens that show the same are read as the same**, but for places. -/
theorem readTokens_of_shown [CharacterNames] {ts ts' : Tokens} {ss : List Stmt}
    (h : readTokens ts = .ok ss) (htokens : ts'.tokens.map Token.shown = ts.tokens.map Token.shown)
    (hstop : ts'.stop = none) :
    ∃ ss', readTokens ts' = .ok ss' ∧ Stmt.unplacedList ss' = Stmt.unplacedList ss := by
  obtain ⟨ss', hss, h'⟩ := (readTokens_derives h).2.retold _ htokens
  exact ⟨ss', readTokens_eq_ok_iff.2 ⟨hstop, h'⟩, hss⟩

end MessageBinder
