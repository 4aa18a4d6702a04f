import MessageBinder.Proofs.Printing.Plain
import MessageBinder.Proofs.Token.Settled

/-!
# Trees that can be printed

Not every tree is the tree of a text: the printer adds no parentheses, so a sum must not stand as
the operand of a product, and a name must be one. `MessageBinder.Printable` is the grammar of trees:
it says of a phrase that it is one without saying which tokens write it. Three rules look further.
An expression that is a statement or the body of an arrow function must not start with a brace,
which would open a block; the alternative of a choice must not be the alternative of the choice
inside; and a name must have the form of one.

What a text is read as can be printed (`MessageBinder.Derives.printable`).
-/

namespace MessageBinder

/-! ### Names -/

/-- A name that can be bound. -/
def IsBindingName (s : String) : Prop := IsName s.toList ∧ (TokenKind.ofWord s).isBindingName

/-- A name under which something can be exported. -/
def IsExportName (s : String) : Prop := IsName s.toList ∧ (TokenKind.ofWord s).isExportName

/-- A name that is no word of the language at all. -/
def IsPlainName (s : String) : Prop := IsName s.toList ∧ TokenKind.ofWord s = .name

/-- Identifiers with names that can be bound. -/
def AreBindingNames (ids : List Identifier) : Prop := ∀ id ∈ ids, IsBindingName id.name

/-- A specifier that can stand in the list of an import. -/
def ImportSpecifier.IsListed : ImportSpecifier → Prop
  | .named exported binding _ => IsExportName exported ∧ IsBindingName binding.name
  | _ => False

/-- What can stand behind the default export, or alone. -/
def AreImportRest (ss : List ImportSpecifier) : Prop :=
  (∃ id o, ss = [.all id o] ∧ IsPlainName id.name) ∨ ∀ s ∈ ss, s.IsListed

/-- What an import can bind. -/
def AreImports (ss : List ImportSpecifier) : Prop :=
  AreImportRest ss ∨
    ∃ id o rest, ss = .default id o :: rest ∧ IsPlainName id.name ∧ AreImportRest rest

/-- A key that stands without quotes. -/
def IsBindingKey (key : CodeText) : Prop := ∃ name : String, key = name ∧ IsBindingName name

/-- What can stand in a list of exports; one of this module names bindings. -/
def AreExports (isLocal : Bool) (ss : List ExportSpecifier) : Prop :=
  ∀ s ∈ ss, IsExportName s.exported ∧ IsExportName s.source.name ∧
    (isLocal → IsBindingName s.source.name)

/-! ### Trees -/

/-- **The grammar of trees**: which phrases can be printed. With `marks`, a property has the mark of
one that is written by its key alone only if it can be; with `texts`, no string holds a
surrogate. -/
inductive Printable (marks texts : Bool) : Phrase → Prop
  -- expressions
  | exprChoice {e : Expr} (h : Printable marks texts (.choice e)) : Printable marks texts (.expr e)
  | arrow {ids : List Identifier} {e : Expr} {o : Origin} (hids : AreBindingNames ids)
      (hbrace : e.opensBrace = false) (h : Printable marks texts (.expr e)) :
      Printable marks texts (.expr (.arrow ids e o))
  | arrowBlock {ids : List Identifier} {b : Block} {o : Origin} (hids : AreBindingNames ids)
      (h : Printable marks texts (.block b)) : Printable marks texts (.expr (.arrowBlock ids b o))
  | assign {k : TokenKind} {target value : Expr} {o : Origin} (hk : k.isAssignment)
      (htarget : target.isTarget) (h : Printable marks texts (.choice target))
      (h' : Printable marks texts (.expr value)) :
      Printable marks texts (.expr (.assign k.spelling target value o))
  | choiceOperation {e : Expr} (h : Printable marks texts (.operation loosest e)) :
      Printable marks texts (.choice e)
  | conditional {t c a : Expr} {o : Origin} (ht : Printable marks texts (.operation loosest t))
      (hc : Printable marks texts (.expr c)) (ha : Printable marks texts (.expr a)) :
      Printable marks texts (.choice (.conditional t c a o))
  | operationOperand {e : Expr} (h : Printable marks texts (.operand e)) :
      Printable marks texts (.operation 0 e)
  | operationTighter {n : Nat} {e : Expr} (h : Printable marks texts (.operation n e)) :
      Printable marks texts (.operation (n + 1) e)
  | binary {k : TokenKind} {n : Nat} {l r : Expr} {o : Origin} (hk : k.looseness? = some (n + 1))
      (h : Printable marks texts (.operation (n + 1) l))
      (h' : Printable marks texts (.operation n r)) :
      Printable marks texts (.operation (n + 1) (.binary k.spelling l r o))
  | operandSuffixed {e : Expr} (h : Printable marks texts (.suffixed e)) :
    Printable marks texts (.operand e)
  | unary {k : TokenKind} {e : Expr} {o : Origin} (hk : k.isUnary)
      (h : Printable marks texts (.operand e)) :
      Printable marks texts (.operand (.unary k.spelling e o))
  | suffixedPrimary {e : Expr} (h : Printable marks texts (.primary e)) :
    Printable marks texts (.suffixed e)
  | member {e : Expr} {property : String} {o : Origin} (hname : IsName property.toList)
      (h : Printable marks texts (.suffixed e)) :
      Printable marks texts (.suffixed (.member e property o))
  | index {e i : Expr} {o : Origin} (h : Printable marks texts (.suffixed e))
      (h' : Printable marks texts (.expr i)) : Printable marks texts (.suffixed (.index e i o))
  | call {f : Expr} {as : List Expr} {o : Origin} (h : Printable marks texts (.suffixed f))
      (h' : ∀ a ∈ as, Printable marks texts (.expr a)) :
      Printable marks texts (.suffixed (.call f as o))
  | string {s : CodeText} {raw : String} {o : Origin} (hs : texts → s.IsText) :
      Printable marks texts (.primary (.literal (.text s) raw o))
  | number {v : LiteralValue} {raw : String} {o : Origin} (h : IsNumeral raw.toList)
      (hv : NumberLiteral.value raw = .ok v) :
      Printable marks texts (.primary (.literal v raw o))
  | truth {b : Bool} {o : Origin} : Printable marks texts (.primary (.literal (.truth b)
      (if b then TokenKind.trueWord else TokenKind.falseWord).spelling o))
  | null {o : Origin} :
    Printable marks texts (.primary (.literal .null TokenKind.nullWord.spelling o))
  | name {id : Identifier} (h : IsBindingName id.name) : Printable marks texts (.primary (.name id))
  | array {es : List Expr} {o : Origin} (h : ∀ e ∈ es, Printable marks texts (.expr e)) :
      Printable marks texts (.primary (.array es o))
  | object {ps : List Property} {o : Origin} (h : ∀ p ∈ ps, Printable marks texts (.property p)) :
      Printable marks texts (.primary (.object ps o))
  | group {e : Expr} {o : Origin} (h : Printable marks texts (.expr e)) :
      Printable marks texts (.primary (.group e o))
  | property {key : CodeText} {v : Expr} {shorthand quoted : Bool} {o : Origin}
      (hkey : quoted = false → IsBindingKey key) (hs : texts → key.IsText)
      (hmark : marks → shorthand → Property.isShort ⟨key, v, shorthand, quoted, o⟩)
      (h : Printable marks texts (.expr v)) :
      Printable marks texts (.property ⟨key, v, shorthand, quoted, o⟩)
  -- blocks and declarations
  | block {ss : List Stmt} {o : Origin} (h : ∀ s ∈ ss, Printable marks texts (.stmt s)) :
      Printable marks texts (.block ⟨ss, o⟩)
  | declarator {id : Identifier} {o : Origin} (hid : IsBindingName id.name) :
      Printable marks texts (.declarator ⟨id, none, o⟩)
  | declaratorInit {id : Identifier} {e : Expr} {o : Origin} (hid : IsBindingName id.name)
      (h : Printable marks texts (.expr e)) : Printable marks texts (.declarator ⟨id, some e, o⟩)
  | variableDecl {kind : VariableKind} {ds : List Declarator} {o : Origin} (hne : ds ≠ [])
      (h : ∀ d ∈ ds, Printable marks texts (.declarator d)) :
      Printable marks texts (.declaration (.variables kind ds o))
  | functionDecl {f : Identifier} {ids : List Identifier} {b : Block} {o : Origin}
      (hf : IsBindingName f.name) (hids : AreBindingNames ids)
      (h : Printable marks texts (.block b)) :
      Printable marks texts (.declaration (.function f ids b o))
  -- statements
  | importDecl {ss : List ImportSpecifier} {s : CodeText} {o : Origin} (hss : AreImports ss)
      (hs : texts → s.IsText) : Printable marks texts (.stmt (.importDecl ss s o))
  | exportNamed {ss : List ExportSpecifier} {s : Option CodeText} {o : Origin}
      (hss : AreExports s.isNone ss) (hs : texts → ∀ t ∈ s, t.IsText) :
      Printable marks texts (.stmt (.exportNamed ss s o))
  | exportAll {s : CodeText} {o : Origin} (hs : texts → s.IsText) :
      Printable marks texts (.stmt (.exportAll s o))
  | exportDecl {d : Declaration} {o : Origin} (h : Printable marks texts (.declaration d)) :
      Printable marks texts (.stmt (.exportDecl d o))
  | exportDefault {e : Expr} {o : Origin} (h : Printable marks texts (.expr e)) :
      Printable marks texts (.stmt (.exportDefault e o))
  | declaration {d : Declaration} (h : Printable marks texts (.declaration d)) :
      Printable marks texts (.stmt (.declaration d))
  | blockStatement {b : Block} (h : Printable marks texts (.block b)) :
      Printable marks texts (.stmt (.block b))
  | returnNothing {o : Origin} : Printable marks texts (.stmt (.returnValue none o))
  | returnValue {e : Expr} {o : Origin} (h : Printable marks texts (.expr e)) :
      Printable marks texts (.stmt (.returnValue (some e) o))
  | ifThen {e : Expr} {s : Stmt} {o : Origin} (h : Printable marks texts (.expr e))
      (hs : Printable marks texts (.stmt s)) : Printable marks texts (.stmt (.ifThen e s none o))
  | ifElse {e : Expr} {s a : Stmt} {o : Origin} (hopen : s.isOpen = false)
      (h : Printable marks texts (.expr e)) (hs : Printable marks texts (.stmt s))
      (ha : Printable marks texts (.stmt a)) :
      Printable marks texts (.stmt (.ifThen e s (some a) o))
  | exprStatement {e : Expr} {o : Origin} (hbrace : e.opensBrace = false)
      (h : Printable marks texts (.expr e)) : Printable marks texts (.stmt (.expr e o))

/-- Statements that can be printed. -/
def PrintableBody (marks texts : Bool) (ss : List Stmt) : Prop :=
  ∀ s ∈ ss, Printable marks texts (.stmt s)

/-! ### What is read can be printed -/

section Names

variable {previous : Option TokenKind} {t : Token}

theorem Token.Fits.bindingName (h : t.Fits previous) (hk : t.kind.isBindingName)
    (hdot : previous ≠ some .dot) : IsBindingName t.text := by
  obtain ⟨hname, hword⟩ := h.isBindingName hk hdot
  exact ⟨hname, by rw [hword]; exact hk⟩

theorem Token.Fits.plainName (h : t.Fits previous) (hk : t.kind = .name)
    (hdot : previous ≠ some .dot) : IsPlainName t.text := by
  obtain ⟨hname, hword⟩ := h.isBindingName (by rw [hk]; rfl) hdot
  exact ⟨hname, hword.trans hk⟩

theorem Token.Fits.exportName (h : t.Fits previous) (hk : t.kind.isExportName)
    (hdot : previous ≠ some .dot) : IsExportName t.text := by
  simp only [TokenKind.isExportName, Bool.or_eq_true, decide_eq_true_eq] at hk
  rcases hk with hk | hk
  · obtain ⟨hname, hword⟩ := h.bindingName hk hdot
    exact ⟨hname, by rw [TokenKind.isExportName, hword]; rfl⟩
  · unfold Token.Fits at h
    rw [hk] at h
    have htext : t.text = "default" := String.toList_inj.1 h
    exact ⟨h ▸ Lexer.isName_spelling (k := .defaultWord) rfl, by rw [htext]; rfl⟩

/-- A token with one spelling has it. -/
theorem Token.Fits.text (h : t.Fits previous) {k : TokenKind} (hk : t.kind = k)
    (hspelled : (k.isWord || k.isSymbol && k ≠ .leftBrace) = true) : t.text = k.spelling := by
  unfold Token.Fits at h
  rw [hk] at h
  refine String.toList_inj.1 ?_
  cases k <;> first | exact h | cases hspelled

end Names

/-- If the items of a list have a property wherever they stand, all have it. -/
theorem Items.forall_of_settled {α : Type} {Q : α → List Token → Prop} {P : α → Prop}
    {close : TokenKind} {trailing : Bool} {xs : List α} {c : List Token}
    (h : Items Q close trailing xs c) (hitem : ∀ x c previous, Q x c → Settled previous c →
      previous ≠ some .dot → P x) :
    ∀ previous, Settled previous c → previous ≠ some .dot → ∀ x ∈ xs, P x := by
  induction h with
  | last hx _ =>
    intro previous hs hdot x hmem
    obtain rfl := List.mem_singleton.1 hmem
    exact hitem _ _ previous hx (settled_append.1 hs).1 hdot
  | trailed hx _ _ _ =>
    intro previous hs hdot x hmem
    obtain rfl := List.mem_singleton.1 hmem
    exact hitem _ _ previous hx (settled_append.1 hs).1 hdot
  | @more x xs c c' comma hx hcomma _ ih =>
    intro previous hs hdot y hmem
    obtain ⟨hc, -, hc'⟩ := settled_append.1 hs
    rcases List.mem_cons.1 hmem with rfl | hmem
    · exact hitem _ _ previous hx hc hdot
    · exact ih (some comma.kind) hc' (by rw [hcomma]; nofun) y hmem

theorem Listed.forall_of_settled {α : Type} {Q : α → List Token → Prop} {P : α → Prop}
    {close : TokenKind} {trailing : Bool} {xs : List α} {c : List Token}
    {previous : Option TokenKind} (h : Listed Q close trailing xs c)
    (hitem : ∀ x c previous, Q x c → Settled previous c →
      previous ≠ some .dot → P x) (hs : Settled previous c) (hdot : previous ≠ some .dot) :
    ∀ x ∈ xs, P x := by
  rcases h with ⟨rfl, -⟩ | h
  · exact nofun
  · exact h.forall_of_settled hitem previous hs hdot

/-- A list ends with its closing token. -/
theorem Items.lastKind_eq {α : Type} {Q : α → List Token → Prop} {close : TokenKind}
    {trailing : Bool} {xs : List α} {c : List Token} (h : Items Q close trailing xs c) :
    ∀ previous, lastKind previous c = some close := by
  induction h with
  | last _ ht | trailed _ _ ht _ => exact fun previous => by simp [ht]
  | more _ _ _ ih => exact fun previous => by simp [ih]

theorem Listed.lastKind_eq {α : Type} {Q : α → List Token → Prop} {close : TokenKind}
    {trailing : Bool} {xs : List α} {c : List Token} (h : Listed Q close trailing xs c)
    (previous : Option TokenKind) : lastKind previous c = some close := by
  rcases h with ⟨-, t, ht, rfl⟩ | h
  · rw [lastKind_cons, ht, lastKind_nil]
  · exact h.lastKind_eq previous

theorem BindingToken.isBindingName {id : Identifier} {c : List Token}
    {previous : Option TokenKind} (h : BindingToken id c) (hs : Settled previous c)
    (hdot : previous ≠ some .dot) : IsBindingName id.name := by
  obtain ⟨t, ht, rfl, rfl⟩ := h
  exact hs.1.bindingName ht hdot

theorem ArrowParams.areBindingNames {ids : List Identifier} {c : List Token}
    {previous : Option TokenKind} (h : ArrowParams ids c) (hs : Settled previous c)
    (hdot : previous ≠ some .dot) : AreBindingNames ids := by
  cases h with
  | name h =>
    intro id hid
    obtain rfl := List.mem_singleton.1 hid
    exact h.isBindingName hs hdot
  | group ht h =>
    refine h.forall_of_settled (fun _ _ _ h hs hdot => h.isBindingName hs hdot) hs.2 ?_
    rw [ht]
    nofun

/-- Both names of a list are such as the list admits. -/
theorem AliasTokens.names {admits : TokenKind → Bool} {t second : Token} {c : List Token}
    {previous : Option TokenKind} (h : AliasTokens admits t second c) (hs : Settled previous c)
    (hdot : previous ≠ some .dot) : ∃ previous', t.Fits previous ∧ second.Fits previous' ∧
      previous' ≠ some .dot ∧ t.kind.isExportName ∧ (second = t ∨ admits second.kind) := by
  obtain ⟨ht, ⟨rfl, rfl⟩ | ⟨as, has, hsecond, rfl⟩⟩ := h
  · exact ⟨previous, hs.1, hs.1, hdot, ht, Or.inl rfl⟩
  · refine ⟨some as.kind, hs.1, hs.2.2.1, ?_, ht, Or.inr hsecond⟩
    rw [has]
    nofun

theorem isBindingName_of_isExportName {k : TokenKind} (h : k.isExportName)
    (hne : k ≠ .defaultWord) : k.isBindingName := by
  simpa [TokenKind.isExportName, hne] using h

theorem ImportTokens.isListed {s : ImportSpecifier} {c : List Token}
    {previous : Option TokenKind} (h : ImportTokens s c) (hs : Settled previous c)
    (hdot : previous ≠ some .dot) : s.IsListed := by
  obtain ⟨t, second, halias, hne, rfl⟩ := h
  obtain ⟨previous', ht, hsecond, hdot', hexport, hadmits⟩ := halias.names hs hdot
  refine ⟨ht.exportName hexport hdot, hsecond.bindingName ?_ hdot'⟩
  rcases hadmits with rfl | hadmits
  · exact isBindingName_of_isExportName hexport hne
  · exact hadmits

theorem ImportRest.areImportRest {ss : List ImportSpecifier} {c : List Token}
    {previous : Option TokenKind} (h : ImportRest ss c) (hs : Settled previous c) :
    AreImportRest ss := by
  cases h with
  | all hstar has ht =>
    refine Or.inl ⟨_, _, rfl, hs.2.2.1.plainName ht ?_⟩
    rw [has]
    nofun
  | list ht h =>
    refine Or.inr (h.forall_of_settled (fun _ _ _ h hs hdot => h.isListed hs hdot) hs.2 ?_)
    rw [ht]
    nofun

theorem ImportClause.areImports {ss : List ImportSpecifier} {c : List Token}
    {previous : Option TokenKind} (h : ImportClause ss c) (hs : Settled previous c)
    (hdot : previous ≠ some .dot) : AreImports ss := by
  cases h with
  | default ht => exact Or.inr ⟨_, _, [], rfl, hs.1.plainName ht hdot, Or.inr nofun⟩
  | both ht hcomma h =>
    exact Or.inr ⟨_, _, _, rfl, hs.1.plainName ht hdot, h.areImportRest hs.2.2⟩
  | rest h => exact Or.inl (h.areImportRest hs)

theorem areExports_of_listed {isLocal : Bool} {ss : List ExportSpecifier} {c : List Token}
    {previous : Option TokenKind} (h : Listed (ExportTokens isLocal) .rightBrace true ss c)
    (hs : Settled previous c) (hdot : previous ≠ some .dot) : AreExports isLocal ss := by
  refine h.forall_of_settled (fun s c previous h hs hdot => ?_) hs hdot
  obtain ⟨t, second, halias, hne, rfl⟩ := h
  obtain ⟨previous', ht, hsecond, hdot', hexport, hadmits⟩ := halias.names hs hdot
  refine ⟨hsecond.exportName ?_ hdot', ht.exportName hexport hdot, fun hlocal =>
    ht.bindingName (isBindingName_of_isExportName hexport (hne hlocal)) hdot⟩
  rcases hadmits with rfl | hadmits
  · exact hexport
  · exact hadmits

/-- An expression that starts with a brace has the token in front. -/
def Phrase.ShowsBrace : Phrase → List Token → Prop
  | .expr e, c | .choice e, c | .operation _ e, c | .operand e, c | .suffixed e, c
  | .primary e, c => e.opensBrace → ∃ t c', c = t :: c' ∧ t.kind = .leftBrace
  | _, _ => True

theorem Derives.showsBrace [CharacterNames] {p : Phrase} {c : List Token} (h : Derives p c) :
    p.ShowsBrace c := by
  have front : ∀ {e : Expr} {c : List Token} (c' : List Token),
      (e.opensBrace → ∃ t c', c = t :: c' ∧ t.kind = .leftBrace) →
      e.opensBrace → ∃ t c'', c ++ c' = t :: c'' ∧ t.kind = .leftBrace := by
    intro e c c' h hbrace
    obtain ⟨t, c'', rfl, ht⟩ := h hbrace
    exact ⟨t, c'' ++ c', rfl, ht⟩
  induction h with
  | exprChoice _ ih | choiceOperation _ ih | operationOperand _ ih | operationTighter _ ih
  | operandSuffixed _ ih | suffixedPrimary _ ih => exact ih
  | assign _ _ _ _ ih _ | conditional _ _ _ _ _ ih _ _ | binary _ _ _ ih _ | member _ _ _ ih
  | index _ _ _ _ ih _ | call _ _ _ ih _ => exact front _ ih
  | object ht _ _ => exact fun _ => ⟨_, _, rfl, ht⟩
  | arrow | arrowBlock | unary | string | number | truth | null | name | array | group =>
    exact nofun
  | _ => trivial

/-- In the place of a statement no expression starts with a brace. -/
theorem Derives.opensBrace_eq_false [CharacterNames] {e : Expr} {c : List Token}
    {previous : Option TokenKind} (h : Derives (.expr e) c) (hs : Settled previous c)
    (hprevious : previous.all TokenKind.precedesBlock) : e.opensBrace = false := by
  rw [Bool.eq_false_iff]
  intro hbrace
  obtain ⟨t, c', rfl, ht⟩ := h.showsBrace hbrace
  have hfits := hs.1
  unfold Token.Fits at hfits
  rw [ht] at hfits
  rw [hprevious] at hfits
  cases hfits

/-- A statement ends where another one, or a block, can start. -/
def Phrase.EndsStatement : Phrase → List Token → Prop
  | .block _, c | .untilBrace _, c | .declaration _, c | .stmt _, c | .branch _, c =>
    ∀ previous, (lastKind previous c).all TokenKind.precedesBlock
  | _, _ => True

theorem Derives.endsStatement [CharacterNames] {p : Phrase} {c : List Token} (h : Derives p c) :
    p.EndsStatement c := by
  induction h with
  | block _ _ ih => exact fun previous => ih _
  | brace ht | branchNothing ht => exact fun previous => by simp [ht, TokenKind.precedesBlock]
  | blockNothing _ _ ih => exact fun previous => ih _
  | blockStmt _ _ _ ih => exact fun previous => by rw [lastKind_append]; exact ih _
  | variableDecl _ hfin _ _ | exportLocal _ _ _ hfin | exportDefault _ _ hfin _ _
  | returnValue _ hfin _ _ | exprStatement hfin _ _ | importNames _ _ _ _ hfin
  | exportFrom _ _ _ _ _ hfin =>
    exact fun previous => by simp [hfin, TokenKind.precedesBlock]
  | importBare _ _ hfin | exportAll _ _ _ _ hfin | returnNothing _ hfin =>
    exact fun previous => by simp [hfin, TokenKind.precedesBlock]
  | functionDecl _ _ _ _ _ ih =>
    exact fun previous => by simp only [lastKind_cons, lastKind_append]; exact ih _
  | exportDecl _ _ ih => exact fun previous => ih _
  | declaration _ ih | blockStatement _ ih | branchStmt _ ih => exact ih
  | ifThen _ _ _ _ _ _ ih =>
    exact fun previous => by simp only [lastKind_cons, lastKind_append]; exact ih _
  | ifElse _ _ _ _ _ _ _ _ _ _ ih =>
    exact fun previous => by simp only [lastKind_cons, lastKind_append]; exact ih _
  | _ => trivial

/-- The trees of a phrase can be printed. -/
def Phrase.CanPrint : Phrase → Prop
  | .exprs _ _ es | .someExprs _ _ es => ∀ e ∈ es, Printable true false (.expr e)
  | .properties ps | .someProperties ps => ∀ p ∈ ps, Printable true false (.property p)
  | .declarators ds => ds ≠ [] ∧ ∀ d ∈ ds, Printable true false (.declarator d)
  | .untilBrace ss | .body ss => PrintableBody true false ss
  | .branch s => Printable true false (.stmt s)
  | p => Printable true false p

/-- Whether a phrase stands in the place of statements. -/
def Phrase.isStatements : Phrase → Bool
  | .untilBrace _ | .stmt _ | .branch _ | .body _ => true
  | _ => false

/-- An operator is no dot, and its kind tells its text. -/
theorem TokenKind.spelled_of_operator (k : TokenKind)
    (h : k.isAssignment ∨ k.isUnary ∨ k.looseness?.isSome) :
    k ≠ .dot ∧ (k.isWord || k.isSymbol && k ≠ .leftBrace) = true := by
  revert h
  cases k <;> decide

/-- **What settled tokens derive can be printed.** -/
theorem Derives.canPrint [CharacterNames] {p : Phrase} {c : List Token} (h : Derives p c) :
    ∀ previous, Settled previous c → previous ≠ some .dot →
      (p.isStatements → previous.all TokenKind.precedesBlock) → p.CanPrint := by
  -- nothing but a dot makes a name of a word
  have behind : ∀ {k k' : TokenKind}, k = k' → k' ≠ .dot → some k ≠ some .dot := by
    rintro k _ rfl hne h
    exact hne (Option.some.inj h)
  induction h with
  | exprChoice _ ih => exact fun previous hs hdot hp => .exprChoice (ih previous hs hdot nofun)
  | @arrow ids e c c' first t hids hfirst ht h ih =>
    intro previous hs hdot _
    obtain ⟨hc, -, hc'⟩ := settled_append.1 hs
    refine .arrow (hids.areBindingNames hc hdot) (h.opensBrace_eq_false hc' ?_)
      (ih _ hc' (behind ht nofun) nofun)
    rw [ht]
    rfl
  | @arrowBlock ids b c c' first t hids hfirst ht h ih =>
    intro previous hs hdot _
    obtain ⟨hc, -, hc'⟩ := settled_append.1 hs
    exact .arrowBlock (hids.areBindingNames hc hdot) (ih _ hc' (behind ht nofun) nofun)
  | @assign target value c c' op hop htarget _ _ ih ih' =>
    intro previous hs hdot _
    obtain ⟨hc, hfits, hc'⟩ := settled_append.1 hs
    have hkind := op.kind.spelled_of_operator (.inl hop)
    rw [hfits.text rfl hkind.2]
    exact .assign hop htarget (ih _ hc hdot nofun) (ih' _ hc' (behind rfl hkind.1) nofun)
  | choiceOperation _ ih =>
    exact fun previous hs hdot hp => .choiceOperation (ih previous hs hdot nofun)
  | conditional hquestion hcolon _ _ _ iht ihc iha =>
    intro previous hs hdot _
    obtain ⟨ht, -, hs⟩ := settled_append.1 hs
    obtain ⟨hc, -, ha⟩ := settled_append.1 hs
    exact .conditional (iht _ ht hdot nofun) (ihc _ hc (behind hquestion nofun) nofun)
      (iha _ ha (behind hcolon nofun) nofun)
  | operationOperand _ ih =>
    exact fun previous hs hdot hp => .operationOperand (ih previous hs hdot nofun)
  | operationTighter _ ih =>
    exact fun previous hs hdot hp => .operationTighter (ih previous hs hdot nofun)
  | @binary n l r c c' op hop _ _ ih ih' =>
    intro previous hs hdot _
    obtain ⟨hc, hfits, hc'⟩ := settled_append.1 hs
    have hkind := op.kind.spelled_of_operator (.inr (.inr (by rw [hop]; rfl)))
    rw [hfits.text rfl hkind.2]
    exact .binary hop (ih _ hc hdot nofun) (ih' _ hc' (behind rfl hkind.1) nofun)
  | operandSuffixed _ ih =>
    exact fun previous hs hdot hp => .operandSuffixed (ih previous hs hdot nofun)
  | @unary e c op hop _ ih =>
    intro previous hs hdot _
    obtain ⟨hfits, hc⟩ := hs
    have hkind := op.kind.spelled_of_operator (.inr (.inl hop))
    rw [hfits.text rfl hkind.2]
    exact .unary hop (ih _ hc (behind rfl hkind.1) nofun)
  | suffixedPrimary _ ih =>
    exact fun previous hs hdot hp => .suffixedPrimary (ih previous hs hdot nofun)
  | member hdot' ht _ ih =>
    intro previous hs hdot _
    obtain ⟨hc, -, hfits, -⟩ := settled_append.1 hs
    unfold Token.Fits at hfits
    rw [ht] at hfits
    exact .member hfits.1 (ih _ hc hdot nofun)
  | index ht ht' _ _ ih ih' =>
    intro previous hs hdot _
    obtain ⟨hc, -, hs⟩ := settled_append.1 hs
    exact .index (ih _ hc hdot nofun)
      (ih' _ (settled_append.1 hs).1 (behind ht nofun) nofun)
  | call ht _ _ ih ih' =>
    intro previous hs hdot _
    obtain ⟨hc, -, hc'⟩ := settled_append.1 hs
    exact .call (ih _ hc hdot nofun) (ih' _ hc' (behind ht nofun) nofun)
  | string ht => exact fun previous hs hdot hp => .string nofun
  | number ht =>
    intro previous hs hdot _
    have hfits := hs.1
    unfold Token.Fits at hfits
    rw [ht.1] at hfits
    exact .number hfits ht.2
  | @truth t b ht =>
    intro previous hs hdot _
    rw [hs.1.text ht (by cases b <;> rfl)]
    exact .truth
  | null ht =>
    intro previous hs hdot _
    rw [hs.1.text ht rfl]
    exact .null
  | name ht => exact fun previous hs hdot hp => .name (hs.1.bindingName ht hdot)
  | array ht _ ih => exact fun previous hs hdot hp => .array (ih _ hs.2 (behind ht nofun) nofun)
  | object ht _ ih => exact fun previous hs hdot hp => .object (ih _ hs.2 (behind ht nofun) nofun)
  | group ht ht' _ ih =>
    exact fun previous hs hdot hp =>
      .group (ih _ (settled_append.1 hs.2).1 (behind ht nofun) nofun)
  | noExprs _ | noProperties _ => exact fun previous hs hdot hp => nofun
  | exprsSome _ ih | propertiesSome _ ih =>
    exact fun previous hs hdot hp => ih previous hs hdot nofun
  | lastExpr _ _ ih | lastProperty _ _ ih | trailedExpr _ _ _ ih | trailedProperty _ _ _ ih =>
    intro previous hs hdot _ x hx
    obtain rfl := List.mem_singleton.1 hx
    exact ih _ (settled_append.1 hs).1 hdot nofun
  | moreExprs hcomma _ _ ih ih' | moreProperties hcomma _ _ ih ih' =>
    intro previous hs hdot _ x hx
    obtain ⟨hc, -, hc'⟩ := settled_append.1 hs
    rcases List.mem_cons.1 hx with rfl | hx
    · exact ih _ hc hdot nofun
    · exact ih' _ hc' (behind hcomma nofun) nofun x hx
  | quotedProperty ht hcolon _ ih =>
    exact fun previous hs hdot hp =>
      .property nofun nofun nofun (ih _ hs.2.2 (behind hcolon nofun) nofun)
  | property ht hcolon _ ih =>
    exact fun previous hs hdot hp =>
      .property (fun _ => ⟨_, rfl, hs.1.bindingName ht hdot⟩) nofun nofun
        (ih _ hs.2.2 (behind hcolon nofun) nofun)
  | shortProperty ht =>
    intro previous hs hdot _
    have hname := hs.1.bindingName ht hdot
    refine .property (fun _ => ⟨_, rfl, hname⟩) nofun (fun _ _ => ?_) ?_
    · simp [Property.isShort, Token.identifier]
    · exact .exprChoice (.choiceOperation (.operationTighter (.operationTighter (.operationTighter
        (.operationTighter (.operationTighter (.operationTighter (.operationOperand
          (.operandSuffixed (.suffixedPrimary (.name hname)))))))))))
  | block ht _ ih =>
    refine fun previous hs hdot hp => .block (ih _ hs.2 (behind ht nofun) fun _ => ?_)
    rw [ht]
    rfl
  | brace _ | noStmts => exact fun previous hs hdot hp => nofun
  | blockNothing ht _ ih | nothing ht _ ih =>
    refine fun previous hs hdot hp => ih _ hs.2 (behind ht nofun) fun _ => ?_
    rw [ht]
    rfl
  | blockStmt h _ ih ih' | stmts h _ ih ih' =>
    intro previous hs hdot hp s hmem
    obtain ⟨hc, hc'⟩ := settled_append.1 hs
    have hlast := h.endsStatement previous
    rcases List.mem_cons.1 hmem with rfl | hmem
    · exact ih _ hc hdot fun _ => hp rfl
    · refine ih' _ hc' ?_ (fun _ => hlast) s hmem
      intro heq
      rw [heq] at hlast
      cases hlast
  | declarator ht => exact fun previous hs hdot hp => .declarator (hs.1.bindingName ht hdot)
  | declaratorInit ht hassign _ ih =>
    exact fun previous hs hdot hp => .declaratorInit (hs.1.bindingName ht hdot)
      (ih _ hs.2.2 (behind hassign nofun) nofun)
  | lastDeclarator _ ih =>
    intro previous hs hdot _
    refine ⟨nofun, fun d hd => ?_⟩
    obtain rfl := List.mem_singleton.1 hd
    exact ih _ hs hdot nofun
  | moreDeclarators hcomma _ _ ih ih' =>
    intro previous hs hdot _
    obtain ⟨hc, -, hc'⟩ := settled_append.1 hs
    refine ⟨nofun, fun d hd => ?_⟩
    rcases List.mem_cons.1 hd with rfl | hd
    · exact ih _ hc hdot nofun
    · exact (ih' _ hc' (behind hcomma nofun) nofun).2 d hd
  | @variableDecl kind ds c t fin ht hfin _ ih =>
    intro previous hs hdot _
    have hne : t.kind ≠ .dot := fun hk => by
      rw [hk] at ht
      cases ht
    obtain ⟨hds, hall⟩ := ih _ (settled_append.1 hs.2).1 (behind rfl hne) nofun
    exact .variableDecl hds hall
  | @functionDecl ids b ci c t f paren ht hf hparen hids h ih =>
    intro previous hs hdot _
    obtain ⟨-, hname, -, hs⟩ := hs
    obtain ⟨hci, hc⟩ := settled_append.1 hs
    refine .functionDecl (hname.bindingName hf (behind ht nofun))
      (hids.forall_of_settled (fun _ _ _ h hs hdot => h.isBindingName hs hdot) hci
        (behind hparen nofun)) (ih _ hc ?_ nofun)
    rw [hids.lastKind_eq]
    exact behind rfl nofun
  | importBare ht hsource hfin =>
    exact fun previous hs hdot hp => .importDecl (Or.inl (Or.inr nofun)) nofun
  | importNames ht hclause hfrom hsource hfin =>
    exact fun previous hs hdot hp => .importDecl
      (hclause.areImports (settled_append.1 hs.2).1 (behind ht nofun)) nofun
  | exportLocal ht hbrace hss hfin =>
    exact fun previous hs hdot hp => .exportNamed
      (areExports_of_listed hss (settled_append.1 hs.2.2).1 (behind hbrace nofun)) nofun
  | exportFrom ht hbrace hss hfrom hsource hfin =>
    exact fun previous hs hdot hp => .exportNamed
      (areExports_of_listed hss (settled_append.1 hs.2.2).1 (behind hbrace nofun)) nofun
  | exportAll ht hstar hfrom hsource hfin => exact fun previous hs hdot hp => .exportAll nofun
  | exportDecl ht _ ih =>
    exact fun previous hs hdot hp => .exportDecl (ih _ hs.2 (behind ht nofun) nofun)
  | exportDefault ht hdefault hfin _ ih =>
    exact fun previous hs hdot hp => .exportDefault
      (ih _ (settled_append.1 hs.2.2).1 (behind hdefault nofun) nofun)
  | declaration _ ih => exact fun previous hs hdot hp => .declaration (ih _ hs hdot nofun)
  | blockStatement _ ih => exact fun previous hs hdot hp => .blockStatement (ih _ hs hdot nofun)
  | returnNothing ht hfin => exact fun previous hs hdot hp => .returnNothing
  | returnValue ht hfin _ ih =>
    exact fun previous hs hdot hp =>
      .returnValue (ih _ (settled_append.1 hs.2).1 (behind ht nofun) nofun)
  | ifThen ht hparen hclose _ _ ih ihs =>
    intro previous hs hdot _
    obtain ⟨hc, -, hcs⟩ := settled_append.1 hs.2.2
    refine .ifThen (ih _ hc (behind hparen nofun) nofun)
      (ihs _ hcs (behind hclose nofun) fun _ => ?_)
    rw [hclose]
    rfl
  | ifElse ht hparen hclose hother hopen _ _ _ ih ihs iha =>
    intro previous hs hdot _
    obtain ⟨hc, -, hs⟩ := settled_append.1 hs.2.2
    obtain ⟨hcs, -, hca⟩ := settled_append.1 hs
    refine .ifElse hopen (ih _ hc (behind hparen nofun) nofun)
      (ihs _ hcs (behind hclose nofun) fun _ => ?_)
      (iha _ hca (behind hother nofun) fun _ => ?_)
    · rw [hclose]
      rfl
    · rw [hother]
      rfl
  | exprStatement hfin h ih =>
    intro previous hs hdot hp
    obtain ⟨hc, -⟩ := settled_append.1 hs
    exact .exprStatement (h.opensBrace_eq_false hc (hp rfl)) (ih _ hc hdot nofun)
  | branchStmt _ ih => exact fun previous hs hdot hp => ih _ hs hdot fun _ => hp rfl
  | branchNothing ht => exact fun previous hs hdot hp => .blockStatement (.block nofun)

end MessageBinder
