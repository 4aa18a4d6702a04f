import MessageBinder.Proofs.Grammar.Phrase
import MessageBinder.Tree.Printer

/-!
# What the printer keeps

A printed module does not say where its nodes stood, how a string was written, or whether a property
was written by its key alone. The *plain* tree has none of that: two trees are the same to the
printer if their plain trees are equal, and a tree is printed as its plain one is
(`MessageBinder.Module.text_plain`).

A property whose key is the name of its value is printed by its key whatever its mark says. Other
properties have the mark only where a renaming has left it behind; `marks` says whether it counts.
-/

namespace MessageBinder

/-- The place of all that is plain. -/
def nowhere : Origin := .synthetic 0

/-- The name alone. -/
def Identifier.plain (id : Identifier) : Identifier := ⟨id.name, nowhere⟩

/-- The specifier without its places. -/
def ImportSpecifier.plain : ImportSpecifier → ImportSpecifier
  | .named exported binding _ => .named exported binding.plain nowhere
  | .default binding _ => .default binding.plain nowhere
  | .all binding _ => .all binding.plain nowhere

/-- The specifier without its places. -/
def ExportSpecifier.plain (s : ExportSpecifier) : ExportSpecifier :=
  ⟨s.source.plain, s.exported, nowhere⟩

/-- The text of a literal, unless its value tells it. -/
def LiteralValue.plainRaw (raw : String) : LiteralValue → String
  | .text _ => ""
  | _ => raw

mutual

/-- The plain expression. -/
def Expr.plain (marks : Bool) : Expr → Expr
  | .name id => .name id.plain
  | .literal v raw _ => .literal v (v.plainRaw raw) nowhere
  | .verbatim text _ => .verbatim text nowhere
  | .array es _ => .array (Expr.plainList marks es) nowhere
  | .object ps _ => .object (Property.plainList marks ps) nowhere
  | .member e p _ => .member (e.plain marks) p nowhere
  | .index e i _ => .index (e.plain marks) (i.plain marks) nowhere
  | .call f as _ => .call (f.plain marks) (Expr.plainList marks as) nowhere
  | .unary op e _ => .unary op (e.plain marks) nowhere
  | .binary op l r _ => .binary op (l.plain marks) (r.plain marks) nowhere
  | .conditional t c a _ => .conditional (t.plain marks) (c.plain marks) (a.plain marks) nowhere
  | .assign op t v _ => .assign op (t.plain marks) (v.plain marks) nowhere
  | .group e _ => .group (e.plain marks) nowhere
  | .arrow ids e _ => .arrow (ids.map Identifier.plain) (e.plain marks) nowhere
  | .arrowBlock ids b _ => .arrowBlock (ids.map Identifier.plain) (b.plain marks) nowhere

/-- The plain expressions. -/
def Expr.plainList (marks : Bool) : List Expr → List Expr
  | [] => []
  | e :: es => e.plain marks :: Expr.plainList marks es

/-- The plain property. -/
def Property.plain (marks : Bool) : Property → Property
  | ⟨key, value, shorthand, quoted, o⟩ =>
    ⟨key, value.plain marks,
      Property.isShort ⟨key, value, shorthand, quoted, o⟩ || (marks && shorthand), quoted, nowhere⟩

/-- The plain properties. -/
def Property.plainList (marks : Bool) : List Property → List Property
  | [] => []
  | p :: ps => p.plain marks :: Property.plainList marks ps

/-- The plain variable. -/
def Declarator.plain (marks : Bool) : Declarator → Declarator
  | ⟨id, none, _⟩ => ⟨id.plain, none, nowhere⟩
  | ⟨id, some e, _⟩ => ⟨id.plain, some (e.plain marks), nowhere⟩

/-- The plain variables. -/
def Declarator.plainList (marks : Bool) : List Declarator → List Declarator
  | [] => []
  | d :: ds => d.plain marks :: Declarator.plainList marks ds

/-- The plain block. -/
def Block.plain (marks : Bool) : Block → Block
  | ⟨body, _⟩ => ⟨Stmt.plainList marks body, nowhere⟩

/-- The plain declaration. -/
def Declaration.plain (marks : Bool) : Declaration → Declaration
  | .variables k ds _ => .variables k (Declarator.plainList marks ds) nowhere
  | .function f ids b _ => .function f.plain (ids.map Identifier.plain) (b.plain marks) nowhere

/-- The plain statement. -/
def Stmt.plain (marks : Bool) : Stmt → Stmt
  | .importDecl ss s _ => .importDecl (ss.map ImportSpecifier.plain) s nowhere
  | .exportNamed ss s _ => .exportNamed (ss.map ExportSpecifier.plain) s nowhere
  | .exportAll s _ => .exportAll s nowhere
  | .exportDecl d _ => .exportDecl (d.plain marks) nowhere
  | .exportDefault e _ => .exportDefault (e.plain marks) nowhere
  | .declaration d => .declaration (d.plain marks)
  | .block b => .block (b.plain marks)
  | .returnValue none _ => .returnValue none nowhere
  | .returnValue (some e) _ => .returnValue (some (e.plain marks)) nowhere
  | .ifThen t c none _ => .ifThen (t.plain marks) (c.plain marks) none nowhere
  | .ifThen t c (some a) _ =>
    .ifThen (t.plain marks) (c.plain marks) (some (a.plain marks)) nowhere
  | .expr e _ => .expr (e.plain marks) nowhere

/-- The plain statements. -/
def Stmt.plainList (marks : Bool) : List Stmt → List Stmt
  | [] => []
  | s :: ss => s.plain marks :: Stmt.plainList marks ss

end

/-- The plain module. -/
def Module.plain (marks : Bool) (m : Module) : Module := ⟨Stmt.plainList marks m.body, none, 0⟩

/-- Whether an expression starts with a brace. -/
def Expr.opensBrace : Expr → Bool
  | .object .. => true
  | .member e _ _ | .index e _ _ | .call e _ _ | .binary _ e _ _ | .conditional e _ _ _
  | .assign _ e _ _ => e.opensBrace
  | _ => false

section Lists

variable (marks : Bool) (depth : Nat)

theorem Expr.plainList_eq_map (es : List Expr) :
    Expr.plainList marks es = es.map (·.plain marks) := by
  induction es with
  | nil => rfl
  | cons e es ih => rw [Expr.plainList, ih, List.map_cons]

theorem Property.plainList_eq_map (ps : List Property) :
    Property.plainList marks ps = ps.map (·.plain marks) := by
  induction ps with
  | nil => rfl
  | cons p ps ih => rw [Property.plainList, ih, List.map_cons]

theorem Declarator.plainList_eq_map (ds : List Declarator) :
    Declarator.plainList marks ds = ds.map (·.plain marks) := by
  induction ds with
  | nil => rfl
  | cons d ds ih => rw [Declarator.plainList, ih, List.map_cons]

theorem Stmt.plainList_eq_map (ss : List Stmt) :
    Stmt.plainList marks ss = ss.map (·.plain marks) := by
  induction ss with
  | nil => rfl
  | cons s ss ih => rw [Stmt.plainList, ih, List.map_cons]

theorem Expr.texts_eq_map (es : List Expr) : Expr.texts depth es = es.map (·.text depth) := by
  induction es with
  | nil => rw [Expr.texts, List.map_nil]
  | cons e es ih => rw [Expr.texts, ih, List.map_cons]

theorem Property.texts_eq_map (ps : List Property) :
    Property.texts depth ps = ps.map (·.text depth) := by
  induction ps with
  | nil => rw [Property.texts, List.map_nil]
  | cons p ps ih => rw [Property.texts, ih, List.map_cons]

theorem Declarator.texts_eq_map (ds : List Declarator) :
    Declarator.texts depth ds = ds.map (·.text depth) := by
  induction ds with
  | nil => rw [Declarator.texts, List.map_nil]
  | cons d ds ih => rw [Declarator.texts, ih, List.map_cons]

theorem Stmt.texts_eq_map (ss : List Stmt) :
    Stmt.texts depth ss = ss.map fun s => (indentation depth : CodeText) ++ s.text depth := by
  induction ss with
  | nil => rw [Stmt.texts, List.map_nil]
  | cons s ss ih => rw [Stmt.texts, ih, List.map_cons]

end Lists

/-! ### What the plain tree still tells -/

section Kept

variable {marks : Bool} {e e' : Expr} {s s' : Stmt}

theorem Expr.isTarget_plain (marks : Bool) (e : Expr) : (e.plain marks).isTarget = e.isTarget := by
  cases e <;> rfl

theorem Expr.isTarget_of_plain_eq (h : e'.plain marks = e.plain marks) :
    e'.isTarget = e.isTarget := by
  rw [← Expr.isTarget_plain marks e', h, Expr.isTarget_plain]

/-- Whether a plain statement ends in a choice without an alternative. -/
theorem Stmt.isOpen_plain (marks : Bool) : ∀ s : Stmt, (s.plain marks).isOpen = s.isOpen
  | .ifThen _ _ none _ => rfl
  | .ifThen _ _ (some a) _ => Stmt.isOpen_plain marks a
  | .importDecl .. | .exportNamed .. | .exportAll .. | .exportDecl .. | .exportDefault ..
  | .declaration _ | .block _ | .returnValue none _ | .returnValue (some _) _ | .expr .. => rfl

theorem Stmt.isOpen_of_plain_eq (h : s'.plain marks = s.plain marks) : s'.isOpen = s.isOpen := by
  rw [← Stmt.isOpen_plain marks s', h, Stmt.isOpen_plain]

end Kept

/-! ### Printing the plain tree -/

@[simp] theorem ImportSpecifier.text_plain (s : ImportSpecifier) : s.plain.text = s.text := by
  cases s <;> rfl

@[simp] theorem ImportSpecifier.isNamed_plain (s : ImportSpecifier) :
    s.plain.isNamed = s.isNamed := by
  cases s <;> rfl

theorem importText_plain (ss : List ImportSpecifier) (source : CodeText) :
    importText (ss.map ImportSpecifier.plain) source = importText ss source := by
  have hfilter : ∀ p : ImportSpecifier → Bool, (∀ s, p s.plain = p s) →
      ((ss.map ImportSpecifier.plain).filter p).map (fun s => (s.text : CodeText))
        = (ss.filter p).map fun s => (s.text : CodeText) := by
    intro p hp
    rw [List.filter_map, List.map_map, show (p ∘ ImportSpecifier.plain) = p from funext hp]
    exact List.map_congr_left fun s _ => congrArg _ s.text_plain
  rw [importText, importText, importClause, importClause, hfilter _ fun s => s.isNamed_plain,
    hfilter _ fun s => by rw [s.isNamed_plain], List.isEmpty_map]

theorem exportText_plain (ss : List ExportSpecifier) (source : Option CodeText) :
    exportText (ss.map ExportSpecifier.plain) source = exportText ss source := by
  unfold exportText
  rw [List.map_map]
  rfl

theorem paramsText_plain (ids : List Identifier) :
    paramsText (ids.map Identifier.plain) = paramsText ids := by
  rw [paramsText, paramsText, List.map_map]
  rfl

theorem Property.isShort_plain (marks : Bool) (p : Property) :
    (p.plain marks).isShort = p.isShort := by
  obtain ⟨key, value, shorthand, quoted, o⟩ := p
  cases value <;> rfl

/-- A statement is printed as a branch as before, since it is a block if it was one. -/
theorem Stmt.branch_plain (marks : Bool) (s : Stmt) : (s.plain marks).branch = s.branch := by
  match s with
  | .block _ | .importDecl .. | .exportNamed .. | .exportAll .. | .exportDecl .. | .exportDefault ..
  | .declaration _ | .returnValue none _ | .returnValue (some _) _ | .ifThen _ _ none _
  | .ifThen _ _ (some _) _ | .expr .. => rfl

mutual

theorem Expr.text_plain (marks : Bool) (depth : Nat) :
    ∀ e : Expr, (e.plain marks).text depth = e.text depth
  | .name _ => by simp only [Expr.plain, Expr.text, Identifier.plain]
  | .verbatim .. => by simp only [Expr.plain, Expr.text]
  | .literal v _ _ => by
    cases v <;> simp only [Expr.plain, Expr.text, LiteralValue.plainRaw]
  | .array es _ => by simp only [Expr.plain, Expr.text, Expr.texts_plain marks depth es]
  | .object ps _ => by simp only [Expr.plain, Expr.text, Property.texts_plain marks depth ps]
  | .member e _ _ => by simp only [Expr.plain, Expr.text, Expr.text_plain marks depth e]
  | .index e i _ => by
    simp only [Expr.plain, Expr.text, Expr.text_plain marks depth e, Expr.text_plain marks depth i]
  | .call f as _ => by
    simp only [Expr.plain, Expr.text, Expr.text_plain marks depth f,
      Expr.texts_plain marks depth as]
  | .unary _ e _ => by simp only [Expr.plain, Expr.text, Expr.text_plain marks depth e]
  | .binary _ l r _ => by
    simp only [Expr.plain, Expr.text, Expr.text_plain marks depth l, Expr.text_plain marks depth r]
  | .conditional t c a _ => by
    simp only [Expr.plain, Expr.text, Expr.text_plain marks depth t, Expr.text_plain marks depth c,
      Expr.text_plain marks depth a]
  | .assign _ t v _ => by
    simp only [Expr.plain, Expr.text, Expr.text_plain marks depth t, Expr.text_plain marks depth v]
  | .group e _ => by simp only [Expr.plain, Expr.text, Expr.text_plain marks depth e]
  | .arrow ids e _ => by
    simp only [Expr.plain, Expr.text, Expr.text_plain marks depth e, paramsText_plain]
  | .arrowBlock ids b _ => by
    simp only [Expr.plain, Expr.text, Block.text_plain marks depth b, paramsText_plain]

theorem Expr.texts_plain (marks : Bool) (depth : Nat) :
    ∀ es : List Expr, Expr.texts depth (Expr.plainList marks es) = Expr.texts depth es
  | [] => by simp only [Expr.plainList]
  | e :: es => by
    simp only [Expr.plainList, Expr.texts, Expr.text_plain marks depth e,
      Expr.texts_plain marks depth es]

theorem Property.text_plain (marks : Bool) (depth : Nat) :
    ∀ p : Property, (p.plain marks).text depth = p.text depth
  | ⟨key, value, shorthand, quoted, o⟩ => by
    have hshort := Property.isShort_plain marks ⟨key, value, shorthand, quoted, o⟩
    simp only [Property.plain] at hshort
    simp only [Property.plain, Property.text, hshort, Expr.text_plain marks depth value]

theorem Property.texts_plain (marks : Bool) (depth : Nat) :
    ∀ ps : List Property, Property.texts depth (Property.plainList marks ps)
      = Property.texts depth ps
  | [] => by simp only [Property.plainList]
  | p :: ps => by
    simp only [Property.plainList, Property.texts, Property.text_plain marks depth p,
      Property.texts_plain marks depth ps]

theorem Declarator.text_plain (marks : Bool) (depth : Nat) :
    ∀ d : Declarator, (d.plain marks).text depth = d.text depth
  | ⟨_, none, _⟩ => by simp only [Declarator.plain, Declarator.text, Identifier.plain]
  | ⟨_, some e, _⟩ => by
    simp only [Declarator.plain, Declarator.text, Expr.text_plain marks depth e, Identifier.plain]

theorem Declarator.texts_plain (marks : Bool) (depth : Nat) :
    ∀ ds : List Declarator, Declarator.texts depth (Declarator.plainList marks ds)
      = Declarator.texts depth ds
  | [] => by simp only [Declarator.plainList]
  | d :: ds => by
    simp only [Declarator.plainList, Declarator.texts, Declarator.text_plain marks depth d,
      Declarator.texts_plain marks depth ds]

theorem Block.text_plain (marks : Bool) (depth : Nat) :
    ∀ b : Block, (b.plain marks).text depth = b.text depth
  | ⟨[], _⟩ => by simp only [Block.plain, Stmt.plainList, Block.text]
  | ⟨stmt :: stmts, _⟩ => by
    have htexts := Stmt.texts_plain marks (depth + 1) (stmt :: stmts)
    simp only [Stmt.plainList] at htexts
    simp only [Block.plain, Stmt.plainList, Block.text, htexts]

theorem Declaration.text_plain (marks : Bool) (depth : Nat) :
    ∀ d : Declaration, (d.plain marks).text depth = d.text depth
  | .variables _ ds _ => by
    simp only [Declaration.plain, Declaration.text, Declarator.texts_plain marks depth ds]
  | .function _ ids b _ => by
    simp only [Declaration.plain, Declaration.text, Block.text_plain marks depth b,
      paramsText_plain, Identifier.plain]

theorem Stmt.text_plain (marks : Bool) (depth : Nat) :
    ∀ s : Stmt, (s.plain marks).text depth = s.text depth
  | .importDecl ss s _ => by simp only [Stmt.plain, Stmt.text, importText_plain]
  | .exportNamed ss s _ => by simp only [Stmt.plain, Stmt.text, exportText_plain]
  | .exportAll .. => by simp only [Stmt.plain, Stmt.text]
  | .exportDecl d _ => by simp only [Stmt.plain, Stmt.text, Declaration.text_plain marks depth d]
  | .exportDefault e _ => by simp only [Stmt.plain, Stmt.text, Expr.text_plain marks depth e]
  | .declaration d => by simp only [Stmt.plain, Stmt.text, Declaration.text_plain marks depth d]
  | .block b => by simp only [Stmt.plain, Stmt.text, Block.text_plain marks depth b]
  | .returnValue none _ => by simp only [Stmt.plain, Stmt.text]
  | .returnValue (some e) _ => by
    simp only [Stmt.plain, Stmt.text, Expr.text_plain marks depth e]
  | .ifThen t c none _ => by
    simp only [Stmt.plain, Stmt.text, Expr.text_plain marks depth t, Stmt.text_plain marks depth c,
      Stmt.branch_plain]
  | .ifThen t c (some a) _ => by
    simp only [Stmt.plain, Stmt.text, Expr.text_plain marks depth t, Stmt.text_plain marks depth c,
      Stmt.text_plain marks depth a, Stmt.branch_plain]
  | .expr e _ => by simp only [Stmt.plain, Stmt.text, Expr.text_plain marks depth e]

theorem Stmt.texts_plain (marks : Bool) (depth : Nat) :
    ∀ ss : List Stmt, Stmt.texts depth (Stmt.plainList marks ss) = Stmt.texts depth ss
  | [] => by simp only [Stmt.plainList]
  | s :: ss => by
    simp only [Stmt.plainList, Stmt.texts, Stmt.text_plain marks depth s,
      Stmt.texts_plain marks depth ss]

end

/-- **A module is printed as its plain one is.** -/
theorem Module.text_plain (marks : Bool) (m : Module) : (m.plain marks).text = m.text := by
  rw [Module.text, Module.plain, Stmt.texts_plain]
  rfl

theorem Module.text_eq_of_plain_eq {marks : Bool} {m m' : Module}
    (h : m'.plain marks = m.plain marks) : m'.text = m.text := by
  rw [← Module.text_plain marks m', h, Module.text_plain]

end MessageBinder
