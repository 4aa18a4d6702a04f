import Mathlib.Data.List.Nodup
import MessageBinder.Tree.Identifiers

/-!
# Where identifiers stand

An identifier of a module either uses a name, declares one, or stands in a re-export, where it names
an export of another module and neither uses nor declares anything here. The first two kinds are
listed by traversals of their own, which know nothing of scopes: `MessageBinder.Stmt.uses` and
`MessageBinder.Stmt.binders` follow the grammar alone.

No identifier counts twice (`MessageBinder.Stmt.nodup_uses_append_binders`), so that in a module
whose identifiers have different numbers the uses have, and no use has the number of a binder.
-/

namespace MessageBinder

mutual

/-- The identifiers of an expression that use a name. -/
def Expr.uses : Expr → List Identifier
  | .name id => [id]
  | .literal .. | .verbatim .. => []
  | .array es _ => Expr.usesList es
  | .object ps _ => Property.usesList ps
  | .member e _ _ => e.uses
  | .index e i _ => e.uses ++ i.uses
  | .call f as _ => f.uses ++ Expr.usesList as
  | .unary _ e _ => e.uses
  | .binary _ l r _ => l.uses ++ r.uses
  | .conditional t c a _ => t.uses ++ c.uses ++ a.uses
  | .assign _ t v _ => t.uses ++ v.uses
  | .group e _ => e.uses
  | .arrow _ e _ => e.uses
  | .arrowBlock _ b _ => b.uses

/-- The identifiers of expressions that use a name. -/
def Expr.usesList : List Expr → List Identifier
  | [] => []
  | e :: es => e.uses ++ Expr.usesList es

/-- The identifiers of properties that use a name: those of their values. -/
def Property.usesList : List Property → List Identifier
  | [] => []
  | ⟨_, v, _, _, _⟩ :: ps => v.uses ++ Property.usesList ps

/-- The identifiers of variables that use a name: those of their first values. -/
def Declarator.usesList : List Declarator → List Identifier
  | [] => []
  | ⟨_, none, _⟩ :: ds => Declarator.usesList ds
  | ⟨_, some e, _⟩ :: ds => e.uses ++ Declarator.usesList ds

/-- The identifiers of a block that use a name. -/
def Block.uses : Block → List Identifier
  | ⟨body, _⟩ => Stmt.usesList body

/-- The identifiers of a declaration that use a name. -/
def Declaration.uses : Declaration → List Identifier
  | .variables _ ds _ => Declarator.usesList ds
  | .function _ _ b _ => b.uses

/-- The identifiers of a statement that use a name. A list of exports uses the names in it unless it
has a source. -/
def Stmt.uses : Stmt → List Identifier
  | .importDecl .. => []
  | .exportNamed ss none _ => ss.map ExportSpecifier.source
  | .exportNamed _ (some _) _ => []
  | .exportAll .. => []
  | .exportDecl d _ => d.uses
  | .exportDefault e _ => e.uses
  | .declaration d => d.uses
  | .block b => b.uses
  | .returnValue none _ => []
  | .returnValue (some e) _ => e.uses
  | .ifThen t c none _ => t.uses ++ c.uses
  | .ifThen t c (some a) _ => t.uses ++ c.uses ++ a.uses
  | .expr e _ => e.uses

/-- The identifiers of statements that use a name. -/
def Stmt.usesList : List Stmt → List Identifier
  | [] => []
  | s :: ss => s.uses ++ Stmt.usesList ss

end

mutual

/-- The identifiers of an expression that declare a name. -/
def Expr.binders : Expr → List Identifier
  | .name _ | .literal .. | .verbatim .. => []
  | .array es _ => Expr.bindersList es
  | .object ps _ => Property.bindersList ps
  | .member e _ _ => e.binders
  | .index e i _ => e.binders ++ i.binders
  | .call f as _ => f.binders ++ Expr.bindersList as
  | .unary _ e _ => e.binders
  | .binary _ l r _ => l.binders ++ r.binders
  | .conditional t c a _ => t.binders ++ c.binders ++ a.binders
  | .assign _ t v _ => t.binders ++ v.binders
  | .group e _ => e.binders
  | .arrow ids e _ => ids ++ e.binders
  | .arrowBlock ids b _ => ids ++ b.binders

/-- The identifiers of expressions that declare a name. -/
def Expr.bindersList : List Expr → List Identifier
  | [] => []
  | e :: es => e.binders ++ Expr.bindersList es

/-- The identifiers of properties that declare a name. -/
def Property.bindersList : List Property → List Identifier
  | [] => []
  | ⟨_, v, _, _, _⟩ :: ps => v.binders ++ Property.bindersList ps

/-- The identifiers of variables that declare a name: the variables and those of their first
values. -/
def Declarator.bindersList : List Declarator → List Identifier
  | [] => []
  | ⟨id, none, _⟩ :: ds => id :: Declarator.bindersList ds
  | ⟨id, some e, _⟩ :: ds => id :: e.binders ++ Declarator.bindersList ds

/-- The identifiers of a block that declare a name. -/
def Block.binders : Block → List Identifier
  | ⟨body, _⟩ => Stmt.bindersList body

/-- The identifiers of a declaration that declare a name. -/
def Declaration.binders : Declaration → List Identifier
  | .variables _ ds _ => Declarator.bindersList ds
  | .function f ids b _ => f :: ids ++ b.binders

/-- The identifiers of a statement that declare a name, in whatever position it stands. -/
def Stmt.binders : Stmt → List Identifier
  | .importDecl ss _ _ => ss.map ImportSpecifier.binding
  | .exportNamed .. | .exportAll .. => []
  | .exportDecl d _ => d.binders
  | .exportDefault e _ => e.binders
  | .declaration d => d.binders
  | .block b => b.binders
  | .returnValue none _ => []
  | .returnValue (some e) _ => e.binders
  | .ifThen t c none _ => t.binders ++ c.binders
  | .ifThen t c (some a) _ => t.binders ++ c.binders ++ a.binders
  | .expr e _ => e.binders

/-- The identifiers of statements that declare a name. -/
def Stmt.bindersList : List Stmt → List Identifier
  | [] => []
  | s :: ss => s.binders ++ Stmt.bindersList ss

end

/-- The identifiers of a module that use a name. -/
def Module.uses (m : Module) : List Identifier := Stmt.usesList m.body

/-- The identifiers of a module that declare a name. -/
def Module.binders (m : Module) : List Identifier := Stmt.bindersList m.body

/-! ### No identifier is counted twice -/

section Count

variable (p : Identifier → Bool)

mutual

theorem Expr.countP_uses_add_binders (e : Expr) :
    e.uses.countP p + e.binders.countP p ≤ e.identifiers.countP p := by
  cases e with
  | name id => simp [Expr.uses, Expr.binders, Expr.identifiers]
  | literal v raw o => simp [Expr.uses, Expr.binders]
  | verbatim t o => simp [Expr.uses, Expr.binders]
  | array es o =>
    simpa [Expr.uses, Expr.binders, Expr.identifiers] using Expr.countP_usesList_add_binders es
  | object ps o =>
    simpa [Expr.uses, Expr.binders, Expr.identifiers] using Property.countP_usesList_add_binders ps
  | member e q o =>
    simpa [Expr.uses, Expr.binders, Expr.identifiers] using e.countP_uses_add_binders
  | index e i o =>
    have h1 := e.countP_uses_add_binders
    have h2 := i.countP_uses_add_binders
    simp only [Expr.uses, Expr.binders, Expr.identifiers, List.countP_append]
    omega
  | call f as o =>
    have h1 := f.countP_uses_add_binders
    have h2 := Expr.countP_usesList_add_binders as
    simp only [Expr.uses, Expr.binders, Expr.identifiers, List.countP_append]
    omega
  | unary op e o =>
    simpa [Expr.uses, Expr.binders, Expr.identifiers] using e.countP_uses_add_binders
  | binary op l r o =>
    have h1 := l.countP_uses_add_binders
    have h2 := r.countP_uses_add_binders
    simp only [Expr.uses, Expr.binders, Expr.identifiers, List.countP_append]
    omega
  | conditional t c a o =>
    have h1 := t.countP_uses_add_binders
    have h2 := c.countP_uses_add_binders
    have h3 := a.countP_uses_add_binders
    simp only [Expr.uses, Expr.binders, Expr.identifiers, List.countP_append]
    omega
  | assign op t v o =>
    have h1 := t.countP_uses_add_binders
    have h2 := v.countP_uses_add_binders
    simp only [Expr.uses, Expr.binders, Expr.identifiers, List.countP_append]
    omega
  | group e o =>
    simpa [Expr.uses, Expr.binders, Expr.identifiers] using e.countP_uses_add_binders
  | arrow ids e o =>
    have h1 := e.countP_uses_add_binders
    simp only [Expr.uses, Expr.binders, Expr.identifiers, List.countP_append]
    omega
  | arrowBlock ids b o =>
    have h1 := b.countP_uses_add_binders
    simp only [Expr.uses, Expr.binders, Expr.identifiers, List.countP_append]
    omega

theorem Expr.countP_usesList_add_binders (es : List Expr) :
    (Expr.usesList es).countP p + (Expr.bindersList es).countP p
      ≤ (Expr.identifiersList es).countP p := by
  match es with
  | [] => simp [Expr.usesList, Expr.bindersList]
  | e :: es =>
    have h1 := e.countP_uses_add_binders
    have h2 := Expr.countP_usesList_add_binders es
    simp only [Expr.usesList, Expr.bindersList, Expr.identifiersList, List.countP_append]
    omega

theorem Property.countP_usesList_add_binders (ps : List Property) :
    (Property.usesList ps).countP p + (Property.bindersList ps).countP p
      ≤ (Property.identifiersList ps).countP p := by
  match ps with
  | [] => simp [Property.usesList, Property.bindersList]
  | ⟨_, v, _, _, _⟩ :: ps =>
    have h1 := v.countP_uses_add_binders
    have h2 := Property.countP_usesList_add_binders ps
    simp only [Property.usesList, Property.bindersList, Property.identifiersList,
      List.countP_append]
    omega

theorem Declarator.countP_usesList_add_binders (ds : List Declarator) :
    (Declarator.usesList ds).countP p + (Declarator.bindersList ds).countP p
      ≤ (Declarator.identifiersList ds).countP p := by
  match ds with
  | [] => simp [Declarator.usesList, Declarator.bindersList]
  | ⟨_, none, _⟩ :: ds =>
    have h1 := Declarator.countP_usesList_add_binders ds
    simp only [Declarator.usesList, Declarator.bindersList, Declarator.identifiersList,
      List.countP_cons]
    omega
  | ⟨_, some e, _⟩ :: ds =>
    have h1 := e.countP_uses_add_binders
    have h2 := Declarator.countP_usesList_add_binders ds
    simp only [Declarator.usesList, Declarator.bindersList, Declarator.identifiersList,
      List.countP_append, List.countP_cons]
    omega

theorem Block.countP_uses_add_binders (b : Block) :
    b.uses.countP p + b.binders.countP p ≤ b.identifiers.countP p := by
  match b with
  | ⟨body, _⟩ =>
    simpa only [Block.uses, Block.binders, Block.identifiers] using
      Stmt.countP_usesList_add_binders body

theorem Declaration.countP_uses_add_binders (d : Declaration) :
    d.uses.countP p + d.binders.countP p ≤ d.identifiers.countP p := by
  match d with
  | .variables _ ds _ =>
    simpa only [Declaration.uses, Declaration.binders, Declaration.identifiers] using
      Declarator.countP_usesList_add_binders ds
  | .function f ids b _ =>
    have h1 := b.countP_uses_add_binders
    simp only [Declaration.uses, Declaration.binders, Declaration.identifiers, List.countP_append,
      List.countP_cons]
    omega

theorem Stmt.countP_uses_add_binders (s : Stmt) :
    s.uses.countP p + s.binders.countP p ≤ s.identifiers.countP p := by
  match s with
  | .importDecl .. => simp [Stmt.uses, Stmt.binders, Stmt.identifiers]
  | .exportNamed _ none _ => simp [Stmt.uses, Stmt.binders, Stmt.identifiers]
  | .exportNamed _ (some _) _ => simp [Stmt.uses, Stmt.binders]
  | .exportAll .. => simp [Stmt.uses, Stmt.binders]
  | .exportDecl d _ =>
    simpa only [Stmt.uses, Stmt.binders, Stmt.identifiers] using d.countP_uses_add_binders
  | .exportDefault e _ =>
    simpa only [Stmt.uses, Stmt.binders, Stmt.identifiers] using e.countP_uses_add_binders
  | .declaration d =>
    simpa only [Stmt.uses, Stmt.binders, Stmt.identifiers] using d.countP_uses_add_binders
  | .block b =>
    simpa only [Stmt.uses, Stmt.binders, Stmt.identifiers] using b.countP_uses_add_binders
  | .returnValue none _ => simp [Stmt.uses, Stmt.binders]
  | .returnValue (some e) _ =>
    simpa only [Stmt.uses, Stmt.binders, Stmt.identifiers] using e.countP_uses_add_binders
  | .ifThen t c none _ =>
    have h1 := t.countP_uses_add_binders
    have h2 := c.countP_uses_add_binders
    simp only [Stmt.uses, Stmt.binders, Stmt.identifiers, List.countP_append]
    omega
  | .ifThen t c (some a) _ =>
    have h1 := t.countP_uses_add_binders
    have h2 := c.countP_uses_add_binders
    have h3 := a.countP_uses_add_binders
    simp only [Stmt.uses, Stmt.binders, Stmt.identifiers, List.countP_append]
    omega
  | .expr e _ =>
    simpa only [Stmt.uses, Stmt.binders, Stmt.identifiers] using e.countP_uses_add_binders

theorem Stmt.countP_usesList_add_binders (ss : List Stmt) :
    (Stmt.usesList ss).countP p + (Stmt.bindersList ss).countP p
      ≤ (Stmt.identifiersList ss).countP p := by
  match ss with
  | [] => simp [Stmt.usesList, Stmt.bindersList]
  | s :: ss =>
    have h1 := s.countP_uses_add_binders
    have h2 := Stmt.countP_usesList_add_binders ss
    simp only [Stmt.usesList, Stmt.bindersList, Stmt.identifiersList, List.countP_append]
    omega

end

end Count

/-- Uses and binders are identifiers. -/
theorem Stmt.uses_append_binders_subset (ss : List Stmt) :
    Stmt.usesList ss ++ Stmt.bindersList ss ⊆ Stmt.identifiersList ss := by
  intro id h
  have hpos : 0 < (Stmt.usesList ss ++ Stmt.bindersList ss).countP (· = id) :=
    List.countP_pos_iff.2 ⟨id, h, decide_eq_true rfl⟩
  rw [List.countP_append] at hpos
  obtain ⟨id', hid', heq⟩ := List.countP_pos_iff.1
    (Nat.lt_of_lt_of_le hpos (Stmt.countP_usesList_add_binders (· = id) ss))
  exact of_decide_eq_true heq ▸ hid'

/-- The numbers of identifiers. -/
def Identifier.numbers (ids : List Identifier) : List Nat := ids.map (·.origin.id)

/-- **Uses and binders are different identifiers.** -/
theorem Stmt.nodup_uses_append_binders {ss : List Stmt}
    (h : (Identifier.numbers (Stmt.identifiersList ss)).Nodup) :
    (Identifier.numbers (Stmt.usesList ss ++ Stmt.bindersList ss)).Nodup := by
  rw [List.nodup_iff_count_le_one] at h ⊢
  intro n
  have hcount := Stmt.countP_usesList_add_binders (fun id => id.origin.id == n) ss
  have hn := h n
  simp only [Identifier.numbers, List.count_eq_countP, List.countP_map, List.countP_append,
    Function.comp_def] at hn ⊢
  omega

end MessageBinder
