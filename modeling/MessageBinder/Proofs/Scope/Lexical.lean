import MessageBinder.Proofs.Scope.Occurrences
import MessageBinder.Scope.Walk

/-!
# Lexical scoping

What the names of a module mean is a matter of its text alone. The parts of the text in which names
are declared are its *regions*: the module, the functions, and the blocks that are not bodies of
functions. A region declares what stands directly in it, a function also its parameters, and a
function and the module also every `var` in the blocks and branches below them
(`MessageBinder.Region.declared`). A name means, in the regions around it, the first declaration of
it in the innermost of them that declares it (`MessageBinder.Region.meaning?`).

Nothing here speaks of walks and of what happens first: `MessageBinder.Module.lexicalUses` lists the
uses of a module with the regions around each, and which declaration of a region is the first is
read off the list of its declarations, which stand in it in the order of the text
(`MessageBinder.Region.declared_sublist`). Only modules whose statements stand where the language
wants them are considered (`MessageBinder.Module.WellPlaced`).
-/

namespace MessageBinder

/-! ### Declarations -/

/-- A declared name. -/
structure Declared where
  /-- The identifier that declares it. -/
  identifier : Identifier
  /-- How it is declared. -/
  kind : BindingKind
  /-- Where its declaration stands. -/
  declaration : Origin

/-- What a declaration declares. -/
def Declaration.declared : Declaration → List Declared
  | .variables kind ds o => ds.map fun d => ⟨d.id, .declared kind, o⟩
  | .function name _ _ o => [⟨name, .function, o⟩]

namespace Stmt

/-- The names that an import statement imports. -/
def imported : Stmt → List Declared
  | importDecl specifiers _ o => specifiers.map fun s => ⟨s.binding, .importName, o⟩
  | _ => []

/-- What a statement that is a declaration by `const`, `let` or `function` declares, exported or
not. -/
def lexical : Stmt → List Declared
  | exportDecl d _ | declaration d => if d.isVar then [] else d.declared
  | _ => []

mutual

/-- The names that a statement declares by `var`, itself or in the blocks and branches in it.
Functions in it keep theirs. -/
def vars : Stmt → List Declared
  | exportDecl d _ | declaration d => if d.isVar then d.declared else []
  | block ⟨body, _⟩ => varsList body
  | ifThen _ c none _ => c.vars
  | ifThen _ c (some a) _ => c.vars ++ a.vars
  | _ => []

/-- The names that statements declare by `var`. -/
def varsList : List Stmt → List Declared
  | [] => []
  | s :: ss => s.vars ++ varsList ss

end

end Stmt

/-! ### Regions -/

/-- A part of the text in which names are declared. -/
inductive Region where
  /-- A module. -/
  | module (body : List Stmt)
  /-- A function with its parameters. The body of an arrow function that is an expression has no
  statements. -/
  | function (origin : Origin) (params : List Identifier) (body : List Stmt)
  /-- A block that is not the body of a function. -/
  | block (origin : Origin) (body : List Stmt)

namespace Region

/-- The frame of a region. -/
def frame : Region → Frame
  | module _ => .module
  | function o _ _ => .function o.id
  | block o _ => .block o.id

/-- The identifiers of a region. -/
def identifiers : Region → List Identifier
  | module body => Stmt.identifiersList body
  | function _ params body => params ++ Stmt.identifiersList body
  | block _ body => Stmt.identifiersList body

/-- **What a region declares**, in the order of the text. -/
def declared : Region → List Declared
  | module body => body.flatMap fun s => s.imported ++ s.lexical ++ s.vars
  | function _ params body =>
    params.map (fun p => ⟨p, .parameter, p.origin⟩) ++ body.flatMap fun s => s.lexical ++ s.vars
  | block _ body => body.flatMap Stmt.lexical

/-- What a region declares, as bindings that nothing uses. -/
def bindings (r : Region) : List Binding :=
  r.declared.map fun d => ⟨d.identifier.name, d.kind, d.identifier, d.declaration, r.frame, []⟩

/-- **What a name means** in the regions around it, innermost first. -/
def meaning? (R : List Region) (name : String) : Option Binding :=
  R.findSome? fun r => r.bindings.find? (·.name = name)

end Region

/-! ### Uses -/

mutual

/-- The uses in an expression, each with the regions around it. -/
def Expr.lexicalUses (R : List Region) : Expr → List (List Region × Identifier)
  | .name id => [(R, id)]
  | .literal .. | .verbatim .. => []
  | .array es _ => Expr.lexicalUsesList R es
  | .object ps _ => Property.lexicalUsesList R ps
  | .member e _ _ => e.lexicalUses R
  | .index e i _ => e.lexicalUses R ++ i.lexicalUses R
  | .call f as _ => f.lexicalUses R ++ Expr.lexicalUsesList R as
  | .unary _ e _ => e.lexicalUses R
  | .binary _ l r _ => l.lexicalUses R ++ r.lexicalUses R
  | .conditional t c a _ => t.lexicalUses R ++ c.lexicalUses R ++ a.lexicalUses R
  | .assign _ t v _ => t.lexicalUses R ++ v.lexicalUses R
  | .group e _ => e.lexicalUses R
  | .arrow params e o => e.lexicalUses (.function o params [] :: R)
  | .arrowBlock params ⟨body, _⟩ o => Stmt.lexicalUsesList (.function o params body :: R) body

/-- The uses in expressions. -/
def Expr.lexicalUsesList (R : List Region) : List Expr → List (List Region × Identifier)
  | [] => []
  | e :: es => e.lexicalUses R ++ Expr.lexicalUsesList R es

/-- The uses in properties. -/
def Property.lexicalUsesList (R : List Region) : List Property → List (List Region × Identifier)
  | [] => []
  | ⟨_, v, _, _, _⟩ :: ps => v.lexicalUses R ++ Property.lexicalUsesList R ps

/-- The uses in the first values of variables. -/
def Declarator.lexicalUsesList (R : List Region) :
    List Declarator → List (List Region × Identifier)
  | [] => []
  | ⟨_, none, _⟩ :: ds => Declarator.lexicalUsesList R ds
  | ⟨_, some e, _⟩ :: ds => e.lexicalUses R ++ Declarator.lexicalUsesList R ds

/-- The uses in a declaration. -/
def Declaration.lexicalUses (R : List Region) : Declaration → List (List Region × Identifier)
  | .variables _ ds _ => Declarator.lexicalUsesList R ds
  | .function _ params ⟨body, _⟩ o => Stmt.lexicalUsesList (.function o params body :: R) body

/-- The uses in a statement, each with the regions around it. -/
def Stmt.lexicalUses (R : List Region) : Stmt → List (List Region × Identifier)
  | .importDecl .. => []
  | .exportNamed specifiers none _ => specifiers.map fun s => (R, s.source)
  | .exportNamed _ (some _) _ => []
  | .exportAll .. => []
  | .exportDecl d _ => d.lexicalUses R
  | .exportDefault e _ => e.lexicalUses R
  | .declaration d => d.lexicalUses R
  | .block ⟨body, o⟩ => Stmt.lexicalUsesList (.block o body :: R) body
  | .returnValue none _ => []
  | .returnValue (some e) _ => e.lexicalUses R
  | .ifThen t c none _ => t.lexicalUses R ++ c.lexicalUses R
  | .ifThen t c (some a) _ => t.lexicalUses R ++ c.lexicalUses R ++ a.lexicalUses R
  | .expr e _ => e.lexicalUses R

/-- The uses in statements. -/
def Stmt.lexicalUsesList (R : List Region) : List Stmt → List (List Region × Identifier)
  | [] => []
  | s :: ss => s.lexicalUses R ++ Stmt.lexicalUsesList R ss

end

/-- **The uses of a module**, each with the regions around it, innermost first. -/
def Module.lexicalUses (m : Module) : List (List Region × Identifier) :=
  Stmt.lexicalUsesList [.module m.body] m.body

/-! ### Where declarations may stand -/

/-- The position of a statement. -/
inductive Placement where
  /-- Directly in a module. -/
  | top
  /-- Directly in a function or a block. -/
  | body
  /-- As the branch of a choice. -/
  | branch
deriving DecidableEq

mutual

/-- Whether the functions in an expression are well placed. -/
def Expr.wellPlaced : Expr → Bool
  | .name _ | .literal .. | .verbatim .. => true
  | .array es _ => Expr.wellPlacedList es
  | .object ps _ => Property.wellPlacedList ps
  | .member e _ _ => e.wellPlaced
  | .index e i _ => e.wellPlaced && i.wellPlaced
  | .call f as _ => f.wellPlaced && Expr.wellPlacedList as
  | .unary _ e _ => e.wellPlaced
  | .binary _ l r _ => l.wellPlaced && r.wellPlaced
  | .conditional t c a _ => t.wellPlaced && c.wellPlaced && a.wellPlaced
  | .assign _ t v _ => t.wellPlaced && v.wellPlaced
  | .group e _ => e.wellPlaced
  | .arrow _ e _ => e.wellPlaced
  | .arrowBlock _ ⟨body, _⟩ _ => Stmt.wellPlacedList .body body

/-- Whether the functions in expressions are well placed. -/
def Expr.wellPlacedList : List Expr → Bool
  | [] => true
  | e :: es => e.wellPlaced && Expr.wellPlacedList es

/-- Whether the functions in properties are well placed. -/
def Property.wellPlacedList : List Property → Bool
  | [] => true
  | ⟨_, v, _, _, _⟩ :: ps => v.wellPlaced && Property.wellPlacedList ps

/-- Whether the functions in variables are well placed. -/
def Declarator.wellPlacedList : List Declarator → Bool
  | [] => true
  | ⟨_, none, _⟩ :: ds => Declarator.wellPlacedList ds
  | ⟨_, some e, _⟩ :: ds => e.wellPlaced && Declarator.wellPlacedList ds

/-- Whether everything inside a declaration is well placed. -/
def Declaration.wellPlaced : Declaration → Bool
  | .variables _ ds _ => Declarator.wellPlacedList ds
  | .function _ _ ⟨body, _⟩ _ => Stmt.wellPlacedList .body body

/-- **Whether a statement and everything inside it is well placed**: imports and exports stand
directly in the module, and declarations other than `var` are not branches. -/
def Stmt.wellPlaced (p : Placement) : Stmt → Bool
  | .importDecl .. | .exportNamed .. | .exportAll .. => p = .top
  | .exportDecl d _ => p = .top && d.wellPlaced
  | .exportDefault e _ => p = .top && e.wellPlaced
  | .declaration d => (d.isVar || p ≠ .branch) && d.wellPlaced
  | .block ⟨body, _⟩ => Stmt.wellPlacedList .body body
  | .returnValue none _ => true
  | .returnValue (some e) _ => e.wellPlaced
  | .ifThen t c none _ => t.wellPlaced && c.wellPlaced .branch
  | .ifThen t c (some a) _ => t.wellPlaced && c.wellPlaced .branch && a.wellPlaced .branch
  | .expr e _ => e.wellPlaced

/-- Whether statements and everything inside them are well placed. -/
def Stmt.wellPlacedList (p : Placement) : List Stmt → Bool
  | [] => true
  | s :: ss => s.wellPlaced p && Stmt.wellPlacedList p ss

end

/-- **A module is well placed** if its imports and exports stand directly in it and its declarations
by `const`, `let` and `function` directly in it, in a function or in a block. -/
def Module.WellPlaced (m : Module) : Prop := Stmt.wellPlacedList .top m.body = true

instance (m : Module) : Decidable m.WellPlaced := inferInstanceAs (Decidable (_ = true))

/-! ### The order of the text -/

theorem Declaration.declared_sublist (d : Declaration) :
    (d.declared.map Declared.identifier).Sublist d.identifiers := by
  cases d with
  | «variables» kind ds o =>
    simp only [declared, identifiers, List.map_map]
    induction ds with
    | nil => exact List.Sublist.refl _
    | cons d ds ih =>
      obtain ⟨id, init, o'⟩ := d
      cases init with
      | none => exact ih.cons_cons id
      | some e => exact (ih.trans (List.sublist_append_right _ _)).cons_cons id
  | function f ids b o =>
    exact (List.nil_sublist _).cons_cons f

namespace Stmt

mutual

theorem vars_sublist (s : Stmt) : (s.vars.map Declared.identifier).Sublist s.identifiers := by
  match s with
  | exportDecl d _ | declaration d =>
    rw [vars]
    split
    · exact d.declared_sublist
    · exact List.nil_sublist _
  | block ⟨body, _⟩ => exact varsList_sublist body
  | ifThen t c none _ => exact (vars_sublist c).trans (List.sublist_append_right _ _)
  | ifThen t c (some a) _ =>
    rw [vars, List.map_append]
    exact ((vars_sublist c).trans (List.sublist_append_right _ _)).append (vars_sublist a)
  | importDecl .. | exportNamed .. | exportAll .. | exportDefault .. | returnValue .. | expr .. =>
    exact List.nil_sublist _

theorem varsList_sublist (ss : List Stmt) :
    ((varsList ss).map Declared.identifier).Sublist (identifiersList ss) := by
  match ss with
  | [] => exact List.Sublist.refl _
  | s :: ss =>
    rw [varsList, List.map_append]
    exact (vars_sublist s).append (varsList_sublist ss)

end

/-- A statement is an import, a declaration of its own, or contains declarations by `var`. -/
theorem declared_sublist (s : Stmt) :
    ((s.imported ++ s.lexical ++ s.vars).map Declared.identifier).Sublist s.identifiers := by
  match s with
  | importDecl ss _ o => simp [imported, lexical, vars, identifiers, Function.comp_def]
  | exportDecl d _ | declaration d =>
    simp only [imported, lexical, vars, identifiers, List.nil_append]
    split <;> simpa using d.declared_sublist
  | block _ | ifThen .. => exact vars_sublist _
  | exportNamed .. | exportAll .. | exportDefault .. | returnValue .. | expr .. =>
    exact List.nil_sublist _

end Stmt

/-- Statement by statement, what is declared stands in the order of the text. -/
theorem Stmt.flatMap_sublist {g : Stmt → List Declared}
    (hg : ∀ s, ((g s).map Declared.identifier).Sublist s.identifiers) (ss : List Stmt) :
    ((ss.flatMap g).map Declared.identifier).Sublist (identifiersList ss) := by
  induction ss with
  | nil => exact List.Sublist.refl _
  | cons s ss ih =>
    rw [List.flatMap_cons, List.map_append]
    exact (hg s).append ih

/-- **A region declares its names in the order of the text.** -/
theorem Region.declared_sublist (r : Region) :
    (r.declared.map Declared.identifier).Sublist r.identifiers := by
  have hvars : ∀ s : Stmt, ((s.lexical ++ s.vars).map Declared.identifier).Sublist s.identifiers :=
    fun s => by
      have h := s.declared_sublist
      rw [List.append_assoc, List.map_append] at h
      exact (List.sublist_append_right _ _).trans h
  have hlexical : ∀ s : Stmt, (s.lexical.map Declared.identifier).Sublist s.identifiers :=
    fun s => by
      have h := hvars s
      rw [List.map_append] at h
      exact (List.sublist_append_left _ _).trans h
  cases r with
  | module body => exact Stmt.flatMap_sublist Stmt.declared_sublist body
  | function o params body =>
    have hparams : ((params.map fun p => (⟨p, .parameter, p.origin⟩ : Declared)).map
        Declared.identifier) = params := by
      simp [Function.comp_def]
    rw [declared, identifiers, List.map_append, hparams]
    exact (Stmt.flatMap_sublist hvars body).append_left params
  | block o body => exact Stmt.flatMap_sublist hlexical body

mutual

theorem Expr.uses_sublist (e : Expr) : e.uses.Sublist e.identifiers := by
  match e with
  | .name _ | .literal .. | .verbatim .. => exact List.Sublist.refl _
  | .array es _ => exact Expr.usesList_sublist es
  | .object ps _ => exact Property.usesList_sublist ps
  | .member e _ _ | .unary _ e _ | .group e _ => exact Expr.uses_sublist e
  | .index e i _ => exact (Expr.uses_sublist e).append (Expr.uses_sublist i)
  | .call f as _ => exact (Expr.uses_sublist f).append (Expr.usesList_sublist as)
  | .binary _ l r _ | .assign _ l r _ => exact (Expr.uses_sublist l).append (Expr.uses_sublist r)
  | .conditional t c a _ =>
    exact ((Expr.uses_sublist t).append (Expr.uses_sublist c)).append (Expr.uses_sublist a)
  | .arrow _ e _ => exact (Expr.uses_sublist e).trans (List.sublist_append_right _ _)
  | .arrowBlock _ b _ => exact (Block.uses_sublist b).trans (List.sublist_append_right _ _)

theorem Expr.usesList_sublist (es : List Expr) :
    (Expr.usesList es).Sublist (Expr.identifiersList es) := by
  match es with
  | [] => exact List.Sublist.refl _
  | e :: es => exact (Expr.uses_sublist e).append (Expr.usesList_sublist es)

theorem Property.usesList_sublist (ps : List Property) :
    (Property.usesList ps).Sublist (Property.identifiersList ps) := by
  match ps with
  | [] => exact List.Sublist.refl _
  | ⟨_, v, _, _, _⟩ :: ps => exact (Expr.uses_sublist v).append (Property.usesList_sublist ps)

theorem Declarator.usesList_sublist (ds : List Declarator) :
    (Declarator.usesList ds).Sublist (Declarator.identifiersList ds) := by
  match ds with
  | [] => exact List.Sublist.refl _
  | ⟨id, none, _⟩ :: ds => exact (Declarator.usesList_sublist ds).cons id
  | ⟨id, some e, _⟩ :: ds =>
    exact ((Expr.uses_sublist e).append (Declarator.usesList_sublist ds)).cons id

theorem Block.uses_sublist (b : Block) : b.uses.Sublist b.identifiers := by
  match b with
  | ⟨body, _⟩ => exact Stmt.usesList_sublist body

theorem Declaration.uses_sublist (d : Declaration) : d.uses.Sublist d.identifiers := by
  match d with
  | .variables _ ds _ => exact Declarator.usesList_sublist ds
  | .function f _ b _ =>
    exact ((Block.uses_sublist b).trans (List.sublist_append_right _ _)).cons f

theorem Stmt.uses_sublist (s : Stmt) : s.uses.Sublist s.identifiers := by
  match s with
  | .importDecl .. | .exportNamed _ (some _) _ | .returnValue none _ => exact List.nil_sublist _
  | .exportNamed _ none _ | .exportAll .. => exact List.Sublist.refl _
  | .exportDecl d _ | .declaration d => exact Declaration.uses_sublist d
  | .exportDefault e _ | .returnValue (some e) _ | .expr e _ => exact Expr.uses_sublist e
  | .block b => exact Block.uses_sublist b
  | .ifThen t c none _ => exact (Expr.uses_sublist t).append (Stmt.uses_sublist c)
  | .ifThen t c (some a) _ =>
    exact ((Expr.uses_sublist t).append (Stmt.uses_sublist c)).append (Stmt.uses_sublist a)

theorem Stmt.usesList_sublist (ss : List Stmt) :
    (Stmt.usesList ss).Sublist (Stmt.identifiersList ss) := by
  match ss with
  | [] => exact List.Sublist.refl _
  | s :: ss => exact (Stmt.uses_sublist s).append (Stmt.usesList_sublist ss)

end

end MessageBinder
