import MessageBinder.Tree.Basic

/-!
# The identifiers of a tree

Two traversals that treat all identifiers alike, whether they declare or use a name: the list of
them in the order of the tree, and the tree in which each is replaced. Renaming one identifier is
the second traversal with a replacement that looks at its origin, so that every other use of the
same name stays.
-/

namespace MessageBinder

mutual

/-- The identifiers of an expression in order. -/
def Expr.identifiers : Expr → List Identifier
  | .name id => [id]
  | .literal .. | .verbatim .. => []
  | .array es _ => Expr.identifiersList es
  | .object ps _ => Property.identifiersList ps
  | .member e _ _ => e.identifiers
  | .index e i _ => e.identifiers ++ i.identifiers
  | .call f as _ => f.identifiers ++ Expr.identifiersList as
  | .unary _ e _ => e.identifiers
  | .binary _ l r _ => l.identifiers ++ r.identifiers
  | .conditional t c a _ => t.identifiers ++ c.identifiers ++ a.identifiers
  | .assign _ t v _ => t.identifiers ++ v.identifiers
  | .group e _ => e.identifiers
  | .arrow ids e _ => ids ++ e.identifiers
  | .arrowBlock ids b _ => ids ++ b.identifiers

/-- The identifiers of expressions in order. -/
def Expr.identifiersList : List Expr → List Identifier
  | [] => []
  | e :: es => e.identifiers ++ Expr.identifiersList es

/-- The identifiers of properties in order. -/
def Property.identifiersList : List Property → List Identifier
  | [] => []
  | ⟨_, v, _, _, _⟩ :: ps => v.identifiers ++ Property.identifiersList ps

/-- The identifiers of variables in order. -/
def Declarator.identifiersList : List Declarator → List Identifier
  | [] => []
  | ⟨id, none, _⟩ :: ds => id :: Declarator.identifiersList ds
  | ⟨id, some e, _⟩ :: ds => id :: e.identifiers ++ Declarator.identifiersList ds

/-- The identifiers of a block in order. -/
def Block.identifiers : Block → List Identifier
  | ⟨body, _⟩ => Stmt.identifiersList body

/-- The identifiers of a declaration in order. -/
def Declaration.identifiers : Declaration → List Identifier
  | .variables _ ds _ => Declarator.identifiersList ds
  | .function f ids b _ => f :: ids ++ b.identifiers

/-- The identifiers of a statement in order. -/
def Stmt.identifiers : Stmt → List Identifier
  | .importDecl ss _ _ => ss.map ImportSpecifier.binding
  | .exportNamed ss _ _ => ss.map ExportSpecifier.source
  | .exportAll .. => []
  | .exportDecl d _ => d.identifiers
  | .exportDefault e _ => e.identifiers
  | .declaration d => d.identifiers
  | .block b => b.identifiers
  | .returnValue none _ => []
  | .returnValue (some e) _ => e.identifiers
  | .ifThen t c none _ => t.identifiers ++ c.identifiers
  | .ifThen t c (some a) _ => t.identifiers ++ c.identifiers ++ a.identifiers
  | .expr e _ => e.identifiers

/-- The identifiers of statements in order. -/
def Stmt.identifiersList : List Stmt → List Identifier
  | [] => []
  | s :: ss => s.identifiers ++ Stmt.identifiersList ss

end

/-- The identifiers of a module in order. -/
def Module.identifiers (m : Module) : List Identifier := Stmt.identifiersList m.body

/-! ### Replacing identifiers -/

/-- The specifier with its identifier replaced. -/
def ImportSpecifier.mapIds (f : Identifier → Identifier) : ImportSpecifier → ImportSpecifier
  | .named exported binding o => .named exported (f binding) o
  | .default binding o => .default (f binding) o
  | .all binding o => .all (f binding) o

/-- The specifier with its identifier replaced. -/
def ExportSpecifier.mapIds (f : Identifier → Identifier) (s : ExportSpecifier) : ExportSpecifier :=
  { s with source := f s.source }

mutual

/-- The expression with its identifiers replaced. -/
def Expr.mapIds (f : Identifier → Identifier) : Expr → Expr
  | .name id => .name (f id)
  | .literal v raw o => .literal v raw o
  | .verbatim text o => .verbatim text o
  | .array es o => .array (Expr.mapIdsList f es) o
  | .object ps o => .object (Property.mapIdsList f ps) o
  | .member e p o => .member (e.mapIds f) p o
  | .index e i o => .index (e.mapIds f) (i.mapIds f) o
  | .call e as o => .call (e.mapIds f) (Expr.mapIdsList f as) o
  | .unary op e o => .unary op (e.mapIds f) o
  | .binary op l r o => .binary op (l.mapIds f) (r.mapIds f) o
  | .conditional t c a o => .conditional (t.mapIds f) (c.mapIds f) (a.mapIds f) o
  | .assign op t v o => .assign op (t.mapIds f) (v.mapIds f) o
  | .group e o => .group (e.mapIds f) o
  | .arrow ids e o => .arrow (ids.map f) (e.mapIds f) o
  | .arrowBlock ids b o => .arrowBlock (ids.map f) (b.mapIds f) o

/-- The expressions with their identifiers replaced. -/
def Expr.mapIdsList (f : Identifier → Identifier) : List Expr → List Expr
  | [] => []
  | e :: es => e.mapIds f :: Expr.mapIdsList f es

/-- The properties with their identifiers replaced. -/
def Property.mapIdsList (f : Identifier → Identifier) : List Property → List Property
  | [] => []
  | ⟨k, v, s, q, o⟩ :: ps => ⟨k, v.mapIds f, s, q, o⟩ :: Property.mapIdsList f ps

/-- The variables with their identifiers replaced. -/
def Declarator.mapIdsList (f : Identifier → Identifier) : List Declarator → List Declarator
  | [] => []
  | ⟨id, none, o⟩ :: ds => ⟨f id, none, o⟩ :: Declarator.mapIdsList f ds
  | ⟨id, some e, o⟩ :: ds => ⟨f id, some (e.mapIds f), o⟩ :: Declarator.mapIdsList f ds

/-- The block with its identifiers replaced. -/
def Block.mapIds (f : Identifier → Identifier) : Block → Block
  | ⟨body, o⟩ => ⟨Stmt.mapIdsList f body, o⟩

/-- The declaration with its identifiers replaced. -/
def Declaration.mapIds (f : Identifier → Identifier) : Declaration → Declaration
  | .variables k ds o => .variables k (Declarator.mapIdsList f ds) o
  | .function g ids b o => .function (f g) (ids.map f) (b.mapIds f) o

/-- The statement with its identifiers replaced. -/
def Stmt.mapIds (f : Identifier → Identifier) : Stmt → Stmt
  | .importDecl ss s o => .importDecl (ss.map (ImportSpecifier.mapIds f)) s o
  | .exportNamed ss s o => .exportNamed (ss.map (ExportSpecifier.mapIds f)) s o
  | .exportAll s o => .exportAll s o
  | .exportDecl d o => .exportDecl (d.mapIds f) o
  | .exportDefault e o => .exportDefault (e.mapIds f) o
  | .declaration d => .declaration (d.mapIds f)
  | .block b => .block (b.mapIds f)
  | .returnValue none o => .returnValue none o
  | .returnValue (some e) o => .returnValue (some (e.mapIds f)) o
  | .ifThen t c none o => .ifThen (t.mapIds f) (c.mapIds f) none o
  | .ifThen t c (some a) o => .ifThen (t.mapIds f) (c.mapIds f) (some (a.mapIds f)) o
  | .expr e o => .expr (e.mapIds f) o

/-- The statements with their identifiers replaced. -/
def Stmt.mapIdsList (f : Identifier → Identifier) : List Stmt → List Stmt
  | [] => []
  | s :: ss => s.mapIds f :: Stmt.mapIdsList f ss

end

/-- Gives a new name to the identifier with the given number and leaves every other one alone. -/
def Identifier.renamed (id : Nat) (name : String) (i : Identifier) : Identifier :=
  if i.origin.id = id then { i with name } else i

/-- The module in which one identifier has a new name. -/
def Module.rename (id : Nat) (name : String) (m : Module) : Module :=
  { m with body := Stmt.mapIdsList (Identifier.renamed id name) m.body }

end MessageBinder
