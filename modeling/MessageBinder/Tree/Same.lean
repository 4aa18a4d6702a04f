import MessageBinder.Tree.Basic

/-!
# Equality of modules up to places

Two modules are the same if they differ in nothing but the places of their nodes. Literals are
compared by value and by the text they were written as.
-/

namespace MessageBinder

/-- Whether two values of literals are the same. -/
def LiteralValue.same : LiteralValue → LiteralValue → Bool
  | .text s, .text t => s = t
  | .integer m, .integer n => m = n
  | .float x, .float y => x == y
  | .truth a, .truth b => a = b
  | .null, .null => true
  | _, _ => false

/-- Whether two lists of identifiers write the same names. -/
def sameNames (ids ids' : List Identifier) : Bool := ids.map (·.name) = ids'.map (·.name)

/-- Whether two specifiers of imports are the same. -/
def ImportSpecifier.same : ImportSpecifier → ImportSpecifier → Bool
  | .named e b _, .named e' b' _ => e = e' && b.name = b'.name
  | .default b _, .default b' _ => b.name = b'.name
  | .all b _, .all b' _ => b.name = b'.name
  | _, _ => false

/-- Whether two specifiers of exports are the same. -/
def ExportSpecifier.same (s s' : ExportSpecifier) : Bool :=
  s.source.name = s'.source.name && s.exported = s'.exported

/-- Whether two lists are as long as each other and alike item by item. -/
def sameItems {α : Type} (same : α → α → Bool) : List α → List α → Bool
  | [], [] => true
  | x :: xs, y :: ys => same x y && sameItems same xs ys
  | _, _ => false

mutual

/-- Whether two expressions are the same. -/
def Expr.same : Expr → Expr → Bool
  | .name id, .name id' => id.name = id'.name
  | .literal v raw _, .literal v' raw' _ => v.same v' && raw = raw'
  | .verbatim t _, .verbatim t' _ => t = t'
  | .array es _, .array es' _ => Expr.sameList es es'
  | .object ps _, .object ps' _ => Property.sameList ps ps'
  | .member e p _, .member e' p' _ => e.same e' && p = p'
  | .index e i _, .index e' i' _ => e.same e' && i.same i'
  | .call f as _, .call f' as' _ => f.same f' && Expr.sameList as as'
  | .unary op e _, .unary op' e' _ => op = op' && e.same e'
  | .binary op l r _, .binary op' l' r' _ => op = op' && l.same l' && r.same r'
  | .conditional t c a _, .conditional t' c' a' _ => t.same t' && c.same c' && a.same a'
  | .assign op t v _, .assign op' t' v' _ => op = op' && t.same t' && v.same v'
  | .group e _, .group e' _ => e.same e'
  | .arrow ids e _, .arrow ids' e' _ => sameNames ids ids' && e.same e'
  | .arrowBlock ids b _, .arrowBlock ids' b' _ => sameNames ids ids' && b.same b'
  | _, _ => false

/-- Whether two lists of expressions are the same. -/
def Expr.sameList : List Expr → List Expr → Bool
  | [], [] => true
  | e :: es, e' :: es' => e.same e' && Expr.sameList es es'
  | _, _ => false

/-- Whether two properties are the same. -/
def Property.same : Property → Property → Bool
  | ⟨k, v, s, q, _⟩, ⟨k', v', s', q', _⟩ => k = k' && v.same v' && s = s' && q = q'

/-- Whether two lists of properties are the same. -/
def Property.sameList : List Property → List Property → Bool
  | [], [] => true
  | p :: ps, p' :: ps' => p.same p' && Property.sameList ps ps'
  | _, _ => false

/-- Whether two variables are the same. -/
def Declarator.same : Declarator → Declarator → Bool
  | ⟨id, none, _⟩, ⟨id', none, _⟩ => id.name = id'.name
  | ⟨id, some e, _⟩, ⟨id', some e', _⟩ => id.name = id'.name && e.same e'
  | _, _ => false

/-- Whether two lists of variables are the same. -/
def Declarator.sameList : List Declarator → List Declarator → Bool
  | [], [] => true
  | d :: ds, d' :: ds' => d.same d' && Declarator.sameList ds ds'
  | _, _ => false

/-- Whether two blocks are the same. -/
def Block.same : Block → Block → Bool
  | ⟨body, _⟩, ⟨body', _⟩ => Stmt.sameList body body'

/-- Whether two declarations are the same. -/
def Declaration.same : Declaration → Declaration → Bool
  | .variables k ds _, .variables k' ds' _ => k = k' && Declarator.sameList ds ds'
  | .function f ids b _, .function f' ids' b' _ =>
    f.name = f'.name && sameNames ids ids' && b.same b'
  | _, _ => false

/-- Whether two statements are the same. -/
def Stmt.same : Stmt → Stmt → Bool
  | .importDecl ss s _, .importDecl ss' s' _ => sameItems ImportSpecifier.same ss ss' && s = s'
  | .exportNamed ss s _, .exportNamed ss' s' _ => sameItems ExportSpecifier.same ss ss' && s = s'
  | .exportAll s _, .exportAll s' _ => s = s'
  | .exportDecl d _, .exportDecl d' _ => d.same d'
  | .exportDefault e _, .exportDefault e' _ => e.same e'
  | .declaration d, .declaration d' => d.same d'
  | .block b, .block b' => b.same b'
  | .returnValue none _, .returnValue none _ => true
  | .returnValue (some e) _, .returnValue (some e') _ => e.same e'
  | .ifThen t c none _, .ifThen t' c' none _ => t.same t' && c.same c'
  | .ifThen t c (some a) _, .ifThen t' c' (some a') _ => t.same t' && c.same c' && a.same a'
  | .expr e _, .expr e' _ => e.same e'
  | _, _ => false

/-- Whether two lists of statements are the same. -/
def Stmt.sameList : List Stmt → List Stmt → Bool
  | [], [] => true
  | s :: ss, s' :: ss' => s.same s' && Stmt.sameList ss ss'
  | _, _ => false

end

/-- Whether two modules are the same up to places. -/
def Module.same (m m' : Module) : Bool :=
  Stmt.sameList m.body m'.body && m.filename = m'.filename

end MessageBinder
