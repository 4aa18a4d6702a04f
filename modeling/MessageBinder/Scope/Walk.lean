import MessageBinder.Scope.Basic

/-!
# Resolving a module

A walk over the tree turns it into a sequence of events, each of which changes the scope: a name is
declared, used, or noted where it stands. Declarations come before the uses around them. A module
and the body of a function first declare their own statements and every `var` nested in blocks and
branches below them, whatever the order of the statements; a block declares its own `const`, `let`
and functions. An arrow function has a frame of its own even where its body is an expression.

A declaration that is itself the branch of a choice, or an import inside a block, declares nothing.
-/

namespace MessageBinder

/-- One step of a walk. -/
inductive ScopeEvent where
  /-- An identifier is declared in the innermost frame of the chain. -/
  | declare (chain : Chain) (id : Identifier) (kind : BindingKind) (declaration : Origin)
  /-- An identifier is used. -/
  | use (chain : Chain) (id : Identifier)
  /-- The place of an identifier is noted. -/
  | place (chain : Chain) (id : Identifier)
deriving DecidableEq, Repr

/-- The scope after an event. -/
def Scope.step (s : Scope) : ScopeEvent → Scope
  | .declare chain id kind declaration => s.declare chain id kind declaration
  | .use chain id => s.addUse chain id
  | .place chain id => s.place chain id

/-- The scope after events. -/
def Scope.steps (s : Scope) (events : List ScopeEvent) : Scope := events.foldl Scope.step s

/-! ### Declarations -/

/-- The frame chain in which a kind of variable is declared. -/
def VariableKind.chain (chain : Chain) : VariableKind → Chain
  | .var => chain.function
  | _ => chain

/-- The declarations of a declaration. -/
def Declaration.declares (chain : Chain) : Declaration → List ScopeEvent
  | .variables kind ds o =>
    ds.map fun d => .declare (kind.chain chain) d.id (.declared kind) o
  | .function name _ _ o => [.declare chain name .function o]

/-- Whether a declaration is one of `var`. -/
def Declaration.isVar : Declaration → Bool
  | .variables .var _ _ => true
  | _ => false

mutual

/-- The `var` declarations of a statement and of the blocks and branches in it. -/
def Stmt.varDeclares (chain : Chain) : Stmt → List ScopeEvent
  | .declaration d => if d.isVar then d.declares chain else []
  | .block ⟨body, _⟩ => Stmt.varDeclaresList chain body
  | .ifThen _ c none _ => c.varDeclares chain
  | .ifThen _ c (some a) _ => c.varDeclares chain ++ a.varDeclares chain
  | _ => []

/-- The `var` declarations of statements and of the blocks and branches in them. -/
def Stmt.varDeclaresList (chain : Chain) : List Stmt → List ScopeEvent
  | [] => []
  | s :: ss => s.varDeclares chain ++ Stmt.varDeclaresList chain ss

end

/-- What a statement of a module or of a function body declares. -/
def Stmt.declares (chain : Chain) : Stmt → List ScopeEvent
  | .importDecl specifiers _ o =>
    specifiers.map fun s => .declare chain s.binding .importName o
  | .exportDecl d _ => d.declares chain
  | .declaration d => d.declares chain
  | stmt => stmt.varDeclares chain

/-- What the statements of a module or of a function body declare. -/
def Stmt.declaresList (chain : Chain) (body : List Stmt) : List ScopeEvent :=
  body.flatMap (·.declares chain)

/-- What a statement of a block declares in it. -/
def Stmt.blockDeclares (chain : Chain) : Stmt → List ScopeEvent
  | .declaration d => if d.isVar then [] else d.declares chain
  | _ => []

/-- The declarations of parameters. -/
def paramDeclares (chain : Chain) (params : List Identifier) : List ScopeEvent :=
  params.map fun p => .declare chain p .parameter p.origin

/-! ### Uses -/

mutual

/-- The events inside an expression. -/
def Expr.walk (chain : Chain) : Expr → List ScopeEvent
  | .name id => [.use chain id]
  | .literal .. | .verbatim .. => []
  | .array es _ => Expr.walkList chain es
  | .object ps _ => Property.walkList chain ps
  | .member e _ _ => e.walk chain
  | .index e i _ => e.walk chain ++ i.walk chain
  | .call f as _ => f.walk chain ++ Expr.walkList chain as
  | .unary _ e _ => e.walk chain
  | .binary _ l r _ => l.walk chain ++ r.walk chain
  | .conditional t c a _ => t.walk chain ++ c.walk chain ++ a.walk chain
  | .assign _ t v _ => t.walk chain ++ v.walk chain
  | .group e _ => e.walk chain
  | .arrow params e o =>
    let inner := .function o.id :: chain
    paramDeclares inner params ++ e.walk inner
  | .arrowBlock params b o => b.walkFunction (.function o.id :: chain) params

/-- The events inside expressions. -/
def Expr.walkList (chain : Chain) : List Expr → List ScopeEvent
  | [] => []
  | e :: es => e.walk chain ++ Expr.walkList chain es

/-- The events inside properties. -/
def Property.walkList (chain : Chain) : List Property → List ScopeEvent
  | [] => []
  | ⟨_, v, _, _, _⟩ :: ps => v.walk chain ++ Property.walkList chain ps

/-- The events inside variables. -/
def Declarator.walkList (chain : Chain) : List Declarator → List ScopeEvent
  | [] => []
  | ⟨_, none, _⟩ :: ds => Declarator.walkList chain ds
  | ⟨_, some e, _⟩ :: ds => e.walk chain ++ Declarator.walkList chain ds

/-- The events of a function body in its own frame: parameters, declarations, uses. -/
def Block.walkFunction (chain : Chain) (params : List Identifier) : Block → List ScopeEvent
  | ⟨body, _⟩ =>
    paramDeclares chain params ++ Stmt.declaresList chain body ++ Stmt.walkList chain body

/-- The events of a block, which is a frame of its own. -/
def Block.walk (chain : Chain) : Block → List ScopeEvent
  | ⟨body, o⟩ =>
    let inner := .block o.id :: chain
    body.flatMap (Stmt.blockDeclares inner) ++ Stmt.walkList inner body

/-- The events inside a declaration. -/
def Declaration.walk (chain : Chain) : Declaration → List ScopeEvent
  | .variables _ ds _ => Declarator.walkList chain ds
  | .function _ params b o => b.walkFunction (.function o.id :: chain) params

/-- The events inside a statement, after its declarations. -/
def Stmt.walk (chain : Chain) : Stmt → List ScopeEvent
  | .importDecl specifiers _ _ => specifiers.map fun s => .place chain s.binding
  | .exportNamed specifiers none _ => specifiers.map fun s => .use chain s.source
  | .exportNamed _ (some _) _ => []
  | .exportAll .. => []
  | .exportDecl d _ => d.walk chain
  | .exportDefault e _ => e.walk chain
  | .declaration d => d.walk chain
  | .block b => b.walk chain
  | .returnValue none _ => []
  | .returnValue (some e) _ => e.walk chain
  | .ifThen t c none _ => t.walk chain ++ c.walk chain
  | .ifThen t c (some a) _ => t.walk chain ++ c.walk chain ++ a.walk chain
  | .expr e _ => e.walk chain

/-- The events inside statements. -/
def Stmt.walkList (chain : Chain) : List Stmt → List ScopeEvent
  | [] => []
  | s :: ss => s.walk chain ++ Stmt.walkList chain ss

end

/-! ### Modules -/

/-- The events of a module. -/
def Module.events (m : Module) : List ScopeEvent :=
  Stmt.declaresList [.module] m.body ++ Stmt.walkList [.module] m.body

/-- The scope of a module. -/
def Module.scope (m : Module) : Scope := Scope.steps {} m.events

namespace Scope

/-- Takes in a new statement of the module: its declarations, its uses, and then the uses that had
no binding and mean one of its declarations. -/
def register (s : Scope) (stmt : Stmt) : Scope :=
  let added := s.steps (stmt.declares [.module] ++ stmt.walk [.module])
  (added.moduleBindings.drop s.moduleBindings.length).foldl adopt added

end Scope

end MessageBinder
