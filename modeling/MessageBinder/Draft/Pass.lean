import MessageBinder.Draft.Bind

/-!
# The pass over a module

Each statement that the module had before the pass meets each target in turn, as it is by then; what
the pass adds is never looked at. At the end the gate is closed.
-/

namespace MessageBinder

/-- How many names were bound. -/
structure BoundCounts where
  /-- The imported ones. -/
  imports : Nat := 0
  /-- The re-exported ones. -/
  exports : Nat := 0
deriving DecidableEq, Repr

namespace BoundCounts

/-- Both counts together. -/
def total (c : BoundCounts) : Nat := c.imports + c.exports

/-- The counts of two parts of a module. -/
def add (c c' : BoundCounts) : BoundCounts := ⟨c.imports + c'.imports, c.exports + c'.exports⟩

end BoundCounts

/-- What the pass made of a module. -/
structure BoundModule where
  /-- The module and its names. -/
  draft : Draft
  /-- How many names were bound. -/
  counts : BoundCounts
  /-- Whether the messages were put in. -/
  injected : Bool
  /-- The variable that holds them. -/
  variableName : Option String

namespace Drafting

/-- Binds what a statement has of a target. -/
def bindStmt (id : Nat) (target : Target) : Drafting BoundCounts := do
  match (← get).draft.current? id with
  | none => return {}
  | some stmt =>
    if !target.concerns stmt then return {}
    match stmt with
    | .importDecl specifiers _ _ =>
      return ⟨← bindAll stmt target (specifiers.filter target.matchesImport), 0⟩
    | .exportNamed specifiers source o => return ⟨0, ← moveMatching target specifiers source o⟩
    | _ => return {}

/-- Lets a statement meet targets in turn. -/
def bindTargets (id : Nat) : List Target → Drafting BoundCounts
  | [] => return {}
  | target :: targets => do
    let c ← bindStmt id target
    return c.add (← bindTargets id targets)

/-- Lets statements meet all targets in turn. -/
def bindStmts (targets : List Target) : List Stmt → Drafting BoundCounts
  | [] => return {}
  | stmt :: stmts => do
    let c ← bindTargets stmt.origin.id targets
    return c.add (← bindStmts targets stmts)

end Drafting

/-- Binds every use of the targets in a module whose source has the given path. -/
def Module.bindMessages (m : Module) (targets : List Target) (catalogues : CatalogueSource)
    (path : Option String) : Loads BoundModule := do
  let gate ← Loads.ofExcept ((Gate.ofPath path).mapError Failure.config)
  let pass : Drafting (BoundCounts × Bool) := do
    let counts ← Drafting.bindStmts targets m.body
    return (counts, ← Gate.close catalogues)
  let ((counts, injected), bench) ← pass.run ⟨.ofModule m, gate⟩
  return ⟨bench.draft, counts, injected, bench.gate.variableName⟩

end MessageBinder
