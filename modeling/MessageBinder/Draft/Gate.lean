import MessageBinder.Locale.Collect
import MessageBinder.Draft.Basic

/-!
# The gate

The messages of a file enter its module through a gate. Whoever binds a function asks the gate for
the variable that will hold the messages; the first request fixes its name. Only when something
asked are the messages collected, when the gate is closed, and put in one constant at the front of
the module. A gate that nobody asked reads no file and leaves the module alone, and a collection
that fails changes nothing.
-/

namespace MessageBinder

/-- The gate of one module. -/
structure Gate where
  /-- The path of the source, which is not empty. -/
  source : String
  /-- The number of requests. -/
  requests : Nat := 0
  /-- The name of the variable, once something asked for it. -/
  variableName : Option String := none
  /-- The constant that holds the messages, once it is there. -/
  declaration : Option Stmt := none

/-- A draft with its gate. -/
structure Bench where
  /-- The module. -/
  draft : Draft
  /-- Its gate. -/
  gate : Gate

/-- A computation on a draft with its gate. It may load catalogues and fail; a failing step leaves
nothing behind but the paths it loaded. -/
abbrev Drafting := StateT Bench Loads

namespace Drafting

/-- Runs an edit of the draft. -/
def edit (f : Draft → Except AbsentStmt Draft) : Drafting Unit := do
  let b ← get
  match f b.draft with
  | .ok draft => set { b with draft }
  | .error e => throw (.edit e)

/-- A fresh name for a seed. -/
def freshName (seed : String) : Drafting String :=
  modifyGet fun b =>
    let (name, draft) := b.draft.freshName seed
    (name, { b with draft })

end Drafting

namespace Gate

/-- The gate of a source with a path. -/
def ofPath : Option String → Except ConfigError Gate
  | none => .error .missingFilename
  | some path => if path.isEmpty then .error .missingFilename else .ok { source := path }

/-- The name of the variable, which the first request fixes. -/
def request : Drafting String := do
  modify fun b => { b with gate := { b.gate with requests := b.gate.requests + 1 } }
  match (← get).gate.variableName with
  | some name => return name
  | none =>
    let name ← Drafting.freshName "messages"
    modify fun b => { b with gate := { b.gate with variableName := some name } }
    return name

/-- Closes the gate: if anything asked, the messages are collected and put at the front of the
module. Says whether they were. -/
def close (catalogues : CatalogueSource) : Drafting Bool := do
  let gate := (← get).gate
  if gate.requests = 0 then return false
  let record ← liftM (catalogues.record gate.source)
  modify fun b =>
    let (declaration, draft) :=
      b.draft.prepend (Stmt.messagesConstant (gate.variableName.getD "") record.literal)
    ⟨draft, { b.gate with declaration := some declaration }⟩
  return true

end Gate

end MessageBinder
