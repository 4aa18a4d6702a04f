import MessageBinder.Scope.FreshName
import MessageBinder.Scope.Walk
import MessageBinder.Sequence
import MessageBinder.Tree.Identifiers

/-!
# Drafts

A module in the making: its statements, its scope, and a number beyond every origin in use. Each
operation changes the statements and the scope together, so that they never disagree. What is added
to a module is made here: the constant that binds a function to the messages, the import and the
export around it, and the constant that holds the messages.
-/

namespace MessageBinder

/-- A module in the making. -/
structure Draft where
  /-- The statements. -/
  sequence : Sequence
  /-- The names. -/
  scope : Scope
  /-- The file, if it is known. -/
  filename : Option String
  /-- A number beyond every origin in use. -/
  next : Nat

/-! ### Added statements -/

namespace Stmt

/-- The number of origins that an added statement takes up at most. -/
def addedOrigins : Nat := 4

/-- An added identifier. -/
def addedId (name : String) (id : Nat) : Identifier := ⟨name, .synthetic id⟩

/-- An added constant. -/
def constant (name : String) (init : Expr) (id : Nat) : Stmt :=
  .declaration (.variables .const [⟨addedId name (id + 1), some init, .synthetic (id + 1)⟩]
    (.synthetic id))

/-- The constant `name` that holds `function` bound to the variable `messages`. -/
def boundConstant (name function messages : String) (id : Nat) : Stmt :=
  let callee := Expr.member (.name (addedId function (id + 2))) "bind" (.synthetic (id + 2))
  constant name (.call callee [.name (addedId messages (id + 3))] (.synthetic (id + 2))) id

/-- The constant `name` that holds the messages, given as a literal. -/
def messagesConstant (name : String) (literal : CodeText) (id : Nat) : Stmt :=
  constant name (.verbatim literal (.synthetic (id + 2))) id

/-- The import of `function` from `module` as `name`. -/
def addedImport (function name : String) (module : CodeText) (id : Nat) : Stmt :=
  .importDecl [.named function (addedId name (id + 1)) (.synthetic (id + 1))] module (.synthetic id)

/-- The export of `name` under the name `exported`. -/
def addedExport (name exported : String) (id : Nat) : Stmt :=
  .exportNamed [⟨addedId name (id + 1), exported, .synthetic (id + 1)⟩] none (.synthetic id)

end Stmt

namespace Draft

/-- The draft of a module as it was read. -/
def ofModule (m : Module) : Draft := ⟨⟨m.body, []⟩, m.scope, m.filename, m.next⟩

/-- The module that a draft stands for. -/
def toModule (d : Draft) : Module := ⟨d.sequence.body, d.filename, d.next⟩

/-! ### Operations -/

/-- A fresh name for a seed. -/
def freshName (d : Draft) (seed : String) : String × Draft :=
  let (name, scope) := d.scope.freshName seed
  (name, { d with scope })

/-- Renames one use of a name. -/
def renameUse (d : Draft) (name : String) (id : Identifier) : Draft :=
  { d with
    scope := d.scope.rename id name
    sequence := { d.sequence with
      body := Stmt.mapIdsList (Identifier.renamed id.origin.id name) d.sequence.body } }

/-- Renames uses one after the other. -/
def renameUses (d : Draft) (name : String) (ids : List Identifier) : Draft :=
  ids.foldl (fun d id => d.renameUse name id) d

/-- The statement with the given number as it is now, if it is still there. -/
def current? (d : Draft) (id : Nat) : Option Stmt := d.sequence.body.find? (·.origin.id = id)

/-- Puts a statement in the place of the one with its number. -/
def replace (d : Draft) (stmt : Stmt) : Draft :=
  { d with sequence := { d.sequence with
      body := d.sequence.body.map fun s => if s.origin.id = stmt.origin.id then stmt else s } }

/-- Appends an added statement behind one of the module and takes in its names. -/
def append (d : Draft) (origin : Stmt) (build : Nat → Stmt) : Except AbsentStmt Draft := do
  let stmt := build d.next
  let sequence ← d.sequence.appendAfter origin stmt
  return { d with sequence, scope := d.scope.register stmt, next := d.next + Stmt.addedOrigins }

/-- Puts an added statement in front and takes in its names. -/
def prepend (d : Draft) (build : Nat → Stmt) : Stmt × Draft :=
  let stmt := build d.next
  (stmt, { d with
    sequence := d.sequence.prepend stmt
    scope := d.scope.register stmt
    next := d.next + Stmt.addedOrigins })

/-- Removes a statement. -/
def remove (d : Draft) (stmt : Stmt) : Except AbsentStmt Draft := do
  return { d with sequence := ← d.sequence.remove stmt }

end Draft

end MessageBinder
