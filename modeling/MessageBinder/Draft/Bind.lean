import MessageBinder.Draft.Gate
import MessageBinder.Target

/-!
# Binding a statement

An import of a target keeps its binding, and a constant behind it holds the function bound to the
messages; every use of the import becomes a use of the constant. An import without uses stays as it
is.

A re-export of a target is taken from its list and made anew behind the statement: an import, the
bound constant and an export under the name that others know. A list that runs empty goes.

The function of a target is a text of code points. Where a statement concerns the target it is a
name, and the seed of a fresh name has no other use for its code points than for its name characters
either, so that the added names and specifiers take it as a text of characters.
-/

namespace MessageBinder

namespace Drafting

/-- Binds one imported name, and says whether it had uses. -/
def bindImported (stmt : Stmt) (target : Target) (name : String) : Drafting Bool := do
  match (← get).draft.scope.moduleBinding? name with
  | none => return false
  | some binding =>
    if binding.uses.isEmpty then return false
    let bound ← freshName (target.function.string ++ "Function")
    modify fun b => { b with draft := b.draft.renameUses bound binding.uses }
    let messages ← Gate.request
    edit (·.append stmt (Stmt.boundConstant bound name messages))
    return true

/-- Binds imported names one after the other and counts those that had uses. -/
def bindAll (stmt : Stmt) (target : Target) : List ImportSpecifier → Drafting Nat
  | [] => return 0
  | s :: specifiers => do
    let bound ← bindImported stmt target s.binding.name
    let others ← bindAll stmt target specifiers
    return (if bound then 1 else 0) + others

/-- Makes one re-export anew. -/
def moveExport (stmt : Stmt) (target : Target) (s : ExportSpecifier) : Drafting Unit := do
  let imported ← freshName (target.function.string ++ "Import")
  let bound ← freshName (target.function.string ++ "Export")
  let messages ← Gate.request
  edit (·.append stmt (Stmt.addedImport target.function.string imported target.module))
  edit (·.append stmt (Stmt.boundConstant bound imported messages))
  edit (·.append stmt (Stmt.addedExport bound s.exported))

/-- Makes re-exports anew one after the other. -/
def moveAll (stmt : Stmt) (target : Target) : List ExportSpecifier → Drafting Unit
  | [] => return ()
  | s :: specifiers => do
    moveExport stmt target s
    moveAll stmt target specifiers

/-- Makes the matching re-exports of a list anew and counts them. -/
def moveMatching (target : Target) (specifiers : List ExportSpecifier) (source : Option CodeText)
    (o : Origin) : Drafting Nat := do
  let moved := specifiers.filter target.matchesExport
  let kept := specifiers.filter (!target.matchesExport ·)
  let stmt := Stmt.exportNamed kept source o
  modify fun b => { b with draft := b.draft.replace stmt }
  moveAll stmt target moved
  if kept.isEmpty then edit (·.remove stmt)
  return moved.length

end Drafting

end MessageBinder
