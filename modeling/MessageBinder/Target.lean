import MessageBinder.Text.Shown
import MessageBinder.Tree.Basic

/-!
# Targets

A target is a function of a module whose uses are to be bound to the messages of the file. A
statement concerns a target when it imports or re-exports that function from that module: the name
compared is the one that the module exports, whatever the file calls it.
-/

namespace MessageBinder

/-- A function of a module. -/
structure Target where
  /-- The function. -/
  function : CodeText
  /-- The module that exports it. -/
  module : CodeText
deriving DecidableEq, Repr, Inhabited

namespace Target

/-- The target of the text `MODULE:FUNCTION`. The last colon parts the two, and neither is empty. -/
def parse? (spec : String) : Option Target :=
  let cs := spec.toList
  let function := (cs.reverse.takeWhile (· ≠ ':')).reverse
  let module := (cs.take (cs.length - function.length)).dropLast
  if function.isEmpty || module.isEmpty then none
  else some ⟨.ofString (String.ofList function), .ofString (String.ofList module)⟩

/-- Whether a specifier of an import names the function. -/
def matchesImport (t : Target) : ImportSpecifier → Bool
  | .named exported _ _ => exported = t.function
  | _ => false

/-- Whether a specifier of a re-export names the function. -/
def matchesExport (t : Target) (s : ExportSpecifier) : Bool :=
  (s.source.name : CodeText) = t.function

/-- Whether a statement imports or re-exports from the module. -/
def matchesModule (t : Target) : Stmt → Bool
  | .importDecl _ source _ => source = t.module
  | .exportNamed _ source _ => source = some t.module
  | _ => false

/-- Whether a statement imports or re-exports something called like the function. -/
def matchesFunction (t : Target) : Stmt → Bool
  | .importDecl specifiers _ _ => specifiers.any t.matchesImport
  | .exportNamed specifiers (some _) _ => specifiers.any t.matchesExport
  | _ => false

/-- Whether a statement concerns the target. -/
def concerns (t : Target) (stmt : Stmt) : Bool := t.matchesModule stmt && t.matchesFunction stmt

end Target

end MessageBinder
