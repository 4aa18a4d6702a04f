import MessageBinder.Catalogue.Format
import MessageBinder.Target

/-!
# Configurations

Which targets are bound, what extension the catalogues have, and where the project lies. A project
may keep its configuration in a JSON object, each field of which is optional. The fields are looked
at in order, and the first fault is the one reported. What the command line gives replaces what the
file says, unless it is empty.
-/

namespace MessageBinder

/-- How modules are compiled. -/
structure Config where
  /-- What is bound. -/
  targets : List Target
  /-- The extension of the catalogues. -/
  extension : CodeText
  /-- The project. -/
  project : Path
deriving DecidableEq, Repr

namespace Config

/-- The name of the configuration of a project. -/
def filename : String := "messages-modules.json"

/-- What is bound unless the configuration says otherwise. -/
def defaultTargets : List Target := [⟨"getMessages", "messages-modules"⟩]

/-- The extension of the catalogues unless the configuration says otherwise. -/
def defaultExtension : String := "properties"

/-- The configuration of a project without one. -/
def default (project : Path) : Config := ⟨defaultTargets, defaultExtension, project⟩

/-! ### Reading -/

/-- The text of a field that must be a text and not empty. -/
def nonEmptyField? (fields : List (CodeText × Json)) (field : String) : Option CodeText :=
  ((Table.find? field fields).bind Json.string?).filter (!·.isEmpty)

/-- The target that an entry of the list describes. -/
def target (origin : String) (index : Nat) : Json → Except ConfigError Target
  | .object fields =>
    match nonEmptyField? fields "function", nonEmptyField? fields "module" with
    | none, _ => .error (.targetField origin index "function")
    | some _, none => .error (.targetField origin index "module")
    | some function, some module => .ok ⟨function, module⟩
  | _ => .error (.targetNotObject origin index)

/-- The targets that the entries of the list describe, the first of which has the given index. -/
def targetList (origin : String) (index : Nat) : List Json → Except ConfigError (List Target)
  | [] => .ok []
  | entry :: entries => do
    let t ← target origin index entry
    return t :: (← targetList origin (index + 1) entries)

/-- The targets of a configuration. -/
def targetsOf (origin : String) : Option Json → Except ConfigError (List Target)
  | none => .ok defaultTargets
  | some (.array (entry :: entries)) => targetList origin 0 (entry :: entries)
  | some _ => .error (.targetsNotList origin)

/-- The extension of a configuration. -/
def extensionOf (origin : String) : Option Json → Except ConfigError CodeText
  | none => .ok defaultExtension
  | some j =>
    match j.string?.filter (!·.isEmpty) with
    | some e => .ok (Format.withoutPoints e)
    | none => .error (.invalidExtension origin)

/-- The configuration that a JSON value describes. -/
def ofJson (project : Path) (origin : String) : Json → Except ConfigError Config
  | .object fields => do
    let targets ← targetsOf origin (Table.find? "hijackTargets" fields)
    let extension ← extensionOf origin (Table.find? "messagesFileExtension" fields)
    return ⟨targets, extension, project⟩
  | _ => .error (.notObject origin)

/-- The configuration that a file describes. -/
def ofFile (tree : FileTree) (project file : Path) : Except Failure Config := do
  let text ← tree.readText file
  match Json.parse (some Text.maxDigits) text with
  | .error ⟨.longInteger digits, _⟩ => throw (.longInteger digits)
  | .error e => throw (.config (.invalidJson file.text e))
  | .ok j => (ofJson project file.text j).mapError Failure.config

/-- The configuration of a project: of the file asked for, or else of the file in the project, if
there is one. -/
def load (tree : FileTree) (project : Path) : Option Path → Except Failure Config
  | some file => do
    if ← (tree.has file).mapError Failure.file then ofFile tree project file
    else throw (.config (.fileNotFound file.text))
  | none => do
    let file := project.join (Path.ofString filename)
    if ← (tree.has file).mapError Failure.file then ofFile tree project file
    else return default project

/-! ### Changing -/

/-- What replaces parts of a configuration. -/
structure Overrides where
  /-- The targets, if there are any. -/
  targets : List Target := []
  /-- The extension, if it is not empty. -/
  extension : CodeText := ""
  /-- The project, if it is given. -/
  project : Option Path := none
deriving DecidableEq, Repr

/-- The configuration with parts replaced. -/
def override (c : Config) (o : Overrides) : Config :=
  ⟨if o.targets.isEmpty then c.targets else o.targets,
    if o.extension.isEmpty then c.extension else o.extension, o.project.getD c.project⟩

end Config

end MessageBinder
