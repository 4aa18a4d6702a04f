import MessageBinder.Catalogue.Format
import MessageBinder.Locale.Pattern
import MessageBinder.Record.Basic

/-!
# Collecting the messages of a source

The catalogues of a source are the files beside it that its pattern matches, in order of their
names. Each is loaded once and kept under its locale in lower case; where two locales agree then,
the later file counts and the earlier place. The first failure ends the collection.

The paths that were given to the loader are part of the outcome, also of a failing one.
-/

namespace MessageBinder

/-- A computation that loads catalogues: it notes the paths given to the loader and may fail. -/
abbrev Loads := ExceptT Failure (StateM (List String))

namespace Loads

/-- The outcome of a computation, with the paths in order. -/
def run {α : Type} (x : Loads α) : Except Failure α × List String := (ExceptT.run x).run []

/-- Gives a path to a loader. -/
def load (loader : Loader) (path : String) : Loads Catalogue := do
  modify (· ++ [path])
  match loader path with
  | .ok c => return c
  | .error e => throw e

/-- An outcome in which nothing is loaded. -/
def ofExcept {α : Type} : Except Failure α → Loads α
  | .ok x => pure x
  | .error e => throw e

end Loads

/-- Where and how the messages of sources are found. -/
structure CatalogueSource where
  /-- The files. -/
  tree : FileTree
  /-- The extension of the catalogues. -/
  extension : String
  /-- The loader of the catalogues. -/
  loader : Loader
  /-- The project, to which the paths of the sources are relative. -/
  project : Option Path

namespace CatalogueSource

/-- The names of the files that match, in order, with their locales. -/
def matching (base extension : String) (names : List String) : List (String × String) :=
  (names.mergeSort fun a b => !(b < a)).filterMap fun name =>
    (Locale.ofFileName? base extension name).map fun locale => (name, Text.lower locale)

/-- Loads the catalogues of the files given with their locales. -/
def loadAll (s : CatalogueSource) (directory : Path) :
    List (String × String) → Table Json → Loads (Table Json)
  | [], collection => return collection
  | (name, locale) :: files, collection => do
    let catalogue ← Loads.load s.loader (directory.entryText name)
    s.loadAll directory files (Table.insert locale catalogue.toJson collection)

/-- The record of a source. -/
def record (s : CatalogueSource) (source : String) : Loads Record := do
  let path := Path.ofString source
  let directory := path.parent.onDisk s.project
  let names ← Loads.ofExcept ((s.tree.filesIn directory).mapError Failure.file)
  let collection ← s.loadAll directory (matching path.stem s.extension names) []
  return ⟨source, .ofTable collection, true⟩

end CatalogueSource

end MessageBinder
