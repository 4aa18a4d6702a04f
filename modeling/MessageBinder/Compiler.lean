import MessageBinder.Config.Basic
import MessageBinder.Draft.Pass
import MessageBinder.Tree.Parser
import MessageBinder.Tree.Printer

/-!
# Compiling modules

A compiler binds the targets of a configuration in one module at a time and keeps nothing between
two modules. The path that the messages carry is relative to the project.
-/

namespace MessageBinder

/-- Why a module is not compiled. -/
inductive CompileError where
  /-- The text of the file is no module. -/
  | module (file : Option String) (e : ModuleError)
  /-- The binding failed. -/
  | failure (e : Failure)
deriving DecidableEq, Repr

/-- A compiler for the files of a tree. -/
structure Compiler where
  /-- The files. -/
  tree : FileTree
  /-- What is bound. -/
  targets : List Target
  /-- The extension of the catalogues. -/
  extension : String
  /-- The loader of the catalogues. -/
  loader : Loader
  /-- The project. -/
  project : Path

/-- What became of a module. -/
structure Compiled where
  /-- The path of the source relative to the project. -/
  source : String
  /-- The module and what was bound in it. -/
  bound : BoundModule

namespace Compiled

/-- The module as it is written. -/
def module (c : Compiled) : Module := c.bound.draft.toModule

end Compiled

namespace Compiler

/-- The compiler of a configuration, whose extension decides on the format of the catalogues. -/
def ofConfig (tree : FileTree) (c : Config) : Except ConfigError Compiler := do
  let format ← Format.ofExtension c.extension
  return ⟨tree, c.targets, c.extension.string, format.loader tree, c.project⟩

/-- The compiler of a project without configuration. -/
def default (tree : FileTree) (project : Path) : Compiler :=
  ⟨tree, Config.defaultTargets, Config.defaultExtension, Format.properties.loader tree, project⟩

/-- Where the catalogues come from. -/
def catalogues (c : Compiler) : CatalogueSource := ⟨c.tree, c.extension, c.loader, c.project⟩

/-- The path of a file relative to the project. -/
def sourcePath (c : Compiler) : Option String → Except ConfigError String
  | none => .error .missingFilename
  | some file =>
    if file.isEmpty then .error .missingFilename
    else .ok (Path.inProject c.tree.cwd (Path.ofString file) c.project)

/-- Binds the targets in a module that was read from a file. -/
def transform (c : Compiler) (m : Module) (file : Option String) : Loads Compiled := do
  let source ← Loads.ofExcept ((c.sourcePath file).mapError Failure.config)
  return ⟨source, ← m.bindMessages c.targets c.catalogues source⟩

/-- Reads a text and binds the targets in it. -/
def compile [CharacterNames] (c : Compiler) (text : String) (file : Option String) :
    Except CompileError Compiled := do
  let m ← (Module.parse text file 0).mapError (CompileError.module file)
  ((c.transform m file).run).1.mapError CompileError.failure

/-- Reads a file and binds the targets in it. -/
def compileFile [CharacterNames] (c : Compiler) (file : Path) : Except CompileError Compiled := do
  let text ← (c.tree.readText file).mapError CompileError.failure
  c.compile text file.text

end Compiler

end MessageBinder
