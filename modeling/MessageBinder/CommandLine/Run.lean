import MessageBinder.CommandLine.Arguments
import MessageBinder.Compiler
import MessageBinder.Diagnostic

/-!
# Running the command line

Sources are compiled one after the other. A source that fails is reported, has no output and stops
no other one; the exit code tells whether any failed. One source without an output directory goes to
the standard output, and then the diagnostics stay away from it. A faulty configuration is reported
before any source is read.

A run is a function of the files it finds, and its outcome holds the files it leaves.
-/

namespace MessageBinder.CommandLine

/-- What a run writes and leaves behind. -/
structure Outcome where
  /-- The exit code. -/
  exitCode : Nat
  /-- What goes to the standard output. -/
  stdout : String := ""
  /-- What goes to the standard error. -/
  stderr : String := ""
  /-- The files after the run. -/
  tree : FileTree

/-- Why a run ends without an outcome. -/
inductive Abort where
  /-- The arguments end it. -/
  | usage (u : Usage)
  /-- A failure that no source is blamed for. -/
  | failure (e : Failure)
  /-- A string of a source has no value. -/
  | unreadableString (fault : StringFault)
  /-- An integer of a source has too many digits. -/
  | longInteger (digits : Nat)
  /-- A compiled module holds a surrogate, which has no bytes. -/
  | surrogate
  /-- An option that must not go without a value has none. -/
  | valueless (name : OptionName)
deriving DecidableEq, Repr

/-! ### Diagnostics -/

/-- The diagnostics as one JSON object on a line. -/
def payload (exitCode : Nat) (ds : List Diagnostic) : String :=
  ((Json.object [("exit_code", .int exitCode), ("diagnostics", .array (ds.map Diagnostic.toJson))]
    ).render .ascii).string ++ "\n"

/-- The diagnostics as text, each on lines of its own. -/
def report (ds : List Diagnostic) : String := String.join (ds.map (·.render ++ "\n"))

/-- The outcome with the diagnostics written. With `apart` they avoid the standard output. -/
def Outcome.emit (o : Outcome) (json apart : Bool) (ds : List Diagnostic) : Outcome :=
  if json then
    if apart then { o with stderr := o.stderr ++ payload o.exitCode ds }
    else { o with stdout := o.stdout ++ payload o.exitCode ds }
  else { o with stderr := o.stderr ++ report ds }

/-- The outcome of a run that ends at its configuration. -/
def refuse (tree : FileTree) (json : Bool) (message : String) : Outcome :=
  Outcome.emit ⟨2, "", "", tree⟩ json false
    [{ message, code := some "E_CONFIG", phase := some "config" }]

/-- The diagnostic of a failure, if a source is blamed for it. -/
def blame (file : Path) : CompileError → Except Abort Diagnostic
  | .module _ (.unreadableString fault) => .error (.unreadableString fault)
  | .module _ (.longInteger digits) => .error (.longInteger digits)
  | .module name e@(.fault f _ _) =>
    .ok { message := f.message, code := some "E_SYNTAX", phase := some "parser",
          span := e.span name }
  | .failure (.config e) =>
    .ok { message := e.message, code := some "E_CONFIG", phase := some "transform",
          span := { file := some file.text } }
  | .failure (.loader message) => .error (.failure (.loader message))
  | .failure e =>
    .ok { message := "loading messages failed: " ++ e.message, code := some "E_LOADER",
          phase := some "loader", span := { file := some file.text }, notes := [e.word] }

/-- The report of a compiled source. -/
def success (file : Path) (c : Compiled) : Diagnostic :=
  { message :=
      "hijacked " ++ toString c.bound.counts.total ++ " binding(s); " ++
        (if c.bound.injected then "injected messages" else "no hijack")
    phase := some "transform", severity := "note", span := { file := some file.text } }

/-! ### Sources -/

/-- The state between two sources. -/
structure Progress where
  /-- The files. -/
  tree : FileTree
  /-- What went to the standard output. -/
  stdout : String := ""
  /-- The diagnostics so far. -/
  diagnostics : List Diagnostic := []
  /-- Whether a source failed. -/
  failed : Bool := false

/-- The state after a source that failed. -/
def Progress.fail (p : Progress) (d : Diagnostic) : Progress :=
  { p with diagnostics := p.diagnostics ++ [d], failed := true }

/-- Where the module of a source is written. -/
def outputPath (directory : Path) (source : String) : Path :=
  directory.join (.ofString (Path.withoutSlashes source))

/-- The tree with a file stored; the directories above it are made first. -/
def store (t : FileTree) (file : Path) (bytes : List UInt8) : Except Abort FileTree :=
  ((t.makeDirectories file.parent).bind (·.write file bytes)).mapError fun e => .failure (.file e)

/-- The state after a source that was compiled. A file is opened before its text turns out to have
no bytes. -/
def Progress.write (p : Progress) (outputDir : PathSetting) (c : Compiled) :
    Except Abort Progress :=
  match outputDir with
  | .valueless => .error (.valueless .outputDir)
  | .absent =>
    match c.module.text.text? with
    | some text => .ok { p with stdout := p.stdout ++ text }
    | none => .error .surrogate
  | .path directory => do
    let text := c.module.text.text?
    let tree ← store p.tree (outputPath directory c.source) (FileTree.bytesOf (text.getD ""))
    if text.isNone then throw .surrogate
    return { p with tree }

/-- Compiles one source. -/
def Progress.step [CharacterNames] (config : Config) (a : Arguments) (p : Progress) (file : Path) :
    Except Abort Progress := do
  match p.tree.read file with
  | .error (.refused fault _) =>
    return p.fail { message := "cannot read source: " ++ fault.message, code := some "E_IO",
                    phase := some "io", span := { file := some file.text } }
  | .error .nullInPath => throw (.failure (.file .nullInPath))
  | .ok bytes =>
    let text ← (FileTree.textOf bytes).mapError fun e => Abort.failure (.text e)
    let compiler ← (Compiler.ofConfig p.tree config).mapError fun e => Abort.failure (.config e)
    match compiler.compile text file.text with
    | .error e => return p.fail (← blame file e)
    | .ok c =>
      let notes := if a.verbose then [success file c] else []
      { p with diagnostics := p.diagnostics ++ notes }.write a.outputDir c

/-! ### Runs -/

/-- The target that the arguments give. -/
def targetOf : Option String → Except Abort Target
  | none => .error (.valueless .target)
  | some spec =>
    match Target.parse? spec with
    | some t => .ok t
    | none => .error (.failure (.config (.invalidTarget spec)))

/-- The configuration on file. -/
def fileConfig (tree : FileTree) (project : Path) : PathSetting → Except Abort Config
  | .valueless => .error (.valueless .config)
  | setting => (Config.load tree project setting.path?).mapError Abort.failure

/-- The configuration of a run: what is on file, with what the arguments give in its place. -/
def configOf (tree : FileTree) (a : Arguments) (project : Path) : Except Abort Config := do
  let config ← fileConfig tree project a.config
  let targets ← a.targets.mapM targetOf
  let config := config.override ⟨targets, Format.withoutPoints a.extension, some project⟩
  let _ ← (Format.ofExtension config.extension).mapError fun e => Abort.failure (.config e)
  return config

/-- The project of a run, as a path from the top. -/
def projectOf (tree : FileTree) (a : Arguments) : Except Abort Path :=
  let project := a.projectRoot.getD tree.cwd
  if project.hasNull then .error (.failure (.file .nullInPath))
  else .ok { tree.cwd.absolute project with root := .slash }

/-- Runs the command line on files. -/
def run [CharacterNames] (tree : FileTree) (argv : List String) : Except Abort Outcome := do
  let a ← (Arguments.parse argv).mapError Abort.usage
  match configOf tree a (← projectOf tree a) with
  | .error (.failure (.config e)) => return refuse tree a.json e.message
  | .error e => throw e
  | .ok config =>
    if a.outputDir = .absent && 1 < a.sources.length then
      return refuse tree a.json "multiple sources require --output-dir"
    let p ← (a.sources.map tree.cwd.join).foldlM (Progress.step config a) { tree }
    let outcome : Outcome := ⟨if p.failed then 1 else 0, p.stdout, "", p.tree⟩
    return outcome.emit a.json (a.outputDir = .absent && !p.failed) p.diagnostics

end MessageBinder.CommandLine
