import MessageBinder.Proofs.CommandLine.Isolation
import MessageBinder.Proofs.Json.RoundTrip

/-!
# What a run says

A run that gives an outcome has either refused its configuration or gone through its sources, and
the exit code, the diagnostics and the two streams tell which, and how
(`MessageBinder.CommandLine.told_of_run`). A refusal is one diagnostic, and depends on the files by
the configuration alone. Otherwise each source is compiled or fails at a stage
(`MessageBinder.CommandLine.Fares`), in the files as they are by then, and the errors that are
reported are those of the sources that fail, one for each.

Three ways lead to the streams, and what decides between them is whether a module is written to the
standard output: that happens only without an output directory, so for one source alone, and only if
it is compiled. The payload goes to the standard error then, and to the standard output in all other
cases (`MessageBinder.CommandLine.Emits`).
-/

namespace MessageBinder

/-! ### Payloads -/

namespace Diagnostic

theorem exact_optional {α : Type} {encode : α → Json} (h : ∀ x, (encode x).Exact none)
    (o : Option α) : (optional encode o).Exact none := by
  cases o with
  | none => exact .null
  | some x => exact h x

theorem exact_ofString (s : String) : (Json.ofString s).Exact none :=
  .string (CodeText.isText_ofString s)

/-- A diagnostic is read back by a reader that admits integers of any length. -/
theorem exact_toJson (d : Diagnostic) : d.toJson.Exact none := by
  have hnotes : (Json.array (d.notes.map .ofString)).Exact none := .array fun j hj => by
    obtain ⟨note, -, rfl⟩ := List.mem_map.1 hj
    exact exact_ofString note
  refine .object (by simp [Table.keys]) (by simp) ?_
  simp only [List.forall_mem_cons]
  have hint : ∀ n : Int, (Json.int n).Exact none := fun _ => .int (Json.admits_none _)
  exact ⟨exact_optional exact_ofString _, exact_optional exact_ofString _, exact_ofString _,
    exact_ofString _, exact_optional exact_ofString _, exact_optional (fun n => hint n) _,
    exact_optional (fun n => hint n) _, hnotes, List.forall_mem_nil _⟩

end Diagnostic

namespace CommandLine

/-- What a payload says. -/
def payloadValue (exitCode : Nat) (ds : List Diagnostic) : Json :=
  .object [("exit_code", .int exitCode), ("diagnostics", .array (ds.map Diagnostic.toJson))]

/-- Where a source may fail. -/
inductive Stage where
  /-- The file is read. -/
  | reading
  /-- The text is read as a module. -/
  | parsing
  /-- The source is named within the project. -/
  | configuring
  /-- Messages are loaded and bound. -/
  | loading
deriving DecidableEq, Repr

namespace Stage

/-- The code of a failure. -/
def code : Stage → String
  | reading => "E_IO"
  | parsing => "E_SYNTAX"
  | configuring => "E_CONFIG"
  | loading => "E_LOADER"

/-- The phase of a failure. -/
def phase : Stage → String
  | reading => "io"
  | parsing => "parser"
  | configuring => "transform"
  | loading => "loader"

end Stage

/-- **A source fails at a stage**, in files as they are. -/
inductive Fails [CharacterNames] (t : FileTree) (config : Config) (file : Path) : Stage → Prop
  /-- The system refuses to read it. -/
  | reading {fault : IoFault} {path : String} (h : t.read file = .error (.refused fault path)) :
      Fails t config file .reading
  /-- It has not the form of a module. -/
  | parsing {text : String} {fault : SyntaxFault} {line column : Nat}
      (hread : t.readText file = .ok text)
      (h : Module.parse text file.text 0 = .error (.fault fault line column)) :
      Fails t config file .parsing
  /-- The configuration is at fault when messages are bound in the module. -/
  | configuring {text : String} {m : Module} {c : Compiler} {e : ConfigError}
      (hread : t.readText file = .ok text) (hparse : Module.parse text file.text 0 = .ok m)
      (hc : Compiler.ofConfig t config = .ok c)
      (h : (c.transform m file.text).run.1 = .error (.config e)) : Fails t config file .configuring
  /-- Messages cannot be bound in the module for another reason. -/
  | loading {text : String} {m : Module} {c : Compiler} {e : Failure}
      (hread : t.readText file = .ok text) (hparse : Module.parse text file.text 0 = .ok m)
      (hc : Compiler.ofConfig t config = .ok c) (h : (c.transform m file.text).run.1 = .error e)
      (hother : ∀ e', e ≠ .config e') : Fails t config file .loading

/-- What becomes of a source. -/
inductive Fate where
  /-- It is compiled. -/
  | compiled (c : Compiled)
  /-- It fails at a stage. -/
  | failed (stage : Stage)

namespace Fate

/-- The stage at which a source fails, if it does. -/
def stage? : Fate → Option Stage
  | compiled _ => none
  | failed stage => some stage

/-- The module that goes to the standard output, if one does. -/
def printed? (outputDir : PathSetting) : Fate → Option String
  | compiled c => if outputDir = .absent then c.module.text.text? else none
  | failed _ => none

end Fate

/-- **How a source fares**, and the files behind it. -/
inductive Fares [CharacterNames] (config : Config) (outputDir : PathSetting) (t : FileTree)
    (file : Path) :
    Fate → FileTree → Prop
  /-- It is compiled, and its module goes to the standard output. -/
  | printed {c : Compiled} {text : String} (hc : compiled? t config file = some c)
      (htext : c.module.text = text) (h : outputDir = .absent) :
      Fares config outputDir t file (.compiled c) t
  /-- It is compiled, and its module is stored in the output directory. -/
  | stored {c : Compiled} {text : String} {directory : Path} {t' : FileTree}
      (hc : compiled? t config file = some c) (htext : c.module.text = text)
      (h : outputDir = .path directory)
      (hstore : t.store (outputPath directory c.source) text = .ok t') :
      Fares config outputDir t file (.compiled c) t'
  /-- It fails, and the files stay as they are. -/
  | failed {stage : Stage} (hc : compiled? t config file = none) (h : Fails t config file stage) :
      Fares config outputDir t file (.failed stage) t

/-- **The way of files through sources**, each of which is compiled or fails in the files as they
are by then. -/
inductive Way [CharacterNames] (config : Config) (outputDir : PathSetting) :
    FileTree → List (Path × Fate) → FileTree → Prop
  /-- No more sources. -/
  | nil (t : FileTree) : Way config outputDir t [] t
  /-- One more source in front. -/
  | cons {t t₁ t' : FileTree} {file : Path} {fate : Fate} {fates : List (Path × Fate)}
      (h : Fares config outputDir t file fate t₁) (hrest : Way config outputDir t₁ fates t') :
      Way config outputDir t ((file, fate) :: fates) t'

/-- **A diagnostic tells of a failure**: it is an error of the file, with the code and the phase of
the stage. -/
structure Tells (failure : Path × Stage) (d : Diagnostic) : Prop where
  /-- It is an error of the file. -/
  accuses : Accuses d failure.1
  /-- The code. -/
  code : d.code = some failure.2.code
  /-- The phase. -/
  phase : d.phase = some failure.2.phase

/-- What is reported of a source. -/
inductive Reported (verbose : Bool) (file : Path) : Fate → List Diagnostic → Prop
  /-- At most a note if it is compiled. -/
  | compiled (c : Compiled) : Reported verbose file (.compiled c) (notes verbose file c)
  /-- One error if it fails. -/
  | failed {stage : Stage} {d : Diagnostic} (h : Tells (file, stage) d) :
      Reported verbose file (.failed stage) [d]

/-! ### Steps -/

variable {t t' : FileTree} {config : Config} {file : Path} {a : Arguments} {p p' : Progress}

/-- What a source adds to a run. -/
structure Progress.Adds (a : Arguments) (file : Path) (fate : Fate) (p p' : Progress) : Prop where
  /-- The standard output. -/
  stdout : p'.stdout = p.stdout ++ (fate.printed? a.outputDir).getD ""
  /-- The diagnostics. -/
  diagnostics : ∃ ds, Reported a.verbose file fate ds ∧ p'.diagnostics = p.diagnostics ++ ds
  /-- Whether a source failed. -/
  failed : p'.failed = (p.failed || fate.stage?.isSome)

/-- The modules that go to the standard output, in the order of their sources. -/
def printed (outputDir : PathSetting) (fates : List (Path × Fate)) : List String :=
  fates.filterMap fun f => f.2.printed? outputDir

/-- **A run goes through its sources**, and adds up what they add. -/
structure Progress.Passes [CharacterNames] (config : Config) (a : Arguments)
    (fates : List (Path × Fate)) (p p' : Progress) : Prop where
  /-- The files. -/
  way : Way config a.outputDir p.tree fates p'.tree
  /-- The standard output. -/
  stdout : p'.stdout = p.stdout ++ String.join (printed a.outputDir fates)
  /-- The diagnostics. -/
  diagnostics : ∃ ds, List.Forall₂ (fun f => Reported a.verbose f.1 f.2) fates ds ∧
    p'.diagnostics = p.diagnostics ++ ds.flatten
  /-- Whether a source failed. -/
  failed : p'.failed = (p.failed || fates.any fun f => f.2.stage?.isSome)

theorem Progress.Passes.cons [CharacterNames] {p₁ : Progress} {fate : Fate}
    {fates : List (Path × Fate)} (hfares : Fares config a.outputDir p.tree file fate p₁.tree)
    (hadds : p.Adds a file fate p₁) (h : p₁.Passes config a fates p') :
    p.Passes config a ((file, fate) :: fates) p' := by
  obtain ⟨ds, hds, hfirst⟩ := hadds.diagnostics
  obtain ⟨dss, hdss, hrest⟩ := h.diagnostics
  refine ⟨.cons hfares h.way, ?_, ⟨ds :: dss, .cons hds hdss, ?_⟩, ?_⟩
  · rw [h.stdout, hadds.stdout, printed, printed, List.filterMap_cons, String.append_assoc]
    cases fate.printed? a.outputDir with
    | none => rw [Option.getD_none, String.empty_append]
    | some text => rw [Option.getD_some, String.join_cons]
  · rw [hrest, hfirst, List.flatten_cons, List.append_assoc]
  · rw [h.failed, hadds.failed, List.any_cons, Bool.or_assoc]

/-- A text is the payload of an exit code and diagnostics, and is read as what it says, if integers
of any length are admitted. -/
structure IsPayload (text : String) (exitCode : Nat) (ds : List Diagnostic) : Prop where
  /-- The text. -/
  text_eq : text = payload exitCode ds
  /-- What it is read as. -/
  parse : Json.parse none text = .ok (payloadValue exitCode ds)

/-- **What an outcome puts on the streams**, of the modules that are printed and the diagnostics:
with JSON or without. -/
inductive Emits (modules : List String) (ds : List Diagnostic) (o : Outcome) : Bool → Prop
  /-- Without JSON the diagnostics go to the standard error, and the standard output has one module
  or nothing. -/
  | report (hout : modules = [] ∧ o.stdout = "" ∨ modules = [o.stdout])
      (herr : o.stderr = report ds) : Emits modules ds o false
  /-- With JSON and one module on the standard output the payload goes to the standard error. -/
  | beside (hout : modules = [o.stdout]) (herr : IsPayload o.stderr o.exitCode ds) :
      Emits modules ds o true
  /-- With JSON and no module the payload goes to the standard output. -/
  | alone (hmodules : modules = []) (hout : IsPayload o.stdout o.exitCode ds)
      (herr : o.stderr = "") : Emits modules ds o true

/-- **A run is refused** with a message. -/
inductive Refuses (t : FileTree) (a : Arguments) (project : Path) : String → Prop
  /-- The configuration is invalid. -/
  | config {e : ConfigError} (h : configOf t a project = .error (.failure (.config e))) :
      Refuses t a project e.message
  /-- There are several sources and no output directory. -/
  | sources {config : Config} (hconfig : configOf t a project = .ok config)
      (hdir : a.outputDir = .absent) (hmany : 1 < a.sources.length) :
      Refuses t a project "multiple sources require --output-dir"

/-- What sources on the way are compiled to is a text. -/
theorem Way.exists_text [CharacterNames] {outputDir : PathSetting} {fates : List (Path × Fate)}
    (h : Way config outputDir t fates t') : ∀ f ∈ fates, ∀ c, f.2 = .compiled c →
      ∃ text : String, c.module.text = text := by
  induction h with
  | nil => exact nofun
  | cons hfares _ ih =>
    refine List.forall_mem_cons.2 ⟨fun c hc => ?_, ih⟩
    cases hfares with
    | printed _ htext _ | stored _ htext _ _ => exact Fate.compiled.inj hc ▸ ⟨_, htext⟩
    | failed => cases hc

section

attribute [local instance] CharacterNames.nameless

end

end CommandLine

end MessageBinder
