import Mathlib.Data.List.DropRight
import MessageBinder.Proofs.CommandLine.Isolation
import MessageBinder.Proofs.CommandLine.Paths

/-!
# Where outputs go

A module is written under the output directory by the names of its source, those behind the project
if the source lies in it and all of them otherwise (`MessageBinder.Path.namesUnder`). Relative
sources are joined to the current directory before, and their `..` stay: whether a source lies in
the project is told name by name. So the names under the output directory may hold `..`, and there
may be none of them. An output lies in the output directory if and only if these names come back
into it (`MessageBinder.Path.ReturnsInto`), as is shown for every output of a run
(`MessageBinder.CommandLine.exists_confined_of_reaches`); where all come back, no file that was
there outside is touched.
-/

namespace MessageBinder

namespace Path

/-- The names of a file under the output directory: those behind a project that it lies in, and else
all of them. -/
def namesUnder (project file : Path) : List String :=
  match file.relativeTo? project with
  | some p => p.names
  | none => file.names

theorem relativeTo?_eq_some {file project p : Path} :
    file.relativeTo? project = some p ↔
      file.root = project.root ∧ file.names = project.names ++ p.names ∧ p.root = .relative := by
  rw [relativeTo?]
  constructor
  · rintro h
    split at h
    · rename_i hin
      simp only [Bool.and_eq_true, decide_eq_true_eq, List.isPrefixOf_iff_prefix] at hin
      obtain ⟨rest, hrest⟩ := hin.2
      obtain rfl := Option.some.inj h
      exact ⟨hin.1, by simp [← hrest], rfl⟩
    · cases h
  · rintro ⟨hroot, hnames, hrelative⟩
    obtain ⟨root, names⟩ := p
    obtain rfl : root = .relative := hrelative
    simp [hroot, hnames]

theorem withoutSlashes_idem (s : String) :
    withoutSlashes (withoutSlashes s) = withoutSlashes s := by
  rw [withoutSlashes, withoutSlashes, String.toList_ofList, List.dropWhile_idempotent]

/-- **The path of a source as it is written is read as its names under the output directory.** -/
theorem ofString_inProject {cwd file project : Path} (hplain : file.Plain)
    (habsolute : file.isAbsolute) (hproject : project.isAbsolute) :
    ofString (withoutSlashes (inProject cwd file project))
      = ⟨.relative, namesUnder project file⟩ := by
  simp only [inProject, habsolute, hproject, if_true, namesUnder]
  cases hin : file.relativeTo? project with
  | none => exact ofString_withoutSlashes_text hplain
  | some p =>
    obtain ⟨-, hnames, -⟩ := relativeTo?_eq_some.1 hin
    have hp : p.Plain := fun n hn => hplain n (by simp [hnames, hn])
    dsimp only
    rw [withoutSlashes_idem, ofString_withoutSlashes_text hp]

theorem isAbsolute_join {p : Path} (h : p.isAbsolute) (q : Path) : (p.join q).isAbsolute := by
  rw [join]
  split
  · assumption
  · exact h

/-- A path that is continued twice. -/
theorem join_join_names (p q : Path) (names : List String) :
    p.join (q.join ⟨.relative, names⟩) = ⟨(p.join q).root, (p.join q).names ++ names⟩ := by
  obtain ⟨root, qnames⟩ := q
  cases root <;> simp [join, isAbsolute]

end Path

namespace FileTree

variable {t : FileTree} {p : Path} {place : List String}

theorem foldlM_enter_eq_ok {names : List String} {place' : List String}
    (h : names.foldlM t.enter place = .ok place') : place' = names.foldl further place := by
  induction names generalizing place with
  | nil => exact (Except.ok.inj h).symm
  | cons n names ih =>
    rw [List.foldlM_cons] at h
    obtain ⟨next, hnext, h⟩ := Except.bind_eq_ok.1 h
    obtain ⟨-, rfl⟩ := enter_eq_ok hnext
    exact ih h

/-- **A path leads to the place that its normal form names**, if it leads anywhere. -/
theorem locate_eq_ok (hcwd : t.cwd.isAbsolute) (h : t.locate p = .ok place) :
    place = (t.cwd.join p).normalize.names := by
  rw [locate] at h
  split at h
  · cases h
  · rw [Path.names_normalize (Path.isAbsolute_join hcwd p)]
    exact foldlM_enter_eq_ok h

/-- Stored files are found. -/
theorem exists_locate_of_storeAll {t' : FileTree} {files : List (Path × String)}
    (h : t.storeAll files = .ok t') : ∀ f ∈ files, ∃ place, t'.locate f.1 = .ok place := by
  induction files generalizing t with
  | nil => exact nofun
  | cons f files ih =>
    rw [storeAll, List.foldlM_cons] at h
    obtain ⟨t₁, hfirst, hrest⟩ := Except.bind_eq_ok.1 h
    obtain ⟨⟨place, hplace, -⟩, -⟩ := grows_store hfirst
    obtain ⟨written, hgrows, -⟩ := grows_storeAll hrest
    refine List.forall_mem_cons.2 ⟨⟨place, ?_⟩, ih hrest⟩
    exact locate_mono hgrows.cwd (fun _ => hgrows.directory) hplace

end FileTree

namespace CommandLine

/-! ### What a run stores -/

variable {config : Config} {a : Arguments} {directory file : Path} {t t' : FileTree}

/-- The path of a compiled source is that of the source in the project. -/
theorem source_of_compiled? [CharacterNames] {c : Compiled} (h : compiled? t config file = some c) :
    c.source = config.sourceOf t.cwd file := by
  obtain ⟨f, text, -, -, hcompile⟩ := readText_of_compiled? h
  rw [Compiler.compile] at hcompile
  obtain ⟨m, -, hcompile⟩ := Except.bind_eq_ok.1 hcompile
  cases hrun : ((compilerOf t config f).transform m file.text).run.1 with
  | error e =>
    rw [hrun] at hcompile
    cases hcompile
  | ok c' =>
    rw [hrun] at hcompile
    obtain rfl := Except.ok.inj hcompile
    have hgives : ((compilerOf t config f).transform m file.text).Gives c' :=
      ⟨[], _, Prod.ext hrun rfl⟩
    rw [Compiler.transform] at hgives
    obtain ⟨source, hsource, hgives⟩ := Loads.gives_bind hgives
    obtain ⟨r, -, hgives⟩ := Loads.gives_bind hgives
    obtain rfl := Loads.gives_pure hgives
    have hok := Loads.gives_ofExcept hsource
    simp only [Compiler.sourcePath] at hok
    split at hok
    · cases hok
    · exact (Except.ok.inj hok).symm

/-- **One step of a run**: the source is compiled and stored, or the files stay as they are. -/
theorem step_cases [CharacterNames] {p p' : Progress} (ha : a.outputDir = .path directory)
    {f : Format} (hf : Format.ofExtension config.extension = .ok f)
    (h : Progress.step config a p file = .ok p') :
    (compiled? p.tree config file = none ∧ p'.tree = p.tree) ∨
      ∃ c, ∃ text : String, compiled? p.tree config file = some c ∧ c.module.text = text ∧
        p.tree.store (outputPath directory c.source) text = .ok p'.tree := by
  cases hc : compiled? p.tree config file with
  | none =>
    refine Or.inl ⟨rfl, ?_⟩
    by_cases hescapes : Escapes p.tree config file
    · obtain ⟨abort, habort⟩ := step_of_escapes (a := a) hescapes hf
      rw [h] at habort
      cases habort
    · obtain ⟨d, -, hstep⟩ := step_of_not_compiled (a := a) hc hescapes hf
      rw [h] at hstep
      obtain rfl := Except.ok.inj hstep
      rfl
  | some c =>
    obtain ⟨text, htext⟩ : c.module.text.IsText := by
      by_contra hsurrogate
      obtain ⟨abort, habort⟩ := step_of_escapes (a := a) (.surrogate hc hsurrogate) hf
      cases h.symm.trans habort
    refine Or.inr ⟨c, text, rfl, htext, ?_⟩
    rw [step_of_compiled hc, ha, Progress.write_of_text _ _ htext] at h
    obtain ⟨tree, hstore, hend⟩ := Except.bind_eq_ok.1 h
    obtain rfl := Except.ok.inj hend
    have hmap := congrArg Except.toOption hstore
    rw [Except.toOption_mapError] at hmap
    exact Except.eq_ok_of_toOption hmap

/-- **The way of files through sources**: a source that is compiled, in the files as they are by
then, is stored in the output directory, and the others leave the files as they are. -/
inductive Goes [CharacterNames] (config : Config) (directory : Path) :
    FileTree → List Path → List (Path × Compiled) → FileTree → Prop
  /-- No more sources. -/
  | nil (t : FileTree) : Goes config directory t [] [] t
  /-- A source that is not compiled. -/
  | failed {t t' : FileTree} {file : Path} {files : List Path} {ws : List (Path × Compiled)}
      (h : compiled? t config file = none) :
      Goes config directory t files ws t' → Goes config directory t (file :: files) ws t'
  /-- A source that is compiled. -/
  | stored {t t₁ t' : FileTree} {file : Path} {files : List Path} {ws : List (Path × Compiled)}
      {c : Compiled} {text : String} (h : compiled? t config file = some c)
      (htext : c.module.text = text)
      (hstore : t.store (outputPath directory c.source) text = .ok t₁) :
      Goes config directory t₁ files ws t' →
        Goes config directory t (file :: files) ((file, c) :: ws) t'

/-- **A run goes through its sources**, as far as it comes. -/
theorem exists_goes [CharacterNames] {files : List Path} {p p' : Progress}
    (ha : a.outputDir = .path directory) {f : Format}
    (hf : Format.ofExtension config.extension = .ok f)
    (h : files.foldlM (Progress.step config a) p = .ok p') :
    ∃ ws, Goes config directory p.tree files ws p'.tree := by
  induction files generalizing p with
  | nil =>
    obtain rfl := Except.ok.inj h
    exact ⟨[], .nil _⟩
  | cons file files ih =>
    rw [List.foldlM_cons] at h
    obtain ⟨p₁, hstep, hrest⟩ := Except.bind_eq_ok.1 h
    obtain ⟨ws, hws⟩ := ih hrest
    rcases step_cases ha hf hstep with ⟨hnone, htree⟩ | ⟨c, text, hc, htext, hstore⟩
    · rw [htree] at hws
      exact ⟨ws, .failed hnone hws⟩
    · exact ⟨(file, c) :: ws, .stored hc htext hstore hws⟩

namespace Goes

variable {files : List Path} {ws : List (Path × Compiled)}

/-- What is stored, with its paths. -/
def outputs (directory : Path) (ws : List (Path × Compiled)) : List (Path × String) :=
  (ws.map Prod.snd).filterMap (output? directory)

/-- What is stored is a text. -/
theorem exists_text [CharacterNames] (h : Goes config directory t files ws t') :
    ∀ w ∈ ws, ∃ text : String, w.2.module.text = text := by
  induction h with
  | nil => exact nofun
  | failed _ _ ih => exact ih
  | stored _ htext _ _ ih => exact List.forall_mem_cons.2 ⟨⟨_, htext⟩, ih⟩

theorem mem_outputs {output : Path × String} (h : output ∈ outputs directory ws) :
    ∃ w ∈ ws, output.1 = outputPath directory w.2.source := by
  obtain ⟨c, hc, houtput⟩ := List.mem_filterMap.1 h
  obtain ⟨w, hw, rfl⟩ := List.mem_map.1 hc
  exact ⟨w, hw, (exists_text_of_output? houtput).2⟩

theorem storeAll [CharacterNames] (h : Goes config directory t files ws t') :
    t.storeAll (outputs directory ws) = .ok t' := by
  induction h with
  | nil t => rfl
  | failed _ _ ih => exact ih
  | stored _ htext hstore _ ih =>
    rw [outputs, List.map_cons, List.filterMap_cons_some (output?_of_text htext directory),
      FileTree.storeAll, List.foldlM_cons, hstore]
    exact ih

/-- What is stored comes from the sources, in their order. -/
theorem sublist [CharacterNames] (h : Goes config directory t files ws t') :
    (ws.map (·.1)).Sublist files := by
  induction h with
  | nil => exact List.Sublist.refl _
  | failed _ _ ih => exact ih.cons _
  | stored _ _ _ _ ih => exact ih.cons_cons _

/-- The path of what is stored is that of its source in the project. -/
theorem source_eq [CharacterNames] (h : Goes config directory t files ws t') :
    ∀ w ∈ ws, w.2.source = config.sourceOf t.cwd w.1 := by
  induction h with
  | nil => exact nofun
  | failed _ _ ih => exact ih
  | stored hc _ hstore _ ih =>
    obtain ⟨⟨place, -, hgrows⟩, -⟩ := FileTree.grows_store hstore
    refine List.forall_mem_cons.2 ⟨source_of_compiled? hc, fun w hw => ?_⟩
    rw [ih w hw, hgrows.cwd]

theorem cwd_eq [CharacterNames] (h : Goes config directory t files ws t') : t'.cwd = t.cwd := by
  obtain ⟨written, hgrows, -⟩ := FileTree.grows_storeAll h.storeAll
  exact hgrows.cwd

/-- What is stored is found. -/
theorem exists_locate [CharacterNames] (h : Goes config directory t files ws t')
    {w : Path × Compiled} (hw : w ∈ ws) : ∃ place, t'.locate (outputPath directory w.2.source)
      = .ok place := by
  obtain ⟨text, htext⟩ := h.exists_text w hw
  have hin : (outputPath directory w.2.source, text) ∈ outputs directory ws :=
    List.mem_filterMap.2 ⟨w.2, List.mem_map_of_mem hw, output?_of_text htext directory⟩
  obtain ⟨place, hplace⟩ := FileTree.exists_locate_of_storeAll h.storeAll _ hin
  exact ⟨place, hplace⟩

end Goes

/-! ### Runs -/

theorem sources_endRun (a : Arguments) : a.endRun.sources = a.sources := by
  rw [Arguments.endRun]
  split <;> rfl

/-- An option is no source. -/
theorem sources_set (a : Arguments) (name : OptionName) (text : String) :
    (a.endRun.set name text).sources = a.sources := by
  rw [← sources_endRun a]
  cases name <;> rfl

theorem plain_of_addSource {a : Arguments} (ha : ∀ p ∈ a.sources, p.Plain) (text : String) :
    ∀ p ∈ (a.addSource text).sources, p.Plain := by
  rw [Arguments.addSource]
  split
  · exact ha
  · intro p hp
    rcases List.mem_append.1 hp with hp | hp
    · exact ha p hp
    · rw [List.mem_singleton.1 hp]
      exact Path.plain_ofString text

/-- The sources among arguments are plain. -/
theorem plain_of_take {args : List Argument} {a a' : Arguments} (ha : ∀ p ∈ a.sources, p.Plain)
    (h : a.take args = .ok a') : ∀ p ∈ a'.sources, p.Plain := by
  fun_induction Arguments.take a args with
  | case1 a =>
    obtain rfl := Except.ok.inj h
    exact ha
  | case2 a text rest ih => exact ih (plain_of_addSource ha text) h
  | case3 a rest ih =>
    refine ih ?_ h
    split <;> exact ha
  | case4 a rest ih => exact ih (sources_endRun a ▸ ha) h
  | case5 | case6 | case8 | case10 => cases h
  | case7 a name _ text rest _ _ ih | case9 a name _ _ _ text rest ih =>
    exact ih (sources_set a name text ▸ ha) h
  | case11 a name _ rest _ _ ih => exact ih (sources_set a name "" ▸ ha) h

theorem plain_of_parse {argv : List String} (h : Arguments.parse argv = .ok a) :
    ∀ p ∈ a.sources, p.Plain := by
  rw [Arguments.parse] at h
  obtain ⟨args, -, h⟩ := Except.bind_eq_ok.1 h
  obtain ⟨a', htake, h⟩ := Except.bind_eq_ok.1 h
  have hplain := plain_of_take (List.forall_mem_nil _) htake
  split at h
  · cases h
  · obtain rfl := Except.ok.inj h
    exact hplain

theorem project_of_configOf {project : Path} (h : configOf t a project = .ok config) :
    config.project = project := by
  rw [configOf] at h
  obtain ⟨config', -, h⟩ := Except.bind_eq_ok.1 h
  obtain ⟨targets, -, h⟩ := Except.bind_eq_ok.1 h
  obtain ⟨f, -, h⟩ := Except.bind_eq_ok.1 h
  obtain rfl := Except.ok.inj h
  rfl

theorem isAbsolute_of_projectOf {project : Path} (h : projectOf t a = .ok project) :
    project.isAbsolute := by
  rw [projectOf] at h
  dsimp only at h
  split at h
  · cases h
  · obtain rfl := Except.ok.inj h
    rfl

/-- **A run has come through sources**: its arguments and its configuration are valid, there is an
output directory, and the first of its sources are done with. The current directory is a path from
the top. -/
structure Reaches [CharacterNames] (t : FileTree) (argv : List String) (a : Arguments)
    (project directory : Path) (config : Config) (front : List Path) (p : Progress) : Prop where
  /-- The current directory is a path from the top. -/
  absolute : t.cwd.isAbsolute
  /-- Its names are names. -/
  plain : t.cwd.Plain
  /-- The arguments. -/
  parse : Arguments.parse argv = .ok a
  /-- The project. -/
  projectOf : projectOf t a = .ok project
  /-- The configuration. -/
  configOf : configOf t a project = .ok config
  /-- The output directory. -/
  outputDir : a.outputDir = .path directory
  /-- The sources that are done with. -/
  sources : front <+: a.sources.map t.cwd.join
  /-- What the run has come to. -/
  steps : front.foldlM (Progress.step config a) { tree := t } = .ok p

namespace Reaches

variable {argv : List String} {project : Path} {front : List Path} {p : Progress}

/-- The sources are plain paths from the top. -/
theorem files [CharacterNames] (h : Reaches t argv a project directory config front p) :
    ∀ file ∈ front, file.Plain ∧ file.isAbsolute := by
  intro file hfile
  obtain ⟨source, hsource, rfl⟩ := List.mem_map.1 (h.sources.subset hfile)
  exact ⟨h.plain.join (plain_of_parse h.parse source hsource),
    Path.isAbsolute_join h.absolute source⟩

theorem exists_goes [CharacterNames] (h : Reaches t argv a project directory config front p) :
    ∃ ws, Goes config directory t front ws p.tree := by
  obtain ⟨f, hf⟩ := exists_format_of_configOf h.configOf
  exact CommandLine.exists_goes h.outputDir hf h.steps

end Reaches

/-- A run that gives an outcome has come through all its sources. -/
theorem exists_reaches_of_run [CharacterNames] {argv : List String} {project : Path} {o : Outcome}
    (habsolute : t.cwd.isAbsolute) (hplain : t.cwd.Plain) (hparse : Arguments.parse argv = .ok a)
    (hproject : projectOf t a = .ok project) (hconfig : configOf t a project = .ok config)
    (ha : a.outputDir = .path directory) (hrun : run t argv = .ok o) :
    ∃ p, p.tree = o.tree ∧
      Reaches t argv a project directory config (a.sources.map t.cwd.join) p := by
  rw [run_of_configOf hparse hproject hconfig ha] at hrun
  obtain ⟨p, hsteps, hrun⟩ := Except.bind_eq_ok.1 hrun
  obtain rfl := Except.ok.inj hrun
  have htree := (Outcome.exitCode_emit ⟨if p.failed then 1 else 0, p.stdout, "", p.tree⟩ a.json
    false p.diagnostics).2
  exact ⟨p, htree.symm, habsolute, hplain, hparse, hproject, hconfig, ha, List.prefix_rfl, hsteps⟩

/-! ### Outputs in the output directory -/

section

variable {argv : List String} {project : Path} {front : List Path} {p : Progress}
  {ws : List (Path × Compiled)}

/-- **Where a source is written**: under its names in the output directory. -/
theorem Reaches.outputPath_eq [CharacterNames]
    (h : Reaches t argv a project directory config front p)
    (hgoes : Goes config directory t front ws p.tree) {w : Path × Compiled} (hw : w ∈ ws) :
    outputPath directory w.2.source
      = directory.join ⟨.relative, Path.namesUnder project w.1⟩ := by
  obtain ⟨hplain, habsolute⟩ := h.files w.1 (hgoes.sublist.subset (List.mem_map_of_mem hw))
  rw [outputPath, hgoes.source_eq w hw, Config.sourceOf, Path.ofString_text hplain,
    project_of_configOf h.configOf,
    Path.ofString_inProject hplain habsolute (isAbsolute_of_projectOf h.projectOf)]

/-- The output directory in normal form. -/
def outputRoot (t : FileTree) (directory : Path) : Path := (t.cwd.join directory).normalize

/-- **Outputs are confined** to what their sources let them be: under the output directory each is
written by the names of its source, and it lies inside if and only if these return into it. Where
all do, no file that was there outside is touched. -/
structure Confined (t t' : FileTree) (project directory : Path) (ws : List (Path × Compiled)) :
    Prop where
  /-- Where outputs are written. -/
  path : ∀ w ∈ ws,
    outputPath directory w.2.source = directory.join ⟨.relative, Path.namesUnder project w.1⟩
  /-- Which of them lie inside. -/
  inside : ∀ w ∈ ws, (t.cwd.join (outputPath directory w.2.source)).normalize.StrictlyIn
    (outputRoot t directory) ↔
      Path.ReturnsInto (outputRoot t directory).names (Path.namesUnder project w.1)
  /-- Without `..` all of them do, but for the project itself. -/
  plain : ∀ w ∈ ws, (∀ n ∈ Path.namesUnder project w.1, Path.isUp n = false) →
    ((t.cwd.join (outputPath directory w.2.source)).normalize.StrictlyIn (outputRoot t directory) ↔
      Path.namesUnder project w.1 ≠ [])
  /-- What is kept if all do. -/
  spared : (∀ w ∈ ws,
      Path.ReturnsInto (outputRoot t directory).names (Path.namesUnder project w.1)) →
    ∀ place bytes, ¬ Path.StrictlyBelow place (outputRoot t directory).names →
      t.at? place = some (.file bytes) → t'.at? place = some (.file bytes)

/-- **The outputs of a run are confined**, as far as it comes. -/
theorem exists_confined_of_reaches [CharacterNames]
    (h : Reaches t argv a project directory config front p) :
    ∃ ws, Goes config directory t front ws p.tree ∧ Confined t p.tree project directory ws := by
  obtain ⟨ws, hgoes⟩ := h.exists_goes
  have hpath : ∀ w ∈ ws, outputPath directory w.2.source
      = directory.join ⟨.relative, Path.namesUnder project w.1⟩ := fun w hw =>
    h.outputPath_eq hgoes hw
  have hinside : ∀ w ∈ ws, (t.cwd.join (outputPath directory w.2.source)).normalize.StrictlyIn
      (outputRoot t directory) ↔
        Path.ReturnsInto (outputRoot t directory).names (Path.namesUnder project w.1) := by
    intro w hw
    rw [hpath w hw, Path.join_join_names]
    exact Path.strictlyIn_normalize_iff (Path.isAbsolute_join h.absolute directory) _
  refine ⟨ws, hgoes, hpath, hinside, fun w hw hups => ?_, fun hall place bytes hout hfile => ?_⟩
  · rw [hinside w hw]
    exact Path.returnsInto_of_forall hups _
  · obtain ⟨written, hgrows, hwritten⟩ := FileTree.grows_storeAll hgoes.storeAll
    rcases hgrows.stays place _ hfile with hstays | ⟨hin, -⟩
    · exact hstays
    -- A file that is written over would lie where an output is written, so inside.
    · obtain ⟨f, hf, hlocate⟩ := hwritten place hin
      obtain ⟨w, hw, hpath⟩ := Goes.mem_outputs hf
      rw [hpath] at hlocate
      have hcwd : p.tree.cwd = t.cwd := hgrows.cwd
      have hplace := FileTree.locate_eq_ok (hcwd ▸ h.absolute) hlocate
      have hbelow := ((hinside w hw).2 (hall w hw)).2
      rw [hcwd] at hplace
      rw [← hplace] at hbelow
      exact absurd hbelow hout

/-- A source in a directory and one beside it. -/
def besideTree : FileTree :=
  ⟨[(["w"], .directory), (["w", "lib"], .directory), (["w", "lib", "a.js"], .file [0x66]),
    (["w", "b.js"], .file [0x67])], ⟨.slash, ["w"]⟩⟩

/-- What a command line says that compiles both, with the directory for the project. -/
def besideArguments : Arguments where
  sources := [⟨.relative, ["lib", "a.js"]⟩, ⟨.relative, ["b.js"]⟩]
  outputDir := .path ⟨.relative, ["out"]⟩
  projectRoot := some ⟨.relative, ["lib"]⟩
  run := .inside

section

attribute [local instance] CharacterNames.nameless

/-- A run comes through both. -/
theorem exists_reaches_beside : ∃ p, Reaches besideTree
    ["-o", "out", "--project-root", "lib", "lib/a.js", "b.js"] besideArguments
    ⟨.slash, ["w", "lib"]⟩ ⟨.relative, ["out"]⟩ (.default ⟨.slash, ["w", "lib"]⟩)
    (besideArguments.sources.map besideTree.cwd.join) p := by
  have hsteps : ((besideArguments.sources.map besideTree.cwd.join).foldlM
      (Progress.step (.default ⟨.slash, ["w", "lib"]⟩) besideArguments)
      { tree := besideTree }).toOption.isSome := by
    decide +kernel
  obtain ⟨p, hp⟩ := Option.isSome_iff_exists.1 hsteps
  refine ⟨p, by decide, ?_, by decide +kernel, by decide +kernel, by decide +kernel, rfl,
    List.prefix_rfl, Except.eq_ok_of_toOption hp⟩
  exact Path.plain_ofString "/w"

/-- The outputs of a source in the project and of one beside it are confined. -/
theorem exists_confined_of_reaches_beside : ∃ p, Reaches besideTree
    ["-o", "out", "--project-root", "lib", "lib/a.js", "b.js"] besideArguments
    ⟨.slash, ["w", "lib"]⟩ ⟨.relative, ["out"]⟩ (.default ⟨.slash, ["w", "lib"]⟩)
    (besideArguments.sources.map besideTree.cwd.join) p ∧
      ∃ ws, Goes (.default ⟨.slash, ["w", "lib"]⟩) ⟨.relative, ["out"]⟩ besideTree
        (besideArguments.sources.map besideTree.cwd.join) ws p.tree ∧
        Confined besideTree p.tree ⟨.slash, ["w", "lib"]⟩ ⟨.relative, ["out"]⟩ ws := by
  obtain ⟨p, hp⟩ := exists_reaches_beside
  exact ⟨p, hp, exists_confined_of_reaches hp⟩

end

/-- A source above the project, which is named through the project. -/
def aboveTree : FileTree :=
  ⟨[(["lib"], .directory), (["a.js"], .file [0x66])], ⟨.slash, []⟩⟩

section

attribute [local instance] CharacterNames.nameless

/-- **Outputs need not lie in the output directory**: `lib/../a.js` is written to `out/../a.js`,
over the source itself. -/
theorem run_overwrites_source :
    ∃ o, run aboveTree ["-o", "out", "--project-root", "lib", "lib/../a.js"] = .ok o ∧
      aboveTree.at? ["a.js"] = some (.file (FileTree.bytesOf "f")) ∧
      o.tree.at? ["a.js"] = some (.file (FileTree.bytesOf "f;\n")) ∧
      ¬ Path.StrictlyBelow ["a.js"] (outputRoot aboveTree ⟨.relative, ["out"]⟩).names := by
  have hrun : (run aboveTree ["-o", "out", "--project-root", "lib", "lib/../a.js"]).toOption.map
      (·.tree.at? ["a.js"]) = some (some (.file (FileTree.bytesOf "f;\n"))) := by
    decide +kernel
  obtain ⟨o, ho, hat⟩ := Option.map_eq_some_iff.1 hrun
  exact ⟨o, Except.eq_ok_of_toOption ho, by decide +kernel, hat, by decide⟩

end

end

end CommandLine

end MessageBinder
