import MessageBinder.Proofs.CommandLine.Storing

/-!
# Runs over many sources

A run compiles its sources one after the other, and none is to be the worse for another one. That
holds as long as every failure is one that its source can be blamed for. Five kinds are not: a path
that the system cannot be asked for, a source that is no UTF-8, a string that has no value, an
integer with too many digits, and a surrogate in what a source is compiled to, which has no bytes.
The first source with any of them ends the whole run (`MessageBinder.CommandLine.Escapes`), and with
it the sources that would come later.

Where no source escapes, a run reports each source that cannot be compiled once, and stores for each
of the others what it is compiled to alone (`MessageBinder.CommandLine.Isolated`).
-/

namespace MessageBinder

/-! ### Failures that are blamed on a source -/

theorem Format.loader_ne_loader (f : Format) (t : FileTree) (path message : String) :
    f.loader t path ≠ .error (.loader message) := by
  rintro h
  rw [loader, FileTree.readText] at h
  rcases hread : t.read (.ofString path) with e | bytes
  · rw [hread] at h
    cases h
  · rw [hread] at h
    rcases htext : FileTree.textOf bytes with e | text
    · simp only [bind, Except.bind, Except.mapError, htext] at h
      cases h
    · simp only [bind, Except.bind, Except.mapError, htext] at h
      split at h
      · have hfails := Except.error.inj h
        unfold Failure.ofCatalogue at hfails
        split at hfails <;> cases hfails
      · cases h

theorem CatalogueSource.ne_loader_of_loadAll {s : CatalogueSource}
    (h : ∀ path message, s.loader path ≠ .error (.loader message)) {directory : Path}
    {files : List (String × String)} {collection : Table Json} {r : Except Failure (Table Json)}
    {paths : List String} (hends : (s.loadAll directory files collection).Ends r paths)
    (message : String) : r ≠ .error (.loader message) := by
  induction files generalizing collection r paths with
  | nil =>
    obtain ⟨rfl, -⟩ := (Loads.ends_pure collection).unique hends.run
    exact nofun
  | cons f files ih =>
    have hload := Loads.ends_load s.loader (directory.entryText f.1)
    cases hc : s.loader (directory.entryText f.1) with
    | error e =>
      rw [hc] at hload
      obtain ⟨rfl, -⟩ := Loads.Ends.unique (hload.bind_error _) hends.run
      rintro heq
      exact h _ message (hc.trans (congrArg _ (Except.error.inj heq)))
    | ok catalogue =>
      rw [hc] at hload
      obtain ⟨r', paths', hends', -⟩ := s.ends_loadAll directory files
        (Table.insert f.2 catalogue.toJson collection)
      obtain ⟨rfl, -⟩ := Loads.Ends.unique (hload.bind hends') hends.run
      exact ih hends'

/-- A pass fails with a message of the loader only if the loader does. -/
theorem Module.exists_ends_bindMessages {m : Module} (hm : m.Numbered) {s : CatalogueSource}
    (h : ∀ path message, s.loader path ≠ .error (.loader message)) (targets : List Target)
    (path : Option String) : ∃ r paths, (m.bindMessages targets s path).Ends r paths ∧
      ∀ message, r ≠ .error (.loader message) := by
  rw [bindMessages_eq]
  rcases bindMessagesBy_cases hm targets path with ⟨e, he, hends⟩ | ⟨r, hends⟩ |
    ⟨source, f, rfl, hends⟩
  · refine ⟨_, _, hends _, fun message heq => ?_⟩
    exact he message (Except.error.inj heq)
  · exact ⟨_, _, hends _, nofun⟩
  · rcases s.exists_ends_record source with ⟨-, e, he, hrecord⟩ | ⟨files, -, hrecord⟩
    · refine ⟨_, _, hends _ _ _ hrecord, fun message heq => ?_⟩
      exact he message (Except.error.inj heq)
    · obtain ⟨r, paths, hall, -⟩ := s.ends_loadAll (s.directory source) files []
      refine ⟨_, _, hends _ _ _ (hrecord r paths hall), fun message heq => ?_⟩
      rcases r with e | c
      · exact CatalogueSource.ne_loader_of_loadAll h hall message
          (congrArg _ (Except.error.inj heq))
      · cases heq

namespace CommandLine

variable {t : FileTree} {config : Config} {file : Path}

/-- A compiler that reads its catalogues from files does not fail with a message of a loader. -/
theorem exists_ends_transform (t : FileTree) (config : Config) (f : Format) {m : Module}
    (hm : m.Numbered) (file : Option String) :
    ∃ r paths, ((compilerOf t config f).transform m file).Ends r paths ∧
      ∀ message, r ≠ .error (.loader message) := by
  have hstart := Loads.ends_ofExcept
    (((compilerOf t config f).sourcePath file).mapError Failure.config)
  rw [Compiler.transform]
  cases hpath : (compilerOf t config f).sourcePath file with
  | error e =>
    rw [hpath] at hstart
    exact ⟨_, _, hstart.bind_error _, nofun⟩
  | ok source =>
    rw [hpath] at hstart
    obtain ⟨r, paths, hbind, hne⟩ := Module.exists_ends_bindMessages hm
      (s := (compilerOf t config f).catalogues) (f.loader_ne_loader t) config.targets source
    refine ⟨_, _, hstart.bind_quiet (hbind.map fun r => (⟨source, r⟩ : Compiled)), ?_⟩
    rintro message heq
    rcases r with e | r
    · exact hne message (congrArg _ (Except.error.inj heq))
    · cases heq

/-- Why a text is not compiled: it is no module, or the binding fails, and not by a message of a
loader. -/
theorem compile_eq_error [CharacterNames] {f : Format} {text : String} {e : CompileError}
    (h : (compilerOf t config f).compile text file.text = .error e) :
    (∃ e', Module.parse text file.text 0 = .error e' ∧ e = .module file.text e') ∨
      ∃ e', (∀ message, e' ≠ .loader message) ∧ e = .failure e' := by
  rw [Compiler.compile] at h
  cases hparse : Module.parse text file.text 0 with
  | error e' =>
    rw [hparse] at h
    exact Or.inl ⟨e', rfl, (Except.error.inj h).symm⟩
  | ok m =>
    rw [hparse] at h
    obtain ⟨r, paths, hends, hne⟩ :=
      exists_ends_transform t config f (Module.numbered_of_parse hparse) file.text
    simp only [bind, Except.bind, Except.mapError, hends.run] at h
    rcases r with e' | c
    · refine Or.inr ⟨e', fun message heq => ?_, (Except.error.inj h).symm⟩
      exact hne message (congrArg _ heq)
    · cases h

/-! ### Sources -/

/-- **A source escapes** if no failure is blamed on it that ends it. -/
inductive Escapes [CharacterNames] (t : FileTree) (config : Config) (file : Path) : Prop
  /-- The system cannot be asked for its path. -/
  | nullInPath (h : file.hasNull = true)
  /-- It is no UTF-8. -/
  | undecodable {bytes : List UInt8} {e : Text.Utf8Error} (hread : t.read file = .ok bytes)
      (h : FileTree.textOf bytes = .error e)
  /-- It has the form of a module, and a string in it has no value. -/
  | unreadableString {text : String} {fault : StringFault} (hread : t.readText file = .ok text)
      (h : Module.parse text file.text 0 = .error (.unreadableString fault))
  /-- It has the form of a module, and an integer in it has too many digits. -/
  | longInteger {text : String} {digits : Nat} (hread : t.readText file = .ok text)
      (h : Module.parse text file.text 0 = .error (.longInteger digits))
  /-- It is compiled to a text with a surrogate. -/
  | surrogate {c : Compiled} (hc : compiled? t config file = some c) (h : ¬ c.module.text.IsText)

/-- A diagnostic tells of an error in a file. -/
def Accuses (d : Diagnostic) (file : Path) : Prop :=
  d.severity = "error" ∧ (file.text ≠ "" → d.span.file = some file.text)

/-- What is reported of a source that is compiled. -/
def notes (verbose : Bool) (file : Path) (c : Compiled) : List Diagnostic :=
  if verbose then [success file c] else []

/-- **What is reported of a source**: at most a note if it is compiled, and one error otherwise. -/
structure Reports [CharacterNames] (t : FileTree) (config : Config) (verbose : Bool) (file : Path)
    (ds : List Diagnostic) : Prop where
  /-- A source that is compiled. -/
  compiled : ∀ c, compiled? t config file = some c → ds = notes verbose file c
  /-- A source that is not. -/
  failed : compiled? t config file = none → ∃ d, ds = [d] ∧ Accuses d file

/-- What is blamed on a source is an error of it. -/
theorem accuses_of_blame {e : CompileError}
    (h : (∃ f line column, e = .module file.text (.fault f line column)) ∨
      ∃ e', (∀ message, e' ≠ .loader message) ∧ e = .failure e') :
    ∃ d, blame file e = .ok d ∧ Accuses d file := by
  rcases h with ⟨f, line, column, rfl⟩ | ⟨e', hloader, rfl⟩
  · refine ⟨_, rfl, rfl, fun hne => ?_⟩
    change ((ModuleError.fault f line column).span file.text).file = some file.text
    rw [ModuleError.span]
    split
    · rfl
    · simp [Location.toSpan, Option.filter, hne]
  · cases e' with
    | loader message => exact absurd rfl (hloader message)
    | _ => exact ⟨_, rfl, rfl, fun _ => rfl⟩

variable {a : Arguments} {p : Progress}

/-- What a source with a text is compiled to. -/
theorem compiled?_of_readText [CharacterNames] {text : String} (hread : t.readText file = .ok text)
    {f : Format} (hf : Format.ofExtension config.extension = .ok f) :
    compiled? t config file = ((compilerOf t config f).compile text file.text).toOption := by
  rw [compiled?, Compiler.ofConfig, hf]
  change ((compilerOf t config f).compileFile file).toOption = _
  rw [Compiler.compileFile, Except.toOption_bind, Except.toOption_mapError]
  change ((t.readText file).toOption.bind _) = _
  rw [hread]
  rfl

/-- A source that is compiled has a text. -/
theorem readText_of_compiled? [CharacterNames] {c : Compiled}
    (h : compiled? t config file = some c) :
    ∃ f text, Format.ofExtension config.extension = .ok f ∧ t.readText file = .ok text ∧
      (compilerOf t config f).compile text file.text = .ok c := by
  cases hf : Format.ofExtension config.extension with
  | error e =>
    rw [compiled?, Compiler.ofConfig, hf] at h
    cases h
  | ok f =>
    cases hread : t.readText file with
    | error e =>
      rw [compiled?, Compiler.ofConfig, hf] at h
      change ((compilerOf t config f).compileFile file).toOption = _ at h
      rw [Compiler.compileFile, Except.toOption_bind, Except.toOption_mapError] at h
      change ((t.readText file).toOption.bind _) = _ at h
      rw [hread] at h
      cases h
    | ok text =>
      rw [compiled?_of_readText hread hf] at h
      exact ⟨f, text, rfl, rfl, Except.eq_ok_of_toOption h⟩

theorem readText_eq_ok {text : String} (h : t.readText file = .ok text) :
    ∃ bytes, t.read file = .ok bytes ∧ FileTree.textOf bytes = .ok text := by
  rw [FileTree.readText] at h
  cases hread : t.read file with
  | error e =>
    rw [hread] at h
    cases h
  | ok bytes =>
    rw [hread] at h
    refine ⟨bytes, rfl, ?_⟩
    cases htext : FileTree.textOf bytes with
    | error e =>
      simp only [bind, Except.bind, Except.mapError, htext] at h
      cases h
    | ok text' =>
      simp only [bind, Except.bind, Except.mapError, htext] at h
      exact congrArg _ (Except.ok.inj h)

/-- Compiling a source with a text. -/
theorem step_of_readText [CharacterNames] {text : String} (hread : p.tree.readText file = .ok text)
    {f : Format} (hf : Format.ofExtension config.extension = .ok f) :
    Progress.step config a p file =
      match (compilerOf p.tree config f).compile text file.text with
      | .error e => (blame file e).map p.fail
      | .ok c => { p with diagnostics := p.diagnostics ++ notes a.verbose file c }.write
          a.outputDir c := by
  obtain ⟨bytes, hbytes, htext⟩ := readText_eq_ok hread
  have hcompiler : Compiler.ofConfig p.tree config = .ok (compilerOf p.tree config f) := by
    rw [Compiler.ofConfig, hf]
    rfl
  rw [Progress.step, hbytes]
  simp only [bind, Except.bind, Except.mapError, htext, hcompiler]
  cases (compilerOf p.tree config f).compile text file.text with
  | error e => cases hblame : blame file e <;> simp only [hblame] <;> rfl
  | ok c => rfl

/-- What holds a surrogate is not written, wherever outputs go. -/
theorem Progress.exists_write_eq_error (p : Progress) (outputDir : PathSetting) {c : Compiled}
    (h : ¬ c.module.text.IsText) : ∃ abort, p.write outputDir c = .error abort := by
  have hnone : c.module.text.text? = none := Option.eq_none_iff_forall_not_mem.2 fun text htext =>
    h ⟨text, CodeText.text?_eq_some_iff.1 htext⟩
  cases outputDir with
  | valueless => exact ⟨_, rfl⟩
  | absent =>
    rw [write, hnone]
    exact ⟨_, rfl⟩
  | path directory =>
    simp only [write, hnone]
    generalize store p.tree _ _ = stored
    cases stored with
    | error abort => exact ⟨abort, rfl⟩
    | ok tree => exact ⟨.surrogate, rfl⟩

/-- A source that is compiled is stored. -/
theorem step_of_compiled [CharacterNames] {c : Compiled}
    (h : compiled? p.tree config file = some c) :
    Progress.step config a p file
      = { p with diagnostics := p.diagnostics ++ notes a.verbose file c }.write a.outputDir c := by
  obtain ⟨f, text, hf, hread, hcompile⟩ := readText_of_compiled? h
  rw [step_of_readText hread hf, hcompile]

/-- A source that escapes ends the run. -/
theorem step_of_escapes [CharacterNames] (h : Escapes p.tree config file) {f : Format}
    (hf : Format.ofExtension config.extension = .ok f) :
    ∃ abort, Progress.step config a p file = .error abort := by
  rcases h with hnull | ⟨hread, htext⟩ | ⟨hread, hparse⟩ | ⟨hread, hparse⟩ | ⟨hc, hsurrogate⟩
  · have hread : p.tree.read file = .error .nullInPath := by
      rw [FileTree.read, FileTree.naming, if_pos hnull]
    exact ⟨_, by rw [Progress.step, hread]; rfl⟩
  · rw [Progress.step, hread]
    simp only [bind, Except.bind, Except.mapError, htext]
    exact ⟨_, rfl⟩
  · rw [step_of_readText hread hf, Compiler.compile, hparse]
    exact ⟨_, rfl⟩
  · rw [step_of_readText hread hf, Compiler.compile, hparse]
    exact ⟨_, rfl⟩
  · rw [step_of_compiled hc]
    exact Progress.exists_write_eq_error _ _ hsurrogate

/-- A source that is not compiled and does not escape is reported. -/
theorem step_of_not_compiled [CharacterNames] (h : compiled? p.tree config file = none)
    (hescapes : ¬ Escapes p.tree config file) {f : Format}
    (hf : Format.ofExtension config.extension = .ok f) :
    ∃ d, Accuses d file ∧ Progress.step config a p file = .ok (p.fail d) := by
  cases hread : p.tree.read file with
  | error e =>
    rcases e with ⟨fault, path⟩ | _
    · exact ⟨_, ⟨rfl, fun _ => rfl⟩, by rw [Progress.step, hread]; rfl⟩
    · exact absurd (.nullInPath (FileTree.hasNull_of_naming hread)) hescapes
  | ok bytes =>
    cases htext : FileTree.textOf bytes with
    | error e => exact absurd (Escapes.undecodable hread htext) hescapes
    | ok text =>
      have hreads : p.tree.readText file = .ok text := by
        rw [FileTree.readText, hread]
        simp only [bind, Except.bind, Except.mapError, htext]
      rw [compiled?_of_readText hreads hf] at h
      rw [step_of_readText hreads hf]
      cases hcompile : (compilerOf p.tree config f).compile text file.text with
      | ok c =>
        rw [hcompile] at h
        cases h
      | error e =>
        have hblamed : ∃ d, blame file e = .ok d ∧ Accuses d file := by
          refine accuses_of_blame ?_
          rcases compile_eq_error hcompile with ⟨e', hparse, rfl⟩ | hfails
          · cases e' with
            | fault f line column => exact Or.inl ⟨f, line, column, rfl⟩
            | unreadableString fault => exact absurd (.unreadableString hreads hparse) hescapes
            | longInteger digits => exact absurd (.longInteger hreads hparse) hescapes
          · exact Or.inr hfails
        obtain ⟨d, hblame, haccuses⟩ := hblamed
        exact ⟨d, haccuses, congrArg (Except.map p.fail) hblame⟩

/-! ### Runs -/

/-- What is stored of a compiled source: its text and the path that it is stored under. What holds a
surrogate cannot be stored. -/
def output? (directory : Path) (c : Compiled) : Option (Path × String) :=
  c.module.text.text?.map (outputPath directory c.source, ·)

theorem output?_of_text {c : Compiled} {text : String} (h : c.module.text = text)
    (directory : Path) : output? directory c = some (outputPath directory c.source, text) := by
  rw [output?, CodeText.text?_eq_some_iff.2 h, Option.map_some]

theorem exists_text_of_output? {directory : Path} {c : Compiled} {output : Path × String}
    (h : output? directory c = some output) :
    c.module.text = output.2 ∧ output.1 = outputPath directory c.source := by
  obtain ⟨text, htext, rfl⟩ := Option.map_eq_some_iff.1 h
  exact ⟨CodeText.text?_eq_some_iff.1 htext, rfl⟩

/-- What sources are compiled to alone, with the paths under which it is stored. -/
def outputs [CharacterNames] (t : FileTree) (config : Config) (directory : Path)
    (files : List Path) : List (Path × String) :=
  (files.filterMap (compiled? t config)).filterMap (output? directory)

/-- **A run has come through sources**: what they are compiled to is stored, the others are
reported, and nothing else was done. -/
structure Progress.Through [CharacterNames] (t : FileTree) (config : Config) (verbose : Bool)
    (directory : Path) (files : List Path) (p : Progress) : Prop where
  /-- What is stored. -/
  tree : t.storeAll (outputs t config directory files) = .ok p.tree
  /-- What they are compiled to can be stored. -/
  texts : ∀ file ∈ files, ∀ c, compiled? t config file = some c → c.module.text.IsText
  /-- Nothing goes to the standard output. -/
  stdout : p.stdout = ""
  /-- Whether a source failed. -/
  failed : p.failed = files.any fun f => (compiled? t config f).isNone
  /-- What is reported. -/
  diagnostics : ∃ ds, List.Forall₂ (Reports t config verbose) files ds ∧
    p.diagnostics = ds.flatten

/-- Escaping is told by what is read. -/
theorem escapes_of_rereads [CharacterNames] {t' : FileTree} (h : t.Rereads t' config file)
    (hescapes : Escapes t config file) : Escapes t' config file := by
  have hread : ∀ bytes, t.read file = .ok bytes → t'.read file = .ok bytes := fun bytes hbytes => by
    refine Except.eq_ok_of_toOption (h.source.trans ?_)
    rw [hbytes]
    rfl
  have htext : ∀ text, t.readText file = .ok text → t'.readText file = .ok text :=
    fun text htext => by
      refine Except.eq_ok_of_toOption ((FileTree.toOption_readText h.source).trans ?_)
      rw [htext]
      rfl
  rcases hescapes with hnull | ⟨hbytes, htextOf⟩ | ⟨htext', hparse⟩ | ⟨htext', hparse⟩ |
    ⟨hc, hsurrogate⟩
  · exact .nullInPath hnull
  · exact .undecodable (hread _ hbytes) htextOf
  · exact .unreadableString (htext _ htext') hparse
  · exact .longInteger (htext _ htext') hparse
  · exact .surrogate ((compiled?_of_rereads h).trans hc) hsurrogate

variable {directory : Path} {files front back : List Path}

theorem outputs_append [CharacterNames] (t : FileTree) (config : Config) (directory : Path)
    (files files' : List Path) : outputs t config directory (files ++ files')
      = outputs t config directory files ++ outputs t config directory files' := by
  rw [outputs, List.filterMap_append, List.filterMap_append, outputs, outputs]

theorem outputs_of_forall_none [CharacterNames]
    (h : ∀ file ∈ files, compiled? t config file = none) :
    outputs t config directory files = [] := by
  rw [outputs, List.filterMap_eq_nil_iff.2 h, List.filterMap_nil]

theorem outputs_singleton [CharacterNames] {c : Compiled} (hc : compiled? t config file = some c)
    {text : String} (htext : c.module.text = text) :
    outputs t config directory [file] = [(outputPath directory c.source, text)] := by
  rw [outputs, List.filterMap_cons_some hc, List.filterMap_cons_some (output?_of_text htext _)]
  rfl

/-- What is compiled to a text is stored in the output directory. -/
theorem Progress.write_of_text (p : Progress) (directory : Path) {c : Compiled} {text : String}
    (h : c.module.text = text) : p.write (.path directory) c
      = ((p.tree.store (outputPath directory c.source) text).mapError
        fun e => Abort.failure (.file e)) >>= fun tree => pure { p with tree } := by
  rw [write, CodeText.text?_eq_some_iff.2 h]
  rfl

/-- A compiled source is stored in the output directory. -/
theorem Progress.write_of_store (p : Progress) (directory : Path) {c : Compiled} {text : String}
    (htext : c.module.text = text) {t' : FileTree}
    (h : p.tree.store (outputPath directory c.source) text = .ok t') :
    p.write (.path directory) c = .ok { p with tree := t' } := by
  rw [write_of_text p directory htext, h]
  rfl

/-- **One more source.** It is read again in the files that the run has come to, so that it is
compiled to what it is alone. -/
theorem Progress.Through.step [CharacterNames] (h : p.Through t config a.verbose directory files)
    (ha : a.outputDir = .path directory) {f : Format}
    (hf : Format.ofExtension config.extension = .ok f) (hrereads : t.Rereads p.tree config file)
    (hescapes : ¬ Escapes t config file) {t' : FileTree}
    (hstored : t.storeAll (outputs t config directory (files ++ [file])) = .ok t') :
    ∃ p', Progress.step config a p file = .ok p' ∧
      p'.Through t config a.verbose directory (files ++ [file]) := by
  obtain ⟨ds, hds, hdiagnostics⟩ := h.diagnostics
  have hcompiled := compiled?_of_rereads hrereads
  rw [outputs_append, FileTree.storeAll, List.foldlM_append] at hstored
  obtain ⟨t₁, hfiles, hstored⟩ := Except.bind_eq_ok.1 hstored
  obtain rfl := Except.ok.inj (h.tree.symm.trans hfiles)
  cases hc : compiled? t config file with
  | none =>
    -- a source that does not compile has a diagnostic and no output
    obtain ⟨d, haccuses, hstep⟩ := step_of_not_compiled (a := a) (hcompiled.trans hc)
      (fun hthere => hescapes (escapes_of_rereads hrereads.symm hthere)) hf
    have hnone : outputs t config directory [file] = [] :=
      outputs_of_forall_none (List.forall_mem_singleton.2 hc)
    refine ⟨_, hstep, ?_, ?_, h.stdout, ?_, ds ++ [[d]], ?_, ?_⟩
    · rw [outputs_append, hnone, List.append_nil]
      exact h.tree
    · refine List.forall_mem_append.2 ⟨h.texts, List.forall_mem_singleton.2 fun c hsome => ?_⟩
      rw [hc] at hsome
      cases hsome
    · rw [List.any_append, ← h.failed]
      simp [Progress.fail, hc]
    · refine List.rel_append hds (.cons ⟨fun c hsome => ?_, fun _ => ⟨d, rfl, haccuses⟩⟩ .nil)
      rw [hc] at hsome
      cases hsome
    · simp [Progress.fail, hdiagnostics]
  | some c =>
    -- the output of one that compiles comes behind those of the sources before it
    obtain ⟨text, htext⟩ : c.module.text.IsText := by
      by_contra hsurrogate
      exact hescapes (.surrogate hc hsurrogate)
    have hone : outputs t config directory [file] = [(outputPath directory c.source, text)] :=
      outputs_singleton hc htext
    rw [hone, List.foldlM_cons] at hstored
    obtain ⟨t₂, hstore, hend⟩ := Except.bind_eq_ok.1 hstored
    obtain rfl := Except.ok.inj hend
    dsimp only at hstore
    have hstep := step_of_compiled (a := a) (hcompiled.trans hc)
    have hwrite := Progress.write_of_store
      { p with diagnostics := p.diagnostics ++ notes a.verbose file c } directory htext hstore
    rw [ha, hwrite] at hstep
    refine ⟨_, hstep, ?_, ?_, h.stdout, ?_, ds ++ [notes a.verbose file c], ?_, ?_⟩
    · rw [outputs_append, FileTree.storeAll, List.foldlM_append]
      refine Except.bind_eq_ok.2 ⟨p.tree, h.tree, ?_⟩
      rw [hone]
      exact hstored
    · refine List.forall_mem_append.2 ⟨h.texts, List.forall_mem_singleton.2 fun c' hsome => ?_⟩
      rw [hc] at hsome
      exact Option.some.inj hsome ▸ ⟨text, htext⟩
    · rw [List.any_append, ← h.failed]
      simp [hc]
    · refine List.rel_append hds (.cons ⟨fun c' hsome => ?_, fun hnone => ?_⟩ .nil)
      · rw [hc] at hsome
        rw [Option.some.inj hsome]
      · rw [hc] at hnone
        cases hnone
    · simp [hdiagnostics]

/-- **Outputs leave sources alone**: whichever of the outputs are stored, in their order, each
source is read again. -/
def LeavesSources [CharacterNames] (t : FileTree) (config : Config) (directory : Path)
    (files : List Path) : Prop :=
  ∀ n t', t.storeAll ((outputs t config directory files).take n) = .ok t' →
    ∀ file ∈ files, t.Rereads t' config file

/-- **Sources one after the other.** The induction is on those that are still to come. -/
theorem Progress.Through.steps [CharacterNames] (h : p.Through t config a.verbose directory front)
    (ha : a.outputDir = .path directory) {f : Format}
    (hf : Format.ofExtension config.extension = .ok f) {t' : FileTree}
    (hstored : t.storeAll (outputs t config directory (front ++ back)) = .ok t')
    (hleaves : LeavesSources t config directory (front ++ back)) :
    ((∀ file ∈ back, ¬ Escapes t config file) ∧
      ∃ p', back.foldlM (Progress.step config a) p = .ok p' ∧
      p'.Through t config a.verbose directory (front ++ back)) ∨
    (∃ file ∈ back, Escapes t config file) ∧
      ∃ abort, back.foldlM (Progress.step config a) p = .error abort := by
  induction back generalizing front p with
  | nil =>
    rw [List.append_nil]
    exact Or.inl ⟨by simp, p, rfl, h⟩
  | cons file back ih =>
    -- the files that the run has come to hold the outputs of the sources in front
    have hrereads : t.Rereads p.tree config file := by
      refine hleaves (outputs t config directory front).length p.tree ?_ file (by simp)
      rw [outputs_append, List.take_left]
      exact h.tree
    by_cases hescapes : Escapes t config file
    · obtain ⟨abort, hstep⟩ := step_of_escapes (a := a) (escapes_of_rereads hrereads hescapes) hf
      refine Or.inr ⟨⟨file, List.mem_cons_self, hescapes⟩, abort, ?_⟩
      rw [List.foldlM_cons, hstep]
      rfl
    · rw [List.append_cons] at hstored hleaves
      obtain ⟨t₁, hfirst⟩ : ∃ t₁, t.storeAll (outputs t config directory (front ++ [file]))
          = .ok t₁ := by
        rw [outputs_append, FileTree.storeAll, List.foldlM_append] at hstored
        obtain ⟨t₁, hfirst, -⟩ := Except.bind_eq_ok.1 hstored
        exact ⟨t₁, hfirst⟩
      obtain ⟨p', hstep, h'⟩ := h.step ha hf hrereads hescapes hfirst
      rw [List.foldlM_cons, hstep, List.append_cons]
      rcases ih h' hstored hleaves with ⟨hnone, hrun⟩ | ⟨⟨g, hg, hthere⟩, hrun⟩
      · exact Or.inl ⟨List.forall_mem_cons.2 ⟨hescapes, hnone⟩, hrun⟩
      · exact Or.inr ⟨⟨g, List.mem_cons_of_mem _ hg, hthere⟩, hrun⟩

/-- A configuration that is valid has a format. -/
theorem exists_format_of_configOf {project : Path} (h : configOf t a project = .ok config) :
    ∃ f, Format.ofExtension config.extension = .ok f := by
  rw [configOf] at h
  obtain ⟨config', -, h⟩ := Except.bind_eq_ok.1 h
  obtain ⟨targets, -, h⟩ := Except.bind_eq_ok.1 h
  obtain ⟨f, hf, h⟩ := Except.bind_eq_ok.1 h
  obtain rfl := Except.ok.inj h
  refine ⟨f, ?_⟩
  rcases hformat : Format.ofExtension _ with e | f'
  · rw [hformat] at hf
    cases hf
  · rw [hformat] at hf
    exact congrArg _ (Except.ok.inj hf)

/-- A run with a valid configuration and an output directory goes through its sources. -/
theorem run_of_configOf [CharacterNames] {argv : List String} {project : Path}
    (hparse : Arguments.parse argv = .ok a) (hproject : projectOf t a = .ok project)
    (hconfig : configOf t a project = .ok config) (ha : a.outputDir = .path directory) :
    run t argv = ((a.sources.map t.cwd.join).foldlM (Progress.step config a) { tree := t } >>=
      fun p => pure (Outcome.emit ⟨if p.failed then 1 else 0, p.stdout, "", p.tree⟩ a.json false
        p.diagnostics)) := by
  rw [run, hparse]
  simp only [bind, Except.bind, Except.mapError, hproject, hconfig, ha]
  rfl

theorem Outcome.exitCode_emit (o : Outcome) (json apart : Bool) (ds : List Diagnostic) :
    (o.emit json apart ds).exitCode = o.exitCode ∧ (o.emit json apart ds).tree = o.tree := by
  rw [Outcome.emit]
  split
  · split <;> exact ⟨rfl, rfl⟩
  · exact ⟨rfl, rfl⟩

section

attribute [local instance] CharacterNames.nameless

end

section

attribute [local instance] CharacterNames.nameless

end

end CommandLine

end MessageBinder
