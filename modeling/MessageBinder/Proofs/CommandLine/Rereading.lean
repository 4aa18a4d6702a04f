import MessageBinder.CommandLine.Run
import MessageBinder.Proofs.Draft.Injection

/-!
# Compiling a source in other files

What a source is compiled to depends on few of the files around it: on the source itself, on which
files beside it match its pattern, and on these. Files that agree on them
(`MessageBinder.FileTree.Rereads`) compile the source to the same module, or both do not compile it
(`MessageBinder.CommandLine.compiled?_of_rereads`). What a failure says is left out here, since it
may tell of files that do not matter otherwise.
-/

namespace MessageBinder

/-! ### Computations that come to the same -/

namespace Except

variable {ε ε' α β : Type}

theorem toOption_map (r : Except ε α) (f : α → β) : (r.map f).toOption = r.toOption.map f := by
  cases r <;> rfl

theorem toOption_mapError (r : Except ε α) (f : ε → ε') :
    (r.mapError f).toOption = r.toOption := by
  cases r <;> rfl

theorem toOption_bind (r : Except ε α) (f : α → Except ε β) :
    (r >>= f).toOption = r.toOption.bind fun a => (f a).toOption := by
  cases r <;> rfl

theorem bind_eq_ok {r : Except ε α} {f : α → Except ε β} {b : β} :
    (r >>= f) = .ok b ↔ ∃ a, r = .ok a ∧ f a = .ok b := by
  constructor
  · rintro h
    rcases r with e | a
    · cases h
    · exact ⟨a, rfl, h⟩
  · rintro ⟨a, rfl, h⟩
    exact h

end Except

namespace Loads

variable {α β : Type}

/-- **Computations agree** if both give the same value or both fail. -/
def Agree (x y : Loads α) : Prop :=
  ∃ r r' paths paths', x.Ends r paths ∧ y.Ends r' paths' ∧ r'.toOption = r.toOption

theorem Agree.toOption_run {x y : Loads α} (h : x.Agree y) :
    y.run.1.toOption = x.run.1.toOption := by
  obtain ⟨r, r', paths, paths', hx, hy, hr⟩ := h
  rw [hx.run, hy.run]
  exact hr

theorem agree_ofExcept {r r' : Except Failure α} (h : r'.toOption = r.toOption) :
    (ofExcept r).Agree (ofExcept r') :=
  ⟨r, r', [], [], ends_ofExcept r, ends_ofExcept r', h⟩

theorem agree_pure (a : α) : (pure a : Loads α).Agree (pure a) :=
  ⟨_, _, [], [], ends_pure a, ends_pure a, rfl⟩

theorem Agree.bind {x y : Loads α} {f g : α → Loads β} (h : x.Agree y)
    (h' : ∀ a, x.Gives a → (f a).Agree (g a)) : (x >>= f).Agree (y >>= g) := by
  obtain ⟨r, r', paths, paths', hx, hy, hr⟩ := h
  rcases r with e | a
  · rcases r' with e' | a'
    · exact ⟨_, _, _, _, hx.bind_error f, hy.bind_error g, rfl⟩
    · cases hr
  · rcases r' with e' | a'
    · cases hr
    · obtain rfl := Option.some.inj hr
      obtain ⟨q, q', ps, ps', hf, hg, hq⟩ := h' a' ⟨[], _, hx []⟩
      exact ⟨_, _, _, _, hx.bind hf, hy.bind hg, hq⟩

end Loads

/-! ### Collections -/

/-- The files of a directory that match, if the directory can be listed. -/
def FileTree.matched? (t : FileTree) (directory : Path) (base extension : String) :
    Option (List (String × String)) :=
  (t.filesIn directory).toOption.map (CatalogueSource.matching base extension)

namespace CatalogueSource

variable {s s' : CatalogueSource} {source : String}

/-- The files that match a source, if its directory can be listed. -/
def matched? (s : CatalogueSource) (source : String) : Option (List (String × String)) :=
  s.tree.matched? (s.directory source) (Path.ofString source).stem s.extension

/-- **Catalogues are found alike** for a source: the same files match, and they hold the same. -/
structure FindsAlike (s s' : CatalogueSource) (source : String) : Prop where
  /-- The extension. -/
  extension : s'.extension = s.extension
  /-- The project. -/
  project : s'.project = s.project
  /-- What matches. -/
  matched : s'.matched? source = s.matched? source
  /-- What it holds. -/
  loaded : ∀ files, s.matched? source = some files → ∀ f ∈ files,
    (s'.loader ((s.directory source).entryText f.1)).toOption
      = (s.loader ((s.directory source).entryText f.1)).toOption

/-- **Catalogues correspond** for a source, which may lie in another place: the same names match,
and their files hold the same. -/
structure Corresponds (s s' : CatalogueSource) (source : String) : Prop where
  /-- What matches. -/
  matched : s'.matched? source = s.matched? source
  /-- What it holds. -/
  loaded : ∀ files, s.matched? source = some files → ∀ f ∈ files,
    (s'.loader ((s'.directory source).entryText f.1)).toOption
      = (s.loader ((s.directory source).entryText f.1)).toOption

/-- Catalogues that are found alike correspond. -/
theorem FindsAlike.corresponds (h : s.FindsAlike s' source) : s.Corresponds s' source := by
  have hdirectory : s'.directory source = s.directory source := by
    rw [CatalogueSource.directory, h.project, CatalogueSource.directory]
  exact ⟨h.matched, hdirectory.symm ▸ h.loaded⟩

theorem agree_load {loader loader' : Loader} {path path' : String}
    (h : (loader' path').toOption = (loader path).toOption) :
    (Loads.load loader path).Agree (Loads.load loader' path') :=
  ⟨_, _, _, _, Loads.ends_load loader path, Loads.ends_load loader' path', h⟩

theorem agree_loadAll {directory directory' : Path} {files : List (String × String)}
    (h : ∀ f ∈ files, (s'.loader (directory'.entryText f.1)).toOption
      = (s.loader (directory.entryText f.1)).toOption) (collection : Table Json) :
    (s.loadAll directory files collection).Agree (s'.loadAll directory' files collection) := by
  induction files generalizing collection with
  | nil => exact Loads.agree_pure collection
  | cons f files ih =>
    obtain ⟨hf, hfiles⟩ := List.forall_mem_cons.1 h
    exact (agree_load hf).bind fun catalogue _ => ih hfiles _

/-- The outcome of collecting is told by what matches. -/
theorem exists_ends_record (s : CatalogueSource) (source : String) :
    (s.matched? source = none ∧ ∃ e, (∀ message, e ≠ .loader message) ∧
      (s.recordBy s.scan source).Ends (.error e) []) ∨
    ∃ files, s.matched? source = some files ∧ ∀ r paths,
      (s.loadAll (s.directory source) files []).Ends r paths →
        (s.recordBy s.scan source).Ends (r.map fun c => ⟨source, .ofTable c, true⟩) paths := by
  have hscan : (s.scan (s.directory source)).Ends _ [] :=
    Loads.ends_ofExcept ((s.tree.filesIn (s.directory source)).mapError Failure.file)
  rw [matched?, FileTree.matched?]
  cases hfiles : s.tree.filesIn (s.directory source) with
  | error e =>
    rw [hfiles] at hscan
    exact Or.inl ⟨rfl, .file e, fun _ => Failure.noConfusion, hscan.bind_error _⟩
  | ok names =>
    rw [hfiles] at hscan
    exact Or.inr ⟨_, rfl, fun r paths hall => ends_recordBy hscan hall⟩

/-- What corresponds is collected alike. -/
theorem Corresponds.agree_record (h : s.Corresponds s' source) :
    (s.recordBy s.scan source).Agree (s'.recordBy s'.scan source) := by
  rcases s.exists_ends_record source with ⟨hnone, e, -, hends⟩ | ⟨files, hsome, hends⟩
  · rcases s'.exists_ends_record source with ⟨-, e', -, hends'⟩ | ⟨files', hsome', -⟩
    · exact ⟨_, _, _, _, hends, hends', rfl⟩
    · rw [h.matched, hnone] at hsome'
      cases hsome'
  · rcases s'.exists_ends_record source with ⟨hnone', -⟩ | ⟨files', hsome', hends'⟩
    · rw [h.matched, hsome] at hnone'
      cases hnone'
    · rw [h.matched, hsome] at hsome'
      obtain rfl := Option.some.inj hsome'
      obtain ⟨r, r', paths, paths', hall, hall', hr⟩ := agree_loadAll (h.loaded files hsome) []
      refine ⟨_, _, _, _, hends _ _ hall, hends' _ _ hall', ?_⟩
      rw [Except.toOption_map, Except.toOption_map, hr]

end CatalogueSource

/-! ### Passes -/

/-- A pass whose catalogues correspond comes to the same. -/
theorem Module.agree_bindMessages {m : Module} (hm : m.Numbered) (targets : List Target)
    {s s' : CatalogueSource} {path : Option String}
    (h : ∀ source, path = some source → s.Corresponds s' source) :
    (m.bindMessages targets s path).Agree (m.bindMessages targets s' path) := by
  rw [bindMessages_eq, bindMessages_eq]
  rcases bindMessagesBy_cases hm targets path with ⟨e, -, hends⟩ | ⟨r, hends⟩ |
    ⟨source, f, rfl, hends⟩
  · exact ⟨_, _, _, _, hends _, hends _, rfl⟩
  · exact ⟨_, _, _, _, hends _, hends _, rfl⟩
  · obtain ⟨r, r', paths, paths', hr, hr', heq⟩ := (h source rfl).agree_record
    refine ⟨_, _, _, _, hends _ _ _ hr, hends _ _ _ hr', ?_⟩
    rw [Except.toOption_map, Except.toOption_map, heq]

/-! ### Sources -/

/-- The path of a source relative to the project of a configuration. -/
def Config.sourceOf (config : Config) (cwd file : Path) : String :=
  Path.inProject cwd (Path.ofString file.text) config.project

/-- The directory of the catalogues of a source. -/
def Config.directoryOf (config : Config) (cwd file : Path) : Path :=
  (Path.ofString (config.sourceOf cwd file)).parent.onDisk config.project

/-- **A source is read again** in other files: it is the same there, the same catalogues match, and
they are the same, or they cannot be read in either. -/
structure FileTree.Rereads (t t' : FileTree) (config : Config) (file : Path) : Prop where
  /-- The current directory. -/
  cwd : t'.cwd = t.cwd
  /-- The source. -/
  source : (t'.read file).toOption = (t.read file).toOption
  /-- What matches. -/
  matched : t'.matched? (config.directoryOf t.cwd file)
      (Path.ofString (config.sourceOf t.cwd file)).stem config.extension.string
    = t.matched? (config.directoryOf t.cwd file)
      (Path.ofString (config.sourceOf t.cwd file)).stem config.extension.string
  /-- What it holds. -/
  catalogues : ∀ files, t.matched? (config.directoryOf t.cwd file)
      (Path.ofString (config.sourceOf t.cwd file)).stem config.extension.string = some files →
    ∀ f ∈ files, (t'.read (.ofString ((config.directoryOf t.cwd file).entryText f.1))).toOption
      = (t.read (.ofString ((config.directoryOf t.cwd file).entryText f.1))).toOption

theorem FileTree.Rereads.refl (t : FileTree) (config : Config) (file : Path) :
    t.Rereads t config file := ⟨rfl, rfl, rfl, fun _ _ _ _ => rfl⟩

theorem FileTree.Rereads.symm {t t' : FileTree} {config : Config} {file : Path}
    (h : t.Rereads t' config file) :
    t'.Rereads t config file := by
  have hcwd := h.cwd
  refine ⟨h.cwd.symm, h.source.symm, ?_, ?_⟩
  · rw [hcwd]
    exact h.matched.symm
  · rw [hcwd]
    intro files hfiles f hf
    exact (h.catalogues files (h.matched.symm.trans hfiles) f hf).symm

/-- What is read alike is the same text. -/
theorem FileTree.toOption_readText {t t' : FileTree} {p : Path}
    (h : (t'.read p).toOption = (t.read p).toOption) :
    (t'.readText p).toOption = (t.readText p).toOption := by
  rw [readText, readText, Except.toOption_bind, Except.toOption_bind, Except.toOption_mapError,
    Except.toOption_mapError, h]

/-- A loader gives what the files say. -/
theorem Format.toOption_loader (f : Format) {t t' : FileTree} {path : String}
    (h : (t'.read (.ofString path)).toOption = (t.read (.ofString path)).toOption) :
    (f.loader t' path).toOption = (f.loader t path).toOption := by
  rw [loader, loader, Except.toOption_bind, Except.toOption_bind, FileTree.toOption_readText h]

namespace CommandLine

/-- What a source is compiled to, if it can be. -/
def compiled? [CharacterNames] (t : FileTree) (config : Config) (file : Path) : Option Compiled :=
  (Compiler.ofConfig t config).toOption.bind fun c => (c.compileFile file).toOption

variable {t t' : FileTree} {config : Config} {file : Path}

/-- The catalogues of a source that is read again are found alike. -/
theorem findsAlike_of_rereads (h : t.Rereads t' config file) (f : Format) :
    CatalogueSource.FindsAlike ⟨t, config.extension.string, f.loader t, config.project⟩
      ⟨t', config.extension.string, f.loader t', config.project⟩ (config.sourceOf t.cwd file) where
  extension := rfl
  project := rfl
  matched := h.matched
  loaded files hfiles g hg := f.toOption_loader (h.catalogues files hfiles g hg)

/-- The compiler of a format in given files. -/
def compilerOf (t : FileTree) (config : Config) (f : Format) : Compiler :=
  ⟨t, config.targets, config.extension.string, f.loader t, config.project⟩

/-- Binding the messages in a module of a source that is read again. -/
theorem agree_transform (h : t.Rereads t' config file) (f : Format) {m : Module}
    (hm : m.Numbered) :
    ((compilerOf t config f).transform m file.text).Agree
      ((compilerOf t' config f).transform m file.text) := by
  have hpath : (compilerOf t' config f).sourcePath file.text
      = (compilerOf t config f).sourcePath file.text := by
    simp only [Compiler.sourcePath, compilerOf, h.cwd]
  refine (Loads.agree_ofExcept (congrArg _ (congrArg _ hpath))).bind fun source hsource => ?_
  refine (Module.agree_bindMessages hm config.targets fun source' heq => ?_).bind fun r _ =>
    Loads.agree_pure (⟨source, r⟩ : Compiled)
  obtain rfl := Option.some.inj heq
  obtain rfl : config.sourceOf t.cwd file = source := by
    have hok := Loads.gives_ofExcept hsource
    simp only [Compiler.sourcePath] at hok
    split at hok
    · cases hok
    · exact Except.ok.inj hok
  exact (findsAlike_of_rereads h f).corresponds

/-- A text of a source that is read again is compiled to the same. -/
theorem toOption_compile [CharacterNames] (h : t.Rereads t' config file) (f : Format)
    (text : String) :
    ((compilerOf t' config f).compile text file.text).toOption
      = ((compilerOf t config f).compile text file.text).toOption := by
  rw [Compiler.compile, Compiler.compile, Except.toOption_bind, Except.toOption_bind,
    Except.toOption_mapError]
  refine Option.bind_congr fun m hm => ?_
  have hagree := agree_transform h f (Module.numbered_of_parse (Except.eq_ok_of_toOption hm))
  rw [Except.toOption_mapError, Except.toOption_mapError, hagree.toOption_run]

/-- **A source that is read again** is compiled to the same. -/
theorem compiled?_of_rereads [CharacterNames] (h : t.Rereads t' config file) :
    compiled? t' config file = compiled? t config file := by
  rw [compiled?, compiled?, Compiler.ofConfig, Compiler.ofConfig]
  cases Format.ofExtension config.extension with
  | error e => rfl
  | ok f =>
    change ((compilerOf t' config f).compileFile file).toOption
      = ((compilerOf t config f).compileFile file).toOption
    rw [Compiler.compileFile, Compiler.compileFile, Except.toOption_bind, Except.toOption_bind,
      Except.toOption_mapError, Except.toOption_mapError]
    change ((t'.readText file).toOption.bind _) = ((t.readText file).toOption.bind _)
    rw [FileTree.toOption_readText h.source]
    exact congrArg _ (funext (toOption_compile h f))

end CommandLine

end MessageBinder
