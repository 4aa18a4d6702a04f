import MessageBinder.Proofs.CommandLine.Rereading
import MessageBinder.Proofs.Locale.Naming

/-!
# Points in front of an extension

The extension of a configuration is met in two places. The format of the catalogues is told without
the points in front of it; the pattern that finds the files takes it as it is. So `.properties` has
the loader of `properties`, and finds the files whose names end in `..properties`. These are never
the files that `properties` finds (`MessageBinder.Locale.ofFileName?_of_point`).

Whether the points matter is then a matter of what is loaded. Nothing tells the two compilers apart
as long as neither loads a catalogue, and the paths do as soon as one does
(`MessageBinder.Loads.Part`): they come to the same for a text if and only if they load nothing, or
there are no points (`MessageBinder.Compiler.compiling_withoutPoints`). A configuration that is read
from a file or given on the command line has none
(`MessageBinder.CommandLine.withoutPoints_configOf`).
-/

namespace MessageBinder

/-! ### Extensions without points -/

namespace Format

variable {extension : CodeText} {f : Format}

theorem head?_withoutPoints (extension : CodeText) :
    ∀ code ∈ (withoutPoints extension).codes.head?, code ≠ .char '.' := by
  intro code hcode
  have hhead := List.head?_dropWhile_not (· = .char '.') extension.codes
  rw [show (extension.codes.dropWhile (· = .char '.')).head? = some code from hcode] at hhead
  simpa using hhead

/-- An extension without a point in front stays as it is. -/
theorem withoutPoints_eq_self (h : ∀ code ∈ extension.codes.head?, code ≠ .char '.') :
    withoutPoints extension = extension := by
  obtain ⟨codes⟩ := extension
  cases codes with
  | nil => rfl
  | cons code codes =>
    have hcode : code ≠ .char '.' := h code rfl
    rw [withoutPoints, List.dropWhile_cons_of_neg (by simpa using hcode)]

theorem withoutPoints_withoutPoints (extension : CodeText) :
    withoutPoints (withoutPoints extension) = withoutPoints extension :=
  withoutPoints_eq_self (head?_withoutPoints extension)

/-- The points are dropped from a text of characters as from any other one. -/
theorem withoutPoints_ofString (e : String) :
    withoutPoints e = String.ofList (e.toList.dropWhile (· = '.')) := by
  ext1
  simp only [withoutPoints, CodeText.codes_ofString, String.toList_ofList, List.dropWhile_map]
  congr 1
  exact congrArg (List.dropWhile · e.toList) (funext fun c => by simp)

/-- The points in front do not matter to the format. -/
theorem ofExtension_withoutPoints (h : ofExtension extension = .ok f) :
    ofExtension (withoutPoints extension) = .ok f := by
  unfold ofExtension at h ⊢
  rw [withoutPoints_withoutPoints]
  split at h
  · exact h
  · cases h

/-- An extension that has a format is more than points. -/
theorem withoutPoints_ne_empty (h : ofExtension extension = .ok f) :
    withoutPoints extension ≠ "" := by
  rintro hempty
  unfold ofExtension at h
  rw [hempty] at h
  cases h

/-- An extension that has a format holds no surrogate: points are characters, and so is what stands
behind them. -/
theorem exists_text_of_ofExtension (h : ofExtension extension = .ok f) :
    ∃ e : String, extension = e := by
  obtain ⟨rest, hrest⟩ : ∃ rest : String, withoutPoints extension = rest := by
    cases htext : (withoutPoints extension).text? with
    | none =>
      unfold ofExtension at h
      rw [htext] at h
      cases h
    | some rest => exact ⟨rest, CodeText.text?_eq_some_iff.1 htext⟩
  refine CodeText.isText_iff.2 fun code hcode => ?_
  rw [← extension.codes.takeWhile_append_dropWhile (p := (· = .char '.'))] at hcode
  rcases List.mem_append.1 hcode with hpoint | hbehind
  · obtain rfl : code = .char '.' := by simpa using List.mem_takeWhile_imp hpoint
    rfl
  · exact CodeText.isText_iff.1 ⟨rest, hrest⟩ code hbehind

end Format

/-! ### Names under two extensions -/

namespace Locale

variable {base extension extension' locale locale' name : String}

/-- **A name tells its locale and its extension**, given the base name. -/
theorem Names.tail_unique (h : Names base extension locale name)
    (h' : Names base extension' locale' name) : locale' = locale ∧ extension' = extension := by
  have hpoint : isLocaleChar '.' = false := by decide
  have hname := h'.name_eq.symm.trans h.name_eq
  have htail : locale'.toList ++ '.' :: extension'.toList
      = locale.toList ++ '.' :: extension.toList := by
    have hlist := congrArg String.toList hname
    simp only [String.toList_append, List.append_assoc] at hlist
    exact List.append_cancel_left (List.append_cancel_left hlist)
  obtain ⟨htake, hdrop⟩ := takeWhile_append_cons h.chars hpoint extension.toList
  obtain ⟨htake', hdrop'⟩ := takeWhile_append_cons h'.chars hpoint extension'.toList
  rw [htail] at htake' hdrop'
  exact ⟨String.toList_injective (htake'.symm.trans htake),
    String.toList_injective (List.cons.inj (hdrop'.symm.trans hdrop)).2⟩

/-- No name is found both with an extension that has a point in front and with one that has none. -/
theorem ofFileName?_of_point (hpoint : extension.toList.head? = some '.')
    (hplain : ∀ c ∈ extension'.toList.head?, c ≠ '.') (hne : extension' ≠ "")
    (h : ofFileName? base extension name = some locale) :
    ofFileName? base extension' name ≠ some locale' := by
  have hfront : ∀ tail, (extension ++ tail).toList.head? = some '.' := fun tail => by
    rw [String.toList_append, List.head?_append, hpoint]
    rfl
  have hfront' : ∀ tail, (extension' ++ tail).toList.head? ≠ some '.' := fun tail heq => by
    rw [String.toList_append, List.head?_append] at heq
    cases hcs : extension'.toList with
    | nil => exact hne (String.toList_injective (by simpa using hcs))
    | cons c cs =>
      rw [hcs] at heq hplain
      exact hplain c rfl (Option.some.inj heq)
  intro h'
  rw [ofFileName?_eq_some] at h h'
  obtain ⟨tail, hnames⟩ : ∃ tail, Names base (extension ++ tail) locale name := by
    rcases h with h | h
    · exact ⟨"", by rwa [String.append_empty]⟩
    · exact ⟨"\n", h⟩
  obtain ⟨tail', hnames'⟩ : ∃ tail', Names base (extension' ++ tail') locale' name := by
    rcases h' with h' | h'
    · exact ⟨"", by rwa [String.append_empty]⟩
    · exact ⟨"\n", h'⟩
  exact hfront' tail' ((hnames.tail_unique hnames').2 ▸ hfront tail)

end Locale

/-- A directory tells its entries apart. -/
theorem Path.entryText_injective (directory : Path) : Function.Injective directory.entryText := by
  intro name name' h
  have hlist := congrArg String.toList h
  simp only [entryText] at hlist
  split at hlist <;> exact String.toList_injective (by simpa using hlist)

/-! ### Computations that part -/

namespace Loads

variable {α β : Type}

/-- **Computations part at the files that they load**: nothing tells them apart as long as neither
loads anything, and if one does, the paths do. -/
def Part (x y : Loads α) : Prop :=
  ∃ r r' paths paths', x.Ends r paths ∧ y.Ends r' paths' ∧
    (paths = [] → paths' = [] → r' = r) ∧ (paths' = paths → paths = [])

/-- What ends in one way parts nowhere. -/
theorem part_of_ends {x y : Loads α} {r : Except Failure α} (hx : x.Ends r []) (hy : y.Ends r []) :
    x.Part y :=
  ⟨r, r, [], [], hx, hy, fun _ _ => rfl, fun _ => rfl⟩

/-- What is made of the outcome of computations that part. -/
theorem Part.of_ends {x y : Loads α} {x' y' : Loads β} {f : α → β} (h : x.Part y)
    (hx : ∀ r paths, x.Ends r paths → x'.Ends (r.map f) paths)
    (hy : ∀ r paths, y.Ends r paths → y'.Ends (r.map f) paths) : x'.Part y' := by
  obtain ⟨r, r', paths, paths', hends, hends', halike, hparts⟩ := h
  exact ⟨_, _, _, _, hx _ _ hends, hy _ _ hends', fun hnone hnone' => by rw [halike hnone hnone'],
    hparts⟩

/-- Behind a quiet start computations part as before. -/
theorem Part.bind_quiet {x : Loads α} {f g : α → Loads β} {a : α} (hx : x.Ends (.ok a) [])
    (h : (f a).Part (g a)) : (x >>= f).Part (x >>= g) := by
  obtain ⟨r, r', paths, paths', hends, hends', hrest⟩ := h
  exact ⟨r, r', paths, paths', hx.bind_quiet hends, hx.bind_quiet hends', hrest⟩

end Loads

/-! ### Catalogues under two extensions -/

namespace CatalogueSource

variable {s s' : CatalogueSource} {source : String}

/-- **Catalogues are apart** if they come from the same place, and no file is found under both
extensions. -/
structure Apart (s s' : CatalogueSource) : Prop where
  /-- The files. -/
  tree : s'.tree = s.tree
  /-- The loader. -/
  loader : s'.loader = s.loader
  /-- The project. -/
  project : s'.project = s.project
  /-- What is found. -/
  names : ∀ base name locale locale', Locale.ofFileName? base s.extension name = some locale →
    Locale.ofFileName? base s'.extension name ≠ some locale'

/-- The first path that is loaded is that of the first file. -/
theorem exists_ends_loadAll (s : CatalogueSource) (directory : Path)
    (files : List (String × String)) (collection : Table Json) :
    ∃ r paths, (s.loadAll directory files collection).Ends r paths ∧
      paths.head? = files.head?.map fun f => directory.entryText f.1 := by
  cases files with
  | nil => exact ⟨_, _, Loads.ends_pure collection, rfl⟩
  | cons f files =>
    have hload := Loads.ends_load s.loader (directory.entryText f.1)
    cases hc : s.loader (directory.entryText f.1) with
    | error e =>
      rw [hc] at hload
      exact ⟨_, _, hload.bind_error _, rfl⟩
    | ok catalogue =>
      rw [hc] at hload
      obtain ⟨r, paths, hends, -⟩ := s.ends_loadAll directory files
        (Table.insert f.2 catalogue.toJson collection)
      exact ⟨r, _, hload.bind hends, rfl⟩

/-- Records of catalogues that are apart part at the files. -/
theorem Apart.part_record (h : s.Apart s') (source : String) :
    (s.record source).Part (s'.record source) := by
  have hdirectory : s'.directory source = s.directory source := by
    rw [directory, directory, h.project]
  rw [record_eq, record_eq]
  cases hfiles : s.tree.filesIn (s.directory source) with
  | error e =>
    have hscan : (s.scan (s.directory source)).Ends (.error (.file e)) [] := by
      rw [scan, hfiles]
      exact Loads.ends_throw _
    have hscan' : (s'.scan (s'.directory source)).Ends (.error (.file e)) [] := by
      rw [scan, hdirectory, h.tree, hfiles]
      exact Loads.ends_throw _
    exact Loads.part_of_ends (hscan.bind_error _) (hscan'.bind_error _)
  | ok names =>
    have hscan : (s.scan (s.directory source)).Ends (.ok names) [] := by
      rw [scan, hfiles]
      exact Loads.ends_pure names
    have hscan' : (s'.scan (s'.directory source)).Ends (.ok names) [] := by
      rw [scan, hdirectory, h.tree, hfiles]
      exact Loads.ends_pure names
    obtain ⟨r, paths, hall, hhead⟩ := s.exists_ends_loadAll (s.directory source)
      (matching (Path.ofString source).stem s.extension names) []
    obtain ⟨r', paths', hall', hhead'⟩ := s'.exists_ends_loadAll (s'.directory source)
      (matching (Path.ofString source).stem s'.extension names) []
    refine ⟨_, _, paths, paths', ends_recordBy hscan hall, ends_recordBy hscan' hall', ?_, ?_⟩
    · rintro rfl rfl
      -- without files there is nothing to collect
      have hnone : matching (Path.ofString source).stem s.extension names = [] := by
        simpa using hhead.symm
      have hnone' : matching (Path.ofString source).stem s'.extension names = [] := by
        simpa using hhead'.symm
      rw [hnone] at hall
      rw [hnone'] at hall'
      obtain ⟨rfl, -⟩ := (Loads.ends_pure []).unique hall.run
      obtain ⟨rfl, -⟩ := (Loads.ends_pure []).unique hall'.run
      rfl
    · rintro rfl
      -- a path that is loaded first in both would be that of a file that is found in both
      rw [hhead, hdirectory] at hhead'
      cases hmatching : matching (Path.ofString source).stem s.extension names with
      | nil =>
        rw [hmatching] at hhead
        exact List.head?_eq_none_iff.1 hhead
      | cons f files =>
        cases hmatching' : matching (Path.ofString source).stem s'.extension names with
        | nil =>
          rw [hmatching, hmatching'] at hhead'
          cases hhead'
        | cons f' files' =>
          rw [hmatching, hmatching'] at hhead'
          have hname := (s.directory source).entryText_injective (Option.some.inj hhead')
          have hf := mem_matching.1 (hmatching ▸ List.mem_cons_self)
          have hf' := mem_matching.1 (hmatching' ▸ List.mem_cons_self)
          obtain ⟨-, locale, hlocale, -⟩ := hf
          obtain ⟨-, locale', hlocale', -⟩ := hf'
          exact absurd (hname ▸ hlocale') (h.names _ _ _ _ hlocale)

end CatalogueSource

/-- Passes over catalogues that are apart part at the files. -/
theorem Module.part_bindMessages {m : Module} (hm : m.Numbered) (targets : List Target)
    {s s' : CatalogueSource} (h : s.Apart s') (path : Option String) :
    (m.bindMessages targets s path).Part (m.bindMessages targets s' path) := by
  rw [bindMessages_eq, bindMessages_eq]
  rcases bindMessagesBy_cases hm targets path with ⟨e, -, hends⟩ | ⟨r, hends⟩ |
    ⟨source, f, rfl, hends⟩
  · exact Loads.part_of_ends (hends _) (hends _)
  · exact Loads.part_of_ends (hends _) (hends _)
  · exact (h.part_record source).of_ends (hends _) (hends _)

/-! ### Compilers -/

/-- The configuration without points in front of its extension. -/
def Config.withoutPoints (c : Config) : Config :=
  { c with extension := Format.withoutPoints c.extension }

namespace Compiler

variable {tree : FileTree} {config : Config} {c c' : Compiler} {text : String}
  {file : Option String}

/-- What a text is compiled to, with the paths that are given to the loader. -/
def compiling [CharacterNames] (c : Compiler) (text : String) (file : Option String) :
    Except CompileError Compiled × List String :=
  match Module.parse text file 0 with
  | .error e => (.error (.module file e), [])
  | .ok m =>
    let (r, loads) := (c.transform m file).run
    (r.mapError CompileError.failure, loads)

/-- The compiler of a configuration. -/
theorem ofConfig_eq_ok :
    ofConfig tree config = .ok c ↔ ∃ f, Format.ofExtension config.extension = .ok f ∧
      c = ⟨tree, config.targets, config.extension.string, f.loader tree, config.project⟩ := by
  rw [ofConfig]
  cases Format.ofExtension config.extension with
  | error e =>
    refine ⟨fun h => ?_, fun h => ?_⟩
    · cases h
    · obtain ⟨_, hf, -⟩ := h
      cases hf
  | ok f =>
    refine ⟨fun h => ⟨f, rfl, (Except.ok.inj h).symm⟩, fun h => ?_⟩
    obtain ⟨_, hf, hc⟩ := h
    obtain rfl := Except.ok.inj hf
    rw [hc]
    rfl

/-- Compilers that differ in catalogues that are apart part at the files. -/
theorem part_transform {m : Module} (hm : m.Numbered) (htree : c'.tree = c.tree)
    (htargets : c'.targets = c.targets) (hproject : c'.project = c.project)
    (h : c.catalogues.Apart c'.catalogues) (file : Option String) :
    (c.transform m file).Part (c'.transform m file) := by
  have hpath : c'.sourcePath file = c.sourcePath file := by
    cases file <;> simp only [sourcePath, htree, hproject]
  rw [transform, transform, hpath, htargets]
  have hstart := Loads.ends_ofExcept ((c.sourcePath file).mapError Failure.config)
  cases hsource : c.sourcePath file with
  | error e =>
    rw [hsource] at hstart
    exact Loads.part_of_ends (hstart.bind_error _) (hstart.bind_error _)
  | ok source =>
    rw [hsource] at hstart
    have hbound := Module.part_bindMessages hm c.targets h (some source)
    exact .bind_quiet hstart (hbound.of_ends (f := fun r => (⟨source, r⟩ : Compiled))
      (fun r paths hends => hends.map _) (fun r paths hends => hends.map _))

/-- With points in front of the extension a compiler has the catalogues of other files. -/
theorem apart_catalogues (h : ofConfig tree config = .ok c)
    (h' : ofConfig tree config.withoutPoints = .ok c') (hne : config.withoutPoints ≠ config) :
    c.catalogues.Apart c'.catalogues := by
  obtain ⟨f, hf, rfl⟩ := ofConfig_eq_ok.1 h
  obtain ⟨f', hf', rfl⟩ := ofConfig_eq_ok.1 h'
  obtain rfl : f' = f := Except.ok.inj (hf'.symm.trans (Format.ofExtension_withoutPoints hf))
  obtain ⟨e, he⟩ := Format.exists_text_of_ofExtension hf
  have hplain := Format.head?_withoutPoints config.extension
  have hempty := Format.withoutPoints_ne_empty hf
  have hrest : config.withoutPoints.extension = String.ofList (e.toList.dropWhile (· = '.')) := by
    rw [Config.withoutPoints, he, Format.withoutPoints_ofString]
  change ∀ code ∈ config.withoutPoints.extension.codes.head?, _ at hplain
  change config.withoutPoints.extension ≠ _ at hempty
  rw [hrest] at hplain hempty
  -- without a point in front the extension would stay as it is
  have hpoint : e.toList.head? = some '.' := by
    by_contra hnone
    refine hne ?_
    rw [Config.withoutPoints, Format.withoutPoints_eq_self]
    rw [he, CodeText.codes_ofString, List.head?_map]
    rintro code hcode rfl
    obtain ⟨c, hc, hchar⟩ := Option.map_eq_some_iff.1 hcode
    exact hnone (CodePoint.char.inj hchar ▸ hc)
  refine ⟨rfl, rfl, rfl, fun base name locale locale' => ?_⟩
  change Locale.ofFileName? base config.extension.string name = _ →
    Locale.ofFileName? base config.withoutPoints.extension.string name ≠ _
  rw [he, hrest, CodeText.string_ofString, CodeText.string_ofString]
  refine Locale.ofFileName?_of_point hpoint (fun c hc => ?_) fun heq => hempty (by rw [heq])
  rintro rfl
  exact hplain (.char '.') (by rw [CodeText.codes_ofString, List.head?_map, hc]; rfl) rfl

/-- What both compilers make of a text parts at the files. -/
theorem compiling_eq_iff [CharacterNames] (h : ofConfig tree config = .ok c)
    (h' : ofConfig tree config.withoutPoints = .ok c') (hne : config.withoutPoints ≠ config)
    (text : String) (file : Option String) :
    c'.compiling text file = c.compiling text file ↔
      (c.compiling text file).2 = [] ∧ (c'.compiling text file).2 = [] := by
  have hapart := apart_catalogues h h' hne
  obtain ⟨htree, htargets, hproject⟩ : c'.tree = c.tree ∧ c'.targets = c.targets ∧
      c'.project = c.project := by
    obtain ⟨f, -, rfl⟩ := ofConfig_eq_ok.1 h
    obtain ⟨f', -, rfl⟩ := ofConfig_eq_ok.1 h'
    exact ⟨rfl, rfl, rfl⟩
  rw [compiling, compiling]
  cases hparse : Module.parse text file 0 with
  | error e => simp
  | ok m =>
    obtain ⟨r, r', paths, paths', hends, hends', halike, hparts⟩ :=
      part_transform (Module.numbered_of_parse hparse) htree htargets hproject hapart file
    simp only [hends.run, hends'.run, Prod.mk.injEq]
    constructor
    · rintro ⟨-, hpaths⟩
      exact ⟨hparts hpaths, hpaths.trans (hparts hpaths)⟩
    · rintro ⟨hnone, hnone'⟩
      exact ⟨by rw [halike hnone hnone'], hnone'.trans hnone.symm⟩

/-- **Points in front of the extension do not matter** to a text if and only if there are none, or
neither compiler loads a catalogue for it. -/
theorem compiling_withoutPoints [CharacterNames] (h : ofConfig tree config = .ok c) :
    ∃ c', ofConfig tree config.withoutPoints = .ok c' ∧
      ∀ text file, c'.compiling text file = c.compiling text file ↔
        config.withoutPoints = config ∨
          (c.compiling text file).2 = [] ∧ (c'.compiling text file).2 = [] := by
  obtain ⟨c', h'⟩ : ∃ c', ofConfig tree config.withoutPoints = .ok c' := by
    obtain ⟨f, hf, -⟩ := ofConfig_eq_ok.1 h
    exact ⟨_, ofConfig_eq_ok.2 ⟨f, Format.ofExtension_withoutPoints hf, rfl⟩⟩
  refine ⟨c', h', fun text file => ?_⟩
  by_cases hsame : config.withoutPoints = config
  · rw [hsame, h] at h'
    rw [Except.ok.inj h']
    exact iff_of_true rfl (.inl hsame)
  · rw [or_iff_right hsame]
    exact compiling_eq_iff h h' hsame text file

/-- A project with one catalogue. -/
def pointsTree : FileTree := ⟨[(["a.en.properties"], .file (FileTree.bytesOf "k=v"))], ⟨.slash, []⟩⟩

/-- A configuration of it. -/
def pointsConfig (extension : String) : Config := ⟨[⟨"f", "m"⟩], extension, ⟨.slash, []⟩⟩

/-- The compiler of the configuration. -/
def pointsCompiler (extension : String) : Compiler :=
  ⟨pointsTree, [⟨"f", "m"⟩], extension, Format.properties.loader pointsTree, ⟨.slash, []⟩⟩

theorem ofConfig_pointsConfig : ofConfig pointsTree (pointsConfig ".properties")
      = .ok (pointsCompiler ".properties") ∧
    ofConfig pointsTree (pointsConfig ".properties").withoutPoints
      = .ok (pointsCompiler "properties") := by
  have hconfig : (pointsConfig ".properties").withoutPoints = pointsConfig "properties" := by
    decide +kernel
  rw [hconfig]
  exact ⟨ofConfig_eq_ok.2 ⟨.properties, by decide +kernel, rfl⟩,
    ofConfig_eq_ok.2 ⟨.properties, by decide +kernel, rfl⟩⟩

section

attribute [local instance] CharacterNames.nameless

/-- The points do not matter where nothing is loaded: nothing is bound in the one text, and the
other one, which binds a target, is the source of no catalogue and gets empty messages. -/
theorem compiling_withoutPoints_idle :
    ofConfig pointsTree (pointsConfig ".properties") = .ok (pointsCompiler ".properties") ∧
      (pointsCompiler "properties").compiling "f()" "a.js"
        = (pointsCompiler ".properties").compiling "f()" "a.js" ∧
      (pointsCompiler "properties").compiling "import \x7b f \x7d from \"m\"; f()" "b.js"
        = (pointsCompiler ".properties").compiling "import \x7b f \x7d from \"m\"; f()" "b.js" ∧
      ((pointsCompiler ".properties").compile "import \x7b f \x7d from \"m\"; f()"
        "b.js").toOption.map (·.module.verbatims) = some [("\x7b\"isInjected\": true, " ++
          "\"sourceFilePath\": \"b.js\", " ++
          "\"keyValueObjectCollection\": \x7b\x7d\x7d" : CodeText)] := by
  obtain ⟨h, h'⟩ := ofConfig_pointsConfig
  obtain ⟨c', hc', hiff⟩ := compiling_withoutPoints h
  obtain rfl := Except.ok.inj (hc'.symm.trans h')
  refine ⟨h, (hiff _ _).2 (.inr ⟨?_, ?_⟩), (hiff _ _).2 (.inr ⟨?_, ?_⟩), ?_⟩ <;> decide +kernel

/-- **The points matter**: with one in front, a compiler finds no catalogue and puts empty messages
in. -/
theorem compiling_points_ne :
    ofConfig pointsTree (pointsConfig ".properties") = .ok (pointsCompiler ".properties") ∧
      ofConfig pointsTree (pointsConfig ".properties").withoutPoints
        = .ok (pointsCompiler "properties") ∧
      ((pointsCompiler ".properties").compiling "import \x7b f \x7d from \"m\"; f()"
        "a.js").2 = [] ∧
      ((pointsCompiler "properties").compiling "import \x7b f \x7d from \"m\"; f()" "a.js").2
        = ["/a.en.properties"] ∧
      ((pointsCompiler ".properties").compile "import \x7b f \x7d from \"m\"; f()"
        "a.js").toOption.map (·.module.verbatims) = some [("\x7b\"isInjected\": true, " ++
          "\"sourceFilePath\": \"a.js\", \"keyValueObjectCollection\": \x7b\x7d\x7d" : CodeText)] ∧
      ((pointsCompiler "properties").compile "import \x7b f \x7d from \"m\"; f()"
        "a.js").toOption.map (·.module.verbatims) = some [("\x7b\"isInjected\": true, " ++
          "\"sourceFilePath\": \"a.js\", \"keyValueObjectCollection\": " ++
          "\x7b\"en\": \x7b\"k\": \"v\"\x7d\x7d\x7d" : CodeText)] := by
  obtain ⟨h, h'⟩ := ofConfig_pointsConfig
  refine ⟨h, h', ?_, ?_, ?_, ?_⟩ <;> decide +kernel

end

end Compiler

/-! ### Configurations that are read -/

theorem Except.mapError_eq_ok {ε ε' α : Type} {r : Except ε α} {f : ε → ε'} {a : α} :
    r.mapError f = .ok a ↔ r = .ok a := by
  cases r <;> simp [Except.mapError]

namespace Config

variable {c : Config} {tree : FileTree} {project : Path} {origin : String}

theorem withoutPoints_eq_self_iff :
    c.withoutPoints = c ↔ Format.withoutPoints c.extension = c.extension :=
  ⟨fun h => congrArg extension h, fun h => by rw [withoutPoints, h]⟩

theorem withoutPoints_defaultExtension :
    Format.withoutPoints (defaultExtension : CodeText) = defaultExtension := by
  decide +kernel

/-- The extension that a configuration describes has no points in front. -/
theorem withoutPoints_extensionOf {j : Option Json} {extension : CodeText}
    (h : extensionOf origin j = .ok extension) : Format.withoutPoints extension = extension := by
  unfold extensionOf at h
  split at h
  · obtain rfl := Except.ok.inj h
    exact withoutPoints_defaultExtension
  · split at h
    · obtain rfl := Except.ok.inj h
      exact Format.withoutPoints_withoutPoints _
    · cases h

theorem withoutPoints_ofJson {j : Json} (h : ofJson project origin j = .ok c) :
    c.withoutPoints = c := by
  cases j with
  | object fields =>
    obtain ⟨targets, -, h⟩ := Except.bind_eq_ok.1 h
    obtain ⟨extension, hextension, h⟩ := Except.bind_eq_ok.1 h
    obtain rfl := Except.ok.inj h
    exact withoutPoints_eq_self_iff.2 (withoutPoints_extensionOf hextension)
  | _ => cases h

theorem withoutPoints_ofFile {file : Path} (h : ofFile tree project file = .ok c) :
    c.withoutPoints = c := by
  obtain ⟨text, -, h⟩ := Except.bind_eq_ok.1 h
  split at h
  · cases h
  · cases h
  · exact withoutPoints_ofJson (Except.mapError_eq_ok.1 h)

/-- The configuration of a project has none. -/
theorem withoutPoints_load {file : Option Path} (h : load tree project file = .ok c) :
    c.withoutPoints = c := by
  cases file with
  | some file =>
    obtain ⟨there, -, h⟩ := Except.bind_eq_ok.1 h
    split at h
    · exact withoutPoints_ofFile h
    · cases h
  | none =>
    obtain ⟨there, -, h⟩ := Except.bind_eq_ok.1 h
    split at h
    · exact withoutPoints_ofFile h
    · obtain rfl := Except.ok.inj h
      exact withoutPoints_eq_self_iff.2 withoutPoints_defaultExtension

end Config

/-- **The command line has no points in front of its extension**, so there they never matter. -/
theorem CommandLine.withoutPoints_configOf {tree : FileTree} {a : Arguments} {project : Path}
    {config : Config} (h : configOf tree a project = .ok config) :
    config.withoutPoints = config := by
  obtain ⟨c, hfile, h⟩ := Except.bind_eq_ok.1 h
  obtain ⟨targets, -, h⟩ := Except.bind_eq_ok.1 h
  obtain ⟨f, -, h⟩ := Except.bind_eq_ok.1 h
  obtain rfl := Except.ok.inj h
  have hc : c.withoutPoints = c := by
    unfold fileConfig at hfile
    split at hfile
    · cases hfile
    · exact Config.withoutPoints_load (Except.mapError_eq_ok.1 hfile)
  rw [Config.withoutPoints_eq_self_iff, Config.override]
  dsimp only
  split
  · exact Config.withoutPoints_eq_self_iff.1 hc
  · exact Format.withoutPoints_withoutPoints a.extension

end MessageBinder
