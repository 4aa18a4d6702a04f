import MessageBinder.Proofs.CommandLine.Outputs
import MessageBinder.Proofs.Draft.Filename

/-!
# Projects that are moved

What a source is compiled to does not tell where its project lies: with the same source and the same
catalogues beside it, a compiler of one project gives the text that a compiler of the other gives,
or neither gives one (`MessageBinder.Compiler.written?_eq_of_agreesAt`). The source may be named
from the top or from its project, which comes to the same as well.

The root of a project is met in three places: in the name of the file that a module is said to be
of, in the directory that is listed, and in the paths that are given to the loader. The name of the
file is printed nowhere, the directory gives nothing but names, in an order that is lost when they
are sorted, and the loaders are taken to agree. What is left is the path of the source in its
project, and that is the same from either root (`MessageBinder.Compiler.sourcePath_join`).
-/

namespace MessageBinder

namespace Path

variable {project p : Path}

/-- A path from the top is written. -/
theorem isEmpty_text (hplain : p.Plain) (habsolute : p.isAbsolute) : p.text.isEmpty = false := by
  rw [Bool.eq_false_iff, Ne, String.isEmpty_iff]
  rintro hempty
  -- no text at all is read as a path from the current directory
  have hread := ofString_text hplain
  rw [hempty] at hread
  rw [← hread] at habsolute
  exact absurd habsolute (by decide)

theorem join_of_relative (h : p.root = .relative) :
    project.join p = ⟨project.root, project.names ++ p.names⟩ := by
  rw [join, isAbsolute, h]
  rfl

/-- **The path of a source in its project** is the relative path by which the project leads to
it. -/
theorem inProject_join (habsolute : project.isAbsolute) (hp : p.root = .relative) (cwd : Path) :
    inProject cwd (project.join p) project = withoutSlashes p.text := by
  have hin : (project.join p).relativeTo? project = some p :=
    relativeTo?_eq_some.2 (by rw [join_of_relative hp]; exact ⟨rfl, rfl, hp⟩)
  simp only [inProject, isAbsolute_join habsolute p, habsolute, if_true, hin]

/-- A relative path without `..` is that of a source in its project already. -/
theorem inProject_relative (hp : p.root = .relative) (hups : ∀ n ∈ p.names, isUp n = false)
    (cwd : Path) : inProject cwd p project = withoutSlashes p.text := by
  obtain ⟨root, names⟩ := p
  obtain rfl : root = .relative := hp
  have hrelative : (Path.mk .relative names).isAbsolute = false := rfl
  simp only [inProject, hrelative, normalize_of_forall hups]
  rfl

end Path

/-! ### Catalogues -/

namespace CatalogueSource

variable {s s' : CatalogueSource} {source : String} {names names' : List String}

theorem mem_of_mem_matching {base extension : String} {f : String × String}
    (h : f ∈ matching base extension names) : f.1 ∈ names :=
  (List.mem_filter.1 ((perm_matching base extension names).subset (List.mem_map_of_mem h))).1

/-- Catalogues correspond if the directories hold the same names, in whatever order they are listed,
and the loaders agree on them. -/
theorem corresponds_of_filesIn (hextension : s'.extension = s.extension)
    (hfiles : s.tree.filesIn (s.directory source) = .ok names)
    (hfiles' : s'.tree.filesIn (s'.directory source) = .ok names') (hperm : names'.Perm names)
    (hloads : ∀ name ∈ names, (s'.loader ((s'.directory source).entryText name)).toOption
      = (s.loader ((s.directory source).entryText name)).toOption) :
    s.Corresponds s' source := by
  refine ⟨?_, fun files hmatched f hf => ?_⟩
  · rw [matched?, matched?, FileTree.matched?, FileTree.matched?, hfiles, hfiles', hextension]
    exact congrArg some (FileTree.matching_congr (hperm.filter _))
  · rw [matched?, FileTree.matched?, hfiles] at hmatched
    obtain rfl := Option.some.inj hmatched
    exact hloads f.1 (mem_of_mem_matching hf)

end CatalogueSource

/-! ### Compilers -/

/-- What is made of the value of a computation is made of its outcome. -/
theorem Loads.run_map {α β : Type} (f : α → β) (x : Loads α) :
    (f <$> x).run.1 = x.run.1.map f := by
  rw [map_eq_pure_bind]
  change (StateT.run (ExceptT.run (x >>= fun a => pure (f a))) []).1
    = (StateT.run (ExceptT.run x) []).1.map f
  rw [run_bind]
  rcases StateT.run (ExceptT.run x) [] with ⟨_ | _, _⟩ <;> rfl

namespace Compiler

variable {c c' : Compiler} {p : Path} {text name : String}

/-- What is written for a source, if it is compiled. -/
def written? (r : Except CompileError Compiled) : Option CodeText :=
  r.toOption.map fun c => c.module.text

/-- **The path of a source is all that its name adds** to what is written for a text. -/
theorem written?_compile [CharacterNames] {file source : String}
    (h : c.sourcePath (some file) = .ok source) :
    written? (c.compile text (some file)) = (Module.parse text none 0).toOption.bind fun m =>
      (m.bindMessages c.targets c.catalogues (some source)).run.1.toOption.map fun r =>
        r.draft.toModule.text := by
  rw [compile, Module.parse_ofFile]
  cases Module.parse text none 0 with
  | error e => rfl
  | ok m =>
    have htransform : c.transform (m.ofFile (some file)) (some file)
        = (fun r => (⟨source, r.ofFile (some file)⟩ : Compiled)) <$>
          m.bindMessages c.targets c.catalogues (some source) := by
      rw [transform, h, map_eq_pure_bind]
      refine (pure_bind source _).trans ?_
      rw [Module.bindMessages_ofFile, bind_map_left]
    change written? ((c.transform (m.ofFile (some file)) (some file)).run.1.mapError _) = _
    rw [written?, Except.toOption_mapError, htransform, Loads.run_map, Except.toOption_map,
      Option.map_map]
    rfl

/-- **Compilers write the same** for a text if its source has the same path in both projects and the
catalogues correspond. -/
theorem written?_compile_of_corresponds [CharacterNames] {file file' source : String}
    (h : c.sourcePath (some file) = .ok source) (h' : c'.sourcePath (some file') = .ok source)
    (htargets : c'.targets = c.targets)
    (hcatalogues : c.catalogues.Corresponds c'.catalogues source) :
    written? (c'.compile text file') = written? (c.compile text file) := by
  rw [written?_compile h, written?_compile h', htargets]
  refine Option.bind_congr fun m hm => congrArg _ ?_
  have hnumbered := Module.numbered_of_parse (Except.eq_ok_of_toOption hm)
  refine (Module.agree_bindMessages hnumbered c.targets fun source' heq => ?_).toOption_run
  exact Option.some.inj heq ▸ hcatalogues

/-- Both ways to name a source of a project give its path in the project. -/
theorem sourcePath_join (habsolute : c.project.isAbsolute) (hplain : c.project.Plain)
    (hp : p.root = .relative) (hnames : p.Plain) :
    c.sourcePath (some (c.project.join p).text) = .ok (Path.withoutSlashes p.text) := by
  have hjoin := hplain.join hnames
  have htop := Path.isAbsolute_join habsolute p
  simp only [sourcePath, Path.isEmpty_text hjoin htop, Path.ofString_text hjoin,
    Path.inProject_join habsolute hp]
  rfl

theorem sourcePath_relative (hp : (Path.ofString name).root = .relative)
    (hups : ∀ n ∈ (Path.ofString name).names, Path.isUp n = false)
    (hnames : (Path.ofString name).names ≠ []) :
    c.sourcePath (some name) = .ok (Path.withoutSlashes (Path.ofString name).text) := by
  have hname : name.isEmpty = false := by
    rw [Bool.eq_false_iff, Ne, String.isEmpty_iff]
    rintro rfl
    exact hnames (by decide)
  simp only [sourcePath, hname, Path.inProject_relative hp hups]
  rfl

/-- The directory of a source is found from its path in the project. -/
theorem directory_catalogues (hp : p.root = .relative) (hnames : p.Plain) :
    c.catalogues.directory (Path.withoutSlashes p.text) = c.project.join p.parent := by
  rw [CatalogueSource.directory, Path.ofString_withoutSlashes_text hnames, ← hp]
  rfl

/-- **A project holds a source**: the project is a path from the top, and there the source has the
text and lies in a directory with files of the names. -/
structure Holds (c : Compiler) (p : Path) (text : String) (names : List String) : Prop where
  /-- The project is a path from the top. -/
  absolute : c.project.isAbsolute
  /-- Its names are names. -/
  plain : c.project.Plain
  /-- The source. -/
  source : c.tree.readText (c.project.join p) = .ok text
  /-- The directory. -/
  listed : c.tree.filesIn (c.project.join p.parent) = .ok names

/-- **Compilers agree at a source**, each for a project of its own: they are set up alike, the
source has the same text in both projects and lies among files of the same names, and the loaders
agree on these. -/
structure AgreesAt (c c' : Compiler) (p : Path) (text : String) (names names' : List String) :
    Prop where
  /-- What is bound. -/
  targets : c'.targets = c.targets
  /-- The extension of the catalogues. -/
  extension : c'.extension = c.extension
  /-- What the one project holds. -/
  holds : c.Holds p text names
  /-- What the other project holds. -/
  holds' : c'.Holds p text names'
  /-- The names of the files, in whatever order they are listed. -/
  listed : names'.Perm names
  /-- What the loaders make of the files. -/
  loaded : ∀ name ∈ names, (c'.loader ((c'.project.join p.parent).entryText name)).toOption
    = (c.loader ((c.project.join p.parent).entryText name)).toOption

namespace Holds

variable {names : List String}

/-- A source has a name: without one it would be its own directory. -/
theorem names_ne_nil (h : c.Holds p text names) : p.names ≠ [] := by
  intro hnone
  obtain ⟨bytes, hread, -⟩ := CommandLine.readText_eq_ok h.source
  obtain ⟨-, place, hplace, hfile⟩ := FileTree.locate_of_read hread
  have hparent : p.parent = p := by
    obtain ⟨root, pnames⟩ := p
    obtain rfl : pnames = [] := hnone
    rfl
  obtain ⟨-, place', hplace', hdirectory, -⟩ := FileTree.filesIn_eq_ok.1 h.listed
  rw [hparent, hplace] at hplace'
  rw [← Except.ok.inj hplace', hfile] at hdirectory
  cases hdirectory

/-- Reading a source and compiling its text. -/
theorem compileFile_eq [CharacterNames] (h : c.Holds p text names) :
    c.compileFile (c.project.join p) = c.compile text (c.project.join p).text := by
  rw [compileFile, h.source]
  rfl

end Holds

/-- **The output does not depend on where the project lies**, nor on the project at all if the
source is named from there: a relative path without `..` is compiled to the same, or in neither
project. -/
theorem written?_eq_of_agreesAt [CharacterNames]
    (hrelative : (Path.ofString name).isAbsolute = false)
    (hups : ∀ n ∈ (Path.ofString name).names, Path.isUp n = false) {names names' : List String}
    (h : c.AgreesAt c' (.ofString name) text names names') :
    written? (c'.compileFile (c'.project.join (.ofString name)))
        = written? (c.compileFile (c.project.join (.ofString name))) ∧
      written? (c.compile text name)
        = written? (c.compileFile (c.project.join (.ofString name))) ∧
      written? (c'.compile text name)
        = written? (c.compileFile (c.project.join (.ofString name))) := by
  have hplain := Path.plain_ofString name
  have hp : (Path.ofString name).root = .relative := by
    simpa [Path.isAbsolute] using hrelative
  have hne := h.holds.names_ne_nil
  have hfile := sourcePath_join h.holds.absolute h.holds.plain hp hplain
  have hfile' := sourcePath_join h.holds'.absolute h.holds'.plain hp hplain
  have hname := sourcePath_relative (c := c) hp hups hne
  have hname' := sourcePath_relative (c := c') hp hups hne
  have hcorresponds : c.catalogues.Corresponds c'.catalogues
      (Path.withoutSlashes (Path.ofString name).text) := by
    have hdirectory := directory_catalogues (c := c) hp hplain
    have hdirectory' := directory_catalogues (c := c') hp hplain
    refine CatalogueSource.corresponds_of_filesIn h.extension (hdirectory ▸ h.holds.listed)
      (hdirectory' ▸ h.holds'.listed) h.listed ?_
    rw [hdirectory, hdirectory']
    exact h.loaded
  rw [h.holds.compileFile_eq, h.holds'.compileFile_eq]
  refine ⟨written?_compile_of_corresponds hfile hfile' h.targets hcorresponds, ?_,
    written?_compile_of_corresponds hfile hname' h.targets hcorresponds⟩
  -- Within one project the two names of the source come to one path.
  rw [written?_compile hname, written?_compile hfile]

/-- A text in which there is something to bind. -/
def sampleText : String := "import { getMessages } from \"messages-modules\"; getMessages()"

/-- A project in a directory at the top. -/
def sampleProject (root : String) (files : List (String × String)) : Compiler :=
  .default ⟨([root], .directory) :: files.map fun f =>
    ([root, f.1], .file (FileTree.bytesOf f.2)), ⟨.slash, []⟩⟩ ⟨.slash, [root]⟩

/-- A project with a source and a catalogue. -/
def homeSample : Compiler :=
  sampleProject "a" [("A.js", sampleText), ("A.en.properties", "k = v")]

/-- The project in another place, with its files in another order. -/
def movedSample : Compiler :=
  sampleProject "b" [("A.en.properties", "k = v"), ("A.js", sampleText)]

section

attribute [local instance] CharacterNames.nameless

/-- The source is compiled to the same in either place. -/
theorem written?_eq_of_agreesAt_sample :
    written? (movedSample.compileFile ⟨.slash, ["b", "A.js"]⟩)
        = written? (homeSample.compileFile ⟨.slash, ["a", "A.js"]⟩) ∧
      written? (homeSample.compile sampleText "A.js")
        = written? (homeSample.compileFile ⟨.slash, ["a", "A.js"]⟩) ∧
      written? (movedSample.compile sampleText "A.js")
        = written? (homeSample.compileFile ⟨.slash, ["a", "A.js"]⟩) := by
  have hagrees : homeSample.AgreesAt movedSample (.ofString "A.js") sampleText
      ["A.js", "A.en.properties"] ["A.en.properties", "A.js"] := by
    refine ⟨rfl, rfl, ⟨rfl, Path.plain_ofString "/a", by decide +kernel, by decide +kernel⟩,
      ⟨rfl, Path.plain_ofString "/b", by decide +kernel, by decide +kernel⟩,
      List.Perm.swap _ _ _, by decide +kernel⟩
  have hfile : homeSample.project.join (.ofString "A.js") = ⟨.slash, ["a", "A.js"]⟩ := by
    decide +kernel
  have hfile' : movedSample.project.join (.ofString "A.js") = ⟨.slash, ["b", "A.js"]⟩ := by
    decide +kernel
  have hwritten := written?_eq_of_agreesAt (by decide +kernel) (by decide +kernel) hagrees
  rwa [hfile, hfile'] at hwritten

end

end Compiler

end MessageBinder
