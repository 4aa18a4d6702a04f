import MessageBinder.Proofs.CommandLine.Spellings

/-!
# Looking next to a source

The catalogues of a source are looked for in a directory that is told by its path in the project:
the parent of that path, taken from the project again. So the path of a source is encoded on the way
in and decoded on the way out, and what is found is what lies next to the source only if the two fit
together. They do (`MessageBinder.Path.looksBeside_iff`), whether the source and the project are
given from the top or from the current directory, and whatever `..` they hold.

The encoding takes one of three ways, and each leaves the directory where it was:

* a relative source is normalized, and names lead from the project to where their normal form leads
  (`MessageBinder.Path.foldl_further_normalize`);
* a source in the project loses the names of the project, which are put in front again, as they were
  given or as the current directory continues them;
* a source outside keeps its path, which no project is put in front of.

The one source that is not found again is the project itself: its path in the project is `.`, which
has no name, and of which the parent is the project once more.
-/

namespace MessageBinder

namespace Path

variable {cwd project file p : Path} {names : List String} {n : String}

/-! ### Normal forms -/

/-- Names come down through none that leads up. -/
theorem isUp_of_mem_landing (h : n ∈ landing names) : isUp n = false := by
  obtain ⟨k, r, hr, hstack, -⟩ := exists_normal_form names
  have hnames : (normalize ⟨.relative, names⟩).names = List.replicate k ".." ++ r := by
    change (names.foldl (normalStep false) []).reverse = _
    rw [hstack]
    simp
  have hups : ∀ m ∈ List.replicate k "..", isUp m = true := fun m hm => by
    rw [List.eq_of_mem_replicate hm]
    rfl
  rw [landing, hnames, List.dropWhile_append_of_pos hups, (takeWhile_isUp_of_forall hr).2] at h
  exact hr n h

/-- **Normal forms are normal.** -/
theorem normalize_normalize (p : Path) : p.normalize.normalize = p.normalize := by
  obtain ⟨root, names⟩ := p
  cases hroot : isAbsolute ⟨root, names⟩ with
  | false =>
    obtain rfl : root = .relative := by simpa [isAbsolute] using hroot
    exact normalize_eq_self_iff.2 fun n hn => isUp_of_mem_landing hn
  | true =>
    have hnormal : (normalize ⟨root, names⟩).names = landing names := by
      rw [names_normalize hroot, foldl_further]
      simp
    have hself : (normalize (normalize ⟨root, names⟩)).names = (normalize ⟨root, names⟩).names := by
      rw [names_normalize (p := normalize ⟨root, names⟩) hroot, hnormal,
        foldl_further_of_forall fun n hn => isUp_of_mem_landing hn, List.nil_append]
    exact congrArg (Path.mk root) hself

/-- **Names lead to where their normal form leads**, from any place. -/
theorem foldl_further_normalize (place names : List String) :
    (normalize ⟨.relative, names⟩).names.foldl FileTree.further place
      = names.foldl FileTree.further place := by
  have hnormal : normalize ⟨.relative, (normalize ⟨.relative, names⟩).names⟩
      = normalize ⟨.relative, names⟩ := normalize_normalize ⟨.relative, names⟩
  rw [foldl_further, foldl_further, climb, landing, hnormal]
  rfl

/-- A last name that does not lead up is the last name of the normal form. -/
theorem normalize_concat (root : Root) (names : List String) (h : isUp n = false) :
    normalize ⟨root, names ++ [n]⟩ = ⟨root, (normalize ⟨root, names⟩).names ++ [n]⟩ := by
  have hroot : isAbsolute ⟨root, names ++ [n]⟩ = isAbsolute ⟨root, names⟩ := rfl
  simp only [normalize, hroot, List.foldl_concat, normalStep_of_not_isUp h, List.reverse_cons]

/-- What lies behind a directory is where its names lead to from there. -/
theorem normalize_append (h : p.isAbsolute) (names : List String) :
    normalize ⟨p.root, p.names ++ names⟩
      = ⟨p.root, names.foldl FileTree.further p.normalize.names⟩ :=
  congrArg (Path.mk p.root) (names_normalize_append h names)

/-! ### Last names -/

/-- Whether a name is that of a file: there is one, and it does not lead up. -/
def IsFileName (n : String) : Prop := n ≠ "" ∧ isUp n = false

instance (n : String) : Decidable (IsFileName n) := inferInstanceAs (Decidable (_ ∧ _))

/-- A path to a file ends in its name. -/
theorem exists_eq_concat (h : IsFileName p.name) :
    ∃ root names n, isUp n = false ∧ p = ⟨root, names ++ [n]⟩ := by
  obtain ⟨root, names⟩ := p
  rcases List.eq_nil_or_concat' names with rfl | ⟨front, n, rfl⟩
  · exact absurd rfl h.1
  · exact ⟨root, front, n, by simpa [name] using h.2, rfl⟩

/-- What has a name has a stem. -/
theorem stem_ne_empty (h : p.name ≠ "") : p.stem ≠ "" := by
  have hname : p.name.toList ≠ [] := by simpa using h
  rw [stem, stemOf, Ne, ← String.toList_inj, String.toList_ofList]
  split
  · exact hname
  · rename_i hsuffix
    simp only [Bool.or_eq_true, List.isEmpty_iff, not_or] at hsuffix
    exact hsuffix.2

/-! ### The path of a source in its project -/

/-- A project as a path from the top. -/
def fromTop (cwd project : Path) : Path :=
  if project.isAbsolute then project else cwd.absolute project

theorem inProject_of_isAbsolute (h : file.isAbsolute) : inProject cwd file project =
    match file.relativeTo? (fromTop cwd project) with
    | some p => withoutSlashes p.text
    | none => file.text := by
  rw [inProject, if_pos h]
  rfl

theorem isAbsolute_fromTop (hroot : cwd.isAbsolute) (project : Path) :
    (fromTop cwd project).isAbsolute := by
  rw [fromTop]
  split
  · assumption
  · exact isAbsolute_join hroot project

/-- A relative source is read back as its normal form. -/
theorem ofString_inProject_relative (hfile : file.isAbsolute = false) (hplain : file.Plain) :
    ofString (inProject cwd file project) = file.normalize := by
  have hroot : file.normalize.root = .relative := by
    rw [normalize]
    simpa [isAbsolute] using hfile
  have hread := ofString_withoutSlashes_text hplain.normalize
  rw [← hroot] at hread
  simpa [inProject, hfile] using hread

/-- A source in the project is read back as what leads to it from there. -/
theorem ofString_inProject_inside (hfile : file.isAbsolute) (hplain : file.Plain)
    (h : file.relativeTo? (fromTop cwd project) = some p) :
    ofString (inProject cwd file project) = p := by
  obtain ⟨-, hnames, hp⟩ := relativeTo?_eq_some.1 h
  have hread := ofString_withoutSlashes_text (p := p) fun n hn => hplain n (by simp [hnames, hn])
  rw [inProject_of_isAbsolute hfile, h]
  exact hread.trans (by rw [← hp])

/-- A source outside the project is read back as it is. -/
theorem ofString_inProject_outside (hfile : file.isAbsolute) (hplain : file.Plain)
    (h : file.relativeTo? (fromTop cwd project) = none) :
    ofString (inProject cwd file project) = file := by
  rw [inProject_of_isAbsolute hfile, h]
  exact ofString_text hplain

/-! ### The directory of a source -/

/-- **A source is looked beside** if the directory of its path in the project, taken from the
project, is the directory of the source, and the two have the same stem. The directories are
compared as they are seen from the current directory, in normal form. -/
structure LooksBeside (cwd project file : Path) : Prop where
  /-- The directory is that of the source, which is taken from the project if it is relative. -/
  directory : (cwd.join ((ofString (inProject cwd file project)).parent.onDisk project)).normalize
    = (cwd.join (project.join file.parent)).normalize
  /-- The stems agree. -/
  stem : (ofString (inProject cwd file project)).stem = file.stem

/-- What lies behind a project has one place, from the current directory and from the top. -/
theorem normalize_join_fromTop (hroot : cwd.isAbsolute) (project : Path) (names : List String) :
    (cwd.join (project.join ⟨.relative, names⟩)).normalize
      = ((fromTop cwd project).join ⟨.relative, names⟩).normalize := by
  rw [fromTop, join_join_names]
  split
  · rename_i hproject
    rw [join, if_pos hproject]
    rfl
  · -- a relative project is normalized on the way, which changes no place
    have habsolute := isAbsolute_join hroot project
    have hseen : (cwd.join project).normalize.isAbsolute := habsolute
    rw [absolute, join_of_relative (p := ⟨.relative, names⟩) rfl, normalize_append habsolute,
      normalize_append hseen, normalize_normalize]
    rfl

/-- Relative sources are looked beside. -/
theorem looksBeside_of_relative (hroot : cwd.isAbsolute) (hfile : file.isAbsolute = false)
    (hplain : file.Plain) (hname : IsFileName file.name) : LooksBeside cwd project file := by
  have hread : ofString (inProject cwd file project) = file.normalize :=
    ofString_inProject_relative hfile hplain
  obtain ⟨root, names, n, hn, rfl⟩ := exists_eq_concat hname
  obtain rfl : root = .relative := by simpa [isAbsolute] using hfile
  rw [normalize_concat _ _ hn] at hread
  refine ⟨?_, by simp [hread, stem, name]⟩
  have habsolute := isAbsolute_join hroot project
  simp only [hread, parent, onDisk, List.dropLast_concat, join_join_names,
    normalize_append habsolute, foldl_further_normalize]

/-- Sources in the project are looked beside, unless they are the project. -/
theorem looksBeside_of_inside (hroot : cwd.isAbsolute) (hfile : file.isAbsolute)
    (hplain : file.Plain) (h : file.relativeTo? (fromTop cwd project) = some p)
    (hne : p.names ≠ []) :
    LooksBeside cwd project file := by
  have hread := ofString_inProject_inside hfile hplain h
  obtain ⟨htop, hnames, hp⟩ := relativeTo?_eq_some.1 h
  -- The last name is none of the project's, so the parent is taken behind it.
  have hparent : file.parent = (fromTop cwd project).join ⟨.relative, p.names.dropLast⟩ := by
    rw [join_of_relative rfl, parent, htop, hnames, List.dropLast_append_of_ne_nil hne]
  have habsolute : file.parent.isAbsolute := hfile
  refine ⟨?_, ?_⟩
  · rw [hread, onDisk, parent, hp, normalize_join_fromTop hroot, ← hparent]
    simp only [join, habsolute, if_true]
  · rw [hread, stem, stem, name, name, hnames, List.getLast?_append_of_ne_nil _ hne]

/-- Sources outside the project are looked beside. -/
theorem looksBeside_of_outside (hfile : file.isAbsolute) (hplain : file.Plain)
    (h : file.relativeTo? (fromTop cwd project) = none) : LooksBeside cwd project file := by
  have hread := ofString_inProject_outside hfile hplain h
  exact ⟨by rw [hread, onDisk], by rw [hread]⟩

/-- The project itself is not looked beside: its path in the project has no name. -/
theorem not_looksBeside_self (hfile : file.isAbsolute) (hplain : file.Plain)
    (hname : IsFileName file.name) (h : file.relativeTo? (fromTop cwd project) = some p)
    (hnone : p.names = []) : ¬ LooksBeside cwd project file := by
  intro hbeside
  have hstem := hbeside.stem
  rw [ofString_inProject_inside hfile hplain h, stem, name, hnone] at hstem
  exact stem_ne_empty hname.1 hstem.symm

/-- **Discovery looks next to a source**, for every project and every source with the name of a
file, from wherever they are given, exactly if the source is not the project itself. -/
theorem looksBeside_iff {project file : String} (hroot : cwd.isAbsolute)
    (hname : IsFileName (ofString file).name) :
    LooksBeside cwd (ofString project) (ofString file) ↔
      ofString file ≠ fromTop cwd (ofString project) := by
  have hplain := plain_ofString file
  have htop := isAbsolute_fromTop hroot (ofString project)
  cases hfile : (ofString file).isAbsolute with
  | false =>
    refine iff_of_true (looksBeside_of_relative hroot hfile hplain hname) fun heq => ?_
    rw [heq, htop] at hfile
    cases hfile
  | true =>
    cases hin : (ofString file).relativeTo? (fromTop cwd (ofString project)) with
    | none =>
      refine iff_of_true (looksBeside_of_outside hfile hplain hin) fun heq => ?_
      exact relativeTo?_eq_none_iff.1 hin (heq ▸ ⟨rfl, List.prefix_rfl⟩)
    | some p =>
      obtain ⟨hsame, hnames, -⟩ := relativeTo?_eq_some.1 hin
      by_cases hnone : p.names = []
      · refine iff_of_false (not_looksBeside_self hfile hplain hname hin hnone) ?_
        rw [hnone, List.append_nil] at hnames
        exact not_not_intro (congrArg₂ Path.mk hsame hnames)
      · refine iff_of_true (looksBeside_of_inside hroot hfile hplain hin hnone) ?_
        rintro heq
        rw [heq] at hnames
        exact hnone (List.self_eq_append_right.1 hnames)

/-- A source that leads through a relative project and leaves it again is looked beside. -/
theorem looksBeside_iff_detour :
    IsFileName (ofString "/home/lib/../Base.ts").name ∧
      LooksBeside (ofString "/home") (ofString "lib") (ofString "/home/lib/../Base.ts") := by
  have hname : IsFileName (ofString "/home/lib/../Base.ts").name := by decide +kernel
  exact ⟨hname, (looksBeside_iff (by decide +kernel) hname).2 (by decide +kernel)⟩

/-- **A source that is the project is not looked beside**: with the project `/r/Base.ts` the source
`/r/Base.ts` is said to be `.`, and catalogues are looked for in `/r/Base.ts` and not in `/r`. -/
theorem not_looksBeside_project :
    IsFileName (ofString "/r/Base.ts").name ∧
      inProject (ofString "/") (ofString "/r/Base.ts") (ofString "/r/Base.ts") = "." ∧
      ¬ LooksBeside (ofString "/") (ofString "/r/Base.ts") (ofString "/r/Base.ts") :=
  ⟨by decide +kernel, by decide +kernel, fun h => absurd h.stem (by decide +kernel)⟩

end Path

end MessageBinder
