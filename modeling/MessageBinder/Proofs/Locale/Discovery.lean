import Mathlib.Data.List.Induction
import MessageBinder.Proofs.CommandLine.Storing
import MessageBinder.Proofs.Record.Lookup

/-!
# Discovering catalogues

The system lists a directory in any order it likes, files and directories together. What is
collected does not depend on it (`MessageBinder.CatalogueSource.discovers_record`): the files to be
loaded are told by their names alone (`MessageBinder.CatalogueSource.Discovers`), they are loaded
one after the other, the least name first, and the first one that cannot be loaded ends the
collection (`MessageBinder.CatalogueSource.Collects`).

Two orders meet in a collection whose locales agree but for the case of their letters. Its keys
stand where the first file of each locale was (`MessageBinder.Table.keys_foldl_insert`), and its
values are those of the last one.
-/

namespace MessageBinder

/-! ### Directories -/

namespace FileTree

/-- What lies at a place, by its names, in the order of the listing. -/
def lying (t : FileTree) (place : List String) : List (String × Entry) :=
  t.entries.filterMap fun (names, entry) =>
    if names.dropLast = place then names.getLast?.map (·, entry) else none

/-- What lies in a directory. -/
def entriesIn (t : FileTree) (p : Path) : Except IoError (List (String × Entry)) :=
  naming p do
    let place ← t.locate p
    match t.at? place with
    | none => throw .missing
    | some (.file _) => throw .notDirectory
    | some .directory => return t.lying place

/-- The names of the files among entries. -/
def fileNames (entries : List (String × Entry)) : List String :=
  (entries.filter (·.2.isFile)).map Prod.fst

theorem listed_eq_fileNames (t : FileTree) (place : List String) :
    t.listed place = fileNames (t.lying place) := by
  rw [listed, fileNames, lying, List.filter_filterMap, List.map_filterMap]
  refine List.filterMap_congr ?_
  rintro ⟨names, entry⟩ -
  by_cases hplace : names.dropLast = place
  · cases hname : names.getLast? <;> cases hfile : entry.isFile <;>
      simp [hplace, hname, hfile, Option.filter]
  · simp [hplace]

/-- The files of a directory are found among what lies in it. -/
theorem filesIn_of_entriesIn {t : FileTree} {p : Path} {entries : List (String × Entry)}
    (h : t.entriesIn p = .ok entries) : t.filesIn p = .ok (fileNames entries) := by
  obtain ⟨hnull, h⟩ := naming_eq_ok h
  obtain ⟨place, hplace, h⟩ := Except.bind_eq_ok.1 h
  split at h
  · cases h
  · cases h
  · rename_i hthere
    obtain rfl := Except.ok.inj h
    exact filesIn_eq_ok.2 ⟨hnull, place, hplace, hthere, (t.listed_eq_fileNames place).symm⟩

theorem mem_fileNames {entries : List (String × Entry)} {name : String} :
    name ∈ fileNames entries ↔ ∃ bytes, (name, .file bytes) ∈ entries := by
  simp only [fileNames, List.mem_map, List.mem_filter]
  constructor
  · rintro ⟨⟨_, entry⟩, ⟨hin, hfile⟩, rfl⟩
    cases entry with
    | file bytes => exact ⟨bytes, hin⟩
    | directory => cases hfile
  · rintro ⟨bytes, hin⟩
    exact ⟨_, ⟨hin, rfl⟩, rfl⟩

theorem nodup_fileNames {entries : List (String × Entry)} (h : (entries.map Prod.fst).Nodup) :
    (fileNames entries).Nodup :=
  h.sublist (List.filter_sublist.map Prod.fst)

end FileTree

/-! ### Keys that arrive -/

/-- **The keys of a table** that is written from the start are in the order of their first
arrivals. -/
theorem Table.keys_foldl_insert {α β : Type} (key : α → CodeText) (value : α → β)
    (files : List α) :
    keys (files.foldl (fun t f => insert (key f) (value f) t) []) = (files.map key).eraseDups := by
  -- The induction is from the back: what is written last either moves nothing or goes to the end.
  induction files using List.reverseRecOn with
  | nil => rfl
  | append_singleton files f ih =>
    rw [List.foldl_append, List.foldl_cons, List.foldl_nil, List.map_append, List.eraseDups_append]
    by_cases hkey : key f ∈ files.map key
    · rw [keys_insert_of_mem (by rwa [ih, List.mem_eraseDups]), ih]
      have hleft : [key f].removeAll (files.map key) = [] := by
        simpa [List.removeAll] using hkey
      rw [List.map_singleton, hleft, List.eraseDups_nil, List.append_nil]
    · rw [keys_insert_of_not_mem (by rwa [ih, List.mem_eraseDups]), ih]
      have hleft : [key f].removeAll (files.map key) = [key f] := by
        simpa [List.removeAll] using hkey
      rw [List.map_singleton, hleft]
      rfl

namespace CatalogueSource

/-! ### What is found -/

/-- **A file is found** beside a source, with its locale in lower case: it is a file, and its name
is made of the base name of the source, a locale and the extension. One line break may follow. -/
def Finds (s : CatalogueSource) (source : String) (entries : List (String × Entry))
    (f : String × String) : Prop :=
  (∃ bytes, (f.1, .file bytes) ∈ entries) ∧ ∃ locale, f.2 = Text.lower locale ∧
    (Locale.Names (Path.ofString source).stem s.extension locale f.1 ∨
      Locale.Names (Path.ofString source).stem (s.extension ++ "\n") locale f.1)

/-- **Files are discovered** if they are the ones that are found, each once and the least name
first. -/
structure Discovers (s : CatalogueSource) (source : String) (entries : List (String × Entry))
    (files : List (String × String)) : Prop where
  /-- They are in the order of their names. -/
  ascending : files.Pairwise fun f f' => f.1 < f'.1
  /-- They are those that are found. -/
  mem_iff : ∀ f, f ∈ files ↔ s.Finds source entries f

theorem discovers_matching {s : CatalogueSource} {source : String}
    {entries : List (String × Entry)} (h : (entries.map Prod.fst).Nodup) :
    s.Discovers source entries
      (matching (Path.ofString source).stem s.extension (FileTree.fileNames entries)) where
  ascending := by
    have hnodup := (perm_matching (Path.ofString source).stem s.extension
      (FileTree.fileNames entries)).nodup_iff.2 ((FileTree.nodup_fileNames h).filter _)
    refine ((pairwise_matching _ _ _).and (List.pairwise_map.1 hnodup)).imp fun hf => ?_
    exact String.not_le.1 fun hge => hf.2 (String.le_antisymm hf.1 hge)
  mem_iff f := by
    rw [mem_matching, FileTree.mem_fileNames, Finds]
    refine and_congr_right fun _ => exists_congr fun locale => ?_
    rw [Locale.ofFileName?_eq_some, and_comm]

/-! ### What is loaded -/

/-- **A file holds messages** if the loader gives them for its path. -/
def Holds (s : CatalogueSource) (source : String) (f : String × String) (c : Catalogue) : Prop :=
  s.loader ((s.directory source).entryText f.1) = .ok c

/-- **Files are collected**: the outcome of loading them one after the other, with the paths that
are given to the loader. -/
inductive Collects (s : CatalogueSource) (source : String) (files : List (String × String)) :
    Except Failure Record × List String → Prop
  /-- All of them are loaded. The locales come in the order of their first files, and each has the
  messages of the file with the greatest name. -/
  | all {collection : Table Json} (hloads : ∀ f ∈ files, ∃ c, s.Holds source f c)
      (hkeys : Table.keys collection = (files.map fun f => CodeText.ofString f.2).eraseDups)
      (hvalues : ∀ f ∈ files, (∀ f' ∈ files, f'.2 = f.2 → f'.1 ≤ f.1) →
        ∃ c, s.Holds source f c ∧ Table.find? f.2 collection = some c.toJson) :
      Collects s source files (.ok ⟨source, .ofTable collection, true⟩,
        files.map fun f => (s.directory source).entryText f.1)
  /-- One of them cannot be loaded, and those behind it are not asked for. -/
  | stopped {front back : List (String × String)} {f : String × String} {e : Failure}
      (hfiles : files = front ++ f :: back) (hloads : ∀ f' ∈ front, ∃ c, s.Holds source f' c)
      (hfails : s.loader ((s.directory source).entryText f.1) = .error e) :
      Collects s source files (.error e,
        (front ++ [f]).map fun f => (s.directory source).entryText f.1)

variable {s : CatalogueSource} {source : String} {files : List (String × String)}

/-- Files are all loaded, or up to the first one that cannot be. -/
theorem forall_holds_or_exists_fails (s : CatalogueSource) (source : String)
    (files : List (String × String)) : (∀ f ∈ files, ∃ c, s.Holds source f c) ∨
      ∃ front f back e, files = front ++ f :: back ∧ (∀ f' ∈ front, ∃ c, s.Holds source f' c) ∧
        s.loader ((s.directory source).entryText f.1) = .error e := by
  induction files with
  | nil => exact Or.inl (by simp)
  | cons f files ih =>
    cases hload : s.loader ((s.directory source).entryText f.1) with
    | error e => exact Or.inr ⟨[], f, files, e, rfl, by simp, hload⟩
    | ok c =>
      rcases ih with hall | ⟨front, f', back, e, rfl, hfront, hfails⟩
      · exact Or.inl (List.forall_mem_cons.2 ⟨⟨c, hload⟩, hall⟩)
      · exact Or.inr ⟨f :: front, f', back, e, rfl, List.forall_mem_cons.2 ⟨⟨c, hload⟩, hfront⟩,
          hfails⟩

/-- The messages of a file, if it can be loaded. -/
def content (s : CatalogueSource) (source name : String) : Catalogue :=
  (s.loader ((s.directory source).entryText name)).toOption.getD []

theorem holds_content (h : ∀ f ∈ files, ∃ c, s.Holds source f c) :
    ∀ f ∈ files, s.Holds source f (s.content source f.1) := fun f hf => by
  obtain ⟨c, hc⟩ := h f hf
  have hcontent : s.content source f.1 = c := by
    rw [content, hc]
    rfl
  rwa [hcontent]

theorem loadAll_append (directory : Path) (front back : List (String × String))
    (collection : Table Json) : s.loadAll directory (front ++ back) collection
      = s.loadAll directory front collection >>= s.loadAll directory back := by
  induction front generalizing collection with
  | nil => exact (pure_bind collection (s.loadAll directory back)).symm
  | cons f front ih =>
    simp only [List.cons_append, loadAll, bind_assoc, ih]

/-- Loading asks the loader alone. -/
theorem loadAll_withTree (t : FileTree) (directory : Path) (files : List (String × String))
    (collection : Table Json) :
    ({ s with tree := t } : CatalogueSource).loadAll directory files collection
      = s.loadAll directory files collection := by
  induction files generalizing collection with
  | nil => rfl
  | cons f files ih => simp only [loadAll, ih]

/-- A collection has the messages of the file with the greatest name of each locale. -/
theorem find?_of_greatest {content : String → Catalogue}
    (hascending : files.Pairwise fun f f' => f.1 < f'.1) {f : String × String} (hf : f ∈ files)
    (hgreatest : ∀ f' ∈ files, f'.2 = f.2 → f'.1 ≤ f.1) :
    Table.find? f.2 (files.foldl (fun t f => Table.insert f.2 (content f.1).toJson t) [])
      = some (content f.1).toJson := by
  rcases find?_foldl_insert Prod.snd (fun f => (content f.1).toJson) f.2 files [] with
    ⟨front, f', back, rfl, hkey, hback, hfind⟩ | ⟨hnone, -⟩
  · rw [hfind]
    -- The last file of the locale is the given one: those before it have lesser names.
    rcases List.mem_append.1 hf with hfront | hrest
    · have hlt := (List.pairwise_append.1 hascending).2.2 f hfront f' List.mem_cons_self
      exact absurd hlt (String.not_lt.2 (hgreatest f' (by simp) hkey))
    · rcases List.mem_cons.1 hrest with rfl | hlater
      · rfl
      · exact absurd rfl (hback f hlater)
  · exact absurd rfl (hnone f hf)

/-- Files that are in the order of their names are collected. -/
theorem collects_loadAll (hascending : files.Pairwise fun f f' => f.1 < f'.1) :
    ∃ r paths, (s.loadAll (s.directory source) files []).Ends r paths ∧
      s.Collects source files (r.map fun c => ⟨source, .ofTable c, true⟩, paths) := by
  rcases forall_holds_or_exists_fails s source files with
    hloads | ⟨front, f, back, e, hfiles, hfront, hfails⟩
  · have hcontent := holds_content hloads
    refine ⟨_, _, ends_loadAll_of_forall [] hcontent, .all hloads ?_ fun f hf hgreatest => ?_⟩
    · exact Table.keys_foldl_insert (fun f => CodeText.ofString f.2)
        (fun f => (s.content source f.1).toJson) files
    · exact ⟨_, hcontent f hf, find?_of_greatest hascending hf hgreatest⟩
  · -- what is in front is loaded as if it were all, and the failure ends the rest
    have hload := Loads.ends_load s.loader ((s.directory source).entryText f.1)
    rw [hfails] at hload
    have hall := (ends_loadAll_of_forall [] (holds_content hfront)).bind
      (f := s.loadAll (s.directory source) (f :: back)) (hload.bind_error _)
    rw [← loadAll_append, ← hfiles] at hall
    refine ⟨_, _, hall, ?_⟩
    have hstopped := Collects.stopped hfiles hfront hfails
    rwa [List.map_append, List.map_singleton] at hstopped

/-! ### Records of listed directories -/

/-- A record is that of the files that match in the listing of its directory. -/
theorem ends_record {entries : List (String × Entry)}
    (h : s.tree.entriesIn (s.directory source) = .ok entries) {r : Except Failure (Table Json)}
    {paths : List String} (hall : (s.loadAll (s.directory source)
      (matching (Path.ofString source).stem s.extension (FileTree.fileNames entries)) []).Ends
        r paths) :
    (s.record source).Ends (r.map fun c => ⟨source, .ofTable c, true⟩) paths := by
  have hscan : (s.scan (s.directory source)).Ends (.ok (FileTree.fileNames entries)) [] := by
    rw [scan, FileTree.filesIn_of_entriesIn h]
    exact Loads.ends_pure _
  exact ends_recordBy hscan hall

/-- A listing in another order gives the same files, in the same order. -/
theorem matching_fileNames_of_perm {base extension : String}
    {entries entries' : List (String × Entry)} (h : entries'.Perm entries) :
    matching base extension (FileTree.fileNames entries')
      = matching base extension (FileTree.fileNames entries) :=
  FileTree.matching_congr (((h.filter _).map Prod.fst).filter _)

/-- **Discovery** does not depend on the order in which the directory of a source is listed. For
files and directories of distinct names, the loader is given the files that are found, each once and
the least name first, up to the first that cannot be loaded; the record has their messages by their
locales. Any other listing of the same entries gives the same record, or the same failure, and asks
the loader for the same paths. -/
theorem discovers_record {entries : List (String × Entry)}
    (hentries : s.tree.entriesIn (s.directory source) = .ok entries)
    (hnames : (entries.map Prod.fst).Nodup) :
    (∃ files, s.Discovers source entries files ∧ s.Collects source files (s.record source).run) ∧
      ∀ (t : FileTree) (entries' : List (String × Entry)),
        t.entriesIn (s.directory source) = .ok entries' → entries'.Perm entries →
          (({ s with tree := t } : CatalogueSource).record source).run = (s.record source).run := by
  have hdiscovers : s.Discovers source entries _ := discovers_matching hnames
  obtain ⟨r, paths, hall, hcollects⟩ := s.collects_loadAll hdiscovers.ascending
  have hends := ends_record hentries hall
  refine ⟨⟨_, hdiscovers, hends.run ▸ hcollects⟩, fun t entries' hentries' hperm => ?_⟩
  rw [← matching_fileNames_of_perm hperm, ← loadAll_withTree t] at hall
  have hends' := ends_record (s := { s with tree := t }) hentries' hall
  rw [hends'.run, hends.run]

/-- Beside `Base.ts` two catalogues of one locale are listed against the order of their names,
before a directory that is named as a catalogue. -/
def listedBackwards : CatalogueSource :=
  ⟨⟨[(["Base.en.p"], .file []), (["Base.de.p"], .directory), (["Base.EN.p"], .file [])],
    ⟨.slash, []⟩⟩, "p", fun path => .ok [("path", path)], none⟩

/-- There the catalogues are discovered. -/
theorem discovers_record_listedBackwards :
    (∃ files, listedBackwards.Discovers "/Base.ts"
        [("Base.en.p", .file []), ("Base.de.p", .directory), ("Base.EN.p", .file [])] files ∧
      listedBackwards.Collects "/Base.ts" files (listedBackwards.record "/Base.ts").run) ∧
      ∀ (t : FileTree) (entries' : List (String × Entry)),
        t.entriesIn (listedBackwards.directory "/Base.ts") = .ok entries' →
          entries'.Perm [("Base.en.p", .file []), ("Base.de.p", .directory),
            ("Base.EN.p", .file [])] →
          (({ listedBackwards with tree := t } : CatalogueSource).record "/Base.ts").run
            = (listedBackwards.record "/Base.ts").run := by
  have hentries : (listedBackwards.tree.entriesIn (listedBackwards.directory "/Base.ts")).toOption
      = some [("Base.en.p", .file []), ("Base.de.p", .directory), ("Base.EN.p", .file [])] := by
    decide +kernel
  exact discovers_record (Except.eq_ok_of_toOption hentries) (by decide)

end CatalogueSource

end MessageBinder
