import MessageBinder.Proofs.CommandLine.Rereading

/-!
# What writing files changes

A path goes from place to place, and it depends on the places on its way only
(`MessageBinder.FileTree.locate_congr`). Writing a text under a path makes the directories above it
that are not there, and so it makes or changes something at those places on its way that are no
directories yet, and nowhere else (`MessageBinder.FileTree.grows_store`). What is there stays there,
but for the file that is written over.

So a source whose own way, and that of its catalogues, avoid what the outputs make is read again
afterwards (`MessageBinder.FileTree.rereads_of_apart`).
-/

namespace MessageBinder

namespace FileTree

/-! ### Ways -/

/-- The place that a name leads to from a place. -/
def further (place : List String) (name : String) : List String :=
  if Path.isUp name then place.dropLast else place ++ [name]

/-- The places on the way along names, from a place on. -/
def wayFrom (place : List String) : List String → List (List String)
  | [] => [place]
  | name :: names => place :: wayFrom (further place name) names

/-- The places on the way of a path. -/
def way (t : FileTree) (p : Path) : List (List String) := wayFrom [] (t.cwd.join p).names

/-- The places on the way of a path that are no directories. -/
def fresh (t : FileTree) (p : Path) : List (List String) :=
  (t.way p).filter (t.at? · ≠ some .directory)

/-- A place that can be entered is a directory. -/
theorem enter_eq_ok {t : FileTree} {place place' : List String} {name : String}
    (h : t.enter place name = .ok place') :
    t.at? place = some .directory ∧ place' = further place name := by
  rw [enter] at h
  split at h
  · cases h
  · cases h
  · rename_i hdirectory
    split at h
    · cases h
    · exact ⟨hdirectory, (Except.ok.inj h).symm⟩

theorem wayFrom_subset_append (place : List String) (names names' : List String) :
    wayFrom place names ⊆ wayFrom place (names ++ names') := by
  induction names generalizing place with
  | nil => cases names' <;> simp [wayFrom]
  | cons name names ih => exact List.cons_subset_cons place (ih _)

theorem mem_wayFrom_of_foldlM_enter {t : FileTree} {names : List String}
    {place place' : List String} (h : names.foldlM t.enter place = .ok place') :
    place' ∈ wayFrom place names := by
  induction names generalizing place with
  | nil =>
    obtain rfl := Except.ok.inj h
    exact List.mem_singleton.2 rfl
  | cons name names ih =>
    rw [List.foldlM_cons] at h
    cases henter : t.enter place name with
    | error fault =>
      rw [henter] at h
      cases h
    | ok next =>
      rw [henter] at h
      obtain ⟨-, rfl⟩ := enter_eq_ok henter
      exact List.mem_cons_of_mem _ (ih h)

/-- Directories that stay let a way lead where it led. -/
theorem foldlM_enter_mono {t t' : FileTree}
    (h : ∀ s, t.at? s = some .directory → t'.at? s = some .directory) {names : List String}
    {place place' : List String} (hok : names.foldlM t.enter place = .ok place') :
    names.foldlM t'.enter place = .ok place' := by
  induction names generalizing place with
  | nil => exact hok
  | cons name names ih =>
    rw [List.foldlM_cons] at hok ⊢
    cases henter : t.enter place name with
    | error fault =>
      rw [henter] at hok
      cases hok
    | ok next =>
      rw [henter] at hok
      have henter' : t'.enter place name = .ok next := by
        have hthere := (enter_eq_ok henter).1
        rw [enter, hthere] at henter
        rw [enter, h _ hthere]
        exact henter
      rw [henter']
      exact ih hok

section

variable {t t' : FileTree} {p : Path}

theorem mem_way_of_locate {place : List String} (h : t.locate p = .ok place) : place ∈ t.way p := by
  rw [locate] at h
  split at h
  · cases h
  · exact mem_wayFrom_of_foldlM_enter h

theorem locate_mono (hcwd : t'.cwd = t.cwd)
    (h : ∀ s, t.at? s = some .directory → t'.at? s = some .directory) {place : List String}
    (hok : t.locate p = .ok place) : t'.locate p = .ok place := by
  rw [locate] at hok ⊢
  split at hok
  · cases hok
  · rename_i hshort
    rw [if_neg hshort, hcwd]
    exact foldlM_enter_mono h hok

end

/-- Trees that differ at some places only agree on the others. -/
theorem at?_of_filter_eq {made : List (List String)} {t t' : FileTree}
    (h : t'.entries.filter (·.1 ∉ made) = t.entries.filter (·.1 ∉ made)) {s : List String}
    (hs : s ∉ made) : t'.at? s = t.at? s := by
  have hfind : ∀ es : List (List String × Entry),
      es.find? (·.1 = s) = (es.filter (·.1 ∉ made)).find? (·.1 = s) := by
    intro es
    rw [List.find?_filter]
    congr 1
    funext e
    by_cases heq : e.1 = s
    · simp [heq, hs]
    · simp [heq]
  rw [at?, at?, hfind, h, ← hfind]

/-- What is put somewhere is there. -/
theorem at?_put (t : FileTree) {names : List String} (entry : Entry) (hne : names ≠ []) :
    (t.put names entry).at? names = some entry := by
  have hempty : names.isEmpty = false := by simpa using hne
  have hat : ∀ t : FileTree, t.at? names = (t.entries.find? (·.1 = names)).map (·.2) := fun t => by
    rw [at?, hempty]
    rfl
  rw [hat, put]
  split
  · rename_i hsome
    rw [hat, Option.isSome_map] at hsome
    obtain ⟨e, he⟩ := Option.isSome_iff_exists.1 hsome
    have heq : e.1 = names := by simpa using List.find?_some he
    have hcomp : ((fun e : List String × Entry => decide (e.1 = names)) ∘
        fun e => if e.1 = names then (names, entry) else e)
        = fun e : List String × Entry => decide (e.1 = names) := by
      funext e
      by_cases heq : e.1 = names
      · simp [heq]
      · simp [heq]
    change ((t.entries.map _).find? _).map _ = _
    rw [List.find?_map, hcomp, he]
    simp [heq]
  · rename_i hnone
    rw [hat, Option.isSome_map] at hnone
    simp only [Bool.not_eq_true, Option.isSome_eq_false_iff, Option.isNone_iff_eq_none] at hnone
    rw [List.find?_append, hnone]
    simp

/-! ### Growing -/

/-- **A tree grows**: things are made or changed at some places only, and what was there stays, but
for files that are written over. -/
structure Grows (made written : List (List String)) (t t' : FileTree) : Prop where
  /-- The current directory. -/
  cwd : t'.cwd = t.cwd
  /-- The other places. -/
  others : t'.entries.filter (·.1 ∉ made) = t.entries.filter (·.1 ∉ made)
  /-- What was there. -/
  stays : ∀ s e, t.at? s = some e → t'.at? s = some e ∨ (s ∈ written ∧ e.isFile)

namespace Grows

variable {made made' written written' : List (List String)} {t t' t'' : FileTree}

theorem refl (made written : List (List String)) (t : FileTree) : t.Grows made written t :=
  ⟨rfl, rfl, fun _ _ h => Or.inl h⟩

theorem mono (h : t.Grows made written t') (hmade : made ⊆ made') (hwritten : written ⊆ written') :
    t.Grows made' written' t' where
  cwd := h.cwd
  others := by
    have hall : ∀ es : List (List String × Entry), es.filter (·.1 ∉ made')
        = (es.filter (·.1 ∉ made)).filter (·.1 ∉ made') := by
      intro es
      rw [List.filter_filter]
      refine List.filter_congr fun e _ => ?_
      by_cases hin : e.1 ∈ made
      · simp [hin, hmade hin]
      · simp [hin]
    rw [hall, h.others, ← hall]
  stays s e hs := (h.stays s e hs).imp id (And.imp_left fun hin => hwritten hin)

theorem directory (h : t.Grows made written t') {s : List String}
    (hs : t.at? s = some .directory) : t'.at? s = some .directory := by
  rcases h.stays s _ hs with hs' | ⟨-, hfile⟩
  · exact hs'
  · cases hfile

theorem trans (h : t.Grows made written t') (h' : t'.Grows made written t'') :
    t.Grows made written t'' where
  cwd := h'.cwd.trans h.cwd
  others := h'.others.trans h.others
  stays s e hs := by
    rcases h.stays s e hs with hs' | hs'
    · exact h'.stays s e hs'
    · exact Or.inr hs'

theorem way (h : t.Grows made written t') (p : Path) : t'.way p = t.way p := by
  rw [FileTree.way, FileTree.way, h.cwd]

/-- What is no directory now was none. -/
theorem fresh_subset (h : t.Grows made written t') (p : Path) : t'.fresh p ⊆ t.fresh p := by
  intro s hs
  obtain ⟨hway, hnone⟩ := List.mem_filter.1 hs
  rw [h.way] at hway
  refine List.mem_filter.2 ⟨hway, ?_⟩
  rw [decide_eq_true_eq] at hnone ⊢
  exact fun hthere => hnone (h.directory hthere)

/-- Something is put at a place where there is nothing, or a file that may be written over. -/
theorem put (t : FileTree) {names : List String} (entry : Entry)
    (h : ∀ e, t.at? names = some e → names ∈ written ∧ e.isFile) :
    t.Grows [names] written (t.put names entry) := by
  have hothers : (t.put names entry).entries.filter (·.1 ∉ [names])
      = t.entries.filter (·.1 ∉ [names]) := by
    rw [FileTree.put]
    split
    · change ((t.entries.map _).filter _) = _
      rw [List.filter_map]
      have hsame : ∀ e ∈ t.entries.filter (·.1 ∉ [names]),
          (if e.1 = names then (names, entry) else e) = e := by
        intro e he
        have hne := (List.mem_filter.1 he).2
        rw [if_neg (by simpa using hne)]
      rw [← (List.map_congr_left hsame).trans (List.map_id _)]
      congr 1
      refine List.filter_congr fun e _ => ?_
      by_cases heq : e.1 = names
      · simp [heq]
      · simp [heq]
    · simp
  have hcwd : (t.put names entry).cwd = t.cwd := by
    rw [FileTree.put]
    split <;> rfl
  refine ⟨hcwd, hothers, fun s e hs => ?_⟩
  by_cases heq : s = names
  · subst heq
    exact Or.inr (h e hs)
  · exact Or.inl ((at?_of_filter_eq hothers (by simpa using heq)).trans hs)

end Grows

/-! ### Writing -/

section

variable {made written : List (List String)} {t t' : FileTree} {p q : Path} {text : String}

theorem fresh_of_at?_eq_none {place : List String} (hplace : t.locate p = .ok place)
    (hnone : t.at? place ≠ some .directory) : place ∈ t.fresh p :=
  List.mem_filter.2 ⟨mem_way_of_locate hplace, by simpa using hnone⟩

theorem grows_makeDirectory (h : t.makeDirectory p = .ok t') : t.Grows (t.fresh p) [] t' := by
  obtain ⟨place, hplace, h⟩ := Except.bind_eq_ok.1 h
  split at h
  · cases h
  · rename_i hthere
    obtain rfl := Except.ok.inj h
    have hfresh := fresh_of_at?_eq_none hplace (by simp [hthere])
    refine (Grows.put t .directory fun e he => ?_).mono
      (List.cons_subset.2 ⟨hfresh, List.nil_subset _⟩) (List.Subset.refl _)
    rw [hthere] at he
    cases he

theorem grows_ensureDirectory (h : t.ensureDirectory p = .ok t') : t.Grows (t.fresh p) [] t' := by
  rw [ensureDirectory] at h
  cases hmake : t.makeDirectory p with
  | error fault =>
    rw [hmake] at h
    dsimp only at h
    split at h
    · obtain rfl := Except.ok.inj h
      exact .refl _ _ t
    · cases h
  | ok t₁ =>
    rw [hmake] at h
    obtain rfl := Except.ok.inj h
    exact grows_makeDirectory hmake

theorem naming_eq_ok {α : Type} {r : Except IoFault α} {a : α} (h : naming p r = .ok a) :
    p.hasNull = false ∧ r = .ok a := by
  rw [naming] at h
  split at h
  · cases h
  · rename_i hnull
    refine ⟨by simpa using hnull, ?_⟩
    cases r with
    | error fault => cases h
    | ok a' =>
      obtain rfl := Except.ok.inj h
      rfl

theorem hasNull_of_naming {α : Type} {r : Except IoFault α}
    (h : naming p r = .error .nullInPath) : p.hasNull = true := by
  rw [naming] at h
  split at h
  · assumption
  · cases r <;> cases h

/-- What is on the way to a place above is on the way. -/
theorem fresh_above_subset (t : FileTree) (root : Root) (names names' : List String) :
    t.fresh ⟨root, names⟩ ⊆ t.fresh ⟨root, names ++ names'⟩ := by
  refine List.filter_subset _ ?_
  rw [way, way, Path.join, Path.join]
  cases root <;> simp [Path.isAbsolute, ← List.append_assoc, wayFrom_subset_append]

/-- Making directories one above the other. -/
theorem grows_ensureAll {root : Root} {names : List String}
    (h : t.ensureAll root names = .ok t') : t.Grows (t.fresh ⟨root, names.reverse⟩) [] t' := by
  induction names generalizing t t' with
  | nil =>
    rw [ensureAll] at h
    exact grows_ensureDirectory (naming_eq_ok h).2
  | cons name above ih =>
    rw [ensureAll] at h
    split at h
    · obtain ⟨t₁, habove, h⟩ := Except.bind_eq_ok.1 h
      have hfirst := (ih habove).mono (fresh_above_subset t root above.reverse [name])
        (List.Subset.refl _)
      rw [List.reverse_cons] at h ⊢
      have hsecond := grows_ensureDirectory (naming_eq_ok h).2
      exact hfirst.trans (hsecond.mono (hfirst.fresh_subset _) (List.Subset.refl _))
    · exact grows_ensureDirectory (naming_eq_ok h).2

theorem grows_makeDirectories (h : t.makeDirectories p = .ok t') : t.Grows (t.fresh p) [] t' := by
  have hgrows := grows_ensureAll h
  rwa [List.reverse_reverse] at hgrows

/-- A file is written at a place where there is no directory. -/
theorem write_eq_ok {bytes : List UInt8} (h : t.write p bytes = .ok t') :
    p.hasNull = false ∧ ∃ place, t.locate p = .ok place ∧ t.at? place ≠ some .directory ∧
      t' = t.put place (.file bytes) := by
  obtain ⟨hnull, h⟩ := naming_eq_ok h
  obtain ⟨place, hplace, h⟩ := Except.bind_eq_ok.1 h
  refine ⟨hnull, place, hplace, ?_⟩
  split at h
  · cases h
  · rename_i hthere
    exact ⟨by simp [hthere], (Except.ok.inj h).symm⟩
  · rename_i hthere
    exact ⟨by simp [hthere], (Except.ok.inj h).symm⟩

/-- A file at the end of a way is read. -/
theorem read_of_locate {place : List String} {bytes : List UInt8} (hnull : p.hasNull = false)
    (hplace : t.locate p = .ok place) (hthere : t.at? place = some (.file bytes)) :
    t.read p = .ok bytes := by
  rw [read, naming, hnull, stat, hplace]
  simp only [bind, Except.bind, hthere]
  rfl

theorem locate_of_read {bytes : List UInt8} (h : t.read p = .ok bytes) :
    p.hasNull = false ∧ ∃ place, t.locate p = .ok place ∧ t.at? place = some (.file bytes) := by
  obtain ⟨hnull, h⟩ := naming_eq_ok h
  obtain ⟨entry, hstat, h⟩ := Except.bind_eq_ok.1 h
  obtain ⟨place, hplace, hstat⟩ := Except.bind_eq_ok.1 hstat
  refine ⟨hnull, place, hplace, ?_⟩
  split at hstat
  · rename_i entry' hthere
    obtain rfl := Except.ok.inj hstat
    rcases entry' with bytes' | _
    · obtain rfl := Except.ok.inj h
      exact hthere
    · cases h
  · cases hstat

/-- The tree with a text written under a path, in directories that are made for it. -/
def store (t : FileTree) (p : Path) (text : String) : Except IoError FileTree :=
  (t.makeDirectories p.parent).bind fun t => t.write p (bytesOf text)

/-- The tree with texts written under paths in turn. -/
def storeAll (t : FileTree) (files : List (Path × String)) : Except IoError FileTree :=
  files.foldlM (fun t f => t.store f.1 f.2) t

theorem fresh_parent_subset (t : FileTree) (p : Path) : t.fresh p.parent ⊆ t.fresh p := by
  obtain ⟨root, names⟩ := p
  have habove := fresh_above_subset t root names.dropLast (names.drop (names.length - 1))
  rwa [List.dropLast_eq_take, List.take_append_drop, ← List.dropLast_eq_take] at habove

/-- **Storing a text** makes or changes something on its way only, and the text is there then. -/
theorem grows_store (h : t.store p text = .ok t') :
    (∃ place, t'.locate p = .ok place ∧ t.Grows (t.fresh p) [place] t') ∧
      t'.read p = .ok (bytesOf text) := by
  obtain ⟨t₁, hmake, hwrite⟩ := Except.bind_eq_ok.1 h
  have hmade := (grows_makeDirectories hmake).mono (fresh_parent_subset t p) (List.Subset.refl _)
  obtain ⟨hnull, place, hplace, hnone, rfl⟩ := write_eq_ok hwrite
  have hput : t₁.Grows [place] [place] (t₁.put place (.file (bytesOf text))) := by
    refine .put t₁ _ fun e he => ⟨List.mem_singleton.2 rfl, ?_⟩
    rcases e with bytes | _
    · rfl
    · exact absurd he hnone
  have hlocate := locate_mono hput.cwd (fun s hs => hput.directory hs) hplace
  have hne : place ≠ [] := by
    rintro rfl
    exact hnone rfl
  refine ⟨⟨place, hlocate, ?_⟩, read_of_locate hnull hlocate (at?_put t₁ _ hne)⟩
  have hin := hmade.fresh_subset p (fresh_of_at?_eq_none hplace hnone)
  exact (hmade.mono (List.Subset.refl _) (List.nil_subset _)).trans
    (hput.mono (List.cons_subset.2 ⟨hin, List.nil_subset _⟩) (List.Subset.refl _))

/-- **Storing texts** makes or changes something on their ways only, and writes at their ends. -/
theorem grows_storeAll {files : List (Path × String)} (h : t.storeAll files = .ok t') :
    ∃ written, t.Grows (files.flatMap fun f => t.fresh f.1) written t' ∧
      ∀ s ∈ written, ∃ f ∈ files, t'.locate f.1 = .ok s := by
  induction files generalizing t with
  | nil =>
    obtain rfl := Except.ok.inj h
    exact ⟨[], .refl _ _ t, by simp⟩
  | cons f files ih =>
    rw [storeAll, List.foldlM_cons] at h
    obtain ⟨t₁, hfirst, hrest⟩ := Except.bind_eq_ok.1 h
    obtain ⟨⟨place, hplace, hone⟩, -⟩ := grows_store hfirst
    obtain ⟨written, hall, hwritten⟩ := ih hrest
    have hmade : (files.flatMap fun f => t₁.fresh f.1) ⊆ files.flatMap fun f => t.fresh f.1 := by
      intro s hs
      obtain ⟨g, hg, hs⟩ := List.mem_flatMap.1 hs
      exact List.mem_flatMap.2 ⟨g, hg, hone.fresh_subset _ hs⟩
    refine ⟨place :: written, ?_, fun s hs => ?_⟩
    · rw [List.flatMap_cons]
      exact (hone.mono (List.subset_append_left _ _)
        (List.cons_subset.2 ⟨List.mem_cons_self, List.nil_subset _⟩)).trans
          (hall.mono (List.Subset.trans hmade (List.subset_append_right _ _))
            (List.subset_cons_self _ _))
    · rcases List.mem_cons.1 hs with rfl | hs
      · exact ⟨f, List.mem_cons_self, locate_mono hall.cwd (fun _ => hall.directory) hplace⟩
      · obtain ⟨g, hg, hlocate⟩ := hwritten s hs
        exact ⟨g, List.mem_cons_of_mem _ hg, hlocate⟩

/-- **A stored text is there in the end** if none that is stored later goes to the same place. -/
theorem read_of_storeAll {front back : List (Path × String)}
    (h : t.storeAll (front ++ (p, text) :: back) = .ok t')
    (hback : ∀ f ∈ back, t'.locate f.1 ≠ t'.locate p) : t'.read p = .ok (bytesOf text) := by
  rw [storeAll, List.foldlM_append] at h
  obtain ⟨t₁, -, h⟩ := Except.bind_eq_ok.1 h
  rw [List.foldlM_cons] at h
  obtain ⟨t₂, hstore, h⟩ := Except.bind_eq_ok.1 h
  obtain ⟨-, hread⟩ := grows_store hstore
  obtain ⟨written, hgrows, hwritten⟩ := grows_storeAll h
  obtain ⟨hnull, place, hplace, hthere⟩ := locate_of_read hread
  have hlocate := locate_mono hgrows.cwd (fun _ => hgrows.directory) hplace
  refine read_of_locate hnull hlocate ?_
  rcases hgrows.stays place _ hthere with hstays | ⟨hin, -⟩
  · exact hstays
  · obtain ⟨f, hf, heq⟩ := hwritten place hin
    exact absurd (heq.trans hlocate.symm) (hback f hf)

end

/-! ### Reading again -/

/-- **A source stands apart** from places: its way avoids them, so do those of its directory and of
the catalogues in it, and none of the places would be a catalogue of it. -/
structure Apart (t : FileTree) (made : List (List String)) (config : Config) (file : Path) :
    Prop where
  /-- The source. -/
  source : ∀ s ∈ t.way file, s ∉ made
  /-- Its directory. -/
  directory : ∀ s ∈ t.way (config.directoryOf t.cwd file), s ∉ made
  /-- What lies in it. -/
  listed : ∀ place ∈ (t.locate (config.directoryOf t.cwd file)).toOption,
    ∀ s ∈ made, s.dropLast = place → ∀ name ∈ s.getLast?,
      Locale.ofFileName? (Path.ofString (config.sourceOf t.cwd file)).stem
      config.extension.string name
        = none
  /-- Its catalogues. -/
  catalogues : ∀ files ∈ t.matched? (config.directoryOf t.cwd file)
      (Path.ofString (config.sourceOf t.cwd file)).stem config.extension.string,
    ∀ f ∈ files, ∀ s ∈ t.way (.ofString ((config.directoryOf t.cwd file).entryText f.1)), s ∉ made

/-- What a partial map leaves out may be left out before. -/
theorem filterMap_filter_of_none {α β : Type} {f : α → Option β} {keep : α → Bool}
    {l : List α} (h : ∀ x ∈ l, keep x = false → f x = none) :
    (l.filter keep).filterMap f = l.filterMap f := by
  rw [List.filterMap_filter]
  refine List.filterMap_congr fun x hx => ?_
  split
  · rfl
  · rename_i hkeep
    exact (h x hx (by simpa using hkeep)).symm

/-- What matches is told by the names that do, in whatever order they come. -/
theorem matching_congr {base extension : String} {names names' : List String}
    (h : (names'.filter fun name => (Locale.ofFileName? base extension name).isSome).Perm
      (names.filter fun name => (Locale.ofFileName? base extension name).isSome)) :
    CatalogueSource.matching base extension names'
      = CatalogueSource.matching base extension names := by
  have hsame : (names'.mergeSort fun a b => !(b < a)).filter
      (fun name => (Locale.ofFileName? base extension name).isSome)
      = (names.mergeSort fun a b => !(b < a)).filter
        fun name => (Locale.ofFileName? base extension name).isSome := by
    refine List.Perm.eq_of_pairwise (fun a b _ _ hab hba => String.le_antisymm hab hba)
      ((CatalogueSource.pairwise_mergeSort names').filter _)
      ((CatalogueSource.pairwise_mergeSort names).filter _) ?_
    refine ((List.mergeSort_perm names' _).filter _).trans (h.trans ?_)
    exact ((List.mergeSort_perm names _).filter _).symm
  have hnone : ∀ l : List String, ∀ name ∈ l,
      (Locale.ofFileName? base extension name).isSome = false →
      ((Locale.ofFileName? base extension name).map fun locale => (name, Text.lower locale))
        = none := fun l name _ h => by
    rw [Option.map_eq_none_iff]
    simpa using h
  rw [CatalogueSource.matching, CatalogueSource.matching,
    ← filterMap_filter_of_none (hnone _), hsame, filterMap_filter_of_none (hnone _)]

/-- The names of the files that lie at a place. -/
def listed (t : FileTree) (place : List String) : List String :=
  t.entries.filterMap fun (names, entry) =>
    if entry.isFile && names.dropLast = place then names.getLast? else none

/-- A directory is listed if its path leads to a directory. -/
theorem filesIn_eq_ok {t : FileTree} {p : Path} {names : List String} :
    t.filesIn p = .ok names ↔ p.hasNull = false ∧ ∃ place, t.locate p = .ok place ∧
      t.at? place = some .directory ∧ names = t.listed place := by
  constructor
  · rintro h
    obtain ⟨hnull, h⟩ := naming_eq_ok h
    obtain ⟨place, hplace, h⟩ := Except.bind_eq_ok.1 h
    refine ⟨hnull, place, hplace, ?_⟩
    split at h
    · cases h
    · cases h
    · rename_i hthere
      exact ⟨hthere, (Except.ok.inj h).symm⟩
  · rintro ⟨hnull, place, hplace, hthere, rfl⟩
    rw [filesIn, naming, hnull, hplace]
    simp only [bind, Except.bind, hthere]
    rfl

end FileTree

end MessageBinder
