import Mathlib.Data.List.TakeWhile
import MessageBinder.Proofs.Draft.Readback
import MessageBinder.Proofs.Json.RoundTrip

/-!
# Messages that are looked up

What the compiled module asks for at run time is what stood in the file when it was compiled. For
any listing of the directory of a source and any loader of texts, the literal that is put in is read
as a value whose messages for a locale are those of one file
(`MessageBinder.CatalogueSource.exists_record_answers`): among the files named after the source
whose locale agrees with the one asked for but for the case of its letters, the one with the
greatest name.

Between the file and the messages the locale is put in lower case twice, once on each side, and
files whose locales agree then overwrite each other in the order of their names; so what decides is
which one comes last (`MessageBinder.CatalogueSource.find?_foldl_insert`). A locale without files
has no messages, and neither has one whose last file is empty.
-/

namespace MessageBinder

/-! ### Names of catalogues -/

namespace Locale

/-- **A file is named after a source** with a locale: the base name, the locale, which is not empty
and made of letters, digits, underscores and hyphens, and the extension, with points in between. -/
structure Names (base extension locale name : String) : Prop where
  /-- The parts of the name. -/
  name_eq : name = base ++ "." ++ locale ++ "." ++ extension
  /-- The locale is not empty. -/
  nonempty : locale ≠ ""
  /-- The locale is made of such characters. -/
  chars : ∀ c ∈ locale.toList, isLocaleChar c

theorem after?_eq_some {ds cs rest : List Char} :
    after? ds cs = some rest ↔ cs = ds ++ rest := by
  induction ds generalizing cs with
  | nil => simp [after?, eq_comm]
  | cons d ds ih =>
    cases cs with
    | nil => simp [after?]
    | cons c cs =>
      rw [after?, List.cons_append, List.cons.injEq, ← ih, eq_comm (a := c)]
      split
      · rename_i h
        simp [h]
      · rename_i h
        simp [h]

/-- A locale ends at the first character that cannot stand in one. -/
theorem takeWhile_append_cons {locale : List Char} {c : Char}
    (hlocale : ∀ d ∈ locale, isLocaleChar d) (hc : isLocaleChar c = false) (rest : List Char) :
    (locale ++ c :: rest).takeWhile isLocaleChar = locale ∧
      (locale ++ c :: rest).dropWhile isLocaleChar = c :: rest := by
  rw [List.takeWhile_append_of_pos hlocale, List.dropWhile_append_of_pos hlocale]
  simp [hc]

/-- **The pattern of a source** admits the files that are named after it. One line break may follow
the name. -/
theorem ofFileName?_eq_some {base extension locale name : String} :
    ofFileName? base extension name = some locale ↔
      Names base extension locale name ∨ Names base (extension ++ "\n") locale name := by
  constructor
  · intro h
    obtain ⟨rest, hrest, h⟩ := Option.bind_eq_some_iff.1 h
    rw [after?_eq_some] at hrest
    simp only [Option.ite_none_right_eq_some, Option.some.injEq, Bool.and_eq_true,
      Bool.not_eq_true', isExtension, Bool.or_eq_true, decide_eq_true_eq] at h
    obtain ⟨⟨hlocale, hextension⟩, rfl⟩ := h
    -- The locale is all that can stand in one: a point cannot, so the extension is behind it.
    have hnames : ∀ tail : String, rest.dropWhile isLocaleChar = '.' :: tail.toList →
        Names base tail (String.ofList (rest.takeWhile isLocaleChar)) name := by
      intro tail hdrop
      have hsplit : rest = rest.takeWhile isLocaleChar ++ '.' :: tail.toList := by
        rw [← hdrop, List.takeWhile_append_dropWhile]
      refine ⟨String.toList_injective ?_, fun hempty => ?_, ?_⟩
      · refine (hrest.trans (congrArg (base.toList ++ ['.'] ++ ·) hsplit)).trans ?_
        simp
      · rw [← String.toList_inj, String.toList_ofList] at hempty
        rw [hempty] at hlocale
        cases hlocale
      · rw [String.toList_ofList]
        exact fun c hc => List.mem_takeWhile_imp hc
    refine hextension.imp (hnames extension) fun hbreak => hnames _ ?_
    rw [hbreak, String.toList_append]
    rfl
  · intro h
    obtain ⟨tail, htail, rfl, hnonempty, hchars⟩ : ∃ tail : String,
        isExtension extension.toList ('.' :: tail.toList) ∧ Names base tail locale name := by
      rcases h with h | h
      · exact ⟨extension, by simp [isExtension], h⟩
      · exact ⟨extension ++ "\n", by simp [isExtension], h⟩
    obtain ⟨htake, hdrop⟩ := takeWhile_append_cons hchars
      (by decide : isLocaleChar '.' = false) tail.toList
    have hafter : after? (base.toList ++ ['.']) (base ++ "." ++ locale ++ "." ++ tail).toList
        = some (locale.toList ++ '.' :: tail.toList) := by
      rw [after?_eq_some]
      simp
    rw [ofFileName?, hafter, Option.bind_eq_bind, Option.bind_some]
    simp only [htake, hdrop, htail]
    simp [hnonempty]

/-- Without line breaks the name is made of its parts alone. -/
theorem ofFileName?_eq_some_iff {base extension locale name : String}
    (hname : '\n' ∉ name.toList) :
    ofFileName? base extension name = some locale ↔ Names base extension locale name := by
  rw [ofFileName?_eq_some]
  refine or_iff_left fun hbreak => hname ?_
  rw [hbreak.name_eq]
  simp

end Locale

/-! ### The last of several files -/

namespace CatalogueSource

/-- **The last value that is written to a key counts**, and what was there before does if there is
none. -/
theorem find?_foldl_insert {α β : Type} (key : α → String) (value : α → β) (locale : String)
    (files : List α) (t : Table β) :
    (∃ front f back, files = front ++ f :: back ∧ key f = locale ∧ (∀ f' ∈ back, key f' ≠ locale) ∧
      Table.find? locale (files.foldl (fun t f => Table.insert (key f) (value f) t) t)
        = some (value f)) ∨
    ((∀ f ∈ files, key f ≠ locale) ∧
      Table.find? locale (files.foldl (fun t f => Table.insert (key f) (value f) t) t)
        = Table.find? locale t) := by
  -- The induction is from the front, on whatever the files before have written.
  induction files generalizing t with
  | nil => exact Or.inr ⟨by simp, rfl⟩
  | cons f files ih =>
    rw [List.foldl_cons]
    rcases ih (Table.insert (key f) (value f) t) with
      ⟨front, f', back, rfl, hkey, hback, hfind⟩ | ⟨hnone, hfind⟩
    · exact Or.inl ⟨f :: front, f', back, rfl, hkey, hback, hfind⟩
    · by_cases hkey : key f = locale
      · refine Or.inl ⟨[], f, files, rfl, hkey, hnone, ?_⟩
        rw [hfind, ← hkey, Table.find?_insert_self]
      · refine Or.inr ⟨List.forall_mem_cons.2 ⟨hkey, hnone⟩, ?_⟩
        rw [hfind, Table.find?_insert_of_ne fun h => hkey (CodeText.ofString_inj.1 h).symm]

/-- What matches is in the order of the names. -/
theorem pairwise_matching (base extension : String) (names : List String) :
    (matching base extension names).Pairwise fun f f' => f.1 ≤ f'.1 := by
  refine (pairwise_mergeSort names).filterMap _ fun name name' hle f hf f' hf' => ?_
  obtain ⟨locale, -, rfl⟩ := Option.map_eq_some_iff.1 hf
  obtain ⟨locale', -, rfl⟩ := Option.map_eq_some_iff.1 hf'
  exact hle

/-- A file matches with the locale that the pattern finds in its name, in lower case. -/
theorem mem_matching {base extension : String} {names : List String} {f : String × String} :
    f ∈ matching base extension names ↔ f.1 ∈ names ∧
      ∃ locale, Locale.ofFileName? base extension f.1 = some locale ∧ f.2 = Text.lower locale := by
  rw [matching, List.mem_filterMap]
  simp only [List.mem_mergeSort, Option.map_eq_some_iff]
  constructor
  · rintro ⟨name, hname, locale, hlocale, rfl⟩
    exact ⟨hname, locale, hlocale, rfl⟩
  · rintro ⟨hname, locale, hlocale, hlower⟩
    exact ⟨f.1, hname, locale, hlocale, by rw [← hlower]⟩

/-- A file matches with a locale if it is named after the source with it. -/
theorem mem_matching_iff {base extension : String} {names : List String}
    (hbreaks : ∀ name ∈ names, '\n' ∉ name.toList) {f : String × String} :
    f ∈ matching base extension names ↔
      f.1 ∈ names ∧ ∃ locale, Locale.Names base extension locale f.1 ∧ f.2 = Text.lower locale := by
  rw [mem_matching]
  refine and_congr_right fun hname => exists_congr fun locale => and_congr_left fun _ => ?_
  exact Locale.ofFileName?_eq_some_iff (hbreaks f.1 hname)

/-- **Loading** files that can all be loaded gives their messages under their locales, with the
loader asked for each of them in turn. -/
theorem ends_loadAll_of_forall {s : CatalogueSource} {directory : Path}
    {content : String → Catalogue} {files : List (String × String)} (collection : Table Json)
    (h : ∀ f ∈ files, s.loader (directory.entryText f.1) = .ok (content f.1)) :
    (s.loadAll directory files collection).Ends (.ok (files.foldl
        (fun t f => Table.insert f.2 (content f.1).toJson t) collection))
      (files.map fun f => directory.entryText f.1) := by
  induction files generalizing collection with
  | nil => exact Loads.ends_pure collection
  | cons f files ih =>
    rw [List.forall_mem_cons] at h
    have hload := Loads.ends_load s.loader (directory.entryText f.1)
    rw [h.1] at hload
    exact hload.bind (ih (Table.insert f.2 (content f.1).toJson collection) h.2)

end CatalogueSource

/-! ### Records that are read back -/

theorem Table.nodup_keys_insert {α : Type} {key : CodeText} {value : α} {t : Table α}
    (h : (keys t).Nodup) : (keys (insert key value t)).Nodup := by
  by_cases hkey : key ∈ keys t
  · rwa [keys_insert_of_mem hkey]
  · rw [keys_insert_of_not_mem hkey]
    exact List.nodup_append.2 ⟨h, List.nodup_singleton key, fun a ha b hb hab =>
      hkey (List.mem_singleton.1 hb ▸ hab ▸ ha)⟩

variable {limit : Option Nat}

/-- Messages without surrogates whose keys differ are read back as they are. -/
theorem Catalogue.exact_toJson {c : Catalogue} (h : (Table.keys c).Nodup) (htexts : c.HoldsTexts) :
    c.toJson.Exact limit := by
  refine .object ?_ (fun e he => ?_) fun e he => ?_
  · rwa [Table.keys, List.map_map]
  all_goals obtain ⟨message, hmessage, rfl⟩ := List.mem_map.1 he
  · exact (htexts message hmessage).1
  · exact .string (htexts message hmessage).2

theorem Catalogue.isBlank_toJson (c : Catalogue) :
    (if c.toJson.isBlank then Json.object [] else c.toJson) = c.toJson := by
  cases c with
  | nil => rfl
  | cons e c => rfl

/-- The collection of a source is read back. -/
theorem Table.exact_foldl_insert {α : Type} (key : α → String) {value : α → Json}
    {files : List α} {t : Table Json} (h : ∀ f ∈ files, (value f).Exact limit)
    (hkeys : (keys t).Nodup) (ht : ∀ e ∈ t, e.1.IsText ∧ e.2.Exact limit) :
    (Json.object (files.foldl (fun t f => insert (key f) (value f) t) t)).Exact limit := by
  induction files generalizing t with
  | nil => exact .object hkeys (fun e he => (ht e he).1) fun e he => (ht e he).2
  | cons f files ih =>
    rw [List.forall_mem_cons] at h
    exact ih h.2 (nodup_keys_insert hkeys)
      (forall_mem_insert ht ⟨CodeText.isText_ofString _, h.1⟩)

/-- The literal of a record is a text of characters, and is read as the value that it is written
as. -/
theorem Record.exists_parse_literal (source : String) {collection : Table Json}
    (h : (Json.object collection).Exact limit) :
    ∃ text : String, (⟨source, .ofTable collection, true⟩ : Record).literal = text ∧
      Json.parse limit text = .ok (⟨source, .ofTable collection, true⟩ : Record).toJson := by
  have hexact : (⟨source, .ofTable collection, true⟩ : Record).toJson.Exact limit := by
    rw [toJson_ofTable]
    refine .object (by simp [Table.keys]) (by simp) ?_
    exact List.forall_mem_cons.2 ⟨.bool, List.forall_mem_cons.2
      ⟨.string (CodeText.isText_ofString _), List.forall_mem_singleton.2 h⟩⟩
  obtain ⟨text, htext, hparse⟩ := hexact.exists_parse_render .unicode
  exact ⟨text, htext, String.append_empty (s := text) ▸ hparse "" rfl⟩

/-- The messages of a locale that a collection has are those that it has been given. -/
theorem Record.messages_ofTable (source : String) {collection : Table Json} {locale : String}
    {c : Catalogue} (h : Table.find? (Text.lower locale) collection = some c.toJson ∨
      Table.find? (Text.lower locale) collection = none ∧ c = []) :
    (⟨source, .ofTable collection, true⟩ : Record).messages locale = .ok c.toJson := by
  rw [messages, if_pos rfl, Collection.find?_ofTable]
  rcases h with h | ⟨h, rfl⟩
  · rw [h]
    exact congrArg Except.ok c.isBlank_toJson
  · rw [h]
    rfl

/-- The record of a collection answers for the value that it is written as. -/
theorem Record.messages_toJson (source : String) (collection : Table Json) (locale : String) :
    Injected.messages locale (.value (⟨source, .ofTable collection, true⟩ : Record).toJson)
      = (⟨source, .ofTable collection, true⟩ : Record).messages locale := by
  rw [toJson_ofTable]
  cases collection with
  | nil => rfl
  | cons e collection => rfl

/-! ### Messages of a locale -/

namespace CatalogueSource

/-- **The messages of a locale** among the files beside a source: those of the file with the
greatest name among the ones that are named after the source with that locale, but for the case of
its letters, and none if there is no such file. -/
inductive Answers (s : CatalogueSource) (source : String) (names : List String) (locale : String) :
    Catalogue → Prop
  /-- The file with the greatest name has the messages. -/
  | found {name own : String} {c : Catalogue} (hname : name ∈ names)
      (hnamed : Locale.Names (Path.ofString source).stem s.extension own name)
      (hlocale : Text.lower own = Text.lower locale)
      (hgreatest : ∀ name' ∈ names, ∀ own',
        Locale.Names (Path.ofString source).stem s.extension own' name' →
          Text.lower own' = Text.lower locale → name' ≤ name)
      (hload : s.loader ((s.directory source).entryText name) = .ok c) :
      Answers s source names locale c
  /-- There is no such file. -/
  | missing (hnone : ∀ name ∈ names, ∀ own,
      Locale.Names (Path.ofString source).stem s.extension own name →
        Text.lower own ≠ Text.lower locale) :
      Answers s source names locale []

variable {s : CatalogueSource} {source : String} {names : List String}

/-- **Messages are looked up as they were loaded**: if every file that is named after the source can
be loaded and gives no surrogates, the record of the source is written as a literal that is read as
a value, and for every locale the value, the accessor bound to it and the record itself have the
messages of the last file of that locale. -/
theorem exists_record_answers (hfiles : s.tree.filesIn (s.directory source) = .ok names)
    (hbreaks : ∀ name ∈ names, '\n' ∉ name.toList)
    (hloads : ∀ name ∈ names, ∀ own,
      Locale.Names (Path.ofString source).stem s.extension own name →
        ∃ c, s.loader ((s.directory source).entryText name) = .ok c ∧ (Table.keys c).Nodup ∧
          c.HoldsTexts) :
    ∃ r, ∃ text : String, ∃ j, (s.record source).run.1 = .ok r ∧ r.literal = text ∧
      Json.parse limit text = .ok j ∧ ∀ locale, ∃ c, s.Answers source names locale c ∧
        Injected.messages locale (.value j) = .ok c.toJson ∧
        (Injected.value j).bind locale = .ok c.toJson ∧
        r.messages locale = .ok c.toJson := by
  let content (name : String) : Catalogue :=
    (s.loader ((s.directory source).entryText name)).toOption.getD []
  have hcontent : ∀ f ∈ matching (Path.ofString source).stem s.extension names,
      s.loader ((s.directory source).entryText f.1) = .ok (content f.1) ∧
        (Table.keys (content f.1)).Nodup ∧ (content f.1).HoldsTexts := by
    intro f hf
    obtain ⟨hname, own, hnamed, -⟩ := (mem_matching_iff hbreaks).1 hf
    obtain ⟨c, hc, hmessages⟩ := hloads f.1 hname own hnamed
    have hsame : content f.1 = c := by
      simp only [content, hc]
      rfl
    exact hsame ▸ ⟨hc, hmessages⟩
  have hall := ends_loadAll_of_forall [] fun f hf => (hcontent f hf).1
  have hscan : (s.scan (s.directory source)).Ends (.ok names) [] := by
    rw [scan, hfiles]
    exact Loads.ends_pure names
  have hrecord := ends_recordBy hscan hall
  rw [← record_eq] at hrecord
  have hexact : (Json.object ((matching (Path.ofString source).stem s.extension names).foldl
      (fun t f => Table.insert f.2 (content f.1).toJson t) [])).Exact limit :=
    Table.exact_foldl_insert Prod.snd
      (fun f hf => Catalogue.exact_toJson (hcontent f hf).2.1 (hcontent f hf).2.2) List.nodup_nil
      (by simp)
  obtain ⟨text, htext, hparse⟩ := Record.exists_parse_literal source hexact
  refine ⟨_, text, _, congrArg Prod.fst hrecord.run, htext, hparse, fun locale => ?_⟩
  rw [Injected.bind, Record.messages_toJson]
  simp only [and_self]
  rcases find?_foldl_insert Prod.snd (fun f => (content f.1).toJson) (Text.lower locale)
    (matching (Path.ofString source).stem s.extension names) [] with
    ⟨front, f, back, hsplit, hkey, hback, hfind⟩ | ⟨hnone, hfind⟩
  · -- a file of the locale that comes later in the order of names would have overwritten it
    have hmem : f ∈ matching (Path.ofString source).stem s.extension names := by
      rw [hsplit]
      exact List.mem_append_right _ List.mem_cons_self
    obtain ⟨hname, own, hnamed, hown⟩ := (mem_matching_iff hbreaks).1 hmem
    refine ⟨content f.1, .found hname hnamed (hown.symm.trans hkey) ?_ (hcontent f hmem).1,
      Record.messages_ofTable source (Or.inl hfind)⟩
    intro name' hname' own' hnamed' hown'
    have hmem' : (name', Text.lower own') ∈
        matching (Path.ofString source).stem s.extension names :=
      (mem_matching_iff hbreaks).2 ⟨hname', own', hnamed', rfl⟩
    have hsorted := pairwise_matching (Path.ofString source).stem s.extension names
    rw [hsplit] at hmem' hsorted
    rcases List.mem_append.1 hmem' with hfront | hrest
    · exact (List.pairwise_append.1 hsorted).2.2 _ hfront f List.mem_cons_self
    · rcases List.mem_cons.1 hrest with rfl | hlater
      · exact String.le_refl _
      · exact absurd hown' (hback _ hlater)
  · refine ⟨[], .missing fun name hname own hnamed hown => ?_,
      Record.messages_ofTable source (Or.inr ⟨hfind, rfl⟩)⟩
    exact hnone (name, Text.lower own) ((mem_matching_iff hbreaks).2 ⟨hname, own, hnamed, rfl⟩) hown

/-- Beside `Base.ts` lie two catalogues of one locale, and one that is named after another
source. -/
def sharedLocale : CatalogueSource :=
  ⟨⟨[(["Base.en.p"], .file []), (["Base.EN.p"], .file []), (["Other.de.p"], .file [])],
    ⟨.slash, []⟩⟩, "p", fun path => .ok [("path", path)], none⟩

/-- There the messages of every locale are found. -/
theorem exists_record_answers_sharedLocale :
    ∃ r, ∃ text : String, ∃ j, (sharedLocale.record "/Base.ts").run.1 = .ok r ∧ r.literal = text ∧
      Json.parse (some Text.maxDigits) text = .ok j ∧ ∀ locale, ∃ c,
        sharedLocale.Answers "/Base.ts" ["Base.en.p", "Base.EN.p", "Other.de.p"] locale c ∧
        Injected.messages locale (.value j) = .ok c.toJson ∧
        (Injected.value j).bind locale = .ok c.toJson ∧
        r.messages locale = .ok c.toJson := by
  have hfiles : (sharedLocale.tree.filesIn (sharedLocale.directory "/Base.ts")).toOption
      = some ["Base.en.p", "Base.EN.p", "Other.de.p"] := by
    decide +kernel
  refine exists_record_answers (Except.eq_ok_of_toOption hfiles) (by decide +kernel) ?_
  exact fun name _ _ _ => ⟨_, rfl, List.nodup_singleton _, by simp [Catalogue.HoldsTexts]⟩

end CatalogueSource

end MessageBinder
