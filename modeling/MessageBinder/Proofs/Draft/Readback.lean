import MessageBinder.Compiler
import MessageBinder.Proofs.Draft.Injection
import MessageBinder.Proofs.Draft.Legible
import MessageBinder.Proofs.Printing.Data

/-!
# Reading what was compiled

A compiled module is a module again: its text can be read, and what is read is the module that was
written, but for what the printer does not keep (`MessageBinder.Compiler.parse_text_of_compile`).
The one statement of which this is not said is the first one, if messages were put in: it was
written as a name and a text. It is read as a constant of that name, and its value is an object that
tells, as data, the record: the mark, the path of the source, and what was collected for it, entry
by entry.

Of the messages nothing is assumed but that they hold no surrogates, as the source must hold none:
no text of characters could be written otherwise. A loader may give any texts under any keys, those
included that are written like code or hold quotes, backslashes and line ends.
-/

namespace MessageBinder

/-! ### Records without numbers -/

theorem Table.forall_mem_insert {α : Type} {P : CodeText × α → Prop} {key : CodeText} {value : α}
    {t : Table α} (h : ∀ e ∈ t, P e) (hnew : P (key, value)) : ∀ e ∈ insert key value t, P e := by
  induction t with
  | nil => exact List.forall_mem_singleton.2 hnew
  | cons e t ih =>
    obtain ⟨he, ht⟩ := List.forall_mem_cons.1 h
    rw [insert]
    split
    · exact List.forall_mem_cons.2 ⟨hnew, ht⟩
    · exact List.forall_mem_cons.2 ⟨he, ih ht⟩

/-- No key and no message of a catalogue holds a surrogate. -/
def Catalogue.HoldsTexts (c : Catalogue) : Prop := ∀ e ∈ c, e.1.IsText ∧ e.2.IsText

/-- **No message that a loader gives holds a surrogate**, and no key does. -/
def Loader.GivesTexts (loader : Loader) : Prop := ∀ path c, loader path = .ok c → c.HoldsTexts

variable {texts : Bool}

theorem Catalogue.numberFree_toJson {c : Catalogue} (h : texts → c.HoldsTexts) :
    c.toJson.NumberFree texts := by
  refine .object (fun e he ht => ?_) fun e he => ?_
  all_goals obtain ⟨message, hmessage, rfl⟩ := List.mem_map.1 he
  · exact (h ht message hmessage).1
  · exact .string fun ht => (h ht message hmessage).2

/-- What a collection of messages looks like: locales with catalogues that hold no numbers. -/
def Table.HoldsMessages (texts : Bool) (collection : Table Json) : Prop :=
  ∀ e ∈ collection, e.1.IsText ∧ e.2.NumberFree texts

/-- A loader gives what it makes of the path. -/
theorem Loads.gives_load {loader : Loader} {path : String} {c : Catalogue}
    (h : (load loader path).Gives c) : loader path = .ok c := by
  obtain ⟨log, log', hrun⟩ := h
  exact (Prod.mk.inj ((ends_load loader path log).symm.trans hrun)).1

/-- What a loader gives is kept as texts. -/
theorem CatalogueSource.holdsMessages_of_loadAll {s : CatalogueSource} {directory : Path}
    (hloader : texts → s.loader.GivesTexts) {files : List (String × String)}
    {collection collection' : Table Json} (h : collection.HoldsMessages texts)
    (hgives : (s.loadAll directory files collection).Gives collection') :
    collection'.HoldsMessages texts := by
  induction files generalizing collection with
  | nil =>
    obtain rfl := Loads.gives_pure hgives
    exact h
  | cons file files ih =>
    obtain ⟨catalogue, hload, hrest⟩ := Loads.gives_bind hgives
    have hcatalogue : catalogue.toJson.NumberFree texts := Catalogue.numberFree_toJson fun ht =>
      hloader ht _ _ (Loads.gives_load hload)
    exact ih (Table.forall_mem_insert h ⟨CodeText.isText_ofString _, hcatalogue⟩) hrest

/-- The record of a source holds what was collected for it. -/
theorem CatalogueSource.exists_of_gives_record {s : CatalogueSource}
    (hloader : texts → s.loader.GivesTexts) {source : String} {record : Record}
    (h : (s.record source).Gives record) :
    ∃ collection : Table Json, record = ⟨source, .ofTable collection, true⟩ ∧
      collection.HoldsMessages texts := by
  obtain ⟨names, -, hrest⟩ := Loads.gives_bind h
  obtain ⟨collection, hall, hrest⟩ := Loads.gives_bind hrest
  obtain rfl := Loads.gives_pure hrest
  exact ⟨collection, rfl, holdsMessages_of_loadAll hloader (by simp [Table.HoldsMessages]) hall⟩

/-- What a collection may give it gives. -/
theorem CatalogueSource.run_record_of_gives {s : CatalogueSource} {source : String}
    {record : Record} (h : (s.record source).Gives record) :
    (s.record source).run.1 = .ok record := by
  obtain ⟨r, paths, hends, -⟩ := s.exists_ends_recordBy source
  obtain ⟨log, log', hrun⟩ := h
  obtain rfl : r = .ok record := (Prod.mk.inj ((hends log).symm.trans hrun)).1
  exact congrArg Prod.fst hends.run

theorem Record.toJson_ofTable (source : String) (collection : Table Json) :
    (⟨source, .ofTable collection, true⟩ : Record).toJson
      = .object [("isInjected", .bool true), ("sourceFilePath", .string source),
          ("keyValueObjectCollection", .object collection)] := by
  rw [toJson, Collection.fields_ofTable]

theorem Record.numberFree_toJson {source : String} {collection : Table Json}
    (h : collection.HoldsMessages texts) :
    (⟨source, .ofTable collection, true⟩ : Record).toJson.NumberFree texts := by
  rw [toJson_ofTable]
  have hcollection : (Json.object collection).NumberFree texts :=
    .object (fun e he _ => (h e he).1) fun e he => (h e he).2
  refine .object (by simp) (List.forall_mem_cons.2 ⟨.bool, List.forall_mem_cons.2 ⟨.string ?_, ?_⟩⟩)
  · exact fun _ => CodeText.isText_ofString _
  · exact List.forall_mem_singleton.2 hcollection

/-- The constant that holds the messages is printed as a text of characters if its literal is
one. -/
theorem Stmt.isText_text_messagesConstant {literal : CodeText} (h : literal.IsText) (name : String)
    (id : Nat) : ((Stmt.messagesConstant name literal id).text 0).IsText := by
  simpa [messagesConstant, constant, addedId, Stmt.text, Declaration.text, Declarator.texts,
    Declarator.text, Expr.text, commaSeparated] using h

/-- Only an object tells entries. -/
theorem Expr.exists_object_of_data? {e : Expr} {fields : List (CodeText × Json)}
    (h : e.data? = some (.object fields)) : ∃ ps o, e = .object ps o := by
  cases e with
  | object ps o => exact ⟨ps, o, rfl⟩
  | literal v raw o => cases v <;> cases h
  | array es o =>
    obtain ⟨items, -, hitems⟩ := Option.map_eq_some_iff.1 h
    cases hitems
  | _ => cases h

/-! ### Whole passes -/

/-- **A module reads as what a pass made**, up to places, the way in which strings were written, and
whether properties were written by their key alone. -/
structure BoundModule.ReadsAs (r : BoundModule) (catalogues : CatalogueSource) (source : String)
    (m' : Module) : Prop where
  /-- Where nothing was put in, all statements are those of the module. -/
  idle : r.injected = false → m'.plain false = r.draft.toModule.plain false
  /-- Where the messages were, the first statement is a constant with the name of the variable. Its
  value is an object, which tells the record that is collected for the source; and the statements
  behind it are those of the module behind its constant. -/
  busy : r.injected = true → ∃ name literal n stmts id ps o o' o'' stmts',
    ∃ collection : Table Json,
      r.variableName = some name ∧
      r.draft.toModule.body = Stmt.messagesConstant name literal n :: stmts ∧
      m'.body = .declaration (.variables .const [⟨id, some (.object ps o), o'⟩] o'') :: stmts' ∧
      id.name = name ∧ stmts'.map (Stmt.plain false) = stmts.map (Stmt.plain false) ∧
      (catalogues.record source).run.1 = .ok ⟨source, .ofTable collection, true⟩ ∧
      (Expr.object ps o).data? = some (.object [("isInjected", .bool true),
        ("sourceFilePath", .string source), ("keyValueObjectCollection", .object collection)])

namespace Module

variable {text : String} {filename : Option String} {base : Nat} {m : Module}
  {targets : List Target} {catalogues : CatalogueSource} {source : String} {r : BoundModule}

/-- **What a pass makes of a module that was read can be read**, and it is a text of characters if
neither the module nor what the loader gives holds a surrogate. -/
theorem reads_bindMessages [CharacterNames] {texts : Bool}
    (hparse : parse text filename base = .ok m) (hbody : PrintableBody true texts m.body)
    (hloader : texts → catalogues.loader.GivesTexts)
    (hrun : (m.bindMessages targets catalogues (some source)).run.1 = .ok r)
    (filename' : Option String) (base' : Nat) :
    (∃ m', parse (String.ofList r.draft.toModule.text.written) filename' base' = .ok m' ∧
      r.ReadsAs catalogues source m') ∧ (texts → r.draft.toModule.text.IsText) := by
  obtain ⟨gate, b₁, b₂, hgate, hstmts, hclose, hdraft, hvariable⟩ := gives_bindMessages hrun
  have hlegible := (Bench.legible_ofModule hbody hgate).bindStmts hstmts
  have htext : texts → ∀ s ∈ b₁.draft.sequence.body, (s.text 0).IsText := by
    rintro rfl s hs
    exact (hlegible.body s hs).isText_text 0
  rcases Gate.gives_close_record hclose with ⟨-, hinjected, rfl⟩ |
    ⟨hasked, hinjected, record, hrecord, hlast, hname⟩
  · rw [hdraft]
    obtain ⟨m', hm', hplain⟩ := parse_written (m := b₂.draft.toModule) hlegible.body filename' base'
    refine ⟨⟨m', hm', fun _ => hdraft ▸ hplain, fun htrue => ?_⟩, fun ht => isText_text (htext ht)⟩
    rw [hinjected] at htrue
    cases htrue
  -- the gate was asked, so the variable has a name, and the record is that of the source
  obtain ⟨source', hsource, rfl⟩ := Gate.eq_of_ofPath hgate
  obtain rfl := Option.some.inj hsource
  have hm := numbered_of_parse hparse
  have hextends := (Bench.extends_ofModule hm hgate).bindStmts hstmts
  obtain ⟨name, hfixed⟩ :=
    Option.ne_none_iff_exists'.1 fun hnone => hasked (hextends.requests.2 hnone)
  rw [(tallies_of_bindStmts hm hstmts).source] at hrecord
  obtain ⟨collection, rfl, hmessages⟩ := CatalogueSource.exists_of_gives_record hloader hrecord
  have hfree : (⟨source, .ofTable collection, true⟩ : Record).toJson.NumberFree texts :=
    Record.numberFree_toJson hmessages
  have hplainName : IsPlainName name := hlegible.variableName name hfixed
  rw [hfixed, Option.getD_some] at hlast
  have hfront : r.draft.toModule.body = Stmt.messagesConstant name
      (Record.literal ⟨source, .ofTable collection, true⟩) b₁.draft.next ::
        b₁.draft.sequence.body := by
    rw [hdraft, hlast]
    rfl
  have hopens : Opens ((Stmt.messagesConstant name
      (Record.literal ⟨source, .ofTable collection, true⟩) b₁.draft.next).text 0).written := by
    rw [Stmt.messagesConstant, Stmt.constant, Stmt.text]
    exact Declaration.opens_text _ 0
  obtain ⟨m', stmt', stmts', hm', hbody', ⟨id, e, o, o', rfl, hid, hdata⟩, hplain⟩ :=
    parse_written_cons hfront
      (fun last rest hlast _ => writes_messagesConstant hplainName.isBindingName hfree.readable
        b₁.draft.next hlast)
      hopens hlegible.body filename' base'
  rw [Record.toJson_ofTable] at hdata
  obtain ⟨ps, o'', rfl⟩ := Expr.exists_object_of_data? hdata
  refine ⟨⟨m', hm', fun hfalse => ?_, fun _ => ?_⟩, ?_⟩
  · rw [hinjected] at hfalse
    cases hfalse
  · exact ⟨name, _, _, _, id, ps, o'', o, o', stmts', collection,
      hvariable.trans (hname.trans hfixed), hfront, hbody', hid, hplain,
      CatalogueSource.run_record_of_gives hrecord, hdata⟩
  · rintro rfl
    refine isText_text (hfront ▸ List.forall_mem_cons.2 ⟨?_, htext rfl⟩)
    exact Stmt.isText_text_messagesConstant hfree.isText_render name _

end Module

namespace Compiler

variable {c : Compiler} {text : String} {file : Option String} {r : Compiled}

/-- A text that is compiled is a module, and its targets are bound. -/
theorem compile_eq_ok [CharacterNames] (h : c.compile text file = .ok r) :
    ∃ m, Module.parse text file 0 = .ok m ∧
      (m.bindMessages c.targets c.catalogues (some r.source)).run.1 = .ok r.bound := by
  rw [compile] at h
  cases hparse : Module.parse text file 0 with
  | error e =>
    rw [hparse] at h
    cases h
  | ok m =>
    rw [hparse] at h
    refine ⟨m, rfl, ?_⟩
    replace h : ((c.transform m file).run.1.mapError CompileError.failure) = .ok r := h
    have hstart := Loads.ends_ofExcept ((c.sourcePath file).mapError Failure.config)
    cases hpath : c.sourcePath file with
    | error e =>
      rw [hpath] at hstart
      rw [transform, hpath, (hstart.bind_error _).run] at h
      cases h
    | ok source =>
      rw [hpath] at hstart
      -- what the pass loads is of no account here
      have hrun : (c.transform m file).run
          = ((m.bindMessages c.targets c.catalogues (some source)) >>= fun bound =>
              pure (⟨source, bound⟩ : Compiled)).run := by
        rw [transform, hpath, Loads.run, Loads.run_bind, hstart []]
        rfl
      rw [hrun, Loads.run, Loads.run_bind] at h
      cases hbind : StateT.run (ExceptT.run
          (m.bindMessages c.targets c.catalogues (some source))) [] with
      | mk bound paths =>
        rw [hbind] at h
        cases bound with
        | error e => cases h
        | ok bound =>
          obtain rfl := Except.ok.inj h
          exact congrArg Prod.fst hbind

/-- **A compiled module can be read**, and it reads as what the pass made, with the record of its
source. -/
theorem parse_text_of_compile [CharacterNames] (h : c.compile text file = .ok r)
    (htext : ∀ m, Module.parse text file 0 = .ok m → AreTexts m.nodes)
    (hloader : c.loader.GivesTexts) (filename : Option String) (base : Nat) :
    ∃ printed : String, r.module.text = printed ∧ ∃ m',
      Module.parse printed filename base = .ok m' ∧ r.bound.ReadsAs c.catalogues r.source m' := by
  obtain ⟨m, hparse, hrun⟩ := compile_eq_ok h
  have hbody := (htext m hparse).printableBody (Module.printable_of_parse hparse)
  obtain ⟨⟨m', hm', hreads⟩, hprinted⟩ :=
    Module.reads_bindMessages hparse hbody (fun _ => hloader) hrun filename base
  obtain ⟨printed, hprinted⟩ := hprinted rfl
  rw [hprinted, CodeText.written_ofString, String.ofList_toList] at hm'
  exact ⟨printed, hprinted, m', hm', hreads⟩

section

attribute [local instance] CharacterNames.nameless

/-- A message that holds a quote, a backslash and the end of a line is put into
`import { f } from "m"; f()`. -/
theorem parse_text_of_compile_quoted : ∃ (r : Compiled) (printed : String) (m' : Module),
    compile ⟨⟨[(["a.en.properties"], .file [])], ⟨.relative, []⟩⟩, [⟨"f", "m"⟩], "properties",
        fun _ => .ok [("k", "\"\\\n")], ⟨.relative, []⟩⟩
      "import { f } from \"m\"; f()" (some "a.js") = .ok r ∧
      (∀ m, Module.parse "import { f } from \"m\"; f()" (some "a.js") 0 = .ok m →
        AreTexts m.nodes) ∧
      Loader.GivesTexts (fun _ => .ok [("k", "\"\\\n")]) ∧
      r.bound.injected = true ∧ r.module.text = printed ∧ Module.parse printed none 0 = .ok m' ∧
      r.bound.ReadsAs
        (Compiler.catalogues ⟨⟨[(["a.en.properties"], .file [])], ⟨.relative, []⟩⟩,
          [⟨"f", "m"⟩], "properties", fun _ => .ok [("k", "\"\\\n")], ⟨.relative, []⟩⟩)
        r.source m' := by
  have hruns : ((compile ⟨⟨[(["a.en.properties"], .file [])], ⟨.relative, []⟩⟩, [⟨"f", "m"⟩],
      "properties", fun _ => .ok [("k", "\"\\\n")], ⟨.relative, []⟩⟩
      "import { f } from \"m\"; f()" (some "a.js")).toOption.filter
        fun r => r.bound.injected).isSome := by
    decide +kernel
  obtain ⟨r, hr⟩ := Option.isSome_iff_exists.1 hruns
  obtain ⟨hr, hinjected⟩ := Option.filter_eq_some_iff.1 hr
  have hcompile := Except.eq_ok_of_toOption hr
  have hall : (Module.parse "import { f } from \"m\"; f()" (some "a.js") 0).toOption.all
      fun m => AreTexts m.nodes := by
    decide +kernel
  have htext : ∀ m, Module.parse "import { f } from \"m\"; f()" (some "a.js") 0 = .ok m →
      AreTexts m.nodes := fun m hm => by
    rw [hm] at hall
    exact of_decide_eq_true hall
  have hloader : Loader.GivesTexts (fun _ => .ok [("k", "\"\\\n")]) := by
    rintro path c hc
    obtain rfl := Except.ok.inj hc
    exact List.forall_mem_singleton.2 ⟨CodeText.isText_ofString _, CodeText.isText_ofString _⟩
  obtain ⟨printed, hprinted, m', hm', hreads⟩ :=
    parse_text_of_compile hcompile htext hloader none 0
  exact ⟨r, printed, m', hcompile, htext, hloader, hinjected, hprinted, hm', hreads⟩

end

end Compiler

end MessageBinder
