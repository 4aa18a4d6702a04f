import Mathlib.Data.List.Perm.Basic
import MessageBinder.Proofs.Draft.Filling

/-!
# What a module exports

Other modules see a module through its exports: names in lists, exported declarations, the default
export, and names or whole modules that it passes on (`MessageBinder.Export`). A pass edits them in
two ways. Uses are renamed, also those in lists of exports, and names that it takes from a re-export
come back as exports of constants.

What others see stays as it is: the pass exports under the same names, as often, and what stands
behind a name is what stood there, or the same function bound to the messages
(`MessageBinder.Module.Republished`).
-/

namespace MessageBinder

/-! ### Exports -/

/-- One export of a module. -/
inductive Export where
  /-- What an identifier means, under a name. -/
  | listed (name : String) (id : Identifier)
  /-- An export of another module, under a name. -/
  | passed (name : String) (function : String) (source : CodeText)
  /-- What a declaration declares. -/
  | declared (id : Identifier) (declaration : Declaration)
  /-- A value, as the default export. -/
  | default (value : Expr)
  /-- All exports of another module. -/
  | all (source : CodeText)

namespace Export

/-- How others see an export: under a name, or as all exports of a module. -/
inductive Label where
  /-- A name. -/
  | name (n : String)
  /-- All exports of a module. -/
  | all (source : CodeText)
deriving DecidableEq

/-- How others see an export. -/
def label : Export → Label
  | .listed n _ | .passed n _ _ => .name n
  | .declared id _ => .name id.name
  | .default _ => .name "default"
  | .all source => .all source

end Export

/-- The identifiers that a declaration declares. -/
def Declaration.declaredIds : Declaration → List Identifier
  | .variables _ declarators _ => declarators.map Declarator.id
  | .function name _ _ _ => [name]

/-- The export of a name in a list, of this module or of the source if one is given. -/
def ExportSpecifier.export (source : Option CodeText) (s : ExportSpecifier) : Export :=
  match source with
  | none => .listed s.exported s.source
  | some source => .passed s.exported s.source.name source

/-- The exports of a statement. -/
def Stmt.exports : Stmt → List Export
  | .exportNamed specifiers source _ => specifiers.map (ExportSpecifier.export source)
  | .exportAll source _ => [.all source]
  | .exportDecl d _ => d.declaredIds.map fun id => .declared id d
  | .exportDefault value _ => [.default value]
  | _ => []

/-- The exports of a module: those of its own statements. -/
def Module.exports (m : Module) : List Export := m.body.flatMap Stmt.exports

/-! ### Exports before and after -/

namespace Module

/-- **A use is bound**: it means a constant that binds what an identifier declares to the messages,
which are in front. -/
def Bound (m : Module) (u id : Identifier) : Prop :=
  ∃ name function messages n literal k body,
    m.body = .messagesConstant messages literal k :: body ∧
    .boundConstant name function messages n ∈ body ∧
    m.declarer? u.origin.id = some (Stmt.addedId name (n + 1)) ∧
    m.declarer? (Stmt.addedId function (n + 2)).origin.id = some id ∧
    m.declarer? (Stmt.addedId messages (n + 3)).origin.id = some (Stmt.addedId messages (k + 1))

/-- **A use is carried over**: if it meant a specifier that a target matches it is bound to that,
and else it is what it was and means what it meant. -/
def CarriesUse (m : Module) (targets : List Target) (m' : Module) (u u' : Identifier) : Prop :=
  u' ∈ m'.uses ∧
    ((∃ s ∈ Target.allSpecifiers targets m.body,
        m.declarer? u.origin.id = some s.binding ∧ m'.Bound u' s.binding) ∨
      ((∀ s ∈ Target.allSpecifiers targets m.body, m.declarer? u.origin.id ≠ some s.binding) ∧
        u' = u ∧ m'.declarer? u.origin.id = m.declarer? u.origin.id))

/-- **An export is carried over** by a replacement of uses. -/
inductive Carries (m : Module) (targets : List Target) (f : Identifier → Identifier) (m' : Module) :
    Export → Export → Prop where
  /-- What was exported by a use is exported by the use in its place. -/
  | listed (name : String) {u : Identifier} (huse : m.CarriesUse targets m' u (f u)) :
    Carries m targets f m' (.listed name u) (.listed name (f u))
  /-- What no target matches is passed on. -/
  | passed (name : String) {function : String} {source : CodeText}
    (hnone : ⟨function, source⟩ ∉ targets) :
    Carries m targets f m' (.passed name function source) (.passed name function source)
  /-- What a target matches is imported, bound, and exported under the same name. -/
  | rehomed (name : String) {function : String} {source : CodeText}
    (htarget : ⟨function, source⟩ ∈ targets) {imported u : Identifier} {o o' : Origin}
    (huse : u ∈ m'.uses)
    (himport : .importDecl [.named function imported o] source o' ∈ m'.body)
    (hbound : m'.Bound u imported) :
    Carries m targets f m' (.passed name function source) (.listed name u)
  /-- What is declared is declared with uses replaced. -/
  | declared (id : Identifier) (d : Declaration) :
    Carries m targets f m' (.declared id d) (.declared id (d.mapIds f))
  /-- The default export has uses replaced. -/
  | default (value : Expr) : Carries m targets f m' (.default value) (.default (value.mapIds f))
  /-- What is passed on as a whole is passed on. -/
  | all (source : CodeText) : Carries m targets f m' (.all source) (.all source)

/-- **A module is republished** as another one if others see the same and each export is carried
over, by one replacement that carries all uses over. -/
structure Republished (m : Module) (targets : List Target) (f : Identifier → Identifier)
    (m' : Module) : Prop where
  /-- Others see the same. -/
  labels : (m.exports.map Export.label).Perm (m'.exports.map Export.label)
  /-- Exports are carried over one by one. -/
  exports : ∃ es, es.Perm m'.exports ∧ List.Forall₂ (m.Carries targets f m') m.exports es
  /-- Only uses are replaced, each where it stands. -/
  renames : m.Renames f
  /-- Uses are carried over. -/
  uses : ∀ u ∈ m.uses, m.CarriesUse targets m' u (f u)

/-- What is carried over looks the same. -/
theorem Carries.label_eq {m m' : Module} {targets : List Target} {f : Identifier → Identifier}
    {e e' : Export} (h : m.Carries targets f m' e e') : e.label = e'.label := by
  cases h <;> rfl

end Module

/-- An identifier that declares a name is left alone. -/
theorem Module.Renames.eq_of_binder {m : Module} {f : Identifier → Identifier} (h : m.Renames f)
    (hm : m.Numbered) {id : Identifier} (hid : id ∈ m.binders) : f id = id := by
  have hnodup := Stmt.nodup_uses_append_binders hm.distinct.identifiers
  rw [Identifier.numbers, List.map_append] at hnodup
  refine h.others id (Stmt.uses_append_binders_subset m.body (List.mem_append_right _ hid)) ?_
  exact fun huse => (List.nodup_append'.1 hnodup).2.2 huse (List.mem_map_of_mem hid)

theorem Declarator.map_id_subset_binders (declarators : List Declarator) :
    declarators.map Declarator.id ⊆ Declarator.bindersList declarators := by
  induction declarators with
  | nil => exact List.nil_subset _
  | cons d ds ih =>
    obtain ⟨id, _ | e, _⟩ := d
    · exact List.cons_subset_cons id ih
    · exact List.cons_subset_cons id (List.subset_append_of_subset_right e.binders ih)

theorem Declaration.declaredIds_subset (d : Declaration) : d.declaredIds ⊆ d.binders := by
  cases d with
  | «variables» _ ds _ => exact Declarator.map_id_subset_binders ds
  | function name params body _ => exact List.cons_subset_cons name (List.nil_subset _)

theorem Declarator.map_id_mapIdsList (f : Identifier → Identifier) (declarators : List Declarator) :
    (Declarator.mapIdsList f declarators).map Declarator.id
      = (declarators.map Declarator.id).map f := by
  induction declarators with
  | nil => rfl
  | cons d ds ih =>
    obtain ⟨id, _ | e, _⟩ := d
    all_goals simp [Declarator.mapIdsList, ih]

theorem Declaration.declaredIds_mapIds (f : Identifier → Identifier) (d : Declaration) :
    (d.mapIds f).declaredIds = d.declaredIds.map f := by
  cases d with
  | «variables» _ ds _ => exact Declarator.map_id_mapIdsList f ds
  | function => rfl

/-- The exports of a statement that is no re-export are carried over by a replacement of uses. -/
theorem Module.Renames.forall₂_exports {m m' : Module} {targets : List Target}
    {f : Identifier → Identifier} (h : m.Renames f) (hm : m.Numbered)
    (huses : ∀ u ∈ m.uses, m.CarriesUse targets m' u (f u)) {stmt : Stmt} (hstmt : stmt ∈ m.body)
    (hne : ∀ specifiers source o, stmt ≠ .exportNamed specifiers (some source) o) :
    List.Forall₂ (m.Carries targets f m') stmt.exports (stmt.mapIds f).exports := by
  cases stmt with
  | exportNamed specifiers source o =>
    cases source with
    | none =>
      have hmap : ((Stmt.exportNamed specifiers none o).mapIds f).exports
          = specifiers.map fun s => .listed s.exported (f s.source) := List.map_map
      rw [hmap]
      refine List.forall₂_map_left_iff.2 (List.forall₂_map_right_iff.2
        (List.forall₂_same.2 fun s hs => .listed s.exported (huses _ ?_)))
      rw [Module.uses, Stmt.usesList_eq_flatMap]
      exact List.mem_flatMap_of_mem hstmt (List.mem_map_of_mem hs)
    | some source => exact absurd rfl (hne _ _ _)
  | exportAll source o => exact .cons (.all source) .nil
  | exportDecl d o =>
    -- what a statement declares is no use, so it keeps its name
    have hsame : ∀ id ∈ d.declaredIds, f id = id := by
      intro id hid
      refine h.eq_of_binder hm ?_
      rw [Module.binders, Stmt.bindersList_eq_flatMap]
      exact List.mem_flatMap_of_mem hstmt (d.declaredIds_subset hid)
    have hmap : ((Stmt.exportDecl d o).mapIds f).exports
        = d.declaredIds.map fun id => .declared id (d.mapIds f) := by
      change (d.mapIds f).declaredIds.map _ = _
      rw [d.declaredIds_mapIds, Identifier.map_eq_self hsame]
    rw [hmap]
    exact List.forall₂_map_left_iff.2 (List.forall₂_map_right_iff.2
      (List.forall₂_same.2 fun id _ => .declared id d))
  | exportDefault value o => exact .cons (.default value) .nil
  | returnValue value o => cases value <;> exact .nil
  | ifThen test consequent alternate o => cases alternate <;> exact .nil
  | _ => exact .nil

/-! ### Names of a re-export -/

/-- Targets that differ share out the names of a re-export, and what they do not take is left. -/
theorem Stmt.perm_takenBy {targets : List Target} (htargets : targets.Nodup)
    (specifiers : List ExportSpecifier) (source : CodeText) (o : Origin) :
    specifiers.Perm ((specifiers.filter fun s => !targets.any (·.takes source s)) ++
      ((Stmt.exportNamed specifiers (some source) o).takenBy targets).map Prod.snd) := by
  induction targets with
  | nil => simp [takenBy]
  | cons t targets ih =>
    obtain ⟨ht, htargets⟩ := List.nodup_cons.1 htargets
    have hleft : specifiers.filter (fun s => !(t :: targets).any (·.takes source s))
        = (specifiers.filter fun s => !targets.any (·.takes source s)).filter
          fun s => !t.takes source s := by
      rw [List.filter_filter]
      refine List.filter_congr fun s _ => ?_
      simp
    have htakenBy : ((Stmt.exportNamed specifiers (some source) o).takenBy (t :: targets)).map
        Prod.snd = specifiers.filter (t.takes source)
          ++ ((Stmt.exportNamed specifiers (some source) o).takenBy targets).map Prod.snd := by
      simp [takenBy, taken, Function.comp_def]
    rw [hleft, htakenBy, Target.filter_takes ht, ← List.append_assoc]
    refine (ih htargets).trans (List.Perm.append_right _ ?_)
    exact ((List.filter_append_perm (t.takes source) _).symm).trans List.perm_append_comm

/-! ### Uses after a pass -/

namespace Draft.Remade

variable {m : Module} {targets : List Target} {rs : List Rebinding} {cs : List Chunk}
  {f : Identifier → Identifier} {messages : String} {d : Draft} {c : Chunk} {u : Identifier}

/-- Every use of the module is still there, with the name that it has by then. -/
theorem use_mem_renamed (h : d.Remade m targets rs cs f messages) (hu : u ∈ m.uses) :
    f u ∈ d.toModule.uses := by
  rw [Module.uses, Stmt.usesList_eq_flatMap] at hu
  obtain ⟨s, hs, hu⟩ := List.mem_flatMap.1 hu
  obtain ⟨c, hc, rfl⟩ := h.exists_chunk hs
  have hne : ∀ specifiers source o, c.origin ≠ .exportNamed specifiers (some source) o := by
    intro specifiers source o heq
    rw [heq] at hu
    cases hu
  have hkept := h.kept c hc
  rw [Stmt.pared_of_ne hne, Option.map_some] at hkept
  refine use_mem (h.mem_body hc (List.mem_append_left _ ?_)) (s := c.origin.mapIds f) ?_
  · simp [hkept]
  · rw [Stmt.uses_mapIds h.renames.inPlace]
    exact List.mem_map_of_mem hu

/-- What means the constant of a specifier is bound to the specifier. -/
theorem bound_specifier (h : d.Remade m targets rs cs f messages) (hm : m.Numbered)
    (hnames : m.declaredNames.Nodup) {r : Rebinding} (hr : r ∈ rs)
    (hmeans : d.toModule.declarer? u.origin.id = some r.declared) :
    d.toModule.Bound u r.specifier.binding := by
  obtain ⟨c, hc, -, hadded⟩ := h.exists_chunk_constant hm hnames hr
  obtain ⟨literal, k, hbody, hle⟩ := h.exists_front hc hadded
  have hconstants : ∀ r ∈ rs, m.next ≤ r.id ∧ ∃ v, r.constant v ∈ d.sequence.body :=
    fun r hr => ⟨(h.constants r hr).1, messages, (h.constants r hr).2⟩
  obtain ⟨hfunction, honly⟩ :=
    h.tracked.function h.extended hm hnames h.specifiers hconstants hr
  have hargument : r.argument messages ∈ d.toModule.uses :=
    use_mem (h.constants r hr).2 (List.mem_cons_of_mem _ (List.mem_cons_self ..))
  refine ⟨r.name, r.specifier.binding.name, messages, r.id, literal, k, _, hbody, ?_, hmeans,
    (honly _ hfunction).2 rfl, h.declarer_argument (hbody ▸ List.mem_cons_self) hle hargument rfl⟩
  exact List.mem_flatMap_of_mem hc (List.mem_append_right _ hadded)

/-- **Every use is carried over.** -/
theorem carriesUse (h : d.Remade m targets rs cs f messages) (hm : m.Numbered)
    (hnames : m.declaredNames.Nodup) (hu : u ∈ m.uses) :
    m.CarriesUse targets d.toModule u (f u) := by
  have hthere := h.use_mem_renamed hu
  have hconstants : ∀ r ∈ rs, m.next ≤ r.id ∧ ∃ v, r.constant v ∈ d.sequence.body :=
    fun r hr => ⟨(h.constants r hr).1, messages, (h.constants r hr).2⟩
  refine ⟨hthere, ?_⟩
  by_cases hmatched : ∃ s ∈ Target.allSpecifiers targets m.body,
      m.declarer? u.origin.id = some s.binding
  · obtain ⟨s, hs, hmeans⟩ := hmatched
    obtain ⟨r, hr, rfl⟩ : ∃ r ∈ rs, r.specifier = s := by
      rcases h.complete s hs with hbound | hunused
      · exact hbound
      · obtain ⟨chain, hu⟩ := Stmt.exists_mem_uses hu
        rw [Module.declarer?_eq hm.distinct hu] at hmeans
        obtain ⟨b, hb, hid⟩ := Option.map_eq_some_iff.1 hmeans
        exact absurd hid (hunused _ hu b hb)
    have hdeclared := (h.tracked.bound h.extended hm h.specifiers hconstants hu hr hmeans).2
    rw [← h.renames.inPlace u] at hdeclared
    exact Or.inl ⟨r.specifier, hs, hmeans, h.bound_specifier hm hnames hr hdeclared⟩
  · have hnone : ∀ s ∈ Target.allSpecifiers targets m.body,
        m.declarer? u.origin.id ≠ some s.binding := fun s hs hmeans => hmatched ⟨s, hs, hmeans⟩
    obtain ⟨hold, hsame⟩ := h.tracked.unchanged h.extended hm hu fun r hr =>
      hnone r.specifier (h.met r hr)
    have heq : f u = u := by
      refine List.inj_on_of_nodup_map h.extended.inOrder.numbered.distinct.identifiers
        (Stmt.uses_append_binders_subset _ (List.mem_append_left _ hthere))
        (Stmt.uses_append_binders_subset _ (List.mem_append_left _ hold)) ?_
      rw [h.renames.inPlace]
    exact Or.inr ⟨hnone, heq, hsame⟩

/-! ### Exports after a pass -/

/-- **A name that was taken** is exported as a constant that binds its import. -/
theorem rehomed (h : d.Remade m targets rs cs f messages) (hc : c ∈ cs) {r : Rehoming}
    (hr : ∀ s ∈ r.stmts messages, s ∈ c.added) (htarget : r.target ∈ targets)
    (hfunction : (r.specifier.source.name : CodeText) = r.target.function) :
    m.Carries targets f d.toModule (r.specifier.export (some r.target.module))
      (.listed r.specifier.exported (Stmt.addedId r.bound (r.id + 4 + 4 + 1))) := by
  have himport := hr r.importStmt (by simp [Rehoming.stmts])
  have hconstant := hr (r.constant messages) (by simp [Rehoming.stmts])
  have hexport := hr r.exportStmt (by simp [Rehoming.stmts])
  have hthere : ∀ s ∈ c.added, s ∈ d.sequence.body := fun s hs =>
    h.mem_body hc (List.mem_append_right _ hs)
  obtain ⟨literal, k, hbody, hle⟩ := h.exists_front hc hconstant
  have huse : Stmt.addedId r.bound (r.id + 4 + 4 + 1) ∈ d.toModule.uses :=
    use_mem (hthere _ hexport) (List.mem_singleton.2 rfl)
  have hcallee : Stmt.addedId r.imported (r.id + 4 + 2) ∈ d.toModule.uses :=
    use_mem (hthere _ hconstant) (List.mem_cons_self ..)
  have hargument : Stmt.addedId messages (r.id + 4 + 3) ∈ d.toModule.uses :=
    use_mem (hthere _ hconstant) (List.mem_cons_of_mem _ (List.mem_cons_self ..))
  have hmeans : d.toModule.declarer? (Stmt.addedId r.bound (r.id + 4 + 4 + 1)).origin.id
      = some (Stmt.addedId r.bound (r.id + 4 + 1)) := by
    have hadded : m.next ≤ (Stmt.addedId r.bound (r.id + 4 + 1)).origin.id :=
      Nat.le_add_right_of_le (h.added c hc _ hconstant).1
    exact h.extended.declarer_added
      (b := ⟨r.bound, .declared .const, Stmt.addedId r.bound (r.id + 4 + 1),
        .synthetic (r.id + 4), .module, []⟩)
      (Draft.bindings_subset (hthere _ hconstant) (List.mem_singleton.2 rfl)) rfl hadded huse rfl
  have hbound : d.toModule.Bound (Stmt.addedId r.bound (r.id + 4 + 4 + 1))
      (Stmt.addedId r.imported (r.id + 1)) := by
    refine ⟨r.bound, r.imported, messages, r.id + 4, literal, k, _, hbody, ?_, hmeans,
      h.declarer_imported hc himport hcallee rfl,
      h.declarer_argument (hbody ▸ List.mem_cons_self) hle hargument rfl⟩
    exact List.mem_flatMap_of_mem hc (List.mem_append_right _ hconstant)
  have hname : r.target.function.string = r.specifier.source.name := by
    rw [← hfunction, CodeText.string_ofString]
  have hmatched : ⟨r.specifier.source.name, r.target.module⟩ ∈ targets := by rwa [hfunction]
  rw [Rehoming.importStmt, Stmt.addedImport, hname] at himport
  exact .rehomed r.specifier.exported hmatched huse (hthere _ himport) hbound

/-- What was appended to a statement that is no re-export exports nothing. -/
theorem exports_added_of_ne (h : d.Remade m targets rs cs f messages) (hc : c ∈ cs)
    (hne : ∀ specifiers source o, c.origin ≠ .exportNamed specifiers (some source) o) :
    c.added.flatMap Stmt.exports = [] := by
  obtain ⟨rs', hs', hfill⟩ := h.filled c hc
  obtain rfl := hfill.rehomed_eq_nil_of_ne hne
  rw [hfill.added, List.flatMap_nil, List.append_nil, List.flatMap_eq_nil_iff]
  intro s hs
  obtain ⟨r, -, rfl⟩ := List.mem_map.1 hs
  rfl

/-- What is left of a re-export are the names that no target takes. -/
theorem exports_kept (h : d.Remade m targets rs cs f messages) (hm : m.Numbered) (hc : c ∈ cs)
    {specifiers : List ExportSpecifier} {source : CodeText} {o : Origin}
    (horigin : c.origin = .exportNamed specifiers (some source) o) :
    c.kept.toList.flatMap Stmt.exports
      = (specifiers.filter fun s => !targets.any (·.takes source s)).map
        (ExportSpecifier.export (some source)) := by
  have hremains : c.Remains f fun _ => targets := h.kept c hc
  rw [hremains.kept_eq hm h.renames (h.origin_mem hc) (by rw [horigin]; rfl), horigin, Stmt.pared]
  split
  · rename_i hempty
    rw [Bool.and_eq_true, List.isEmpty_iff] at hempty
    rw [hempty.1]
    rfl
  · simp [Stmt.exports]

/-- They are exported as they were. -/
theorem carries_left (specifiers : List ExportSpecifier) (source : CodeText) {m' : Module} :
    List.Forall₂ (m.Carries targets f m')
      ((specifiers.filter fun s => !targets.any (·.takes source s)).map
        (ExportSpecifier.export (some source)))
      ((specifiers.filter fun s => !targets.any (·.takes source s)).map
        (ExportSpecifier.export (some source))) := by
  refine List.forall₂_same.2 fun e he => ?_
  obtain ⟨s, hs, rfl⟩ := List.mem_map.1 he
  have hnot := List.of_mem_filter hs
  simp only [Bool.not_eq_true', List.any_eq_false] at hnot
  refine .passed s.exported fun htarget => hnot _ htarget ?_
  simp [Target.takes, Target.matchesExport]

/-- The names that were taken from a re-export are exported by what was appended to it. -/
theorem carries_taken (h : d.Remade m targets rs cs f messages) (hc : c ∈ cs)
    {specifiers : List ExportSpecifier} {source : CodeText} {o : Origin}
    (horigin : c.origin = .exportNamed specifiers (some source) o) :
    List.Forall₂ (m.Carries targets f d.toModule)
      (((c.origin.takenBy targets).map Prod.snd).map (ExportSpecifier.export (some source)))
      (c.added.flatMap Stmt.exports) := by
  obtain ⟨rs', hs', hfill⟩ := h.filled c hc
  obtain rfl := hfill.eq_nil_of_ne fun _ _ _ heq => by
    rw [horigin] at heq
    cases heq
  have hadded : c.added.flatMap Stmt.exports = hs'.map fun r =>
      .listed r.specifier.exported (Stmt.addedId r.bound (r.id + 4 + 4 + 1)) := by
    rw [hfill.added, List.map_nil, List.nil_append, List.flatMap_assoc]
    exact List.map_eq_flatMap.symm
  rw [hadded, ← hfill.rehomed, List.map_map, List.map_map]
  refine List.forall₂_map_left_iff.2 (List.forall₂_map_right_iff.2
    (List.forall₂_same.2 fun r hr => ?_))
  have hmem : (r.target, r.specifier) ∈ c.origin.takenBy targets := by
    rw [← hfill.rehomed]
    exact List.mem_map_of_mem hr
  rw [horigin] at hmem
  obtain ⟨htarget, htakes⟩ := Stmt.mem_takenBy hmem
  simp only [Target.takes, Target.matchesExport, Bool.and_eq_true, decide_eq_true_eq] at htakes
  obtain ⟨rfl, hfunction⟩ := htakes
  refine h.rehomed hc (fun s hs => ?_) htarget hfunction
  rw [hfill.added]
  exact List.mem_append_right _ (List.mem_flatMap_of_mem hr hs)

/-- **The exports of a chunk** are those of its statement, carried over. -/
theorem exports_chunk (h : d.Remade m targets rs cs f messages) (hm : m.Numbered)
    (hnames : m.declaredNames.Nodup) (htargets : targets.Nodup) (hc : c ∈ cs) :
    ∃ es, es.Perm (c.stmts.flatMap Stmt.exports) ∧
      List.Forall₂ (m.Carries targets f d.toModule) c.origin.exports es := by
  rw [Chunk.stmts, List.flatMap_append]
  by_cases hkind : ∃ specifiers source o, c.origin = .exportNamed specifiers (some source) o
  · obtain ⟨specifiers, source, o, horigin⟩ := hkind
    -- the names that were taken come behind those that were left
    have hperm := (Stmt.perm_takenBy htargets specifiers source o).map
      (ExportSpecifier.export (some source))
    rw [List.map_append, ← horigin] at hperm
    obtain ⟨es, hes, hcarried⟩ := List.perm_comp_forall₂ hperm
      (List.rel_append (carries_left specifiers source) (h.carries_taken hc horigin))
    refine ⟨es, ?_, ?_⟩
    · rwa [h.exports_kept hm hc horigin]
    · rwa [horigin]
  · have hne : ∀ specifiers source o, c.origin ≠ .exportNamed specifiers (some source) o :=
      fun specifiers source o heq => hkind ⟨specifiers, source, o, heq⟩
    have hkept := h.kept c hc
    rw [Stmt.pared_of_ne hne, Option.map_some] at hkept
    refine ⟨(c.origin.mapIds f).exports, ?_, h.renames.forall₂_exports hm
      (fun u hu => h.carriesUse hm hnames hu) (h.origin_mem hc) hne⟩
    rw [hkept, h.exports_added_of_ne hc hne]
    simp

/-- The exports of chunks are those of their statements, carried over. -/
theorem exports_chunks (h : d.Remade m targets rs cs f messages) (hm : m.Numbered)
    (hnames : m.declaredNames.Nodup) (htargets : targets.Nodup) {cs' : List Chunk}
    (hcs : cs' ⊆ cs) :
    ∃ es, es.Perm ((cs'.flatMap Chunk.stmts).flatMap Stmt.exports) ∧
      List.Forall₂ (m.Carries targets f d.toModule)
        ((cs'.map Chunk.origin).flatMap Stmt.exports) es := by
  induction cs' with
  | nil => exact ⟨[], List.Perm.refl _, .nil⟩
  | cons c cs' ih =>
    obtain ⟨hc, hcs⟩ := List.cons_subset.1 hcs
    obtain ⟨es, hperm, hcarried⟩ := h.exports_chunk hm hnames htargets hc
    obtain ⟨es', hperm', hcarried'⟩ := ih hcs
    refine ⟨es ++ es', ?_, List.rel_append hcarried hcarried'⟩
    rw [List.flatMap_cons, List.flatMap_append]
    exact hperm.append hperm'

/-- **The exports of the draft** are those of the module, carried over. -/
theorem exports (h : d.Remade m targets rs cs f messages) (hm : m.Numbered)
    (hnames : m.declaredNames.Nodup) (htargets : targets.Nodup) :
    ∃ es, es.Perm d.toModule.exports ∧
      List.Forall₂ (m.Carries targets f d.toModule) m.exports es := by
  obtain ⟨es, hperm, hcarried⟩ := h.exports_chunks hm hnames htargets (List.Subset.refl cs)
  obtain ⟨front, hbody, hfront, -⟩ := h.body
  have hnone : front.toList.flatMap Stmt.exports = [] := by
    rw [List.flatMap_eq_nil_iff]
    intro s hs
    obtain ⟨literal, n, rfl, -⟩ := hfront s (Option.mem_toList.1 hs)
    rfl
  refine ⟨es, ?_, ?_⟩
  · change es.Perm (d.sequence.body.flatMap Stmt.exports)
    rwa [hbody, List.flatMap_append, hnone, List.nil_append]
  · rw [Module.exports, ← h.origins]
    exact hcarried

end Draft.Remade

namespace Module

/-- **What others see after a pass**: of a module whose declarations have different names, with
targets that differ, the pass makes one that is the same to others, with every export and every use
carried over. -/
theorem republished_of_bindMessages [CharacterNames] {text : String} {filename : Option String}
    {base : Nat} {m : Module} {targets : List Target} {catalogues : CatalogueSource}
    {path : Option String} {r : BoundModule} (hparse : parse text filename base = .ok m)
    (hnames : m.declaredNames.Nodup) (htargets : targets.Nodup)
    (hrun : (m.bindMessages targets catalogues path).run.1 = .ok r) :
    ∃ f, m.Republished targets f r.draft.toModule := by
  have hm := numbered_of_parse hparse
  obtain ⟨rs, cs, f, messages, h⟩ := exists_remade hm hnames htargets hrun
  obtain ⟨es, hperm, hcarried⟩ := h.exports hm hnames htargets
  refine ⟨f, ?_, ⟨es, hperm, hcarried⟩, h.renames, fun u hu => h.carriesUse hm hnames hu⟩
  have hlabels : m.exports.map Export.label = es.map Export.label := by
    rw [← List.forall₂_eq_eq_eq, List.forall₂_map_left_iff, List.forall₂_map_right_iff]
    exact hcarried.imp fun _ _ hcarries => hcarries.label_eq
  rw [hlabels]
  exact hperm.map _

section

attribute [local instance] CharacterNames.nameless

/-- In `import { f } from "m"; export { f as g }; export { f, h } from "m"` an import and a
re-export are bound, and others still see three names. -/
theorem republished_of_bindMessages_both : ∃ m r f,
    parse "import { f } from \"m\"; export { f as g }; export { f, h } from \"m\"" none 0 = .ok m ∧
      m.declaredNames.Nodup ∧ [(⟨"f", "m"⟩ : Target)].Nodup ∧
      (m.bindMessages [⟨"f", "m"⟩] ⟨⟨[], ⟨.relative, []⟩⟩, "properties", fun _ => .ok [], none⟩
        (some "a.js")).run.1 = .ok r ∧
      r.counts = ⟨1, 1⟩ ∧ m.exports.map Export.label = [.name "g", .name "f", .name "h"] ∧
      m.Republished [⟨"f", "m"⟩] f r.draft.toModule := by
  have hruns : ((parse "import { f } from \"m\"; export { f as g }; export { f, h } from \"m\""
      none 0).toOption.bind fun m => (m.bindMessages [⟨"f", "m"⟩]
        ⟨⟨[], ⟨.relative, []⟩⟩, "properties", fun _ => .ok [], none⟩
        (some "a.js")).run.1.toOption.filter fun r => decide (m.declaredNames.Nodup ∧
          r.counts = ⟨1, 1⟩ ∧
          m.exports.map Export.label = [.name "g", .name "f", .name "h"])).isSome := by
    decide +kernel
  obtain ⟨r, hr⟩ := Option.isSome_iff_exists.1 hruns
  obtain ⟨m, hm, hr⟩ := Option.bind_eq_some_iff.1 hr
  obtain ⟨hr, hdecide⟩ := Option.filter_eq_some_iff.1 hr
  obtain ⟨hnames, hcounts, hexports⟩ := of_decide_eq_true hdecide
  have hparse := Except.eq_ok_of_toOption hm
  have hrun := Except.eq_ok_of_toOption hr
  obtain ⟨f, hrepublished⟩ := republished_of_bindMessages hparse hnames (by decide) hrun
  exact ⟨m, r, f, hparse, hnames, by decide, hrun, hcounts, hexports, hrepublished⟩

end

end Module

end MessageBinder
