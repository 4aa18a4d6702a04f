import Mathlib.Data.List.Flatten
import MessageBinder.Proofs.Scope.Records
import MessageBinder.Proofs.Scope.Renaming

/-!
# Scopes under change

A scope that records the events of a module goes on recording them while the module changes. A
renamed use means from now on what its new name means, and no other use and no declaration notices
(`MessageBinder.Scope.Records.rename`). A new statement brings its own events; the declarations
among them come too late for the uses that are there already, and the bindings that adopt make up
for it: an earlier use changes its meaning only if it had none, and only to a binding of the module
(`MessageBinder.Scope.Records.register`). Where in the module the statement stands does not matter,
as long as the names that it declares there are new (`MessageBinder.Scope.Records.insert`).

All this is said of the statements of a module, of which it is asked that no two identifiers and no
two frames in them have the same number.
-/

namespace MessageBinder

namespace Stmt

/-- The events of the statements of a module. -/
def moduleEvents (ss : List Stmt) : List ScopeEvent :=
  declaresList [.module] ss ++ walkList [.module] ss

/-- No two identifiers and no two frames have the same number. -/
structure Distinct (ss : List Stmt) : Prop where
  /-- Identifiers differ. -/
  identifiers : (Identifier.numbers (identifiersList ss)).Nodup
  /-- Frames differ. -/
  frames : (framesList ss).Nodup

/-! ### Statement by statement -/

theorem identifiersList_eq_flatMap (ss : List Stmt) :
    identifiersList ss = ss.flatMap identifiers := by
  induction ss with
  | nil => rfl
  | cons s ss ih => rw [identifiersList, List.flatMap_cons, ih]

theorem usesList_eq_flatMap (ss : List Stmt) : usesList ss = ss.flatMap uses := by
  induction ss with
  | nil => rfl
  | cons s ss ih => rw [usesList, List.flatMap_cons, ih]

theorem bindersList_eq_flatMap (ss : List Stmt) : bindersList ss = ss.flatMap binders := by
  induction ss with
  | nil => rfl
  | cons s ss ih => rw [bindersList, List.flatMap_cons, ih]

theorem framesList_eq_flatMap (ss : List Stmt) : framesList ss = ss.flatMap frames := by
  induction ss with
  | nil => rfl
  | cons s ss ih => rw [framesList, List.flatMap_cons, ih]

theorem walkList_eq_flatMap (c : Chain) (ss : List Stmt) :
    walkList c ss = ss.flatMap (walk c) := by
  induction ss with
  | nil => rfl
  | cons s ss ih => rw [walkList, List.flatMap_cons, ih]

theorem declaresList_append (c : Chain) (ss ss' : List Stmt) :
    declaresList c (ss ++ ss') = declaresList c ss ++ declaresList c ss' :=
  List.flatMap_append

theorem walkList_append (c : Chain) (ss ss' : List Stmt) :
    walkList c (ss ++ ss') = walkList c ss ++ walkList c ss' := by
  simp only [walkList_eq_flatMap, List.flatMap_append]

/-- The order of the statements does not matter for whether they are distinct. -/
theorem Distinct.perm {ss ss' : List Stmt} (h : Distinct ss) (hp : ss.Perm ss') :
    Distinct ss' where
  identifiers := by
    have hids := hp.flatMap_right Stmt.identifiers
    rw [← identifiersList_eq_flatMap, ← identifiersList_eq_flatMap] at hids
    exact (hids.map _).nodup_iff.1 h.identifiers
  frames := by
    have hframes := hp.flatMap_right Stmt.frames
    rw [← framesList_eq_flatMap, ← framesList_eq_flatMap] at hframes
    exact hframes.nodup_iff.1 h.frames

theorem Distinct.sublist {ss ss' : List Stmt} (h : Distinct ss) (hs : ss'.Sublist ss) :
    Distinct ss' where
  identifiers := by
    have hids := hs.flatMap Stmt.identifiers
    rw [← identifiersList_eq_flatMap, ← identifiersList_eq_flatMap] at hids
    exact h.identifiers.sublist (hids.map _)
  frames := by
    have hframes := hs.flatMap Stmt.frames
    rw [← framesList_eq_flatMap, ← framesList_eq_flatMap] at hframes
    exact h.frames.sublist hframes

/-- Renaming an identifier leaves the statements distinct. -/
theorem Distinct.mapIds {ss : List Stmt} (h : Distinct ss) {f : Identifier → Identifier}
    (hf : Identifier.InPlace f) : Distinct (mapIdsList f ss) where
  identifiers := by
    rw [identifiersList_mapIdsList, Identifier.numbers_map hf]
    exact h.identifiers
  frames := by
    rw [framesList_mapIdsList]
    exact h.frames

/-! ### The events of a module -/

theorem nest_moduleWalk (ss : List Stmt) :
    Nest (bindersList ss) [.module] (framesList ss) (usesList ss) (walkList [.module] ss) :=
  nest_walkList _ ss (List.Subset.refl _)

theorem declaresOne_of_mem_moduleDeclares {ss : List Stmt} {e : ScopeEvent}
    (h : e ∈ declaresList [.module] ss) : e.DeclaresOne [.module] (bindersList ss) :=
  declaresList_declaresOne Chain.isFunction_module h

theorem uses_moduleEvents (ss : List Stmt) :
    (ScopeEvent.uses (moduleEvents ss)).map (·.2) = usesList ss := by
  rw [moduleEvents, ScopeEvent.uses_append,
    ScopeEvent.uses_eq_nil_of_declaresOne fun _ => declaresOne_of_mem_moduleDeclares,
    List.nil_append, (nest_moduleWalk ss).uses_eq]

theorem others_moduleEvents_subset (ss : List Stmt) :
    ScopeEvent.others (moduleEvents ss) ⊆ bindersList ss := by
  rw [moduleEvents, ScopeEvent.others_append]
  exact List.append_subset.2
    ⟨ScopeEvent.others_subset_of_declaresOne fun _ => declaresOne_of_mem_moduleDeclares,
      (nest_moduleWalk ss).others_subset⟩

/-- A use has an event. -/
theorem exists_mem_uses {ss : List Stmt} {id : Identifier} (h : id ∈ usesList ss) :
    ∃ c, (c, id) ∈ ScopeEvent.uses (moduleEvents ss) := by
  rw [← uses_moduleEvents] at h
  obtain ⟨⟨c, id'⟩, hu, rfl⟩ := List.mem_map.1 h
  exact ⟨c, hu⟩

/-- **The module is the last frame around every use**, behind frames of the tree. -/
theorem chain_of_mem_uses {ss : List Stmt} {c : Chain} {id : Identifier}
    (h : (c, id) ∈ ScopeEvent.uses (moduleEvents ss)) :
    ∃ pre, c = pre ++ [.module] ∧ pre ⊆ framesList ss := by
  rcases List.mem_append.1 (ScopeEvent.mem_uses.1 h) with he | he
  · obtain ⟨_, -, _, _, heq⟩ := declaresOne_of_mem_moduleDeclares he
    cases heq
  · exact (nest_moduleWalk ss).chain_of_use he

/-- What the statements declare they declare in the module or in frames of their own. -/
theorem frame_of_mem_bindings {ss : List Stmt} {b : Binding}
    (h : b ∈ ScopeEvent.bindings (moduleEvents ss)) :
    b.frame = .module ∨ b.frame ∈ framesList ss := by
  obtain ⟨c, id, kind, o, he, rfl⟩ := ScopeEvent.mem_bindings.1 h
  rcases List.mem_append.1 he with he | he
  · obtain ⟨_, -, _, _, heq⟩ := declaresOne_of_mem_moduleDeclares he
    cases heq
    exact Or.inl rfl
  · exact Or.inr ((nest_moduleWalk ss).frame_of_declare he)

theorem module_notMem_framesList (ss : List Stmt) : .module ∉ framesList ss :=
  (nest_moduleWalk ss).module_notMem

/-- The walk declares nothing in the module itself. -/
theorem first?_walkList_module (ss : List Stmt) (name : String) :
    Binding.first? (ScopeEvent.bindings (walkList [.module] ss)) (.module, name) = none := by
  refine Binding.first?_eq_none_iff.2 fun b hb hkey => module_notMem_framesList ss ?_
  obtain ⟨c, id, kind, o, he, rfl⟩ := ScopeEvent.mem_bindings.1 hb
  have hframe := (nest_moduleWalk ss).frame_of_declare he
  rwa [show c.head?.getD .module = .module from congrArg Prod.fst hkey] at hframe

/-- **Distinct statements give their events in order.** -/
theorem Distinct.pairwise_before {ss : List Stmt} (h : Distinct ss) :
    (moduleEvents ss).Pairwise ScopeEvent.Before := by
  have hnodup := nodup_uses_append_binders h.identifiers
  rw [Identifier.numbers, List.map_append, List.nodup_append'] at hnodup
  refine ScopeEvent.pairwise_before ?_ ?_ ?_
  · have hdisj : (framesList ss).Disjoint [.module] :=
      List.disjoint_singleton.2 (module_notMem_framesList ss)
    refine List.pairwise_append.2 ⟨?_, (nest_moduleWalk ss).pairwise_frameOrder h.frames hdisj, ?_⟩
    · refine List.Pairwise.imp_of_mem (R := fun _ _ => True) (fun {e e'} he _ _ => ?_)
        (List.pairwise_of_forall fun _ _ => trivial)
      obtain ⟨_, -, _, _, rfl⟩ := declaresOne_of_mem_moduleDeclares he
      trivial
    · intro e he e' _
      obtain ⟨_, -, _, _, rfl⟩ := declaresOne_of_mem_moduleDeclares he
      trivial
  · rw [uses_moduleEvents]
    exact hnodup.1
  · rw [uses_moduleEvents]
    exact List.disjoint_of_subset_right (List.map_subset _ (others_moduleEvents_subset ss))
      hnodup.2.2

/-- A statement put between others adds its events. -/
theorem moduleEvents_insert_perm (front back : List Stmt) (stmt : Stmt) :
    (moduleEvents (front ++ back) ++ moduleEvents [stmt]).Perm
      (moduleEvents (front ++ stmt :: back)) := by
  have hsplit : front ++ stmt :: back = front ++ ([stmt] ++ back) := rfl
  rw [List.perm_iff_count]
  intro e
  simp only [hsplit, moduleEvents, declaresList_append, walkList_append, List.count_append]
  omega

/-- Where a statement between others is not first to declare a name, or is the only one to, the
others come first. -/
theorem first?_moduleEvents_insert {front back : List Stmt} {stmt : Stmt} {key : BindingKey}
    (h : Binding.first? (ScopeEvent.bindings (moduleEvents (front ++ back))) key = none ∨
      Binding.first? (ScopeEvent.bindings (moduleEvents [stmt])) key = none) :
    Binding.first? (ScopeEvent.bindings (moduleEvents (front ++ stmt :: back))) key
      = (Binding.first? (ScopeEvent.bindings (moduleEvents (front ++ back))) key).or
        (Binding.first? (ScopeEvent.bindings (moduleEvents [stmt])) key) := by
  have hsplit : front ++ stmt :: back = front ++ ([stmt] ++ back) := rfl
  simp only [hsplit, moduleEvents, declaresList_append, walkList_append,
    ScopeEvent.bindings_append, Binding.first?_append, Option.or_eq_none_iff] at h ⊢
  rcases h with ⟨⟨hdf, hdb⟩, hwf, hwb⟩ | ⟨hdx, hwx⟩
  · simp [hdf, hdb, hwf, hwb]
  · simp [hdx, hwx]

/-- A use is not among the other identifiers. -/
theorem Distinct.number_notMem_others {ss : List Stmt} (h : Distinct ss) {id : Identifier}
    (hid : id ∈ usesList ss) :
    id.origin.id ∉ Identifier.numbers (ScopeEvent.others (moduleEvents ss)) := by
  have hnodup := nodup_uses_append_binders h.identifiers
  rw [Identifier.numbers, List.map_append, List.nodup_append'] at hnodup
  exact fun hmem => hnodup.2.2 (List.mem_map_of_mem hid)
    (List.map_subset _ (others_moduleEvents_subset ss) hmem)

end Stmt

/-- **The scope of a module records its events.** -/
theorem Module.records_scope {m : Module} (h : Stmt.Distinct m.body) :
    m.scope.Records (Stmt.moduleEvents m.body) :=
  Scope.records_steps h.pairwise_before

/-! ### Renaming a use -/

namespace ScopeEvent

theorem uses_map_mapIds (f : Identifier → Identifier) (E : List ScopeEvent) :
    uses (E.map (mapIds f)) = (uses E).map fun u => (u.1, f u.2) := by
  induction E with
  | nil => rfl
  | cons e E ih =>
    cases e with
    | use c id => exact congrArg (List.cons _) ih
    | declare c id kind o => exact ih
    | place c id => exact ih

/-- A replacement that leaves the declared identifiers alone leaves the bindings alone. -/
theorem bindings_map_mapIds {f : Identifier → Identifier} {E : List ScopeEvent}
    (h : ∀ id ∈ others E, f id = id) : bindings (E.map (mapIds f)) = bindings E := by
  induction E with
  | nil => rfl
  | cons e E ih =>
    cases e with
    | use c id => exact ih h
    | place c id => exact ih fun id' hid' => h id' (List.mem_cons_of_mem _ hid')
    | declare c id kind o =>
      have hid : f id = id := h id List.mem_cons_self
      have hrest := ih fun id' hid' => h id' (List.mem_cons_of_mem _ hid')
      rw [List.map_cons, mapIds, hid]
      exact congrArg (List.cons _) hrest

/-- Of uses with different numbers one gets the new name. -/
theorem uses_renamed {E : List ScopeEvent} {front back : List (Chain × Identifier)} {c : Chain}
    {id : Identifier} (hsplit : uses E = front ++ (c, id) :: back)
    (hnumbers : ∀ u ∈ front ++ back, u.2.origin.id ≠ id.origin.id) (name : String) :
    uses (E.map (mapIds (Identifier.renamed id.origin.id name)))
      = front ++ (c, { id with name }) :: back := by
  have hsame : ∀ us ⊆ front ++ back,
      us.map (fun u => (u.1, Identifier.renamed id.origin.id name u.2)) = us := fun us hus =>
    (List.map_congr_left fun u hu => by
      rw [Identifier.renamed_of_ne (hnumbers u (hus hu))]
      rfl).trans (List.map_id us)
  rw [uses_map_mapIds, hsplit, List.map_append, List.map_cons, hsame front (by simp),
    hsame back (by simp), Identifier.renamed_self]

end ScopeEvent

namespace UseEntry

/-- Among entries of uses with different numbers one goes with its number. -/
theorem without_current {ds : List Binding} {front back : List (Chain × Identifier)} {c : Chain}
    {id : Identifier} (hnumbers : ∀ u ∈ front ++ back, u.2.origin.id ≠ id.origin.id) :
    without id.origin.id (current ds (front ++ (c, id) :: back)) = current ds (front ++ back) := by
  have hkeep : ∀ us ⊆ front ++ back,
      without id.origin.id (current ds us) = current ds us := by
    intro us hus
    refine List.filter_eq_self.2 fun e he => ?_
    obtain ⟨u, hu, rfl⟩ := mem_current.1 he
    exact decide_eq_true (hnumbers u (hus hu))
  have hgone : without id.origin.id (current ds [(c, id)]) = [] := by
    simp [without, current, number, ofUse]
  rw [List.append_cons, current_append, current_append, without_append, without_append, hgone,
    hkeep front (by simp), hkeep back (by simp), List.append_nil, current_append]

end UseEntry

namespace Scope

namespace Records

variable {s : Scope} {E : List ScopeEvent}

/-- **Renaming a use** is recorded: the scope then records the events in which the use has its new
name. -/
theorem rename (h : s.Records E) {c : Chain} {id : Identifier} (hu : (c, id) ∈ ScopeEvent.uses E)
    (hothers : id.origin.id ∉ Identifier.numbers (ScopeEvent.others E)) (name : String) :
    (s.rename id name).Records
      (E.map (ScopeEvent.mapIds (Identifier.renamed id.origin.id name))) := by
  set f := Identifier.renamed id.origin.id name with hf
  have hfix : ∀ i ∈ ScopeEvent.others E, f i = i := fun i hi =>
    Identifier.renamed_of_ne fun hc => hothers (hc ▸ List.mem_map_of_mem hi)
  have hbindings := ScopeEvent.bindings_map_mapIds hfix
  have hmem : UseEntry.ofUse (ScopeEvent.bindings E) (c, id)
      ∈ UseEntry.current (ScopeEvent.bindings E) (ScopeEvent.uses E) := List.mem_map_of_mem hu
  obtain ⟨front, back, hsplit⟩ := List.append_of_mem hu
  have hnumbers : ∀ u ∈ front ++ back, u.2.origin.id ≠ id.origin.id := by
    have hnodup := h.keeps.numbers_nodup
    rw [UseEntry.numbers_current, hsplit, Identifier.numbers, List.map_map, List.map_append,
      List.map_cons, List.nodup_middle, List.nodup_cons, ← List.map_append] at hnodup
    exact fun u hu' hc => hnodup.1 (List.mem_map.2 ⟨u, hu', hc⟩)
  refine ⟨fun key => ?_, ?_, fun name' hname' => ?_⟩
  · rw [declared_rename, h.first key, hbindings]
  · have hkeeps := h.keeps.rename hmem name
    change (s.rename id name).Keeps (UseEntry.without id.origin.id _ ++ [⟨c, { id with name }, _⟩])
      at hkeeps
    -- the ledger without the old use, and with it under its new name at the end
    rw [hsplit, UseEntry.without_current hnumbers, h.resolve?] at hkeeps
    change (s.rename id name).Keeps (UseEntry.current (ScopeEvent.bindings E) (front ++ back)
      ++ UseEntry.current (ScopeEvent.bindings E) [(c, { id with name })]) at hkeeps
    rw [← UseEntry.current_append, List.append_assoc] at hkeeps
    rw [hbindings, hf, ScopeEvent.uses_renamed hsplit hnumbers name]
    exact hkeeps.perm ((List.perm_append_comm.append_left front).map _)
  · rw [hasName_rename]
    rcases ScopeEvent.mem_names.1 hname' with ⟨b, hb, rfl⟩ | ⟨u, hu', rfl⟩
    · rw [hbindings] at hb
      simp [h.taken _ (ScopeEvent.name_mem_names_of_mem_bindings hb)]
    · rw [ScopeEvent.uses_map_mapIds] at hu'
      obtain ⟨v, hv, rfl⟩ := List.mem_map.1 hu'
      by_cases hnum : v.2.origin.id = id.origin.id
      · simp [hf, Identifier.renamed, hnum]
      · rw [hf, Identifier.renamed_of_ne hnum]
        simp [h.taken _ (ScopeEvent.name_mem_names_of_mem_uses hv)]

end Records

/-! ### Taking in a statement -/

theorem declared_declare (s : Scope) (chain : Chain) (id : Identifier) (kind : BindingKind)
    (o : Origin) : ∃ ds, (s.declare chain id kind o).declared = s.declared ++ ds := by
  rw [declare]
  split
  · exact ⟨[], by simp⟩
  · exact ⟨_, by rw [declared, List.map_append, bindings_place, bindings_reserve, ← declared]⟩

/-- Taking in events adds bindings at the end. -/
theorem declared_steps (s : Scope) (E : List ScopeEvent) :
    ∃ ds, (s.steps E).declared = s.declared ++ ds := by
  induction E generalizing s with
  | nil => exact ⟨[], by simp [steps]⟩
  | cons e E ih =>
    have hstep : ∃ ds, (s.step e).declared = s.declared ++ ds := by
      cases e with
      | declare chain id kind o => exact declared_declare s chain id kind o
      | use chain id => exact ⟨[], by simp [step]⟩
      | place chain id => exact ⟨[], by simp [step]⟩
    obtain ⟨ds, hds⟩ := hstep
    obtain ⟨es, hes⟩ := ih (s.step e)
    refine ⟨ds ++ es, ?_⟩
    rw [steps, List.foldl_cons]
    refine hes.trans ?_
    rw [hds, List.append_assoc]

/-- Taking in a statement frees no name. -/
theorem hasName_register {s : Scope} {stmt : Stmt} {name : String} (h : s.hasName name) :
    (s.register stmt).hasName name := by
  rw [register, hasName_foldl_adopt]
  exact (hasName_steps s _ name).2 (Or.inl h)

theorem map_bare_moduleBindings (s : Scope) :
    s.moduleBindings.map Binding.bare = s.declared.filter (·.frame = .module) := by
  rw [moduleBindings, declared, List.filter_map]
  rfl

/-- **The new bindings of the module.** A name that the module declares now and did not before is
that of a binding behind those that were there. -/
theorem key_mem_drop_moduleBindings {s : Scope} {E : List ScopeEvent} {name : String} {b : Binding}
    (hold : Binding.first? s.declared (.module, name) = none)
    (hnew : Binding.first? (s.steps E).declared (.module, name) = some b) :
    b.key ∈ ((s.steps E).moduleBindings.drop s.moduleBindings.length).map Binding.key := by
  obtain ⟨ds, hds⟩ := declared_steps s E
  have hlen : s.moduleBindings.length = (s.declared.filter (·.frame = .module)).length := by
    rw [← map_bare_moduleBindings, List.length_map]
  have hbare : ((s.steps E).moduleBindings.drop s.moduleBindings.length).map Binding.bare
      = ds.filter (·.frame = .module) := by
    rw [List.map_drop, map_bare_moduleBindings, hds, List.filter_append, hlen, List.drop_left]
  rw [hds, Binding.append_first?_of_forall_ne (Binding.first?_eq_none_iff.1 hold)] at hnew
  have hframe : b.frame = .module := congrArg Prod.fst (Binding.key_of_first? hnew)
  have hmem : b ∈ ds.filter (·.frame = .module) :=
    List.mem_filter.2 ⟨Binding.mem_of_first? hnew, decide_eq_true hframe⟩
  rw [← hbare] at hmem
  obtain ⟨c, hc, rfl⟩ := List.mem_map.1 hmem
  exact List.mem_map.2 ⟨c, hc, rfl⟩

end Scope

namespace UseEntry

/-- An entry that is up to date stays as it is. -/
theorem adoptedBy_ofUse_self (ds : List Binding) (keys : List BindingKey)
    (u : Chain × Identifier) : (ofUse ds u).adoptedBy ds keys = ofUse ds u := by
  rw [adoptedBy]
  split
  · rfl
  · rfl

/-- **An entry is brought up to date** if only bindings that adopt gave meaning to what had none. -/
theorem adoptedBy_ofUse {ds ds' : List Binding} {keys : List BindingKey} {u : Chain × Identifier}
    (hsome : ∀ b, Binding.resolve? ds u.1 u.2.name = some b →
      Binding.resolve? ds' u.1 u.2.name = some b)
    (hnone : ∀ b, Binding.resolve? ds u.1 u.2.name = none →
      Binding.resolve? ds' u.1 u.2.name = some b → b.key ∈ keys) :
    (ofUse ds u).adoptedBy ds' keys = ofUse ds' u := by
  cases hr : Binding.resolve? ds u.1 u.2.name with
  | some b => simp [adoptedBy, ofUse, hr, hsome b hr]
  | none =>
    cases hr' : Binding.resolve? ds' u.1 u.2.name with
    | none => simp [adoptedBy, ofUse, meaning, hr, hr']
    | some b => simpa [adoptedBy, ofUse, meaning, hr, hr'] using hnone b hr hr'

end UseEntry

namespace Scope

namespace Records

open Stmt

variable {s : Scope} {ss : List Stmt} {stmt : Stmt}

/-- A new statement shares no identifier with the uses that are there. -/
theorem number_notMem_of_distinct (hd : Distinct (stmt :: ss)) {e : ScopeEvent}
    (he : e ∈ moduleEvents [stmt]) : e.number ∉ Identifier.numbers (usesList ss) := by
  have hnodup := nodup_uses_append_binders hd.identifiers
  have hnew : Identifier.numbers (usesList [stmt] ++ bindersList [stmt]) ⊆
      Identifier.numbers stmt.uses ++ Identifier.numbers stmt.binders := by
    simp [Identifier.numbers, usesList, bindersList]
  have hnum : e.number ∈ Identifier.numbers stmt.uses ++ Identifier.numbers stmt.binders := by
    refine hnew (List.map_subset _ ?_ (ScopeEvent.number_mem _ he))
    rw [uses_moduleEvents]
    exact List.append_subset.2
      ⟨List.subset_append_left _ _, List.subset_append_of_subset_right _
        (others_moduleEvents_subset [stmt])⟩
  intro huse
  rw [usesList, bindersList, Identifier.numbers, List.map_append, List.map_append, List.map_append,
    List.nodup_append', List.nodup_append'] at hnodup
  rcases List.mem_append.1 hnum with hnum | hnum
  · exact hnodup.1.2.2 hnum huse
  · exact hnodup.2.2 (List.mem_append_right _ huse) (List.mem_append_left _ hnum)

/-- What the uses that are there mean once a new statement declares something. -/
theorem resolve?_bindings_register (hd : Distinct (stmt :: ss)) {c : Chain} {id : Identifier}
    (hu : (c, id) ∈ ScopeEvent.uses (moduleEvents ss)) :
    Binding.resolve? (ScopeEvent.bindings (moduleEvents ss ++ moduleEvents [stmt])) c id.name
      = (Binding.resolve? (ScopeEvent.bindings (moduleEvents ss)) c id.name).or
        (Binding.first? (ScopeEvent.bindings (moduleEvents [stmt])) (.module, id.name)) := by
  obtain ⟨pre, rfl, hpre⟩ := chain_of_mem_uses hu
  have hframes : stmt.frames.Disjoint (framesList ss) := by
    have hnodup := hd.frames
    rw [framesList, List.nodup_append'] at hnodup
    exact hnodup.2.2
  rw [ScopeEvent.bindings_append]
  refine Binding.resolve?_append_last (fun hm => module_notMem_framesList ss (hpre hm)) ?_
  intro b hb
  refine (frame_of_mem_bindings hb).imp_right fun hf hm => ?_
  rw [framesList, framesList, List.append_nil] at hf
  exact hframes hf (hpre hm)

/-- The declarations of a scope that took in a new statement. -/
theorem first?_declared_register (h : s.Records (moduleEvents ss)) (stmt : Stmt)
    (key : BindingKey) :
    Binding.first? (s.steps (moduleEvents [stmt])).declared key
      = Binding.first? (ScopeEvent.bindings (moduleEvents ss ++ moduleEvents [stmt])) key := by
  rw [first?_declared_steps, Binding.first?_append, h.first, ← Binding.first?_append,
    ScopeEvent.bindings_append]

/-- The new bindings of the module, when they adopt, bring every earlier use up to date. -/
theorem adoptedBy_register (h : s.Records (moduleEvents ss)) (hd : Distinct (stmt :: ss))
    {u : Chain × Identifier} (hu : u ∈ ScopeEvent.uses (moduleEvents ss)) :
    (UseEntry.ofUse (ScopeEvent.bindings (moduleEvents ss)) u).adoptedBy
        (s.steps (moduleEvents [stmt])).declared
        (((s.steps (moduleEvents [stmt])).moduleBindings.drop
          s.moduleBindings.length).map Binding.key)
      = UseEntry.ofUse (s.steps (moduleEvents [stmt])).declared u := by
  have hresolve := resolve?_bindings_register hd hu
  have hafter : Binding.resolve? (s.steps (moduleEvents [stmt])).declared u.1 u.2.name
      = Binding.resolve? (ScopeEvent.bindings (moduleEvents ss ++ moduleEvents [stmt]))
          u.1 u.2.name :=
    Binding.resolve?_congr fun f _ => h.first?_declared_register stmt (f, u.2.name)
  refine UseEntry.adoptedBy_ofUse (fun b hb => ?_) (fun b hnone hb => ?_)
  · rw [hafter, hresolve, hb, Option.some_or]
  · -- the name meant nothing, so it is a new one of the module
    rw [hafter, hresolve, hnone, Option.none_or] at hb
    obtain ⟨pre, hchain, -⟩ := chain_of_mem_uses hu
    have hold : Binding.first? (ScopeEvent.bindings (moduleEvents ss)) (.module, u.2.name)
        = none :=
      Binding.resolve?_eq_none_iff.1 hnone .module (by rw [hchain]; simp)
    refine key_mem_drop_moduleBindings (by rw [h.first, hold]) ?_
    rw [h.first?_declared_register, ScopeEvent.bindings_append, Binding.first?_append, hold,
      Option.none_or, hb]

/-- **Taking in a statement** is recorded, whatever it declares: first declarations stay first. -/
theorem register (h : s.Records (moduleEvents ss)) (hd : Distinct (stmt :: ss)) :
    (s.register stmt).Records (moduleEvents ss ++ moduleEvents [stmt]) := by
  have hevents : stmt.declares [.module] ++ stmt.walk [.module] = moduleEvents [stmt] := by
    simp [moduleEvents, declaresList, walkList]
  have hone : Distinct [stmt] := hd.sublist ((List.nil_sublist ss).cons_cons stmt)
  have hsteps := h.keeps.steps hone.pairwise_before fun e he => by
    rw [UseEntry.numbers_current, uses_moduleEvents]
    exact number_notMem_of_distinct hd he
  have hrecorded : ∀ b ∈ (s.steps (moduleEvents [stmt])).moduleBindings.drop
      s.moduleBindings.length,
      b.key ∈ (s.steps (moduleEvents [stmt])).bindings.map Binding.key := fun b hb =>
    List.mem_map_of_mem (List.mem_filter.1 (List.mem_of_mem_drop hb)).1
  have hadopt := hsteps.foldl_adopt hrecorded
  rw [Scope.register, hevents]
  refine ⟨fun key => ?_, ?_, fun name hname => ?_⟩
  · rw [declared_foldl_adopt, h.first?_declared_register]
  · rw [ScopeEvent.uses_append,
      ← UseEntry.current_congr (h.first?_declared_register stmt), UseEntry.current_append]
    rw [← UseEntry.current_congr (first?_declared_steps s (moduleEvents [stmt])),
      List.map_append] at hadopt
    convert hadopt using 2
    · rw [UseEntry.current, UseEntry.current, List.map_map]
      exact List.map_congr_left fun u hu => (h.adoptedBy_register hd hu).symm
    · rw [UseEntry.current, List.map_map]
      exact List.map_congr_left fun u _ => (UseEntry.adoptedBy_ofUse_self _ _ u).symm
  · rw [hasName_foldl_adopt, hasName_steps]
    rw [ScopeEvent.names_append, List.mem_append] at hname
    exact hname.imp_left (h.taken name)

/-- A new statement and the ones that are there do not declare the same name in the same frame, if
they do not in the module. -/
theorem first?_none_or (hd : Distinct (stmt :: ss)) {s : Scope} (h : s.Records (moduleEvents ss))
    (hnew : ∀ name ∈ ScopeEvent.names (stmt.declares [.module]), s.moduleBinding? name = none)
    (key : BindingKey) :
    Binding.first? (ScopeEvent.bindings (moduleEvents ss)) key = none ∨
      Binding.first? (ScopeEvent.bindings (moduleEvents [stmt])) key = none := by
  obtain ⟨frame, name⟩ := key
  by_cases hsome : ∃ b ∈ ScopeEvent.bindings (moduleEvents [stmt]), b.key = (frame, name)
  · refine Or.inl ?_
    obtain ⟨b, hb, hkey⟩ := hsome
    obtain ⟨rfl, rfl⟩ := Prod.mk.inj hkey
    rcases frame_of_mem_bindings hb with hframe | hframe
    · -- in the module, where the name is new
      have hname : b.name ∈ ScopeEvent.names (stmt.declares [.module]) := by
        rw [moduleEvents, ScopeEvent.bindings_append, List.mem_append] at hb
        rcases hb with hb | hb
        · simpa [declaresList] using ScopeEvent.name_mem_names_of_mem_bindings hb
        · exact absurd hkey
            (Binding.first?_eq_none_iff.1 (hframe ▸ first?_walkList_module [stmt] b.name) b hb)
      have hnone := hnew b.name hname
      rw [hframe, ← h.first]
      simpa [moduleBinding?, isSome_inFrame?] using congrArg Option.isSome hnone
    · -- in a frame of the statement, which nothing else declares in
      refine Binding.first?_eq_none_iff.2 fun c hc hkey' => ?_
      have hcb : c.frame = b.frame := congrArg Prod.fst hkey'
      have hnodup := hd.frames
      rw [framesList, List.nodup_append'] at hnodup
      rw [framesList, framesList, List.append_nil] at hframe
      rcases frame_of_mem_bindings hc with hframe' | hframe'
      · have hmod : b.frame ∈ framesList (stmt :: ss) := by
          rw [framesList]
          exact List.mem_append_left _ hframe
        rw [← hcb, hframe'] at hmod
        exact module_notMem_framesList _ hmod
      · exact hnodup.2.2 hframe (hcb ▸ hframe')
  · exact Or.inr (Binding.first?_eq_none_iff.2 fun b hb hkey => hsome ⟨b, hb, hkey⟩)

/-- **A statement may be put anywhere** in a module that declares none of its names: the scope that
took it in records the events of the module as it is then. -/
theorem insert {front back : List Stmt} (h : s.Records (moduleEvents (front ++ back)))
    (hd : Distinct (stmt :: (front ++ back)))
    (hnew : ∀ name ∈ ScopeEvent.names (stmt.declares [.module]), s.moduleBinding? name = none) :
    (s.register stmt).Records (moduleEvents (front ++ stmt :: back)) := by
  refine (h.register hd).congr (fun key => ?_) ((moduleEvents_insert_perm ..).filterMap _)
    ((moduleEvents_insert_perm ..).filterMap _).symm.subset
  rw [ScopeEvent.bindings_append, Binding.first?_append,
    first?_moduleEvents_insert (first?_none_or hd h hnew key)]

end Records

end Scope

end MessageBinder
