import MessageBinder.Proofs.Draft.Hygiene

/-!
# Tracking a pass

What a pass does to the names of a module can be told without a look at the tree. A use that means
an imported name which was bound has the name of its constant, and every other use is as it was
(`MessageBinder.Rebinding.applied`); beside these there are the uses and the declarations of added
statements. `MessageBinder.Draft.Tracks` says this of the events of a draft, and every operation
of the pass keeps it.

**Nothing is captured.** A name of the module means in the draft what it means in the module, since
what was added declares new names only (`MessageBinder.Draft.Tracks.resolve?_taken`); and a use that
got a new name does not mean anything of the module.
-/

namespace MessageBinder

/-! ### Imported names -/

/-- A specifier belongs to an import of the module. -/
def Module.Imports (m : Module) (stmt : Stmt) (s : ImportSpecifier) : Prop :=
  stmt ∈ m.body ∧ ∃ specifiers source o, stmt = .importDecl specifiers source o ∧ s ∈ specifiers

/-- The names that a module itself declares: imports, declarations and hoisted variables. -/
def Module.declaredNames (m : Module) : List String :=
  (ScopeEvent.bindings (Stmt.declaresList [.module] m.body)).map Binding.name

/-- The binding that a specifier makes. -/
def ImportSpecifier.madeBinding (s : ImportSpecifier) (stmt : Stmt) : Binding :=
  ⟨s.binding.name, .importName, s.binding, stmt.origin, .module, []⟩

namespace Module

variable {m : Module} {stmt stmt' : Stmt} {s s' : ImportSpecifier}

theorem bindings_events (m : Module) :
    ScopeEvent.bindings m.events = ScopeEvent.bindings (Stmt.declaresList [.module] m.body)
      ++ ScopeEvent.bindings (Stmt.walkList [.module] m.body) :=
  ScopeEvent.bindings_append _ _

/-- Different declarations have different identifiers. -/
theorem Numbered.nodup_bindings (h : m.Numbered) :
    ((ScopeEvent.bindings m.events).map (·.identifier.origin.id)).Nodup := by
  have hnumber : ∀ {ids ids' : List Identifier}, ids.Perm ids' →
      ((Identifier.numbers ids).Nodup ↔ (Identifier.numbers ids').Nodup) := fun hp =>
    (hp.map fun id : Identifier => id.origin.id).nodup_iff
  have hall : (Identifier.numbers (m.uses ++ (m.noticed ++ m.overlooked))).Nodup :=
    (hnumber (m.perm_binders.append_left m.uses)).2
      (Stmt.nodup_uses_append_binders h.distinct.identifiers)
  have hnoticed : (Identifier.numbers (m.uses ++ m.noticed)).Nodup := by
    rw [← List.append_assoc] at hall
    exact hall.sublist ((List.sublist_append_left _ _).map _)
  have hdeclared := (hnumber (ScopeEvent.perm_mentioned m.events)).2
    ((hnumber m.perm_mentioned).2 hnoticed)
  rw [Identifier.numbers, List.map_append, List.map_map] at hdeclared
  exact (List.nodup_append'.1 hdeclared).1

/-- The number of a use is below that of the module. -/
theorem Numbered.use_lt (h : m.Numbered) {u : Chain × Identifier}
    (hu : u ∈ ScopeEvent.uses m.events) : u.2.origin.id < m.next := by
  have huse : u.2 ∈ m.uses := by
    rw [uses, ← Stmt.uses_moduleEvents]
    exact List.mem_map_of_mem hu
  exact h.identifier_lt u.2
    (Stmt.uses_append_binders_subset m.body (List.mem_append_left _ huse))

/-- A use has a taken name. -/
theorem hasName_of_mem_uses {u : Chain × Identifier} (hu : u ∈ ScopeEvent.uses m.events) :
    m.scope.hasName u.2.name :=
  (Scope.hasName_steps {} m.events _).2 (Or.inr (ScopeEvent.name_mem_names_of_mem_uses hu))

namespace Imports

theorem madeBinding_mem (h : m.Imports stmt s) :
    s.madeBinding stmt ∈ ScopeEvent.bindings (Stmt.declaresList [.module] m.body) := by
  obtain ⟨hstmt, specifiers, source, o, rfl, hs⟩ := h
  refine ScopeEvent.mem_bindings.2 ⟨[.module], s.binding, .importName, o, ?_, rfl⟩
  exact List.mem_flatMap_of_mem hstmt (List.mem_map_of_mem hs)

/-- A specifier is what its name means in the module, where the names of the module differ. -/
theorem first?_eq (h : m.Imports stmt s) (hnames : m.declaredNames.Nodup) :
    Binding.first? (ScopeEvent.bindings m.events) (.module, s.binding.name)
      = some (s.madeBinding stmt) := by
  have hmem := h.madeBinding_mem
  have hsome : (Binding.first? (ScopeEvent.bindings (Stmt.declaresList [.module] m.body))
      (.module, s.binding.name)).isSome :=
    Binding.first?_isSome_iff.2 ⟨s.madeBinding stmt, hmem, rfl⟩
  rw [bindings_events, Binding.first?_append_of_isSome hsome]
  obtain ⟨b, hb⟩ := Option.isSome_iff_exists.1 hsome
  have hname : b.name = (s.madeBinding stmt).name :=
    congrArg Prod.snd (Binding.key_of_first? hb)
  rw [hb, List.inj_on_of_nodup_map hnames (Binding.mem_of_first? hb) hmem hname]

/-- The binding that a specifier makes is the only one with its identifier. -/
theorem eq_madeBinding (h : m.Imports stmt s) (hm : m.Numbered) {b : Binding}
    (hb : b ∈ ScopeEvent.bindings m.events) (hid : b.identifier = s.binding) :
    b = s.madeBinding stmt := by
  have hmem : s.madeBinding stmt ∈ ScopeEvent.bindings m.events := by
    rw [bindings_events]
    exact List.mem_append_left _ h.madeBinding_mem
  refine List.inj_on_of_nodup_map hm.nodup_bindings hb hmem ?_
  rw [hid]
  rfl

/-- Specifiers with the same name are the same binding. -/
theorem binding_eq (h : m.Imports stmt s) (h' : m.Imports stmt' s')
    (hnames : m.declaredNames.Nodup) (hname : s.binding.name = s'.binding.name) :
    s.binding = s'.binding := by
  have heq := (h.first?_eq hnames).symm.trans (hname ▸ h'.first?_eq hnames)
  exact congrArg Binding.identifier (Option.some.inj heq)

/-- The number of a specifier is below that of the module. -/
theorem binding_lt (h : m.Imports stmt s) (hm : m.Numbered) :
    s.binding.origin.id < m.next := by
  obtain ⟨hstmt, specifiers, source, o, rfl, hs⟩ := h
  refine hm.identifier_lt s.binding ?_
  rw [identifiers, Stmt.identifiersList_eq_flatMap]
  exact List.mem_flatMap_of_mem hstmt (List.mem_map_of_mem hs)

/-- The name of a specifier is taken. -/
theorem hasName (h : m.Imports stmt s) : m.scope.hasName s.binding.name := by
  refine (Scope.hasName_steps {} m.events _).2 (Or.inr ?_)
  have hmem : s.madeBinding stmt ∈ ScopeEvent.bindings m.events := by
    rw [bindings_events]
    exact List.mem_append_left _ h.madeBinding_mem
  exact ScopeEvent.name_mem_names_of_mem_bindings hmem

end Imports

end Module

/-! ### Bound names -/

/-- A specifier whose uses were bound: the import that it belongs to, the name of the constant, and
the number at which the constant was added. -/
structure Rebinding where
  /-- The import. -/
  stmt : Stmt
  /-- The specifier. -/
  specifier : ImportSpecifier
  /-- The name of the constant. -/
  name : String
  /-- The number of the constant. -/
  id : Nat

namespace Rebinding

/-- The constant, with the messages in the given variable. -/
def constant (r : Rebinding) (messages : String) : Stmt :=
  .boundConstant r.name r.specifier.binding.name messages r.id

/-- The identifier that the constant declares. -/
def declared (r : Rebinding) : Identifier := Stmt.addedId r.name (r.id + 1)

/-- The use of the specifier in the constant. -/
def function (r : Rebinding) : Identifier := Stmt.addedId r.specifier.binding.name (r.id + 2)

/-- The use of the messages in the constant. -/
def argument (r : Rebinding) (messages : String) : Identifier := Stmt.addedId messages (r.id + 3)

/-- The one of several whose specifier a use means, if there is one. -/
def meant? (rs : List Rebinding) (ds : List Binding) (u : Chain × Identifier) : Option Rebinding :=
  (Binding.resolve? ds u.1 u.2.name).bind fun b =>
    rs.find? (·.specifier.binding = b.identifier)

/-- A use after several were bound. -/
def applied (rs : List Rebinding) (ds : List Binding) (u : Chain × Identifier) :
    Chain × Identifier :=
  match meant? rs ds u with
  | some r => (u.1, { u.2 with name := r.name })
  | none => u

/-- Binding changes names only. -/
@[simp] theorem number_applied (rs : List Rebinding) (ds : List Binding)
    (u : Chain × Identifier) : (applied rs ds u).2.origin.id = u.2.origin.id := by
  rw [applied]
  split <;> rfl

/-- Binding changes names only. -/
@[simp] theorem chain_applied (rs : List Rebinding) (ds : List Binding)
    (u : Chain × Identifier) : (applied rs ds u).1 = u.1 := by
  rw [applied]
  split <;> rfl

theorem meant?_eq_some {rs : List Rebinding} {ds : List Binding} {u : Chain × Identifier}
    {r : Rebinding} (h : meant? rs ds u = some r) :
    r ∈ rs ∧ ∃ b, Binding.resolve? ds u.1 u.2.name = some b ∧
      b.identifier = r.specifier.binding := by
  obtain ⟨b, hb, hfind⟩ := Option.bind_eq_some_iff.1 h
  have hspecifier : r.specifier.binding = b.identifier := by simpa using List.find?_some hfind
  exact ⟨List.mem_of_find?_eq_some hfind, b, hb, hspecifier.symm⟩

/-- A use that means a specifier means its rebinding, where each specifier has one. -/
theorem meant?_of_mem {rs : List Rebinding} {ds : List Binding} {u : Chain × Identifier}
    {r : Rebinding} {b : Binding} (hnodup : (rs.map (·.specifier.binding)).Nodup) (hr : r ∈ rs)
    (hb : Binding.resolve? ds u.1 u.2.name = some b) (hid : b.identifier = r.specifier.binding) :
    meant? rs ds u = some r := by
  rw [meant?, hb, Option.bind_some]
  have hsome : (rs.find? (·.specifier.binding = b.identifier)).isSome :=
    List.find?_isSome.2 ⟨r, hr, decide_eq_true hid.symm⟩
  obtain ⟨r', hr'⟩ := Option.isSome_iff_exists.1 hsome
  have hid' : r'.specifier.binding = b.identifier := by simpa using List.find?_some hr'
  rw [hr', List.inj_on_of_nodup_map hnodup (List.mem_of_find?_eq_some hr') hr (hid'.trans hid)]

/-- One more rebinding is meant by the uses that meant none and mean its specifier. -/
theorem meant?_append_singleton (rs : List Rebinding) (r : Rebinding) (ds : List Binding)
    (u : Chain × Identifier) :
    meant? (rs ++ [r]) ds u = (meant? rs ds u).or
      ((Binding.resolve? ds u.1 u.2.name).bind fun b =>
        if r.specifier.binding = b.identifier then some r else none) := by
  rw [meant?, meant?]
  cases Binding.resolve? ds u.1 u.2.name with
  | none => rfl
  | some b =>
    simp only [Option.bind_some, List.find?_append]
    by_cases h : r.specifier.binding = b.identifier <;> simp [h]

theorem applied_of_meant? {rs : List Rebinding} {ds : List Binding} {u : Chain × Identifier}
    {r : Rebinding} (h : meant? rs ds u = some r) :
    applied rs ds u = (u.1, { u.2 with name := r.name }) := by
  rw [applied, h]

theorem applied_of_meant?_eq_none {rs : List Rebinding} {ds : List Binding}
    {u : Chain × Identifier} (h : meant? rs ds u = none) : applied rs ds u = u := by
  rw [applied, h]

/-- Renaming a use that means a specifier which was not bound binds it as one more. -/
theorem rename_applied {rs : List Rebinding} {ds : List Binding} {u : Chain × Identifier}
    {numbers : List Nat} (r : Rebinding)
    (h : (applied rs ds u).2.origin.id ∈ numbers ↔ meant? rs ds u = none ∧
      ∃ b, Binding.resolve? ds u.1 u.2.name = some b ∧ b.identifier = r.specifier.binding) :
    (if (applied rs ds u).2.origin.id ∈ numbers then
        ((applied rs ds u).1, { (applied rs ds u).2 with name := r.name })
      else applied rs ds u) = applied (rs ++ [r]) ds u := by
  have happend := meant?_append_singleton rs r ds u
  cases hmeant : meant? rs ds u with
  | some r' =>
    rw [hmeant, Option.some_or] at happend
    rw [if_neg fun hmem => by simp [(h.1 hmem).1] at hmeant, applied_of_meant? hmeant,
      applied_of_meant? happend]
  | none =>
    rw [hmeant, Option.none_or] at happend
    rw [applied_of_meant?_eq_none hmeant] at h ⊢
    by_cases hmem : u.2.origin.id ∈ numbers
    · obtain ⟨-, b, hb, hid⟩ := h.1 hmem
      rw [hb, Option.bind_some, if_pos hid.symm] at happend
      rw [if_pos hmem, applied_of_meant? happend]
    · have hnone : meant? (rs ++ [r]) ds u = none := by
        rw [happend, Option.bind_eq_none_iff]
        intro b hb
        exact if_neg fun hid => hmem (h.2 ⟨hmeant, b, hb, hid.symm⟩)
      rw [if_neg hmem, applied_of_meant?_eq_none hnone]

end Rebinding

/-! ### The events of a draft -/

namespace Draft

/-- **A draft tracks a pass**: its events are those of the module with specifiers bound, and more
that have to do with new names and with the constants of the specifiers. -/
structure Tracks (m : Module) (rs : List Rebinding) (d : Draft) : Prop where
  /-- Names of the module are declared as they are there. -/
  kept : ∀ key : BindingKey, m.scope.hasName key.2 →
    Binding.first? (ScopeEvent.bindings d.events) key
      = Binding.first? (ScopeEvent.bindings m.events) key
  /-- The uses are those of the module after binding; others are those of new names and, in the
  constants, those of the specifiers. -/
  uses : ∃ more, (ScopeEvent.uses d.events).Perm
      ((ScopeEvent.uses m.events).map (Rebinding.applied rs (ScopeEvent.bindings m.events))
        ++ more) ∧
    ∀ u ∈ more, ¬ m.scope.hasName u.2.name ∨ ∃ r ∈ rs, u.2 = r.function
  /-- Specifiers of imports were bound, to new names. -/
  rebound : ∀ r ∈ rs, m.Imports r.stmt r.specifier ∧ ¬ m.scope.hasName r.name

/-- A draft of a module as it was read tracks a pass that has not begun. -/
theorem tracks_ofModule (m : Module) : Tracks m [] (ofModule m) where
  kept _ _ := rfl
  uses := by
    have happlied : ∀ u, Rebinding.applied [] (ScopeEvent.bindings m.events) u = u := fun u => by
      have hnone : Rebinding.meant? [] (ScopeEvent.bindings m.events) u = none := by
        simp [Rebinding.meant?]
      exact Rebinding.applied_of_meant?_eq_none hnone
    refine ⟨[], ?_, by simp⟩
    rw [List.map_congr_left fun u _ => happlied u, List.map_id', List.append_nil]
    exact List.Perm.refl _
  rebound := by simp

namespace Tracks

variable {m : Module} {rs : List Rebinding} {d d' : Draft}

/-- Only the events count. -/
theorem congr (h : d.Tracks m rs) (hevents : d'.events = d.events) : d'.Tracks m rs where
  kept := hevents ▸ h.kept
  uses := hevents ▸ h.uses
  rebound := h.rebound

/-- **A name of the module means what it meant.** -/
theorem resolve?_taken (h : d.Tracks m rs) {name : String} (hname : m.scope.hasName name)
    (c : Chain) : Binding.resolve? (ScopeEvent.bindings d.events) c name
      = Binding.resolve? (ScopeEvent.bindings m.events) c name :=
  Binding.resolve?_congr fun f _ => h.kept (f, name) hname

/-- **What means a specifier that was not bound**: the uses that meant it in the module. -/
theorem key_applied_iff (h : d.Tracks m rs) (hm : m.Numbered) (hnames : m.declaredNames.Nodup)
    {stmt : Stmt} {s : ImportSpecifier} (hs : m.Imports stmt s)
    {u : Chain × Identifier} (hu : u ∈ ScopeEvent.uses m.events) :
    (Binding.resolve? (ScopeEvent.bindings d.events)
        (Rebinding.applied rs (ScopeEvent.bindings m.events) u).1
        (Rebinding.applied rs (ScopeEvent.bindings m.events) u).2.name).map Binding.key
          = some (.module, s.binding.name)
      ↔ Rebinding.meant? rs (ScopeEvent.bindings m.events) u = none ∧
        ∃ b, Binding.resolve? (ScopeEvent.bindings m.events) u.1 u.2.name = some b ∧
          b.identifier = s.binding := by
  cases hmeant : Rebinding.meant? rs (ScopeEvent.bindings m.events) u with
  | some r =>
    -- the use has a new name, which is not that of the specifier
    rw [Rebinding.applied_of_meant? hmeant]
    refine iff_of_false (fun hkey => ?_) fun hnone => by simp at hnone
    have hname : r.name = s.binding.name := Binding.eq_of_key_resolve? hkey
    exact (h.rebound r (Rebinding.meant?_eq_some hmeant).1).2 (hname ▸ hs.hasName)
  | none =>
    rw [Rebinding.applied_of_meant?_eq_none hmeant,
      h.resolve?_taken (Module.hasName_of_mem_uses hu)]
    constructor
    · intro hkey
      obtain ⟨b, hb, hkey⟩ := Option.map_eq_some_iff.1 hkey
      refine ⟨rfl, b, hb, ?_⟩
      have hfirst := (Binding.first?_key_of_resolve? hb).symm.trans (hkey ▸ hs.first?_eq hnames)
      rw [Option.some.inj hfirst]
      rfl
    · rintro ⟨-, b, hb, hid⟩
      rw [hb, hs.eq_madeBinding hm (Binding.mem_of_resolve? hb) hid]
      rfl

end Tracks

end Draft

/-! ### Binding a specifier -/

namespace Draft

theorem InOrder.bindings_renameUses {d : Draft} (h : d.InOrder) {ids : List Identifier}
    (hids : ∀ id ∈ ids, ∃ c, (c, id) ∈ ScopeEvent.uses d.events)
    (hnodup : (Identifier.numbers ids).Nodup) (name : String) :
    ScopeEvent.bindings (d.renameUses name ids).events = ScopeEvent.bindings d.events :=
  (h.renameUses_induction name
    (P := fun d' => ScopeEvent.bindings d'.events = ScopeEvent.bindings d.events)
    hids hnodup rfl fun _ _ _ hd hP _ hu => (hd.bindings_renameUse hu name).trans hP).2

/-- Renaming the uses of a binding declares nothing else. -/
theorem InOrder.bindings_renameUses_uses {d : Draft} (h : d.InOrder) {binding : Binding}
    (hmem : binding ∈ d.scope.bindings) (name : String) :
    ScopeEvent.bindings (d.renameUses name binding.uses).events = ScopeEvent.bindings d.events :=
  h.bindings_renameUses (fun _ => h.exists_use hmem) (h.nodup_uses hmem) name

namespace Tracks

variable {m : Module} {rs : List Rebinding} {d : Draft} {stmt : Stmt} {s : ImportSpecifier}

/-- An added use does not have the name of a specifier that was not bound. -/
theorem name_ne_of_added (h : d.Tracks m rs) (hnames : m.declaredNames.Nodup)
    (hs : m.Imports stmt s) (hnew : ∀ r ∈ rs, r.specifier.binding ≠ s.binding) {id : Identifier}
    (hadded : ¬ m.scope.hasName id.name ∨ ∃ r ∈ rs, id = r.function) :
    id.name ≠ s.binding.name := by
  rintro hname
  rcases hadded with hfree | ⟨r, hr, rfl⟩
  · exact hfree (hname ▸ hs.hasName)
  · exact hnew r hr ((h.rebound r hr).1.binding_eq hs hnames hname)

/-- What means a specifier that was not bound is a use of the module. -/
theorem exists_of_key (h : d.Tracks m rs) (hnames : m.declaredNames.Nodup) (hs : m.Imports stmt s)
    (hnew : ∀ r ∈ rs, r.specifier.binding ≠ s.binding) {u : Chain × Identifier}
    (hu : u ∈ ScopeEvent.uses d.events)
    (hkey : (Binding.resolve? (ScopeEvent.bindings d.events) u.1 u.2.name).map Binding.key
      = some (.module, s.binding.name)) :
    ∃ u₀ ∈ ScopeEvent.uses m.events,
      Rebinding.applied rs (ScopeEvent.bindings m.events) u₀ = u := by
  obtain ⟨more, hperm, hmore⟩ := h.uses
  rcases List.mem_append.1 (hperm.mem_iff.1 hu) with hold | hadded
  · exact List.mem_map.1 hold
  · exact absurd (Binding.eq_of_key_resolve? hkey)
      (h.name_ne_of_added hnames hs hnew (hmore u hadded))

/-- The uses that a specifier lists that was not bound. -/
theorem mem_uses_iff (h : d.Tracks m rs) (hd : d.InOrder) (hm : m.Numbered)
    (hnames : m.declaredNames.Nodup) (hs : m.Imports stmt s)
    (hnew : ∀ r ∈ rs, r.specifier.binding ≠ s.binding) {b : Binding}
    (hb : d.scope.moduleBinding? s.binding.name = some b) {id : Identifier} :
    id ∈ b.uses ↔ ∃ u ∈ ScopeEvent.uses m.events, id = u.2 ∧
      ∃ b', Binding.resolve? (ScopeEvent.bindings m.events) u.1 u.2.name = some b' ∧
        b'.identifier = s.binding := by
  obtain ⟨hmem, hkey⟩ := mem_bindings_of_moduleBinding? hb
  rw [hd.mem_uses_iff hmem, hkey]
  constructor
  · rintro ⟨c, hu, hmeans⟩
    obtain ⟨u₀, hu₀, happlied⟩ := h.exists_of_key hnames hs hnew hu hmeans
    have hkeys := h.key_applied_iff hm hnames hs hu₀
    rw [happlied] at hkeys
    obtain ⟨hnone, hspecifier⟩ := hkeys.1 hmeans
    rw [Rebinding.applied_of_meant?_eq_none hnone] at happlied
    exact ⟨u₀, hu₀, by rw [happlied], hspecifier⟩
  · rintro ⟨u, hu, rfl, hspecifier⟩
    -- nothing that was bound is this specifier
    have hnone : Rebinding.meant? rs (ScopeEvent.bindings m.events) u = none := by
      refine Option.eq_none_iff_forall_ne_some.2 fun r hr => ?_
      obtain ⟨hmemr, b₁, hb₁, hid₁⟩ := Rebinding.meant?_eq_some hr
      obtain ⟨b₂, hb₂, hid₂⟩ := hspecifier
      obtain rfl := Option.some.inj (hb₁.symm.trans hb₂)
      exact hnew r hmemr (hid₁.symm.trans hid₂)
    have hkeys := (h.key_applied_iff hm hnames hs hu).2 ⟨hnone, hspecifier⟩
    have happlied := Rebinding.applied_of_meant?_eq_none hnone
    rw [happlied] at hkeys
    refine ⟨u.1, ?_, hkeys⟩
    obtain ⟨more, hperm, -⟩ := h.uses
    exact hperm.mem_iff.2 (List.mem_append_left _ (List.mem_map.2 ⟨u, hu, happlied⟩))

/-- A specifier has a binding. -/
theorem exists_moduleBinding? (h : d.Tracks m rs) (hd : d.InOrder)
    (hnames : m.declaredNames.Nodup) (hs : m.Imports stmt s) :
    ∃ b, d.scope.moduleBinding? s.binding.name = some b := by
  rw [← Option.isSome_iff_exists, Scope.moduleBinding?, Scope.isSome_inFrame?, hd.records.first]
  rw [h.kept (.module, s.binding.name) hs.hasName, hs.first?_eq hnames]
  rfl

/-- **Renaming what a specifier lists binds it.** -/
theorem rebind (h : d.Tracks m rs) (hd : d.InOrder) (hm : m.Numbered)
    (hnames : m.declaredNames.Nodup) (hs : m.Imports stmt s)
    (hnew : ∀ r ∈ rs, r.specifier.binding ≠ s.binding) {b : Binding}
    (hb : d.scope.moduleBinding? s.binding.name = some b) {name : String}
    (hname : ¬ m.scope.hasName name) (id : Nat) :
    (d.renameUses name b.uses).Tracks m (rs ++ [⟨stmt, s, name, id⟩]) := by
  obtain ⟨hmem, hkey⟩ := mem_bindings_of_moduleBinding? hb
  have hlisted : ∀ u ∈ ScopeEvent.uses d.events, u.2.origin.id ∈ Identifier.numbers b.uses ↔
      (Binding.resolve? (ScopeEvent.bindings d.events) u.1 u.2.name).map Binding.key
        = some (.module, s.binding.name) := fun u hu => hkey ▸ hd.mem_numbers_iff hmem hu
  obtain ⟨more, hperm, hmore⟩ := h.uses
  refine ⟨fun key hkey' => ?_, ⟨more, ?_, fun u hu => ?_⟩, fun r hr => ?_⟩
  · rw [hd.bindings_renameUses_uses hmem]
    exact h.kept key hkey'
  · rw [uses_renameUses]
    refine (hperm.map _).trans (List.Perm.of_eq ?_)
    rw [List.map_append, List.map_map]
    have hthere : ∀ u ∈ more, u ∈ ScopeEvent.uses d.events := fun u hu =>
      hperm.mem_iff.2 (List.mem_append_right _ hu)
    congr 1
    · refine List.map_congr_left fun u hu => ?_
      have hu' : Rebinding.applied rs (ScopeEvent.bindings m.events) u
          ∈ ScopeEvent.uses d.events :=
        hperm.mem_iff.2 (List.mem_append_left _ (List.mem_map_of_mem hu))
      have hiff := (hlisted _ hu').trans (h.key_applied_iff hm hnames hs hu)
      exact Rebinding.rename_applied ⟨stmt, s, name, id⟩ hiff
    · refine (List.map_congr_left fun u hu => if_neg fun hnumber => ?_).trans (List.map_id' more)
      exact h.name_ne_of_added hnames hs hnew (hmore u hu)
        (Binding.eq_of_key_resolve? ((hlisted u (hthere u hu)).1 hnumber))
  · exact (hmore u hu).imp_right fun ⟨r, hr, heq⟩ => ⟨r, List.mem_append_left _ hr, heq⟩
  · rcases List.mem_append.1 hr with hr | hr
    · exact h.rebound r hr
    · obtain rfl := List.mem_singleton.1 hr
      exact ⟨hs, hname⟩

end Tracks

end Draft

/-! ### Added statements -/

namespace Draft

variable {m : Module} {pending : List String} {d : Draft}

/-- **An added binding of the module is what its name means**, everywhere. -/
theorem Extends.resolve?_added (h : d.Extends m pending) {b : Binding}
    (hb : b ∈ ScopeEvent.bindings d.events) (hframe : b.frame = .module)
    (hadded : m.next ≤ b.identifier.origin.id) {c : Chain} (hc : .module ∈ c) :
    Binding.resolve? (ScopeEvent.bindings d.events) c b.name = some b := by
  have hmem : b ∈ d.addedBindings m.next := List.mem_filter.2 ⟨hb, decide_eq_true hadded⟩
  have hfresh := h.fresh b.name (List.mem_append_right _ (List.mem_map_of_mem hmem))
  refine Binding.resolve?_of_forall_eq hb (hframe ▸ hc) fun b' hb' hname => ?_
  by_cases hlt : b'.identifier.origin.id < m.next
  · exact absurd (hname ▸ h.declared b' hb' hlt) hfresh.2
  · have hmem' : b' ∈ d.addedBindings m.next := List.mem_filter.2 ⟨hb', by simpa using hlt⟩
    exact List.inj_on_of_nodup_map (List.nodup_append'.1 h.nodup).2.1 hmem' hmem hname

/-- An added statement that declares pending names declares no name of the module. -/
theorem Extends.first?_inserted_of_hasName (h : d.Extends m pending) {front back : List Stmt}
    {stmt : Stmt} (tails : List (Nat × Stmt)) (hbody : d.sequence.body = front ++ back)
    (hadded : stmt.AddedAt d.next)
    (hnames : ∀ b ∈ ScopeEvent.bindings (Stmt.moduleEvents [stmt]), b.name ∈ pending)
    {key : BindingKey} (hkey : m.scope.hasName key.2) :
    Binding.first? (ScopeEvent.bindings (d.inserted front stmt back tails).events) key
      = Binding.first? (ScopeEvent.bindings d.events) key := by
  have hnone : Binding.first? (ScopeEvent.bindings (Stmt.moduleEvents [stmt])) key = none := by
    refine Binding.first?_eq_none_iff.2 fun b hb heq => ?_
    have hfresh := (h.fresh _ (List.mem_append_left _ (hnames b hb))).2
    rw [show b.name = key.2 from congrArg Prod.snd heq] at hfresh
    exact hfresh hkey
  rw [h.inOrder.first?_inserted hbody hadded (fun b hb => h.undeclared (hnames b hb)) key,
    hnone, Option.or_none]

/-- **An added statement** that declares pending names and uses new names, or a specifier that was
bound, is tracked. -/
theorem Tracks.insert {rs : List Rebinding} (h : d.Tracks m rs) (hext : d.Extends m pending)
    {front back : List Stmt} {stmt : Stmt} (tails : List (Nat × Stmt))
    (hbody : d.sequence.body = front ++ back) (hadded : stmt.AddedAt d.next)
    (hnames : ∀ b ∈ ScopeEvent.bindings (Stmt.moduleEvents [stmt]), b.name ∈ pending)
    (hused : ∀ u ∈ ScopeEvent.uses (Stmt.moduleEvents [stmt]),
      ¬ m.scope.hasName u.2.name ∨ ∃ r ∈ rs, u.2 = r.function) :
    (d.inserted front stmt back tails).Tracks m rs := by
  refine ⟨fun key hkey => ?_, ?_, h.rebound⟩
  · rw [hext.first?_inserted_of_hasName tails hbody hadded hnames hkey]
    exact h.kept key hkey
  · obtain ⟨more, hperm, hmore⟩ := h.uses
    refine ⟨more ++ ScopeEvent.uses (Stmt.moduleEvents [stmt]), ?_, fun u hu => ?_⟩
    · rw [← List.append_assoc]
      exact (perm_uses_inserted hbody).trans (hperm.append_right _)
    · exact (List.mem_append.1 hu).elim (hmore u) (hused u)

end Draft

end MessageBinder
