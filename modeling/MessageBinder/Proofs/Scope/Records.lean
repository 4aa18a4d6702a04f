import MessageBinder.Proofs.Scope.Moves
import MessageBinder.Proofs.Scope.Nesting

/-!
# Scopes that record events

What a scope ought to know follows from the events of the module alone: the declared bindings are
those of the declarations, and every use goes to what its name means among *all* of them, wherever
they stand. `MessageBinder.Scope.Records` says that a scope knows this. It does not say in which
order the events came: only the first declaration of every name in every frame counts, and of the
uses only which there are. So a scope that was kept up to date through changes and one that was
built afresh can record the same events.

A scope that takes in events one after the other records them
(`MessageBinder.Scope.records_steps`), provided that declarations come before the uses around which
they stand. Every use then has the binding that its name means
(`MessageBinder.Scope.Records.bindingOf?`) and is listed in one place
(`MessageBinder.Scope.Records.listedOnce`).
-/

namespace MessageBinder

namespace ScopeEvent

/-- The bindings that events declare, second declarations included. -/
def bindings (E : List ScopeEvent) : List Binding :=
  E.filterMap fun
    | .declare chain id kind o => some ⟨id.name, kind, id, o, chain.head?.getD .module, []⟩
    | .use .. | .place .. => none

/-- The names that events declare or use. -/
def names (E : List ScopeEvent) : List String :=
  E.filterMap fun
    | .declare _ id _ _ | .use _ id => some id.name
    | .place .. => none

@[simp] theorem bindings_append (E E' : List ScopeEvent) :
    bindings (E ++ E') = bindings E ++ bindings E' :=
  List.filterMap_append

@[simp] theorem names_append (E E' : List ScopeEvent) : names (E ++ E') = names E ++ names E' :=
  List.filterMap_append

theorem mem_bindings {E : List ScopeEvent} {b : Binding} :
    b ∈ bindings E ↔ ∃ chain id kind o, .declare chain id kind o ∈ E ∧
      b = ⟨id.name, kind, id, o, chain.head?.getD .module, []⟩ := by
  rw [bindings, List.mem_filterMap]
  constructor
  · rintro ⟨e, he, heq⟩
    cases e with
    | declare chain id kind o => exact ⟨chain, id, kind, o, he, (Option.some.inj heq).symm⟩
    | _ => simp at heq
  · rintro ⟨chain, id, kind, o, he, rfl⟩
    exact ⟨_, he, rfl⟩

/-- The name of a binding that events declare is one of their names. -/
theorem name_mem_names_of_mem_bindings {E : List ScopeEvent} {b : Binding} (h : b ∈ bindings E) :
    b.name ∈ names E := by
  obtain ⟨chain, id, kind, o, he, rfl⟩ := mem_bindings.1 h
  exact List.mem_filterMap.2 ⟨_, he, rfl⟩

theorem name_mem_names_of_mem_uses {E : List ScopeEvent} {u : Chain × Identifier}
    (h : u ∈ uses E) : u.2.name ∈ names E :=
  List.mem_filterMap.2 ⟨_, mem_uses.1 h, rfl⟩

theorem mem_names {E : List ScopeEvent} {name : String} :
    name ∈ names E ↔ (∃ b ∈ bindings E, b.name = name) ∨ ∃ u ∈ uses E, u.2.name = name := by
  constructor
  · intro h
    obtain ⟨e, he, heq⟩ := List.mem_filterMap.1 h
    cases e with
    | declare chain id kind o =>
      exact Or.inl ⟨_, mem_bindings.2 ⟨chain, id, kind, o, he, rfl⟩, Option.some.inj heq⟩
    | use chain id => exact Or.inr ⟨(chain, id), mem_uses.2 he, Option.some.inj heq⟩
    | place chain id => simp at heq
  · rintro (⟨b, hb, rfl⟩ | ⟨u, hu, rfl⟩)
    · exact name_mem_names_of_mem_bindings hb
    · exact name_mem_names_of_mem_uses hu

end ScopeEvent

namespace UseEntry

/-- The entry of a use among declared bindings, linked to what its name means. -/
def ofUse (ds : List Binding) (u : Chain × Identifier) : UseEntry :=
  ⟨u.1, u.2, (Binding.resolve? ds u.1 u.2.name).map Binding.key⟩

/-- The entries of uses, each linked to what its name means. -/
def current (ds : List Binding) (us : List (Chain × Identifier)) : List UseEntry :=
  us.map (ofUse ds)

@[simp] theorem current_nil (ds : List Binding) : current ds [] = [] := rfl

@[simp] theorem current_append (ds : List Binding) (us us' : List (Chain × Identifier)) :
    current ds (us ++ us') = current ds us ++ current ds us' :=
  List.map_append

@[simp] theorem meaning_ofUse (ds ds' : List Binding) (u : Chain × Identifier) :
    (ofUse ds u).meaning ds' = (ofUse ds' u).link := rfl

theorem numbers_current (ds : List Binding) (us : List (Chain × Identifier)) :
    (current ds us).map number = Identifier.numbers (us.map (·.2)) := by
  simp [current, Identifier.numbers, Function.comp_def, number, ofUse]

theorem mem_current {ds : List Binding} {us : List (Chain × Identifier)} {e : UseEntry} :
    e ∈ current ds us ↔ ∃ u ∈ us, e = ofUse ds u := by
  simp [current, eq_comm]

/-- Entries depend on the first declarations only. -/
theorem ofUse_congr {ds ds' : List Binding}
    (h : ∀ key, Binding.first? ds key = Binding.first? ds' key) (u : Chain × Identifier) :
    ofUse ds u = ofUse ds' u := by
  rw [ofUse, ofUse, Binding.resolve?_congr fun f _ => h (f, u.2.name)]

theorem current_congr {ds ds' : List Binding}
    (h : ∀ key, Binding.first? ds key = Binding.first? ds' key) (us : List (Chain × Identifier)) :
    current ds us = current ds' us :=
  List.map_congr_left fun u _ => ofUse_congr h u

end UseEntry

namespace Scope

/-! ### Taking in events -/

/-- The first declarations of a scope after a declaration. -/
theorem first?_declared_declare (s : Scope) (chain : Chain) (id : Identifier) (kind : BindingKind)
    (o : Origin) (key : BindingKey) :
    Binding.first? (s.declare chain id kind o).declared key
      = Binding.first?
          (s.declared ++ [⟨id.name, kind, id, o, chain.head?.getD .module, []⟩]) key := by
  have hdecl : ((s.reserve id.name).place chain id).declared = s.declared := by simp
  rw [declare]
  split
  · rename_i hsome
    rw [isSome_inFrame?, hdecl] at hsome
    rw [hdecl]
    by_cases hkey : (chain.head?.getD .module, id.name) = key
    · subst hkey
      exact (Binding.first?_append_of_isSome hsome).symm
    · exact (Binding.first?_append_of_forall_ne (by simpa [Binding.key] using hkey)).symm
  · simp [declared, Binding.bare]

@[simp] theorem hasName_declare (s : Scope) (chain : Chain) (id : Identifier) (kind : BindingKind)
    (o : Origin) (name : String) :
    (s.declare chain id kind o).hasName name = (s.hasName name || name = id.name) := by
  rw [declare]
  split
  · simp
  · rw [← hasName_reserve]
    rfl

@[simp] theorem declared_addUse (s : Scope) (chain : Chain) (id : Identifier) :
    (s.addUse chain id).declared = s.declared := by
  simp [addUse]

@[simp] theorem hasName_addUse (s : Scope) (chain : Chain) (id : Identifier) (name : String) :
    (s.addUse chain id).hasName name = (s.hasName name || name = id.name) := by
  simp [addUse]

/-- What a scope that took in events has taken: what it had, and the names of the events. -/
theorem hasName_steps (s : Scope) (E : List ScopeEvent) (name : String) :
    (s.steps E).hasName name ↔ s.hasName name ∨ name ∈ ScopeEvent.names E := by
  induction E generalizing s with
  | nil => simp [steps, ScopeEvent.names]
  | cons e E ih =>
    rw [steps, List.foldl_cons]
    refine (ih (s.step e)).trans ?_
    cases e with
    | declare chain id kind o => simp [step, ScopeEvent.names, or_assoc]
    | use chain id => simp [step, ScopeEvent.names, or_assoc]
    | place chain id => simp [step, ScopeEvent.names]

/-- The scope after events declares what it did and what the events declare. -/
theorem first?_declared_steps (s : Scope) (E : List ScopeEvent) (key : BindingKey) :
    Binding.first? (s.steps E).declared key
      = Binding.first? (s.declared ++ ScopeEvent.bindings E) key := by
  induction E generalizing s with
  | nil => simp [steps, ScopeEvent.bindings]
  | cons e E ih =>
    rw [steps, List.foldl_cons]
    refine (ih (s.step e)).trans ?_
    cases e with
    | declare chain id kind o =>
      rw [step, Binding.first?_append, first?_declared_declare, ← Binding.first?_append]
      simp [ScopeEvent.bindings]
    | use chain id => simp [step, ScopeEvent.bindings]
    | place chain id => simp [step, ScopeEvent.bindings]

/-- **A scope that takes in events** enters their uses in its ledger, each linked to what its name
means among all that is declared in the end. What was in the ledger before is left as it was. -/
theorem Keeps.steps {s : Scope} {L : List UseEntry} (h : s.Keeps L) {E : List ScopeEvent}
    (horder : E.Pairwise ScopeEvent.Before) (hnew : ∀ e ∈ E, e.number ∉ L.map UseEntry.number) :
    (s.steps E).Keeps
      (L ++ UseEntry.current (s.declared ++ ScopeEvent.bindings E) (ScopeEvent.uses E)) := by
  induction E generalizing s L with
  | nil => simpa [Scope.steps, ScopeEvent.uses] using h
  | cons e E ih =>
    obtain ⟨hbefore, htail⟩ := List.pairwise_cons.1 horder
    have hid : e.number ∉ L.map UseEntry.number := hnew e (by simp)
    cases e with
    | declare chain id kind o =>
      have h' := ih (h.declare chain kind o hid) htail fun e he => hnew e (by simp [he])
      -- the new binding is in front of those that are declared later
      have hfirst : ∀ key, Binding.first?
          ((s.declare chain id kind o).declared ++ ScopeEvent.bindings E) key
          = Binding.first?
              (s.declared ++ ScopeEvent.bindings (.declare chain id kind o :: E)) key := by
        intro key
        rw [Binding.first?_append, first?_declared_declare, ← Binding.first?_append,
          List.append_assoc]
        rfl
      rw [UseEntry.current_congr hfirst] at h'
      exact h'
    | use chain id =>
      have h' := ih (h.addUse chain hid) htail fun e he => by
        have hne : id.origin.id ≠ e.number := (hbefore e he).2
        simpa [UseEntry.number, hne.symm] using hnew e (by simp [he])
      -- nothing that is declared later is in a frame around the use
      have hlink : UseEntry.ofUse s.declared (chain, id)
          = UseEntry.ofUse (s.declared ++ ScopeEvent.bindings E) (chain, id) := by
        rw [UseEntry.ofUse, UseEntry.ofUse, Binding.resolve?_append_of_frame_notMem]
        intro b hb
        obtain ⟨c, id', kind, o, he, rfl⟩ := ScopeEvent.mem_bindings.1 hb
        exact (hbefore _ he).1
      rw [declared_addUse, List.append_assoc] at h'
      change (Scope.steps _ E).Keeps (L ++ (UseEntry.ofUse s.declared (chain, id) :: _)) at h'
      rw [hlink] at h'
      exact h'
    | place chain id =>
      exact ih (h.place chain hid) htail fun e he => hnew e (by simp [he])

/-- **A scope records events**: it declares what they declare, its ledger enters every use with what
its name means among all of that, and it has taken every name in them. -/
structure Records (s : Scope) (E : List ScopeEvent) : Prop where
  /-- The first declarations are those of the events. -/
  first : ∀ key, Binding.first? s.declared key = Binding.first? (ScopeEvent.bindings E) key
  /-- The uses are those of the events, linked to what they mean. -/
  keeps : s.Keeps (UseEntry.current (ScopeEvent.bindings E) (ScopeEvent.uses E))
  /-- The names of the events are taken. -/
  taken : ∀ name ∈ ScopeEvent.names E, s.hasName name

/-- A scope built from events in order records them. -/
theorem records_steps {E : List ScopeEvent} (horder : E.Pairwise ScopeEvent.Before) :
    (Scope.steps {} E).Records E where
  first key := by simpa [declared] using first?_declared_steps {} E key
  keeps := by
    have hempty : Scope.Keeps {} [] :=
      ⟨by simp, by simp, by simp, by simp, by simp, by simp, by simp [linkOf?], by simp⟩
    simpa [declared] using hempty.steps horder (by simp)
  taken name hname := (hasName_steps {} E name).2 (Or.inr hname)

namespace Records

variable {s : Scope} {E : List ScopeEvent}

/-- What a name means in a scope that records events. -/
theorem resolve? (h : s.Records E) (chain : Chain) (name : String) :
    Binding.resolve? s.declared chain name
      = Binding.resolve? (ScopeEvent.bindings E) chain name :=
  Binding.resolve?_congr fun frame _ => h.first (frame, name)

/-- The order of events is of no account but for which declaration is first. -/
theorem congr (h : s.Records E) {E' : List ScopeEvent}
    (hfirst : ∀ key, Binding.first? (ScopeEvent.bindings E) key
      = Binding.first? (ScopeEvent.bindings E') key)
    (huses : (ScopeEvent.uses E).Perm (ScopeEvent.uses E'))
    (hnames : ScopeEvent.names E' ⊆ ScopeEvent.names E) : s.Records E' where
  first key := (h.first key).trans (hfirst key)
  keeps := by
    rw [← UseEntry.current_congr hfirst]
    exact h.keeps.perm (huses.map _)
  taken name hname := h.taken name (hnames hname)

/-- **The binding of a use** is the one that its name means among what the events declare. -/
theorem bindingOf? (h : s.Records E) {chain : Chain} {id : Identifier}
    (hu : (chain, id) ∈ ScopeEvent.uses E) :
    (s.bindingOf? id.origin.id).map Binding.bare
      = Binding.resolve? (ScopeEvent.bindings E) chain id.name := by
  have hmem : UseEntry.ofUse (ScopeEvent.bindings E) (chain, id)
      ∈ UseEntry.current (ScopeEvent.bindings E) (ScopeEvent.uses E) := List.mem_map_of_mem hu
  have hlink := h.keeps.bindingOf?_eq hmem
  rw [UseEntry.number] at hlink
  change s.bindingOf? id.origin.id = _ at hlink
  rw [hlink]
  cases hr : Binding.resolve? (ScopeEvent.bindings E) chain id.name with
  | none => simp [UseEntry.ofUse, hr]
  | some b =>
    have hb := Binding.first?_key_of_resolve? hr
    have hframe := bare_inFrame? s b.frame b.name
    rw [h.first] at hframe
    simpa [UseEntry.ofUse, hr, Binding.key] using hframe.trans hb

end Records

/-! ### In one place -/

/-- The identifiers of a list that are a given one, under whatever name. -/
def occurrences (n : Nat) (ids : List Identifier) : List Identifier := ids.filter (·.origin.id = n)

/-- **An identifier is listed once**: with the binding that it uses, or among the uses without one,
and nowhere else. -/
structure ListedOnce (s : Scope) (id : Identifier) : Prop where
  /-- The binding that it uses has it once. -/
  bound : ∀ b, s.bindingOf? id.origin.id = some b →
    b ∈ s.bindings ∧ occurrences id.origin.id b.uses = [id]
  /-- No other binding has it. -/
  others : ∀ b ∈ s.bindings, s.bindingOf? id.origin.id ≠ some b →
    occurrences id.origin.id b.uses = []
  /-- It is among the uses without a binding once if it has none, and else not at all. -/
  unresolved : occurrences id.origin.id s.unresolved
    = if s.bindingOf? id.origin.id = none then [id] else []

namespace Keeps

variable {s : Scope} {L : List UseEntry}

/-- An entry is the only one with its number. -/
theorem filter_number_eq (h : s.Keeps L) {e : UseEntry} (he : e ∈ L) :
    L.filter (·.number = e.number) = [e] := by
  obtain ⟨front, back, rfl⟩ := List.append_of_mem he
  have hnum := h.numbers_nodup
  rw [List.map_append, List.map_cons, List.nodup_middle, List.nodup_cons] at hnum
  have hnot : ∀ e' ∈ front ++ back, e'.number ≠ e.number := fun e' he' hc =>
    hnum.1 (by rw [← List.map_append]; exact hc ▸ List.mem_map_of_mem he')
  have hnil : ∀ M ⊆ front ++ back, M.filter (·.number = e.number) = [] := fun M hM =>
    List.filter_eq_nil_iff.2 fun e' he' => by simpa using hnot e' (hM he')
  rw [List.filter_append, hnil front (by simp), List.filter_cons_of_pos (by simp),
    hnil back (by simp), List.nil_append]

/-- The identifier of an entry occurs where the entry says, once. -/
theorem occurrences_linkedTo (h : s.Keeps L) {e : UseEntry} (he : e ∈ L)
    (link : Option BindingKey) :
    occurrences e.number (UseEntry.linkedTo link L) = if e.link = link then [e.id] else [] := by
  have hswap : occurrences e.number (UseEntry.linkedTo link L)
      = UseEntry.linkedTo link (L.filter (·.number = e.number)) := by
    simp only [occurrences, UseEntry.linkedTo, List.filter_map, List.filter_filter]
    exact congrArg _ (List.filter_congr fun e' _ => Bool.and_comm _ _)
  rw [hswap, h.filter_number_eq he, UseEntry.linkedTo]
  by_cases hlink : e.link = link <;> simp [hlink]

theorem listedOnce (h : s.Keeps L) {e : UseEntry} (he : e ∈ L) : s.ListedOnce e.id := by
  -- in any list that the ledger tells the use is there once or not at all
  have hoccurrences : ∀ {ids : List Identifier} {link : Option BindingKey},
      ids.Perm (UseEntry.linkedTo link L) →
        occurrences e.number ids = if e.link = link then [e.id] else [] := by
    intro ids link hp
    have hocc := h.occurrences_linkedTo he link
    have hperm := hp.filter (·.origin.id = e.number)
    change (occurrences e.number ids).Perm (occurrences e.number _) at hperm
    rw [hocc] at hperm
    by_cases hlink : e.link = link
    · rw [if_pos hlink] at hperm ⊢
      exact List.perm_singleton.1 hperm
    · rw [if_neg hlink] at hperm ⊢
      exact List.perm_nil.1 hperm
  have hbinding := h.bindingOf?_eq he
  have hkey : ∀ b ∈ s.bindings, s.bindingOf? e.number = some b ↔ e.link = some b.key := by
    intro b hb
    rw [hbinding]
    constructor
    · intro hsome
      obtain ⟨key, hkey, hfirst⟩ := Option.bind_eq_some_iff.1 hsome
      rw [inFrame?_eq_first?] at hfirst
      rw [hkey, Binding.key_of_first? hfirst]
    · intro hlink
      rw [hlink, Option.bind_some]
      exact h.inFrame?_of_mem hb
  have hnone : s.bindingOf? e.number = none ↔ e.link = none := by
    rw [hbinding]
    cases hlink : e.link with
    | none => simp
    | some key =>
      obtain ⟨b, hb, rfl⟩ := List.mem_map.1 (h.bound e he key hlink)
      rw [Option.bind_some, show s.inFrame? b.key.1 b.key.2 = some b from h.inFrame?_of_mem hb]
      simp
  constructor
  · intro b hb
    have hmem : b ∈ s.bindings := by
      obtain ⟨key, -, hfirst⟩ := Option.bind_eq_some_iff.1 (hbinding.symm.trans hb)
      exact Binding.mem_of_first? hfirst
    refine ⟨hmem, ?_⟩
    rw [← UseEntry.number, hoccurrences (h.uses b hmem), if_pos ((hkey b hmem).1 hb)]
  · intro b hb hne
    rw [← UseEntry.number, hoccurrences (h.uses b hb), if_neg fun hc => hne ((hkey b hb).2 hc)]
  · rw [← UseEntry.number, hoccurrences h.unresolved]
    simp only [hnone]

end Keeps

/-- **Every use is in one place**: listed with its binding or among those that have none. -/
theorem Records.listedOnce {s : Scope} {E : List ScopeEvent} (h : s.Records E) {chain : Chain}
    {id : Identifier} (hu : (chain, id) ∈ ScopeEvent.uses E) : s.ListedOnce id :=
  h.keeps.listedOnce (List.mem_map_of_mem hu)

end Scope

end MessageBinder
