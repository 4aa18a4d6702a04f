import MessageBinder.Draft.Basic
import MessageBinder.Proofs.Grammar.Numbering

/-!
# Drafts in order

A draft changes its statements and its scope together. What has to stay true is that the module is
numbered, so that an edit finds the one statement that it means and a renaming touches one
identifier, and that the scope records the events of the module as it is
(`MessageBinder.Draft.InOrder`). Every operation keeps a draft in order: renaming uses, putting
statements behind others or in front, exchanging a statement for one without events, and removing
one.

An added statement brings its own numbers (`MessageBinder.Stmt.AddedAt`), from the one that the
draft is at on, and the draft moves on behind them.
-/

namespace MessageBinder

/-! ### Edits of a sequence -/

namespace Sequence

/-- A position found is that of a statement with the number that was looked for. -/
theorem indexOf_eq_ok {q : Sequence} {stmt : Stmt} {i : Nat} (h : q.indexOf stmt = .ok i) :
    ∃ front s back, q.body = front ++ s :: back ∧ front.length = i ∧
      s.origin.id = stmt.origin.id := by
  rw [indexOf] at h
  cases hfind : q.body.findIdx? (·.origin.id = stmt.origin.id) with
  | none => simp [hfind] at h
  | some j =>
    rw [hfind] at h
    obtain rfl : j = i := Except.ok.inj h
    obtain ⟨hlt, hs, -⟩ := List.findIdx?_eq_some_iff_getElem.1 hfind
    refine ⟨q.body.take j, q.body[j], q.body.drop (j + 1), ?_, ?_, of_decide_eq_true hs⟩
    · rw [List.getElem_cons_drop, List.take_append_drop]
    · rw [List.length_take_of_le (Nat.le_of_lt hlt)]

/-- A statement goes right behind the one with the number of the anchor. -/
theorem insertAfter_eq_ok {q q' : Sequence} {anchor stmt : Stmt}
    (h : q.insertAfter anchor stmt = .ok q') :
    ∃ front s back, q.body = front ++ s :: back ∧ s.origin.id = anchor.origin.id ∧
      q' = { q with body := front ++ s :: stmt :: back } := by
  rw [insertAfter] at h
  cases hindex : q.indexOf anchor with
  | error e =>
    rw [hindex] at h
    cases h
  | ok i =>
    rw [hindex] at h
    obtain ⟨front, s, back, hbody, rfl, hs⟩ := indexOf_eq_ok hindex
    refine ⟨front, s, back, hbody, hs, (Except.ok.inj h).symm.trans ?_⟩
    have hinsert : (front ++ s :: back).insertIdx (front.length + 1) stmt
        = front ++ s :: stmt :: back := by
      clear hbody hindex h
      induction front with
      | nil => rfl
      | cons a front ih =>
        rw [List.cons_append, List.length_cons, List.insertIdx_succ_cons, ih]
        rfl
    rw [hbody, hinsert]

/-- A statement appended goes behind the tail of its origin, and is the tail from then on. -/
theorem appendAfter_eq_ok {q q' : Sequence} {origin stmt : Stmt}
    (h : q.appendAfter origin stmt = .ok q') :
    ∃ front s back, q.body = front ++ s :: back ∧ s.origin.id = (q.tailOf origin).origin.id ∧
      q' = ⟨front ++ s :: stmt :: back, (origin.origin.id, stmt) :: q.tails⟩ := by
  rw [appendAfter] at h
  cases hinsert : q.insertAfter (q.tailOf origin) stmt with
  | error e =>
    rw [hinsert] at h
    cases h
  | ok q₁ =>
    rw [hinsert] at h
    obtain ⟨front, s, back, hbody, hs, rfl⟩ := insertAfter_eq_ok hinsert
    exact ⟨front, s, back, hbody, hs, (Except.ok.inj h).symm⟩

/-- What is removed is the statement with the given number. -/
theorem remove_eq_ok {q q' : Sequence} {stmt : Stmt} (h : q.remove stmt = .ok q') :
    ∃ front s back, q.body = front ++ s :: back ∧ s.origin.id = stmt.origin.id ∧
      q' = { q with body := front ++ back } := by
  rw [remove] at h
  cases hindex : q.indexOf stmt with
  | error e =>
    rw [hindex] at h
    cases h
  | ok i =>
    rw [hindex] at h
    obtain ⟨front, s, back, hbody, rfl, hs⟩ := indexOf_eq_ok hindex
    refine ⟨front, s, back, hbody, hs, (Except.ok.inj h).symm.trans ?_⟩
    have herase : (front ++ s :: back).eraseIdx front.length = front ++ back := by
      rw [List.eraseIdx_append_of_length_le (Nat.le_refl _), Nat.sub_self, List.eraseIdx_cons_zero]
    rw [hbody, herase]

end Sequence

/-! ### Added statements -/

namespace Stmt

/-- **A statement is added at a number** if it has that number itself, brings identifiers with
different numbers from it on, opens no frame and declares in the module only. -/
structure AddedAt (n : Nat) (stmt : Stmt) : Prop where
  /-- The number of the statement. -/
  origin : stmt.origin.id = n
  /-- No two identifiers have the same number. -/
  nodup : (Identifier.numbers stmt.identifiers).Nodup
  /-- The numbers of identifiers are among those that an added statement may take up. -/
  bounds : ∀ id ∈ stmt.identifiers, n ≤ id.origin.id ∧ id.origin.id < n + addedOrigins
  /-- No frame opens. -/
  frames : stmt.frames = []
  /-- What is declared belongs to the module. -/
  bindings : ∀ b ∈ ScopeEvent.bindings (moduleEvents [stmt]),
    b.frame = .module ∧ n ≤ b.identifier.origin.id

theorem bindings_boundConstant (name function messages : String) (n : Nat) :
    ScopeEvent.bindings (moduleEvents [boundConstant name function messages n])
      = [⟨name, .declared .const, addedId name (n + 1), .synthetic n, .module, []⟩] := rfl

theorem uses_boundConstant (name function messages : String) (n : Nat) :
    ScopeEvent.uses (moduleEvents [boundConstant name function messages n])
      = [([.module], addedId function (n + 2)), ([.module], addedId messages (n + 3))] := rfl

theorem bindings_messagesConstant (name : String) (literal : CodeText) (n : Nat) :
    ScopeEvent.bindings (moduleEvents [messagesConstant name literal n])
      = [⟨name, .declared .const, addedId name (n + 1), .synthetic n, .module, []⟩] := rfl

theorem uses_messagesConstant (name : String) (literal : CodeText) (n : Nat) :
    ScopeEvent.uses (moduleEvents [messagesConstant name literal n]) = [] := rfl

theorem bindings_addedImport (function name : String) (module : CodeText) (n : Nat) :
    ScopeEvent.bindings (moduleEvents [addedImport function name module n])
      = [⟨name, .importName, addedId name (n + 1), .synthetic n, .module, []⟩] := rfl

theorem uses_addedImport (function name : String) (module : CodeText) (n : Nat) :
    ScopeEvent.uses (moduleEvents [addedImport function name module n]) = [] := rfl

theorem bindings_addedExport (name exported : String) (n : Nat) :
    ScopeEvent.bindings (moduleEvents [addedExport name exported n]) = [] := rfl

theorem uses_addedExport (name exported : String) (n : Nat) :
    ScopeEvent.uses (moduleEvents [addedExport name exported n])
      = [([.module], addedId name (n + 1))] := rfl

theorem boundConstant_addedAt (name function messages : String) (n : Nat) :
    (boundConstant name function messages n).AddedAt n where
  origin := rfl
  nodup := by
    simp [boundConstant, constant, addedId, identifiers, Declaration.identifiers,
      Declarator.identifiersList, Expr.identifiers, Expr.identifiersList, Identifier.numbers,
      Origin.synthetic]
  bounds := by
    simp [boundConstant, constant, addedId, identifiers, Declaration.identifiers,
      Declarator.identifiersList, Expr.identifiers, Expr.identifiersList, Origin.synthetic,
      addedOrigins]
  frames := rfl
  bindings := by simp [bindings_boundConstant, addedId, Origin.synthetic]

theorem messagesConstant_addedAt (name : String) (literal : CodeText) (n : Nat) :
    (messagesConstant name literal n).AddedAt n where
  origin := rfl
  nodup := by
    simp [messagesConstant, constant, addedId, identifiers, Declaration.identifiers,
      Declarator.identifiersList, Expr.identifiers, Identifier.numbers]
  bounds := by
    simp [messagesConstant, constant, addedId, identifiers, Declaration.identifiers,
      Declarator.identifiersList, Expr.identifiers, Origin.synthetic, addedOrigins]
  frames := rfl
  bindings := by simp [bindings_messagesConstant, addedId, Origin.synthetic]

theorem addedImport_addedAt (function name : String) (module : CodeText) (n : Nat) :
    (addedImport function name module n).AddedAt n where
  origin := rfl
  nodup := by simp [addedImport, addedId, identifiers, Identifier.numbers]
  bounds := by
    simp [addedImport, addedId, identifiers, ImportSpecifier.binding, Origin.synthetic,
      addedOrigins]
  frames := rfl
  bindings := by simp [bindings_addedImport, addedId, Origin.synthetic]

theorem addedExport_addedAt (name exported : String) (n : Nat) :
    (addedExport name exported n).AddedAt n where
  origin := rfl
  nodup := by simp [addedExport, addedId, identifiers, Identifier.numbers]
  bounds := by simp [addedExport, addedId, identifiers, Origin.synthetic, addedOrigins]
  frames := rfl
  bindings := by simp [bindings_addedExport]

end Stmt

/-! ### Drafts in order -/

namespace Draft

/-- The events of the module that a draft stands for. -/
def events (d : Draft) : List ScopeEvent := Stmt.moduleEvents d.sequence.body

/-- **A draft is in order**: its module is numbered, and its scope records the events of it. -/
structure InOrder (d : Draft) : Prop where
  /-- The module is numbered. -/
  numbered : d.toModule.Numbered
  /-- The scope records the events. -/
  records : d.scope.Records d.events

/-- A name is declared nowhere in a draft. -/
def Undeclared (d : Draft) (name : String) : Prop :=
  ∀ b ∈ ScopeEvent.bindings d.events, b.name ≠ name

/-- The draft of a module as it was read is in order. -/
theorem inOrder_ofModule {m : Module} (h : m.Numbered) : (ofModule m).InOrder where
  numbered := h
  records := Module.records_scope h.distinct

namespace InOrder

variable {d d' : Draft}

/-- A name that is declared nowhere has no binding in the module. -/
theorem moduleBinding?_eq_none (h : d.InOrder) {name : String} (hname : d.Undeclared name) :
    d.scope.moduleBinding? name = none := by
  have hfirst : Binding.first? d.scope.declared (.module, name) = none := by
    rw [h.records.first]
    exact Binding.first?_eq_none_iff.2 fun b hb hkey => hname b hb (congrArg Prod.snd hkey)
  have hsome := d.scope.isSome_inFrame? .module name
  rw [hfirst] at hsome
  simpa [Scope.moduleBinding?] using hsome

/-- A name that is not taken is declared nowhere. -/
theorem undeclared (h : d.InOrder) {name : String} (hname : d.scope.hasName name = false) :
    d.Undeclared name := by
  intro b hb hb'
  have htaken := h.records.taken _ (ScopeEvent.name_mem_names_of_mem_bindings hb)
  rw [hb', hname] at htaken
  exact absurd htaken (by decide)

/-- Taking a name keeps a draft in order. -/
theorem reserve (h : d.InOrder) (name : String) :
    ({ d with scope := d.scope.reserve name } : Draft).InOrder where
  numbered := h.numbered
  records :=
    { first := fun key => by rw [Scope.declared_reserve]; exact h.records.first key
      keeps := h.records.keeps.reserve name
      taken := fun name' hname' => by
        rw [Scope.hasName_reserve, h.records.taken name' hname', Bool.true_or] }

end InOrder

end Draft

/-- Identifiers that stay in place keep a module numbered. -/
theorem Module.Numbered.mapIds {m : Module} (h : m.Numbered) {f : Identifier → Identifier}
    (hf : Identifier.InPlace f) :
    ({ m with body := Stmt.mapIdsList f m.body } : Module).Numbered where
  distinct := h.distinct.mapIds hf
  statements := by
    rw [Stmt.map_number_mapIdsList]
    exact h.statements
  identifier_lt id hid := by
    rw [Module.identifiers, Stmt.identifiersList_mapIdsList] at hid
    obtain ⟨id', hid', rfl⟩ := List.mem_map.1 hid
    rw [hf]
    exact h.identifier_lt id' hid'
  frame_lt f' hf' := by
    rw [Stmt.framesList_mapIdsList] at hf'
    exact h.frame_lt f' hf'
  statement_lt s hs := by
    have hnumber := List.mem_map_of_mem (f := fun s : Stmt => s.origin.id) hs
    rw [Stmt.map_number_mapIdsList] at hnumber
    obtain ⟨s', hs', heq⟩ := List.mem_map.1 hnumber
    exact heq ▸ h.statement_lt s' hs'

/-! ### Renaming uses -/

namespace Draft

variable {d d' : Draft}

theorem events_renameUse (d : Draft) (name : String) (id : Identifier) :
    (d.renameUse name id).events
      = d.events.map (ScopeEvent.mapIds (Identifier.renamed id.origin.id name)) :=
  Module.events_rename d.toModule id.origin.id name

/-- A use that has an event is one of the statements. -/
theorem mem_usesList_of_mem_uses {c : Chain} {id : Identifier}
    (h : (c, id) ∈ ScopeEvent.uses d.events) : id ∈ Stmt.usesList d.sequence.body := by
  rw [← Stmt.uses_moduleEvents]
  exact List.mem_map_of_mem h

/-- Uses with the same number are the same. -/
theorem InOrder.uses_inj (h : d.InOrder) {u u' : Chain × Identifier}
    (hu : u ∈ ScopeEvent.uses d.events) (hu' : u' ∈ ScopeEvent.uses d.events)
    (hn : u.2.origin.id = u'.2.origin.id) : u = u' := by
  have hnumbers := h.records.keeps.numbers_nodup
  rw [UseEntry.numbers_current, Identifier.numbers, List.map_map] at hnumbers
  exact List.inj_on_of_nodup_map hnumbers hu hu' hn

/-- **The uses that a binding lists** are those that mean it. -/
theorem InOrder.mem_uses_iff (h : d.InOrder) {b : Binding} (hb : b ∈ d.scope.bindings)
    {id : Identifier} :
    id ∈ b.uses ↔ ∃ c, (c, id) ∈ ScopeEvent.uses d.events ∧
      (Binding.resolve? (ScopeEvent.bindings d.events) c id.name).map Binding.key
        = some b.key := by
  rw [(h.records.keeps.uses b hb).mem_iff, UseEntry.mem_linkedTo]
  constructor
  · rintro ⟨e, he, hlink, rfl⟩
    obtain ⟨⟨c, id⟩, hu, rfl⟩ := UseEntry.mem_current.1 he
    exact ⟨c, hu, hlink⟩
  · rintro ⟨c, hu, hlink⟩
    exact ⟨_, UseEntry.mem_current.2 ⟨(c, id), hu, rfl⟩, hlink, rfl⟩

theorem InOrder.exists_use (h : d.InOrder) {b : Binding} (hb : b ∈ d.scope.bindings)
    {id : Identifier} (hid : id ∈ b.uses) : ∃ c, (c, id) ∈ ScopeEvent.uses d.events := by
  obtain ⟨c, hu, -⟩ := (h.mem_uses_iff hb).1 hid
  exact ⟨c, hu⟩

/-- A binding lists the number of a use if the use means it. -/
theorem InOrder.mem_numbers_iff (h : d.InOrder) {b : Binding} (hb : b ∈ d.scope.bindings)
    {u : Chain × Identifier} (hu : u ∈ ScopeEvent.uses d.events) :
    u.2.origin.id ∈ Identifier.numbers b.uses ↔
      (Binding.resolve? (ScopeEvent.bindings d.events) u.1 u.2.name).map Binding.key
        = some b.key := by
  constructor
  · intro hnumber
    obtain ⟨id, hid, hn⟩ := List.mem_map.1 hnumber
    obtain ⟨c, hu', hmeans⟩ := (h.mem_uses_iff hb).1 hid
    obtain rfl := h.uses_inj hu' hu hn
    exact hmeans
  · intro hmeans
    exact List.mem_map_of_mem ((h.mem_uses_iff hb).2 ⟨u.1, hu, hmeans⟩)

/-- A binding lists no use twice. -/
theorem InOrder.nodup_uses (h : d.InOrder) {b : Binding} (hb : b ∈ d.scope.bindings) :
    (Identifier.numbers b.uses).Nodup := by
  refine (((h.records.keeps.uses b hb).map _).nodup_iff).2 ?_
  rw [UseEntry.linkedTo, List.map_map]
  exact h.records.keeps.numbers_nodup.sublist (List.filter_sublist.map UseEntry.number)

/-- A binding of the module that is looked up is one of the scope. -/
theorem mem_bindings_of_moduleBinding? {s : Scope} {name : String} {b : Binding}
    (h : s.moduleBinding? name = some b) : b ∈ s.bindings ∧ b.key = (.module, name) := by
  rw [Scope.moduleBinding?, Scope.inFrame?_eq_first?] at h
  exact ⟨Binding.mem_of_first? h, Binding.key_of_first? h⟩

/-- Renaming a use keeps a draft in order. -/
theorem InOrder.renameUse (h : d.InOrder) {c : Chain} {id : Identifier}
    (hu : (c, id) ∈ ScopeEvent.uses d.events) (name : String) : (d.renameUse name id).InOrder where
  numbered := h.numbered.mapIds (Identifier.renamed_inPlace id.origin.id name)
  records := by
    rw [events_renameUse]
    exact h.records.rename hu
      (h.numbered.distinct.number_notMem_others (mem_usesList_of_mem_uses hu)) name

/-- Renaming a use declares nothing else. -/
theorem InOrder.bindings_renameUse (h : d.InOrder) {c : Chain} {id : Identifier}
    (hu : (c, id) ∈ ScopeEvent.uses d.events) (name : String) :
    ScopeEvent.bindings (d.renameUse name id).events = ScopeEvent.bindings d.events := by
  rw [events_renameUse]
  refine ScopeEvent.bindings_map_mapIds fun other hother => Identifier.renamed_of_ne fun hn => ?_
  exact h.numbered.distinct.number_notMem_others (mem_usesList_of_mem_uses hu)
    (hn ▸ List.mem_map_of_mem hother)

/-- The uses after a renaming: those with the number have the name. -/
theorem uses_renameUse (d : Draft) (name : String) (id : Identifier) :
    ScopeEvent.uses (d.renameUse name id).events
      = (ScopeEvent.uses d.events).map fun u =>
          (u.1, Identifier.renamed id.origin.id name u.2) := by
  rw [events_renameUse, ScopeEvent.uses_map_mapIds]

@[simp] theorem next_renameUses (d : Draft) (name : String) (ids : List Identifier) :
    (d.renameUses name ids).next = d.next := by
  induction ids generalizing d with
  | nil => rfl
  | cons id ids ih => exact ih (d.renameUse name id)

/-- The uses after renaming several: those with one of the numbers have the name. -/
theorem uses_renameUses (d : Draft) (name : String) (ids : List Identifier) :
    ScopeEvent.uses (d.renameUses name ids).events
      = (ScopeEvent.uses d.events).map fun u =>
          if u.2.origin.id ∈ Identifier.numbers ids then (u.1, { u.2 with name }) else u := by
  induction ids generalizing d with
  | nil => simp [renameUses, Identifier.numbers]
  | cons id ids ih =>
    refine (ih (d.renameUse name id)).trans ?_
    rw [uses_renameUse, List.map_map]
    refine List.map_congr_left fun u _ => ?_
    by_cases hid : u.2.origin.id = id.origin.id
    · simp [Identifier.renamed, Identifier.numbers, hid]
    · simp [Identifier.renamed, Identifier.numbers, hid]

/-- Whatever a single renaming of one of the uses keeps, renaming all of them keeps. -/
theorem InOrder.renameUses_induction {P : Draft → Prop} {ids : List Identifier}
    (h : d.InOrder) (name : String) (hids : ∀ id ∈ ids, ∃ c, (c, id) ∈ ScopeEvent.uses d.events)
    (hnodup : (Identifier.numbers ids).Nodup) (hd : P d)
    (hstep : ∀ (d : Draft) (c : Chain) (id : Identifier), d.InOrder → P d →
      id ∈ ids → (c, id) ∈ ScopeEvent.uses d.events → P (d.renameUse name id)) :
    (d.renameUses name ids).InOrder ∧ P (d.renameUses name ids) := by
  induction ids generalizing d with
  | nil => exact ⟨h, hd⟩
  | cons id ids ih =>
    obtain ⟨hnot, htail⟩ := List.nodup_cons.1 hnodup
    obtain ⟨c, hu⟩ := hids id (by simp)
    refine ih (h.renameUse hu name) (fun other hother => ?_) htail
      (hstep d c id h hd (by simp) hu)
      fun d c other hd hP hother => hstep d c other hd hP (List.mem_cons_of_mem _ hother)
    -- the other uses are what they were
    obtain ⟨c', hu'⟩ := hids other (List.mem_cons_of_mem _ hother)
    refine ⟨c', ?_⟩
    have hne : other.origin.id ≠ id.origin.id := fun hn =>
      hnot (List.mem_map.2 ⟨other, hother, hn⟩)
    rw [uses_renameUse]
    exact List.mem_map.2 ⟨(c', other), hu', by rw [Identifier.renamed_of_ne hne]⟩

end Draft

/-! ### Putting statements in -/

/-- A statement added at the number of a module keeps it numbered, wherever it goes. -/
theorem Module.Numbered.insert {m : Module} (h : m.Numbered) {front back : List Stmt} {stmt : Stmt}
    (hbody : m.body = front ++ back) (hadded : stmt.AddedAt m.next) :
    ({ m with body := front ++ stmt :: back, next := m.next + Stmt.addedOrigins } : Module).Numbered
    ∧ Stmt.Distinct (stmt :: (front ++ back)) := by
  have hperm : (stmt :: (front ++ back)).Perm (front ++ stmt :: back) := List.perm_middle.symm
  have hmem : ∀ s, s ∈ front ++ stmt :: back ↔ s = stmt ∨ s ∈ m.body := fun s => by
    rw [hbody, ← hperm.mem_iff, List.mem_cons]
  -- numbers of the statement are beyond those of the module
  have hdistinct : Stmt.Distinct (stmt :: (front ++ back)) := by
    rw [← hbody]
    constructor
    · rw [Stmt.identifiersList, Identifier.numbers, List.map_append, List.nodup_append']
      refine ⟨hadded.nodup, h.distinct.identifiers, fun n hn hn' => ?_⟩
      obtain ⟨id, hid, rfl⟩ := List.mem_map.1 hn
      obtain ⟨id', hid', heq⟩ := List.mem_map.1 hn'
      have hlt := h.identifier_lt id' hid'
      have hle := (hadded.bounds id hid).1
      omega
    · rw [Stmt.framesList, hadded.frames]
      exact h.distinct.frames
  refine ⟨⟨hdistinct.perm hperm, ?_, fun id hid => ?_, fun f hf => ?_, fun s hs => ?_⟩, hdistinct⟩
  · refine ((hperm.map _).nodup_iff).1 ?_
    rw [List.map_cons, ← hbody, List.nodup_cons]
    refine ⟨fun hmem' => ?_, h.statements⟩
    obtain ⟨s, hs, heq⟩ := List.mem_map.1 hmem'
    have hlt := h.statement_lt s hs
    have horigin := hadded.origin
    omega
  · rw [Module.identifiers, Stmt.identifiersList_eq_flatMap, List.mem_flatMap] at hid
    obtain ⟨s, hs, hid⟩ := hid
    rcases (hmem s).1 hs with rfl | hs
    · exact (hadded.bounds id hid).2
    · refine Nat.lt_add_right _ (h.identifier_lt id ?_)
      rw [Module.identifiers, Stmt.identifiersList_eq_flatMap]
      exact List.mem_flatMap_of_mem hs hid
  · rw [Stmt.framesList_eq_flatMap, List.mem_flatMap] at hf
    obtain ⟨s, hs, hf⟩ := hf
    rcases (hmem s).1 hs with rfl | hs
    · simp [hadded.frames] at hf
    · refine Nat.lt_add_right _ (h.frame_lt f ?_)
      rw [Stmt.framesList_eq_flatMap]
      exact List.mem_flatMap_of_mem hs hf
  · rcases (hmem s).1 hs with rfl | hs
    · rw [hadded.origin]
      exact Nat.lt_add_of_pos_right (by decide)
    · exact Nat.lt_add_right _ (h.statement_lt s hs)

namespace Draft

/-- The draft in which a statement stands between others and its names are taken in. -/
def inserted (d : Draft) (front : List Stmt) (stmt : Stmt) (back : List Stmt)
    (tails : List (Nat × Stmt)) : Draft :=
  { d with
    sequence := ⟨front ++ stmt :: back, tails⟩
    scope := d.scope.register stmt
    next := d.next + Stmt.addedOrigins }

theorem append_eq_ok {d d' : Draft} {origin : Stmt} {build : Nat → Stmt}
    (h : d.append origin build = .ok d') :
    ∃ front s back, d.sequence.body = front ++ [s] ++ back ∧
      s.origin.id = (d.sequence.tailOf origin).origin.id ∧
      d' = d.inserted (front ++ [s]) (build d.next) back
        ((origin.origin.id, build d.next) :: d.sequence.tails) := by
  rw [append] at h
  cases happend : d.sequence.appendAfter origin (build d.next) with
  | error e =>
    rw [happend] at h
    cases h
  | ok q =>
    rw [happend] at h
    obtain ⟨front, s, back, hbody, hs, rfl⟩ := Sequence.appendAfter_eq_ok happend
    refine ⟨front, s, back, hbody.trans (List.append_cons ..), hs,
      (Except.ok.inj h).symm.trans ?_⟩
    rw [inserted, List.append_assoc, List.singleton_append]

theorem prepend_eq (d : Draft) (build : Nat → Stmt) :
    d.prepend build
      = (build d.next, d.inserted [] (build d.next) d.sequence.body d.sequence.tails) := rfl

theorem remove_eq_ok {d d' : Draft} {stmt : Stmt} (h : d.remove stmt = .ok d') :
    ∃ front s back, d.sequence.body = front ++ [s] ++ back ∧ s.origin.id = stmt.origin.id ∧
      d' = { d with sequence := { d.sequence with body := front ++ back } } := by
  rw [remove] at h
  cases hremove : d.sequence.remove stmt with
  | error e =>
    rw [hremove] at h
    cases h
  | ok q =>
    rw [hremove] at h
    obtain ⟨front, s, back, hbody, hs, rfl⟩ := Sequence.remove_eq_ok hremove
    exact ⟨front, s, back, hbody.trans (List.append_cons ..), hs, (Except.ok.inj h).symm⟩

section Insert

variable {d : Draft} {front back : List Stmt} {stmt : Stmt} {tails : List (Nat × Stmt)}

/-- The names that a statement of a module declares there have no binding yet. -/
theorem InOrder.declares_new (h : d.InOrder)
    (hnew : ∀ b ∈ ScopeEvent.bindings (Stmt.moduleEvents [stmt]), d.Undeclared b.name) :
    ∀ name ∈ ScopeEvent.names (stmt.declares [.module]), d.scope.moduleBinding? name = none := by
  intro name hname
  rcases ScopeEvent.mem_names.1 hname with ⟨b, hb, rfl⟩ | ⟨u, hu, -⟩
  · refine h.moduleBinding?_eq_none (hnew b ?_)
    rw [Stmt.moduleEvents, ScopeEvent.bindings_append]
    exact List.mem_append_left _ (by simpa [Stmt.declaresList] using hb)
  · rw [ScopeEvent.uses_eq_nil_of_declaresOne fun e he =>
      Stmt.declares_declaresOne Chain.isFunction_module he] at hu
    cases hu

/-- **Putting in an added statement** that declares nothing known keeps a draft in order. -/
theorem InOrder.insert (h : d.InOrder) (hbody : d.sequence.body = front ++ back)
    (hadded : stmt.AddedAt d.next)
    (hnew : ∀ b ∈ ScopeEvent.bindings (Stmt.moduleEvents [stmt]), d.Undeclared b.name) :
    (d.inserted front stmt back tails).InOrder := by
  obtain ⟨hnumbered, hdistinct⟩ := h.numbered.insert hbody hadded
  refine ⟨hnumbered, ?_⟩
  have hrecords := h.records
  rw [events, hbody] at hrecords
  exact hrecords.insert hdistinct (h.declares_new hnew)

/-- An added statement adds its events. -/
theorem perm_events_inserted (hbody : d.sequence.body = front ++ back) :
    (d.events ++ Stmt.moduleEvents [stmt]).Perm (d.inserted front stmt back tails).events := by
  rw [events, hbody]
  exact Stmt.moduleEvents_insert_perm front back stmt

theorem perm_bindings_inserted (hbody : d.sequence.body = front ++ back) :
    (ScopeEvent.bindings (d.inserted front stmt back tails).events).Perm
      (ScopeEvent.bindings d.events ++ ScopeEvent.bindings (Stmt.moduleEvents [stmt])) := by
  rw [← ScopeEvent.bindings_append]
  exact ((perm_events_inserted hbody).filterMap _).symm

theorem perm_uses_inserted (hbody : d.sequence.body = front ++ back) :
    (ScopeEvent.uses (d.inserted front stmt back tails).events).Perm
      (ScopeEvent.uses d.events ++ ScopeEvent.uses (Stmt.moduleEvents [stmt])) := by
  rw [← ScopeEvent.uses_append]
  exact ((perm_events_inserted hbody).filterMap _).symm

/-- What a name means where an added statement is in. -/
theorem InOrder.first?_inserted (h : d.InOrder) (hbody : d.sequence.body = front ++ back)
    (hadded : stmt.AddedAt d.next)
    (hnew : ∀ b ∈ ScopeEvent.bindings (Stmt.moduleEvents [stmt]), d.Undeclared b.name)
    (key : BindingKey) :
    Binding.first? (ScopeEvent.bindings (d.inserted front stmt back tails).events) key
      = (Binding.first? (ScopeEvent.bindings d.events) key).or
        (Binding.first? (ScopeEvent.bindings (Stmt.moduleEvents [stmt])) key) := by
  have hdistinct := (h.numbered.insert hbody hadded).2
  have hrecords := h.records
  have hevents : d.events = Stmt.moduleEvents (front ++ back) := congrArg Stmt.moduleEvents hbody
  rw [hevents] at hrecords ⊢
  exact Stmt.first?_moduleEvents_insert
    (hrecords.first?_none_or hdistinct (h.declares_new hnew) key)

end Insert

end Draft

/-! ### Exchanging statements without events -/

/-- **A part is pared** to another one if both are without events and nothing in the other is
new. -/
structure Stmt.Pared (old new : List Stmt) : Prop where
  /-- The part declares and uses nothing. -/
  old_events : Stmt.moduleEvents old = []
  /-- The other part declares and uses nothing. -/
  new_events : Stmt.moduleEvents new = []
  /-- Its identifiers were there. -/
  identifiers : (Stmt.identifiersList new).Sublist (Stmt.identifiersList old)
  /-- Its frames were there. -/
  frames : (Stmt.framesList new).Sublist (Stmt.framesList old)
  /-- Its statements were there. -/
  statements : (new.map (·.origin.id)).Sublist (old.map (·.origin.id))

/-- A re-export is pared to one with fewer names. -/
theorem Stmt.pared_exportNamed {kept specifiers : List ExportSpecifier}
    (h : kept.Sublist specifiers) (source : CodeText) (o : Origin) :
    Pared [.exportNamed specifiers (some source) o] [.exportNamed kept (some source) o] where
  old_events := rfl
  new_events := rfl
  identifiers := by simpa [identifiersList, identifiers] using h.map _
  frames := List.Sublist.refl _
  statements := List.Sublist.refl _

/-- A re-export is pared to nothing. -/
theorem Stmt.pared_nil (specifiers : List ExportSpecifier) (source : CodeText) (o : Origin) :
    Pared [.exportNamed specifiers (some source) o] [] where
  old_events := rfl
  new_events := rfl
  identifiers := List.nil_sublist _
  frames := List.nil_sublist _
  statements := List.nil_sublist _

/-- A part of a module may be pared. -/
theorem Module.Numbered.pare {m : Module} (h : m.Numbered) {front old new back : List Stmt}
    (hbody : m.body = front ++ old ++ back) (hpared : Stmt.Pared old new) :
    ({ m with body := front ++ new ++ back } : Module).Numbered := by
  have hids : (Stmt.identifiersList (front ++ new ++ back)).Sublist m.identifiers := by
    rw [Module.identifiers, hbody]
    simp only [Stmt.identifiersList_eq_flatMap, List.flatMap_append]
    simp only [← Stmt.identifiersList_eq_flatMap]
    exact (hpared.identifiers.append_left _).append_right _
  have hframes : (Stmt.framesList (front ++ new ++ back)).Sublist (Stmt.framesList m.body) := by
    rw [hbody]
    simp only [Stmt.framesList_eq_flatMap, List.flatMap_append]
    simp only [← Stmt.framesList_eq_flatMap]
    exact (hpared.frames.append_left _).append_right _
  have hstatements : ((front ++ new ++ back).map (·.origin.id)).Sublist
      (m.body.map (·.origin.id)) := by
    rw [hbody]
    simp only [List.map_append]
    exact (hpared.statements.append_left _).append_right _
  refine ⟨⟨h.distinct.identifiers.sublist (hids.map _), h.distinct.frames.sublist hframes⟩,
    h.statements.sublist hstatements, fun id hid => h.identifier_lt id (hids.subset hid),
    fun f hf => h.frame_lt f (hframes.subset hf), fun s hs => ?_⟩
  obtain ⟨s', hs', heq⟩ := List.mem_map.1 (hstatements.subset (List.mem_map_of_mem hs))
  exact heq ▸ h.statement_lt s' hs'

namespace Draft

variable {d : Draft} {front old new back : List Stmt}

/-- Paring changes no event. -/
theorem events_pare (hbody : d.sequence.body = front ++ old ++ back)
    (hpared : Stmt.Pared old new) :
    Stmt.moduleEvents (front ++ new ++ back) = d.events := by
  have hparts : ∀ ss, Stmt.moduleEvents ss = [] →
      Stmt.declaresList [.module] ss = [] ∧ Stmt.walkList [.module] ss = [] := fun ss hss =>
    List.append_eq_nil_iff.1 hss
  obtain ⟨hold, hold'⟩ := hparts old hpared.old_events
  obtain ⟨hnew, hnew'⟩ := hparts new hpared.new_events
  rw [events, hbody]
  simp only [Stmt.moduleEvents, Stmt.declaresList_append, Stmt.walkList_append, hold, hold', hnew,
    hnew']

/-- **Paring keeps a draft in order.** -/
theorem InOrder.pare (h : d.InOrder) (hbody : d.sequence.body = front ++ old ++ back)
    (hpared : Stmt.Pared old new) :
    ({ d with sequence := { d.sequence with body := front ++ new ++ back } } : Draft).InOrder where
  numbered := h.numbered.pare hbody hpared
  records := by
    have hrecords := h.records
    rw [← events_pare hbody hpared] at hrecords
    exact hrecords

/-- Putting a statement in the place of the one with its number. -/
theorem InOrder.replace_eq (h : d.InOrder) {s stmt : Stmt}
    (hbody : d.sequence.body = front ++ [s] ++ back) (hs : s.origin.id = stmt.origin.id) :
    d.replace stmt
      = { d with sequence := { d.sequence with body := front ++ [stmt] ++ back } } := by
  have hnodup := h.numbered.statements
  change (d.sequence.body.map (·.origin.id)).Nodup at hnodup
  rw [hbody] at hnodup
  simp only [List.map_append, List.map_cons, List.append_assoc,
    List.singleton_append, List.nodup_middle, List.nodup_cons, List.mem_append, not_or] at hnodup
  obtain ⟨⟨hfront, hback⟩, -⟩ := hnodup
  have hsame : ∀ ss : List Stmt, s.origin.id ∉ ss.map (·.origin.id) →
      ss.map (fun s => if s.origin.id = stmt.origin.id then stmt else s) = ss := fun ss hss => by
    refine (List.map_congr_left fun s' hs' => if_neg fun heq => hss ?_).trans (List.map_id ss)
    exact List.mem_map.2 ⟨s', hs', heq.trans hs.symm⟩
  rw [replace, hbody]
  simp [hs, hsame front hfront, hsame back hback]

end Draft

end MessageBinder
