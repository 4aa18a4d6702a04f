import MessageBinder.Proofs.Draft.Editing
import MessageBinder.Proofs.Draft.Running
import MessageBinder.Proofs.Scope.Names

/-!
# Hygiene

The names that a pass makes up differ from each other and from every name that the scope of the
module has taken. This holds at any time of the pass (`MessageBinder.Draft.Extends`), also between
the moment when a name is drawn and the moment when a statement declares it, when the name is
*pending*: pending names and the names of added bindings together are without repetition, taken in
the scope of the draft and not taken in the scope of the module.
-/

namespace MessageBinder

/-- The number of what is declared is below that of the module. -/
theorem Module.Numbered.binding_lt {m : Module} (h : m.Numbered) {b : Binding}
    (hb : b ∈ ScopeEvent.bindings m.events) : b.identifier.origin.id < m.next := by
  obtain ⟨c, id, kind, o, he, rfl⟩ := ScopeEvent.mem_bindings.1 hb
  have hother : id ∈ ScopeEvent.others m.events := List.mem_filterMap.2 ⟨_, he, rfl⟩
  have hbinder := Stmt.others_moduleEvents_subset m.body hother
  exact h.identifier_lt id
    (Stmt.uses_append_binders_subset m.body (List.mem_append_right _ hbinder))

namespace Draft

/-- The bindings of identifiers from a number on: those that were added to a module with it. -/
def addedBindings (d : Draft) (n : Nat) : List Binding :=
  (ScopeEvent.bindings d.events).filter (n ≤ ·.identifier.origin.id)

/-- The names of the added bindings. -/
def addedNames (d : Draft) (n : Nat) : List String := (d.addedBindings n).map Binding.name

/-- **A draft extends a module**: what was taken is taken, and the names that were made up, pending
or declared, are new and differ. -/
structure Extends (m : Module) (pending : List String) (d : Draft) : Prop where
  /-- The draft is in order. -/
  inOrder : d.InOrder
  /-- The draft has moved on from the number of the module. -/
  next_le : m.next ≤ d.next
  /-- Taken names stay taken. -/
  taken : ∀ name, m.scope.hasName name → d.scope.hasName name
  /-- Bindings of the module have taken names. -/
  declared : ∀ b ∈ ScopeEvent.bindings d.events, b.identifier.origin.id < m.next →
    m.scope.hasName b.name
  /-- The names that were made up differ. -/
  nodup : (pending ++ d.addedNames m.next).Nodup
  /-- They are taken in the draft and were not taken in the module. -/
  fresh : ∀ name ∈ pending ++ d.addedNames m.next, d.scope.hasName name ∧ ¬ m.scope.hasName name

/-- Nothing is added yet to a module as it was read. -/
theorem extends_ofModule {m : Module} (h : m.Numbered) :
    Extends m [] (ofModule m) ∧ (ofModule m).addedNames m.next = [] := by
  have hbindings : ∀ b ∈ ScopeEvent.bindings m.events,
      b.identifier.origin.id < m.next ∧ m.scope.hasName b.name := by
    intro b hb
    have hname := ScopeEvent.name_mem_names_of_mem_bindings hb
    exact ⟨h.binding_lt hb, (Scope.hasName_steps {} m.events b.name).2 (Or.inr hname)⟩
  have hadded : (ofModule m).addedNames m.next = [] := by
    rw [addedNames, addedBindings, List.map_eq_nil_iff, List.filter_eq_nil_iff]
    intro b hb
    have hlt := (hbindings b hb).1
    simp only [decide_eq_true_eq]
    omega
  refine ⟨⟨inOrder_ofModule h, Nat.le_refl _, fun name hname => hname,
    fun b hb _ => (hbindings b hb).2, ?_, ?_⟩, hadded⟩
  · rw [hadded]
    exact List.nodup_nil
  · rw [hadded]
    simp

namespace Extends

variable {m : Module} {pending : List String} {d : Draft}

/-- The order of pending names is of no account. -/
theorem perm (h : Extends m pending d) {pending' : List String} (hp : pending.Perm pending') :
    Extends m pending' d where
  inOrder := h.inOrder
  next_le := h.next_le
  taken := h.taken
  declared := h.declared
  nodup := ((hp.append_right _).nodup_iff).1 h.nodup
  fresh name hname := h.fresh name ((hp.append_right _).mem_iff.2 hname)

/-- Pending names are not declared. -/
theorem undeclared (h : Extends m pending d) {name : String} (hname : name ∈ pending) :
    d.Undeclared name := by
  rintro b hb rfl
  by_cases hlt : b.identifier.origin.id < m.next
  · exact (h.fresh _ (List.mem_append_left _ hname)).2 (h.declared b hb hlt)
  · have hadded : b.name ∈ d.addedNames m.next :=
      List.mem_map_of_mem (List.mem_filter.2 ⟨hb, by simpa using hlt⟩)
    exact (List.nodup_append'.1 h.nodup).2.2 hname hadded

/-- **A name is drawn**: it is pending from then on. -/
theorem draw (h : Extends m pending d) (base : String) :
    Extends m (d.scope.unusedName base :: pending)
      { d with scope := d.scope.reserve (d.scope.unusedName base) } := by
  have hfree := d.scope.hasName_unusedName base
  have hnot : d.scope.unusedName base ∉ pending ++ d.addedNames m.next := fun hmem => by
    rw [(h.fresh _ hmem).1] at hfree
    cases hfree
  refine ⟨h.inOrder.reserve _, h.next_le, fun name hname => ?_, h.declared,
    List.nodup_cons.2 ⟨hnot, h.nodup⟩, fun name hname => ?_⟩
  · rw [Scope.hasName_reserve, h.taken name hname, Bool.true_or]
  · rcases List.mem_cons.1 hname with rfl | hname
    · refine ⟨by simp, fun htaken => ?_⟩
      rw [h.taken _ htaken] at hfree
      cases hfree
    · obtain ⟨htaken, hnew⟩ := h.fresh name hname
      exact ⟨by rw [Scope.hasName_reserve, htaken, Bool.true_or], hnew⟩

/-- Renaming a use to any name makes up nothing. -/
theorem renameUse (h : Extends m pending d) {c : Chain} {id : Identifier}
    (hu : (c, id) ∈ ScopeEvent.uses d.events) (name : String) :
    Extends m pending (d.renameUse name id) := by
  have hbindings := h.inOrder.bindings_renameUse hu name
  have hadded : (d.renameUse name id).addedNames m.next = d.addedNames m.next := by
    rw [addedNames, addedBindings, hbindings, addedNames, addedBindings]
  have hscope : ∀ name', d.scope.hasName name' → (d.renameUse name id).scope.hasName name' := by
    intro name' hname'
    rw [Draft.renameUse, Scope.hasName_rename, hname', Bool.true_or]
  refine ⟨h.inOrder.renameUse hu name, h.next_le, fun name' hname' => hscope _ (h.taken _ hname'),
    ?_, ?_, ?_⟩
  · rw [hbindings]
    exact h.declared
  · rw [hadded]
    exact h.nodup
  · rw [hadded]
    exact fun name' hname' => ⟨hscope _ (h.fresh _ hname').1, (h.fresh _ hname').2⟩

/-- **A pending name is declared** when the statement that declares it is put in. -/
theorem insert (h : Extends m pending d) {front back : List Stmt} {stmt : Stmt}
    (tails : List (Nat × Stmt)) {rest : List String} (hbody : d.sequence.body = front ++ back)
    (hadded : stmt.AddedAt d.next)
    (hpending : pending.Perm
      ((ScopeEvent.bindings (Stmt.moduleEvents [stmt])).map Binding.name ++ rest)) :
    Extends m rest (d.inserted front stmt back tails) ∧
      ((d.inserted front stmt back tails).addedNames m.next).Perm (d.addedNames m.next
        ++ (ScopeEvent.bindings (Stmt.moduleEvents [stmt])).map Binding.name) := by
  have hnew : ∀ b ∈ ScopeEvent.bindings (Stmt.moduleEvents [stmt]), d.Undeclared b.name :=
    fun b hb => h.undeclared (hpending.mem_iff.2 (List.mem_append_left _ (List.mem_map_of_mem hb)))
  have hbindings : (ScopeEvent.bindings (d.inserted front stmt back tails).events).Perm
      (ScopeEvent.bindings d.events ++ ScopeEvent.bindings (Stmt.moduleEvents [stmt])) :=
    perm_bindings_inserted hbody
  have hnames : ((d.inserted front stmt back tails).addedNames m.next).Perm (d.addedNames m.next
      ++ (ScopeEvent.bindings (Stmt.moduleEvents [stmt])).map Binding.name) := by
    have hall : (ScopeEvent.bindings (Stmt.moduleEvents [stmt])).filter
        (m.next ≤ ·.identifier.origin.id) = ScopeEvent.bindings (Stmt.moduleEvents [stmt]) :=
      List.filter_eq_self.2 fun b hb =>
        decide_eq_true (Nat.le_trans h.next_le (hadded.bindings b hb).2)
    rw [addedNames, addedNames, ← List.map_append, addedBindings, addedBindings]
    refine ((hbindings.filter _).map _).trans ?_
    rw [List.filter_append, hall]
  -- a name passes from the pending ones to the added ones
  have hperm : (rest ++ (d.inserted front stmt back tails).addedNames m.next).Perm
      (pending ++ d.addedNames m.next) := by
    refine ((hnames.append_left rest).trans ?_).trans (hpending.append_right _).symm
    rw [← List.append_assoc, List.append_assoc _ rest]
    exact List.perm_append_comm
  refine ⟨⟨h.inOrder.insert hbody hadded hnew, Nat.le_trans h.next_le (Nat.le_add_right _ _),
    fun name hname => ?_, fun b hb hlt => ?_, (hperm.nodup_iff).2 h.nodup, fun name hname => ?_⟩,
    hnames⟩
  · exact Scope.hasName_register (h.taken name hname)
  · rcases List.mem_append.1 (hbindings.mem_iff.1 hb) with hb | hb
    · exact h.declared b hb hlt
    · have hle := (hadded.bindings b hb).2
      have hnext := h.next_le
      omega
  · obtain ⟨htaken, hfresh⟩ := h.fresh name (hperm.mem_iff.1 hname)
    exact ⟨Scope.hasName_register htaken, hfresh⟩

/-- Paring makes up nothing. -/
theorem pare (h : Extends m pending d) {front old new back : List Stmt}
    (hbody : d.sequence.body = front ++ old ++ back) (hpared : Stmt.Pared old new) :
    Extends m pending { d with sequence := { d.sequence with body := front ++ new ++ back } } ∧
      addedNames { d with sequence := { d.sequence with body := front ++ new ++ back } } m.next
        = d.addedNames m.next := by
  have hevents : events { d with sequence := { d.sequence with body := front ++ new ++ back } }
      = d.events := events_pare hbody hpared
  have hadded : addedNames { d with sequence := { d.sequence with body := front ++ new ++ back } }
      m.next = d.addedNames m.next := by
    rw [addedNames, addedBindings, hevents, addedNames, addedBindings]
  refine ⟨⟨h.inOrder.pare hbody hpared, h.next_le, h.taken, ?_, ?_, ?_⟩, hadded⟩
  · rw [hevents]
    exact h.declared
  · rw [hadded]
    exact h.nodup
  · rw [hadded]
    exact h.fresh

end Extends

end Draft

/-! ### Along the pass -/

/-- The bench with other statements. -/
def Bench.withBody (b : Bench) (body : List Stmt) : Bench :=
  { b with draft := { b.draft with sequence := { b.draft.sequence with body } } }

/-- **A bench extends a module**: its draft does, with the name of the variable among the pending
ones once it is fixed, which is when something was requested. The number of added names is
known. -/
structure Bench.Extends (m : Module) (pending : List String) (added : Nat) (b : Bench) : Prop where
  /-- The draft extends the module. -/
  draft : b.draft.Extends m (pending ++ b.gate.variableName.toList)
  /-- The name is fixed with the first request. -/
  requests : b.gate.requests = 0 ↔ b.gate.variableName = none
  /-- So many names are added. -/
  count : (b.draft.addedNames m.next).length = added

/-- At the start of a pass nothing is added. -/
theorem Bench.extends_ofModule {m : Module} (hm : m.Numbered) {path : Option String} {gate : Gate}
    (hgate : Gate.ofPath path = .ok gate) : Bench.Extends m [] 0 ⟨.ofModule m, gate⟩ := by
  obtain ⟨hnone, hzero⟩ := Gate.ofPath_eq_ok hgate
  obtain ⟨hextends, hadded⟩ := Draft.extends_ofModule hm
  refine ⟨?_, by simp [hnone, hzero], by rw [hadded, List.length_nil]⟩
  rw [hnone]
  exact hextends

namespace Bench.Extends

variable {m : Module} {pending : List String} {added : Nat} {b b' : Bench}

/-- A fresh name is pending. -/
theorem freshName (h : b.Extends m pending added) {seed name : String}
    (hgives : (Drafting.freshName seed).Gives b name b') :
    b'.Extends m (name :: pending) added := by
  obtain ⟨rfl, rfl⟩ := Drafting.gives_freshName hgives
  exact ⟨h.draft.draw _, h.requests, h.count⟩

/-- A request leaves the variable pending. -/
theorem request (h : b.Extends m pending added) {name : String}
    (hgives : Gate.request.Gives b name b') :
    b'.Extends m pending added ∧ b'.gate.variableName = some name ∧
      b'.draft.sequence = b.draft.sequence := by
  obtain ⟨hname, rfl⟩ | ⟨hname, rfl, rfl⟩ := Gate.gives_request hgives
  · exact ⟨⟨h.draft, by simp [hname], h.count⟩, hname, rfl⟩
  · have hdraft := h.draft.draw (FreshName.base "messages")
    rw [hname, Option.toList_none, List.append_nil] at hdraft
    refine ⟨⟨hdraft.perm ?_, by simp, h.count⟩, rfl, rfl⟩
    exact (List.perm_append_singleton _ _).symm

/-- Appending a statement declares pending names. -/
theorem append (h : b.Extends m pending added) {origin : Stmt} {build : Nat → Stmt}
    (hadded : (build b.draft.next).AddedAt b.draft.next) {names rest : List String}
    (hnames : (ScopeEvent.bindings (Stmt.moduleEvents [build b.draft.next])).map Binding.name
      = names) (hpending : pending.Perm (names ++ rest)) {u : Unit}
    (hgives : (Drafting.edit (·.append origin build)).Gives b u b') :
    b'.Extends m rest (added + names.length) ∧ b'.gate = b.gate := by
  obtain ⟨d, happend, rfl⟩ := Drafting.gives_edit hgives
  obtain ⟨front, s, back, hbody, -, rfl⟩ := Draft.append_eq_ok happend
  subst hnames
  obtain ⟨hdraft, hadds⟩ := h.draft.insert
    ((origin.origin.id, build b.draft.next) :: b.draft.sequence.tails) hbody hadded
    ((hpending.append_right _).trans (List.Perm.of_eq (List.append_assoc _ _ _)))
  refine ⟨⟨hdraft, h.requests, ?_⟩, rfl⟩
  rw [hadds.length_eq, List.length_append, h.count]

/-- Renaming uses makes up nothing. -/
theorem renameUses (h : b.Extends m pending added) {ids : List Identifier}
    (hids : ∀ id ∈ ids, ∃ c, (c, id) ∈ ScopeEvent.uses b.draft.events)
    (hnodup : (Identifier.numbers ids).Nodup) (name : String) :
    Bench.Extends m pending added { b with draft := b.draft.renameUses name ids } := by
  obtain ⟨-, hrenamed⟩ := h.draft.inOrder.renameUses_induction name
    (P := fun d => Bench.Extends m pending added { b with draft := d })
    hids hnodup h fun d c id _ hd _ hu => by
      refine ⟨hd.draft.renameUse hu name, hd.requests, ?_⟩
      have hcount := hd.count
      rw [Draft.addedNames, Draft.addedBindings] at hcount ⊢
      rw [hd.draft.inOrder.bindings_renameUse hu name]
      exact hcount
  exact hrenamed

/-- The uses of a binding are renamed. -/
theorem renameBinding (h : b.Extends m pending added) {binding : Binding}
    (hmem : binding ∈ b.draft.scope.bindings) (name : String) :
    Bench.Extends m pending added
      { b with draft := b.draft.renameUses name binding.uses } := by
  exact h.renameUses (fun _ => h.draft.inOrder.exists_use hmem) (h.draft.inOrder.nodup_uses hmem)
    name

end Bench.Extends

namespace Bench.Extends

variable {m : Module} {added : Nat} {b b' : Bench}

/-- Binding an imported name makes up one name if the name had uses. -/
theorem bindImported (h : b.Extends m [] added) {stmt : Stmt} {target : Target} {name : String}
    {bound : Bool} (hgives : (Drafting.bindImported stmt target name).Gives b bound b') :
    b'.Extends m [] (added + if bound then 1 else 0) := by
  rcases Drafting.gives_bindImported hgives with ⟨-, rfl, rfl⟩ |
    ⟨binding, constant, messages, b₁, b₂, hbinding, -, rfl, hfresh, hrequest, happend⟩
  · exact h
  · obtain ⟨hmem, -⟩ := Draft.mem_bindings_of_moduleBinding? hbinding
    have hdrawn := h.freshName hfresh
    obtain ⟨-, rfl⟩ := Drafting.gives_freshName hfresh
    have hrenamed := hdrawn.renameBinding (by rwa [Scope.bindings_reserve]) constant
    obtain ⟨hrequested, -, -⟩ := hrenamed.request hrequest
    exact (hrequested.append (Stmt.boundConstant_addedAt ..) rfl (List.Perm.refl _) happend).1

/-- Binding imported names makes up as many names as are counted. -/
theorem bindAll (h : b.Extends m [] added) {stmt : Stmt} {target : Target}
    {specifiers : List ImportSpecifier} {n : Nat}
    (hgives : (Drafting.bindAll stmt target specifiers).Gives b n b') :
    b'.Extends m [] (added + n) := by
  refine Drafting.bindAll_induction (P := fun _ n b => b.Extends m [] (added + n)) hgives h
    fun _ h hbound => ?_
  rw [← Nat.add_assoc]
  exact h.bindImported hbound

/-- Making a re-export anew makes up two names. -/
theorem moveExport (h : b.Extends m [] added) {stmt : Stmt} {target : Target}
    {s : ExportSpecifier} {u : Unit}
    (hgives : (Drafting.moveExport stmt target s).Gives b u b') :
    b'.Extends m [] (added + 2) := by
  obtain ⟨imported, bound, messages, b₁, b₂, b₃, b₄, b₅, himported, hbound, hrequest, himport,
    hconstant, hexport⟩ := Drafting.gives_moveExport hgives
  obtain ⟨hrequested, -, -⟩ := ((h.freshName himported).freshName hbound).request hrequest
  obtain ⟨hfirst, -⟩ := hrequested.append (Stmt.addedImport_addedAt ..) rfl
    (List.Perm.swap imported bound []) himport
  obtain ⟨hsecond, -⟩ := hfirst.append (Stmt.boundConstant_addedAt ..) rfl (List.Perm.refl _)
    hconstant
  exact (hsecond.append (Stmt.addedExport_addedAt ..) rfl (List.Perm.refl _) hexport).1

/-- Making re-exports anew makes up two names for each. -/
theorem moveAll (h : b.Extends m [] added) {stmt : Stmt} {target : Target}
    {specifiers : List ExportSpecifier} {u : Unit}
    (hgives : (Drafting.moveAll stmt target specifiers).Gives b u b') :
    b'.Extends m [] (added + 2 * specifiers.length) := by
  refine Drafting.moveAll_induction
    (P := fun front b => b.Extends m [] (added + 2 * front.length)) hgives h fun _ h hmove => ?_
  rw [List.length_append, List.length_singleton, Nat.mul_succ, ← Nat.add_assoc]
  exact h.moveExport hmove

/-- A part of the draft may be pared. -/
theorem pare (h : b.Extends m [] added) {front old new back : List Stmt}
    (hbody : b.draft.sequence.body = front ++ old ++ back) (hpared : Stmt.Pared old new) :
    (b.withBody (front ++ new ++ back)).Extends m [] added := by
  obtain ⟨hdraft, hnames⟩ := h.draft.pare hbody hpared
  exact ⟨hdraft, h.requests, (congrArg List.length hnames).trans h.count⟩

end Bench.Extends

/-! ### Statements that stay -/

namespace Drafting

variable {b b' : Bench}

/-- Appending drops no statement. -/
theorem mem_body_of_append {origin : Stmt} {build : Nat → Stmt} {u : Unit}
    (h : (edit (·.append origin build)).Gives b u b') {s : Stmt}
    (hs : s ∈ b.draft.sequence.body) : s ∈ b'.draft.sequence.body := by
  obtain ⟨d, happend, rfl⟩ := gives_edit h
  obtain ⟨front, t, back, hbody, -, rfl⟩ := Draft.append_eq_ok happend
  rw [hbody, List.mem_append] at hs
  exact List.mem_append.2 (hs.imp_right (List.mem_cons_of_mem _))

theorem sequence_freshName {seed name : String} (h : (freshName seed).Gives b name b') :
    b'.draft.sequence = b.draft.sequence := by
  obtain ⟨-, rfl⟩ := gives_freshName h
  rfl

theorem sequence_request {name : String} (h : Gate.request.Gives b name b') :
    b'.draft.sequence = b.draft.sequence := by
  obtain ⟨-, rfl⟩ | ⟨-, -, rfl⟩ := Gate.gives_request h <;> rfl

theorem mem_body_of_moveExport {stmt : Stmt} {target : Target} {e : ExportSpecifier} {u : Unit}
    (h : (moveExport stmt target e).Gives b u b') {s : Stmt}
    (hs : s ∈ b.draft.sequence.body) : s ∈ b'.draft.sequence.body := by
  obtain ⟨imported, bound, messages, b₁, b₂, b₃, b₄, b₅, himported, hbound, hrequest, himport,
    hconstant, hexport⟩ := gives_moveExport h
  refine mem_body_of_append hexport (mem_body_of_append hconstant (mem_body_of_append himport ?_))
  rw [sequence_request hrequest, sequence_freshName hbound, sequence_freshName himported]
  exact hs

/-- Making re-exports anew drops no statement. -/
theorem mem_body_of_moveAll {stmt : Stmt} {target : Target} {specifiers : List ExportSpecifier}
    {u : Unit} (h : (moveAll stmt target specifiers).Gives b u b') {s : Stmt}
    (hs : s ∈ b.draft.sequence.body) : s ∈ b'.draft.sequence.body := by
  exact moveAll_induction (P := fun _ b => s ∈ b.draft.sequence.body) h hs
    fun _ hs hmove => mem_body_of_moveExport hmove hs

end Drafting

/-- The current statement with a number is where the number is. -/
theorem Draft.body_of_current? {d : Draft} {id : Nat} {s : Stmt} (h : d.current? id = some s) :
    s.origin.id = id ∧ ∃ front back, d.sequence.body = front ++ [s] ++ back := by
  obtain ⟨hid, front, back, hbody, -⟩ := List.find?_eq_some_iff_append.1 h
  exact ⟨of_decide_eq_true hid, front, back, hbody.trans (List.append_cons ..)⟩

/-- Statements with the same number are the same. -/
theorem Draft.InOrder.stmt_inj {d : Draft} (h : d.InOrder) {s s' : Stmt}
    (hs : s ∈ d.sequence.body) (hs' : s' ∈ d.sequence.body) (hid : s.origin.id = s'.origin.id) :
    s = s' :=
  List.inj_on_of_nodup_map h.numbered.statements hs hs' hid

/-- A statement that is there is found by its number. -/
theorem Draft.InOrder.current?_eq {d : Draft} (h : d.InOrder) {s : Stmt}
    (hs : s ∈ d.sequence.body) : d.current? s.origin.id = some s := by
  have hsome : (d.current? s.origin.id).isSome :=
    List.find?_isSome.2 ⟨s, hs, decide_eq_true rfl⟩
  obtain ⟨s', hs'⟩ := Option.isSome_iff_exists.1 hsome
  rw [hs', h.stmt_inj (List.mem_of_find?_eq_some hs') hs (by simpa using List.find?_some hs')]

namespace Bench.Extends

variable {m : Module} {added : Nat} {b b' : Bench}

/-- **Making the matching re-exports of a list anew** pares the list to the names that stay, makes
the others anew, and takes the list away if it ran empty: it is still there, and nothing else
goes. -/
theorem pares_moveMatching (h : b.Extends m [] added) {target : Target}
    {specifiers : List ExportSpecifier} {source : CodeText} {o : Origin} {n : Nat}
    (hcurrent : b.draft.current? o.id = some (.exportNamed specifiers (some source) o))
    (hgives : (Drafting.moveMatching target specifiers (some source) o).Gives b n b') :
    ∃ kept front back b₁, Stmt.Pared [.exportNamed specifiers (some source) o]
        [.exportNamed kept (some source) o] ∧
      b.draft.sequence.body = front ++ [.exportNamed specifiers (some source) o] ++ back ∧
      (Drafting.moveAll (.exportNamed kept (some source) o) target
        (specifiers.filter target.matchesExport)).Gives
        (b.withBody (front ++ [.exportNamed kept (some source) o] ++ back)) () b₁ ∧
      (b' = b₁ ∨ ∃ front' back',
        b₁.draft.sequence.body = front' ++ [.exportNamed [] (some source) o] ++ back' ∧
        b' = b₁.withBody (front' ++ [] ++ back')) := by
  obtain ⟨-, front, back, hbody⟩ := Draft.body_of_current? hcurrent
  obtain ⟨-, b₁, hmove, hrest⟩ := Drafting.gives_moveMatching hgives
  have hpared : Stmt.Pared [.exportNamed specifiers (some source) o]
      [.exportNamed (specifiers.filter (!target.matchesExport ·)) (some source) o] :=
    Stmt.pared_exportNamed List.filter_sublist source o
  have hreplace : b.draft.replace
      (.exportNamed (specifiers.filter (!target.matchesExport ·)) (some source) o) = _ :=
    h.draft.inOrder.replace_eq hbody rfl
  rw [hreplace] at hmove
  refine ⟨_, front, back, b₁, hpared, hbody, hmove, ?_⟩
  rcases hrest with ⟨-, rfl⟩ | ⟨hempty, hedit⟩
  · exact Or.inl rfl
  · obtain ⟨d, hremove, rfl⟩ := Drafting.gives_edit hedit
    obtain ⟨front', s, back', hbody', hs, rfl⟩ := Draft.remove_eq_ok hremove
    have hthere := Drafting.mem_body_of_moveAll hmove (s := .exportNamed
      (specifiers.filter (!target.matchesExport ·)) (some source) o) (by simp)
    rw [hempty] at hthere
    have hmoved := (h.pare hbody hpared).moveAll hmove
    obtain rfl := hmoved.draft.inOrder.stmt_inj
      (hbody'.symm ▸ List.mem_append_left _ (List.mem_append_right _ (by simp))) hthere hs
    refine Or.inr ⟨front', back', hbody', ?_⟩
    rw [List.append_nil]
    rfl

/-- Making the matching re-exports of a list anew makes up two names for each. -/
theorem moveMatching (h : b.Extends m [] added) {target : Target}
    {specifiers : List ExportSpecifier} {source : CodeText} {o : Origin} {n : Nat}
    (hcurrent : b.draft.current? o.id = some (.exportNamed specifiers (some source) o))
    (hgives : (Drafting.moveMatching target specifiers (some source) o).Gives b n b') :
    b'.Extends m [] (added + 2 * n) := by
  obtain ⟨kept, front, back, b₁, hpared, hbody, hmove, hrest⟩ :=
    h.pares_moveMatching hcurrent hgives
  obtain ⟨rfl, -⟩ := Drafting.gives_moveMatching hgives
  have hmoved := (h.pare hbody hpared).moveAll hmove
  rcases hrest with rfl | ⟨front', back', hbody', rfl⟩
  · exact hmoved
  · exact hmoved.pare hbody' (Stmt.pared_nil [] source o)

end Bench.Extends

/-- The names that are made up in two parts of a module add up. -/
theorem BoundCounts.imports_add_exports (c c' : BoundCounts) :
    (c.add c').imports + 2 * (c.add c').exports
      = c.imports + 2 * c.exports + (c'.imports + 2 * c'.exports) := by
  simp only [add]
  omega

namespace Bench.Extends

variable {m : Module} {added : Nat} {b b' : Bench}

/-- **Binding a statement** makes up one name for each import and two for each re-export. -/
theorem bindStmt (h : b.Extends m [] added) {id : Nat} {target : Target} {c : BoundCounts}
    (hgives : (Drafting.bindStmt id target).Gives b c b') :
    b'.Extends m [] (added + (c.imports + 2 * c.exports)) := by
  rcases Drafting.gives_bindStmt hgives with ⟨specifiers, source, o, -, -, hzero, hall⟩ |
    ⟨specifiers, o, hcurrent, -, hzero, hmove⟩ | ⟨-, rfl, rfl⟩
  · rw [hzero, Nat.mul_zero, Nat.add_zero]
    exact h.bindAll hall
  · rw [hzero, Nat.zero_add]
    obtain ⟨hid, -⟩ := Draft.body_of_current? hcurrent
    exact h.moveMatching (hid ▸ hcurrent) hmove
  · exact h

/-- Letting a statement meet targets makes up as many names as are counted. -/
theorem bindTargets (h : b.Extends m [] added) {id : Nat} {targets : List Target} {c : BoundCounts}
    (hgives : (Drafting.bindTargets id targets).Gives b c b') :
    b'.Extends m [] (added + (c.imports + 2 * c.exports)) := by
  refine Drafting.bindTargets_induction
    (P := fun _ c b => b.Extends m [] (added + (c.imports + 2 * c.exports))) hgives h
    fun _ h hvisit => ?_
  rw [BoundCounts.imports_add_exports, ← Nat.add_assoc]
  exact h.bindStmt hvisit

/-- Letting statements meet targets makes up as many names as are counted. -/
theorem bindStmts (h : b.Extends m [] added) {targets : List Target} {stmts : List Stmt}
    {c : BoundCounts} (hgives : (Drafting.bindStmts targets stmts).Gives b c b') :
    b'.Extends m [] (added + (c.imports + 2 * c.exports)) := by
  refine Drafting.bindStmts_induction
    (P := fun _ c b => b.Extends m [] (added + (c.imports + 2 * c.exports))) hgives h
    fun _ h hvisits => ?_
  rw [BoundCounts.imports_add_exports, ← Nat.add_assoc]
  exact h.bindTargets hvisits

/-- **Closing the gate** declares the variable if anything was requested, and then nothing is
pending. -/
theorem close (h : b.Extends m [] added) {catalogues : CatalogueSource} {injected : Bool}
    (hgives : (Gate.close catalogues).Gives b injected b') :
    b'.draft.Extends m [] ∧
      (b'.draft.addedNames m.next).length = added + (if injected then 1 else 0) ∧
      ∀ name, b'.gate.variableName = some name → name ∈ b'.draft.addedNames m.next := by
  rcases Gate.gives_close hgives with ⟨hzero, rfl, rfl⟩ |
    ⟨hpositive, rfl, literal, hdraft, hvariable⟩
  · have hnone := h.requests.1 hzero
    have hextends := h.draft
    rw [hnone] at hextends
    exact ⟨hextends, h.count, by simp [hnone]⟩
  · obtain ⟨name, hname⟩ := Option.ne_none_iff_exists'.1 fun hnone => hpositive (h.requests.2 hnone)
    have hextends := h.draft
    rw [hname, Option.toList_some] at hextends
    rw [hname, Option.getD_some, Draft.prepend_eq] at hdraft
    have hbody : b.draft.sequence.body = [] ++ b.draft.sequence.body := rfl
    obtain ⟨hinserted, hnames⟩ := hextends.insert b.draft.sequence.tails hbody
      (Stmt.messagesConstant_addedAt name literal b.draft.next) (List.Perm.refl _)
    rw [hdraft, hvariable, hname]
    refine ⟨hinserted, ?_, fun name' hname' => ?_⟩
    · rw [hnames.length_eq, List.length_append, h.count]
      rfl
    · obtain rfl := Option.some.inj hname'
      exact hnames.mem_iff.2 (List.mem_append_right _ (by simp [Stmt.bindings_messagesConstant]))

end Bench.Extends

/-! ### Whole passes -/

/-- **What a pass makes up, and how far it keeps clear of the module.** -/
structure BoundModule.Hygienic (m : Module) (r : BoundModule) : Prop where
  /-- The names differ. -/
  nodup : (r.draft.addedNames m.next).Nodup
  /-- There are one for the messages, one for each import and two for each re-export. -/
  count : (r.draft.addedNames m.next).length
    = (if r.injected then 1 else 0) + r.counts.imports + 2 * r.counts.exports
  /-- The variable is one of them. -/
  variableName : ∀ name, r.variableName = some name → name ∈ r.draft.addedNames m.next
  /-- None is the name of a use or of a binder that is noticed. -/
  apart : ∀ name ∈ r.draft.addedNames m.next, ∀ id ∈ m.uses ++ m.noticed, id.name ≠ name
  /-- None is the name of any use or binder, exactly when none is one of an overlooked binder. -/
  apart_iff : (∀ name ∈ r.draft.addedNames m.next, ∀ id ∈ m.uses ++ m.binders, id.name ≠ name)
    ↔ ∀ id ∈ m.overlooked, id.name ∉ r.draft.addedNames m.next
  /-- None is the name of any use or binder where every overlooked name is taken elsewhere. -/
  apart_of_taken : (∀ id ∈ m.overlooked, (∃ u ∈ m.uses, u.name = id.name) ∨
      ∃ b ∈ m.noticed, b.name = id.name) →
    ∀ name ∈ r.draft.addedNames m.next, ∀ id ∈ m.uses ++ m.binders, id.name ≠ name

namespace Module

/-- The names of uses and noticed binders, and of overlooked ones, are those of uses and binders. -/
theorem apart_binders_iff {m : Module} {names : List String}
    (h : ∀ name ∈ names, ∀ id ∈ m.uses ++ m.noticed, id.name ≠ name) :
    (∀ name ∈ names, ∀ id ∈ m.uses ++ m.binders, id.name ≠ name)
      ↔ ∀ id ∈ m.overlooked, id.name ∉ names := by
  constructor
  · intro hall id hid hmem
    have hbinder := m.perm_binders.subset (List.mem_append_right _ hid)
    exact hall _ hmem id (List.mem_append_right _ hbinder) rfl
  · rintro hover name hname id hid rfl
    rcases List.mem_append.1 hid with huse | hbinder
    · exact h _ hname id (List.mem_append_left _ huse) rfl
    · rcases List.mem_append.1 (m.perm_binders.symm.subset hbinder) with hnoticed | hoverlooked
      · exact h _ hname id (List.mem_append_right _ hnoticed) rfl
      · exact hover id hoverlooked hname

/-- **Hygiene**: what a pass over a module makes up keeps clear of everything but the names that
stand in overlooked positions only, and every name of the module is taken exactly when no name
does. -/
theorem hygienic_of_bindMessages [CharacterNames] {text : String} {filename : Option String}
    {base : Nat} {m : Module} {targets : List Target} {catalogues : CatalogueSource}
    {path : Option String} {r : BoundModule} (hparse : parse text filename base = .ok m)
    (hrun : (m.bindMessages targets catalogues path).run.1 = .ok r) :
    r.Hygienic m ∧ ((∀ id ∈ m.uses ++ m.binders, m.scope.hasName id.name)
      ↔ ∀ id ∈ m.overlooked, (∃ u ∈ m.uses, u.name = id.name) ∨
          ∃ b ∈ m.noticed, b.name = id.name) := by
  obtain ⟨gate, b₁, b₂, hgate, hstmts, hclose, hdraft, hvariable⟩ := gives_bindMessages hrun
  have hstart := Bench.extends_ofModule (numbered_of_parse hparse) hgate
  obtain ⟨hextends, hcount, hname⟩ := (hstart.bindStmts hstmts).close hclose
  rw [← hdraft] at hextends hcount hname
  rw [← hvariable] at hname
  have hapart : ∀ name ∈ r.draft.addedNames m.next, ∀ id ∈ m.uses ++ m.noticed,
      id.name ≠ name := by
    rintro name hadded id hid rfl
    refine (hextends.fresh _ hadded).2 ((m.hasName_scope_iff _).2 ?_)
    exact (List.mem_append.1 hid).imp (fun h => ⟨id, h, rfl⟩) fun h => ⟨id, h, rfl⟩
  refine ⟨⟨hextends.nodup, ?_, hname, hapart, apart_binders_iff hapart, fun htaken => ?_⟩,
    m.hasName_all_iff⟩
  · rw [hcount]
    omega
  · rw [← m.hasName_all_iff] at htaken
    rintro name hadded id hid rfl
    exact (hextends.fresh _ hadded).2 (htaken id hid)

section

attribute [local instance] CharacterNames.nameless

/-- In `import { f } from "m"; f(); if (x) const _messages = 1`, what is made up keeps clear of all
names but the one in the branch. -/
theorem hygienic_of_bindMessages_branch : ∃ m r,
    parse "import { f } from \"m\"; f(); if (x) const _messages = 1" none 0 = .ok m ∧
      (m.bindMessages [⟨"f", "m"⟩] ⟨⟨[], ⟨.relative, []⟩⟩, "properties", fun _ => .ok [], none⟩
        (some "a.js")).run.1 = .ok r ∧ r.Hygienic m := by
  have hruns : ((parse "import { f } from \"m\"; f(); if (x) const _messages = 1" none
      0).toOption.bind fun m => (m.bindMessages [⟨"f", "m"⟩]
        ⟨⟨[], ⟨.relative, []⟩⟩, "properties", fun _ => .ok [], none⟩
        (some "a.js")).run.1.toOption).isSome := by
    decide +kernel
  obtain ⟨r, hr⟩ := Option.isSome_iff_exists.1 hruns
  obtain ⟨m, hm, hr⟩ := Option.bind_eq_some_iff.1 hr
  have hparse := Except.eq_ok_of_toOption hm
  have hrun := Except.eq_ok_of_toOption hr
  exact ⟨m, r, hparse, hrun, (hygienic_of_bindMessages hparse hrun).1⟩

/-- There the variable of the messages has the name of the constant in the branch, which the scope
of the module has not taken. -/
theorem bindMessages_collision : ∃ m r,
    parse "import { f } from \"m\"; f(); if (x) const _messages = 1" none 0 = .ok m ∧
      (m.bindMessages [⟨"f", "m"⟩] ⟨⟨[], ⟨.relative, []⟩⟩, "properties", fun _ => .ok [], none⟩
        (some "a.js")).run.1 = .ok r ∧
      ∃ id ∈ m.binders, id.name ∈ r.draft.addedNames m.next ∧ ¬ m.scope.hasName id.name := by
  have hruns : ((parse "import { f } from \"m\"; f(); if (x) const _messages = 1" none
      0).toOption.bind fun m => (m.bindMessages [⟨"f", "m"⟩]
        ⟨⟨[], ⟨.relative, []⟩⟩, "properties", fun _ => .ok [], none⟩
        (some "a.js")).run.1.toOption.filter fun r => m.binders.any fun id =>
          (r.draft.addedNames m.next).contains id.name && !m.scope.hasName id.name).isSome := by
    decide +kernel
  obtain ⟨r, hr⟩ := Option.isSome_iff_exists.1 hruns
  obtain ⟨m, hm, hr⟩ := Option.bind_eq_some_iff.1 hr
  obtain ⟨hr, hany⟩ := Option.filter_eq_some_iff.1 hr
  obtain ⟨id, hid, hboth⟩ := List.any_eq_true.1 hany
  rw [Bool.and_eq_true, List.contains_iff_mem, Bool.not_eq_true'] at hboth
  exact ⟨m, r, Except.eq_ok_of_toOption hm, Except.eq_ok_of_toOption hr, id, hid, hboth.1,
    by simp [hboth.2]⟩

end

end Module

end MessageBinder
