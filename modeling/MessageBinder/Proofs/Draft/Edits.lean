import MessageBinder.Proofs.Draft.Tracking

/-!
# What the edits of a pass keep

A pass consists of five edits: a name is drawn, all uses of a name of the module are renamed to a
pending name, an added statement is put in, a re-export is pared, and the order of the pending names
is forgotten. A property of drafts with pending names that each of these keeps
(`MessageBinder.Draft.Kept`) therefore holds after a whole pass
(`MessageBinder.Draft.Kept.bindStmts`, `MessageBinder.Draft.Kept.close`), whatever the targets are.

An added statement uses two kinds of names only: names that are pending still, and names that the
module declares by then.
-/

namespace MessageBinder

namespace Draft

/-- The module of a draft declares a name. -/
def Declares (d : Draft) (name : String) : Prop :=
  ∃ b ∈ ScopeEvent.bindings d.events, b.key = (.module, name)

/-- **A property is kept** by every edit of a pass over a module. -/
structure Kept (m : Module) (P : List String → Draft → Prop) : Prop where
  /-- The order of pending names is of no account. -/
  perm : ∀ {pending pending' d}, P pending d → pending.Perm pending' → P pending' d
  /-- A name is drawn. -/
  draw : ∀ {pending d} (base : String), d.Extends m pending → P pending d →
    P (d.scope.unusedName base :: pending)
      { d with scope := d.scope.reserve (d.scope.unusedName base) }
  /-- The uses of a name of the module get a pending name. -/
  renameUses : ∀ {pending d name old binding}, d.Extends m pending → P pending d →
    name ∈ pending → d.scope.moduleBinding? old = some binding →
    P pending (d.renameUses name binding.uses)
  /-- A statement is put in. -/
  insert : ∀ {pending rest d front back stmt} (tails : List (Nat × Stmt)), d.Extends m pending →
    P pending d → d.sequence.body = front ++ back → stmt.AddedAt d.next →
    pending.Perm ((ScopeEvent.bindings (Stmt.moduleEvents [stmt])).map Binding.name ++ rest) →
    (∀ u ∈ ScopeEvent.uses (Stmt.moduleEvents [stmt]),
      u.1 = [.module] ∧ (u.2.name ∈ rest ∨ d.Declares u.2.name)) →
    P rest (d.inserted front stmt back tails)
  /-- A part is pared. -/
  pare : ∀ {pending d front old new back}, d.Extends m pending → P pending d →
    d.sequence.body = front ++ old ++ back → Stmt.Pared old new →
    P pending { d with sequence := { d.sequence with body := front ++ new ++ back } }

variable {d d' : Draft} {name : String}

/-- A name with a binding in the module is declared there. -/
theorem InOrder.declares (h : d.InOrder) {binding : Binding}
    (hbinding : d.scope.moduleBinding? name = some binding) : d.Declares name := by
  have hsome : (Binding.first? d.scope.declared (.module, name)).isSome := by
    rw [← Scope.isSome_inFrame?]
    exact Option.isSome_of_eq_some hbinding
  rw [h.records.first] at hsome
  exact Binding.first?_isSome_iff.1 hsome

/-- What a draft declares it declares with a further statement. -/
theorem Declares.inserted (h : d.Declares name) {front back : List Stmt} {stmt : Stmt}
    (tails : List (Nat × Stmt)) (hbody : d.sequence.body = front ++ back) :
    (d.inserted front stmt back tails).Declares name := by
  obtain ⟨b, hb, hkey⟩ := h
  exact ⟨b, (perm_bindings_inserted hbody).mem_iff.2 (List.mem_append_left _ hb), hkey⟩

/-- What a statement of the module declares there the draft declares. -/
theorem declares_inserted {front back : List Stmt} {stmt : Stmt} (tails : List (Nat × Stmt))
    (hbody : d.sequence.body = front ++ back) {b : Binding}
    (hb : b ∈ ScopeEvent.bindings (Stmt.moduleEvents [stmt])) (hframe : b.frame = .module) :
    (d.inserted front stmt back tails).Declares b.name := by
  exact ⟨b, (perm_bindings_inserted hbody).mem_iff.2 (List.mem_append_right _ hb),
    Prod.ext hframe rfl⟩

end Draft

/-- A property of drafts holds of a bench whose variable is pending once it is fixed. -/
def Bench.Meets (P : List String → Draft → Prop) (pending : List String) (b : Bench) : Prop :=
  P (pending ++ b.gate.variableName.toList) b.draft

namespace Draft.Kept

variable {m : Module} {P : List String → Draft → Prop} {pending : List String} {k : Nat}
  {b b' : Bench} {stmt : Stmt} {target : Target}

/-- A fresh name is pending. -/
theorem freshName (hP : Kept m P) (h : b.Extends m pending k) (hb : b.Meets P pending)
    {seed name : String} (hgives : (Drafting.freshName seed).Gives b name b') :
    b'.Meets P (name :: pending) := by
  obtain ⟨rfl, rfl⟩ := Drafting.gives_freshName hgives
  exact hP.draw _ h.draft hb

/-- A request leaves the variable pending. -/
theorem request (hP : Kept m P) (h : b.Extends m pending k) (hb : b.Meets P pending) {name : String}
    (hgives : Gate.request.Gives b name b') : b'.Meets P pending := by
  obtain ⟨hname, rfl⟩ | ⟨hname, rfl, rfl⟩ := Gate.gives_request hgives
  · exact hb
  · have hdrawn := hP.draw (FreshName.base "messages") h.draft hb
    rw [hname, Option.toList_none, List.append_nil] at hdrawn
    exact hP.perm hdrawn (List.perm_append_singleton _ _).symm

/-- A statement that is appended declares pending names. -/
theorem append (hP : Kept m P) (h : b.Extends m pending k) (hb : b.Meets P pending)
    {build : Nat → Stmt} (hadded : (build b.draft.next).AddedAt b.draft.next)
    {names rest : List String}
    (hnames : (ScopeEvent.bindings (Stmt.moduleEvents [build b.draft.next])).map Binding.name
      = names) (hpending : pending.Perm (names ++ rest))
    (hused : ∀ u ∈ ScopeEvent.uses (Stmt.moduleEvents [build b.draft.next]), u.1 = [.module] ∧
      (b.gate.variableName = some u.2.name ∨ b.draft.Declares u.2.name)) {u : Unit}
    (hgives : (Drafting.edit (·.append stmt build)).Gives b u b') :
    b'.Meets P rest ∧ (∀ name, b.draft.Declares name → b'.draft.Declares name) ∧
      ∀ name ∈ names, b'.draft.Declares name := by
  obtain ⟨d, happend, rfl⟩ := Drafting.gives_edit hgives
  obtain ⟨front, s, back, hbody, -, rfl⟩ := append_eq_ok happend
  subst hnames
  refine ⟨?_, fun name hname => hname.inserted _ hbody, fun name hname => ?_⟩
  -- The variable stays pending behind the names that are left.
  · refine hP.insert _ h.draft hb hbody hadded
      ((hpending.append_right _).trans (List.Perm.of_eq (List.append_assoc _ _ _))) fun u hu => ?_
    obtain ⟨hchain, hname⟩ := hused u hu
    exact ⟨hchain, hname.imp_left fun heq => List.mem_append_right _ (by simp [heq])⟩
  · obtain ⟨c, hc, rfl⟩ := List.mem_map.1 hname
    exact declares_inserted _ hbody hc (hadded.bindings c hc).1

/-- **Binding an imported name.** -/
theorem bindImported (hP : Kept m P) (h : b.Extends m [] k) (hb : b.Meets P []) {name : String}
    {bound : Bool} (hgives : (Drafting.bindImported stmt target name).Gives b bound b') :
    b'.Meets P [] := by
  rcases Drafting.gives_bindImported hgives with ⟨-, -, rfl⟩ |
    ⟨binding, constant, messages, b₁, b₂, hbinding, -, -, hfresh, hrequest, happend⟩
  · exact hb
  · obtain ⟨hmem, -⟩ := mem_bindings_of_moduleBinding? hbinding
    have hdrawn := h.freshName hfresh
    have hmeets := hP.freshName h hb hfresh
    obtain ⟨-, rfl⟩ := Drafting.gives_freshName hfresh
    have hbinding' : (b.draft.scope.reserve constant).moduleBinding? name = some binding := by
      rw [Scope.moduleBinding?, Scope.inFrame?, Scope.bindings_reserve]
      exact hbinding
    have hdeclares := h.draft.inOrder.declares hbinding
    have hrenamed := hdrawn.renameBinding (by rwa [Scope.bindings_reserve]) constant
    have hmeets' := hP.renameUses hdrawn.draft hmeets
      (List.mem_append_left _ (List.mem_singleton_self constant)) hbinding'
    obtain ⟨hrequested, hvariable, hsequence⟩ := hrenamed.request hrequest
    have hmeets₂ := hP.request hrenamed hmeets' hrequest
    refine (hP.append hrequested hmeets₂ (Stmt.boundConstant_addedAt ..) rfl (List.Perm.refl _)
      (fun u hu => ?_) happend).1
    rw [Stmt.uses_boundConstant] at hu
    rcases List.mem_cons.1 hu with rfl | hu
    · -- the function is declared where it was, since renaming declares nothing
      refine ⟨rfl, Or.inr ?_⟩
      rw [Declares, events, hsequence, ← events,
        hdrawn.draft.inOrder.bindings_renameUses_uses (by rwa [Scope.bindings_reserve]) constant]
      exact hdeclares
    · obtain rfl := List.mem_singleton.1 hu
      exact ⟨rfl, Or.inl hvariable⟩

/-- Binding imported names one after the other. -/
theorem bindAll (hP : Kept m P) (h : b.Extends m [] k) (hb : b.Meets P [])
    {specifiers : List ImportSpecifier} {n : Nat}
    (hgives : (Drafting.bindAll stmt target specifiers).Gives b n b') : b'.Meets P [] := by
  obtain ⟨-, hb'⟩ := Drafting.bindAll_induction
    (P := fun _ _ b => (∃ k, b.Extends m [] k) ∧ b.Meets P []) hgives ⟨⟨k, h⟩, hb⟩
    fun _ ⟨⟨_, h⟩, hb⟩ hbound => ⟨⟨_, h.bindImported hbound⟩, hP.bindImported h hb hbound⟩
  exact hb'

/-- **Making a re-export anew.** -/
theorem moveExport (hP : Kept m P) (h : b.Extends m [] k) (hb : b.Meets P [])
    {s : ExportSpecifier} {u : Unit}
    (hgives : (Drafting.moveExport stmt target s).Gives b u b') : b'.Meets P [] := by
  obtain ⟨imported, bound, messages, b₁, b₂, b₃, b₄, b₅, himported, hbound, hrequest, himport,
    hconstant, hexport⟩ := Drafting.gives_moveExport hgives
  have hdrawn := (h.freshName himported).freshName hbound
  obtain ⟨hrequested, hvariable, -⟩ := hdrawn.request hrequest
  obtain ⟨hfirst, hgate⟩ := hrequested.append (Stmt.addedImport_addedAt ..) rfl
    (List.Perm.swap imported bound []) himport
  obtain ⟨hsecond, -⟩ := hfirst.append (Stmt.boundConstant_addedAt ..) rfl (List.Perm.refl _)
    hconstant
  have hmeets₂ := hP.freshName (h.freshName himported) (hP.freshName h hb himported) hbound
  obtain ⟨hmeets₄, -, hdeclares⟩ := hP.append hrequested (hP.request hdrawn hmeets₂ hrequest)
    (Stmt.addedImport_addedAt ..) rfl (List.Perm.swap imported bound [])
    (by simp [Stmt.uses_addedImport]) himport
  obtain ⟨hmeets₅, -, hdeclares'⟩ := hP.append hfirst hmeets₄ (Stmt.boundConstant_addedAt ..) rfl
    (List.Perm.refl _) (fun u hu => by
      rw [Stmt.uses_boundConstant] at hu
      rcases List.mem_cons.1 hu with rfl | hu
      · exact ⟨rfl, Or.inr (hdeclares imported (List.mem_singleton_self _))⟩
      · obtain rfl := List.mem_singleton.1 hu
        exact ⟨rfl, Or.inl (by rw [hgate]; exact hvariable)⟩) hconstant
  refine (hP.append hsecond hmeets₅ (Stmt.addedExport_addedAt ..) rfl (List.Perm.refl _)
    (fun u hu => ?_) hexport).1
  rw [Stmt.uses_addedExport] at hu
  obtain rfl := List.mem_singleton.1 hu
  exact ⟨rfl, Or.inr (hdeclares' bound (List.mem_singleton_self _))⟩

/-- Making re-exports anew one after the other. -/
theorem moveAll (hP : Kept m P) (h : b.Extends m [] k) (hb : b.Meets P [])
    {specifiers : List ExportSpecifier} {u : Unit}
    (hgives : (Drafting.moveAll stmt target specifiers).Gives b u b') : b'.Meets P [] := by
  obtain ⟨-, hb'⟩ := Drafting.moveAll_induction
    (P := fun _ b => (∃ k, b.Extends m [] k) ∧ b.Meets P []) hgives ⟨⟨k, h⟩, hb⟩
    fun _ ⟨⟨_, h⟩, hb⟩ hmove => ⟨⟨_, h.moveExport hmove⟩, hP.moveExport h hb hmove⟩
  exact hb'

/-- Making the matching re-exports of a list anew. -/
theorem moveMatching (hP : Kept m P) (h : b.Extends m [] k) (hb : b.Meets P [])
    {specifiers : List ExportSpecifier} {source : CodeText} {o : Origin} {n : Nat}
    (hcurrent : b.draft.current? o.id = some (.exportNamed specifiers (some source) o))
    (hgives : (Drafting.moveMatching target specifiers (some source) o).Gives b n b') :
    b'.Meets P [] := by
  obtain ⟨kept, front, back, b₁, hpared, hbody, hmove, hrest⟩ :=
    h.pares_moveMatching hcurrent hgives
  have hextends := h.pare hbody hpared
  have hmoved := hP.moveAll hextends (hP.pare h.draft hb hbody hpared) hmove
  rcases hrest with rfl | ⟨front', back', hbody', rfl⟩
  · exact hmoved
  · exact hP.pare (hextends.moveAll hmove).draft hmoved hbody' (Stmt.pared_nil [] source o)

/-- **Binding a statement.** -/
theorem bindStmt (hP : Kept m P) (h : b.Extends m [] k) (hb : b.Meets P []) {id : Nat}
    {c : BoundCounts} (hgives : (Drafting.bindStmt id target).Gives b c b') : b'.Meets P [] := by
  rcases Drafting.gives_bindStmt hgives with ⟨specifiers, source, o, -, -, -, hall⟩ |
    ⟨specifiers, o, hcurrent, -, -, hmove⟩ | ⟨-, -, rfl⟩
  · exact hP.bindAll h hb hall
  · obtain ⟨hid, -⟩ := body_of_current? hcurrent
    exact hP.moveMatching h hb (hid ▸ hcurrent) hmove
  · exact hb

/-- Letting a statement meet targets. -/
theorem bindTargets (hP : Kept m P) (h : b.Extends m [] k) (hb : b.Meets P []) {id : Nat}
    {targets : List Target} {c : BoundCounts}
    (hgives : (Drafting.bindTargets id targets).Gives b c b') : b'.Meets P [] := by
  obtain ⟨-, hb'⟩ := Drafting.bindTargets_induction
    (P := fun _ _ b => (∃ k, b.Extends m [] k) ∧ b.Meets P []) hgives ⟨⟨k, h⟩, hb⟩
    fun _ ⟨⟨_, h⟩, hb⟩ hvisit => ⟨⟨_, h.bindStmt hvisit⟩, hP.bindStmt h hb hvisit⟩
  exact hb'

/-- **Letting statements meet targets.** -/
theorem bindStmts (hP : Kept m P) (h : b.Extends m [] k) (hb : b.Meets P [])
    {targets : List Target} {stmts : List Stmt} {c : BoundCounts}
    (hgives : (Drafting.bindStmts targets stmts).Gives b c b') : b'.Meets P [] := by
  obtain ⟨-, hb'⟩ := Drafting.bindStmts_induction
    (P := fun _ _ b => (∃ k, b.Extends m [] k) ∧ b.Meets P []) hgives ⟨⟨k, h⟩, hb⟩
    fun _ ⟨⟨_, h⟩, hb⟩ hvisits => ⟨⟨_, h.bindTargets hvisits⟩, hP.bindTargets h hb hvisits⟩
  exact hb'

/-- **Closing the gate**, after which nothing is pending. -/
theorem close (hP : Kept m P) (h : b.Extends m [] k) (hb : b.Meets P [])
    {catalogues : CatalogueSource} {injected : Bool}
    (hgives : (Gate.close catalogues).Gives b injected b') : P [] b'.draft := by
  rcases Gate.gives_close hgives with ⟨hzero, -, rfl⟩ |
    ⟨hpositive, -, literal, hdraft, -⟩
  -- The variable is fixed by the first request, so without requests nothing is pending.
  · rw [Bench.Meets, h.requests.1 hzero] at hb
    exact hb
  · obtain ⟨name, hname⟩ := Option.ne_none_iff_exists'.1 fun hnone => hpositive (h.requests.2 hnone)
    have hextends := h.draft
    rw [Bench.Meets, hname] at hb
    rw [hname] at hextends
    rw [hname, Option.getD_some, prepend_eq] at hdraft
    rw [hdraft]
    have hbody : b.draft.sequence.body = [] ++ b.draft.sequence.body := rfl
    exact hP.insert _ hextends hb hbody (Stmt.messagesConstant_addedAt name literal b.draft.next)
      (List.Perm.refl _) (by simp [Stmt.uses_messagesConstant])

end Draft.Kept

/-- **What every edit keeps holds after a pass.** -/
theorem Draft.Kept.bindMessages {m : Module} {P : List String → Draft → Prop} (hP : Kept m P)
    (hm : m.Numbered) (hstart : P [] (.ofModule m)) {targets : List Target}
    {catalogues : CatalogueSource} {path : Option String} {r : BoundModule}
    (hrun : (m.bindMessages targets catalogues path).run.1 = .ok r) :
    r.draft.Extends m [] ∧ P [] r.draft := by
  obtain ⟨gate, b₁, b₂, hgate, hstmts, hclose, hdraft, -⟩ := Module.gives_bindMessages hrun
  have hextends := Bench.extends_ofModule hm hgate
  have hmeets : Bench.Meets P [] ⟨.ofModule m, gate⟩ := by
    rw [Bench.Meets, (Gate.ofPath_eq_ok hgate).1]
    exact hstart
  have hbound := hextends.bindStmts hstmts
  rw [hdraft]
  exact ⟨(hbound.close hclose).1, hP.close hbound (hP.bindStmts hextends hmeets hstmts) hclose⟩

end MessageBinder
