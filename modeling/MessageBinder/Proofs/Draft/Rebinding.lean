import MessageBinder.Proofs.Draft.Placing

/-!
# Rebinding

A pass binds every specifier that a target matches, unless nothing uses it. The invariant of the
pass (`MessageBinder.Bench.Rebinds`) joins what is said of names, of uses and of statements, and
keeps a list of the specifiers that were *done*: those that the pass has met. Each is met once,
since targets differ and so do specifiers, which is why one constant serves all uses of a specifier.
-/

namespace MessageBinder

/-! ### Specifiers of targets -/

/-- The specifiers of a statement that a target matches. -/
def Target.specifiers (t : Target) : Stmt → List ImportSpecifier
  | .importDecl specifiers source _ =>
    if source = t.module then specifiers.filter t.matchesImport else []
  | _ => []

/-- The specifiers of statements that targets match, in the order in which a pass meets them. -/
def Target.allSpecifiers (targets : List Target) (stmts : List Stmt) : List ImportSpecifier :=
  stmts.flatMap fun stmt => targets.flatMap (·.specifiers stmt)

/-- If the specifiers that are met first and those of a list differ, so does each of the list from
those before it. -/
theorem ImportSpecifier.binding_notMem {done front back : List ImportSpecifier}
    {s : ImportSpecifier} (h : ((done ++ (front ++ s :: back)).map binding).Nodup) :
    s.binding ∉ (done ++ front).map binding := by
  rw [← List.append_assoc, List.map_append, List.map_cons, List.nodup_middle, List.nodup_cons] at h
  exact fun hmem => h.1 (List.mem_append_left _ hmem)

/-- What is met first and what is met in some rounds differs if it does in all rounds. -/
theorem ImportSpecifier.nodup_rounds {ι : Type} {round : ι → List ImportSpecifier}
    {done : List ImportSpecifier} {front back : List ι} {x : ι}
    (h : ((done ++ (front ++ x :: back).flatMap round).map binding).Nodup) :
    ((done ++ front.flatMap round ++ round x).map binding).Nodup := by
  rw [List.flatMap_append, List.flatMap_cons, ← List.append_assoc, ← List.append_assoc,
    List.map_append] at h
  exact h.of_append_left

/-! ### The state of a pass -/

/-- **A bench is along a pass**: it extends the module, its draft tracks the specifiers that were
bound, and the constants of some are placed. -/
structure Bench.Along (m : Module) (pending : List String) (rs ps : List Rebinding) (b : Bench) :
    Prop where
  /-- The bench extends the module. -/
  extended : ∃ k, b.Extends m pending k
  /-- The draft tracks the pass. -/
  tracked : b.draft.Tracks m rs
  /-- The statements are placed. -/
  placed : b.draft.Placed m b.gate.variableName ps

namespace Bench.Along

variable {m : Module} {pending : List String} {rs ps : List Rebinding} {b b' : Bench}

theorem inOrder (h : b.Along m pending rs ps) : b.draft.InOrder := by
  obtain ⟨k, hk⟩ := h.extended
  exact hk.draft.inOrder

/-- Pending names are new. -/
theorem not_hasName (h : b.Along m pending rs ps) {name : String}
    (hname : name ∈ pending ++ b.gate.variableName.toList) : ¬ m.scope.hasName name := by
  obtain ⟨k, hk⟩ := h.extended
  exact (hk.draft.fresh name (List.mem_append_left _ hname)).2

/-- Drawing a name. -/
theorem freshName (h : b.Along m pending rs ps) {seed name : String}
    (hgives : (Drafting.freshName seed).Gives b name b') :
    b'.Along m (name :: pending) rs ps := by
  obtain ⟨k, hk⟩ := h.extended
  have hextended := hk.freshName hgives
  obtain ⟨-, rfl⟩ := Drafting.gives_freshName hgives
  refine ⟨⟨k, hextended⟩, h.tracked.congr rfl, h.placed.congr ?_ ?_ ?_⟩
  exacts [rfl, rfl, fun _ hv => hv]

/-- Requesting the variable. -/
theorem request (h : b.Along m pending rs ps) {name : String}
    (hgives : Gate.request.Gives b name b') :
    b'.Along m pending rs ps ∧ b'.gate.variableName = some name ∧
      b'.draft.next = b.draft.next := by
  obtain ⟨k, hk⟩ := h.extended
  obtain ⟨hextended, hvariable, -⟩ := hk.request hgives
  obtain ⟨hname, rfl⟩ | ⟨hname, rfl, rfl⟩ := Gate.gives_request hgives
  · exact ⟨⟨⟨k, hextended⟩, h.tracked, h.placed⟩, hvariable, rfl⟩
  · refine ⟨⟨⟨k, hextended⟩, h.tracked.congr rfl, h.placed.congr ?_ ?_ fun v hv => ?_⟩,
      hvariable, rfl⟩
    · rfl
    · rfl
    · rw [hname] at hv
      cases hv

/-- **Appending a statement** that declares pending names and uses new names, or a specifier that
was bound. -/
theorem append (h : b.Along m pending rs ps) {origin : Stmt} {build : Nat → Stmt}
    (hadded : (build b.draft.next).AddedAt b.draft.next) {names rest : List String}
    (hnames : (ScopeEvent.bindings (Stmt.moduleEvents [build b.draft.next])).map Binding.name
      = names) (hpending : pending.Perm (names ++ rest))
    (hused : ∀ u ∈ ScopeEvent.uses (Stmt.moduleEvents [build b.draft.next]),
      ¬ m.scope.hasName u.2.name ∨ ∃ r ∈ rs, u.2 = r.function)
    (horigin : ∃ t ∈ b.draft.sequence.body, t.origin.id = origin.origin.id)
    (hlt : origin.origin.id < m.next) {u : Unit}
    (hgives : (Drafting.edit (·.append origin build)).Gives b u b') :
    b'.Along m rest rs ps ∧
      Stmt.Behind m.next origin.origin.id (build b.draft.next) b'.draft.sequence.body ∧
      b'.draft.next = b.draft.next + Stmt.addedOrigins ∧ b'.gate = b.gate := by
  obtain ⟨k, hk⟩ := h.extended
  have hextended := (hk.append hadded hnames hpending hgives).1
  obtain ⟨d, happend, rfl⟩ := Drafting.gives_edit hgives
  obtain ⟨front, s, back, hbody, hs, rfl⟩ := Draft.append_eq_ok happend
  subst hnames
  have hle : m.next ≤ (build b.draft.next).origin.id :=
    Nat.le_trans hk.draft.next_le (Nat.le_of_eq hadded.origin.symm)
  obtain ⟨hplaced, hbehind⟩ := h.placed.insert h.inOrder hbody hs horigin hlt hle
  refine ⟨⟨⟨_, hextended⟩, ?_, hplaced⟩, hbehind, rfl, rfl⟩
  refine h.tracked.insert hk.draft _ hbody hadded (fun d hd => ?_) hused
  exact List.mem_append_left _
    (hpending.mem_iff.2 (List.mem_append_left _ (List.mem_map_of_mem hd)))

/-- **Renaming what a specifier lists.** -/
theorem rebind (h : b.Along m pending rs ps) (hm : m.Numbered) (hnames : m.declaredNames.Nodup)
    {stmt : Stmt} {s : ImportSpecifier} (hs : m.Imports stmt s)
    (hnew : ∀ r ∈ rs, r.specifier.binding ≠ s.binding) {binding : Binding}
    (hbinding : b.draft.scope.moduleBinding? s.binding.name = some binding) {name : String}
    (hname : ¬ m.scope.hasName name) (id : Nat) :
    Bench.Along m pending (rs ++ [⟨stmt, s, name, id⟩]) ps
      { b with draft := b.draft.renameUses name binding.uses } := by
  obtain ⟨k, hk⟩ := h.extended
  obtain ⟨hmem, -⟩ := Draft.mem_bindings_of_moduleBinding? hbinding
  refine ⟨⟨k, hk.renameBinding hmem name⟩,
    h.tracked.rebind h.inOrder hm hnames hs hnew hbinding hname id,
    h.placed.renameUses h.inOrder (fun _ => h.inOrder.exists_use hmem) (h.inOrder.nodup_uses hmem)
      (fun id hid => ?_) name⟩
  -- only uses of the module mean a specifier that was not bound
  obtain ⟨u, hu, rfl, -⟩ :=
    (h.tracked.mem_uses_iff h.inOrder hm hnames hs hnew hbinding).1 hid
  exact hm.use_lt hu

/-- Placing one more constant. -/
theorem place (h : b.Along m pending rs ps) {r : Rebinding}
    (hbounds : m.next ≤ r.id ∧ r.id < b.draft.next)
    (hconstant : ∃ v, b.gate.variableName = some v ∧
      Stmt.Behind m.next r.stmt.origin.id (r.constant v) b.draft.sequence.body) :
    b.Along m pending rs (ps ++ [r]) where
  extended := h.extended
  tracked := h.tracked
  placed :=
    { laid := h.placed.laid
      imports := h.placed.imports
      bounds := fun r' hr' => (List.mem_append.1 hr').elim (h.placed.bounds r') fun hr' => by
        obtain rfl := List.mem_singleton.1 hr'
        exact hbounds
      constants := fun r' hr' => (List.mem_append.1 hr').elim (h.placed.constants r') fun hr' => by
        obtain rfl := List.mem_singleton.1 hr'
        exact hconstant }

end Bench.Along

/-! ### Along the pass -/

/-- No use of a module means the identifier. -/
def Module.Unused (m : Module) (id : Identifier) : Prop :=
  ∀ u ∈ ScopeEvent.uses m.events, ∀ b,
    Binding.resolve? (ScopeEvent.bindings m.events) u.1 u.2.name = some b → b.identifier ≠ id

/-- **A bench rebinds**: it is along a pass that has met some specifiers and bound those of them
that were used. -/
structure Bench.Rebinds (m : Module) (done : List ImportSpecifier) (rs : List Rebinding)
    (b : Bench) :
    Prop where
  /-- What was bound is placed. -/
  along : b.Along m [] rs rs
  /-- Different specifiers were bound. -/
  specifiers : (rs.map (·.specifier.binding)).Nodup
  /-- They have different constants. -/
  ids : (rs.map Rebinding.id).Nodup
  /-- They were met. -/
  met : ∀ r ∈ rs, r.specifier ∈ done
  /-- What was met was bound, or is not used. -/
  complete : ∀ s ∈ done, (∃ r ∈ rs, r.specifier = s) ∨ m.Unused s.binding

namespace Bench.Rebinds

variable {m : Module} {done : List ImportSpecifier} {rs : List Rebinding} {b b' : Bench}

/-- A specifier that was not met was not bound. -/
theorem specifier_ne (h : b.Rebinds m done rs) {s : ImportSpecifier}
    (hnew : s.binding ∉ done.map ImportSpecifier.binding) :
    ∀ r ∈ rs, r.specifier.binding ≠ s.binding := fun r hr heq =>
  hnew (List.mem_map.2 ⟨r.specifier, h.met r hr, heq⟩)

/-- Meeting a specifier without uses changes nothing. -/
theorem pass (h : b.Rebinds m done rs) (hm : m.Numbered) (hnames : m.declaredNames.Nodup)
    {stmt : Stmt} {s : ImportSpecifier} (hs : m.Imports stmt s)
    (hnew : s.binding ∉ done.map ImportSpecifier.binding)
    (hunused : ∀ binding, b.draft.scope.moduleBinding? s.binding.name = some binding →
      binding.uses = []) : b.Rebinds m (done ++ [s]) rs where
  along := h.along
  specifiers := h.specifiers
  ids := h.ids
  met r hr := List.mem_append_left _ (h.met r hr)
  complete s' hs' := by
    rcases List.mem_append.1 hs' with hs' | hs'
    · exact h.complete s' hs'
    · obtain rfl := List.mem_singleton.1 hs'
      refine Or.inr fun u hu c hc hmeans => ?_
      have htracked := h.along.tracked
      obtain ⟨binding, hbinding⟩ := htracked.exists_moduleBinding? h.along.inOrder hnames hs
      have hmem := (htracked.mem_uses_iff h.along.inOrder hm hnames hs (h.specifier_ne hnew)
        hbinding).2
        ⟨u, hu, rfl, c, hc, hmeans⟩
      rw [hunused binding hbinding] at hmem
      cases hmem

/-- One more specifier was met and bound. -/
theorem add (h : b.Rebinds m done rs) {r : Rebinding}
    (hr : b'.Along m [] (rs ++ [r]) (rs ++ [r]))
    (hnew : r.specifier.binding ∉ done.map ImportSpecifier.binding)
    (hid : ∀ r' ∈ rs, r'.id < r.id) :
    b'.Rebinds m (done ++ [r.specifier]) (rs ++ [r]) where
  along := hr
  specifiers := by
    rw [List.map_append]
    refine List.nodup_append'.2 ⟨h.specifiers, List.nodup_singleton _,
      List.disjoint_singleton.2 fun hmem => ?_⟩
    obtain ⟨r', hr', heq⟩ := List.mem_map.1 hmem
    exact h.specifier_ne hnew r' hr' heq
  ids := by
    rw [List.map_append]
    refine List.nodup_append'.2 ⟨h.ids, List.nodup_singleton _,
      List.disjoint_singleton.2 fun hmem => ?_⟩
    obtain ⟨r', hr', heq⟩ := List.mem_map.1 hmem
    exact absurd heq (Nat.ne_of_lt (hid r' hr'))
  met r' hr' := by
    rcases List.mem_append.1 hr' with hr' | hr'
    · exact List.mem_append_left _ (h.met r' hr')
    · obtain rfl := List.mem_singleton.1 hr'
      simp
  complete s hs := by
    rcases List.mem_append.1 hs with hs | hs
    · exact (h.complete s hs).imp_left fun ⟨r', hr', heq⟩ =>
        ⟨r', List.mem_append_left _ hr', heq⟩
    · obtain rfl := List.mem_singleton.1 hs
      exact Or.inl ⟨r, by simp, rfl⟩

/-- **Binding an imported name** binds its specifier if it has uses. -/
theorem bindImported (h : b.Rebinds m done rs) (hm : m.Numbered) (hnames : m.declaredNames.Nodup)
    {stmt : Stmt} {s : ImportSpecifier} (hs : m.Imports stmt s)
    (hnew : s.binding ∉ done.map ImportSpecifier.binding) {target : Target} {bound : Bool}
    (hgives : (Drafting.bindImported stmt target s.binding.name).Gives b bound b') :
    ∃ rs', b'.Rebinds m (done ++ [s]) rs' := by
  rcases Drafting.gives_bindImported hgives with ⟨hunused, -, rfl⟩ |
    ⟨binding, constant, messages, b₁, b₂, hbinding, -, -, hfresh, hrequest, happend⟩
  · exact ⟨rs, h.pass hm hnames hs hnew hunused⟩
  · have hother := h.specifier_ne hnew
    -- the name is drawn, the uses are renamed to it, and the variable is requested
    have hdrawn := h.along.freshName hfresh
    obtain ⟨-, rfl⟩ := Drafting.gives_freshName hfresh
    have hbinding' : (b.draft.scope.reserve constant).moduleBinding? s.binding.name
        = some binding := by
      rw [Scope.moduleBinding?, Scope.inFrame?, Scope.bindings_reserve]
      exact hbinding
    have hconstant : ¬ m.scope.hasName constant := hdrawn.not_hasName (by simp)
    have hrenamed := hdrawn.rebind hm hnames hs hother hbinding' hconstant b.draft.next
    obtain ⟨hrequested, hvariable, hnext⟩ := hrenamed.request hrequest
    have hnext' : b₂.draft.next = b.draft.next := hnext.trans (Draft.next_renameUses ..)
    -- the constant uses the specifier itself and the variable
    have hused : ∀ u ∈ ScopeEvent.uses (Stmt.moduleEvents
        [Stmt.boundConstant constant s.binding.name messages b₂.draft.next]),
        ¬ m.scope.hasName u.2.name ∨
          ∃ r ∈ rs ++ [⟨stmt, s, constant, b.draft.next⟩], u.2 = r.function := by
      intro u hu
      rw [Stmt.uses_boundConstant, hnext'] at hu
      rcases List.mem_cons.1 hu with rfl | hu
      · exact Or.inr ⟨⟨stmt, s, constant, b.draft.next⟩, by simp, rfl⟩
      · obtain rfl := List.mem_singleton.1 hu
        have hmessages : messages ∈ [constant] ++ b₂.gate.variableName.toList := by
          rw [hvariable]
          simp
        exact Or.inl (hrequested.not_hasName hmessages)
    obtain ⟨hmem, hlt⟩ := hrequested.placed.mem_body hm hs
    obtain ⟨happended, hbehind, hnext'', hgate⟩ := hrequested.append
      (Stmt.boundConstant_addedAt ..) rfl (List.Perm.refl _) hused ⟨stmt, hmem, rfl⟩ hlt happend
    refine ⟨_, h.add (happended.place ?_ ⟨messages, hgate ▸ hvariable, ?_⟩) hnew fun r hr =>
      (h.along.placed.bounds r hr).2⟩
    · obtain ⟨k, hk⟩ := h.along.extended
      refine ⟨hk.draft.next_le, ?_⟩
      rw [hnext'', hnext']
      exact Nat.lt_add_of_pos_right (by decide)
    · rw [hnext'] at hbehind
      exact hbehind

/-- Binding imported names meets their specifiers. -/
theorem bindAll (h : b.Rebinds m done rs) (hm : m.Numbered) (hnames : m.declaredNames.Nodup)
    {stmt : Stmt} {specifiers : List ImportSpecifier} (hs : ∀ s ∈ specifiers, m.Imports stmt s)
    (hnew : ((done ++ specifiers).map ImportSpecifier.binding).Nodup) {target : Target} {n : Nat}
    (hgives : (Drafting.bindAll stmt target specifiers).Gives b n b') :
    ∃ rs', b'.Rebinds m (done ++ specifiers) rs' := by
  refine Drafting.bindAll_induction (P := fun front _ b => ∃ rs, b.Rebinds m (done ++ front) rs)
    hgives ⟨rs, by rwa [List.append_nil]⟩ ?_
  rintro front s back _ b₁ bound b₂ rfl ⟨rs, h⟩ hbound
  rw [← List.append_assoc]
  exact h.bindImported hm hnames (hs s (by simp)) (ImportSpecifier.binding_notMem hnew) hbound

end Bench.Rebinds

namespace Bench.Rebinds

variable {m : Module} {done : List ImportSpecifier} {rs : List Rebinding} {b b' : Bench}

/-- What else a bench goes through binds no specifier. -/
theorem of_along (h : b.Rebinds m done rs) (h' : b'.Along m [] rs rs) : b'.Rebinds m done rs :=
  ⟨h', h.specifiers, h.ids, h.met, h.complete⟩

/-- Making a re-export anew binds no specifier. -/
theorem moveExport (h : b.Rebinds m done rs) {stmt : Stmt} {target : Target} {s : ExportSpecifier}
    (hstmt : stmt ∈ b.draft.sequence.body) (hlt : stmt.origin.id < m.next) {u : Unit}
    (hgives : (Drafting.moveExport stmt target s).Gives b u b') : b'.Rebinds m done rs := by
  obtain ⟨imported, bound, messages, b₁, b₂, b₃, b₄, b₅, himported, hbound, hrequest, himport,
    hconstant, hexport⟩ := Drafting.gives_moveExport hgives
  have hdrawn := (h.along.freshName himported).freshName hbound
  have hnew : ∀ name ∈ [bound, imported], ¬ m.scope.hasName name := fun name hname =>
    hdrawn.not_hasName (List.mem_append_left _ hname)
  obtain ⟨hrequested, hvariable, -⟩ := hdrawn.request hrequest
  have hmessages : ¬ m.scope.hasName messages :=
    hrequested.not_hasName (List.mem_append_right _ (by rw [hvariable]; simp))
  have hstmt₃ : stmt ∈ b₃.draft.sequence.body := by
    rw [Drafting.sequence_request hrequest, Drafting.sequence_freshName hbound,
      Drafting.sequence_freshName himported]
    exact hstmt
  have hstmt₄ := Drafting.mem_body_of_append himport hstmt₃
  have hstmt₅ := Drafting.mem_body_of_append hconstant hstmt₄
  -- none of the three statements uses a name of the module
  obtain ⟨hfirst, -⟩ := hrequested.append (Stmt.addedImport_addedAt ..) rfl
    (List.Perm.swap imported bound []) (by simp [Stmt.uses_addedImport]) ⟨stmt, hstmt₃, rfl⟩ hlt
    himport
  obtain ⟨hsecond, -⟩ := hfirst.append (Stmt.boundConstant_addedAt ..) rfl (List.Perm.refl _)
    (fun u hu => Or.inl (by
      rw [Stmt.uses_boundConstant] at hu
      rcases List.mem_cons.1 hu with rfl | hu
      · exact hnew imported (by simp)
      · obtain rfl := List.mem_singleton.1 hu
        exact hmessages)) ⟨stmt, hstmt₄, rfl⟩ hlt hconstant
  obtain ⟨hthird, -⟩ := hsecond.append (Stmt.addedExport_addedAt ..) rfl (List.Perm.refl _)
    (fun u hu => Or.inl (by
      rw [Stmt.uses_addedExport] at hu
      obtain rfl := List.mem_singleton.1 hu
      exact hnew bound (by simp))) ⟨stmt, hstmt₅, rfl⟩ hlt hexport
  exact h.of_along hthird

/-- Making re-exports anew binds no specifier. -/
theorem moveAll (h : b.Rebinds m done rs) {stmt : Stmt} {target : Target}
    {specifiers : List ExportSpecifier} (hstmt : stmt ∈ b.draft.sequence.body)
    (hlt : stmt.origin.id < m.next) {u : Unit}
    (hgives : (Drafting.moveAll stmt target specifiers).Gives b u b') : b'.Rebinds m done rs := by
  obtain ⟨h', -⟩ := Drafting.moveAll_induction
    (P := fun _ b => b.Rebinds m done rs ∧ stmt ∈ b.draft.sequence.body) hgives ⟨h, hstmt⟩
    fun _ ⟨h, hstmt⟩ hmove =>
      ⟨h.moveExport hstmt hlt hmove, Drafting.mem_body_of_moveExport hmove hstmt⟩
  exact h'

/-- Paring a re-export binds no specifier. -/
theorem pare (h : b.Rebinds m done rs) (hm : m.Numbered) {front new back : List Stmt}
    {specifiers : List ExportSpecifier} {source : CodeText} {o : Origin}
    (hbody : b.draft.sequence.body = front ++ [.exportNamed specifiers (some source) o] ++ back)
    (ho : o.id < m.next) (hpared : Stmt.Pared [.exportNamed specifiers (some source) o] new)
    (hnew : new = [] ∨ ∃ kept, new = [.exportNamed kept (some source) o]) :
    (b.withBody (front ++ new ++ back)).Rebinds m done rs := by
  obtain ⟨k, hk⟩ := h.along.extended
  have himports : ∀ r ∈ rs, m.Imports r.stmt r.specifier := fun r hr =>
    (h.along.tracked.rebound r hr).1
  exact h.of_along ⟨⟨k, hk.pare hbody hpared⟩,
    h.along.tracked.congr (Draft.events_pare hbody hpared),
    h.along.placed.pare h.along.inOrder hm himports hbody ho hnew⟩

/-- Making the matching re-exports of a list anew binds no specifier. -/
theorem moveMatching (h : b.Rebinds m done rs) (hm : m.Numbered) {target : Target}
    {specifiers : List ExportSpecifier} {source : CodeText} {o : Origin} (ho : o.id < m.next)
    {n : Nat} (hcurrent : b.draft.current? o.id = some (.exportNamed specifiers (some source) o))
    (hgives : (Drafting.moveMatching target specifiers (some source) o).Gives b n b') :
    b'.Rebinds m done rs := by
  obtain ⟨k, hk⟩ := h.along.extended
  obtain ⟨kept, front, back, b₁, hpared, hbody, hmove, hrest⟩ :=
    hk.pares_moveMatching hcurrent hgives
  have hthere : Stmt.exportNamed kept (some source) o ∈
      (b.withBody (front ++ [.exportNamed kept (some source) o] ++ back)).draft.sequence.body :=
    List.mem_append_left _ (List.mem_append_right _ (List.mem_singleton_self _))
  have hmoved := (h.pare hm hbody ho hpared (Or.inr ⟨kept, rfl⟩)).moveAll hthere ho hmove
  rcases hrest with rfl | ⟨front', back', hbody', rfl⟩
  · exact hmoved
  · exact hmoved.pare hm hbody' ho (Stmt.pared_nil [] source o) (Or.inl rfl)

end Bench.Rebinds

/-! ### Statements and targets -/

namespace Target

theorem specifiers_of_ne {t : Target} {stmt : Stmt}
    (h : ∀ specifiers source o, stmt ≠ .importDecl specifiers source o) :
    t.specifiers stmt = [] := by
  cases stmt with
  | importDecl specifiers source o => exact absurd rfl (h specifiers source o)
  | _ => rfl

/-- A statement that does not concern a target has no specifier for it. -/
theorem specifiers_of_not_concerns {t : Target} {stmt : Stmt} (h : ¬ t.concerns stmt) :
    t.specifiers stmt = [] := by
  cases stmt with
  | importDecl ss source o =>
    rw [specifiers]
    split
    · rw [concerns, matchesModule, matchesFunction] at h
      simpa [*] using h
    · rfl
  | _ => rfl

theorem specifiers_of_concerns {t : Target} {ss : List ImportSpecifier} {source : CodeText}
    {o : Origin} (h : t.concerns (.importDecl ss source o)) :
    t.specifiers (.importDecl ss source o) = ss.filter t.matchesImport := by
  have hmodule : t.matchesModule (.importDecl ss source o) := (Bool.and_eq_true _ _ ▸ h).1
  exact if_pos (by simpa [matchesModule] using hmodule)

/-- The specifiers of a target are those of an import. -/
theorem imports_of_mem_specifiers {t : Target} {m : Module} {stmt : Stmt} {s : ImportSpecifier}
    (hstmt : stmt ∈ m.body) (h : s ∈ t.specifiers stmt) : m.Imports stmt s := by
  cases stmt with
  | importDecl ss source o =>
    rw [specifiers] at h
    split at h
    · exact ⟨hstmt, ss, source, o, rfl, List.mem_of_mem_filter h⟩
    · cases h
  | _ => cases h

end Target

namespace Bench.Rebinds

variable {m : Module} {done : List ImportSpecifier} {rs : List Rebinding} {b b' : Bench}

/-- **Binding a statement** meets the specifiers that it has for the target. -/
theorem bindStmt (h : b.Rebinds m done rs) (hm : m.Numbered) (hnames : m.declaredNames.Nodup)
    {stmt : Stmt} (hstmt : stmt ∈ m.body) {target : Target}
    (hnew : ((done ++ target.specifiers stmt).map ImportSpecifier.binding).Nodup)
    {c : BoundCounts} (hgives : (Drafting.bindStmt stmt.origin.id target).Gives b c b') :
    ∃ rs', b'.Rebinds m (done ++ target.specifiers stmt) rs' := by
  have hlt := hm.statement_lt stmt hstmt
  have hinOrder := h.along.inOrder
  -- an import that is there is the import of the module
  have hthere : ∀ specifiers source o, stmt = .importDecl specifiers source o →
      b.draft.current? stmt.origin.id = some stmt := by
    rintro specifiers source o rfl
    have hmem := (h.along.placed.imports specifiers source o hlt).2 hstmt
    exact hinOrder.current?_eq hmem
  rcases Drafting.gives_bindStmt hgives with ⟨specifiers, source, o, hcurrent, hconcerns, -, hall⟩ |
    ⟨specifiers, o, hcurrent, -, -, hmove⟩ | ⟨hnone, -, rfl⟩
  · obtain ⟨hid, front, back, hbody⟩ := Draft.body_of_current? hcurrent
    have hmem : Stmt.importDecl specifiers source o ∈ b.draft.sequence.body := by
      rw [hbody]
      simp
    obtain rfl : stmt = .importDecl specifiers source o := by
      refine List.inj_on_of_nodup_map hm.statements hstmt ?_ hid.symm
      exact (h.along.placed.imports specifiers source o (hid ▸ hlt)).1 hmem
    have himports := fun s hs => Target.imports_of_mem_specifiers (t := target) (s := s) hstmt hs
    rw [Target.specifiers_of_concerns hconcerns] at hnew himports ⊢
    exact h.bindAll hm hnames himports hnew hall
  · obtain ⟨hid, -⟩ := Draft.body_of_current? hcurrent
    have hother : ∀ specifiers' source' o', stmt ≠ .importDecl specifiers' source' o' := by
      intro specifiers' source' o' heq
      have hsame := hthere _ _ _ heq
      rw [hcurrent, heq] at hsame
      cases hsame
    rw [Target.specifiers_of_ne hother, List.append_nil]
    exact ⟨rs, h.moveMatching hm (hid ▸ hlt) (hid ▸ hcurrent) hmove⟩
  · have hnil : target.specifiers stmt = [] := by
      by_cases hkind : ∃ specifiers source o, stmt = .importDecl specifiers source o
      · obtain ⟨specifiers, source, o, rfl⟩ := hkind
        exact Target.specifiers_of_not_concerns
          (hnone _ (hthere specifiers source o rfl))
      · exact Target.specifiers_of_ne fun specifiers source o heq =>
          hkind ⟨specifiers, source, o, heq⟩
    rw [hnil, List.append_nil]
    exact ⟨rs, h⟩

/-- Letting a statement meet targets meets the specifiers that it has for them. -/
theorem bindTargets (h : b.Rebinds m done rs) (hm : m.Numbered) (hnames : m.declaredNames.Nodup)
    {stmt : Stmt} (hstmt : stmt ∈ m.body) {targets : List Target}
    (hnew : ((done ++ targets.flatMap (·.specifiers stmt)).map ImportSpecifier.binding).Nodup)
    {c : BoundCounts} (hgives : (Drafting.bindTargets stmt.origin.id targets).Gives b c b') :
    ∃ rs', b'.Rebinds m (done ++ targets.flatMap (·.specifiers stmt)) rs' := by
  refine Drafting.bindTargets_induction
    (P := fun front _ b => ∃ rs, b.Rebinds m (done ++ front.flatMap (·.specifiers stmt)) rs)
    hgives ⟨rs, by rwa [List.flatMap_nil, List.append_nil]⟩ ?_
  rintro front t back _ b₁ _ b₂ rfl ⟨rs, h⟩ hvisit
  rw [List.flatMap_append, List.flatMap_singleton, ← List.append_assoc]
  exact h.bindStmt hm hnames hstmt (ImportSpecifier.nodup_rounds hnew) hvisit

/-- Letting statements meet targets meets the specifiers that they have for them. -/
theorem bindStmts (h : b.Rebinds m done rs) (hm : m.Numbered) (hnames : m.declaredNames.Nodup)
    {targets : List Target} {stmts : List Stmt} (hstmts : stmts ⊆ m.body)
    (hnew : ((done ++ Target.allSpecifiers targets stmts).map ImportSpecifier.binding).Nodup)
    {c : BoundCounts} (hgives : (Drafting.bindStmts targets stmts).Gives b c b') :
    ∃ rs', b'.Rebinds m (done ++ Target.allSpecifiers targets stmts) rs' := by
  refine Drafting.bindStmts_induction
    (P := fun front _ b => ∃ rs, b.Rebinds m (done ++ Target.allSpecifiers targets front) rs)
    hgives ⟨rs, by rwa [Target.allSpecifiers, List.flatMap_nil, List.append_nil]⟩ ?_
  rintro front s back _ b₁ _ b₂ rfl ⟨rs, h⟩ hvisits
  rw [Target.allSpecifiers, List.flatMap_append, List.flatMap_singleton, ← List.append_assoc]
  exact h.bindTargets hm hnames (hstmts (by simp)) (ImportSpecifier.nodup_rounds hnew) hvisits

end Bench.Rebinds

end MessageBinder
