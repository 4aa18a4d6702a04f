import MessageBinder.Proofs.Draft.Layout
import MessageBinder.Proofs.Draft.Tracking

/-!
# Where the constants are

A pass leaves the imports of a module as they are and puts the constants of bound specifiers behind
them. `MessageBinder.Draft.Placed` says this of the statements of a draft, with the variable that
the messages will have; like `MessageBinder.Draft.Tracks`, every operation of the pass keeps it.

Renaming uses does not reach the imports, where names are declared and not used, nor the constants,
whose identifiers have numbers beyond those of the module.
-/

namespace MessageBinder

/-! ### What a renaming does not reach -/

/-- Renaming one identifier leaves an import without it alone. -/
theorem Stmt.mapIds_renamed_importDecl {specifiers : List ImportSpecifier} {n : Nat}
    (h : ∀ s ∈ specifiers, s.binding.origin.id ≠ n) (name : String) (source : CodeText)
    (o : Origin) :
    (Stmt.importDecl specifiers source o).mapIds (Identifier.renamed n name)
      = .importDecl specifiers source o := by
  have hsame : ∀ s ∈ specifiers, s.mapIds (Identifier.renamed n name) = s := by
    intro s hs
    have hne := h s hs
    cases s with
    | named exported binding o' =>
      exact congrArg (ImportSpecifier.named exported · o') (Identifier.renamed_of_ne hne)
    | default binding o' =>
      exact congrArg (ImportSpecifier.default · o') (Identifier.renamed_of_ne hne)
    | all binding o' => exact congrArg (ImportSpecifier.all · o') (Identifier.renamed_of_ne hne)
  rw [Stmt.mapIds, List.map_congr_left hsame, List.map_id']

/-- Only an import becomes an import. -/
theorem Stmt.eq_importDecl_of_mapIds {f : Identifier → Identifier} {s : Stmt}
    {specifiers : List ImportSpecifier} {source : CodeText} {o : Origin}
    (h : s.mapIds f = .importDecl specifiers source o) :
    ∃ specifiers', s = .importDecl specifiers' source o := by
  cases s with
  | importDecl specifiers' source' o' =>
    rw [Stmt.mapIds] at h
    obtain ⟨-, rfl, rfl⟩ := Stmt.importDecl.inj h
    exact ⟨specifiers', rfl⟩
  | returnValue value o' => cases value <;> cases h
  | ifThen test consequent alternate o' => cases alternate <;> cases h
  | _ => cases h

/-- Renaming an identifier with an earlier number leaves a constant alone. -/
theorem Rebinding.mapIds_renamed_constant {r : Rebinding} {n : Nat} (h : n < r.id)
    (name messages : String) :
    (r.constant messages).mapIds (Identifier.renamed n name) = r.constant messages := by
  have hsame : ∀ (name' : String) (k : Nat),
      Identifier.renamed n name (Stmt.addedId name' (r.id + k)) = Stmt.addedId name' (r.id + k) :=
    fun name' k => Identifier.renamed_of_ne (by simp only [Stmt.addedId, Origin.synthetic]; omega)
  simp [constant, Stmt.boundConstant, Stmt.constant, Stmt.mapIds, Declaration.mapIds,
    Declarator.mapIdsList, Expr.mapIds, Expr.mapIdsList, hsame]

/-! ### The statements of a draft -/

namespace Draft

/-- **The statements of a draft are placed**: those that were appended are laid out, the imports
are those of the module, and the constants of specifiers stand behind them. -/
structure Placed (m : Module) (messages : Option String) (rs : List Rebinding) (d : Draft) :
    Prop where
  /-- What was appended is laid out. -/
  laid : d.sequence.Laid m.next
  /-- The imports are those of the module. -/
  imports : ∀ specifiers source o, o.id < m.next →
    (Stmt.importDecl specifiers source o ∈ d.sequence.body
      ↔ Stmt.importDecl specifiers source o ∈ m.body)
  /-- Constants were added. -/
  bounds : ∀ r ∈ rs, m.next ≤ r.id ∧ r.id < d.next
  /-- They stand behind the imports of their specifiers. -/
  constants : ∀ r ∈ rs, ∃ v, messages = some v ∧
    Stmt.Behind m.next r.stmt.origin.id (r.constant v) d.sequence.body

/-- Nothing is to be placed in a module as it was read. -/
theorem placed_ofModule (m : Module) : Placed m none [] (ofModule m) where
  laid := .nil m.next m.body
  imports _ _ _ _ := Iff.rfl
  bounds := by simp
  constants := by simp

namespace Placed

variable {m : Module} {messages : Option String} {rs : List Rebinding} {d d' : Draft}

/-- Only the statements count, and the variable once it is known. -/
theorem congr (h : d.Placed m messages rs) (hsequence : d'.sequence = d.sequence)
    (hnext : d'.next = d.next) {messages' : Option String}
    (hmessages : ∀ v, messages = some v → messages' = some v) : d'.Placed m messages' rs where
  laid := hsequence ▸ h.laid
  imports := hsequence ▸ h.imports
  bounds := hnext ▸ h.bounds
  constants r hr := by
    obtain ⟨v, hv, hbehind⟩ := h.constants r hr
    exact ⟨v, hmessages v hv, hsequence ▸ hbehind⟩

/-- The import of a specifier is there. -/
theorem mem_body (h : d.Placed m messages rs) (hm : m.Numbered) {stmt : Stmt}
    {s : ImportSpecifier} (hs : m.Imports stmt s) :
    stmt ∈ d.sequence.body ∧ stmt.origin.id < m.next := by
  have hlt := hm.statement_lt stmt hs.1
  obtain ⟨hmem, specifiers, source, o, rfl, -⟩ := hs
  exact ⟨(h.imports specifiers source o hlt).2 hmem, hlt⟩

/-- Renaming a use of the module leaves everything in its place. -/
theorem renameUse (h : d.Placed m messages rs) (hd : d.InOrder) {c : Chain} {id : Identifier}
    (hu : (c, id) ∈ ScopeEvent.uses d.events) (hlt : id.origin.id < m.next) (name : String) :
    (d.renameUse name id).Placed m messages rs := by
  have hbody : (d.renameUse name id).sequence.body
      = d.sequence.body.map (Stmt.mapIds (Identifier.renamed id.origin.id name)) :=
    Stmt.mapIdsList_eq_map _ d.sequence.body
  -- the identifiers of imports are declarations
  have himport : ∀ specifiers source o, Stmt.importDecl specifiers source o ∈ d.sequence.body →
      (Stmt.importDecl specifiers source o).mapIds (Identifier.renamed id.origin.id name)
        = .importDecl specifiers source o := by
    intro specifiers source o hmem
    refine Stmt.mapIds_renamed_importDecl (fun s hs heq => ?_) name source o
    refine hd.numbered.distinct.number_notMem_others (mem_usesList_of_mem_uses hu) ?_
    rw [← heq]
    refine List.mem_map_of_mem (f := fun i : Identifier => i.origin.id)
      (List.mem_filterMap.2 ⟨_, List.mem_append_left _ (List.mem_flatMap_of_mem hmem
        (List.mem_map_of_mem hs)), rfl⟩)
  refine ⟨?_, fun specifiers source o ho => ?_, h.bounds, fun r hr => ?_⟩
  · have hmap := h.laid.map (f := Stmt.mapIds (Identifier.renamed id.origin.id name))
      fun s => Stmt.origin_mapIds _ s
    rw [← hbody] at hmap
    exact hmap
  · rw [← h.imports specifiers source o ho, hbody, List.mem_map]
    constructor
    · rintro ⟨s, hs, heq⟩
      obtain ⟨specifiers', rfl⟩ := Stmt.eq_importDecl_of_mapIds heq
      rwa [← heq, himport _ _ _ hs]
    · intro hs
      exact ⟨_, hs, himport _ _ _ hs⟩
  · obtain ⟨v, hv, hbehind⟩ := h.constants r hr
    refine ⟨v, hv, ?_⟩
    have hmap := hbehind.map (f := Stmt.mapIds (Identifier.renamed id.origin.id name))
      fun s => Stmt.origin_mapIds _ s
    rw [Rebinding.mapIds_renamed_constant (Nat.lt_of_lt_of_le hlt (h.bounds r hr).1)] at hmap
    rw [hbody]
    exact hmap

/-- Renaming uses of the module leaves everything in its place. -/
theorem renameUses (h : d.Placed m messages rs) (hd : d.InOrder) {ids : List Identifier}
    (hids : ∀ id ∈ ids, ∃ c, (c, id) ∈ ScopeEvent.uses d.events)
    (hnodup : (Identifier.numbers ids).Nodup) (hlt : ∀ id ∈ ids, id.origin.id < m.next)
    (name : String) : (d.renameUses name ids).Placed m messages rs :=
  (hd.renameUses_induction name (P := fun d' => d'.Placed m messages rs) hids hnodup h
    fun _ _ id hd' hplaced hid hu => hplaced.renameUse hd' hu (hlt id hid) name).2

/-- **What is appended stands behind its origin**, and everything else where it did. -/
theorem insert (h : d.Placed m messages rs) (hd : d.InOrder) {front back : List Stmt}
    {s stmt origin : Stmt} (hbody : d.sequence.body = front ++ [s] ++ back)
    (hs : s.origin.id = (d.sequence.tailOf origin).origin.id)
    (horigin : ∃ t ∈ d.sequence.body, t.origin.id = origin.origin.id)
    (hlt : origin.origin.id < m.next) (hadded : m.next ≤ stmt.origin.id) :
    (d.inserted (front ++ [s]) stmt back
        ((origin.origin.id, stmt) :: d.sequence.tails)).Placed m messages rs ∧
      Stmt.Behind m.next origin.origin.id stmt (front ++ [s] ++ stmt :: back) := by
  obtain ⟨hlaid, hbehind⟩ :=
    h.laid.append hbody hs hd.numbered.statements horigin hlt hadded
  refine ⟨⟨hlaid, fun specifiers source o ho => ?_, fun r hr => ?_, fun r hr => ?_⟩, hbehind⟩
  · rw [← h.imports specifiers source o ho, hbody]
    have hne : Stmt.importDecl specifiers source o ≠ stmt := by
      rintro rfl
      exact absurd ho (Nat.not_lt.2 hadded)
    simp [Draft.inserted, hne]
  · exact ⟨(h.bounds r hr).1, Nat.lt_add_right _ (h.bounds r hr).2⟩
  · obtain ⟨v, hv, hthere⟩ := h.constants r hr
    exact ⟨v, hv, (hbody ▸ hthere).insert hadded⟩

/-- Paring a re-export leaves everything else where it was. -/
theorem pare (h : d.Placed m messages rs) (hd : d.InOrder) (hm : m.Numbered)
    (himports : ∀ r ∈ rs, m.Imports r.stmt r.specifier) {front new back : List Stmt}
    {specifiers : List ExportSpecifier} {source : Option CodeText} {o : Origin}
    (hbody : d.sequence.body = front ++ [.exportNamed specifiers source o] ++ back)
    (ho : o.id < m.next) (hnew : new = [] ∨ ∃ kept, new = [.exportNamed kept source o]) :
    ({ d with sequence := { d.sequence with body := front ++ new ++ back } } : Draft).Placed
      m messages rs := by
  have hparts : new = [] ∨ ∃ s', new = [s'] ∧
      s'.origin.id = (Stmt.exportNamed specifiers source o).origin.id := by
    rcases hnew with rfl | ⟨kept, rfl⟩
    · exact Or.inl rfl
    · exact Or.inr ⟨_, rfl, rfl⟩
  refine ⟨h.laid.pare hbody hd.numbered.statements ho hparts, fun specifiers' source' o' ho' => ?_,
    h.bounds, fun r hr => ?_⟩
  · rw [← h.imports specifiers' source' o' ho', hbody]
    rcases hnew with rfl | ⟨kept, rfl⟩ <;> simp
  · obtain ⟨v, hv, hbehind⟩ := h.constants r hr
    refine ⟨v, hv, (hbody ▸ hbehind).pare (h.bounds r hr).1 ho fun hid => ?_⟩
    -- the import of the specifier has a number of its own
    have hthere : Stmt.exportNamed specifiers source o ∈ d.sequence.body := by
      rw [hbody]
      simp
    have hstmt := (h.mem_body hm (himports r hr)).1
    obtain ⟨-, specifiers', source', o', heq, -⟩ := himports r hr
    have hsame := hd.stmt_inj hthere hstmt hid
    rw [heq] at hsame
    cases hsame

end Placed

end Draft

end MessageBinder
