import MessageBinder.Proofs.Scope.Renaming

/-!
# Replacements one after the other

Replacing identifiers twice is replacing them once by the composition, and a replacement that leaves
every identifier of a tree alone leaves the tree alone. With these two facts many renamings of a
module are one replacement, of which only the effect on single identifiers has to be known.
-/

namespace MessageBinder

section

variable (g f : Identifier → Identifier)

mutual

theorem Expr.mapIds_mapIds (e : Expr) : (e.mapIds f).mapIds g = e.mapIds (g ∘ f) := by
  match e with
  | .name _ | .literal .. | .verbatim .. => rfl
  | .array es _ => simp [Expr.mapIds, Expr.mapIdsList_mapIdsList es]
  | .object ps _ => simp [Expr.mapIds, Property.mapIdsList_mapIdsList ps]
  | .member e _ _ | .unary _ e _ | .group e _ => simp [Expr.mapIds, e.mapIds_mapIds]
  | .index e i _ | .binary _ e i _ | .assign _ e i _ =>
    simp [Expr.mapIds, e.mapIds_mapIds, i.mapIds_mapIds]
  | .call h as _ => simp [Expr.mapIds, h.mapIds_mapIds, Expr.mapIdsList_mapIdsList as]
  | .conditional t c a _ =>
    simp [Expr.mapIds, t.mapIds_mapIds, c.mapIds_mapIds, a.mapIds_mapIds]
  | .arrow ids e _ => simp [Expr.mapIds, e.mapIds_mapIds]
  | .arrowBlock ids b _ => simp [Expr.mapIds, b.mapIds_mapIds]

theorem Expr.mapIdsList_mapIdsList (es : List Expr) :
    Expr.mapIdsList g (Expr.mapIdsList f es) = Expr.mapIdsList (g ∘ f) es := by
  match es with
  | [] => rfl
  | e :: es => simp [Expr.mapIdsList, e.mapIds_mapIds, Expr.mapIdsList_mapIdsList es]

theorem Property.mapIdsList_mapIdsList (ps : List Property) :
    Property.mapIdsList g (Property.mapIdsList f ps) = Property.mapIdsList (g ∘ f) ps := by
  match ps with
  | [] => rfl
  | ⟨_, v, _, _, _⟩ :: ps =>
    simp [Property.mapIdsList, v.mapIds_mapIds, Property.mapIdsList_mapIdsList ps]

theorem Declarator.mapIdsList_mapIdsList (ds : List Declarator) :
    Declarator.mapIdsList g (Declarator.mapIdsList f ds)
      = Declarator.mapIdsList (g ∘ f) ds := by
  match ds with
  | [] => rfl
  | ⟨_, none, _⟩ :: ds => simp [Declarator.mapIdsList, Declarator.mapIdsList_mapIdsList ds]
  | ⟨_, some e, _⟩ :: ds =>
    simp [Declarator.mapIdsList, e.mapIds_mapIds, Declarator.mapIdsList_mapIdsList ds]

theorem Block.mapIds_mapIds (b : Block) : (b.mapIds f).mapIds g = b.mapIds (g ∘ f) := by
  match b with
  | ⟨body, _⟩ => simp [Block.mapIds, Stmt.mapIdsList_mapIdsList body]

theorem Declaration.mapIds_mapIds (d : Declaration) :
    (d.mapIds f).mapIds g = d.mapIds (g ∘ f) := by
  match d with
  | .variables _ ds _ => simp [Declaration.mapIds, Declarator.mapIdsList_mapIdsList ds]
  | .function _ ids b _ => simp [Declaration.mapIds, b.mapIds_mapIds]

theorem Stmt.mapIds_mapIds (s : Stmt) : (s.mapIds f).mapIds g = s.mapIds (g ∘ f) := by
  match s with
  | .importDecl ss _ _ =>
    have hone : ∀ s : ImportSpecifier, (s.mapIds f).mapIds g = s.mapIds (g ∘ f) := fun s => by
      cases s <;> rfl
    simp [Stmt.mapIds, hone]
  | .exportNamed ss _ _ => simp [Stmt.mapIds, ExportSpecifier.mapIds]
  | .exportAll .. | .returnValue none _ => rfl
  | .exportDecl d _ | .declaration d => simp [Stmt.mapIds, d.mapIds_mapIds]
  | .exportDefault e _ | .returnValue (some e) _ | .expr e _ =>
    simp [Stmt.mapIds, e.mapIds_mapIds]
  | .block b => simp [Stmt.mapIds, b.mapIds_mapIds]
  | .ifThen t c none _ => simp [Stmt.mapIds, t.mapIds_mapIds, c.mapIds_mapIds]
  | .ifThen t c (some a) _ =>
    simp [Stmt.mapIds, t.mapIds_mapIds, c.mapIds_mapIds, a.mapIds_mapIds]

theorem Stmt.mapIdsList_mapIdsList (ss : List Stmt) :
    Stmt.mapIdsList g (Stmt.mapIdsList f ss) = Stmt.mapIdsList (g ∘ f) ss := by
  match ss with
  | [] => rfl
  | s :: ss => simp [Stmt.mapIdsList, s.mapIds_mapIds, Stmt.mapIdsList_mapIdsList ss]

end

end

section

variable {f : Identifier → Identifier}

theorem Identifier.map_eq_self {ids : List Identifier} (h : ∀ id ∈ ids, f id = id) :
    ids.map f = ids :=
  (List.map_congr_left h).trans (List.map_id' ids)

mutual

theorem Expr.mapIds_eq_self (e : Expr) (h : ∀ id ∈ e.identifiers, f id = id) :
    e.mapIds f = e := by
  match e with
  | .name id => simp [Expr.mapIds, h id (List.mem_singleton_self id)]
  | .literal .. | .verbatim .. => rfl
  | .array es _ => rw [Expr.mapIds, Expr.mapIdsList_eq_self es h]
  | .object ps _ => rw [Expr.mapIds, Property.mapIdsList_eq_self ps h]
  | .member e _ _ | .unary _ e _ | .group e _ => rw [Expr.mapIds, e.mapIds_eq_self h]
  | .index e i _ | .binary _ e i _ | .assign _ e i _ =>
    obtain ⟨he, hi⟩ := List.forall_mem_append.1 h
    rw [Expr.mapIds, e.mapIds_eq_self he, i.mapIds_eq_self hi]
  | .call g as _ =>
    obtain ⟨hg, has⟩ := List.forall_mem_append.1 h
    rw [Expr.mapIds, g.mapIds_eq_self hg, Expr.mapIdsList_eq_self as has]
  | .conditional t c a _ =>
    obtain ⟨htc, ha⟩ := List.forall_mem_append.1 h
    obtain ⟨ht, hc⟩ := List.forall_mem_append.1 htc
    rw [Expr.mapIds, t.mapIds_eq_self ht, c.mapIds_eq_self hc, a.mapIds_eq_self ha]
  | .arrow ids e _ =>
    obtain ⟨hids, he⟩ := List.forall_mem_append.1 h
    rw [Expr.mapIds, Identifier.map_eq_self hids, e.mapIds_eq_self he]
  | .arrowBlock ids b _ =>
    obtain ⟨hids, hb⟩ := List.forall_mem_append.1 h
    rw [Expr.mapIds, Identifier.map_eq_self hids, b.mapIds_eq_self hb]

theorem Expr.mapIdsList_eq_self (es : List Expr)
    (h : ∀ id ∈ Expr.identifiersList es, f id = id) : Expr.mapIdsList f es = es := by
  match es with
  | [] => rfl
  | e :: es =>
    obtain ⟨he, hes⟩ := List.forall_mem_append.1 h
    rw [Expr.mapIdsList, e.mapIds_eq_self he, Expr.mapIdsList_eq_self es hes]

theorem Property.mapIdsList_eq_self (ps : List Property)
    (h : ∀ id ∈ Property.identifiersList ps, f id = id) : Property.mapIdsList f ps = ps := by
  match ps with
  | [] => rfl
  | ⟨_, v, _, _, _⟩ :: ps =>
    obtain ⟨hv, hps⟩ := List.forall_mem_append.1 h
    rw [Property.mapIdsList, v.mapIds_eq_self hv, Property.mapIdsList_eq_self ps hps]

theorem Declarator.mapIdsList_eq_self (ds : List Declarator)
    (h : ∀ id ∈ Declarator.identifiersList ds, f id = id) : Declarator.mapIdsList f ds = ds := by
  match ds with
  | [] => rfl
  | ⟨id, none, _⟩ :: ds =>
    obtain ⟨hid, hds⟩ := List.forall_mem_cons.1 h
    rw [Declarator.mapIdsList, hid, Declarator.mapIdsList_eq_self ds hds]
  | ⟨id, some e, _⟩ :: ds =>
    obtain ⟨hhead, hds⟩ := List.forall_mem_append.1 h
    obtain ⟨hid, he⟩ := List.forall_mem_cons.1 hhead
    rw [Declarator.mapIdsList, hid, e.mapIds_eq_self he, Declarator.mapIdsList_eq_self ds hds]

theorem Block.mapIds_eq_self (b : Block) (h : ∀ id ∈ b.identifiers, f id = id) :
    b.mapIds f = b := by
  match b with
  | ⟨body, _⟩ => rw [Block.mapIds, Stmt.mapIdsList_eq_self body h]

theorem Declaration.mapIds_eq_self (d : Declaration) (h : ∀ id ∈ d.identifiers, f id = id) :
    d.mapIds f = d := by
  match d with
  | .variables _ ds _ => rw [Declaration.mapIds, Declarator.mapIdsList_eq_self ds h]
  | .function g ids b _ =>
    obtain ⟨hhead, hb⟩ := List.forall_mem_append.1 h
    obtain ⟨hg, hids⟩ := List.forall_mem_cons.1 hhead
    rw [Declaration.mapIds, hg, Identifier.map_eq_self hids, b.mapIds_eq_self hb]

/-- **A replacement of none of its identifiers** leaves a statement alone. -/
theorem Stmt.mapIds_eq_self (s : Stmt) (h : ∀ id ∈ s.identifiers, f id = id) :
    s.mapIds f = s := by
  match s with
  | .importDecl ss _ _ =>
    have hone : ∀ s ∈ ss, s.mapIds f = s := fun s hs => by
      have hbinding := h s.binding (List.mem_map_of_mem hs)
      cases s <;> simp_all [ImportSpecifier.mapIds, ImportSpecifier.binding]
    rw [Stmt.mapIds, List.map_congr_left hone, List.map_id']
  | .exportNamed ss _ _ =>
    have hone : ∀ s ∈ ss, s.mapIds f = s := fun s hs => by
      rw [ExportSpecifier.mapIds, h s.source (List.mem_map_of_mem hs)]
    rw [Stmt.mapIds, List.map_congr_left hone, List.map_id']
  | .exportAll .. | .returnValue none _ => rfl
  | .exportDecl d _ | .declaration d => rw [Stmt.mapIds, d.mapIds_eq_self h]
  | .exportDefault e _ | .returnValue (some e) _ | .expr e _ =>
    rw [Stmt.mapIds, e.mapIds_eq_self h]
  | .block b => rw [Stmt.mapIds, b.mapIds_eq_self h]
  | .ifThen t c none _ =>
    obtain ⟨ht, hc⟩ := List.forall_mem_append.1 h
    rw [Stmt.mapIds, t.mapIds_eq_self ht, c.mapIds_eq_self hc]
  | .ifThen t c (some a) _ =>
    obtain ⟨htc, ha⟩ := List.forall_mem_append.1 h
    obtain ⟨ht, hc⟩ := List.forall_mem_append.1 htc
    rw [Stmt.mapIds, t.mapIds_eq_self ht, c.mapIds_eq_self hc, a.mapIds_eq_self ha]

theorem Stmt.mapIdsList_eq_self (ss : List Stmt)
    (h : ∀ id ∈ Stmt.identifiersList ss, f id = id) : Stmt.mapIdsList f ss = ss := by
  match ss with
  | [] => rfl
  | s :: ss =>
    obtain ⟨hs, hss⟩ := List.forall_mem_append.1 h
    rw [Stmt.mapIdsList, s.mapIds_eq_self hs, Stmt.mapIdsList_eq_self ss hss]

end

end

end MessageBinder
