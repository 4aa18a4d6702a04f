import MessageBinder.Proofs.Scope.Nesting

/-!
# Renaming and walking

A replacement of identifiers that leaves them where they are – renaming one of them is such a
replacement – changes nothing in the shape of a tree. The frames stay the same, the identifiers are
replaced one by one, and the walk gives the same events with the identifiers in them replaced
(`MessageBinder.Module.events_rename`).
-/

namespace MessageBinder

/-- A replacement that leaves identifiers where they are. -/
def Identifier.InPlace (f : Identifier → Identifier) : Prop := ∀ id, (f id).origin = id.origin

theorem Identifier.renamed_inPlace (n : Nat) (name : String) :
    Identifier.InPlace (Identifier.renamed n name) := by
  intro id
  rw [Identifier.renamed]
  split <;> rfl

theorem Identifier.renamed_self (id : Identifier) (name : String) :
    Identifier.renamed id.origin.id name id = { id with name } := by
  rw [Identifier.renamed, if_pos rfl]

theorem Identifier.renamed_of_ne {n : Nat} {name : String} {id : Identifier}
    (h : id.origin.id ≠ n) : Identifier.renamed n name id = id := by
  rw [Identifier.renamed, if_neg h]

theorem Identifier.numbers_map {f : Identifier → Identifier} (hf : Identifier.InPlace f)
    (ids : List Identifier) : Identifier.numbers (ids.map f) = Identifier.numbers ids := by
  rw [Identifier.numbers, List.map_map, Identifier.numbers]
  exact List.map_congr_left fun id _ => congrArg Origin.id (hf id)

/-- The event with its identifier replaced. -/
def ScopeEvent.mapIds (f : Identifier → Identifier) : ScopeEvent → ScopeEvent
  | .declare chain id kind o => .declare chain (f id) kind o
  | .use chain id => .use chain (f id)
  | .place chain id => .place chain (f id)

section

variable (f : Identifier → Identifier)

/-! ### Identifiers -/

mutual

theorem Expr.identifiers_mapIds (e : Expr) :
    (e.mapIds f).identifiers = e.identifiers.map f := by
  match e with
  | .name _ | .literal .. | .verbatim .. => rfl
  | .array es _ => exact Expr.identifiersList_mapIdsList es
  | .object ps _ => exact Property.identifiersList_mapIdsList ps
  | .member e _ _ | .unary _ e _ | .group e _ => exact e.identifiers_mapIds
  | .index e i _ | .binary _ e i _ | .assign _ e i _ =>
    simp [Expr.mapIds, Expr.identifiers, e.identifiers_mapIds, i.identifiers_mapIds]
  | .call g as _ =>
    simp [Expr.mapIds, Expr.identifiers, g.identifiers_mapIds, Expr.identifiersList_mapIdsList as]
  | .conditional t c a _ =>
    simp [Expr.mapIds, Expr.identifiers, t.identifiers_mapIds, c.identifiers_mapIds,
      a.identifiers_mapIds]
  | .arrow ids e _ => simp [Expr.mapIds, Expr.identifiers, e.identifiers_mapIds]
  | .arrowBlock ids b _ => simp [Expr.mapIds, Expr.identifiers, b.identifiers_mapIds]

theorem Expr.identifiersList_mapIdsList (es : List Expr) :
    Expr.identifiersList (Expr.mapIdsList f es) = (Expr.identifiersList es).map f := by
  match es with
  | [] => rfl
  | e :: es =>
    simp [Expr.mapIdsList, Expr.identifiersList, e.identifiers_mapIds,
      Expr.identifiersList_mapIdsList es]

theorem Property.identifiersList_mapIdsList (ps : List Property) :
    Property.identifiersList (Property.mapIdsList f ps)
      = (Property.identifiersList ps).map f := by
  match ps with
  | [] => rfl
  | ⟨_, v, _, _, _⟩ :: ps =>
    simp [Property.mapIdsList, Property.identifiersList, v.identifiers_mapIds,
      Property.identifiersList_mapIdsList ps]

theorem Declarator.identifiersList_mapIdsList (ds : List Declarator) :
    Declarator.identifiersList (Declarator.mapIdsList f ds)
      = (Declarator.identifiersList ds).map f := by
  match ds with
  | [] => rfl
  | ⟨_, none, _⟩ :: ds =>
    simp [Declarator.mapIdsList, Declarator.identifiersList,
      Declarator.identifiersList_mapIdsList ds]
  | ⟨_, some e, _⟩ :: ds =>
    simp [Declarator.mapIdsList, Declarator.identifiersList, e.identifiers_mapIds,
      Declarator.identifiersList_mapIdsList ds]

theorem Block.identifiers_mapIds (b : Block) :
    (b.mapIds f).identifiers = b.identifiers.map f := by
  match b with
  | ⟨body, _⟩ => exact Stmt.identifiersList_mapIdsList body

theorem Declaration.identifiers_mapIds (d : Declaration) :
    (d.mapIds f).identifiers = d.identifiers.map f := by
  match d with
  | .variables _ ds _ => exact Declarator.identifiersList_mapIdsList ds
  | .function _ _ b _ => simp [Declaration.mapIds, Declaration.identifiers, b.identifiers_mapIds]

theorem Stmt.identifiers_mapIds (s : Stmt) :
    (s.mapIds f).identifiers = s.identifiers.map f := by
  match s with
  | .importDecl ss _ _ =>
    rw [Stmt.mapIds, Stmt.identifiers, Stmt.identifiers, List.map_map, List.map_map]
    exact List.map_congr_left fun s _ => by cases s <;> rfl
  | .exportNamed ss _ _ => simp [Stmt.mapIds, Stmt.identifiers, ExportSpecifier.mapIds]
  | .exportAll .. | .returnValue none _ => rfl
  | .exportDecl d _ | .declaration d => exact d.identifiers_mapIds
  | .exportDefault e _ | .returnValue (some e) _ | .expr e _ => exact e.identifiers_mapIds
  | .block b => exact b.identifiers_mapIds
  | .ifThen t c none _ =>
    simp [Stmt.mapIds, Stmt.identifiers, t.identifiers_mapIds, c.identifiers_mapIds]
  | .ifThen t c (some a) _ =>
    simp [Stmt.mapIds, Stmt.identifiers, t.identifiers_mapIds, c.identifiers_mapIds,
      a.identifiers_mapIds]

theorem Stmt.identifiersList_mapIdsList (ss : List Stmt) :
    Stmt.identifiersList (Stmt.mapIdsList f ss) = (Stmt.identifiersList ss).map f := by
  match ss with
  | [] => rfl
  | s :: ss =>
    simp [Stmt.mapIdsList, Stmt.identifiersList, s.identifiers_mapIds,
      Stmt.identifiersList_mapIdsList ss]

end

/-! ### Frames -/

mutual

theorem Expr.frames_mapIds (e : Expr) : (e.mapIds f).frames = e.frames := by
  match e with
  | .name _ | .literal .. | .verbatim .. => rfl
  | .array es _ => exact Expr.framesList_mapIdsList es
  | .object ps _ => exact Property.framesList_mapIdsList ps
  | .member e _ _ | .unary _ e _ | .group e _ => exact e.frames_mapIds
  | .index e i _ | .binary _ e i _ | .assign _ e i _ =>
    simp [Expr.mapIds, Expr.frames, e.frames_mapIds, i.frames_mapIds]
  | .call g as _ => simp [Expr.mapIds, Expr.frames, g.frames_mapIds, Expr.framesList_mapIdsList as]
  | .conditional t c a _ =>
    simp [Expr.mapIds, Expr.frames, t.frames_mapIds, c.frames_mapIds, a.frames_mapIds]
  | .arrow ids e _ => simp [Expr.mapIds, Expr.frames, e.frames_mapIds]
  | .arrowBlock ids b _ => simp [Expr.mapIds, Expr.frames, b.innerFrames_mapIds]

theorem Expr.framesList_mapIdsList (es : List Expr) :
    Expr.framesList (Expr.mapIdsList f es) = Expr.framesList es := by
  match es with
  | [] => rfl
  | e :: es =>
    simp [Expr.mapIdsList, Expr.framesList, e.frames_mapIds, Expr.framesList_mapIdsList es]

theorem Property.framesList_mapIdsList (ps : List Property) :
    Property.framesList (Property.mapIdsList f ps) = Property.framesList ps := by
  match ps with
  | [] => rfl
  | ⟨_, v, _, _, _⟩ :: ps =>
    simp [Property.mapIdsList, Property.framesList, v.frames_mapIds,
      Property.framesList_mapIdsList ps]

theorem Declarator.framesList_mapIdsList (ds : List Declarator) :
    Declarator.framesList (Declarator.mapIdsList f ds) = Declarator.framesList ds := by
  match ds with
  | [] => rfl
  | ⟨_, none, _⟩ :: ds =>
    simp [Declarator.mapIdsList, Declarator.framesList, Declarator.framesList_mapIdsList ds]
  | ⟨_, some e, _⟩ :: ds =>
    simp [Declarator.mapIdsList, Declarator.framesList, e.frames_mapIds,
      Declarator.framesList_mapIdsList ds]

theorem Block.innerFrames_mapIds (b : Block) : (b.mapIds f).innerFrames = b.innerFrames := by
  match b with
  | ⟨body, _⟩ => exact Stmt.framesList_mapIdsList body

theorem Block.frames_mapIds (b : Block) : (b.mapIds f).frames = b.frames := by
  match b with
  | ⟨[], _⟩ => rfl
  | ⟨s :: ss, _⟩ =>
    have hss := Stmt.framesList_mapIdsList (s :: ss)
    simp only [Block.mapIds, Block.frames, hss]
    rfl

theorem Declaration.frames_mapIds (d : Declaration) : (d.mapIds f).frames = d.frames := by
  match d with
  | .variables _ ds _ => exact Declarator.framesList_mapIdsList ds
  | .function _ _ b _ => simp [Declaration.mapIds, Declaration.frames, b.innerFrames_mapIds]

theorem Stmt.frames_mapIds (s : Stmt) : (s.mapIds f).frames = s.frames := by
  match s with
  | .importDecl .. | .exportNamed .. | .exportAll .. | .returnValue none _ => rfl
  | .exportDecl d _ | .declaration d => exact d.frames_mapIds
  | .exportDefault e _ | .returnValue (some e) _ | .expr e _ => exact e.frames_mapIds
  | .block b => exact b.frames_mapIds
  | .ifThen t c none _ => simp [Stmt.mapIds, Stmt.frames, t.frames_mapIds, c.frames_mapIds]
  | .ifThen t c (some a) _ =>
    simp [Stmt.mapIds, Stmt.frames, t.frames_mapIds, c.frames_mapIds, a.frames_mapIds]

theorem Stmt.framesList_mapIdsList (ss : List Stmt) :
    Stmt.framesList (Stmt.mapIdsList f ss) = Stmt.framesList ss := by
  match ss with
  | [] => rfl
  | s :: ss =>
    simp [Stmt.mapIdsList, Stmt.framesList, s.frames_mapIds, Stmt.framesList_mapIdsList ss]

end

/-! ### Declarations -/

theorem Declarator.mapIdsList_eq_map (ds : List Declarator) :
    Declarator.mapIdsList f ds
      = ds.map fun d => ⟨f d.id, d.init.map (Expr.mapIds f), d.origin⟩ := by
  induction ds with
  | nil => rfl
  | cons d ds ih =>
    obtain ⟨id, init, o⟩ := d
    cases init <;> simp [Declarator.mapIdsList, ih]

theorem Declaration.declares_mapIds (c : Chain) (d : Declaration) :
    (d.mapIds f).declares c = (d.declares c).map (ScopeEvent.mapIds f) := by
  cases d with
  | «variables» kind ds o =>
    simp [Declaration.mapIds, Declaration.declares, Declarator.mapIdsList_eq_map,
      ScopeEvent.mapIds, Function.comp_def]
  | function g ids b o => rfl

theorem Declaration.isVar_mapIds (d : Declaration) : (d.mapIds f).isVar = d.isVar := by
  cases d with
  | «variables» kind ds o => cases kind <;> rfl
  | function g ids b o => rfl

mutual

theorem Stmt.varDeclares_mapIds (c : Chain) (s : Stmt) :
    (s.mapIds f).varDeclares c = (s.varDeclares c).map (ScopeEvent.mapIds f) := by
  match s with
  | .declaration d =>
    simp only [Stmt.mapIds, Stmt.varDeclares, Declaration.isVar_mapIds]
    split
    · exact Declaration.declares_mapIds f c d
    · rfl
  | .block ⟨body, _⟩ => exact Stmt.varDeclaresList_mapIdsList c body
  | .ifThen _ s none _ => exact Stmt.varDeclares_mapIds c s
  | .ifThen _ s (some a) _ =>
    simp [Stmt.mapIds, Stmt.varDeclares, Stmt.varDeclares_mapIds c s, Stmt.varDeclares_mapIds c a]
  | .importDecl .. | .exportNamed .. | .exportAll .. | .exportDecl .. | .exportDefault ..
  | .returnValue none _ | .returnValue (some _) _ | .expr .. => rfl

theorem Stmt.varDeclaresList_mapIdsList (c : Chain) (ss : List Stmt) :
    Stmt.varDeclaresList c (Stmt.mapIdsList f ss)
      = (Stmt.varDeclaresList c ss).map (ScopeEvent.mapIds f) := by
  match ss with
  | [] => rfl
  | s :: ss =>
    simp [Stmt.mapIdsList, Stmt.varDeclaresList, Stmt.varDeclares_mapIds c s,
      Stmt.varDeclaresList_mapIdsList c ss]

end

theorem Stmt.declares_mapIds (c : Chain) (s : Stmt) :
    (s.mapIds f).declares c = (s.declares c).map (ScopeEvent.mapIds f) := by
  match s with
  | .importDecl ss _ _ =>
    simp only [Stmt.mapIds, Stmt.declares, List.map_map]
    exact List.map_congr_left fun s _ => by cases s <;> rfl
  | .exportDecl d _ | .declaration d => exact Declaration.declares_mapIds f c d
  | .block ⟨body, o⟩ => exact Stmt.varDeclares_mapIds f c (.block ⟨body, o⟩)
  | .ifThen t s none o => exact Stmt.varDeclares_mapIds f c (.ifThen t s none o)
  | .ifThen t s (some a) o => exact Stmt.varDeclares_mapIds f c (.ifThen t s (some a) o)
  | .exportNamed .. | .exportAll .. | .exportDefault .. | .returnValue none _
  | .returnValue (some _) _ | .expr .. => rfl

theorem Stmt.declaresList_mapIdsList (c : Chain) (ss : List Stmt) :
    Stmt.declaresList c (Stmt.mapIdsList f ss)
      = (Stmt.declaresList c ss).map (ScopeEvent.mapIds f) := by
  induction ss with
  | nil => rfl
  | cons s ss ih =>
    simp only [Stmt.declaresList] at ih ⊢
    simp only [Stmt.mapIdsList, List.flatMap_cons, ih, Stmt.declares_mapIds, List.map_append]

theorem Stmt.blockDeclares_mapIdsList (c : Chain) (ss : List Stmt) :
    (Stmt.mapIdsList f ss).flatMap (Stmt.blockDeclares c)
      = (ss.flatMap (Stmt.blockDeclares c)).map (ScopeEvent.mapIds f) := by
  have hone : ∀ s : Stmt,
      (s.mapIds f).blockDeclares c = (s.blockDeclares c).map (ScopeEvent.mapIds f) := by
    intro s
    match s with
    | .declaration d =>
      simp only [Stmt.mapIds, Stmt.blockDeclares, Declaration.isVar_mapIds]
      split
      · rfl
      · exact Declaration.declares_mapIds f c d
    | .importDecl .. | .exportNamed .. | .exportAll .. | .exportDecl .. | .exportDefault ..
    | .block _ | .returnValue none _ | .returnValue (some _) _ | .ifThen _ _ none _
    | .ifThen _ _ (some _) _ | .expr .. => rfl
  induction ss with
  | nil => rfl
  | cons s ss ih => simp only [Stmt.mapIdsList, List.flatMap_cons, ih, hone, List.map_append]

theorem Stmt.mapIdsList_eq_map (ss : List Stmt) :
    Stmt.mapIdsList f ss = ss.map (Stmt.mapIds f) := by
  induction ss with
  | nil => rfl
  | cons s ss ih => rw [Stmt.mapIdsList, ih, List.map_cons]

@[simp] theorem Stmt.origin_mapIds (s : Stmt) : (s.mapIds f).origin = s.origin := by
  match s with
  | .declaration (.variables ..) | .declaration (.function ..) => rfl
  | .importDecl .. | .exportNamed .. | .exportAll .. | .exportDecl .. | .exportDefault ..
  | .block ⟨_, _⟩ | .returnValue none _ | .returnValue (some _) _ | .ifThen _ _ none _
  | .ifThen _ _ (some _) _ | .expr .. => rfl

/-- Statements keep their numbers. -/
theorem Stmt.map_number_mapIdsList (ss : List Stmt) :
    (Stmt.mapIdsList f ss).map (·.origin.id) = ss.map (·.origin.id) := by
  rw [Stmt.mapIdsList_eq_map, List.map_map]
  exact List.map_congr_left fun s _ => by simp

/-! ### Walks -/

variable {f}

theorem paramDeclares_map (hf : Identifier.InPlace f) (c : Chain) (ids : List Identifier) :
    paramDeclares c (ids.map f) = (paramDeclares c ids).map (ScopeEvent.mapIds f) := by
  rw [paramDeclares, paramDeclares, List.map_map, List.map_map]
  refine List.map_congr_left fun id _ => ?_
  rw [Function.comp_apply, Function.comp_apply, ScopeEvent.mapIds, hf id]

mutual

theorem Expr.walk_mapIds (hf : Identifier.InPlace f) (c : Chain) (e : Expr) :
    (e.mapIds f).walk c = (e.walk c).map (ScopeEvent.mapIds f) := by
  match e with
  | .name _ | .literal .. | .verbatim .. => rfl
  | .array es _ => exact Expr.walkList_mapIdsList hf c es
  | .object ps _ => exact Property.walkList_mapIdsList hf c ps
  | .member e _ _ | .unary _ e _ | .group e _ => exact e.walk_mapIds hf c
  | .index e i _ | .binary _ e i _ | .assign _ e i _ =>
    simp [Expr.mapIds, Expr.walk, e.walk_mapIds hf c, i.walk_mapIds hf c]
  | .call g as _ =>
    simp [Expr.mapIds, Expr.walk, g.walk_mapIds hf c, Expr.walkList_mapIdsList hf c as]
  | .conditional t s a _ =>
    simp [Expr.mapIds, Expr.walk, t.walk_mapIds hf c, s.walk_mapIds hf c, a.walk_mapIds hf c]
  | .arrow ids e o =>
    simp [Expr.mapIds, Expr.walk, paramDeclares_map hf, e.walk_mapIds hf (.function o.id :: c)]
  | .arrowBlock ids b o => exact b.walkFunction_mapIds hf (.function o.id :: c) ids

theorem Expr.walkList_mapIdsList (hf : Identifier.InPlace f) (c : Chain) (es : List Expr) :
    Expr.walkList c (Expr.mapIdsList f es)
      = (Expr.walkList c es).map (ScopeEvent.mapIds f) := by
  match es with
  | [] => rfl
  | e :: es =>
    simp [Expr.mapIdsList, Expr.walkList, e.walk_mapIds hf c, Expr.walkList_mapIdsList hf c es]

theorem Property.walkList_mapIdsList (hf : Identifier.InPlace f) (c : Chain) (ps : List Property) :
    Property.walkList c (Property.mapIdsList f ps)
      = (Property.walkList c ps).map (ScopeEvent.mapIds f) := by
  match ps with
  | [] => rfl
  | ⟨_, v, _, _, _⟩ :: ps =>
    simp [Property.mapIdsList, Property.walkList, v.walk_mapIds hf c,
      Property.walkList_mapIdsList hf c ps]

theorem Declarator.walkList_mapIdsList (hf : Identifier.InPlace f) (c : Chain)
    (ds : List Declarator) :
    Declarator.walkList c (Declarator.mapIdsList f ds)
      = (Declarator.walkList c ds).map (ScopeEvent.mapIds f) := by
  match ds with
  | [] => rfl
  | ⟨_, none, _⟩ :: ds =>
    simp [Declarator.mapIdsList, Declarator.walkList, Declarator.walkList_mapIdsList hf c ds]
  | ⟨_, some e, _⟩ :: ds =>
    simp [Declarator.mapIdsList, Declarator.walkList, e.walk_mapIds hf c,
      Declarator.walkList_mapIdsList hf c ds]

theorem Block.walkFunction_mapIds (hf : Identifier.InPlace f) (c : Chain) (ids : List Identifier)
    (b : Block) :
    (b.mapIds f).walkFunction c (ids.map f)
      = (b.walkFunction c ids).map (ScopeEvent.mapIds f) := by
  match b with
  | ⟨body, _⟩ =>
    simp [Block.mapIds, Block.walkFunction, paramDeclares_map hf, Stmt.declaresList_mapIdsList,
      Stmt.walkList_mapIdsList hf c body]

theorem Block.walk_mapIds (hf : Identifier.InPlace f) (c : Chain) (b : Block) :
    (b.mapIds f).walk c = (b.walk c).map (ScopeEvent.mapIds f) := by
  match b with
  | ⟨body, o⟩ =>
    simp only [Block.mapIds, Block.walk, Stmt.blockDeclares_mapIdsList, List.map_append,
      Stmt.walkList_mapIdsList hf (.block o.id :: c) body]

theorem Declaration.walk_mapIds (hf : Identifier.InPlace f) (c : Chain) (d : Declaration) :
    (d.mapIds f).walk c = (d.walk c).map (ScopeEvent.mapIds f) := by
  match d with
  | .variables _ ds _ => exact Declarator.walkList_mapIdsList hf c ds
  | .function _ ids b o => exact b.walkFunction_mapIds hf (.function o.id :: c) ids

theorem Stmt.walk_mapIds (hf : Identifier.InPlace f) (c : Chain) (s : Stmt) :
    (s.mapIds f).walk c = (s.walk c).map (ScopeEvent.mapIds f) := by
  match s with
  | .importDecl ss _ _ =>
    simp only [Stmt.mapIds, Stmt.walk, List.map_map]
    exact List.map_congr_left fun s _ => by cases s <;> rfl
  | .exportNamed ss none _ =>
    simp only [Stmt.mapIds, Stmt.walk, List.map_map]
    rfl
  | .exportNamed _ (some _) _ | .exportAll .. | .returnValue none _ => rfl
  | .exportDecl d _ | .declaration d => exact d.walk_mapIds hf c
  | .exportDefault e _ | .returnValue (some e) _ | .expr e _ => exact e.walk_mapIds hf c
  | .block b => exact b.walk_mapIds hf c
  | .ifThen t s none _ => simp [Stmt.mapIds, Stmt.walk, t.walk_mapIds hf c, s.walk_mapIds hf c]
  | .ifThen t s (some a) _ =>
    simp [Stmt.mapIds, Stmt.walk, t.walk_mapIds hf c, s.walk_mapIds hf c, a.walk_mapIds hf c]

theorem Stmt.walkList_mapIdsList (hf : Identifier.InPlace f) (c : Chain) (ss : List Stmt) :
    Stmt.walkList c (Stmt.mapIdsList f ss)
      = (Stmt.walkList c ss).map (ScopeEvent.mapIds f) := by
  match ss with
  | [] => rfl
  | s :: ss =>
    simp [Stmt.mapIdsList, Stmt.walkList, s.walk_mapIds hf c, Stmt.walkList_mapIdsList hf c ss]

end

end

/-- **The events of a renamed module** are those of the module with the identifier renamed. -/
theorem Module.events_rename (m : Module) (n : Nat) (name : String) :
    (m.rename n name).events
      = m.events.map (ScopeEvent.mapIds (Identifier.renamed n name)) := by
  rw [Module.events, Module.events, List.map_append]
  exact congrArg₂ (· ++ ·) (Stmt.declaresList_mapIdsList _ _ m.body)
    (Stmt.walkList_mapIdsList (Identifier.renamed_inPlace n name) _ m.body)

end MessageBinder
