import MessageBinder.Proofs.Scope.Records
import MessageBinder.Scope.FreshName

/-!
# Taken names

A fresh name has to differ from every name that a module mentions, and what it is compared with are
the names that the scope has taken. They are those of the uses and those of the declarations that
the walk over the module notices (`MessageBinder.Module.hasName_scope_iff`).

**The walk does not notice every declaration.** Whether it does depends on the position of the
statement (`MessageBinder.Position`). At the front of a function body or of the module every
declaration counts. In a block an import and an exported declaration do not; as the branch of a
choice, without braces around it, nothing does but a plain `var`. A name that is declared in such
positions only is overlooked (`MessageBinder.Module.overlooked`), and then the scope has not taken
it (`MessageBinder.Module.hasName_all_iff`): in `if (x) let y = 1` nobody may use the `y`, but
nothing keeps a fresh name from being `y` either.
-/

namespace MessageBinder

/-! ### Positions -/

/-- Where a statement stands. -/
inductive Position where
  /-- In a module or in the body of a function. -/
  | body
  /-- In a block. -/
  | block
  /-- In place of a branch. -/
  | branch
deriving DecidableEq, Repr

/-- Whether a declaration is noticed at a position. -/
def Position.notices (p : Position) (d : Declaration) : Bool := p ≠ .branch || d.isVar

mutual

/-- The binders of an expression, each with whether it is noticed. -/
def Expr.sites : Expr → List (Identifier × Bool)
  | .name _ | .literal .. | .verbatim .. => []
  | .array es _ => Expr.sitesList es
  | .object ps _ => Property.sitesList ps
  | .member e _ _ => e.sites
  | .index e i _ => e.sites ++ i.sites
  | .call f as _ => f.sites ++ Expr.sitesList as
  | .unary _ e _ => e.sites
  | .binary _ l r _ => l.sites ++ r.sites
  | .conditional t c a _ => t.sites ++ c.sites ++ a.sites
  | .assign _ t v _ => t.sites ++ v.sites
  | .group e _ => e.sites
  | .arrow ids e _ => ids.map (·, true) ++ e.sites
  | .arrowBlock ids b _ => ids.map (·, true) ++ b.sites .body

/-- The binders of expressions, each with whether it is noticed. -/
def Expr.sitesList : List Expr → List (Identifier × Bool)
  | [] => []
  | e :: es => e.sites ++ Expr.sitesList es

/-- The binders of properties, each with whether it is noticed. -/
def Property.sitesList : List Property → List (Identifier × Bool)
  | [] => []
  | ⟨_, v, _, _, _⟩ :: ps => v.sites ++ Property.sitesList ps

/-- The binders of variables, each with whether it is noticed: that of the variables themselves is
the same for all. -/
def Declarator.sitesList (noticed : Bool) : List Declarator → List (Identifier × Bool)
  | [] => []
  | ⟨id, none, _⟩ :: ds => (id, noticed) :: Declarator.sitesList noticed ds
  | ⟨id, some e, _⟩ :: ds => (id, noticed) :: e.sites ++ Declarator.sitesList noticed ds

/-- The binders of a block whose statements stand at a position, each with whether it is noticed. -/
def Block.sites (p : Position) : Block → List (Identifier × Bool)
  | ⟨body, _⟩ => Stmt.sitesList p body

/-- The binders of a declaration, each with whether it is noticed. -/
def Declaration.sites (noticed : Bool) : Declaration → List (Identifier × Bool)
  | .variables _ ds _ => Declarator.sitesList noticed ds
  | .function f ids b _ => (f, noticed) :: ids.map (·, true) ++ b.sites .body

/-- The binders of a statement at a position, each with whether it is noticed. -/
def Stmt.sites (p : Position) : Stmt → List (Identifier × Bool)
  | .importDecl ss _ _ => ss.map (·.binding, p = .body)
  | .exportNamed .. | .exportAll .. => []
  | .exportDecl d _ => d.sites (p = .body)
  | .exportDefault e _ => e.sites
  | .declaration d => d.sites (p.notices d)
  | .block b => b.sites .block
  | .returnValue none _ => []
  | .returnValue (some e) _ => e.sites
  | .ifThen t c none _ => t.sites ++ c.sites .branch
  | .ifThen t c (some a) _ => t.sites ++ c.sites .branch ++ a.sites .branch
  | .expr e _ => e.sites

/-- The binders of statements at a position, each with whether it is noticed. -/
def Stmt.sitesList (p : Position) : List Stmt → List (Identifier × Bool)
  | [] => []
  | s :: ss => s.sites p ++ Stmt.sitesList p ss

end

/-- The binders of a module that are noticed. -/
def Module.noticed (m : Module) : List Identifier :=
  ((Stmt.sitesList .body m.body).filter (·.2)).map (·.1)

/-- The binders of a module that are overlooked. -/
def Module.overlooked (m : Module) : List Identifier :=
  ((Stmt.sitesList .body m.body).filter (!·.2)).map (·.1)

/-! ### Every binder has a site -/

mutual

theorem Expr.map_fst_sites (e : Expr) : e.sites.map Prod.fst = e.binders := by
  cases e with
  | name | literal | verbatim => rfl
  | array es => simpa [Expr.sites, Expr.binders] using Expr.map_fst_sitesList es
  | object ps => simpa [Expr.sites, Expr.binders] using Property.map_fst_sitesList ps
  | member e | unary _ e | group e => simpa [Expr.sites, Expr.binders] using e.map_fst_sites
  | index l r | binary _ l r | assign _ l r =>
    simp [Expr.sites, Expr.binders, l.map_fst_sites, r.map_fst_sites]
  | call f as => simp [Expr.sites, Expr.binders, f.map_fst_sites, Expr.map_fst_sitesList as]
  | conditional t c a =>
    simp [Expr.sites, Expr.binders, t.map_fst_sites, c.map_fst_sites, a.map_fst_sites]
  | arrow ids e => simp [Expr.sites, Expr.binders, e.map_fst_sites, Function.comp_def]
  | arrowBlock ids b => simp [Expr.sites, Expr.binders, b.map_fst_sites, Function.comp_def]

theorem Expr.map_fst_sitesList (es : List Expr) :
    (Expr.sitesList es).map Prod.fst = Expr.bindersList es := by
  match es with
  | [] => rfl
  | e :: es => simp [Expr.sitesList, Expr.bindersList, e.map_fst_sites, Expr.map_fst_sitesList es]

theorem Property.map_fst_sitesList (ps : List Property) :
    (Property.sitesList ps).map Prod.fst = Property.bindersList ps := by
  match ps with
  | [] => rfl
  | ⟨_, v, _, _, _⟩ :: ps =>
    simp [Property.sitesList, Property.bindersList, v.map_fst_sites,
      Property.map_fst_sitesList ps]

theorem Declarator.map_fst_sitesList (noticed : Bool) (ds : List Declarator) :
    (Declarator.sitesList noticed ds).map Prod.fst = Declarator.bindersList ds := by
  match ds with
  | [] => rfl
  | ⟨_, none, _⟩ :: ds =>
    simp [Declarator.sitesList, Declarator.bindersList, Declarator.map_fst_sitesList noticed ds]
  | ⟨_, some e, _⟩ :: ds =>
    simp [Declarator.sitesList, Declarator.bindersList, e.map_fst_sites,
      Declarator.map_fst_sitesList noticed ds]

theorem Block.map_fst_sites (p : Position) (b : Block) :
    (b.sites p).map Prod.fst = b.binders := by
  match b with
  | ⟨body, _⟩ => simpa [Block.sites, Block.binders] using Stmt.map_fst_sitesList p body

theorem Declaration.map_fst_sites (noticed : Bool) (d : Declaration) :
    (d.sites noticed).map Prod.fst = d.binders := by
  match d with
  | .variables _ ds _ =>
    simpa [Declaration.sites, Declaration.binders] using Declarator.map_fst_sitesList noticed ds
  | .function f ids b _ =>
    simp [Declaration.sites, Declaration.binders, b.map_fst_sites, Function.comp_def]

theorem Stmt.map_fst_sites (p : Position) (s : Stmt) : (s.sites p).map Prod.fst = s.binders := by
  match s with
  | .importDecl .. => simp [Stmt.sites, Stmt.binders]
  | .exportNamed .. => rfl
  | .exportAll .. => rfl
  | .exportDecl d _ => simpa [Stmt.sites, Stmt.binders] using d.map_fst_sites _
  | .exportDefault e _ => simpa [Stmt.sites, Stmt.binders] using e.map_fst_sites
  | .declaration d => simpa [Stmt.sites, Stmt.binders] using d.map_fst_sites _
  | .block b => simpa [Stmt.sites, Stmt.binders] using b.map_fst_sites _
  | .returnValue none _ => rfl
  | .returnValue (some e) _ => simpa [Stmt.sites, Stmt.binders] using e.map_fst_sites
  | .ifThen t c none _ => simp [Stmt.sites, Stmt.binders, t.map_fst_sites, c.map_fst_sites]
  | .ifThen t c (some a) _ =>
    simp [Stmt.sites, Stmt.binders, t.map_fst_sites, c.map_fst_sites, a.map_fst_sites]
  | .expr e _ => simpa [Stmt.sites, Stmt.binders] using e.map_fst_sites

theorem Stmt.map_fst_sitesList (p : Position) (ss : List Stmt) :
    (Stmt.sitesList p ss).map Prod.fst = Stmt.bindersList ss := by
  match ss with
  | [] => rfl
  | s :: ss =>
    simp [Stmt.sitesList, Stmt.bindersList, s.map_fst_sites, Stmt.map_fst_sitesList p ss]

end

/-- Every binder of a module is noticed or overlooked. -/
theorem Module.perm_binders (m : Module) : (m.noticed ++ m.overlooked).Perm m.binders := by
  rw [Module.noticed, Module.overlooked, Module.binders, ← Stmt.map_fst_sitesList .body,
    ← List.map_append]
  exact (List.filter_append_perm _ _).map _

/-! ### What the walk notices -/

/-- The declarations of a statement as far as its position lets them be noticed; those of a block
are declared in a chain of their own. -/
def Stmt.declaresAt (p : Position) (c inner : Chain) (s : Stmt) : List ScopeEvent :=
  match p with
  | .body => s.declares c
  | .block => s.varDeclares c ++ s.blockDeclares inner
  | .branch => s.varDeclares c

/-- The identifiers that events declare or use. -/
def ScopeEvent.mentioned (E : List ScopeEvent) : List Identifier :=
  E.filterMap fun
    | .declare _ id _ _ | .use _ id => some id
    | .place .. => none

theorem ScopeEvent.mentioned_append (E E' : List ScopeEvent) :
    ScopeEvent.mentioned (E ++ E') = ScopeEvent.mentioned E ++ ScopeEvent.mentioned E' :=
  List.filterMap_append

theorem ScopeEvent.map_name_mentioned (E : List ScopeEvent) :
    (ScopeEvent.mentioned E).map Identifier.name = ScopeEvent.names E := by
  rw [ScopeEvent.mentioned, ScopeEvent.names, List.map_filterMap]
  exact List.filterMap_congr fun e _ => by cases e <;> rfl

/-- What is declared and what is used make up what is mentioned. -/
theorem ScopeEvent.perm_mentioned (E : List ScopeEvent) :
    ((ScopeEvent.bindings E).map Binding.identifier
      ++ (ScopeEvent.uses E).map (·.2)).Perm (ScopeEvent.mentioned E) := by
  induction E with
  | nil => exact List.Perm.refl _
  | cons e E ih =>
    cases e with
    | declare chain id kind o => exact ih.cons id
    | use chain id => exact List.perm_middle.trans (ih.cons id)
    | place chain id => exact ih

section Count

variable (p : Identifier → Bool)

/-- How many of the identifiers that events mention have a property. -/
def ScopeEvent.mentionCount (E : List ScopeEvent) : Nat := (ScopeEvent.mentioned E).countP p

/-- How many of the sites are noticed and have a property. -/
def siteCount (sites : List (Identifier × Bool)) : Nat := sites.countP fun s => s.2 && p s.1

@[simp] theorem ScopeEvent.mentionCount_nil : ScopeEvent.mentionCount p [] = 0 := rfl

@[simp] theorem ScopeEvent.mentionCount_append (E E' : List ScopeEvent) :
    ScopeEvent.mentionCount p (E ++ E')
      = ScopeEvent.mentionCount p E + ScopeEvent.mentionCount p E' := by
  simp [ScopeEvent.mentionCount, ScopeEvent.mentioned_append]

@[simp] theorem ScopeEvent.mentionCount_declares (l : List α) (c : α → Chain) (id : α → Identifier)
    (kind : α → BindingKind) (o : α → Origin) :
    ScopeEvent.mentionCount p (l.map fun a => .declare (c a) (id a) (kind a) (o a))
      = (l.map id).countP p := by
  simp [ScopeEvent.mentionCount, ScopeEvent.mentioned, List.filterMap_map, Function.comp_def,
    List.countP_map]

@[simp] theorem ScopeEvent.mentionCount_uses (c : Chain) (ids : List α) (id : α → Identifier) :
    ScopeEvent.mentionCount p (ids.map fun a => .use c (id a)) = (ids.map id).countP p := by
  simp [ScopeEvent.mentionCount, ScopeEvent.mentioned, List.filterMap_map, Function.comp_def,
    List.countP_map]

@[simp] theorem ScopeEvent.mentionCount_places (c : Chain) (ids : List α) (id : α → Identifier) :
    ScopeEvent.mentionCount p (ids.map fun a => .place c (id a)) = 0 := by
  simp [ScopeEvent.mentionCount, ScopeEvent.mentioned, List.filterMap_map]

@[simp] theorem siteCount_nil : siteCount p [] = 0 := rfl

@[simp] theorem siteCount_append (l l' : List (Identifier × Bool)) :
    siteCount p (l ++ l') = siteCount p l + siteCount p l' := List.countP_append

@[simp] theorem siteCount_map (l : List α) (id : α → Identifier) (noticed : Bool) :
    siteCount p (l.map fun a => (id a, noticed))
      = if noticed then (l.map id).countP p else 0 := by
  cases noticed <;> simp [siteCount, List.countP_map, Function.comp_def]

@[simp] theorem siteCount_cons (id : Identifier) (noticed : Bool)
    (l : List (Identifier × Bool)) :
    siteCount p ((id, noticed) :: l)
      = (if noticed then [id].countP p else 0) + siteCount p l := by
  rw [← List.singleton_append, siteCount_append]
  cases noticed <;> simp [siteCount]

theorem mentionCount_paramDeclares (c : Chain) (ids : List Identifier) :
    ScopeEvent.mentionCount p (paramDeclares c ids) = ids.countP p := by
  simp [paramDeclares]

@[simp] theorem Stmt.declaresAt_body (c inner : Chain) :
    Stmt.declaresAt .body c inner = Stmt.declares c := rfl

theorem Stmt.mentionCount_declaresAt_block (c inner : Chain) (ss : List Stmt) :
    ScopeEvent.mentionCount p (ss.flatMap (Stmt.declaresAt .block c inner))
      = ScopeEvent.mentionCount p (Stmt.varDeclaresList c ss)
        + ScopeEvent.mentionCount p (ss.flatMap (Stmt.blockDeclares inner)) := by
  induction ss with
  | nil => rfl
  | cons s ss ih =>
    simp only [List.flatMap_cons, Stmt.varDeclaresList, Stmt.declaresAt,
      ScopeEvent.mentionCount_append] at ih ⊢
    omega

theorem Declaration.mentionCount_declares (c : Chain) (kind : VariableKind) (ds : List Declarator)
    (o : Origin) : ScopeEvent.mentionCount p ((Declaration.variables kind ds o).declares c)
      = (ds.map Declarator.id).countP p :=
  ScopeEvent.mentionCount_declares p ds _ _ _ _

/-- What stands at the front of a declaration is noticed where it declares. -/
theorem Stmt.mentionCount_declaresAt_declaration (q : Position) (c inner : Chain)
    (d : Declaration) :
    ScopeEvent.mentionCount p ((Stmt.declaration d).declaresAt q c inner)
      = if q.notices d then ScopeEvent.mentionCount p (d.declares c) else 0 := by
  have hchain : ScopeEvent.mentionCount p (d.declares inner)
      = ScopeEvent.mentionCount p (d.declares c) := by
    cases d with
    | «variables» => rw [Declaration.mentionCount_declares, Declaration.mentionCount_declares]
    | function => rfl
  cases q with
  | body => simp [Stmt.declaresAt, Stmt.declares, Position.notices]
  | block =>
    cases hvar : d.isVar <;>
      simp [Stmt.declaresAt, Stmt.varDeclares, Stmt.blockDeclares, Position.notices, hvar, hchain]
  | branch =>
    cases hvar : d.isVar <;> simp [Stmt.declaresAt, Stmt.varDeclares, Position.notices, hvar]

mutual

theorem Expr.mentionCount_walk (c : Chain) (e : Expr) :
    ScopeEvent.mentionCount p (e.walk c) = e.uses.countP p + siteCount p e.sites := by
  cases e with
  | name id =>
    simp [Expr.walk, Expr.uses, Expr.sites, ScopeEvent.mentionCount, ScopeEvent.mentioned]
  | literal | verbatim => rfl
  | array es => simpa [Expr.walk, Expr.uses, Expr.sites] using Expr.mentionCount_walkList c es
  | object ps => simpa [Expr.walk, Expr.uses, Expr.sites] using Property.mentionCount_walkList c ps
  | member e | unary _ e | group e =>
    simpa [Expr.walk, Expr.uses, Expr.sites] using e.mentionCount_walk c
  | index l r | binary _ l r | assign _ l r =>
    have h1 := l.mentionCount_walk c
    have h2 := r.mentionCount_walk c
    simp only [Expr.walk, Expr.uses, Expr.sites, ScopeEvent.mentionCount_append, List.countP_append,
      siteCount_append]
    omega
  | call f as =>
    have h1 := f.mentionCount_walk c
    have h2 := Expr.mentionCount_walkList c as
    simp only [Expr.walk, Expr.uses, Expr.sites, ScopeEvent.mentionCount_append, List.countP_append,
      siteCount_append]
    omega
  | conditional t d a =>
    have h1 := t.mentionCount_walk c
    have h2 := d.mentionCount_walk c
    have h3 := a.mentionCount_walk c
    simp only [Expr.walk, Expr.uses, Expr.sites, ScopeEvent.mentionCount_append, List.countP_append,
      siteCount_append]
    omega
  | arrow ids e o =>
    have h1 := e.mentionCount_walk (.function o.id :: c)
    have h2 := siteCount_map p ids id true
    simp [Expr.walk, Expr.uses, Expr.sites, mentionCount_paramDeclares]
    simp at h2
    omega
  | arrowBlock ids b o =>
    have h1 := b.mentionCount_walkFunction (.function o.id :: c) ids
    have h2 := siteCount_map p ids id true
    simp [Expr.walk, Expr.uses, Expr.sites]
    simp at h2
    omega

theorem Expr.mentionCount_walkList (c : Chain) (es : List Expr) :
    ScopeEvent.mentionCount p (Expr.walkList c es)
      = (Expr.usesList es).countP p + siteCount p (Expr.sitesList es) := by
  match es with
  | [] => rfl
  | e :: es =>
    have h1 := e.mentionCount_walk c
    have h2 := Expr.mentionCount_walkList c es
    simp only [Expr.walkList, Expr.usesList, Expr.sitesList, ScopeEvent.mentionCount_append,
      List.countP_append, siteCount_append]
    omega

theorem Property.mentionCount_walkList (c : Chain) (ps : List Property) :
    ScopeEvent.mentionCount p (Property.walkList c ps)
      = (Property.usesList ps).countP p + siteCount p (Property.sitesList ps) := by
  match ps with
  | [] => rfl
  | ⟨_, v, _, _, _⟩ :: ps =>
    have h1 := v.mentionCount_walk c
    have h2 := Property.mentionCount_walkList c ps
    simp only [Property.walkList, Property.usesList, Property.sitesList,
      ScopeEvent.mentionCount_append, List.countP_append, siteCount_append]
    omega

theorem Declarator.mentionCount_walkList (c : Chain) (noticed : Bool) (ds : List Declarator) :
    (if noticed then (ds.map Declarator.id).countP p else 0)
        + ScopeEvent.mentionCount p (Declarator.walkList c ds)
      = (Declarator.usesList ds).countP p
        + siteCount p (Declarator.sitesList noticed ds) := by
  match ds with
  | [] => simp [Declarator.walkList, Declarator.usesList, Declarator.sitesList]
  | ⟨_, none, _⟩ :: ds =>
    have h1 := Declarator.mentionCount_walkList c noticed ds
    cases noticed <;>
      simp [Declarator.walkList, Declarator.usesList, Declarator.sitesList, List.countP_cons]
        at h1 ⊢ <;>
      omega
  | ⟨_, some e, _⟩ :: ds =>
    have h1 := e.mentionCount_walk c
    have h2 := Declarator.mentionCount_walkList c noticed ds
    cases noticed <;>
      simp [Declarator.walkList, Declarator.usesList, Declarator.sitesList, List.countP_cons]
        at h2 ⊢ <;>
      omega

theorem Block.mentionCount_walkFunction (c : Chain) (ids : List Identifier) (b : Block) :
    ScopeEvent.mentionCount p (b.walkFunction c ids)
      = b.uses.countP p + ids.countP p + siteCount p (b.sites .body) := by
  match b with
  | ⟨body, _⟩ =>
    have h1 : ScopeEvent.mentionCount p (Stmt.declaresList c body)
        + ScopeEvent.mentionCount p (Stmt.walkList c body) = _ :=
      Stmt.mentionCount_walkList .body c c c body
    simp only [Block.walkFunction, Block.uses, Block.sites, ScopeEvent.mentionCount_append,
      mentionCount_paramDeclares]
    omega

theorem Block.mentionCount_walk (c c' : Chain) (b : Block) :
    ScopeEvent.mentionCount p (Stmt.varDeclaresList c b.body) + ScopeEvent.mentionCount p
    (b.walk c')
      = b.uses.countP p + siteCount p (b.sites .block) := by
  match b with
  | ⟨body, o⟩ =>
    have h1 := Stmt.mentionCount_walkList .block c (.block o.id :: c') (.block o.id :: c') body
    rw [Stmt.mentionCount_declaresAt_block] at h1
    simp only [Block.walk, Block.uses, Block.sites, ScopeEvent.mentionCount_append]
    omega

theorem Declaration.mentionCount_walk (c c' : Chain) (noticed : Bool) (d : Declaration) :
    (if noticed then ScopeEvent.mentionCount p (d.declares c) else 0)
        + ScopeEvent.mentionCount p (d.walk c')
      = d.uses.countP p + siteCount p (d.sites noticed) := by
  match d with
  | .variables kind ds o =>
    have h1 := Declarator.mentionCount_walkList c' noticed ds
    rw [Declaration.mentionCount_declares]
    simpa [Declaration.walk, Declaration.uses, Declaration.sites] using h1
  | .function f ids b o =>
    have h1 := b.mentionCount_walkFunction (.function o.id :: c') ids
    have h2 := siteCount_map p ids id true
    have h3 := ScopeEvent.mentionCount_declares p [f] (fun _ => c) id (fun _ => .function)
      (fun _ => o)
    simp at h2 h3
    simp [Declaration.walk, Declaration.uses, Declaration.sites, Declaration.declares, h3]
    omega

theorem Stmt.mentionCount_walk (q : Position) (c inner c' : Chain) (s : Stmt) :
    ScopeEvent.mentionCount p (s.declaresAt q c inner) + ScopeEvent.mentionCount p (s.walk c')
      = s.uses.countP p + siteCount p (s.sites q) := by
  -- most statements declare the same wherever they stand
  have hplain : s.declares c = s.varDeclares c → s.blockDeclares inner = [] →
      s.declaresAt q c inner = s.varDeclares c := fun h h' => by
    cases q <;> simp [Stmt.declaresAt, h, h']
  match s with
  | .importDecl ss _ o =>
    have h1 := ScopeEvent.mentionCount_declares p ss (fun _ => c) ImportSpecifier.binding
      (fun _ => .importName) (fun _ => o)
    cases q <;>
      simp [Stmt.declaresAt, Stmt.declares, Stmt.varDeclares, Stmt.blockDeclares, Stmt.walk,
        Stmt.uses, Stmt.sites]
  | .exportNamed _ none _ =>
    rw [hplain rfl rfl]
    simp [Stmt.varDeclares, Stmt.walk, Stmt.uses, Stmt.sites]
  | .exportNamed _ (some _) _ =>
    rw [hplain rfl rfl]
    simp [Stmt.varDeclares, Stmt.walk, Stmt.uses, Stmt.sites]
  | .exportAll .. =>
    rw [hplain rfl rfl]
    simp [Stmt.varDeclares, Stmt.walk, Stmt.uses, Stmt.sites]
  | .exportDecl d _ =>
    have h1 := d.mentionCount_walk c c' (q = .body)
    cases q <;>
      simpa [Stmt.declaresAt, Stmt.declares, Stmt.varDeclares, Stmt.blockDeclares, Stmt.walk,
        Stmt.uses, Stmt.sites] using h1
  | .exportDefault e _ =>
    rw [hplain rfl rfl]
    simpa [Stmt.varDeclares, Stmt.walk, Stmt.uses, Stmt.sites] using e.mentionCount_walk c'
  | .declaration d =>
    rw [Stmt.mentionCount_declaresAt_declaration]
    simpa only [Stmt.walk, Stmt.uses, Stmt.sites] using d.mentionCount_walk c c' (q.notices d)
  | .block ⟨body, o⟩ =>
    rw [hplain rfl rfl]
    simpa only [Stmt.varDeclares, Stmt.walk, Stmt.uses, Stmt.sites] using
      Block.mentionCount_walk c c' ⟨body, o⟩
  | .returnValue none _ =>
    rw [hplain rfl rfl]
    simp [Stmt.varDeclares, Stmt.walk, Stmt.uses, Stmt.sites]
  | .returnValue (some e) _ =>
    rw [hplain rfl rfl]
    simpa [Stmt.varDeclares, Stmt.walk, Stmt.uses, Stmt.sites] using e.mentionCount_walk c'
  | .ifThen t d none _ =>
    have h1 := t.mentionCount_walk c'
    have h2 := d.mentionCount_walk .branch c inner c'
    rw [hplain rfl rfl]
    simp only [Stmt.declaresAt, Stmt.varDeclares, Stmt.walk, Stmt.uses, Stmt.sites,
      ScopeEvent.mentionCount_append, List.countP_append, siteCount_append] at h2 ⊢
    omega
  | .ifThen t d (some a) _ =>
    have h1 := t.mentionCount_walk c'
    have h2 := d.mentionCount_walk .branch c inner c'
    have h3 := a.mentionCount_walk .branch c inner c'
    rw [hplain rfl rfl]
    simp only [Stmt.declaresAt, Stmt.varDeclares, Stmt.walk, Stmt.uses, Stmt.sites,
      ScopeEvent.mentionCount_append, List.countP_append, siteCount_append] at h2 h3 ⊢
    omega
  | .expr e _ =>
    rw [hplain rfl rfl]
    simpa [Stmt.varDeclares, Stmt.walk, Stmt.uses, Stmt.sites] using e.mentionCount_walk c'

theorem Stmt.mentionCount_walkList (q : Position) (c inner c' : Chain) (ss : List Stmt) :
    ScopeEvent.mentionCount p (ss.flatMap (Stmt.declaresAt q c inner))
        + ScopeEvent.mentionCount p (Stmt.walkList c' ss)
      = (Stmt.usesList ss).countP p + siteCount p (Stmt.sitesList q ss) := by
  match ss with
  | [] => rfl
  | s :: ss =>
    have h1 := s.mentionCount_walk q c inner c'
    have h2 := Stmt.mentionCount_walkList q c inner c' ss
    simp only [List.flatMap_cons, Stmt.walkList, Stmt.usesList, Stmt.sitesList,
      ScopeEvent.mentionCount_append, List.countP_append, siteCount_append]
    omega

end

end Count

/-! ### The names that a scope has taken -/

namespace Module

/-- **The identifiers that the events of a module mention** are its uses and its noticed binders,
each once. -/
theorem perm_mentioned (m : Module) :
    (ScopeEvent.mentioned m.events).Perm (m.uses ++ m.noticed) := by
  rw [List.perm_iff_count]
  intro id
  have hcount := Stmt.mentionCount_walkList (· == id) .body [.module] [.module] [.module] m.body
  have hevents : ScopeEvent.mentionCount (· == id) m.events = _ :=
    (ScopeEvent.mentionCount_append _ _ _).trans hcount
  rw [ScopeEvent.mentionCount] at hevents
  rw [List.count_eq_countP, hevents, List.count_append, List.count_eq_countP, uses,
    List.count_eq_countP, noticed, List.countP_map, List.countP_filter, siteCount]
  simp only [Function.comp_def, Bool.and_comm]

/-- The names that the events of a module mention. -/
theorem mem_names_events_iff (m : Module) (name : String) :
    name ∈ ScopeEvent.names m.events
      ↔ (∃ id ∈ m.uses, id.name = name) ∨ ∃ id ∈ m.noticed, id.name = name := by
  rw [← ScopeEvent.map_name_mentioned, (m.perm_mentioned.map Identifier.name).mem_iff,
    List.map_append, List.mem_append, List.mem_map, List.mem_map]

/-- **The taken names of a module** are those of its uses and of the binders that are noticed. -/
theorem hasName_scope_iff (m : Module) (name : String) :
    m.scope.hasName name
      ↔ (∃ id ∈ m.uses, id.name = name) ∨ ∃ id ∈ m.noticed, id.name = name := by
  rw [← mem_names_events_iff, scope, Scope.hasName_steps]
  simp [Scope.hasName]

/-- **When every name is taken**: exactly when each name that is overlooked somewhere is used or
noticed somewhere else. -/
theorem hasName_all_iff (m : Module) :
    (∀ id ∈ m.uses ++ m.binders, m.scope.hasName id.name)
      ↔ ∀ id ∈ m.overlooked, (∃ u ∈ m.uses, u.name = id.name) ∨
          ∃ b ∈ m.noticed, b.name = id.name := by
  constructor
  · intro h id hid
    rw [← hasName_scope_iff]
    exact h id (List.mem_append_right _ (m.perm_binders.subset (List.mem_append_right _ hid)))
  · intro h id hid
    rw [hasName_scope_iff]
    rcases List.mem_append.1 hid with huse | hbinder
    · exact Or.inl ⟨id, huse, rfl⟩
    · rcases List.mem_append.1 (m.perm_binders.symm.subset hbinder) with hnoticed | hover
      · exact Or.inr ⟨id, hnoticed, rfl⟩
      · exact h id hover

end Module

/-! ### Fresh names -/

namespace FreshName

/-- The candidates of a base differ. -/
theorem candidate_injective (base : String) :
    Function.Injective fun n => candidate base (n + 1) := by
  intro m n h
  have hsuffix : (if m + 1 = 1 then "" else toString (m + 1))
      = if n + 1 = 1 then "" else toString (n + 1) :=
    (String.append_right_inj ("_" ++ base)).1 h
  by_cases hm : m = 0 <;> by_cases hn : n = 0
  · rw [hm, hn]
  · simp [hm, hn, Nat.repr_ne_empty] at hsuffix
  · simp [hm, hn, Nat.repr_ne_empty] at hsuffix
  · simp only [Nat.add_eq_right, hm, hn, if_false] at hsuffix
    have hread := congrArg (fun s : String => Nat.ofDigitChars 10 s.toList 0) hsuffix
    simpa using hread

end FreshName

namespace Scope

/-- **A fresh name is not taken**: there is one candidate more than there are taken names. -/
theorem hasName_unusedName (s : Scope) (base : String) : s.hasName (s.unusedName base) = false := by
  rw [unusedName]
  cases hfind : ((List.range (s.names.length + 1)).map fun n =>
      FreshName.candidate base (n + 1)).find? (!s.hasName ·) with
  | some name => simpa using List.find?_some hfind
  | none =>
    exfalso
    have hsub : ((List.range (s.names.length + 1)).map fun n =>
        FreshName.candidate base (n + 1)) ⊆ s.names := fun name hname => by
      simpa [hasName] using List.find?_eq_none.1 hfind name hname
    have hnodup := (List.nodup_range (n := s.names.length + 1)).map
      (FreshName.candidate_injective base)
    have hlength := (List.subperm_of_subset hnodup hsub).length_le
    simp only [List.length_map, List.length_range] at hlength
    omega

end Scope

end MessageBinder
