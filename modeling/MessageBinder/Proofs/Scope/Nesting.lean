import MessageBinder.Proofs.Scope.Occurrences
import MessageBinder.Scope.Walk

/-!
# The shape of a walk

A walk over a tree gives events from many frames, but they nest: a frame opens with its
declarations, and everything that follows them until it ends happens inside it. This is all that
resolving names needs to know of a tree, and `MessageBinder.Nest` says it of a list of events,
together with the frames that it opens and the uses in it, in order.

Two consequences carry the rest. A frame is declared in only before anything inside it is used, so
that a use sees all declarations around it although the scope is built in one pass
(`MessageBinder.Nest.pairwise_frameOrder`); this needs that no two parts of a module are the same
frame. And every frame around a use is either one of the walk's own or was around the walk before
(`MessageBinder.Nest.chain_of_use`).
-/

namespace MessageBinder

mutual

/-- The frames that an expression opens, in order. -/
def Expr.frames : Expr → List Frame
  | .name _ | .literal .. | .verbatim .. => []
  | .array es _ => Expr.framesList es
  | .object ps _ => Property.framesList ps
  | .member e _ _ => e.frames
  | .index e i _ => e.frames ++ i.frames
  | .call f as _ => f.frames ++ Expr.framesList as
  | .unary _ e _ => e.frames
  | .binary _ l r _ => l.frames ++ r.frames
  | .conditional t c a _ => t.frames ++ c.frames ++ a.frames
  | .assign _ t v _ => t.frames ++ v.frames
  | .group e _ => e.frames
  | .arrow _ e o => .function o.id :: e.frames
  | .arrowBlock _ b o => .function o.id :: b.innerFrames

/-- The frames that expressions open, in order. -/
def Expr.framesList : List Expr → List Frame
  | [] => []
  | e :: es => e.frames ++ Expr.framesList es

/-- The frames that properties open, in order. -/
def Property.framesList : List Property → List Frame
  | [] => []
  | ⟨_, v, _, _, _⟩ :: ps => v.frames ++ Property.framesList ps

/-- The frames that variables open, in order. -/
def Declarator.framesList : List Declarator → List Frame
  | [] => []
  | ⟨_, none, _⟩ :: ds => Declarator.framesList ds
  | ⟨_, some e, _⟩ :: ds => e.frames ++ Declarator.framesList ds

/-- The frames inside a block. -/
def Block.innerFrames : Block → List Frame
  | ⟨body, _⟩ => Stmt.framesList body

/-- The frame of a block and those inside it. In an empty block nothing happens, and its frame does
not count. -/
def Block.frames : Block → List Frame
  | ⟨body, o⟩ => if body.isEmpty then [] else .block o.id :: Stmt.framesList body

/-- The frames that a declaration opens, in order. The body of a function has the frame of the
function and none of its own. -/
def Declaration.frames : Declaration → List Frame
  | .variables _ ds _ => Declarator.framesList ds
  | .function _ _ b o => .function o.id :: b.innerFrames

/-- The frames that a statement opens, in order. -/
def Stmt.frames : Stmt → List Frame
  | .importDecl .. | .exportNamed .. | .exportAll .. => []
  | .exportDecl d _ => d.frames
  | .exportDefault e _ => e.frames
  | .declaration d => d.frames
  | .block b => b.frames
  | .returnValue none _ => []
  | .returnValue (some e) _ => e.frames
  | .ifThen t c none _ => t.frames ++ c.frames
  | .ifThen t c (some a) _ => t.frames ++ c.frames ++ a.frames
  | .expr e _ => e.frames

/-- The frames that statements open, in order. -/
def Stmt.framesList : List Stmt → List Frame
  | [] => []
  | s :: ss => s.frames ++ Stmt.framesList ss

end

/-! ### Nested events -/

/-- Events that nest below a chain: the frames that they open, the uses in them, and the binders
`B` among which everything declared or placed is. -/
inductive Nest (B : List Identifier) :
    Chain → List Frame → List Identifier → List ScopeEvent → Prop
  /-- Nothing happens. -/
  | nil (c : Chain) : Nest B c [] [] []
  /-- A name is used. -/
  | use (c : Chain) (id : Identifier) : Nest B c [] [id] [.use c id]
  /-- A binder is placed. -/
  | place (c : Chain) {id : Identifier} (h : id ∈ B) : Nest B c [] [] [.place c id]
  /-- One thing happens after another. -/
  | append {c : Chain} {fs fs' : List Frame} {us us' : List Identifier} {E E' : List ScopeEvent} :
      Nest B c fs us E → Nest B c fs' us' E' → Nest B c (fs ++ fs') (us ++ us') (E ++ E')
  /-- A frame opens with declarations in it, and the rest happens inside. -/
  | frame {c : Chain} {f : Frame} {fs : List Frame} {us : List Identifier}
      {ds E : List ScopeEvent} (hf : f ≠ .module)
      (hds : ∀ e ∈ ds, ∃ id ∈ B, ∃ kind o, e = .declare (f :: c) id kind o) :
      Nest B (f :: c) fs us E → Nest B c (f :: fs) us (ds ++ E)

namespace Nest

variable {B : List Identifier}

theorem uses (c : Chain) (ids : List Identifier) : Nest B c [] ids (ids.map (.use c)) := by
  induction ids with
  | nil => exact .nil c
  | cons id ids ih => exact .append (.use c id) ih

theorem places (c : Chain) {ids : List Identifier} (h : ids ⊆ B) :
    Nest B c [] [] (ids.map (.place c)) := by
  induction ids with
  | nil => exact .nil c
  | cons id ids ih =>
    obtain ⟨hid, hids⟩ := List.cons_subset.1 h
    exact .append (.place c hid) (ih hids)

end Nest

/-! ### Declarations -/

/-- Whether a chain is that of a module or a function body, where `var` declares. -/
def Chain.IsFunction (c : Chain) : Prop := c.function = c

theorem Chain.isFunction_module : Chain.IsFunction [.module] := rfl

theorem Chain.isFunction_function (n : Nat) (c : Chain) : Chain.IsFunction (.function n :: c) := rfl

/-- A declared event of one of the given binders. -/
def ScopeEvent.DeclaresOne (c : Chain) (B : List Identifier) (e : ScopeEvent) : Prop :=
  ∃ id ∈ B, ∃ kind o, e = .declare c id kind o

theorem ScopeEvent.DeclaresOne.mono {c : Chain} {B B' : List Identifier} {e : ScopeEvent}
    (h : e.DeclaresOne c B) (hB : B ⊆ B') : e.DeclaresOne c B' := by
  obtain ⟨id, hid, h⟩ := h
  exact ⟨id, hB hid, h⟩

theorem Declarator.id_mem_bindersList {d : Declarator} {ds : List Declarator} (h : d ∈ ds) :
    d.id ∈ Declarator.bindersList ds := by
  induction ds with
  | nil => simp at h
  | cons d' ds ih =>
    have hrest : d ∈ ds → d.id ∈ Declarator.bindersList (d' :: ds) := fun hd => by
      obtain ⟨id, init, o⟩ := d'
      cases init <;> simp [Declarator.bindersList, ih hd]
    rcases List.mem_cons.1 h with rfl | h
    · obtain ⟨id, init, o⟩ := d
      cases init <;> simp [Declarator.bindersList]
    · exact hrest h

/-- A declaration declares its own binders, `var` in the function around. -/
theorem Declaration.declaresOne {d : Declaration} {c : Chain} (hc : d.isVar → c.IsFunction)
    {e : ScopeEvent} (h : e ∈ d.declares c) : e.DeclaresOne c d.binders := by
  cases d with
  | «variables» kind ds o =>
    obtain ⟨d, hd, rfl⟩ := List.mem_map.1 h
    have hchain : kind.chain c = c := by
      cases kind with
      | var => exact hc rfl
      | _ => rfl
    rw [hchain]
    exact ⟨d.id, Declarator.id_mem_bindersList hd, _, _, rfl⟩
  | function f ids b o =>
    rw [List.mem_singleton.1 h]
    exact ⟨f, by simp [Declaration.binders], _, _, rfl⟩

mutual

theorem Stmt.varDeclares_declaresOne {c : Chain} (hc : c.IsFunction) (s : Stmt) :
    ∀ e ∈ s.varDeclares c, e.DeclaresOne c s.binders := by
  intro e h
  match s with
  | .declaration d =>
    simp only [Stmt.varDeclares] at h
    split at h
    · exact Declaration.declaresOne (fun _ => hc) h
    · simp at h
  | .block ⟨body, _⟩ => exact Stmt.varDeclaresList_declaresOne hc body e h
  | .ifThen t s none _ =>
    exact (Stmt.varDeclares_declaresOne hc s e h).mono (by simp [Stmt.binders])
  | .ifThen t s (some a) _ =>
    rcases List.mem_append.1 h with h | h
    · exact (Stmt.varDeclares_declaresOne hc s e h).mono
        fun x hx => by simp [Stmt.binders, hx]
    · exact (Stmt.varDeclares_declaresOne hc a e h).mono
        fun x hx => by simp [Stmt.binders, hx]
  | .importDecl .. | .exportNamed .. | .exportAll .. | .exportDecl .. | .exportDefault ..
  | .returnValue .. | .expr .. => simp [Stmt.varDeclares] at h

theorem Stmt.varDeclaresList_declaresOne {c : Chain} (hc : c.IsFunction) (ss : List Stmt) :
    ∀ e ∈ Stmt.varDeclaresList c ss, e.DeclaresOne c (Stmt.bindersList ss) := by
  intro e h
  match ss with
  | [] => simp [Stmt.varDeclaresList] at h
  | s :: ss =>
    rcases List.mem_append.1 h with h | h
    · exact (Stmt.varDeclares_declaresOne hc s e h).mono (by simp [Stmt.bindersList])
    · exact (Stmt.varDeclaresList_declaresOne hc ss e h).mono (by simp [Stmt.bindersList])

end

/-- A statement of a module or a function body declares binders of its own, there. -/
theorem Stmt.declares_declaresOne {c : Chain} (hc : c.IsFunction) {s : Stmt} {e : ScopeEvent}
    (h : e ∈ s.declares c) : e.DeclaresOne c s.binders := by
  match s with
  | .importDecl ss _ _ =>
    obtain ⟨sp, hsp, rfl⟩ := List.mem_map.1 h
    exact ⟨sp.binding, List.mem_map_of_mem hsp, _, _, rfl⟩
  | .exportDecl d _ => exact Declaration.declaresOne (fun _ => hc) h
  | .declaration d => exact Declaration.declaresOne (fun _ => hc) h
  | .exportNamed .. | .exportAll .. | .exportDefault .. | .block .. | .returnValue ..
  | .ifThen .. | .expr .. => exact Stmt.varDeclares_declaresOne hc _ e h

theorem Stmt.declaresList_declaresOne {c : Chain} (hc : c.IsFunction) {ss : List Stmt}
    {e : ScopeEvent} (h : e ∈ Stmt.declaresList c ss) : e.DeclaresOne c (Stmt.bindersList ss) := by
  induction ss with
  | nil => simp [Stmt.declaresList] at h
  | cons s ss ih =>
    rw [Stmt.declaresList, List.flatMap_cons, List.mem_append] at h
    rcases h with h | h
    · exact (Stmt.declares_declaresOne hc h).mono (by simp [Stmt.bindersList])
    · exact (ih h).mono (by simp [Stmt.bindersList])

theorem Stmt.blockDeclares_declaresOne {c : Chain} {ss : List Stmt} {e : ScopeEvent}
    (h : e ∈ ss.flatMap (Stmt.blockDeclares c)) : e.DeclaresOne c (Stmt.bindersList ss) := by
  induction ss with
  | nil => simp at h
  | cons s ss ih =>
    rw [List.flatMap_cons, List.mem_append] at h
    rcases h with h | h
    · match s with
      | .declaration d =>
        simp only [Stmt.blockDeclares] at h
        split at h
        · simp at h
        · rename_i hvar
          exact (Declaration.declaresOne (fun hc => absurd hc hvar) h).mono
            (by simp [Stmt.bindersList, Stmt.binders])
      | .importDecl .. | .exportNamed .. | .exportAll .. | .exportDecl .. | .exportDefault ..
      | .block .. | .returnValue .. | .ifThen .. | .expr .. => simp [Stmt.blockDeclares] at h
    · exact (ih h).mono (by simp [Stmt.bindersList])

/-! ### Every walk nests -/

section Walk

variable {B : List Identifier}

theorem paramDeclares_declaresOne {c : Chain} {ids : List Identifier} (h : ids ⊆ B)
    {e : ScopeEvent} (he : e ∈ paramDeclares c ids) : e.DeclaresOne c B := by
  obtain ⟨id, hid, rfl⟩ := List.mem_map.1 he
  exact ⟨id, h hid, _, _, rfl⟩

mutual

theorem Expr.nest_walk (c : Chain) (e : Expr) (h : e.binders ⊆ B) :
    Nest B c e.frames e.uses (e.walk c) := by
  match e with
  | .name id => exact .use c id
  | .literal .. => exact .nil c
  | .verbatim .. => exact .nil c
  | .array es _ => exact Expr.nest_walkList c es h
  | .object ps _ => exact Property.nest_walkList c ps h
  | .member e _ _ => exact Expr.nest_walk c e h
  | .index e i _ =>
    obtain ⟨h1, h2⟩ := List.append_subset.1 h
    exact .append (Expr.nest_walk c e h1) (Expr.nest_walk c i h2)
  | .call f as _ =>
    obtain ⟨h1, h2⟩ := List.append_subset.1 h
    exact .append (Expr.nest_walk c f h1) (Expr.nest_walkList c as h2)
  | .unary _ e _ => exact Expr.nest_walk c e h
  | .binary _ l r _ =>
    obtain ⟨h1, h2⟩ := List.append_subset.1 h
    exact .append (Expr.nest_walk c l h1) (Expr.nest_walk c r h2)
  | .conditional t s a _ =>
    obtain ⟨h12, h3⟩ := List.append_subset.1 h
    obtain ⟨h1, h2⟩ := List.append_subset.1 h12
    exact .append (.append (Expr.nest_walk c t h1) (Expr.nest_walk c s h2)) (Expr.nest_walk c a h3)
  | .assign _ t v _ =>
    obtain ⟨h1, h2⟩ := List.append_subset.1 h
    exact .append (Expr.nest_walk c t h1) (Expr.nest_walk c v h2)
  | .group e _ => exact Expr.nest_walk c e h
  | .arrow ids e o =>
    obtain ⟨h1, h2⟩ := List.append_subset.1 h
    exact .frame nofun (fun _ he => paramDeclares_declaresOne h1 he) (Expr.nest_walk _ e h2)
  | .arrowBlock ids b o =>
    obtain ⟨h1, h2⟩ := List.append_subset.1 h
    exact Block.nest_walkFunction c o.id ids b h1 h2

theorem Expr.nest_walkList (c : Chain) (es : List Expr) (h : Expr.bindersList es ⊆ B) :
    Nest B c (Expr.framesList es) (Expr.usesList es) (Expr.walkList c es) := by
  match es with
  | [] => exact .nil c
  | e :: es =>
    obtain ⟨h1, h2⟩ := List.append_subset.1 h
    exact .append (Expr.nest_walk c e h1) (Expr.nest_walkList c es h2)

theorem Property.nest_walkList (c : Chain) (ps : List Property) (h : Property.bindersList ps ⊆ B) :
    Nest B c (Property.framesList ps) (Property.usesList ps) (Property.walkList c ps) := by
  match ps with
  | [] => exact .nil c
  | ⟨_, v, _, _, _⟩ :: ps =>
    obtain ⟨h1, h2⟩ := List.append_subset.1 h
    exact .append (Expr.nest_walk c v h1) (Property.nest_walkList c ps h2)

theorem Declarator.nest_walkList (c : Chain) (ds : List Declarator)
    (h : Declarator.bindersList ds ⊆ B) :
    Nest B c (Declarator.framesList ds) (Declarator.usesList ds) (Declarator.walkList c ds) := by
  match ds with
  | [] => exact .nil c
  | ⟨_, none, _⟩ :: ds => exact Declarator.nest_walkList c ds (List.cons_subset.1 h).2
  | ⟨_, some e, _⟩ :: ds =>
    obtain ⟨h1, h2⟩ := List.append_subset.1 (List.cons_subset.1 h).2
    exact .append (Expr.nest_walk c e h1) (Declarator.nest_walkList c ds h2)

theorem Block.nest_walkFunction (c : Chain) (n : Nat) (ids : List Identifier) (b : Block)
    (h1 : ids ⊆ B) (h2 : b.binders ⊆ B) :
    Nest B c (.function n :: b.innerFrames) b.uses (b.walkFunction (.function n :: c) ids) := by
  match b with
  | ⟨body, _⟩ =>
    refine .frame nofun (fun e he => ?_) (Stmt.nest_walkList _ body h2)
    rcases List.mem_append.1 he with he | he
    · exact paramDeclares_declaresOne h1 he
    · exact (Stmt.declaresList_declaresOne (Chain.isFunction_function n c) he).mono h2

theorem Block.nest_walk (c : Chain) (b : Block) (h : b.binders ⊆ B) :
    Nest B c b.frames b.uses (b.walk c) := by
  match b with
  | ⟨[], _⟩ => exact .nil c
  | ⟨s :: ss, _⟩ =>
    exact .frame nofun (fun e he => (Stmt.blockDeclares_declaresOne he).mono h)
      (Stmt.nest_walkList _ (s :: ss) h)

theorem Declaration.nest_walk (c : Chain) (d : Declaration) (h : d.binders ⊆ B) :
    Nest B c d.frames d.uses (d.walk c) := by
  match d with
  | .variables _ ds _ => exact Declarator.nest_walkList c ds h
  | .function _ ids b o =>
    obtain ⟨h1, h2⟩ := List.append_subset.1 (List.cons_subset.1 h).2
    exact Block.nest_walkFunction c o.id ids b h1 h2

theorem Stmt.nest_walk (c : Chain) (s : Stmt) (h : s.binders ⊆ B) :
    Nest B c s.frames s.uses (s.walk c) := by
  match s with
  | .importDecl ss _ _ =>
    have hss : ss.map ImportSpecifier.binding ⊆ B := h
    have := Nest.places c hss
    rwa [List.map_map] at this
  | .exportNamed ss none _ =>
    have := Nest.uses (B := B) c (ss.map ExportSpecifier.source)
    rwa [List.map_map] at this
  | .exportNamed _ (some _) _ => exact .nil c
  | .exportAll .. => exact .nil c
  | .exportDecl d _ => exact Declaration.nest_walk c d h
  | .exportDefault e _ => exact Expr.nest_walk c e h
  | .declaration d => exact Declaration.nest_walk c d h
  | .block b => exact Block.nest_walk c b h
  | .returnValue none _ => exact .nil c
  | .returnValue (some e) _ => exact Expr.nest_walk c e h
  | .ifThen t s none _ =>
    obtain ⟨h1, h2⟩ := List.append_subset.1 h
    exact .append (Expr.nest_walk c t h1) (Stmt.nest_walk c s h2)
  | .ifThen t s (some a) _ =>
    obtain ⟨h12, h3⟩ := List.append_subset.1 h
    obtain ⟨h1, h2⟩ := List.append_subset.1 h12
    exact .append (.append (Expr.nest_walk c t h1) (Stmt.nest_walk c s h2)) (Stmt.nest_walk c a h3)
  | .expr e _ => exact Expr.nest_walk c e h

theorem Stmt.nest_walkList (c : Chain) (ss : List Stmt) (h : Stmt.bindersList ss ⊆ B) :
    Nest B c (Stmt.framesList ss) (Stmt.usesList ss) (Stmt.walkList c ss) := by
  match ss with
  | [] => exact .nil c
  | s :: ss =>
    obtain ⟨h1, h2⟩ := List.append_subset.1 h
    exact .append (Stmt.nest_walk c s h1) (Stmt.nest_walkList c ss h2)

end

end Walk

/-! ### What nesting gives -/

/-- A declaration does not come after a use inside its frame. -/
def ScopeEvent.FrameOrder : ScopeEvent → ScopeEvent → Prop
  | .use c _, .declare c' _ _ _ => c'.head?.getD .module ∉ c
  | _, _ => True

/-- The number of the identifier of an event. -/
def ScopeEvent.number : ScopeEvent → Nat
  | .declare _ id _ _ | .use _ id | .place _ id => id.origin.id

/-- **What may come before what**: a declaration does not come after a use inside its frame, and a
use has its identifier to itself. -/
def ScopeEvent.Before (e e' : ScopeEvent) : Prop :=
  e.FrameOrder e' ∧ match e with
    | .use _ id => id.origin.id ≠ e'.number
    | _ => True

/-- The uses among events, each with its chain. -/
def ScopeEvent.uses (E : List ScopeEvent) : List (Chain × Identifier) :=
  E.filterMap fun
    | .use c id => some (c, id)
    | _ => none

/-- The identifiers that events declare or place. -/
def ScopeEvent.others (E : List ScopeEvent) : List Identifier :=
  E.filterMap fun
    | .use .. => none
    | .declare _ id _ _ | .place _ id => some id

namespace ScopeEvent

@[simp] theorem uses_append (E E' : List ScopeEvent) : uses (E ++ E') = uses E ++ uses E' :=
  List.filterMap_append

@[simp] theorem others_append (E E' : List ScopeEvent) :
    others (E ++ E') = others E ++ others E' :=
  List.filterMap_append

theorem mem_uses {E : List ScopeEvent} {c : Chain} {id : Identifier} :
    (c, id) ∈ uses E ↔ .use c id ∈ E := by
  rw [uses, List.mem_filterMap]
  constructor
  · rintro ⟨e, he, heq⟩
    cases e with
    | use c' id' =>
      obtain ⟨rfl, rfl⟩ := Prod.mk.inj (Option.some.inj heq)
      exact he
    | _ => simp at heq
  · exact fun h => ⟨_, h, rfl⟩

theorem uses_eq_nil_of_declaresOne {c : Chain} {B : List Identifier} {E : List ScopeEvent}
    (h : ∀ e ∈ E, e.DeclaresOne c B) : uses E = [] := by
  rw [uses, List.filterMap_eq_nil_iff]
  intro e he
  obtain ⟨id, -, kind, o, rfl⟩ := h e he
  rfl

theorem others_subset_of_declaresOne {c : Chain} {B : List Identifier} {E : List ScopeEvent}
    (h : ∀ e ∈ E, e.DeclaresOne c B) : others E ⊆ B := by
  intro id hid
  obtain ⟨e, he, heq⟩ := List.mem_filterMap.1 hid
  obtain ⟨id', hid', kind, o, rfl⟩ := h e he
  rwa [← Option.some.inj heq]

/-- An event is a use or one of the others. -/
theorem number_mem (E : List ScopeEvent) {e : ScopeEvent} (h : e ∈ E) :
    e.number ∈ Identifier.numbers ((uses E).map (·.2) ++ others E) := by
  rw [Identifier.numbers, List.mem_map]
  cases e with
  | use c id =>
    exact ⟨id, List.mem_append_left _ (List.mem_map.2 ⟨(c, id), mem_uses.2 h, rfl⟩), rfl⟩
  | declare c id kind o =>
    exact ⟨id, List.mem_append_right _ (List.mem_filterMap.2 ⟨_, h, rfl⟩), rfl⟩
  | place c id =>
    exact ⟨id, List.mem_append_right _ (List.mem_filterMap.2 ⟨_, h, rfl⟩), rfl⟩

/-- Events in order are before each other if their uses are different identifiers and different from
what they declare or place. -/
theorem pairwise_before {E : List ScopeEvent} (horder : E.Pairwise FrameOrder)
    (huses : (Identifier.numbers ((uses E).map (·.2))).Nodup)
    (hothers : (Identifier.numbers ((uses E).map (·.2))).Disjoint
      (Identifier.numbers (others E))) : E.Pairwise Before := by
  induction E with
  | nil => exact .nil
  | cons e E ih =>
    obtain ⟨hhead, htail⟩ := List.pairwise_cons.1 horder
    cases e with
    | declare c id kind o =>
      have hsub := (List.disjoint_cons_right.1 hothers).2
      exact List.pairwise_cons.2 ⟨fun e' he' => ⟨hhead e' he', trivial⟩, ih htail huses hsub⟩
    | place c id =>
      have hsub := (List.disjoint_cons_right.1 hothers).2
      exact List.pairwise_cons.2 ⟨fun e' he' => ⟨hhead e' he', trivial⟩, ih htail huses hsub⟩
    | use c id =>
      obtain ⟨hnew, hnodup⟩ := List.nodup_cons.1 huses
      obtain ⟨hnew', hdisj⟩ := List.disjoint_cons_left.1 hothers
      refine List.pairwise_cons.2 ⟨fun e' he' => ⟨hhead e' he', fun hc => ?_⟩,
        ih htail hnodup hdisj⟩
      have hmem := number_mem E he'
      rw [← hc, Identifier.numbers, List.map_append, List.mem_append] at hmem
      exact hmem.elim hnew hnew'

end ScopeEvent

namespace Nest

variable {B : List Identifier} {c : Chain} {fs : List Frame} {us : List Identifier}
  {E : List ScopeEvent}

/-- No part of a module is its frame. -/
theorem module_notMem (h : Nest B c fs us E) : .module ∉ fs := by
  induction h with
  | nil c => exact List.not_mem_nil
  | use c id => exact List.not_mem_nil
  | place c hid => exact List.not_mem_nil
  | append _ _ ih ih' => exact fun hmem => (List.mem_append.1 hmem).elim ih ih'
  | frame hf _ _ ih => exact fun hmem => (List.mem_cons.1 hmem).elim (fun hc => hf hc.symm) ih

/-- The uses of a walk are those of the tree, in order. -/
theorem uses_eq (h : Nest B c fs us E) : (ScopeEvent.uses E).map (·.2) = us := by
  induction h with
  | nil c => rfl
  | use c id => rfl
  | place c hid => rfl
  | append _ _ ih ih' => rw [ScopeEvent.uses_append, List.map_append, ih, ih']
  | frame _ hds _ ih =>
    rw [ScopeEvent.uses_append, ScopeEvent.uses_eq_nil_of_declaresOne hds, List.nil_append, ih]

/-- What a walk declares or places are binders. -/
theorem others_subset (h : Nest B c fs us E) : ScopeEvent.others E ⊆ B := by
  induction h with
  | nil c => exact List.nil_subset B
  | use c id => exact List.nil_subset B
  | place c hid => simpa [ScopeEvent.others] using hid
  | append _ _ ih ih' =>
    rw [ScopeEvent.others_append]
    exact List.append_subset.2 ⟨ih, ih'⟩
  | frame _ hds _ ih =>
    rw [ScopeEvent.others_append]
    exact List.append_subset.2 ⟨ScopeEvent.others_subset_of_declaresOne hds, ih⟩

/-- The chain around a use is that around the walk behind frames that the walk opens. -/
theorem chain_of_use (h : Nest B c fs us E) {c' : Chain} {id : Identifier}
    (he : .use c' id ∈ E) : ∃ pre, c' = pre ++ c ∧ pre ⊆ fs := by
  induction h with
  | nil c => simp at he
  | use c id =>
    obtain ⟨hc, -⟩ := ScopeEvent.use.inj (List.mem_singleton.1 he)
    exact ⟨[], hc, List.nil_subset _⟩
  | place c hid => simp at he
  | append _ _ ih ih' =>
    rcases List.mem_append.1 he with he | he
    · obtain ⟨pre, hpre, hsub⟩ := ih he
      exact ⟨pre, hpre, List.Subset.trans hsub (List.subset_append_left _ _)⟩
    · obtain ⟨pre, hpre, hsub⟩ := ih' he
      exact ⟨pre, hpre, List.Subset.trans hsub (List.subset_append_right _ _)⟩
  | @frame c f fs us ds E _ hds _ ih =>
    rcases List.mem_append.1 he with he | he
    · obtain ⟨_, -, kind, o, heq⟩ := hds _ he
      cases heq
    · obtain ⟨pre, rfl, hsub⟩ := ih he
      refine ⟨pre ++ [f], by simp, List.append_subset.2 ⟨?_, by simp⟩⟩
      exact List.Subset.trans hsub (List.subset_cons_self f fs)

/-- What a walk declares it declares in frames that it opens. -/
theorem frame_of_declare (h : Nest B c fs us E) {c' : Chain} {id : Identifier}
    {kind : BindingKind} {o : Origin} (he : .declare c' id kind o ∈ E) :
    c'.head?.getD .module ∈ fs := by
  induction h with
  | nil c => simp at he
  | use c id => simp at he
  | place c hid => simp at he
  | append _ _ ih ih' =>
    rcases List.mem_append.1 he with he | he
    · exact List.mem_append_left _ (ih he)
    · exact List.mem_append_right _ (ih' he)
  | frame _ hds _ ih =>
    rcases List.mem_append.1 he with he | he
    · obtain ⟨_, -, _, _, heq⟩ := hds _ he
      cases heq
      exact List.mem_cons_self
    · exact List.mem_cons_of_mem _ (ih he)

/-- **Declarations come before the uses around which they stand**, if no two parts of the tree are
the same frame and none is a frame around it. -/
theorem pairwise_frameOrder (h : Nest B c fs us E) (hfs : fs.Nodup) (hc : fs.Disjoint c) :
    E.Pairwise ScopeEvent.FrameOrder := by
  induction h with
  | nil c => exact .nil
  | use c id => exact List.pairwise_singleton _ _
  | place c hid => exact List.pairwise_singleton _ _
  | append h1 h2 ih ih' =>
    obtain ⟨hn, hn', hd⟩ := List.nodup_append'.1 hfs
    obtain ⟨hc1, hc2⟩ := List.disjoint_append_left.1 hc
    refine List.pairwise_append.2 ⟨ih hn hc1, ih' hn' hc2, fun e he e' he' => ?_⟩
    cases e with
    | use c' id =>
      cases e' with
      | declare c'' id' kind o =>
        -- a declaration in a later part is in a frame that is not around the use
        have hmem := h2.frame_of_declare he'
        obtain ⟨pre, rfl, hpre⟩ := h1.chain_of_use he
        intro hin
        rcases List.mem_append.1 hin with hin | hin
        · exact hd (hpre hin) hmem
        · exact hc2 hmem hin
      | _ => trivial
    | _ => trivial
  | @frame c f fs us ds E _ hds h ih =>
    obtain ⟨hf, hn⟩ := List.nodup_cons.1 hfs
    obtain ⟨hfc, hcs⟩ := List.disjoint_cons_left.1 hc
    have hcons : fs.Disjoint (f :: c) := List.disjoint_cons_right.2 ⟨hf, hcs⟩
    refine List.pairwise_append.2 ⟨?_, ih hn hcons, fun e he e' _ => ?_⟩
    · refine List.Pairwise.imp_of_mem (R := fun _ _ => True) (fun {e e'} he _ _ => ?_)
        (List.pairwise_of_forall fun _ _ => trivial)
      obtain ⟨_, -, kind, o, rfl⟩ := hds e he
      trivial
    · obtain ⟨_, -, kind, o, rfl⟩ := hds e he
      trivial

end Nest

end MessageBinder
