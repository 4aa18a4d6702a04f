import MessageBinder.Proofs.Scope.Lexical
import MessageBinder.Proofs.Grammar.Numbering

/-!
# The scope of a module is lexical

A scope is built by walks that declare, hoist and link; what it ought to say is in
`MessageBinder.Proofs.Scope.Lexical`, which knows the text alone. The two agree on every module that
was read and whose statements stand where the language wants them
(`MessageBinder.Module.lexicallyScoped_of_parse`).

The events of a walk are *scoped* (`MessageBinder.Scoped`): every region opens with what it
declares, no more and no less, and everything inside it follows. One induction over the tree shows
this, and what a name means among all declarations of the module then is what it means in the
regions around it. A binding is given its uses one by one as they come, so that they stay in the
order of the text (`MessageBinder.Scope.InOrder`), and a list that is in order and has the right
members is the right one.
-/

namespace MessageBinder

/-! ### What the walks declare -/

/-- The event of a declared name. -/
def Declared.event (c : Chain) (d : Declared) : ScopeEvent :=
  .declare c d.identifier d.kind d.declaration

/-- A declaration declares its names, `var` in the function around. -/
theorem Declaration.declares_eq {d : Declaration} {c : Chain} (hc : d.isVar → c.IsFunction) :
    d.declares c = d.declared.map (Declared.event c) := by
  cases d with
  | «variables» kind ds o =>
    have hchain : kind.chain c = c := by
      cases kind with
      | var => exact hc rfl
      | _ => rfl
    simp [declares, declared, hchain, Declared.event]
  | function f ids b o => rfl

namespace Stmt

section Declares

variable {c : Chain}

mutual

theorem varDeclares_eq (hc : c.IsFunction) {p : Placement} (hp : p ≠ .top) (s : Stmt)
    (h : s.wellPlaced p) : s.varDeclares c = s.vars.map (Declared.event c) := by
  match s with
  | declaration d =>
    rw [varDeclares, vars]
    split
    · exact Declaration.declares_eq fun _ => hc
    · rfl
  | block ⟨body, _⟩ => exact varDeclaresList_eq hc body h
  | ifThen t s none _ =>
    simp only [wellPlaced, Bool.and_eq_true] at h
    exact varDeclares_eq hc (by decide) s h.2
  | ifThen t s (some a) _ =>
    simp only [wellPlaced, Bool.and_eq_true] at h
    rw [varDeclares, vars, List.map_append, varDeclares_eq hc (by decide) s h.1.2,
      varDeclares_eq hc (by decide) a h.2]
  | exportDecl d _ => simp [wellPlaced, hp] at h
  | importDecl .. | exportNamed .. | exportAll .. | exportDefault .. | returnValue .. | expr .. =>
    rfl

theorem varDeclaresList_eq (hc : c.IsFunction) (ss : List Stmt) (h : wellPlacedList .body ss) :
    varDeclaresList c ss = (varsList ss).map (Declared.event c) := by
  match ss with
  | [] => rfl
  | s :: ss =>
    simp only [wellPlacedList, Bool.and_eq_true] at h
    rw [varDeclaresList, varsList, List.map_append, varDeclares_eq hc (by decide) s h.1,
      varDeclaresList_eq hc ss h.2]

end

/-- A statement of a module or of a function declares what it imports, its own declarations, and
every `var` in it. -/
theorem declares_eq (hc : c.IsFunction) {p : Placement} {s : Stmt} (h : s.wellPlaced p) :
    s.declares c = (s.imported ++ s.lexical ++ s.vars).map (Declared.event c) := by
  match s with
  | importDecl ss _ o => simp [declares, imported, lexical, vars, Declared.event]
  | exportDecl d _ | declaration d =>
    have hd : d.declares c = d.declared.map (Declared.event c) :=
      Declaration.declares_eq fun _ => hc
    change d.declares c = _
    simp only [hd, imported, lexical, vars, List.nil_append]
    split <;> simp
  | block ⟨body, _⟩ => exact varDeclaresList_eq hc body h
  | ifThen t s none _ =>
    simp only [wellPlaced, Bool.and_eq_true] at h
    exact varDeclares_eq hc (by decide) s h.2
  | ifThen t s (some a) _ =>
    simp only [wellPlaced, Bool.and_eq_true] at h
    change s.varDeclares c ++ a.varDeclares c = (s.vars ++ a.vars).map _
    rw [List.map_append, varDeclares_eq hc (by decide) s h.1.2,
      varDeclares_eq hc (by decide) a h.2]
  | exportNamed .. | exportAll .. | exportDefault .. | returnValue .. | expr .. => rfl

/-- A statement of a block declares its own declarations in it. -/
theorem blockDeclares_eq {p : Placement} (hp : p ≠ .top) {s : Stmt} (h : s.wellPlaced p) :
    s.blockDeclares c = s.lexical.map (Declared.event c) := by
  match s with
  | declaration d =>
    rw [blockDeclares, lexical]
    split
    · rfl
    · rename_i hvar
      exact Declaration.declares_eq fun hc => absurd hc hvar
  | exportDecl d _ => simp [wellPlaced, hp] at h
  | importDecl .. | exportNamed .. | exportAll .. | exportDefault .. | block .. | returnValue ..
  | ifThen .. | expr .. => rfl

/-- Imports stand directly in a module. -/
theorem imported_eq_nil {p : Placement} (hp : p ≠ .top) {s : Stmt} (h : s.wellPlaced p) :
    s.imported = [] := by
  cases s with
  | importDecl => simp [wellPlaced, hp] at h
  | _ => rfl

theorem wellPlaced_of_mem {p : Placement} {ss : List Stmt} (h : wellPlacedList p ss) {s : Stmt}
    (hs : s ∈ ss) : s.wellPlaced p := by
  induction ss with
  | nil => simp at hs
  | cons s' ss ih =>
    simp only [wellPlacedList, Bool.and_eq_true] at h
    rcases List.mem_cons.1 hs with rfl | hs
    · exact h.1
    · exact ih h.2 hs

/-- Events statement by statement are those of the names declared statement by statement. -/
theorem flatMap_eq_map_event {ss : List Stmt} {f : Stmt → List ScopeEvent}
    {g : Stmt → List Declared} (h : ∀ s ∈ ss, f s = (g s).map (Declared.event c)) :
    ss.flatMap f = (ss.flatMap g).map (Declared.event c) := by
  rw [List.map_flatMap]
  exact List.flatMap_congr h

end Declares

end Stmt

namespace Region

/-- The frames of regions. -/
def chain (R : List Region) : Chain := R.map frame

/-- The events with which a region opens. -/
def events (R : List Region) (r : Region) : List ScopeEvent :=
  r.declared.map (Declared.event (chain (r :: R)))

theorem events_module {body : List Stmt} (h : Stmt.wellPlacedList .top body) :
    Stmt.declaresList [.module] body = events [] (.module body) :=
  Stmt.flatMap_eq_map_event fun _ hs =>
    Stmt.declares_eq Chain.isFunction_module (Stmt.wellPlaced_of_mem h hs)

theorem events_function (R : List Region) (o : Origin) (params : List Identifier)
    (body : List Stmt) (h : Stmt.wellPlacedList .body body) :
    paramDeclares (.function o.id :: chain R) params
        ++ Stmt.declaresList (.function o.id :: chain R) body
      = events R (.function o params body) := by
  have hbody : Stmt.declaresList (.function o.id :: chain R) body
      = (body.flatMap fun s => s.lexical ++ s.vars).map
          (Declared.event (.function o.id :: chain R)) :=
    Stmt.flatMap_eq_map_event fun s hs => by
      have hplaced := Stmt.wellPlaced_of_mem h hs
      rw [Stmt.declares_eq (Chain.isFunction_function _ _) hplaced,
        Stmt.imported_eq_nil (by decide) hplaced, List.nil_append]
  rw [hbody, events, declared, List.map_append, List.map_map]
  rfl

theorem events_block (R : List Region) (o : Origin) {body : List Stmt}
    (h : Stmt.wellPlacedList .body body) :
    body.flatMap (Stmt.blockDeclares (.block o.id :: chain R)) = events R (.block o body) :=
  Stmt.flatMap_eq_map_event fun _ hs =>
    Stmt.blockDeclares_eq (by decide) (Stmt.wellPlaced_of_mem h hs)

end Region

/-! ### Scoped events -/

/-- Events that are scoped in the regions around them: the frames that they open and the uses in
them, each with the regions around it. The identifiers of every region that opens are among `I`. -/
inductive Scoped (I : List Identifier) :
    List Region → List Frame → List (List Region × Identifier) → List ScopeEvent → Prop
  /-- Nothing happens. -/
  | nil (R : List Region) : Scoped I R [] [] []
  /-- A name is used. -/
  | use (R : List Region) (id : Identifier) :
      Scoped I R [] [(R, id)] [.use (Region.chain R) id]
  /-- A binder is placed. -/
  | place (R : List Region) (id : Identifier) : Scoped I R [] [] [.place (Region.chain R) id]
  /-- One thing happens after another. -/
  | append {R : List Region} {fs fs' : List Frame} {us us' : List (List Region × Identifier)}
      {E E' : List ScopeEvent} :
      Scoped I R fs us E → Scoped I R fs' us' E' → Scoped I R (fs ++ fs') (us ++ us') (E ++ E')
  /-- A region opens with what it declares, and the rest happens inside. -/
  | region {R : List Region} {r : Region} {fs : List Frame}
      {us : List (List Region × Identifier)} {E : List ScopeEvent}
      (hids : r.identifiers.Sublist I) :
      Scoped I (r :: R) fs us E → Scoped I R (r.frame :: fs) us (r.events R ++ E)

namespace Scoped

variable {I : List Identifier}

theorem uses (R : List Region) (ss : List ExportSpecifier) :
    Scoped I R [] (ss.map fun s => (R, s.source))
      (ss.map fun s => .use (Region.chain R) s.source) := by
  induction ss with
  | nil => exact .nil R
  | cons s ss ih => exact .append (.use R s.source) ih

theorem places (R : List Region) (ss : List ImportSpecifier) :
    Scoped I R [] [] (ss.map fun s => .place (Region.chain R) s.binding) := by
  induction ss with
  | nil => exact .nil R
  | cons s ss ih => exact .append (.place R s.binding) ih

end Scoped

/-! ### Every walk is scoped -/

section Walk

variable {I : List Identifier}

theorem Identifier.sublist_of_append {l l' : List Identifier} (h : (l ++ l').Sublist I) :
    l.Sublist I ∧ l'.Sublist I :=
  ⟨(List.sublist_append_left l l').trans h, (List.sublist_append_right l l').trans h⟩

mutual

theorem Expr.scoped_walk (R : List Region) (e : Expr) (hp : e.wellPlaced)
    (h : e.identifiers.Sublist I) :
    Scoped I R e.frames (e.lexicalUses R) (e.walk (Region.chain R)) := by
  match e with
  | .name id => exact .use R id
  | .literal .. => exact .nil R
  | .verbatim .. => exact .nil R
  | .array es _ => exact Expr.scoped_walkList R es hp h
  | .object ps _ => exact Property.scoped_walkList R ps hp h
  | .member e _ _ => exact Expr.scoped_walk R e hp h
  | .index e i _ =>
    obtain ⟨hp1, hp2⟩ := Bool.and_eq_true_iff.1 hp
    obtain ⟨h1, h2⟩ := Identifier.sublist_of_append h
    exact .append (Expr.scoped_walk R e hp1 h1) (Expr.scoped_walk R i hp2 h2)
  | .call f as _ =>
    obtain ⟨hp1, hp2⟩ := Bool.and_eq_true_iff.1 hp
    obtain ⟨h1, h2⟩ := Identifier.sublist_of_append h
    exact .append (Expr.scoped_walk R f hp1 h1) (Expr.scoped_walkList R as hp2 h2)
  | .unary _ e _ => exact Expr.scoped_walk R e hp h
  | .binary _ l r _ =>
    obtain ⟨hp1, hp2⟩ := Bool.and_eq_true_iff.1 hp
    obtain ⟨h1, h2⟩ := Identifier.sublist_of_append h
    exact .append (Expr.scoped_walk R l hp1 h1) (Expr.scoped_walk R r hp2 h2)
  | .conditional t s a _ =>
    obtain ⟨hp12, hp3⟩ := Bool.and_eq_true_iff.1 hp
    obtain ⟨hp1, hp2⟩ := Bool.and_eq_true_iff.1 hp12
    obtain ⟨h12, h3⟩ := Identifier.sublist_of_append h
    obtain ⟨h1, h2⟩ := Identifier.sublist_of_append h12
    exact .append (.append (Expr.scoped_walk R t hp1 h1) (Expr.scoped_walk R s hp2 h2))
      (Expr.scoped_walk R a hp3 h3)
  | .assign _ t v _ =>
    obtain ⟨hp1, hp2⟩ := Bool.and_eq_true_iff.1 hp
    obtain ⟨h1, h2⟩ := Identifier.sublist_of_append h
    exact .append (Expr.scoped_walk R t hp1 h1) (Expr.scoped_walk R v hp2 h2)
  | .group e _ => exact Expr.scoped_walk R e hp h
  | .arrow ids e o =>
    have hevents := Region.events_function R o ids [] rfl
    rw [show Stmt.declaresList (.function o.id :: Region.chain R) [] = [] from rfl,
      List.append_nil] at hevents
    rw [Expr.walk, hevents]
    obtain ⟨h1, h2⟩ := Identifier.sublist_of_append h
    refine .region (r := .function o ids []) ?_ (Expr.scoped_walk _ e hp h2)
    simpa [Region.identifiers, Stmt.identifiersList] using h1
  | .arrowBlock ids ⟨body, bo⟩ o =>
    rw [Expr.walk, Block.walkFunction, Region.events_function R o ids body hp]
    exact .region (r := .function o ids body) h
      (Stmt.scoped_walkList _ body hp (Identifier.sublist_of_append h).2)

theorem Expr.scoped_walkList (R : List Region) (es : List Expr) (hp : Expr.wellPlacedList es)
    (h : (Expr.identifiersList es).Sublist I) :
    Scoped I R (Expr.framesList es) (Expr.lexicalUsesList R es)
      (Expr.walkList (Region.chain R) es) := by
  match es with
  | [] => exact .nil R
  | e :: es =>
    obtain ⟨hp1, hp2⟩ := Bool.and_eq_true_iff.1 hp
    obtain ⟨h1, h2⟩ := Identifier.sublist_of_append h
    exact .append (Expr.scoped_walk R e hp1 h1) (Expr.scoped_walkList R es hp2 h2)

theorem Property.scoped_walkList (R : List Region) (ps : List Property)
    (hp : Property.wellPlacedList ps) (h : (Property.identifiersList ps).Sublist I) :
    Scoped I R (Property.framesList ps) (Property.lexicalUsesList R ps)
      (Property.walkList (Region.chain R) ps) := by
  match ps with
  | [] => exact .nil R
  | ⟨_, v, _, _, _⟩ :: ps =>
    obtain ⟨hp1, hp2⟩ := Bool.and_eq_true_iff.1 hp
    obtain ⟨h1, h2⟩ := Identifier.sublist_of_append h
    exact .append (Expr.scoped_walk R v hp1 h1) (Property.scoped_walkList R ps hp2 h2)

theorem Declarator.scoped_walkList (R : List Region) (ds : List Declarator)
    (hp : Declarator.wellPlacedList ds) (h : (Declarator.identifiersList ds).Sublist I) :
    Scoped I R (Declarator.framesList ds) (Declarator.lexicalUsesList R ds)
      (Declarator.walkList (Region.chain R) ds) := by
  match ds with
  | [] => exact .nil R
  | ⟨_, none, _⟩ :: ds =>
    exact Declarator.scoped_walkList R ds hp ((List.sublist_cons_self _ _).trans h)
  | ⟨_, some e, _⟩ :: ds =>
    obtain ⟨hp1, hp2⟩ := Bool.and_eq_true_iff.1 hp
    obtain ⟨h1, h2⟩ := Identifier.sublist_of_append ((List.sublist_cons_self _ _).trans h)
    exact .append (Expr.scoped_walk R e hp1 h1) (Declarator.scoped_walkList R ds hp2 h2)

theorem Declaration.scoped_walk (R : List Region) (d : Declaration) (hp : d.wellPlaced)
    (h : d.identifiers.Sublist I) :
    Scoped I R d.frames (d.lexicalUses R) (d.walk (Region.chain R)) := by
  match d with
  | .variables _ ds _ => exact Declarator.scoped_walkList R ds hp h
  | .function f ids ⟨body, bo⟩ o =>
    have hids : (ids ++ Stmt.identifiersList body).Sublist I :=
      (List.sublist_cons_self _ _).trans h
    rw [Declaration.walk, Block.walkFunction, Region.events_function R o ids body hp]
    exact .region (r := .function o ids body) hids
      (Stmt.scoped_walkList _ body hp (Identifier.sublist_of_append hids).2)

theorem Stmt.scoped_walk (R : List Region) (s : Stmt) {p : Placement} (hp : s.wellPlaced p)
    (h : s.identifiers.Sublist I) :
    Scoped I R s.frames (s.lexicalUses R) (s.walk (Region.chain R)) := by
  match s with
  | .importDecl ss _ _ => exact .places R ss
  | .exportNamed ss none _ => exact .uses R ss
  | .exportNamed _ (some _) _ => exact .nil R
  | .exportAll .. => exact .nil R
  | .exportDecl d _ => exact Declaration.scoped_walk R d (Bool.and_eq_true_iff.1 hp).2 h
  | .exportDefault e _ => exact Expr.scoped_walk R e (Bool.and_eq_true_iff.1 hp).2 h
  | .declaration d => exact Declaration.scoped_walk R d (Bool.and_eq_true_iff.1 hp).2 h
  -- An empty block opens a region in which nothing happens.
  | .block ⟨[], _⟩ => exact .nil R
  | .block ⟨s :: ss, o⟩ =>
    rw [Stmt.walk, Block.walk, Region.events_block R o hp]
    exact .region (r := .block o (s :: ss)) h (Stmt.scoped_walkList _ (s :: ss) hp h)
  | .returnValue none _ => exact .nil R
  | .returnValue (some e) _ => exact Expr.scoped_walk R e hp h
  | .ifThen t s none _ =>
    obtain ⟨hp1, hp2⟩ := Bool.and_eq_true_iff.1 hp
    obtain ⟨h1, h2⟩ := Identifier.sublist_of_append h
    exact .append (Expr.scoped_walk R t hp1 h1) (Stmt.scoped_walk R s hp2 h2)
  | .ifThen t s (some a) _ =>
    obtain ⟨hp12, hp3⟩ := Bool.and_eq_true_iff.1 hp
    obtain ⟨hp1, hp2⟩ := Bool.and_eq_true_iff.1 hp12
    obtain ⟨h12, h3⟩ := Identifier.sublist_of_append h
    obtain ⟨h1, h2⟩ := Identifier.sublist_of_append h12
    exact .append (.append (Expr.scoped_walk R t hp1 h1) (Stmt.scoped_walk R s hp2 h2))
      (Stmt.scoped_walk R a hp3 h3)
  | .expr e _ => exact Expr.scoped_walk R e hp h

theorem Stmt.scoped_walkList (R : List Region) (ss : List Stmt) {p : Placement}
    (hp : Stmt.wellPlacedList p ss) (h : (Stmt.identifiersList ss).Sublist I) :
    Scoped I R (Stmt.framesList ss) (Stmt.lexicalUsesList R ss)
      (Stmt.walkList (Region.chain R) ss) := by
  match ss with
  | [] => exact .nil R
  | s :: ss =>
    obtain ⟨hp1, hp2⟩ := Bool.and_eq_true_iff.1 hp
    obtain ⟨h1, h2⟩ := Identifier.sublist_of_append h
    exact .append (Stmt.scoped_walk R s hp1 h1) (Stmt.scoped_walkList R ss hp2 h2)

end

/-- **The events of a module are scoped**: the module is a region as any other, around which there
is none. -/
theorem Module.scoped_events {m : Module} (h : m.WellPlaced) :
    Scoped m.identifiers [] (.module :: Stmt.framesList m.body) m.lexicalUses m.events := by
  rw [Module.events, Region.events_module h]
  exact .region (r := .module m.body) (List.Sublist.refl _)
    (Stmt.scoped_walkList [.module m.body] m.body h (List.Sublist.refl _))

end Walk

/-! ### What scoped events declare and use -/

theorem Region.bindings_events (R : List Region) (r : Region) :
    ScopeEvent.bindings (r.events R) = r.bindings := by
  rw [events, ScopeEvent.bindings, List.filterMap_map, bindings]
  exact congrFun List.filterMap_eq_map' r.declared

theorem Region.uses_events (R : List Region) (r : Region) :
    ScopeEvent.uses (r.events R) = [] := by
  rw [events, ScopeEvent.uses, List.filterMap_map, List.filterMap_eq_nil_iff]
  exact fun _ _ => rfl

theorem Region.frame_of_mem_bindings {r : Region} {b : Binding} (h : b ∈ r.bindings) :
    b.frame = r.frame := by
  obtain ⟨d, -, rfl⟩ := List.mem_map.1 h
  rfl

namespace Scoped

variable {I : List Identifier} {R : List Region} {fs : List Frame}
  {us : List (List Region × Identifier)} {E : List ScopeEvent}

/-- The uses among scoped events, in order. -/
theorem uses_eq (h : Scoped I R fs us E) :
    ScopeEvent.uses E = us.map fun u => (Region.chain u.1, u.2) := by
  induction h with
  | nil | use | place => rfl
  | append _ _ ih ih' => rw [ScopeEvent.uses_append, List.map_append, ih, ih']
  | region _ _ ih => rw [ScopeEvent.uses_append, Region.uses_events, List.nil_append, ih]

/-- Scoped events declare in the frames that they open. -/
theorem frame_mem (h : Scoped I R fs us E) {b : Binding} (hb : b ∈ ScopeEvent.bindings E) :
    b.frame ∈ fs := by
  induction h with
  | nil | use | place => simp [ScopeEvent.bindings] at hb
  | append _ _ ih ih' =>
    rw [ScopeEvent.bindings_append, List.mem_append] at hb
    exact hb.elim (fun hb => List.mem_append_left _ (ih hb))
      fun hb => List.mem_append_right _ (ih' hb)
  | region _ _ ih =>
    rw [ScopeEvent.bindings_append, Region.bindings_events, List.mem_append] at hb
    exact hb.elim (fun hb => by rw [Region.frame_of_mem_bindings hb]; exact List.mem_cons_self)
      fun hb => List.mem_cons_of_mem _ (ih hb)

/-- Scoped events declare nothing in other frames. -/
theorem filter_bindings_eq_nil (h : Scoped I R fs us E) {f : Frame} (hf : f ∉ fs) :
    (ScopeEvent.bindings E).filter (·.frame = f) = [] :=
  List.filter_eq_nil_iff.2 fun b hb => by
    have hne : b.frame ≠ f := fun hc => hf (hc ▸ h.frame_mem hb)
    simpa using hne

/-- **A region around a use declares what it declares in the text**, if no two parts of the tree are
the same frame. -/
theorem bindings_region (h : Scoped I R fs us E) (hfs : fs.Nodup) :
    ∀ u ∈ us, ∃ pre, u.1 = pre ++ R ∧ ∀ r ∈ pre, r.frame ∈ fs ∧ r.identifiers.Sublist I ∧
      (ScopeEvent.bindings E).filter (·.frame = r.frame) = r.bindings := by
  induction h with
  | nil => exact nofun
  | place => exact nofun
  | use R id =>
    intro u hu
    rw [List.mem_singleton.1 hu]
    exact ⟨[], rfl, nofun⟩
  | append h1 h2 ih ih' =>
    -- Neither half declares anything in a frame that the other opens.
    obtain ⟨hn, hn', hd⟩ := List.nodup_append'.1 hfs
    intro u hu
    rw [ScopeEvent.bindings_append]
    rcases List.mem_append.1 hu with hu | hu
    · obtain ⟨pre, hpre, hpre'⟩ := ih hn u hu
      refine ⟨pre, hpre, fun r hr => ?_⟩
      obtain ⟨hf, hids, hbs⟩ := hpre' r hr
      refine ⟨List.mem_append_left _ hf, hids, ?_⟩
      rw [List.filter_append, hbs, h2.filter_bindings_eq_nil (hd hf), List.append_nil]
    · obtain ⟨pre, hpre, hpre'⟩ := ih' hn' u hu
      refine ⟨pre, hpre, fun r hr => ?_⟩
      obtain ⟨hf, hids, hbs⟩ := hpre' r hr
      refine ⟨List.mem_append_right _ hf, hids, ?_⟩
      rw [List.filter_append, hbs, h1.filter_bindings_eq_nil fun hc => hd hc hf, List.nil_append]
  | @region R r fs us E hids h ih =>
    obtain ⟨hf, hn⟩ := List.nodup_cons.1 hfs
    intro u hu
    obtain ⟨pre, hpre, hpre'⟩ := ih hn u hu
    -- The region declares in its own frame alone, in which nothing inside it declares.
    have hown : ∀ f, r.bindings.filter (·.frame = f) = if r.frame = f then r.bindings else [] := by
      intro f
      split
      · rename_i heq
        exact List.filter_eq_self.2 fun b hb => by simp [Region.frame_of_mem_bindings hb, heq]
      · rename_i hne
        exact List.filter_eq_nil_iff.2 fun b hb => by simp [Region.frame_of_mem_bindings hb, hne]
    refine ⟨pre ++ [r], by simp [hpre], fun r' hr' => ?_⟩
    rw [ScopeEvent.bindings_append, Region.bindings_events, List.filter_append, hown]
    rcases List.mem_append.1 hr' with hr' | hr'
    · obtain ⟨hf', hids', hbs⟩ := hpre' r' hr'
      refine ⟨List.mem_cons_of_mem _ hf', hids', ?_⟩
      have hne : r.frame ≠ r'.frame := fun hc => hf (hc ▸ hf')
      rw [if_neg hne, hbs, List.nil_append]
    · obtain rfl := List.mem_singleton.1 hr'
      refine ⟨List.mem_cons_self, hids, ?_⟩
      rw [if_pos rfl, h.filter_bindings_eq_nil hf, List.append_nil]

end Scoped

/-- **What a name means** among declarations of which those in the frames of the regions around it
are just what the regions declare. -/
theorem Region.resolve?_eq {ds : List Binding} {R : List Region} (name : String)
    (h : ∀ r ∈ R, ds.filter (·.frame = r.frame) = r.bindings) :
    Binding.resolve? ds (chain R) name = meaning? R name := by
  have hfirst : ∀ r ∈ R,
      Binding.first? ds (r.frame, name) = r.bindings.find? (·.name = name) := fun r hr => by
    rw [← h r hr, List.find?_filter, Binding.first?]
    simp [Binding.key]
  rw [Binding.resolve?, chain, meaning?, List.findSome?_map]
  induction R with
  | nil => rfl
  | cons r R ih =>
    simp only [List.findSome?_cons, Function.comp_apply, hfirst r List.mem_cons_self]
    rw [ih (fun r' hr' => h r' (List.mem_cons_of_mem _ hr'))
      fun r' hr' => hfirst r' (List.mem_cons_of_mem _ hr')]

/-! ### Uses come in order -/

namespace Scope

/-- **The lists of a scope are in order**: each keeps the order of the given identifiers. -/
structure InOrder (s : Scope) (T : List Identifier) : Prop where
  /-- The uses of every binding are in order. -/
  bound : ∀ b ∈ s.bindings, b.uses.Sublist T
  /-- The uses without a binding are in order. -/
  unresolved : s.unresolved.Sublist T

namespace InOrder

variable {s : Scope} {T : List Identifier}

/-- A name that is noted is in no list. -/
theorem place_reserve (h : s.InOrder T) (c : Chain) (id : Identifier) :
    ((s.reserve id.name).place c id).InOrder T :=
  ⟨by simpa [place] using h.bound, by simpa [place] using h.unresolved⟩

theorem declare (h : s.InOrder T) (c : Chain) (id : Identifier) (kind : BindingKind) (o : Origin) :
    (s.declare c id kind o).InOrder T := by
  have hsame := h.place_reserve c id
  rw [Scope.declare]
  split
  · exact hsame
  · refine ⟨fun b hb => ?_, hsame.unresolved⟩
    rcases List.mem_append.1 hb with hb | hb
    · exact hsame.bound b hb
    · rw [List.mem_singleton.1 hb]
      exact List.nil_sublist T

/-- A use is put at the end of one list. -/
theorem addUse (h : s.InOrder T) (c : Chain) (id : Identifier) :
    (s.addUse c id).InOrder (T ++ [id]) := by
  have hsame := h.place_reserve c id
  have hmore : ∀ {l : List Identifier}, l.Sublist T → l.Sublist (T ++ [id]) := fun hl =>
    hl.trans (List.sublist_append_left _ _)
  rw [Scope.addUse, link]
  split
  · refine ⟨fun b hb => ?_, hmore hsame.unresolved⟩
    obtain ⟨b', hb', rfl⟩ := List.mem_map.1 hb
    split
    · exact (hsame.bound b' hb').append_right [id]
    · exact hmore (hsame.bound b' hb')
  · exact ⟨fun b hb => hmore (hsame.bound b hb), hsame.unresolved.append_right [id]⟩

/-- **Events keep the lists in order.** -/
theorem steps (h : s.InOrder T) (E : List ScopeEvent) :
    (s.steps E).InOrder (T ++ (ScopeEvent.uses E).map (·.2)) := by
  induction E generalizing s T with
  | nil => simpa [Scope.steps, ScopeEvent.uses] using h
  | cons e E ih =>
    rw [Scope.steps, List.foldl_cons]
    cases e with
    | declare c id kind o => exact ih (h.declare c id kind o)
    | use c id =>
      have h' := ih (h.addUse c id)
      rwa [List.append_assoc] at h'
    | place c id => exact ih ⟨h.bound, h.unresolved⟩

end InOrder

end Scope

/-- The lists of the scope of a module are in the order of the text. -/
theorem Module.inOrder_scope (m : Module) : m.scope.InOrder m.uses := by
  have hempty : Scope.InOrder {} [] := ⟨nofun, List.Sublist.refl _⟩
  have h := hempty.steps m.events
  rwa [List.nil_append, show (ScopeEvent.uses m.events).map (·.2) = m.uses from
    Stmt.uses_moduleEvents m.body] at h

/-- Identifiers in the order of the text, if there are no others, are the same list. -/
theorem Identifier.eq_of_perm {T l l' : List Identifier} (hT : (numbers T).Pairwise (· < ·))
    (hl : l.Sublist T) (hl' : l'.Sublist T) (h : l.Perm l') : l = l' := by
  have hlt : T.Pairwise fun a b => a.origin.id < b.origin.id := List.pairwise_map.1 hT
  refine h.eq_of_pairwise (fun a b _ _ hab hba => ?_) (hlt.sublist hl) (hlt.sublist hl')
  exact absurd hab (Nat.lt_asymm hba)

/-- A binding of a scope that records events is the first that they declare in its frame by its
name. -/
theorem Scope.Records.first?_of_mem {s : Scope} {E : List ScopeEvent} (h : s.Records E)
    {b : Binding} (hb : b ∈ s.bindings) :
    Binding.first? (ScopeEvent.bindings E) b.key = some b.bare := by
  rw [← h.first, Binding.key, ← Scope.bare_inFrame?, h.keeps.inFrame?_of_mem hb]
  rfl

/-- A name means a binding of such a scope if it means the binding with its key. -/
theorem Scope.Records.map_key_resolve? {s : Scope} {E : List ScopeEvent} (h : s.Records E)
    {b : Binding} (hb : b ∈ s.bindings) (c : Chain) (name : String) :
    (Binding.resolve? (ScopeEvent.bindings E) c name).map Binding.key = some b.key
      ↔ Binding.resolve? (ScopeEvent.bindings E) c name = some b.bare := by
  constructor
  · intro hkey
    obtain ⟨b', hb', hkey'⟩ := Option.map_eq_some_iff.1 hkey
    rw [hb', ← Binding.first?_key_of_resolve? hb', hkey', h.first?_of_mem hb]
  · intro hb'
    rw [hb']
    rfl

/-! ### Modules -/

namespace Module

/-- The identifiers of a module that was read stand in the order of the text. -/
theorem numbers_pairwise_of_parse [CharacterNames] {text : String} {filename : Option String}
    {base : Nat} {m : Module} (h : parse text filename base = .ok m) :
    (Identifier.numbers m.identifiers).Pairwise (· < ·) := by
  rw [parse] at h
  obtain ⟨body, hbody, h⟩ := Checked.bind_eq_ok.1 h
  obtain rfl := Checked.pure_eq_ok.1 h
  obtain ⟨-, hd⟩ := readTokens_derives hbody
  have htokens := Tokens.numbers_terminate (Tokens.ofText text base)
  have hscan := (Lexer.scan_numbers ⟨base, 1, 1⟩ text.toList).1
  exact hscan.sublist (hd.identifiers_sublist.trans htokens)

/-- **The scope of a module is lexical**: every use has the binding that its name means in the
regions around it, and the uses are listed where they belong, in the order of the text. -/
structure LexicallyScoped (m : Module) : Prop where
  /-- The uses are the identifiers that use a name. -/
  uses : m.lexicalUses.map (·.2) = m.uses
  /-- A use is bound to the first declaration of its name in the innermost region that declares it,
  and to nothing if none does. -/
  binding : ∀ u ∈ m.lexicalUses,
    (m.scope.bindingOf? u.2.origin.id).map Binding.bare = Region.meaning? u.1 u.2.name
  /-- A binding lists the uses that mean it, each once, in the order of the text. -/
  references : ∀ b ∈ m.scope.bindings, b.uses
    = (m.lexicalUses.filter fun u => Region.meaning? u.1 u.2.name = some b.bare).map (·.2)
  /-- The uses that mean nothing are listed apart, each once, in the order of the text. -/
  unresolved : m.scope.unresolved
    = (m.lexicalUses.filter fun u => Region.meaning? u.1 u.2.name = none).map (·.2)
  /-- The uses stand in the order of the text. -/
  ordered : (Identifier.numbers m.uses).Pairwise (· < ·)
  /-- What a region declares stands in the order of the text. -/
  declared_ordered : ∀ u ∈ m.lexicalUses, ∀ r ∈ u.1,
    (Identifier.numbers (r.declared.map Declared.identifier)).Pairwise (· < ·)

section

variable {m : Module}

/-- The uses of a module among its events, in order. -/
theorem uses_eq_lexicalUses (hplaced : m.WellPlaced) :
    ScopeEvent.uses m.events = m.lexicalUses.map fun u => (Region.chain u.1, u.2) :=
  (scoped_events hplaced).uses_eq

theorem map_lexicalUses (hplaced : m.WellPlaced) : m.lexicalUses.map (·.2) = m.uses := by
  have h : (ScopeEvent.uses m.events).map (·.2) = m.uses := Stmt.uses_moduleEvents m.body
  rw [uses_eq_lexicalUses hplaced, List.map_map] at h
  exact h

/-- A region around a use is a part of the module, and the events of the module declare in it what
it declares. -/
theorem bindings_around (hd : Stmt.Distinct m.body) (hplaced : m.WellPlaced)
    {u : List Region × Identifier} (hu : u ∈ m.lexicalUses) {r : Region} (hr : r ∈ u.1) :
    r.identifiers.Sublist m.identifiers ∧
      (ScopeEvent.bindings m.events).filter (·.frame = r.frame) = r.bindings := by
  have hmodule : .module ∉ Stmt.framesList m.body :=
    (Stmt.nest_walkList [.module] m.body (List.Subset.refl _)).module_notMem
  obtain ⟨pre, hpre, hall⟩ := (scoped_events hplaced).bindings_region
    (List.nodup_cons.2 ⟨hmodule, hd.frames⟩) u hu
  rw [List.append_nil] at hpre
  exact (hall r (hpre ▸ hr)).2

/-- **Among the events of a module a use means what it means in the text.** -/
theorem resolve?_lexicalUses (hd : Stmt.Distinct m.body) (hplaced : m.WellPlaced)
    {u : List Region × Identifier} (hu : u ∈ m.lexicalUses) :
    Binding.resolve? (ScopeEvent.bindings m.events) (Region.chain u.1) u.2.name
      = Region.meaning? u.1 u.2.name :=
  Region.resolve?_eq u.2.name fun _ hr => (bindings_around hd hplaced hu hr).2

/-- The uses with a given link are those whose names mean what has that key. -/
theorem linkedTo_lexicalUses (hd : Stmt.Distinct m.body) (hplaced : m.WellPlaced)
    {link : Option BindingKey} {P : Option Binding → Bool}
    (hlink : ∀ u ∈ m.lexicalUses, decide ((Region.meaning? u.1 u.2.name).map Binding.key = link)
      = P (Region.meaning? u.1 u.2.name)) :
    UseEntry.linkedTo link
        (UseEntry.current (ScopeEvent.bindings m.events) (ScopeEvent.uses m.events))
      = (m.lexicalUses.filter fun u => P (Region.meaning? u.1 u.2.name)).map (·.2) := by
  rw [uses_eq_lexicalUses hplaced, UseEntry.linkedTo, UseEntry.current, List.map_map,
    List.filter_map, List.map_map]
  refine congrArg _ (List.filter_congr fun u hu => ?_)
  rw [← hlink u hu, ← resolve?_lexicalUses hd hplaced hu]
  rfl

end

/-- **Resolving a module is lexical scoping**, for every module that was read and whose statements
stand where the language wants them. -/
theorem lexicallyScoped_of_parse [CharacterNames] {text : String} {filename : Option String}
    {base : Nat} {m : Module} (hparse : parse text filename base = .ok m) (hplaced : m.WellPlaced) :
    m.LexicallyScoped := by
  have hd := (numbered_of_parse hparse).distinct
  have hids := numbers_pairwise_of_parse hparse
  have hrecords : m.scope.Records m.events := records_scope hd
  have hordered : (Identifier.numbers m.uses).Pairwise (· < ·) :=
    hids.sublist ((Stmt.usesList_sublist m.body).map _)
  -- Two lists of uses in the order of the text are equal if they have the same members.
  have hlist : ∀ {l : List Identifier} {p : List Region × Identifier → Bool}, l.Sublist m.uses →
      l.Perm ((m.lexicalUses.filter p).map (·.2)) → l = (m.lexicalUses.filter p).map (·.2) := by
    intro l p hl hperm
    refine Identifier.eq_of_perm hordered hl ?_ hperm
    rw [← map_lexicalUses hplaced]
    exact List.filter_sublist.map _
  refine ⟨map_lexicalUses hplaced, fun u hu => ?_, fun b hb => ?_, ?_, hordered,
    fun u hu r hr => ?_⟩
  · rw [← resolve?_lexicalUses hd hplaced hu]
    exact hrecords.bindingOf? (uses_eq_lexicalUses hplaced ▸ List.mem_map_of_mem hu)
  · refine hlist (m.inOrder_scope.bound b hb) ?_
    have hperm := hrecords.keeps.uses b hb
    rwa [linkedTo_lexicalUses hd hplaced (P := fun b' => b' = some b.bare)] at hperm
    intro u hu
    rw [decide_eq_decide, ← resolve?_lexicalUses hd hplaced hu]
    exact hrecords.map_key_resolve? hb _ _
  · refine hlist m.inOrder_scope.unresolved ?_
    have hperm := hrecords.keeps.unresolved
    rwa [linkedTo_lexicalUses hd hplaced (P := fun b' => b' = none)] at hperm
    intro u hu
    simp
  · exact hids.sublist ((r.declared_sublist.trans (bindings_around hd hplaced hu hr).1).map _)

section

attribute [local instance] CharacterNames.nameless

/-- In this function the inner `let b` hides the parameter in one branch only, and the `var` of the
other branch hides the `a` of the module throughout, also before it. -/
theorem lexicallyScoped_of_parse_hoisted : ∃ m,
    parse ("let a = 1; function f(b) \x7b if (b) \x7b let b = a; b; \x7d " ++
      "else \x7b var a = b; \x7d return a; \x7d f(c);") none 0 = .ok m ∧ m.WellPlaced ∧
      m.scope.bindings.map (fun b => (b.kind.word, b.name, b.uses.length))
        = [("let", "a", 0), ("function", "f", 1), ("param", "b", 2), ("var", "a", 2),
          ("let", "b", 1)] ∧
      m.scope.unresolved.map Identifier.name = ["c"] ∧ m.LexicallyScoped := by
  have hruns : ((parse ("let a = 1; function f(b) \x7b if (b) \x7b let b = a; b; \x7d " ++
      "else \x7b var a = b; \x7d return a; \x7d f(c);") none 0).toOption.filter fun m =>
        m.WellPlaced ∧ m.scope.bindings.map (fun b => (b.kind.word, b.name, b.uses.length))
          = [("let", "a", 0), ("function", "f", 1), ("param", "b", 2), ("var", "a", 2),
            ("let", "b", 1)] ∧
        m.scope.unresolved.map Identifier.name = ["c"]).isSome := by
    decide +kernel
  obtain ⟨m, hm⟩ := Option.isSome_iff_exists.1 hruns
  obtain ⟨hm, hfacts⟩ := Option.filter_eq_some_iff.1 hm
  obtain ⟨hplaced, hbindings, hunresolved⟩ := of_decide_eq_true hfacts
  have hparse := Except.eq_ok_of_toOption hm
  exact ⟨m, hparse, hplaced, hbindings, hunresolved, lexicallyScoped_of_parse hparse hplaced⟩

end

end Module

end MessageBinder
