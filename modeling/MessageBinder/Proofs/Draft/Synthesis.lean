import MessageBinder.Proofs.Draft.Filling

/-!
# What a pass renames and puts in

Targets may be given more than once, and a module may declare a name more than once. Both are of no
account for what is said here, which is what a pass does to names and what it puts in.

**Identifiers.** One replacement goes through the whole module, and it renames nothing but uses of
names under which a matched specifier is imported (`MessageBinder.Module.Redirects`). A use that was
renamed has a new name from then on, which no specifier has, so that it is never renamed again.

**Statements.** Behind a statement stand one constant for each used specifier that a target matches,
as often as the target is given, and three statements for each name that was taken from a re-export
(`MessageBinder.Chunk.Synthesized`). The constant of a specifier that is bound again does lose the
name of the function to the later constant.
-/

namespace MessageBinder

/-! ### Uses of imported names -/

/-- An identifier uses a name that the module itself declares. -/
def Module.Means (m : Module) (name : String) (i : Identifier) : Prop :=
  ∃ b, m.scope.moduleBinding? name = some b ∧ i ∈ b.uses

/-- **A replacement redirects names** of a module: identifiers stay where they are, and those that
are renamed use one of the names and get a new one. -/
structure Module.Redirects (m : Module) (names : List String) (f : Identifier → Identifier) :
    Prop where
  /-- Identifiers stay where they are. -/
  inPlace : Identifier.InPlace f
  /-- Only uses of the names are renamed. -/
  means : ∀ i ∈ m.identifiers, f i ≠ i → ∃ name ∈ names, m.Means name i
  /-- Their names are new. -/
  fresh : ∀ i ∈ m.identifiers, f i ≠ i → ¬ m.scope.hasName (f i).name

/-- Uses that mean a name of the module itself are listed by it. -/
theorem Module.Numbered.means {m : Module} (hm : m.Numbered) {c : Chain} {i : Identifier}
    (hu : (c, i) ∈ ScopeEvent.uses m.events)
    (hmeans : (Binding.resolve? (ScopeEvent.bindings m.events) c i.name).map Binding.key
      = some (.module, i.name)) : m.Means i.name i := by
  have hd := Draft.inOrder_ofModule hm
  obtain ⟨b, hb, hkey⟩ := Option.map_eq_some_iff.1 hmeans
  have hsome : (m.scope.moduleBinding? i.name).isSome := by
    have hfirst := Binding.first?_key_of_resolve? hb
    rw [hkey] at hfirst
    rw [Scope.moduleBinding?, Scope.isSome_inFrame?, (Module.records_scope hm.distinct).first]
    exact Option.isSome_of_eq_some hfirst
  obtain ⟨binding, hbinding⟩ := Option.isSome_iff_exists.1 hsome
  obtain ⟨hmem, hkey'⟩ := Draft.mem_bindings_of_moduleBinding? hbinding
  exact ⟨binding, hbinding, (hd.mem_uses_iff hmem).2 ⟨c, hu, hmeans.trans (by rw [hkey'])⟩⟩

theorem Module.Means.mem_uses {m : Module} (hm : m.Numbered) {name : String} {i : Identifier}
    (h : m.Means name i) : i ∈ m.uses := by
  obtain ⟨b, hb, hi⟩ := h
  obtain ⟨hmem, -⟩ := Draft.mem_bindings_of_moduleBinding? hb
  obtain ⟨c, hu⟩ := (Draft.inOrder_ofModule hm).exists_use hmem hi
  exact Draft.mem_usesList_of_mem_uses hu

/-- What is left of a statement uses what the statement uses. -/
theorem Stmt.walk_of_pared {met : List Target} {stmt s : Stmt} (h : stmt.pared met = some s)
    (c : Chain) : s.walk c = stmt.walk c := by
  obtain ⟨rfl, -⟩ | ⟨specifiers, source, o, rfl, rfl⟩ := pared_eq_some h
  · rfl
  · rfl

/-- **A use in a draft** whose number is one of the module stood there, around the same frames. -/
theorem Draft.Arranged.exists_use {m : Module} {cs : List Chunk} {d : Draft}
    (ha : d.Arranged m cs) {f : Identifier → Identifier} (hf : Identifier.InPlace f)
    {met : Nat → List Target} (hremains : ∀ c ∈ cs, c.Remains f met) {c : Chain} {i : Identifier}
    (hu : (c, i) ∈ ScopeEvent.uses d.events) (hlt : i.origin.id < m.next) :
    ∃ j, (c, j) ∈ ScopeEvent.uses m.events ∧ i = f j := by
  rcases List.mem_append.1 (ScopeEvent.mem_uses.1 hu) with hdeclares | hwalk
  · obtain ⟨_, -, _, _, heq⟩ := Stmt.declaresOne_of_mem_moduleDeclares hdeclares
    cases heq
  · rw [ha.body, Stmt.walkList_eq_flatMap] at hwalk
    obtain ⟨s, hs, hwalk⟩ := List.mem_flatMap.1 hwalk
    obtain ⟨chunk, hchunk, hs⟩ := List.mem_flatMap.1 hs
    rcases List.mem_append.1 hs with hs | hs
    · have hkept : chunk.kept = some s := by simpa using hs
      rw [hremains chunk hchunk] at hkept
      obtain ⟨s₀, hs₀, rfl⟩ := Option.map_eq_some_iff.1 hkept
      rw [Stmt.walk_mapIds hf] at hwalk
      obtain ⟨e, he, heq⟩ := List.mem_map.1 hwalk
      cases e with
      | use c' j =>
        obtain ⟨rfl, rfl⟩ : c' = c ∧ f j = i := by simpa [ScopeEvent.mapIds] using heq
        refine ⟨j, ScopeEvent.mem_uses.2 (List.mem_append_right _ ?_), rfl⟩
        rw [Stmt.walkList_eq_flatMap]
        rw [Stmt.walk_of_pared hs₀] at he
        exact List.mem_flatMap_of_mem (ha.origins ▸ List.mem_map_of_mem hchunk) he
      | _ => cases heq
    · -- what was appended has later numbers
      have huse : i ∈ s.identifiers := by
        have hevent : (c, i) ∈ ScopeEvent.uses (Stmt.moduleEvents [s]) := by
          refine ScopeEvent.mem_uses.2 (List.mem_append_right _ ?_)
          rw [Stmt.walkList_eq_flatMap]
          simpa using hwalk
        have hmem := List.mem_map_of_mem (f := Prod.snd) hevent
        rw [Stmt.uses_moduleEvents] at hmem
        exact s.uses_subset_identifiers (by simpa [Stmt.usesList] using hmem)
      have hle := (ha.added chunk hchunk s hs).2 i huse
      omega

namespace Module.Redirects

variable {m : Module} {names : List String} {f : Identifier → Identifier}

theorem id (m : Module) (names : List String) : m.Redirects names (fun i => i) :=
  ⟨fun _ => rfl, fun _ _ h => absurd rfl h, fun _ _ h => absurd rfl h⟩

/-- What is redirected is a use. -/
theorem renames (h : m.Redirects names f) (hm : m.Numbered) : m.Renames f where
  inPlace := h.inPlace
  others i hi hnot := by
    by_contra hne
    obtain ⟨name, -, hmeans⟩ := h.means i hi hne
    exact hnot (List.mem_map_of_mem (hmeans.mem_uses hm))

/-- Declared names are left alone. -/
theorem eq_of_mem_binders (h : m.Redirects names f) (hm : m.Numbered) {i : Identifier}
    (hi : i ∈ m.binders) : f i = i := by
  by_contra hne
  have hmem := Stmt.uses_append_binders_subset m.body (List.mem_append_right _ hi)
  obtain ⟨name, -, hmeans⟩ := h.means i hmem hne
  have hnodup := Stmt.nodup_uses_append_binders hm.distinct.identifiers
  rw [Identifier.numbers, List.map_append, List.nodup_append'] at hnodup
  exact hnodup.2.2 (List.mem_map_of_mem (hmeans.mem_uses hm)) (List.mem_map_of_mem hi)

/-- **Renaming the uses of one of the names** redirects it. A use that is listed for it has the name
still, and so is not renamed yet. -/
theorem renamedAll (h : m.Redirects names f) (hm : m.Numbered) {d : Draft} (hd : d.InOrder)
    (hs : d.Steady m []) {cs : List Chunk} (ha : d.Arranged m cs) {met : Nat → List Target}
    (hremains : ∀ c ∈ cs, c.Remains f met) {name : String} (hname : m.scope.hasName name)
    (hin : name ∈ names) {binding : Binding}
    (hbinding : d.scope.moduleBinding? name = some binding) {constant : String}
    (hnew : ¬ m.scope.hasName constant) :
    m.Redirects names (Identifier.renamedAll binding.uses constant ∘ f) := by
  have hstep : ∀ i ∈ m.identifiers, Identifier.renamedAll binding.uses constant (f i) ≠ f i →
      f i = i ∧ m.Means name i := by
    intro i hi hne
    have hlisted : (f i).origin.id ∈ Identifier.numbers binding.uses := by
      by_contra hnot
      exact hne (Identifier.renamedAll_of_notMem hnot)
    obtain ⟨id, hid, hn⟩ := List.mem_map.1 hlisted
    obtain ⟨hmem, hkey⟩ := Draft.mem_bindings_of_moduleBinding? hbinding
    obtain ⟨c, hu, hmeans⟩ := (hd.mem_uses_iff hmem).1 hid
    rw [hkey] at hmeans
    -- the use that is listed is the identifier, as it is by now
    have hnumber : id.origin.id = i.origin.id := hn.trans (congrArg Origin.id (h.inPlace i))
    have hlt := hm.identifier_lt i hi
    obtain ⟨j, hj, rfl⟩ := ha.exists_use h.inPlace hremains hu (hnumber ▸ hlt)
    have hj' : j ∈ m.identifiers := Stmt.uses_append_binders_subset m.body
      (List.mem_append_left _ (Draft.mem_usesList_of_mem_uses (d := .ofModule m) hj))
    obtain rfl : j = i := List.inj_on_of_nodup_map hm.distinct.identifiers hj' hi
      ((congrArg Origin.id (h.inPlace j)).symm.trans hnumber)
    have hsame : (f j).name = name := Binding.eq_of_key_resolve? hmeans
    have hself : f j = j := by
      by_contra hrenamed
      rw [← hsame] at hname
      exact h.fresh j hi hrenamed hname
    rw [hself] at hmeans hsame
    rw [hsame, hs.resolve?_eq hname, ← hsame] at hmeans
    exact ⟨hself, hsame ▸ hm.means hj hmeans⟩
  refine ⟨fun i => (Identifier.renamedAll_inPlace _ _ (f i)).trans (h.inPlace i), ?_, ?_⟩
  · intro i hi hne
    by_cases hidle : Identifier.renamedAll binding.uses constant (f i) = f i
    · exact h.means i hi fun hself => hne (hidle.trans hself)
    · exact ⟨name, hin, (hstep i hi hidle).2⟩
  · intro i hi hne
    by_cases hidle : Identifier.renamedAll binding.uses constant (f i) = f i
    · rw [Function.comp_apply, hidle]
      exact h.fresh i hi fun hself => hne (hidle.trans hself)
    · rw [Function.comp_apply, Identifier.renamedAll]
      split
      · exact hnew
      · rename_i hnot
        exact absurd (Identifier.renamedAll_of_notMem hnot) hidle

end Module.Redirects

/-! ### What is put in -/

/-- A specifier that was bound: the name of the constant, the name that it binds now, and the number
at which it was added. -/
structure BoundImport where
  /-- The specifier. -/
  specifier : ImportSpecifier
  /-- The name of the constant. -/
  name : String
  /-- The name that it binds: that of the specifier, or of a later constant. -/
  function : String
  /-- The number of the constant. -/
  id : Nat

namespace BoundImport

/-- The constant, with the messages in the given variable. -/
def constant (messages : String) (b : BoundImport) : Stmt :=
  .boundConstant b.name b.function messages b.id

/-- The name of the constant is new, and so is what it binds instead of the specifier. -/
def IsNew (m : Module) (b : BoundImport) : Prop :=
  ¬ m.scope.hasName b.name ∧
    (b.function = b.specifier.binding.name ∨ ¬ m.scope.hasName b.function)

/-- What became of it when identifiers were replaced. -/
def mapIds (g : Identifier → Identifier) (b : BoundImport) : BoundImport :=
  { b with function := (g (Stmt.addedId b.function (b.id + 2))).name }

end BoundImport

/-- The names under which a function is imported and exported anew are new. -/
def Rehoming.IsNew (m : Module) (r : Rehoming) : Prop :=
  ¬ m.scope.hasName r.imported ∧ ¬ m.scope.hasName r.bound

theorem Stmt.identifiers_boundConstant (name function messages : String) (n : Nat) :
    (boundConstant name function messages n).identifiers
      = [addedId name (n + 1), addedId function (n + 2), addedId messages (n + 3)] := rfl

/-- The identifiers of what is made for a name that was taken have its names. -/
theorem Rehoming.name_of_mem_identifiers {r : Rehoming} {messages : String} {s : Stmt}
    (hs : s ∈ r.stmts messages) {i : Identifier} (hi : i ∈ s.identifiers) :
    i.name = r.imported ∨ i.name = r.bound ∨ i.name = messages := by
  simp only [stmts, List.mem_cons, List.not_mem_nil, or_false] at hs
  rcases hs with rfl | rfl | rfl
  · obtain rfl := List.mem_singleton.1 hi
    exact Or.inl rfl
  · rw [constant, Stmt.identifiers_boundConstant] at hi
    simp only [List.mem_cons, List.not_mem_nil, or_false] at hi
    rcases hi with rfl | rfl | rfl
    · exact Or.inr (Or.inl rfl)
    · exact Or.inl rfl
    · exact Or.inr (Or.inr rfl)
  · obtain rfl := List.mem_singleton.1 hi
    exact Or.inr (Or.inl rfl)

/-- **The statements of a chunk behind the one that is left** are made for specifiers, a constant
for each, and for the names that targets took, three for each. -/
structure Chunk.Synthesized (m : Module) (messages : String) (specifiers : List ImportSpecifier)
    (taken : List (Target × ExportSpecifier)) (bs : List BoundImport) (rs : List Rehoming)
    (c : Chunk) : Prop where
  /-- The statements. -/
  added : c.added = bs.map (·.constant messages) ++ rs.flatMap (·.stmts messages)
  /-- There is one constant for each specifier. -/
  bound : bs.map BoundImport.specifier = specifiers
  /-- The names that were taken were made anew. -/
  taken : rs.map (fun r => (r.target, r.specifier)) = taken
  /-- Constants have new names. -/
  boundNew : ∀ b ∈ bs, b.IsNew m
  /-- What was made anew has new names. -/
  takenNew : ∀ r ∈ rs, r.IsNew m

namespace Chunk.Synthesized

variable {m : Module} {messages : String} {specifiers : List ImportSpecifier}
  {taken : List (Target × ExportSpecifier)} {bs : List BoundImport} {rs : List Rehoming} {c : Chunk}

/-- Where nothing was put in the variable is of no account. -/
theorem change (h : c.Synthesized m messages specifiers taken bs rs) {messages' : String}
    (hvariable : messages = messages' ∨ c.added = []) :
    c.Synthesized m messages' specifiers taken bs rs := by
  rcases hvariable with rfl | hnil
  · exact h
  have hadded := h.added
  rw [hnil, eq_comm, List.append_eq_nil_iff, List.map_eq_nil_iff, List.flatMap_eq_nil_iff] at hadded
  obtain ⟨rfl, hnone⟩ := hadded
  obtain rfl : rs = [] := List.eq_nil_iff_forall_not_mem.2 fun r hr => by
    have hr := hnone r hr
    cases hr
  exact ⟨hnil, h.bound, h.taken, h.boundNew, h.takenNew⟩

/-- Replacing names of the module by new ones concerns only what constants bind. -/
theorem mapIds (h : c.Synthesized m messages specifiers taken bs rs)
    (hmessages : ¬ m.scope.hasName messages) {g : Identifier → Identifier}
    (hg : Identifier.InPlace g)
    (hnew : ∀ s ∈ c.added, ∀ i ∈ s.identifiers,
      g i = i ∨ (m.scope.hasName i.name ∧ ¬ m.scope.hasName (g i).name)) :
    (c.mapIds g).Synthesized m messages specifiers taken (bs.map (BoundImport.mapIds g)) rs := by
  -- of what was added only names of the module are replaced
  have hsame : ∀ s ∈ c.added, ∀ i ∈ s.identifiers, ¬ m.scope.hasName i.name → g i = i :=
    fun s hs i hi hnot => (hnew s hs i hi).resolve_right fun hthere => hnot hthere.1
  have hconstant : ∀ b ∈ bs, b.constant messages ∈ c.added := fun b hb =>
    h.added ▸ List.mem_append_left _ (List.mem_map_of_mem hb)
  refine ⟨?_, ?_, h.taken, ?_, h.takenNew⟩
  · change c.added.map (Stmt.mapIds g) = _
    rw [h.added, List.map_append, List.map_map, List.map_map]
    congr 1
    · refine List.map_congr_left fun b hb => ?_
      have hthere := hsame _ (hconstant b hb)
      rw [BoundImport.constant, Stmt.identifiers_boundConstant] at hthere
      have hname := hthere (Stmt.addedId b.name (b.id + 1)) (by simp) (h.boundNew b hb).1
      have hvariable := hthere (Stmt.addedId messages (b.id + 3)) (by simp) hmessages
      have hfunction : g (Stmt.addedId b.function (b.id + 2))
          = Stmt.addedId (b.mapIds g).function (b.id + 2) := by
        rw [Stmt.addedId, Identifier.mk.injEq]
        exact ⟨rfl, hg _⟩
      simp only [Function.comp_apply, BoundImport.constant, Stmt.boundConstant, Stmt.constant,
        Stmt.mapIds, Declaration.mapIds, Declarator.mapIdsList, Expr.mapIds, Expr.mapIdsList, hname,
        hvariable, hfunction]
      rfl
    · refine (List.map_congr_left fun s hs => s.mapIds_eq_self fun i hi => ?_).trans
        (List.map_id' _)
      refine hsame s (h.added ▸ List.mem_append_right _ hs) i hi ?_
      obtain ⟨r, hr, hs⟩ := List.mem_flatMap.1 hs
      rcases Rehoming.name_of_mem_identifiers hs hi with hi | hi | hi
      · exact hi ▸ (h.takenNew r hr).1
      · exact hi ▸ (h.takenNew r hr).2
      · exact hi ▸ hmessages
  · rw [List.map_map, ← h.bound]
    rfl
  · intro b' hb'
    obtain ⟨b, hb, rfl⟩ := List.mem_map.1 hb'
    obtain ⟨hname, hfunction⟩ := h.boundNew b hb
    refine ⟨hname, ?_⟩
    rw [BoundImport.mapIds]
    rcases hnew _ (hconstant b hb) (Stmt.addedId b.function (b.id + 2)) (by
      rw [BoundImport.constant, Stmt.identifiers_boundConstant]; simp) with hidle | ⟨-, hfresh⟩
    · rw [hidle]
      exact hfunction
    · exact Or.inr hfresh

/-- **One more constant**, where nothing was taken. -/
theorem bind (h : c.Synthesized m messages specifiers [] bs rs) {s : ImportSpecifier}
    {constant : String} (hconstant : ¬ m.scope.hasName constant) (n : Nat) :
    (c.extend [Stmt.boundConstant constant s.binding.name messages n]).Synthesized m messages
      (specifiers ++ [s]) [] (bs ++ [⟨s, constant, s.binding.name, n⟩]) rs := by
  obtain rfl : rs = [] := List.map_eq_nil_iff.1 h.taken
  refine ⟨?_, ?_, rfl, ?_, by simp⟩
  · have hadded := h.added
    rw [List.flatMap_nil, List.append_nil] at hadded ⊢
    rw [Chunk.extend, hadded, List.map_append]
    rfl
  · rw [List.map_append, h.bound]
    rfl
  · rintro b hb
    rcases List.mem_append.1 hb with hb | hb
    · exact h.boundNew b hb
    · obtain rfl := List.mem_singleton.1 hb
      exact ⟨hconstant, Or.inl rfl⟩

/-- **More names that were taken**, where nothing was bound. -/
theorem take (h : c.Synthesized m messages [] taken bs rs) (kept : Option Stmt)
    {rs' : List Rehoming} (hnew : ∀ r ∈ rs', r.IsNew m) :
    (({ c with kept } : Chunk).extend (rs'.flatMap (·.stmts messages))).Synthesized m messages []
      (taken ++ rs'.map fun r => (r.target, r.specifier)) bs (rs ++ rs') := by
  obtain rfl : bs = [] := List.map_eq_nil_iff.1 h.bound
  refine ⟨?_, rfl, ?_, by simp, ?_⟩
  · have hadded := h.added
    rw [List.map_nil, List.nil_append] at hadded ⊢
    rw [Chunk.extend, List.flatMap_append, ← hadded]
  · rw [List.map_append, h.taken]
  · rintro r hr
    rcases List.mem_append.1 hr with hr | hr
    · exact h.takenNew r hr
    · exact hnew r hr

end Chunk.Synthesized

/-- What was put in was made for the used ones among specifiers of the statement, and for the names
that targets took when the statement met them first. -/
structure Chunk.MadeFor (m : Module) (messages : String) (done : List ImportSpecifier)
    (met : List Target) (c : Chunk) : Prop where
  /-- The specifiers are those of the statement. -/
  imports : ∀ s ∈ done, m.Imports c.origin s
  /-- What was put in was made for them, and for what was taken. -/
  made : ∃ bs rs, c.Synthesized m messages (done.filter (m.scope.isUsed ·.binding.name))
    (c.origin.takenBy met.eraseDups) bs rs

namespace Chunk.MadeFor

variable {m : Module} {messages : String} {done : List ImportSpecifier} {met : List Target}
  {c : Chunk} {s : ImportSpecifier}

/-- Nothing was put in yet. -/
theorem nil (m : Module) (messages : String) (s : Stmt) :
    Chunk.MadeFor m messages [] [] ⟨s, some s, []⟩ :=
  ⟨by simp, [], [], rfl, rfl, rfl, by simp, by simp⟩

/-- Where nothing was put in the variable is of no account. -/
theorem change (h : c.MadeFor m messages done met) {messages' : String}
    (hvariable : messages = messages' ∨ c.added = []) : c.MadeFor m messages' done met := by
  obtain ⟨himports, bs, rs, hmade⟩ := h
  exact ⟨himports, bs, rs, hmade.change hvariable⟩

theorem concat_imports (h : c.MadeFor m messages done met) (hs : m.Imports c.origin s) :
    ∀ s' ∈ done ++ [s], m.Imports c.origin s' := by
  rintro s' hs'
  rcases List.mem_append.1 hs' with hs' | hs'
  · exact h.imports s' hs'
  · obtain rfl := List.mem_singleton.1 hs'
    exact hs

/-- A used specifier gets a constant. -/
theorem bind (h : c.MadeFor m messages done met) (hs : m.Imports c.origin s)
    (hused : m.scope.isUsed s.binding.name) {constant : String}
    (hconstant : ¬ m.scope.hasName constant) (n : Nat) :
    (c.extend [Stmt.boundConstant constant s.binding.name messages n]).MadeFor m messages
      (done ++ [s]) met := by
  obtain ⟨bs, rs, hmade⟩ := h.made
  have hnone : c.origin.takenBy met.eraseDups = [] := by
    obtain ⟨-, specifiers, source, o, horigin, -⟩ := hs
    exact Stmt.takenBy_of_ne (by rw [horigin]; rintro _ _ _ ⟨⟩) _
  rw [hnone] at hmade
  refine ⟨h.concat_imports hs, bs ++ [⟨s, constant, s.binding.name, n⟩], rs, ?_⟩
  rw [List.filter_append, List.filter_singleton, hused, cond_true]
  change Chunk.Synthesized _ _ _ (c.origin.takenBy met.eraseDups) _ _ _
  rw [hnone]
  exact hmade.bind hconstant n

/-- A specifier without uses gets none. -/
theorem skip (h : c.MadeFor m messages done met) (hs : m.Imports c.origin s)
    (hunused : m.scope.isUsed s.binding.name = false) :
    c.MadeFor m messages (done ++ [s]) met := by
  refine ⟨h.concat_imports hs, ?_⟩
  rw [List.filter_append, List.filter_singleton, hunused, cond_false, List.append_nil]
  exact h.made

/-- Meeting a target again, or one that takes nothing, makes no difference. -/
theorem meet (h : c.MadeFor m messages done met) {t : Target}
    (hidle : t ∈ met ∨ c.origin.taken t = []) : c.MadeFor m messages done (met ++ [t]) := by
  have hsame : c.origin.takenBy (met ++ [t]).eraseDups = c.origin.takenBy met.eraseDups := by
    rcases Decidable.em (t ∈ met) with hmet | hmet
    · have hnone : [t].removeAll met = [] := by simp [List.removeAll, hmet]
      rw [List.eraseDups_append, hnone, List.eraseDups_nil, List.append_nil]
    · have hnew : ([t].removeAll met).eraseDups = [t] := by
        simp [List.removeAll, hmet, List.eraseDups_cons]
      rw [List.eraseDups_append, hnew, Stmt.takenBy_concat, hidle.resolve_left hmet, List.map_nil,
        List.append_nil]
  refine ⟨h.imports, ?_⟩
  rw [hsame]
  exact h.made

/-- A target that a re-export meets first takes names, and they are made anew. -/
theorem take (h : c.MadeFor m messages done met)
    (hother : ∀ specifiers source o, c.origin ≠ .importDecl specifiers source o) {t : Target}
    (hmet : t ∉ met) (kept : Option Stmt) {rs : List Rehoming} (hnew : ∀ r ∈ rs, r.IsNew m)
    (htaken : rs.map (fun r => (r.target, r.specifier)) = (c.origin.taken t).map (t, ·)) :
    (({ c with kept } : Chunk).extend (rs.flatMap (·.stmts messages))).MadeFor m messages done
      (met ++ [t]) := by
  obtain rfl : done = [] := List.eq_nil_iff_forall_not_mem.2 fun s hs => by
    obtain ⟨-, specifiers, source, o, horigin, -⟩ := h.imports s hs
    exact hother specifiers source o horigin
  obtain ⟨bs, rs', hmade⟩ := h.made
  have hone : ([t].removeAll met).eraseDups = [t] := by
    simp [List.removeAll, hmet, List.eraseDups_cons]
  refine ⟨by simp, bs, rs' ++ rs, ?_⟩
  change Chunk.Synthesized _ _ _ (c.origin.takenBy (met ++ [t]).eraseDups) _ _ _
  rw [List.eraseDups_append, hone, Stmt.takenBy_concat, ← htaken]
  exact hmade.take kept hnew

end Chunk.MadeFor

/-- What an added statement declares has a new name. -/
theorem Draft.Extends.not_hasName {m : Module} {pending : List String} {d : Draft}
    (h : d.Extends m pending) {s : Stmt} (hs : s ∈ d.sequence.body) {b : Binding}
    (hb : b ∈ ScopeEvent.bindings (Stmt.moduleEvents [s]))
    (hle : m.next ≤ b.identifier.origin.id) : ¬ m.scope.hasName b.name := by
  refine (h.fresh b.name (List.mem_append_right _ (List.mem_map_of_mem ?_))).2
  exact List.mem_filter.2 ⟨Draft.bindings_subset hs hb, by simpa using hle⟩

theorem Draft.Extends.isNew {m : Module} {pending : List String} {d : Draft}
    (h : d.Extends m pending) {r : Rehoming} (messages : String)
    (hr : ∀ s ∈ r.stmts messages, s ∈ d.sequence.body ∧ m.next ≤ s.origin.id) : r.IsNew m := by
  obtain ⟨himport, hle⟩ := hr r.importStmt (by simp [Rehoming.stmts])
  obtain ⟨hconstant, hle'⟩ := hr (r.constant messages) (by simp [Rehoming.stmts])
  exact ⟨h.not_hasName himport (List.mem_singleton.2 rfl) (Nat.le_add_right_of_le hle),
    h.not_hasName hconstant (List.mem_singleton.2 rfl) (Nat.le_add_right_of_le hle')⟩

/-- An identifier with the number of a use that a name lists has that name. -/
theorem Draft.InOrder.name_of_listed {d : Draft} (hd : d.InOrder) {name : String}
    {binding : Binding} (hbinding : d.scope.moduleBinding? name = some binding) {s : Stmt}
    (hs : s ∈ d.sequence.body) {i : Identifier} (hi : i ∈ s.identifiers)
    (hlisted : i.origin.id ∈ Identifier.numbers binding.uses) : i.name = name := by
  obtain ⟨j, hj, hn⟩ := List.mem_map.1 hlisted
  obtain ⟨hmem, hkey⟩ := Draft.mem_bindings_of_moduleBinding? hbinding
  obtain ⟨c, hu, hmeans⟩ := (hd.mem_uses_iff hmem).1 hj
  have hj' : j ∈ d.toModule.identifiers := Stmt.uses_append_binders_subset _
    (List.mem_append_left _ (Draft.mem_usesList_of_mem_uses hu))
  obtain rfl : j = i := List.inj_on_of_nodup_map hd.numbered.distinct.identifiers hj'
    (Module.mem_identifiers (m := d.toModule) hs hi) hn
  rw [hkey] at hmeans
  exact Binding.eq_of_key_resolve? hmeans

/-- **Renaming the uses that a name lists** renames, among what was put in, that name only. -/
theorem Draft.Arranged.renamed_added {m : Module} {cs : List Chunk} {d : Draft}
    (ha : d.Arranged m cs) (hd : d.InOrder) {name constant : String} {binding : Binding}
    (hbinding : d.scope.moduleBinding? name = some binding) (hname : m.scope.hasName name)
    (hconstant : ¬ m.scope.hasName constant) : ∀ c ∈ cs, ∀ s ∈ c.added, ∀ i ∈ s.identifiers,
      Identifier.renamedAll binding.uses constant i = i ∨ (m.scope.hasName i.name ∧
        ¬ m.scope.hasName (Identifier.renamedAll binding.uses constant i).name) := by
  rintro c hc s hs i hi
  by_cases hlisted : i.origin.id ∈ Identifier.numbers binding.uses
  · have hthere : s ∈ d.sequence.body :=
      ha.body ▸ List.mem_flatMap_of_mem hc (List.mem_append_right _ hs)
    refine Or.inr ⟨?_, ?_⟩
    · rw [hd.name_of_listed hbinding hthere hi hlisted]
      exact hname
    · rw [Identifier.renamedAll, if_pos hlisted]
      exact hconstant
  · exact Or.inl (Identifier.renamedAll_of_notMem hlisted)

end MessageBinder
