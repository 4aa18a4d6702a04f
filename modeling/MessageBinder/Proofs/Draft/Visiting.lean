import Mathlib.Data.List.Pairwise
import MessageBinder.Proofs.Draft.Arrangement
import MessageBinder.Proofs.Draft.Rebinding

/-!
# What a visit does to a statement

When a statement meets a target, an import is left as it is and a re-export loses the names that
match; what is bound or made anew goes behind it. So what is left of a statement is told by the
targets that it has met (`MessageBinder.Stmt.pared`) and by one replacement of identifiers for the
whole module, which touches uses only (`MessageBinder.Module.Renames`).

A pass neither gives uses to a name of the module that had none nor takes the last one from it: the
constant for an import takes all its uses and is itself one of it
(`MessageBinder.Bench.Visits`). None of this needs declarations to have different names.
-/

namespace MessageBinder

/-! ### What is left of a statement -/

/-- Whether a target takes a name from a re-export of a module. -/
def Target.takes (t : Target) (source : CodeText) (s : ExportSpecifier) : Bool :=
  source = t.module && t.matchesExport s

/-- What is left of a statement that met targets: a re-export without the names that they take. -/
def Stmt.pared (met : List Target) : Stmt → Option Stmt
  | .exportNamed specifiers (some source) o =>
    let kept := specifiers.filter fun s => !met.any (·.takes source s)
    if kept.isEmpty && !specifiers.isEmpty then none else some (.exportNamed kept (some source) o)
  | stmt => some stmt

@[simp] theorem Stmt.pared_nil_targets (stmt : Stmt) : stmt.pared [] = some stmt := by
  cases stmt with
  | exportNamed specifiers source o =>
    cases source with
    | none => rfl
    | some source => cases specifiers <;> simp [pared]
  | _ => rfl

theorem Stmt.pared_of_ne {stmt : Stmt}
    (h : ∀ specifiers source o, stmt ≠ .exportNamed specifiers (some source) o)
    (met : List Target) : stmt.pared met = some stmt := by
  cases stmt with
  | exportNamed specifiers source o =>
    cases source with
    | none => rfl
    | some source => exact absurd rfl (h specifiers source o)
  | _ => rfl

/-- What is left of a statement is the statement, or a re-export of fewer names. -/
theorem Stmt.pared_eq_some {met : List Target} {stmt s : Stmt} (h : stmt.pared met = some s) :
    (s = stmt ∧ ∀ specifiers source o, stmt ≠ .exportNamed specifiers (some source) o) ∨
      ∃ specifiers source o, stmt = .exportNamed specifiers (some source) o ∧
        s = .exportNamed (specifiers.filter fun e => !met.any (·.takes source e)) (some source)
          o := by
  by_cases hkind : ∃ specifiers source o, stmt = .exportNamed specifiers (some source) o
  · obtain ⟨specifiers, source, o, rfl⟩ := hkind
    rw [pared] at h
    split at h
    · cases h
    · exact Or.inr ⟨specifiers, source, o, rfl, (Option.some.inj h).symm⟩
  · have hne : ∀ specifiers source o, stmt ≠ .exportNamed specifiers (some source) o :=
      fun specifiers source o heq => hkind ⟨specifiers, source, o, heq⟩
    rw [pared_of_ne hne] at h
    exact Or.inl ⟨(Option.some.inj h).symm, hne⟩

/-- What is left of a statement after one more target is what that target leaves of the rest. -/
theorem Stmt.pared_concat (met : List Target) (t : Target) (stmt : Stmt) :
    stmt.pared (met ++ [t]) = (stmt.pared met).bind (Stmt.pared [t]) := by
  cases stmt with
  | exportNamed specifiers source o =>
    cases source with
    | none => rfl
    | some source =>
      have hfilter : specifiers.filter (fun s => !(met ++ [t]).any (·.takes source s))
          = (specifiers.filter fun s => !met.any (·.takes source s)).filter
            fun s => !([t].any (·.takes source s)) := by
        rw [List.filter_filter]
        refine List.filter_congr fun s _ => ?_
        simp [Bool.and_comm]
      simp only [pared, hfilter]
      by_cases hempty : specifiers.filter (fun s => !met.any (·.takes source s)) = []
      · cases specifiers <;> simp [hempty, pared]
      · have hne : specifiers ≠ [] := fun h => hempty (by rw [h]; rfl)
        have hthere : ((specifiers.filter fun s => !met.any (·.takes source s)).isEmpty
            && !specifiers.isEmpty) = false := by
          rw [Bool.and_eq_false_iff]
          exact Or.inl (Bool.eq_false_iff.2 fun h => hempty (List.isEmpty_iff.1 h))
        simp only [hthere, Bool.false_eq_true, if_false, Option.bind_some, pared]
        simp [hne, List.isEmpty_eq_false_iff.2 hempty]
  | _ => rfl

/-- A target leaves alone what does not concern it. -/
theorem Stmt.pared_of_not_concerns {t : Target} {stmt : Stmt} (h : ¬ t.concerns stmt) :
    stmt.pared [t] = some stmt := by
  cases stmt with
  | exportNamed specifiers source o =>
    cases source with
    | none => rfl
    | some source =>
      have hnone : ∀ s ∈ specifiers, t.takes source s = false := by
        intro s hs
        simp only [Target.concerns, Target.matchesModule, Target.matchesFunction, Bool.and_eq_true,
          decide_eq_true_eq, List.any_eq_true, not_and, not_exists, Option.some.injEq] at h
        rw [Target.takes, Bool.and_eq_false_iff]
        by_cases hmodule : source = t.module
        · exact Or.inr (by simpa using h hmodule s hs)
        · exact Or.inl (by simpa using hmodule)
      have hfilter : specifiers.filter (fun s => !([t].any (·.takes source s))) = specifiers :=
        List.filter_eq_self.2 fun s hs => by simp [hnone s hs]
      simp only [pared, hfilter]
      cases specifiers <;> simp
  | _ => rfl

/-- What a target takes from a re-export of its module. -/
theorem Stmt.pared_singleton {t : Target} {specifiers : List ExportSpecifier} {o : Origin}
    (h : t.concerns (.exportNamed specifiers (some t.module) o)) :
    Stmt.pared [t] (.exportNamed specifiers (some t.module) o)
      = if (specifiers.filter (!t.matchesExport ·)).isEmpty then none
        else some (.exportNamed (specifiers.filter (!t.matchesExport ·)) (some t.module) o) := by
  have hne : specifiers ≠ [] := by
    rintro rfl
    simp [Target.concerns, Target.matchesFunction] at h
  have hfilter : specifiers.filter (fun s => !([t].any (·.takes t.module s)))
      = specifiers.filter (!t.matchesExport ·) :=
    List.filter_congr fun s _ => by simp [Target.takes]
  simp only [pared, hfilter]
  simp [hne]

/-- A target that a statement has met concerns nothing that is left of it, except imports. -/
theorem Stmt.not_concerns_of_pared {t : Target} {met : List Target} (ht : t ∈ met) {stmt s : Stmt}
    (h : stmt.pared met = some s) {specifiers : List ExportSpecifier} {source : Option CodeText}
    {o : Origin} (hs : s = .exportNamed specifiers source o) : ¬ t.concerns s := by
  subst hs
  cases source with
  | none => simp [Target.concerns, Target.matchesModule]
  | some source =>
    obtain ⟨rfl, hne⟩ | ⟨specifiers', source', o', rfl, heq⟩ := pared_eq_some h
    · exact absurd rfl (hne _ _ _)
    · obtain ⟨rfl, hsource, rfl⟩ := Stmt.exportNamed.inj heq
      obtain rfl := Option.some.inj hsource
      simp only [Target.concerns, Target.matchesModule, Target.matchesFunction, Bool.and_eq_true,
        decide_eq_true_eq, List.any_eq_true, not_and, not_exists, Option.some.injEq]
      intro hmodule s hs hmatches
      have hnot := List.of_mem_filter hs
      simp only [Bool.not_eq_true', List.any_eq_false] at hnot
      exact hnot t ht (by simp [Target.takes, hmodule, hmatches])

/-! ### Replacements of uses -/

theorem Stmt.uses_subset_identifiers (stmt : Stmt) : stmt.uses ⊆ stmt.identifiers := by
  have hsub := Stmt.uses_append_binders_subset [stmt]
  simp only [Stmt.usesList, Stmt.bindersList, Stmt.identifiersList, List.append_nil] at hsub
  exact fun u hu => hsub (List.mem_append_left _ hu)

theorem Module.mem_identifiers {m : Module} {s : Stmt} {i : Identifier} (hs : s ∈ m.body)
    (hi : i ∈ s.identifiers) : i ∈ m.identifiers := by
  rw [identifiers, Stmt.identifiersList_eq_flatMap]
  exact List.mem_flatMap_of_mem hs hi

namespace Module.Numbered

variable {m : Module} {s s' : Stmt} {i i' : Identifier}

/-- A number belongs to one identifier in one statement. -/
theorem stmt_of_number (h : m.Numbered) (hs : s ∈ m.body) (hs' : s' ∈ m.body)
    (hi : i ∈ s.identifiers) (hi' : i' ∈ s'.identifiers) (hn : i.origin.id = i'.origin.id) :
    s = s' ∧ i = i' := by
  have hids := h.distinct.identifiers
  obtain rfl : i = i' := List.inj_on_of_nodup_map hids (mem_identifiers hs hi)
    (mem_identifiers hs' hi') hn
  refine ⟨by_contra fun hne => ?_, rfl⟩
  have hnodup := hids.of_map
  rw [Stmt.identifiersList_eq_flatMap] at hnodup
  have hsymm : Std.Symm (Function.onFun List.Disjoint Stmt.identifiers) :=
    ⟨fun _ _ hd _ hi hi' => hd hi' hi⟩
  exact (List.nodup_flatMap.1 hnodup).2.forall hs hs' hne hi hi'

end Module.Numbered

/-- **A replacement renames uses of a module**: identifiers stay where they are, and those that are
no uses stay what they are. -/
structure Module.Renames (m : Module) (f : Identifier → Identifier) : Prop where
  /-- Identifiers stay where they are. -/
  inPlace : Identifier.InPlace f
  /-- Only uses are renamed. -/
  others : ∀ i ∈ m.identifiers, i.origin.id ∉ Identifier.numbers m.uses → f i = i

namespace Module.Renames

variable {m : Module} {f : Identifier → Identifier}

theorem id (m : Module) : m.Renames (fun i => i) := ⟨fun _ => rfl, fun _ _ _ => rfl⟩

/-- Renaming an identifier that is a use, or none of the module, renames uses. -/
theorem renamed (h : m.Renames f) (hm : m.Numbered) {n : Nat}
    (hn : n ∈ Identifier.numbers m.uses ∨ m.next ≤ n) (name : String) :
    m.Renames (Identifier.renamed n name ∘ f) where
  inPlace i := (Identifier.renamed_inPlace n name (f i)).trans (h.inPlace i)
  others i hi hnot := by
    rw [Function.comp_apply, h.others i hi hnot]
    refine Identifier.renamed_of_ne fun heq => ?_
    rcases hn with hn | hn
    · exact hnot (heq ▸ hn)
    · have hlt := hm.identifier_lt i hi
      omega

/-- A statement of the module without uses is left alone. -/
theorem eq_of_uses_eq_nil (h : m.Renames f) (hm : m.Numbered) {stmt : Stmt} (hstmt : stmt ∈ m.body)
    (huses : stmt.uses = []) : ∀ i ∈ stmt.identifiers, f i = i := by
  intro i hi
  refine h.others i (mem_identifiers hstmt hi) fun hnumber => ?_
  obtain ⟨u, hu, hnumber⟩ := List.mem_map.1 hnumber
  rw [Module.uses, Stmt.usesList_eq_flatMap] at hu
  obtain ⟨s, hs, hu⟩ := List.mem_flatMap.1 hu
  -- the identifier and the use would be the same
  obtain ⟨rfl, -⟩ := hm.stmt_of_number hs hstmt (s.uses_subset_identifiers hu) hi hnumber
  rw [huses] at hu
  cases hu

/-- Renaming identifiers that are uses, or none of the module, renames uses. -/
theorem renamedAll (h : m.Renames f) (hm : m.Numbered) {ids : List Identifier}
    (hids : ∀ i ∈ ids, i.origin.id ∈ Identifier.numbers m.uses ∨ m.next ≤ i.origin.id)
    (name : String) : m.Renames (Identifier.renamedAll ids name ∘ f) where
  inPlace i := (Identifier.renamedAll_inPlace ids name (f i)).trans (h.inPlace i)
  others i hi hnot := by
    rw [Function.comp_apply, h.others i hi hnot]
    refine Identifier.renamedAll_of_notMem fun hmem => ?_
    obtain ⟨j, hj, hn⟩ := List.mem_map.1 hmem
    rcases hids j hj with huse | hle
    · exact hnot (hn ▸ huse)
    · have hlt := hm.identifier_lt i hi
      omega

end Module.Renames

/-- Uses are replaced one by one. -/
theorem Stmt.usesList_mapIdsList {f : Identifier → Identifier} (hf : Identifier.InPlace f)
    (ss : List Stmt) : usesList (mapIdsList f ss) = (usesList ss).map f := by
  have hevents : moduleEvents (mapIdsList f ss)
      = (moduleEvents ss).map (ScopeEvent.mapIds f) := by
    rw [moduleEvents, moduleEvents, declaresList_mapIdsList, walkList_mapIdsList hf,
      List.map_append]
  rw [← uses_moduleEvents, ← uses_moduleEvents, hevents, ScopeEvent.uses_map_mapIds,
    List.map_map, List.map_map]
  rfl

theorem Stmt.uses_mapIds {f : Identifier → Identifier} (hf : Identifier.InPlace f) (s : Stmt) :
    (s.mapIds f).uses = s.uses.map f := by
  simpa [usesList, mapIdsList] using usesList_mapIdsList hf [s]

theorem Stmt.uses_of_pared {met : List Target} {stmt s : Stmt} (h : stmt.pared met = some s) :
    s.uses = stmt.uses := by
  obtain ⟨rfl, -⟩ | ⟨specifiers, source, o, rfl, rfl⟩ := pared_eq_some h
  · rfl
  · rfl

theorem Stmt.identifiers_of_pared {met : List Target} {stmt s : Stmt}
    (h : stmt.pared met = some s) : s.identifiers ⊆ stmt.identifiers := by
  obtain ⟨rfl, -⟩ | ⟨specifiers, source, o, rfl, rfl⟩ := pared_eq_some h
  · exact fun _ hi => hi
  · exact List.map_subset _ (List.filter_subset_self _)

/-! ### Names of the module in a draft -/

/-- Whether a name that the module itself declares has uses. -/
def Scope.isUsed (s : Scope) (name : String) : Bool :=
  (s.moduleBinding? name).any fun b => !b.uses.isEmpty

/-- Among uses there is one that means a name which the module itself declares. -/
def Module.UsedIn (m : Module) (name : String) (us : List (Chain × Identifier)) : Prop :=
  ∃ u ∈ us, u.2.name = name ∧
    (Binding.resolve? (ScopeEvent.bindings m.events) u.1 name).map Binding.key
      = some (.module, name)

/-- **A draft is steady** if names of the module mean what they meant and, but for some that are
lost for a moment, have uses when they had some. -/
structure Draft.Steady (m : Module) (lost : List String) (d : Draft) : Prop where
  /-- Names of the module are declared as they are there. -/
  kept : ∀ key : BindingKey, m.scope.hasName key.2 →
    Binding.first? (ScopeEvent.bindings d.events) key
      = Binding.first? (ScopeEvent.bindings m.events) key
  /-- They have uses when they had some. -/
  used : ∀ name, m.scope.hasName name → name ∉ lost →
    (m.UsedIn name (ScopeEvent.uses d.events) ↔ m.UsedIn name (ScopeEvent.uses m.events))

namespace Draft.Steady

variable {m : Module} {lost pending : List String} {d d' : Draft} {name : String}

theorem ofModule (m : Module) : (Draft.ofModule m).Steady m [] :=
  ⟨fun _ _ => rfl, fun _ _ _ => Iff.rfl⟩

/-- Only the events count. -/
theorem congr (h : d.Steady m lost) (hevents : d'.events = d.events) : d'.Steady m lost :=
  ⟨hevents ▸ h.kept, hevents ▸ h.used⟩

theorem resolve?_eq (h : d.Steady m lost) (hname : m.scope.hasName name) (c : Chain) :
    Binding.resolve? (ScopeEvent.bindings d.events) c name
      = Binding.resolve? (ScopeEvent.bindings m.events) c name :=
  Binding.resolve?_congr fun f _ => h.kept (f, name) hname

/-- The scope of a draft knows which names have uses. -/
theorem isUsed_iff (h : d.Steady m lost) (hd : d.InOrder) (hname : m.scope.hasName name) :
    d.scope.isUsed name ↔ m.UsedIn name (ScopeEvent.uses d.events) := by
  constructor
  · intro hused
    obtain ⟨b, hb, hne⟩ := (Option.any_eq_true _ _).1 hused
    obtain ⟨hmem, hkey⟩ := mem_bindings_of_moduleBinding? hb
    obtain ⟨id, hid⟩ := List.exists_mem_of_ne_nil b.uses (by simpa using hne)
    obtain ⟨c, hu, hmeans⟩ := (hd.mem_uses_iff hmem).1 hid
    rw [hkey] at hmeans
    have hid' : id.name = name := Binding.eq_of_key_resolve? hmeans
    refine ⟨(c, id), hu, hid', ?_⟩
    rw [← h.resolve?_eq hname, ← hid', hmeans, hid']
  · rintro ⟨⟨c, id⟩, hu, hid, hmeans⟩
    rw [← h.resolve?_eq hname, ← hid] at hmeans
    obtain ⟨b', hb', hkey'⟩ := Option.map_eq_some_iff.1 hmeans
    have hsome : (d.scope.moduleBinding? name).isSome := by
      rw [Scope.moduleBinding?, Scope.isSome_inFrame?, hd.records.first]
      have hfirst := Binding.first?_key_of_resolve? hb'
      rw [hkey', hid] at hfirst
      rw [hfirst]
      rfl
    obtain ⟨b, hb⟩ := Option.isSome_iff_exists.1 hsome
    obtain ⟨hmem, hkey⟩ := mem_bindings_of_moduleBinding? hb
    have hlisted : id ∈ b.uses := (hd.mem_uses_iff hmem).2 ⟨c, hu, by rw [hkey, hmeans, hid]⟩
    rw [Scope.isUsed, hb]
    simpa using List.ne_nil_of_mem hlisted

/-- **Renaming all uses of a name** takes them from it, and from no other name of the module. -/
theorem renameUses (h : d.Steady m []) (hd : d.InOrder) {binding : Binding}
    (hbinding : d.scope.moduleBinding? name = some binding) {constant : String}
    (hnew : ¬ m.scope.hasName constant) :
    (d.renameUses constant binding.uses).Steady m [name] := by
  obtain ⟨hmem, hkey⟩ := mem_bindings_of_moduleBinding? hbinding
  refine ⟨fun key hkey => ?_, fun other hother hne => ?_⟩
  · rw [hd.bindings_renameUses_uses hmem]
    exact h.kept key hkey
  · rw [← h.used other hother (by simp), uses_renameUses]
    constructor
    · rintro ⟨u', hu', hu'name, hmeans⟩
      obtain ⟨u, hu, rfl⟩ := List.mem_map.1 hu'
      split at hu'name
      · have hsame : constant = other := hu'name
        exact absurd (hsame ▸ hother) hnew
      · rename_i hnumber
        rw [if_neg hnumber] at hmeans
        exact ⟨u, hu, hu'name, hmeans⟩
    · rintro ⟨u, hu, huname, hmeans⟩
      refine ⟨u, List.mem_map.2 ⟨u, hu, if_neg fun hnumber => ?_⟩, huname, hmeans⟩
      -- a use that the binding lists has its name
      have hmeans' := (hd.mem_numbers_iff hmem hu).1 hnumber
      rw [hkey] at hmeans'
      have hsame : u.2.name = name := Binding.eq_of_key_resolve? hmeans'
      exact hne (by simp [← huname, hsame])

/-- **An added statement** that declares pending names and uses new names, and those that are
lost. -/
theorem insert (h : d.Steady m lost) (hext : d.Extends m pending) {front back : List Stmt}
    {stmt : Stmt} (tails : List (Nat × Stmt)) (hbody : d.sequence.body = front ++ back)
    (hadded : stmt.AddedAt d.next)
    (hnames : ∀ b ∈ ScopeEvent.bindings (Stmt.moduleEvents [stmt]), b.name ∈ pending)
    (hused : ∀ u ∈ ScopeEvent.uses (Stmt.moduleEvents [stmt]),
      ¬ m.scope.hasName u.2.name ∨ u.2.name ∈ lost)
    (hback : ∀ name ∈ lost, m.UsedIn name (ScopeEvent.uses m.events) ∧
      m.UsedIn name (ScopeEvent.uses (Stmt.moduleEvents [stmt]))) :
    (d.inserted front stmt back tails).Steady m [] := by
  refine ⟨fun key hkey => ?_, fun name hname _ => ?_⟩
  · rw [hext.first?_inserted_of_hasName tails hbody hadded hnames hkey]
    exact h.kept key hkey
  · have hperm : (ScopeEvent.uses (d.inserted front stmt back tails).events).Perm
        (ScopeEvent.uses d.events ++ ScopeEvent.uses (Stmt.moduleEvents [stmt])) :=
      perm_uses_inserted hbody
    have hparts : m.UsedIn name (ScopeEvent.uses (d.inserted front stmt back tails).events) ↔
        m.UsedIn name (ScopeEvent.uses d.events) ∨
          m.UsedIn name (ScopeEvent.uses (Stmt.moduleEvents [stmt])) := by
      simp only [Module.UsedIn, hperm.mem_iff, List.mem_append, or_and_right, exists_or]
    rw [hparts]
    by_cases hlost : name ∈ lost
    · obtain ⟨hthere, hagain⟩ := hback name hlost
      exact iff_of_true (Or.inr hagain) hthere
    · rw [h.used name hname hlost]
      refine or_iff_left_of_imp ?_
      rintro ⟨u, hu, rfl, -⟩
      exact ((hused u hu).resolve_left (not_not.2 hname) |> hlost).elim

end Draft.Steady

namespace Bench.Extends

variable {m : Module} {pending lost : List String} {k : Nat} {b b' : Bench} {stmt : Stmt}
  {target : Target}

theorem steady_append (h : b.Extends m pending k) (hs : b.draft.Steady m lost)
    {build : Nat → Stmt} (hadded : (build b.draft.next).AddedAt b.draft.next)
    {names rest : List String}
    (hnames : (ScopeEvent.bindings (Stmt.moduleEvents [build b.draft.next])).map Binding.name
      = names) (hpending : pending.Perm (names ++ rest))
    (hused : ∀ u ∈ ScopeEvent.uses (Stmt.moduleEvents [build b.draft.next]),
      ¬ m.scope.hasName u.2.name ∨ u.2.name ∈ lost)
    (hback : ∀ name ∈ lost, m.UsedIn name (ScopeEvent.uses m.events) ∧
      m.UsedIn name (ScopeEvent.uses (Stmt.moduleEvents [build b.draft.next]))) {u : Unit}
    (hgives : (Drafting.edit (·.append stmt build)).Gives b u b') : b'.draft.Steady m [] := by
  obtain ⟨d, happend, rfl⟩ := Drafting.gives_edit hgives
  obtain ⟨front, s, back, hbody, -, rfl⟩ := Draft.append_eq_ok happend
  subst hnames
  refine hs.insert h.draft _ hbody hadded (fun c hc => ?_) hused hback
  exact List.mem_append_left _
    (hpending.mem_iff.2 (List.mem_append_left _ (List.mem_map_of_mem hc)))

/-- **Binding an imported name** keeps a use of it, in the constant. -/
theorem steady_bindImported (h : b.Extends m [] k) (hs : b.draft.Steady m []) {name : String}
    (hname : m.scope.hasName name)
    (hgives : (Drafting.bindImported stmt target name).Gives b true b') :
    b'.draft.Steady m [] ∧ m.UsedIn name (ScopeEvent.uses m.events) := by
  rcases Drafting.gives_bindImported hgives with ⟨-, hfalse, -⟩ |
    ⟨binding, constant, messages, b₁, b₂, hbinding, hne, -, hfresh, hrequest, happend⟩
  · cases hfalse
  · obtain ⟨hmem, -⟩ := Draft.mem_bindings_of_moduleBinding? hbinding
    have hdrawn := h.freshName hfresh
    obtain ⟨-, rfl⟩ := Drafting.gives_freshName hfresh
    have hrenamed := hdrawn.renameBinding (by rwa [Scope.bindings_reserve]) constant
    obtain ⟨hrequested, hvariable, hsequence⟩ := hrenamed.request hrequest
    have hthere : m.UsedIn name (ScopeEvent.uses m.events) := by
      rw [← hs.used name hname (by simp), ← hs.isUsed_iff h.draft.inOrder hname, Scope.isUsed,
        hbinding]
      simpa using hne
    have hconstant : ¬ m.scope.hasName constant :=
      (hdrawn.draft.fresh constant (by simp)).2
    have hmessages : ¬ m.scope.hasName messages :=
      (hrequested.draft.fresh messages (by simp [hvariable])).2
    have hbinding' : (b.draft.scope.reserve constant).moduleBinding? name = some binding := by
      rw [Scope.moduleBinding?, Scope.inFrame?, Scope.bindings_reserve]
      exact hbinding
    have hlost := Draft.Steady.renameUses (d := { b.draft with
      scope := b.draft.scope.reserve constant }) (hs.congr rfl) hdrawn.draft.inOrder hbinding'
      hconstant
    have hlost' : b₂.draft.Steady m [name] := by
      refine hlost.congr ?_
      rw [Draft.events, hsequence]
      rfl
    refine ⟨hrequested.steady_append hlost' (Stmt.boundConstant_addedAt ..) rfl (List.Perm.refl _)
      (fun u hu => ?_) (fun other hother => ?_) happend, hthere⟩
    · rw [Stmt.uses_boundConstant] at hu
      rcases List.mem_cons.1 hu with rfl | hu
      · exact Or.inr (List.mem_singleton_self name)
      · obtain rfl := List.mem_singleton.1 hu
        exact Or.inl hmessages
    · obtain rfl := List.mem_singleton.1 hother
      refine ⟨hthere, ([.module], Stmt.addedId other (b₂.draft.next + 2)), ?_, rfl, ?_⟩
      · rw [Stmt.uses_boundConstant]
        exact List.mem_cons_self
      · -- the name is declared in the module itself, since it has uses there
        obtain ⟨u, -, -, hmeans⟩ := hthere
        obtain ⟨c, hc, hkey⟩ := Option.map_eq_some_iff.1 hmeans
        have hfirst := Binding.first?_key_of_resolve? hc
        rw [hkey] at hfirst
        rw [Binding.resolve?_cons, hfirst, Option.some_or, Option.map_some, hkey]

/-- Making a re-export anew uses new names only. -/
theorem steady_moveExport (h : b.Extends m [] k) (hs : b.draft.Steady m [])
    {s : ExportSpecifier} {u : Unit}
    (hgives : (Drafting.moveExport stmt target s).Gives b u b') : b'.draft.Steady m [] := by
  obtain ⟨imported, bound, messages, b₁, b₂, b₃, b₄, b₅, himported, hbound, hrequest, himport,
    hconstant, hexport⟩ := Drafting.gives_moveExport hgives
  have hdrawn := (h.freshName himported).freshName hbound
  obtain ⟨hrequested, hvariable, hsequence⟩ := hdrawn.request hrequest
  have hnew : ∀ name ∈ [bound, imported], ¬ m.scope.hasName name := fun name hname =>
    (hdrawn.draft.fresh name (List.mem_append_left _ (List.mem_append_left _ hname))).2
  have hmessages : ¬ m.scope.hasName messages :=
    (hrequested.draft.fresh messages (by simp [hvariable])).2
  have hs₃ : b₃.draft.Steady m [] := by
    refine hs.congr ?_
    rw [Draft.events, hsequence, Drafting.sequence_freshName hbound,
      Drafting.sequence_freshName himported]
    rfl
  obtain ⟨hfirst, -⟩ := hrequested.append (Stmt.addedImport_addedAt ..) rfl
    (List.Perm.swap imported bound []) himport
  obtain ⟨hsecond, -⟩ := hfirst.append (Stmt.boundConstant_addedAt ..) rfl (List.Perm.refl _)
    hconstant
  have hs₄ := hrequested.steady_append hs₃ (Stmt.addedImport_addedAt ..) rfl
    (List.Perm.swap imported bound []) (by simp [Stmt.uses_addedImport]) (by simp) himport
  have hs₅ := hfirst.steady_append hs₄ (Stmt.boundConstant_addedAt ..) rfl (List.Perm.refl _)
    (fun u hu => Or.inl (by
      rw [Stmt.uses_boundConstant] at hu
      rcases List.mem_cons.1 hu with rfl | hu
      · exact hnew imported (by simp)
      · obtain rfl := List.mem_singleton.1 hu
        exact hmessages)) (by simp) hconstant
  exact hsecond.steady_append hs₅ (Stmt.addedExport_addedAt ..) rfl (List.Perm.refl _)
    (fun u hu => Or.inl (by
      rw [Stmt.uses_addedExport] at hu
      obtain rfl := List.mem_singleton.1 hu
      exact hnew bound (by simp))) (by simp) hexport

theorem steady_moveAll (h : b.Extends m [] k) (hs : b.draft.Steady m [])
    {specifiers : List ExportSpecifier} {u : Unit}
    (hgives : (Drafting.moveAll stmt target specifiers).Gives b u b') : b'.draft.Steady m [] := by
  obtain ⟨-, hs'⟩ := Drafting.moveAll_induction
    (P := fun _ b => (∃ k, b.Extends m [] k) ∧ b.draft.Steady m []) hgives ⟨⟨k, h⟩, hs⟩
    fun _ ⟨⟨_, h⟩, hs⟩ hmove => ⟨⟨_, h.moveExport hmove⟩, h.steady_moveExport hs hmove⟩
  exact hs'

theorem steady_moveMatching (h : b.Extends m [] k) (hs : b.draft.Steady m [])
    {specifiers : List ExportSpecifier} {source : CodeText} {o : Origin} {n : Nat}
    (hcurrent : b.draft.current? o.id = some (.exportNamed specifiers (some source) o))
    (hgives : (Drafting.moveMatching target specifiers (some source) o).Gives b n b') :
    b'.draft.Steady m [] := by
  obtain ⟨kept, front, back, b₁, hpared, hbody, hmove, hrest⟩ :=
    h.pares_moveMatching hcurrent hgives
  have hmoved := (h.pare hbody hpared).steady_moveAll (hs.congr (Draft.events_pare hbody hpared))
    hmove
  rcases hrest with rfl | ⟨front', back', hbody', rfl⟩
  · exact hmoved
  · exact hmoved.congr (Draft.events_pare hbody' (Stmt.pared_nil [] source o))

end Bench.Extends

/-! ### Visits -/

/-- Statements that a target concerns have no uses. -/
theorem Target.uses_of_concerns {t : Target} {stmt : Stmt} (h : t.concerns stmt) :
    stmt.uses = [] := by
  cases stmt with
  | importDecl specifiers source o => rfl
  | exportNamed specifiers source o =>
    cases source with
    | none => simp [concerns, matchesModule] at h
    | some source => rfl
  | _ => simp [concerns, matchesModule] at h

/-- What is left of a statement, with uses renamed by one replacement. -/
def Chunk.Remains (f : Identifier → Identifier) (met : Nat → List Target) (c : Chunk) : Prop :=
  c.kept = (c.origin.pared (met c.id)).map (Stmt.mapIds f)

namespace Chunk.Remains

variable {m : Module} {f : Identifier → Identifier} {met : Nat → List Target} {c : Chunk}

/-- Of a statement without uses remains what the targets leave. -/
theorem kept_eq (h : c.Remains f met) (hm : m.Numbered) (hf : m.Renames f)
    (hc : c.origin ∈ m.body) (huses : c.origin.uses = []) :
    c.kept = c.origin.pared (met c.id) := by
  rw [h]
  cases hpared : c.origin.pared (met c.id) with
  | none => rfl
  | some s =>
    have hsame := s.mapIds_eq_self fun i hi =>
      hf.eq_of_uses_eq_nil hm hc huses i (Stmt.identifiers_of_pared hpared hi)
    rw [Option.map_some, hsame]

/-- An import is what it was. -/
theorem kept_of_importDecl (h : c.Remains f met) {specifiers : List ImportSpecifier}
    {source : CodeText} {o : Origin} (hm : m.Numbered) (hf : m.Renames f) (hc : c.origin ∈ m.body)
    (horigin : c.origin = .importDecl specifiers source o) :
    c.kept = some (.importDecl specifiers source o) := by
  rw [h.kept_eq hm hf hc (by rw [horigin]; rfl), horigin]
  rfl

theorem origin_of_importDecl (h : c.Remains f met) {specifiers : List ImportSpecifier}
    {source : CodeText} {o : Origin} (hm : m.Numbered) (hf : m.Renames f) (hc : c.origin ∈ m.body)
    (hkept : c.kept = some (.importDecl specifiers source o)) :
    c.origin = .importDecl specifiers source o := by
  have hthere := hkept
  rw [h] at hthere
  obtain ⟨s, hs, hmap⟩ := Option.map_eq_some_iff.1 hthere
  obtain ⟨specifiers', rfl⟩ := Stmt.eq_importDecl_of_mapIds hmap
  have huses : c.origin.uses = [] := (Stmt.uses_of_pared hs).symm
  rw [h.kept_eq hm hf hc huses] at hkept
  cases horigin : c.origin with
  | importDecl ss src o' =>
    rw [horigin] at hkept
    exact Option.some.inj hkept
  | exportNamed ss src o' =>
    rw [horigin] at hkept
    cases src with
    | none => cases hkept
    | some src =>
      rw [Stmt.pared] at hkept
      split at hkept <;> cases hkept
  | _ =>
    rw [horigin] at hkept
    cases hkept

/-- What remains as a re-export is one without the names that were taken from it. -/
theorem pared_of_exportNamed (h : c.Remains f met) {specifiers : List ExportSpecifier}
    {source : CodeText} {o : Origin} (hm : m.Numbered) (hf : m.Renames f) (hc : c.origin ∈ m.body)
    (hkept : c.kept = some (.exportNamed specifiers (some source) o)) :
    c.origin.pared (met c.id) = some (.exportNamed specifiers (some source) o) := by
  have hthere := hkept
  rw [h] at hthere
  obtain ⟨s, hs, hmap⟩ := Option.map_eq_some_iff.1 hthere
  have huses : s.uses = [] := by
    cases s with
    | exportNamed ss src o' =>
      obtain ⟨-, rfl, -⟩ := Stmt.exportNamed.inj hmap
      rfl
    | returnValue value o' => cases value <;> cases hmap
    | ifThen test consequent alternate o' => cases alternate <;> cases hmap
    | _ => cases hmap
  rw [← h.kept_eq hm hf hc ((Stmt.uses_of_pared hs).symm.trans huses)]
  exact hkept

/-- What remains as a re-export is none of an import. -/
theorem origin_ne_importDecl (h : c.Remains f met) {specifiers : List ExportSpecifier}
    {source : Option CodeText} {o : Origin} (hm : m.Numbered) (hf : m.Renames f)
    (hc : c.origin ∈ m.body) (hkept : c.kept = some (.exportNamed specifiers source o)) :
    ∀ ss src o', c.origin ≠ .importDecl ss src o' := by
  intro ss src o' horigin
  rw [h.kept_of_importDecl hm hf hc horigin] at hkept
  cases hkept

section Idle

variable {t : Target} (hm : m.Numbered) (hf : m.Renames f) (hc : c.origin ∈ m.body)
  (hnone : ∀ s, c.kept = some s → ¬ t.concerns s)

include hm hf hc hnone

/-- A target that does not concern what remains does not concern what targets left. -/
theorem not_concerns (h : c.Remains f met) {s : Stmt} (hs : c.origin.pared (met c.id) = some s) :
    ¬ t.concerns s := fun hconcerns =>
  hnone s ((h.kept_eq hm hf hc
    ((Stmt.uses_of_pared hs).symm.trans (Target.uses_of_concerns hconcerns))).trans hs) hconcerns

/-- It leaves all of it. -/
theorem pared_idle (h : c.Remains f met) :
    (c.origin.pared (met c.id)).bind (Stmt.pared [t]) = c.origin.pared (met c.id) := by
  cases hpared : c.origin.pared (met c.id) with
  | none => rfl
  | some s => exact Stmt.pared_of_not_concerns (h.not_concerns hm hf hc hnone hpared)

/-- It matches no specifier. -/
theorem specifiers_idle (h : c.Remains f met) : t.specifiers c.origin = [] := by
  cases horigin : c.origin with
  | importDecl specifiers source o =>
    refine Target.specifiers_of_not_concerns (h.not_concerns hm hf hc hnone ?_)
    rw [horigin]
    rfl
  | _ => rfl

end Idle

/-- Renaming changes the replacement. -/
theorem mapIds (h : c.Remains f met) (g : Identifier → Identifier) :
    (c.mapIds g).Remains (g ∘ f) met := by
  change c.kept.map (Stmt.mapIds g) = _
  rw [h, Option.map_map]
  congr 1
  funext s
  exact s.mapIds_mapIds g f

/-- What other statements have met is of no account. -/
theorem of_ne (h : c.Remains f met) {n : Nat} (hne : c.id ≠ n) (ts : List Target) :
    c.Remains f (Function.update met n ts) := by
  rw [Remains, Function.update_of_ne hne]
  exact h

/-- A target that takes nothing from what is left leaves it. -/
theorem meet (h : c.Remains f met) {target : Target}
    (hleft : (c.origin.pared (met c.id)).bind (Stmt.pared [target])
      = c.origin.pared (met c.id)) :
    c.Remains f (Function.update met c.id (met c.id ++ [target])) := by
  rw [Remains, Function.update_self, Stmt.pared_concat, hleft]
  exact h

/-- Of a re-export remain the names that a target does not take. -/
theorem pare (h : c.Remains f met) (hm : m.Numbered) (hf : m.Renames f) (hc : c.origin ∈ m.body)
    {target : Target} {specifiers : List ExportSpecifier} {o : Origin}
    (hkept : c.kept = some (.exportNamed specifiers (some target.module) o))
    (hconcerns : target.concerns (.exportNamed specifiers (some target.module) o))
    (added : List Stmt) :
    Chunk.Remains f (Function.update met c.id (met c.id ++ [target])) ⟨c.origin,
      if (specifiers.filter (!target.matchesExport ·)).isEmpty then none
      else some (.exportNamed (specifiers.filter (!target.matchesExport ·))
        (some target.module) o), added⟩ := by
  have hpared := h.pared_of_exportNamed hm hf hc hkept
  have hafter : c.origin.pared (met c.id ++ [target])
      = if (specifiers.filter (!target.matchesExport ·)).isEmpty then none
        else some (.exportNamed (specifiers.filter (!target.matchesExport ·))
          (some target.module) o) := by
    rw [Stmt.pared_concat, hpared, Option.bind_some, Stmt.pared_singleton hconcerns]
  change (if _ then none else some _) = Option.map _
    (c.origin.pared (Function.update met c.id (met c.id ++ [target]) c.id))
  rw [Function.update_self, hafter]
  split
  · rfl
  · have hsub : (specifiers.filter (!target.matchesExport ·)) ⊆ specifiers :=
      List.filter_subset_self _
    have hsame := Stmt.mapIds_eq_self (f := f) (.exportNamed
      (specifiers.filter (!target.matchesExport ·)) (some target.module) o) fun i hi =>
        hf.eq_of_uses_eq_nil hm hc (Stmt.uses_of_pared hpared).symm i
          (Stmt.identifiers_of_pared hpared (List.map_subset _ hsub hi))
    rw [Option.map_some, hsame]

end Chunk.Remains

/-- **A bench is between visits**: statements have met targets and are what these left of them, and
the names of the module are steady. -/
structure Bench.Visits (m : Module) (met : Nat → List Target) (b : Bench) : Prop where
  /-- The bench extends the module. -/
  extended : ∃ k, b.Extends m [] k
  /-- Names of the module are steady. -/
  steady : b.draft.Steady m []
  /-- Statements are what targets left of them. -/
  chunks : ∃ cs f, b.draft.Arranged m cs ∧ m.Renames f ∧ ∀ c ∈ cs, c.Remains f met

namespace Bench.Visits

variable {m : Module} {met : Nat → List Target} {b b' : Bench} {stmt : Stmt} {target : Target}

/-- At first no statement has met a target. -/
theorem ofModule (hm : m.Numbered) {path : Option String} {gate : Gate}
    (hgate : Gate.ofPath path = .ok gate) : Bench.Visits m (fun _ => []) ⟨.ofModule m, gate⟩ where
  extended := ⟨0, Bench.extends_ofModule hm hgate⟩
  steady := .ofModule m
  chunks := by
    refine ⟨_, fun i => i, Draft.arranged_ofModule m, .id m, fun c hc => ?_⟩
    obtain ⟨s, -, rfl⟩ := List.mem_map.1 hc
    rw [Chunk.Remains, Stmt.pared_nil_targets, Option.map_some,
      s.mapIds_eq_self fun _ _ => rfl]

theorem inOrder (h : b.Visits m met) : b.draft.InOrder := by
  obtain ⟨k, hk⟩ := h.extended
  exact hk.draft.inOrder

/-- A name is used in a draft when it is used in the module. -/
theorem isUsed_eq (h : b.Visits m met) (hm : m.Numbered) {name : String}
    (hname : m.scope.hasName name) : b.draft.scope.isUsed name = m.scope.isUsed name := by
  rw [Bool.eq_iff_iff, h.steady.isUsed_iff h.inOrder hname, h.steady.used name hname (by simp)]
  exact ((Draft.Steady.ofModule m).isUsed_iff (Draft.inOrder_ofModule hm) hname).symm

/-- A use in a draft is one of the module or was added. -/
theorem use_number (h : b.Visits m met) {c : Chain} {i : Identifier}
    (hu : (c, i) ∈ ScopeEvent.uses b.draft.events) :
    i.origin.id ∈ Identifier.numbers m.uses ∨ m.next ≤ i.origin.id := by
  have hmem := Draft.mem_usesList_of_mem_uses hu
  obtain ⟨cs, f, ha, hf, hremains⟩ := h.chunks
  rw [ha.body, Stmt.usesList_eq_flatMap] at hmem
  obtain ⟨s, hs, hi⟩ := List.mem_flatMap.1 hmem
  obtain ⟨d, hd, hs⟩ := List.mem_flatMap.1 hs
  rcases List.mem_append.1 hs with hs | hs
  · have hkept : d.kept = some s := by simpa using hs
    rw [hremains d hd] at hkept
    obtain ⟨s', hs', rfl⟩ := Option.map_eq_some_iff.1 hkept
    rw [Stmt.uses_mapIds hf.inPlace, Stmt.uses_of_pared hs'] at hi
    obtain ⟨j, hj, rfl⟩ := List.mem_map.1 hi
    have horigin : d.origin ∈ m.body := ha.origins ▸ List.mem_map_of_mem hd
    refine Or.inl ?_
    rw [hf.inPlace, Module.uses, Stmt.usesList_eq_flatMap]
    exact List.mem_map_of_mem (f := fun i : Identifier => i.origin.id)
      (List.mem_flatMap_of_mem horigin hj)
  · exact Or.inr ((ha.added d hd s hs).2 i (s.uses_subset_identifiers hi))

/-- What is left of a statement of the module. -/
theorem current? (h : b.Visits m met) (hm : m.Numbered) (hstmt : stmt ∈ m.body) :
    ∃ front c back f, b.draft.Arranged m (front ++ c :: back) ∧ m.Renames f ∧
      (∀ c' ∈ front ++ c :: back, c'.Remains f met) ∧ c.origin = stmt ∧
      b.draft.current? stmt.origin.id = c.kept := by
  obtain ⟨cs, f, ha, hf, hremains⟩ := h.chunks
  obtain ⟨front, c, back, rfl, rfl⟩ := ha.exists_chunk hstmt
  exact ⟨front, c, back, f, ha, hf, hremains, rfl, ha.current?_eq hm h.inOrder (by simp)⟩

/-- **Binding an imported name** leaves a bench between visits. -/
theorem bindImported (h : b.Visits m met) (hm : m.Numbered) {s : ImportSpecifier}
    (hs : m.Imports stmt s) {bound : Bool}
    (hgives : (Drafting.bindImported stmt target s.binding.name).Gives b bound b') :
    b'.Visits m met ∧ bound = m.scope.isUsed s.binding.name := by
  obtain ⟨k, hk⟩ := h.extended
  have hused := h.isUsed_eq hm hs.hasName
  cases bound with
  | false =>
    rcases Drafting.gives_bindImported hgives with
      ⟨hunused, -, rfl⟩ | ⟨_, _, _, _, _, _, _, hfalse, _⟩
    · refine ⟨h, ?_⟩
      rw [← hused, Scope.isUsed, eq_comm, Option.any_eq_false]
      intro binding hbinding
      simp [hunused binding hbinding]
    · cases hfalse
  | true =>
    obtain ⟨hsteady, -⟩ := hk.steady_bindImported h.steady hs.hasName hgives
    obtain ⟨front, c, back, f, ha, hf, hremains, rfl, -⟩ := h.current? hm hs.1
    obtain ⟨hstmt, specifiers, source, o, horigin, -⟩ := hs
    have hkept := (hremains c (by simp)).kept_of_importDecl hm hf hstmt horigin
    obtain ⟨binding, constant, messages, hbinding, hne, -, -, ha'⟩ :=
      hk.arranged_bindImported hm ha (by rw [hkept]; rfl) rfl hgives
    obtain ⟨hmem, -⟩ := Draft.mem_bindings_of_moduleBinding? hbinding
    have hnumbers : ∀ i ∈ binding.uses,
        i.origin.id ∈ Identifier.numbers m.uses ∨ m.next ≤ i.origin.id := by
      intro i hi
      obtain ⟨c, hu⟩ := h.inOrder.exists_use hmem hi
      exact h.use_number hu
    have hf' := hf.renamedAll hm hnumbers constant
    refine ⟨⟨⟨_, hk.bindImported hgives⟩, hsteady, _, _, ha', hf', ?_⟩, ?_⟩
    · -- the constant stands behind what is left of the import, and is no part of it
      exact ha.forall_change_mapIds hm ((hremains c (by simp)).mapIds _) fun x hx _ =>
        (hremains x hx).mapIds _
    · rw [← hused, Scope.isUsed, hbinding]
      simpa using hne

/-- Binding imported names leaves a bench between visits and counts those that are used. -/
theorem bindAll (h : b.Visits m met) (hm : m.Numbered) {specifiers : List ImportSpecifier}
    (hs : ∀ s ∈ specifiers, m.Imports stmt s) {n : Nat}
    (hgives : (Drafting.bindAll stmt target specifiers).Gives b n b') :
    b'.Visits m met ∧ n = (specifiers.filter (m.scope.isUsed ·.binding.name)).length := by
  refine Drafting.bindAll_induction (P := fun front n b => b.Visits m met ∧
    n = (front.filter (m.scope.isUsed ·.binding.name)).length) hgives ⟨h, rfl⟩ ?_
  rintro front s back _ b₁ _ b₂ rfl ⟨h, rfl⟩ hbound
  obtain ⟨h₁, rfl⟩ := h.bindImported hm (hs s (by simp)) hbound
  refine ⟨h₁, ?_⟩
  rw [List.filter_append, List.length_append, List.filter_singleton]
  cases m.scope.isUsed s.binding.name <;> rfl

/-- Names of a re-export that a target takes make the others remain. -/
theorem moveMatching (h : b.Visits m met) (hm : m.Numbered) (hstmt : stmt ∈ m.body)
    {specifiers : List ExportSpecifier} {o : Origin} {n : Nat}
    (hcurrent : b.draft.current? stmt.origin.id
      = some (.exportNamed specifiers (some target.module) o))
    (hconcerns : target.concerns (.exportNamed specifiers (some target.module) o))
    (hgives : (Drafting.moveMatching target specifiers (some target.module) o).Gives b n b') :
    b'.Visits m (Function.update met stmt.origin.id (met stmt.origin.id ++ [target])) := by
  obtain ⟨k, hk⟩ := h.extended
  obtain ⟨front, c, back, f, ha, hf, hremains, rfl, hkept⟩ := h.current? hm hstmt
  rw [hcurrent] at hkept
  have hid : o.id = c.id := ha.kept c (by simp) _ hkept.symm
  obtain ⟨rs, messages, -, -, -, ha'⟩ := hk.arranged_moveMatching hm ha hkept.symm hgives
  have hsteady := hk.steady_moveMatching h.steady (by rw [hid]; exact hcurrent) hgives
  exact ⟨⟨_, hk.moveMatching (by rw [hid]; exact hcurrent) hgives⟩, hsteady, _, f, ha', hf,
    ha.forall_change hm ((hremains c (by simp)).pare hm hf hstmt hkept.symm hconcerns _)
      fun x hx hne => (hremains x hx).of_ne hne _⟩

/-- Meeting a target that leaves everything as it is. -/
theorem meet (h : b.Visits m met) (hm : m.Numbered) (hstmt : stmt ∈ m.body)
    (hleft : (stmt.pared (met stmt.origin.id)).bind (Stmt.pared [target])
      = stmt.pared (met stmt.origin.id)) :
    b.Visits m (Function.update met stmt.origin.id (met stmt.origin.id ++ [target])) where
  extended := h.extended
  steady := h.steady
  chunks := by
    obtain ⟨front, c, back, f, ha, hf, hremains, rfl, -⟩ := h.current? hm hstmt
    refine ⟨_, f, ha, hf, fun c' hc' => ?_⟩
    by_cases hsame : c'.id = c.origin.origin.id
    · obtain rfl : c' = c := List.inj_on_of_nodup_map (ha.nodup_ids hm) hc' (by simp) hsame
      exact (hremains c' hc').meet hleft
    · exact (hremains c' hc').of_ne hsame _

/-- **A visit**: the statement has met one more target, and the names that were bound are those that
are used. -/
theorem bindStmt (h : b.Visits m met) (hm : m.Numbered) (hstmt : stmt ∈ m.body) {c : BoundCounts}
    (hgives : (Drafting.bindStmt stmt.origin.id target).Gives b c b') :
    b'.Visits m (Function.update met stmt.origin.id (met stmt.origin.id ++ [target])) ∧
      c.imports = ((target.specifiers stmt).filter (m.scope.isUsed ·.binding.name)).length := by
  obtain ⟨front, chunk, back, f, ha, hf, hremains, rfl, hkept⟩ := h.current? hm hstmt
  have hremain := hremains chunk (by simp)
  rcases Drafting.gives_bindStmt hgives with ⟨specifiers, source, o, hcurrent, hconcerns, -, hall⟩ |
    ⟨specifiers, o, hcurrent, hconcerns, hzero, hmove⟩ | ⟨hnone, rfl, rfl⟩
  · have horigin := hremain.origin_of_importDecl hm hf hstmt (hkept.symm.trans hcurrent)
    have himports := fun s hs =>
      Target.imports_of_mem_specifiers (t := target) (s := s) hstmt hs
    rw [horigin] at himports ⊢
    rw [Target.specifiers_of_concerns hconcerns] at himports ⊢
    obtain ⟨h', hcount⟩ := h.bindAll hm (horigin ▸ himports) hall
    exact ⟨horigin ▸ h'.meet hm hstmt (by rw [horigin]; rfl), hcount⟩
  · refine ⟨h.moveMatching hm hstmt hcurrent hconcerns hmove, ?_⟩
    rw [Target.specifiers_of_ne (hremain.origin_ne_importDecl hm hf hstmt (hkept ▸ hcurrent)),
      hzero]
    rfl
  · have hidle := fun s hs => hnone s (hkept.trans hs)
    refine ⟨h.meet hm hstmt (hremain.pared_idle hm hf hstmt hidle), ?_⟩
    rw [hremain.specifiers_idle hm hf hstmt hidle]
    rfl

end Bench.Visits

end MessageBinder
