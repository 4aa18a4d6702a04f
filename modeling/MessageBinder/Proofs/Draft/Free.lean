import MessageBinder.Proofs.Draft.Edits

/-!
# Free names

A use is free if its name means nothing where it stands. A pass neither frees a use nor captures
one: the uses that are free in a module are free when the pass is over, under the names that they
had, and no others are (`MessageBinder.Module.perm_unresolved_of_bindMessages`). It does not matter
whether targets are repeated or names are declared more than once.

In between it is otherwise. A use that was renamed is free until the constant is put in that
declares its new name, and a use of the messages is free until the gate is closed. These names are
all pending, and what the edits keep is that the free uses *but those of pending names* are the ones
of the module (`MessageBinder.Draft.FreeAlike`).
-/

namespace MessageBinder

/-- The uses among events whose names mean nothing where they stand. -/
def ScopeEvent.free (E : List ScopeEvent) : List Identifier :=
  ((ScopeEvent.uses E).filter fun u =>
    (Binding.resolve? (ScopeEvent.bindings E) u.1 u.2.name).isNone).map (·.2)

/-- A scope that records events lists the free uses among them as those without a binding. -/
theorem Scope.Records.perm_unresolved {s : Scope} {E : List ScopeEvent} (h : s.Records E) :
    s.unresolved.Perm (ScopeEvent.free E) := by
  have hlinked : UseEntry.linkedTo none (UseEntry.current (ScopeEvent.bindings E)
      (ScopeEvent.uses E)) = ScopeEvent.free E := by
    rw [UseEntry.linkedTo, UseEntry.current, ScopeEvent.free, List.filter_map, List.map_map]
    refine congrArg _ (List.filter_congr fun u _ => ?_)
    rw [Function.comp_apply, UseEntry.ofUse]
    cases Binding.resolve? (ScopeEvent.bindings E) u.1 u.2.name <;> rfl
  exact hlinked ▸ h.keeps.unresolved

namespace Draft

/-- The free uses of a draft whose names are not pending. -/
def settledFree (pending : List String) (d : Draft) : List Identifier :=
  (ScopeEvent.free d.events).filter (·.name ∉ pending)

/-- **A draft is free alike** with a module if the free uses of both are the same, but for those of
pending names. -/
def FreeAlike (m : Module) (pending : List String) (d : Draft) : Prop :=
  (d.settledFree pending).Perm (ScopeEvent.free m.events)

variable {m : Module} {pending rest : List String} {d : Draft} {front back : List Stmt}
  {stmt : Stmt} {c : Chain} {name : String}

theorem settledFree_eq (pending : List String) (d : Draft) :
    d.settledFree pending = ((ScopeEvent.uses d.events).filter fun u =>
      (Binding.resolve? (ScopeEvent.bindings d.events) u.1 u.2.name).isNone &&
        u.2.name ∉ pending).map (·.2) := by
  rw [settledFree, ScopeEvent.free, List.filter_map, List.filter_filter]
  exact congrArg _ (List.filter_congr fun u _ => Bool.and_comm _ _)

/-- A name that is declared by the module of a draft means something in every chain that ends with
it. -/
theorem Declares.isSome_resolve? (h : d.Declares name) (hc : .module ∈ c) :
    (Binding.resolve? (ScopeEvent.bindings d.events) c name).isSome := by
  obtain ⟨b, hb, hkey⟩ := h
  by_contra hnone
  rw [Bool.not_eq_true, Option.isSome_eq_false_iff, Option.isNone_iff_eq_none] at hnone
  exact Binding.first?_eq_none_iff.1 (Binding.resolve?_eq_none_iff.1 hnone .module hc) b hb hkey

/-- **What a further statement leaves without a meaning**: what had none and is not declared by
it. -/
theorem InOrder.isNone_resolve?_inserted (h : d.InOrder) (tails : List (Nat × Stmt))
    (hbody : d.sequence.body = front ++ back) (hadded : stmt.AddedAt d.next)
    (hnew : ∀ b ∈ ScopeEvent.bindings (Stmt.moduleEvents [stmt]), d.Undeclared b.name)
    (hc : .module ∈ c) (name : String) :
    (Binding.resolve? (ScopeEvent.bindings (d.inserted front stmt back tails).events) c
        name).isNone ↔
      (Binding.resolve? (ScopeEvent.bindings d.events) c name).isNone ∧
        name ∉ (ScopeEvent.bindings (Stmt.moduleEvents [stmt])).map Binding.name := by
  simp only [Option.isNone_iff_eq_none, Binding.resolve?_eq_none_iff,
    h.first?_inserted hbody hadded hnew, Option.or_eq_none_iff]
  constructor
  · refine fun hall => ⟨fun frame hframe => (hall frame hframe).1, fun hname => ?_⟩
    obtain ⟨b, hb, rfl⟩ := List.mem_map.1 hname
    exact Binding.first?_eq_none_iff.1 (hall .module hc).2 b hb
      (Prod.ext (hadded.bindings b hb).1 rfl)
  · rintro ⟨hall, hname⟩ frame hframe
    refine ⟨hall frame hframe, Binding.first?_eq_none_iff.2 fun b hb hkey => hname ?_⟩
    exact List.mem_map.2 ⟨b, hb, congrArg Prod.snd hkey⟩

/-- A use that a binding lists means something. -/
theorem InOrder.isSome_resolve?_of_mem_numbers (h : d.InOrder) {binding : Binding}
    (hmem : binding ∈ d.scope.bindings) {u : Chain × Identifier}
    (hu : u ∈ ScopeEvent.uses d.events)
    (hnumber : u.2.origin.id ∈ Identifier.numbers binding.uses) :
    (Binding.resolve? (ScopeEvent.bindings d.events) u.1 u.2.name).isSome := by
  rw [← Option.isSome_map (f := Binding.key), (h.mem_numbers_iff hmem hu).1 hnumber]
  rfl

/-- Drawing a name touches no use, since none has it. -/
theorem FreeAlike.draw (h : d.FreeAlike m pending) (hd : d.InOrder) (base : String) :
    FreeAlike m (d.scope.unusedName base :: pending)
      { d with scope := d.scope.reserve (d.scope.unusedName base) } := by
  refine (List.Perm.of_eq ?_).trans h
  refine List.filter_congr fun id hid => ?_
  obtain ⟨u, hu, rfl⟩ := List.mem_map.1 hid
  have htaken := hd.records.taken _
    (ScopeEvent.name_mem_names_of_mem_uses (List.mem_of_mem_filter hu))
  have hne : u.2.name ≠ d.scope.unusedName base := fun heq => by
    rw [heq, d.scope.hasName_unusedName] at htaken
    cases htaken
  simp [hne]

/-- Renaming the uses of a binding renames none that is free, and what is renamed waits for its new
name to be declared. -/
theorem FreeAlike.renameUses (h : d.FreeAlike m pending) (hd : d.InOrder)
    {binding : Binding} (hbinding : d.scope.moduleBinding? name = some binding) {constant : String}
    (hconstant : constant ∈ pending) :
    (d.renameUses constant binding.uses).FreeAlike m pending := by
  obtain ⟨hmem, -⟩ := mem_bindings_of_moduleBinding? hbinding
  refine (List.Perm.of_eq ?_).trans h
  rw [settledFree_eq, settledFree_eq, hd.bindings_renameUses_uses hmem constant,
    uses_renameUses, List.filter_map, List.map_map]
  have hkept : (ScopeEvent.uses d.events).filter
      ((fun u => (Binding.resolve? (ScopeEvent.bindings d.events) u.1 u.2.name).isNone &&
        decide (u.2.name ∉ pending)) ∘ fun u =>
          if u.2.origin.id ∈ Identifier.numbers binding.uses then
            (u.1, { u.2 with name := constant })
          else u)
      = (ScopeEvent.uses d.events).filter fun u =>
          (Binding.resolve? (ScopeEvent.bindings d.events) u.1 u.2.name).isNone &&
            decide (u.2.name ∉ pending) := by
    refine List.filter_congr fun u hu => ?_
    rw [Function.comp_apply]
    split
    · rename_i hnumber
      -- Under its old name the use means the binding, and its new name is pending.
      have hsome := hd.isSome_resolve?_of_mem_numbers hmem hu hnumber
      simp [hconstant, Option.isNone_eq_false_iff.2 hsome]
    · rfl
  rw [hkept]
  refine List.map_congr_left fun u hu => ?_
  obtain ⟨hu, hfree⟩ := List.mem_filter.1 hu
  rw [Function.comp_apply, if_neg]
  intro hnumber
  have hsome := hd.isSome_resolve?_of_mem_numbers hmem hu hnumber
  simp [Option.isNone_eq_false_iff.2 hsome] at hfree

/-- **A further statement** takes in the uses that waited for what it declares. -/
theorem FreeAlike.insert (h : d.FreeAlike m pending) (hext : d.Extends m pending)
    (tails : List (Nat × Stmt)) (hbody : d.sequence.body = front ++ back)
    (hadded : stmt.AddedAt d.next)
    (hpending : pending.Perm
      ((ScopeEvent.bindings (Stmt.moduleEvents [stmt])).map Binding.name ++ rest))
    (hused : ∀ u ∈ ScopeEvent.uses (Stmt.moduleEvents [stmt]),
      u.1 = [.module] ∧ (u.2.name ∈ rest ∨ d.Declares u.2.name)) :
    (d.inserted front stmt back tails).FreeAlike m rest := by
  have hnew : ∀ b ∈ ScopeEvent.bindings (Stmt.moduleEvents [stmt]), d.Undeclared b.name :=
    fun b hb => hext.undeclared
      (hpending.mem_iff.2 (List.mem_append_left _ (List.mem_map_of_mem hb)))
  refine List.Perm.trans ?_ h
  rw [settledFree_eq, settledFree_eq]
  refine (((perm_uses_inserted hbody).filter _).map _).trans (List.Perm.of_eq ?_)
  -- What it uses itself is declared, or pending still.
  have hadds : (ScopeEvent.uses (Stmt.moduleEvents [stmt])).filter (fun u =>
      (Binding.resolve? (ScopeEvent.bindings (d.inserted front stmt back tails).events) u.1
        u.2.name).isNone && decide (u.2.name ∉ rest)) = [] := by
    refine List.filter_eq_nil_iff.2 fun u hu => ?_
    obtain ⟨hchain, hrest | hdeclares⟩ := hused u hu
    · simp [hrest]
    · have hthere : (d.inserted front stmt back tails).Declares u.2.name :=
        hdeclares.inserted tails hbody
      have hsome := hthere.isSome_resolve? (c := u.1) (by simp [hchain])
      simp [Option.isNone_eq_false_iff.2 hsome]
  rw [List.filter_append, hadds, List.append_nil]
  refine congrArg _ (List.filter_congr fun u hu => ?_)
  obtain ⟨pre, hpre, -⟩ := Stmt.chain_of_mem_uses hu
  have hmodule : .module ∈ u.1 := by simp [hpre]
  have hiff := hext.inOrder.isNone_resolve?_inserted tails hbody hadded hnew hmodule u.2.name
  rw [Bool.eq_iff_iff]
  simp only [Bool.and_eq_true, decide_eq_true_eq, hiff, hpending.mem_iff, List.mem_append, not_or,
    and_assoc]

/-- **Every edit of a pass keeps the free uses.** -/
theorem kept_freeAlike (m : Module) : Kept m (FreeAlike m) where
  perm h hp := by
    refine (List.Perm.of_eq (List.filter_congr fun id _ => ?_)).trans h
    rw [decide_eq_decide, hp.mem_iff]
  draw base hext h := h.draw hext.inOrder base
  renameUses hext h hname hbinding := h.renameUses hext.inOrder hbinding hname
  insert tails hext h hbody hadded hpending hused :=
    h.insert hext tails hbody hadded hpending hused
  pare {pending d front old new back} _ h hbody hpared := by
    have hevents : events { d with sequence := { d.sequence with body := front ++ new ++ back } }
        = d.events := events_pare hbody hpared
    rw [FreeAlike, settledFree, hevents]
    exact h

end Draft

namespace Module

/-- **A pass frees no use and captures none**: when it is over, the uses without a binding are those
that the module as it was read has, under the same names, both in the scope that was kept up and in
the scope of the module that came of it. -/
theorem perm_unresolved_of_bindMessages [CharacterNames] {text : String} {filename : Option String}
    {base : Nat} {m : Module} {targets : List Target} {catalogues : CatalogueSource}
    {path : Option String} {r : BoundModule} (hparse : parse text filename base = .ok m)
    (hrun : (m.bindMessages targets catalogues path).run.1 = .ok r) :
    r.draft.scope.unresolved.Perm m.scope.unresolved ∧
      r.draft.toModule.scope.unresolved.Perm m.scope.unresolved := by
  have hm := numbered_of_parse hparse
  have hstart : Draft.FreeAlike m [] (.ofModule m) := by
    simp [Draft.FreeAlike, Draft.settledFree]
    rfl
  obtain ⟨hextends, halike⟩ := (Draft.kept_freeAlike m).bindMessages hm hstart hrun
  have hfree : (ScopeEvent.free r.draft.events).Perm m.scope.unresolved := by
    have hall : r.draft.settledFree [] = ScopeEvent.free r.draft.events := by
      simp [Draft.settledFree]
    rw [Draft.FreeAlike, hall] at halike
    exact halike.trans (records_scope hm.distinct).perm_unresolved.symm
  refine ⟨hextends.inOrder.records.perm_unresolved.trans hfree, ?_⟩
  exact (records_scope hextends.inOrder.numbered.distinct).perm_unresolved.trans hfree

section

attribute [local instance] CharacterNames.nameless

/-- In `import { f } from "m"; f(x); export { f as g } from "m"; y` the free uses `x` and `y` are
free after the pass, and no other use is, although the target is given twice. -/
theorem perm_unresolved_of_bindMessages_repeated : ∃ m r,
    parse "import { f } from \"m\"; f(x); export { f as g } from \"m\"; y" none 0 = .ok m ∧
      (m.bindMessages [⟨"f", "m"⟩, ⟨"f", "m"⟩]
        ⟨⟨[], ⟨.relative, []⟩⟩, "properties", fun _ => .ok [], none⟩ (some "a.js")).run.1 = .ok r ∧
      m.scope.unresolved.map Identifier.name = ["x", "y"] ∧
      r.draft.scope.unresolved.Perm m.scope.unresolved ∧
      r.draft.toModule.scope.unresolved.Perm m.scope.unresolved := by
  have hruns : ((parse "import { f } from \"m\"; f(x); export { f as g } from \"m\"; y" none
      0).toOption.bind fun m => (m.bindMessages [⟨"f", "m"⟩, ⟨"f", "m"⟩]
        ⟨⟨[], ⟨.relative, []⟩⟩, "properties", fun _ => .ok [], none⟩
        (some "a.js")).run.1.toOption.filter fun _ =>
          m.scope.unresolved.map Identifier.name = ["x", "y"]).isSome := by
    decide +kernel
  obtain ⟨r, hr⟩ := Option.isSome_iff_exists.1 hruns
  obtain ⟨m, hm, hr⟩ := Option.bind_eq_some_iff.1 hr
  obtain ⟨hr, hnames⟩ := Option.filter_eq_some_iff.1 hr
  have hparse := Except.eq_ok_of_toOption hm
  have hrun := Except.eq_ok_of_toOption hr
  exact ⟨m, r, hparse, hrun, of_decide_eq_true hnames, perm_unresolved_of_bindMessages hparse hrun⟩

end

end Module

end MessageBinder
