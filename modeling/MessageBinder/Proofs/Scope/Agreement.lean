import MessageBinder.Proofs.Grammar.Completeness
import MessageBinder.Proofs.Grammar.Numbering

/-!
# Scopes kept up and scopes built afresh

A scope is built from a module once and then kept up while the module changes: uses are renamed, one
at a time and to any name, and new statements are put in and registered, in any order and number
(`MessageBinder.Module.KeptUp`). It never has to be built again: after every change it agrees with
the scope that would be built from the module as it is then
(`MessageBinder.Module.agrees_of_keptUp`).

What carries the induction is that both scopes record the events of the same module. The one kept up
may hold its uses and bindings in another order, and it has kept the names that were renamed away.
-/

namespace MessageBinder

namespace Scope

/-- **A scope agrees with a module**: it says of every use what the scope built from the module
says, has every use in one place, and has taken every name that the other one has. -/
structure Agrees (s : Scope) (m : Module) : Prop where
  /-- A use has the same binding in both, up to the uses listed with it, or none in either. -/
  binding : ∀ id ∈ m.uses, (s.bindingOf? id.origin.id).map Binding.bare
    = (m.scope.bindingOf? id.origin.id).map Binding.bare
  /-- A use is declared by the same identifier in both. -/
  identifier : ∀ id ∈ m.uses, (s.bindingOf? id.origin.id).map Binding.identifier
    = (m.scope.bindingOf? id.origin.id).map Binding.identifier
  /-- Every use is in one place. -/
  listed : ∀ id ∈ m.uses, s.ListedOnce id
  /-- Taken names are taken. -/
  taken : ∀ name, m.scope.hasName name → s.hasName name

/-- A scope that records the events of a module agrees with it. -/
theorem Records.agrees {s : Scope} {m : Module} (h : s.Records (Stmt.moduleEvents m.body))
    (hd : Stmt.Distinct m.body) : s.Agrees m := by
  have hfresh := Module.records_scope hd
  have hbinding : ∀ id ∈ m.uses, (s.bindingOf? id.origin.id).map Binding.bare
      = (m.scope.bindingOf? id.origin.id).map Binding.bare := by
    intro id hid
    obtain ⟨c, hu⟩ := Stmt.exists_mem_uses hid
    rw [h.bindingOf? hu, hfresh.bindingOf? hu]
  refine ⟨hbinding, fun id hid => ?_, fun id hid => ?_, fun name hname => ?_⟩
  · have := congrArg (Option.map Binding.identifier) (hbinding id hid)
    simpa only [Option.map_map, Function.comp_def, Binding.bare_identifier] using this
  · obtain ⟨c, hu⟩ := Stmt.exists_mem_uses hid
    exact h.listedOnce hu
  · rcases (hasName_steps {} m.events name).1 hname with hc | hmem
    · simp [hasName] at hc
    · exact h.taken name hmem

end Scope

namespace Module

/-- The changes of a module and of the scope that was built from it at the start. -/
inductive KeptUp (m : Module) : Module → Scope → Prop
  /-- At the start. -/
  | start : KeptUp m m m.scope
  /-- A use gets a name, which need not be new. -/
  | rename {m' : Module} {s : Scope} {id : Identifier} (h : KeptUp m m' s) (hid : id ∈ m'.uses)
      (name : String) : KeptUp m (m'.rename id.origin.id name) (s.rename id name)
  /-- A statement made of new nodes, whose names the module does not declare, is put between two
  others and registered. -/
  | register {m' : Module} {s : Scope} {stmt : Stmt} {front back : List Stmt} (h : KeptUp m m' s)
      (hbody : m'.body = front ++ back) (hnodes : Stmt.Distinct (stmt :: m'.body))
      (hnames : ∀ name ∈ ScopeEvent.names (stmt.declares [.module]), s.moduleBinding? name = none) :
      KeptUp m { m' with body := front ++ stmt :: back } (s.register stmt)

/-- **The invariant of every change**: the identifiers and frames of the module stay distinct, and
the scope records its events. -/
theorem KeptUp.distinct_records {m m' : Module} {s : Scope} (hm : Stmt.Distinct m.body)
    (h : KeptUp m m' s) :
    Stmt.Distinct m'.body ∧ s.Records (Stmt.moduleEvents m'.body) := by
  induction h with
  | start => exact ⟨hm, records_scope hm⟩
  | @rename m' s id _ hid name ih =>
    obtain ⟨hd, hrec⟩ := ih
    refine ⟨hd.mapIds (Identifier.renamed_inPlace id.origin.id name), ?_⟩
    obtain ⟨c, hu⟩ := Stmt.exists_mem_uses hid
    have hevents : Stmt.moduleEvents (m'.rename id.origin.id name).body = _ :=
      events_rename m' id.origin.id name
    rw [hevents]
    exact hrec.rename hu (hd.number_notMem_others hid) name
  | register _ hbody hnodes hnames ih =>
    obtain ⟨-, hrec⟩ := ih
    rw [hbody] at hrec hnodes
    exact ⟨hnodes.perm List.perm_middle.symm, hrec.insert hnodes hnames⟩

/-- **A scope kept up agrees with one built afresh**: after any number of renamings and
registrations that started from a module as it was read. -/
theorem agrees_of_keptUp [CharacterNames] {text : String} {filename : Option String} {base : Nat}
    {m m' : Module} {s : Scope} (hparse : Module.parse text filename base = .ok m)
    (h : KeptUp m m' s) : s.Agrees m' := by
  obtain ⟨hd, hrec⟩ := h.distinct_records (numbered_of_parse hparse).distinct
  exact hrec.agrees hd

section

attribute [local instance] CharacterNames.nameless

/-- In `f; g;` the name `f` is renamed to `g`, and a late `const g` adopts both uses. -/
theorem agrees_of_keptUp_adopted :
    (((Scope.steps {} [.use [.module] ⟨"f", ⟨0, 1, 1⟩⟩, .use [.module] ⟨"g", ⟨3, 1, 4⟩⟩]).rename
        ⟨"f", ⟨0, 1, 1⟩⟩ "g").register
      (.declaration (.variables .const [⟨⟨"g", ⟨8, 0, 0⟩⟩, none, ⟨8, 0, 0⟩⟩] ⟨7, 0, 0⟩))).Agrees
      ⟨[.expr (.name ⟨"g", ⟨0, 1, 1⟩⟩) ⟨0, 1, 1⟩,
        .declaration (.variables .const [⟨⟨"g", ⟨8, 0, 0⟩⟩, none, ⟨8, 0, 0⟩⟩] ⟨7, 0, 0⟩),
        .expr (.name ⟨"g", ⟨3, 1, 4⟩⟩) ⟨3, 1, 4⟩], none, 6⟩ := by
  have hparse : Module.parse "f; g;" none 0 = .ok ⟨[.expr (.name ⟨"f", ⟨0, 1, 1⟩⟩) ⟨0, 1, 1⟩,
      .expr (.name ⟨"g", ⟨3, 1, 4⟩⟩) ⟨3, 1, 4⟩], none, 6⟩ := by
    have htokens : (Tokens.ofText "f; g;" 0).terminate.stop = none ∧
        (Tokens.ofText "f; g;" 0).terminate.tokens =
          [⟨.name, "f", ⟨0, 1, 1⟩⟩, ⟨.terminator, ";", ⟨1, 1, 2⟩⟩, ⟨.name, "g", ⟨3, 1, 4⟩⟩,
            ⟨.terminator, ";", ⟨4, 1, 5⟩⟩] := by
      decide +kernel
    have hstmt : ∀ t fin : Token, t.kind = .name → fin.kind = .terminator →
        Derives (.stmt (.expr (.name t.identifier) t.origin)) [t, fin] := fun t fin ht hfin =>
      .exprStatement hfin (.ofPrimary (.name (by rw [ht]; rfl)))
    have hbody : Derives (.body [.expr (.name ⟨"f", ⟨0, 1, 1⟩⟩) ⟨0, 1, 1⟩,
        .expr (.name ⟨"g", ⟨3, 1, 4⟩⟩) ⟨3, 1, 4⟩]) (Tokens.ofText "f; g;" 0).terminate.tokens := by
      rw [htokens.2]
      exact .stmts (hstmt ⟨.name, "f", ⟨0, 1, 1⟩⟩ ⟨.terminator, ";", ⟨1, 1, 2⟩⟩ rfl rfl)
        (.stmts (hstmt ⟨.name, "g", ⟨3, 1, 4⟩⟩ ⟨.terminator, ";", ⟨4, 1, 5⟩⟩ rfl rfl) .noStmts)
    rw [Module.parse, readTokens_eq_ok_iff.2 ⟨htokens.1, hbody⟩]
    rfl
  have hrename := KeptUp.start.rename (show (⟨"f", ⟨0, 1, 1⟩⟩ : Identifier) ∈ Module.uses
    ⟨[.expr (.name ⟨"f", ⟨0, 1, 1⟩⟩) ⟨0, 1, 1⟩, .expr (.name ⟨"g", ⟨3, 1, 4⟩⟩) ⟨3, 1, 4⟩],
      none, 6⟩ by decide) "g"
  have hbody : Stmt.mapIdsList (Identifier.renamed 0 "g")
      [.expr (.name ⟨"f", ⟨0, 1, 1⟩⟩) ⟨0, 1, 1⟩, .expr (.name ⟨"g", ⟨3, 1, 4⟩⟩) ⟨3, 1, 4⟩]
      = [.expr (.name ⟨"g", ⟨0, 1, 1⟩⟩) ⟨0, 1, 1⟩] ++ [.expr (.name ⟨"g", ⟨3, 1, 4⟩⟩) ⟨3, 1, 4⟩] :=
    rfl
  exact agrees_of_keptUp hparse (hrename.register hbody ⟨by decide, by decide⟩ (by decide))

end

end Module

end MessageBinder
