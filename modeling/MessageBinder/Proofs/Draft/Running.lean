import MessageBinder.Draft.Pass

/-!
# What a pass gives

A pass over a module loads catalogues, may fail, and changes a draft with its gate. Of a run that
does not fail only the value and the bench afterwards matter (`MessageBinder.Drafting.Gives`), and
the lemmas here say of each operation what these are, without the monad. Whatever a pass says of
its steps goes through them.

The loops of a pass go over lists and count. What is said of a loop is said of the rounds that are
over (`MessageBinder.Drafting.loop_induction`), so that a property of a pass is a property of its
rounds and no loop is taken apart twice.
-/

namespace MessageBinder

/-! ### Computations that load -/

namespace Loads

variable {α β : Type}

/-- A computation that loads gives a value if it may end with it. -/
def Gives (x : Loads α) (a : α) : Prop := ∃ log log', StateT.run (ExceptT.run x) log = (.ok a, log')

theorem run_bind (x : Loads α) (f : α → Loads β) (log : List String) :
    StateT.run (ExceptT.run (x >>= f)) log = match StateT.run (ExceptT.run x) log with
      | (.ok a, log') => StateT.run (ExceptT.run (f a)) log'
      | (.error e, log') => (.error e, log') := by
  unfold ExceptT.run StateT.run
  simp only [bind, ExceptT.bind, ExceptT.mk, StateT.bind, ExceptT.bindCont]
  cases x log with
  | mk r log' => cases r <;> rfl

theorem gives_bind {x : Loads α} {f : α → Loads β} {c : β} (h : (x >>= f).Gives c) :
    ∃ a, x.Gives a ∧ (f a).Gives c := by
  obtain ⟨log, log', hrun⟩ := h
  rw [run_bind] at hrun
  cases hx : StateT.run (ExceptT.run x) log with
  | mk r log₁ =>
    rw [hx] at hrun
    cases r with
    | error e => cases hrun
    | ok a => exact ⟨a, ⟨log, log₁, hx⟩, log₁, log', hrun⟩

theorem gives_pure {a a' : α} (h : (pure a : Loads α).Gives a') : a' = a := by
  obtain ⟨log, log', hrun⟩ := h
  cases hrun
  rfl

theorem gives_ofExcept {r : Except Failure α} {a : α} (h : (ofExcept r).Gives a) : r = .ok a := by
  obtain ⟨log, log', hrun⟩ := h
  cases r with
  | error e => cases hrun
  | ok a' =>
    cases hrun
    rfl

end Loads

/-! ### Computations on a bench -/

namespace Drafting

variable {α β : Type} {b b' : Bench}

/-- **A computation gives** a value and a bench if it may end with them. -/
def Gives (x : Drafting α) (b : Bench) (a : α) (b' : Bench) : Prop :=
  Loads.Gives (StateT.run x b) (a, b')

theorem gives_bind {x : Drafting α} {f : α → Drafting β} {c : β}
    (h : (x >>= f).Gives b c b') : ∃ a b₁, x.Gives b a b₁ ∧ (f a).Gives b₁ c b' := by
  obtain ⟨⟨a, b₁⟩, hx, hf⟩ := Loads.gives_bind h
  exact ⟨a, b₁, hx, hf⟩

theorem gives_pure {a a' : α} (h : (pure a : Drafting α).Gives b a' b') : a' = a ∧ b' = b := by
  obtain ⟨rfl, rfl⟩ := Prod.mk.inj (Loads.gives_pure h)
  exact ⟨rfl, rfl⟩

theorem gives_get {a : Bench} (h : (get : Drafting Bench).Gives b a b') : a = b ∧ b' = b :=
  Prod.mk.inj (Loads.gives_pure h)

theorem gives_modify {f : Bench → Bench} {u : Unit}
    (h : (modify f : Drafting Unit).Gives b u b') : b' = f b :=
  (Prod.mk.inj (Loads.gives_pure h)).2

theorem gives_modifyGet {f : Bench → α × Bench} {a : α}
    (h : (modifyGet f : Drafting α).Gives b a b') : f b = (a, b') :=
  (Loads.gives_pure h).symm

theorem gives_liftM {x : Loads α} {a : α} (h : (liftM x : Drafting α).Gives b a b') :
    x.Gives a ∧ b' = b := by
  obtain ⟨a', hx, hpure⟩ := Loads.gives_bind (f := fun a => pure (a, b)) h
  obtain ⟨rfl, rfl⟩ := Prod.mk.inj (Loads.gives_pure hpure)
  exact ⟨hx, rfl⟩

/-- An edit gives the draft edited. -/
theorem gives_edit {f : Draft → Except AbsentStmt Draft} {u : Unit}
    (h : (edit f).Gives b u b') : ∃ d, f b.draft = .ok d ∧ b' = { b with draft := d } := by
  obtain ⟨a, b₁, hget, hrest⟩ := gives_bind h
  obtain ⟨rfl, rfl⟩ := gives_get hget
  cases hf : f b₁.draft with
  | error e =>
    rw [hf] at hrest
    obtain ⟨log, log', hrun⟩ := hrest
    cases hrun
  | ok d =>
    rw [hf] at hrest
    exact ⟨d, rfl, (Prod.mk.inj (Loads.gives_pure hrest)).2⟩

/-- A fresh name is one that the scope has not taken, and it takes it. -/
theorem gives_freshName {seed name : String} (h : (freshName seed).Gives b name b') :
    name = b.draft.scope.unusedName (FreshName.base seed) ∧
      b' = { b with draft := { b.draft with scope := b.draft.scope.reserve name } } := by
  obtain ⟨rfl, rfl⟩ := Prod.mk.inj (gives_modifyGet h)
  exact ⟨rfl, rfl⟩

end Drafting

/-! ### The gate -/

namespace Gate

variable {b b' : Bench}

/-- A new gate has no variable and no requests. -/
theorem ofPath_eq_ok {path : Option String} {gate : Gate} (h : ofPath path = .ok gate) :
    gate.variableName = none ∧ gate.requests = 0 := by
  cases path with
  | none => cases h
  | some path =>
    rw [ofPath] at h
    split at h
    · cases h
    · obtain rfl := Except.ok.inj h
      exact ⟨rfl, rfl⟩

/-- **A request** gives the name of the variable: the one that is fixed, or else a fresh one, which
is fixed from then on. -/
theorem gives_request {name : String} (h : request.Gives b name b') :
    (b.gate.variableName = some name ∧
        b' = ⟨b.draft, { b.gate with requests := b.gate.requests + 1 }⟩) ∨
      (b.gate.variableName = none ∧
        name = b.draft.scope.unusedName (FreshName.base "messages") ∧
        b' = ⟨{ b.draft with scope := b.draft.scope.reserve name },
          { b.gate with requests := b.gate.requests + 1, variableName := some name }⟩) := by
  obtain ⟨u, b₁, hmodify, h⟩ := Drafting.gives_bind h
  obtain rfl := Drafting.gives_modify hmodify
  obtain ⟨a, b₂, hget, h⟩ := Drafting.gives_bind h
  obtain ⟨rfl, rfl⟩ := Drafting.gives_get hget
  cases hname : b.gate.variableName with
  | some name' =>
    simp only [hname] at h
    obtain ⟨rfl, rfl⟩ := Drafting.gives_pure h
    exact Or.inl ⟨rfl, by rw [← hname]⟩
  | none =>
    simp only [hname] at h
    obtain ⟨name', b₃, hfresh, h⟩ := Drafting.gives_bind h
    obtain ⟨hfree, rfl⟩ := Drafting.gives_freshName hfresh
    obtain ⟨u', b₄, hmodify', h⟩ := Drafting.gives_bind h
    obtain rfl := Drafting.gives_modify hmodify'
    obtain ⟨rfl, rfl⟩ := Drafting.gives_pure h
    exact Or.inr ⟨rfl, hfree, rfl⟩

/-- A request numbers nothing. -/
theorem next_request {name : String} (h : request.Gives b name b') :
    b'.draft.next = b.draft.next := by
  obtain ⟨-, rfl⟩ | ⟨-, -, rfl⟩ := gives_request h <;> rfl

/-- The name that is fixed is the one that is given. -/
theorem eq_of_gives_request {name v : String} (h : request.Gives b name b')
    (hv : b.gate.variableName = some v) : v = name := by
  obtain ⟨hname, -⟩ | ⟨hnone, -⟩ := gives_request h
  · exact Option.some.inj (hv.symm.trans hname)
  · rw [hnone] at hv
    cases hv

/-- **A gate that closes** puts the messages in front if anything was requested: the record that is
collected for its source, as a literal. -/
theorem gives_close_record {catalogues : CatalogueSource} {injected : Bool}
    (h : (close catalogues).Gives b injected b') :
    (b.gate.requests = 0 ∧ injected = false ∧ b' = b) ∨
      (b.gate.requests ≠ 0 ∧ injected = true ∧ ∃ record : Record,
        (catalogues.record b.gate.source).Gives record ∧
        b'.draft = (b.draft.prepend
          (Stmt.messagesConstant (b.gate.variableName.getD "") record.literal)).2 ∧
        b'.gate.variableName = b.gate.variableName) := by
  obtain ⟨a, b₁, hget, hrest⟩ := Drafting.gives_bind h
  obtain ⟨rfl, rfl⟩ := Drafting.gives_get hget
  dsimp only at hrest
  by_cases hzero : b₁.gate.requests = 0
  · rw [if_pos hzero] at hrest
    obtain ⟨rfl, rfl⟩ := Drafting.gives_pure hrest
    exact Or.inl ⟨hzero, rfl, rfl⟩
  · rw [if_neg hzero] at hrest
    obtain ⟨record, b₂, hrecord, hrest⟩ := Drafting.gives_bind hrest
    obtain ⟨hcollected, rfl⟩ := Drafting.gives_liftM hrecord
    obtain ⟨u, b₃, hmodify, hrest⟩ := Drafting.gives_bind hrest
    obtain rfl := Drafting.gives_modify hmodify
    obtain ⟨rfl, rfl⟩ := Drafting.gives_pure hrest
    exact Or.inr ⟨hzero, rfl, record, hcollected, rfl, rfl⟩

/-- A gate that closes puts one constant in front if anything was requested. -/
theorem gives_close {catalogues : CatalogueSource} {injected : Bool}
    (h : (close catalogues).Gives b injected b') :
    (b.gate.requests = 0 ∧ injected = false ∧ b' = b) ∨
      (b.gate.requests ≠ 0 ∧ injected = true ∧ ∃ literal : CodeText,
        b'.draft = (b.draft.prepend
          (Stmt.messagesConstant (b.gate.variableName.getD "") literal)).2 ∧
        b'.gate.variableName = b.gate.variableName) :=
  (gives_close_record h).imp_right fun ⟨hne, hinjected, record, _, hdraft, hname⟩ =>
    ⟨hne, hinjected, record.literal, hdraft, hname⟩

end Gate

/-! ### Binding statements -/

/-- A re-export that concerns a target is one from its module. -/
theorem Target.source_of_concerns {t : Target} {specifiers : List ExportSpecifier}
    {source : Option CodeText} {o : Origin} (h : t.concerns (.exportNamed specifiers source o)) :
    source = some t.module := by
  simp only [concerns, matchesModule, Bool.and_eq_true, decide_eq_true_eq] at h
  exact h.1

namespace Drafting

variable {b b' : Bench}

/-- **An imported name without uses** is left alone; for one with uses, a name is drawn, the uses
are renamed, and the constant goes behind the import. -/
theorem gives_bindImported {stmt : Stmt} {target : Target} {name : String} {bound : Bool}
    (h : (bindImported stmt target name).Gives b bound b') :
    ((∀ binding, b.draft.scope.moduleBinding? name = some binding → binding.uses = []) ∧
        bound = false ∧ b' = b) ∨
      ∃ binding constant messages b₁ b₂,
        b.draft.scope.moduleBinding? name = some binding ∧ binding.uses ≠ [] ∧ bound = true ∧
        (freshName (target.function.string ++ "Function")).Gives b constant b₁ ∧
        Gate.request.Gives { b₁ with draft := b₁.draft.renameUses constant binding.uses }
          messages b₂ ∧
        (edit (·.append stmt (Stmt.boundConstant constant name messages))).Gives b₂ () b' := by
  obtain ⟨a, b₁, hget, hrest⟩ := gives_bind h
  obtain ⟨rfl, rfl⟩ := gives_get hget
  cases hbinding : b₁.draft.scope.moduleBinding? name with
  | none =>
    simp only [hbinding] at hrest
    obtain ⟨rfl, rfl⟩ := gives_pure hrest
    exact Or.inl ⟨by simp, rfl, rfl⟩
  | some binding =>
    simp only [hbinding] at hrest
    by_cases hempty : binding.uses.isEmpty
    · rw [if_pos hempty] at hrest
      obtain ⟨rfl, rfl⟩ := gives_pure hrest
      refine Or.inl ⟨fun other hother => ?_, rfl, rfl⟩
      obtain rfl := Option.some.inj hother
      exact List.isEmpty_iff.1 hempty
    · rw [if_neg hempty] at hrest
      obtain ⟨constant, b₂, hfresh, hrest⟩ := gives_bind hrest
      obtain ⟨u, b₃, hmodify, hrest⟩ := gives_bind hrest
      obtain rfl := gives_modify hmodify
      obtain ⟨messages, b₄, hrequest, hrest⟩ := gives_bind hrest
      obtain ⟨u', b₅, hedit, hrest⟩ := gives_bind hrest
      obtain ⟨rfl, rfl⟩ := gives_pure hrest
      exact Or.inr ⟨binding, constant, messages, b₂, b₄, rfl,
        fun hnil => hempty (List.isEmpty_iff.2 hnil), rfl, hfresh, hrequest, hedit⟩

/-- A re-export is made anew with two drawn names and three statements. -/
theorem gives_moveExport {stmt : Stmt} {target : Target} {s : ExportSpecifier} {u : Unit}
    (h : (moveExport stmt target s).Gives b u b') :
    ∃ imported bound messages b₁ b₂ b₃ b₄ b₅,
      (freshName (target.function.string ++ "Import")).Gives b imported b₁ ∧
      (freshName (target.function.string ++ "Export")).Gives b₁ bound b₂ ∧
      Gate.request.Gives b₂ messages b₃ ∧
      (edit (·.append stmt (Stmt.addedImport target.function.string imported target.module))).Gives
        b₃ () b₄ ∧
      (edit (·.append stmt (Stmt.boundConstant bound imported messages))).Gives b₄ () b₅ ∧
      (edit (·.append stmt (Stmt.addedExport bound s.exported))).Gives b₅ () b' := by
  obtain ⟨imported, b₁, h₁, hrest⟩ := gives_bind h
  obtain ⟨bound, b₂, h₂, hrest⟩ := gives_bind hrest
  obtain ⟨messages, b₃, h₃, hrest⟩ := gives_bind hrest
  obtain ⟨u₄, b₄, h₄, hrest⟩ := gives_bind hrest
  obtain ⟨u₅, b₅, h₅, hrest⟩ := gives_bind hrest
  exact ⟨imported, bound, messages, b₁, b₂, b₃, b₄, b₅, h₁, h₂, h₃, h₄, h₅, hrest⟩

/-- A list of re-exports is pared to the names that stay, the others are made anew, and a list that
ran empty is removed. -/
theorem gives_moveMatching {target : Target} {specifiers : List ExportSpecifier}
    {source : Option CodeText} {o : Origin} {n : Nat}
    (h : (moveMatching target specifiers source o).Gives b n b') :
    n = (specifiers.filter target.matchesExport).length ∧
      ∃ b₁, (moveAll (.exportNamed (specifiers.filter (!target.matchesExport ·)) source o) target
          (specifiers.filter target.matchesExport)).Gives
          ⟨b.draft.replace (.exportNamed (specifiers.filter (!target.matchesExport ·)) source o),
            b.gate⟩ () b₁ ∧
        ((specifiers.filter (!target.matchesExport ·) ≠ [] ∧ b' = b₁) ∨
          (specifiers.filter (!target.matchesExport ·) = [] ∧
          (edit (·.remove (.exportNamed [] source o))).Gives b₁ () b')) := by
  obtain ⟨u, b₁, hmodify, hrest⟩ := gives_bind h
  obtain rfl := gives_modify hmodify
  obtain ⟨u', b₂, hmove, hrest⟩ := gives_bind hrest
  by_cases hempty : (specifiers.filter (!target.matchesExport ·)).isEmpty
  · rw [if_pos hempty] at hrest
    obtain ⟨u'', b₃, hedit, hrest⟩ := gives_bind hrest
    obtain ⟨rfl, rfl⟩ := gives_pure hrest
    rw [List.isEmpty_iff] at hempty
    refine ⟨rfl, b₂, hmove, Or.inr ⟨hempty, ?_⟩⟩
    rw [hempty] at hedit
    exact hedit
  · rw [if_neg hempty] at hrest
    obtain ⟨rfl, rfl⟩ := gives_pure hrest
    exact ⟨rfl, _, hmove, Or.inl ⟨fun hnil => hempty (List.isEmpty_iff.2 hnil), rfl⟩⟩

/-- A statement that is there and concerns the target is treated; any other is left alone. -/
theorem gives_bindStmt {id : Nat} {target : Target} {c : BoundCounts}
    (h : (bindStmt id target).Gives b c b') :
    (∃ specifiers source o, b.draft.current? id = some (.importDecl specifiers source o) ∧
        target.concerns (.importDecl specifiers source o) ∧ c.exports = 0 ∧
        (bindAll (.importDecl specifiers source o) target
          (specifiers.filter target.matchesImport)).Gives b c.imports b') ∨
      (∃ specifiers o, b.draft.current? id
          = some (.exportNamed specifiers (some target.module) o) ∧
        target.concerns (.exportNamed specifiers (some target.module) o) ∧ c.imports = 0 ∧
        (moveMatching target specifiers (some target.module) o).Gives b c.exports b') ∨
      ((∀ stmt, b.draft.current? id = some stmt → ¬ target.concerns stmt) ∧ c = {} ∧ b' = b) := by
  obtain ⟨a, b₁, hget, hrest⟩ := gives_bind h
  obtain ⟨rfl, rfl⟩ := gives_get hget
  cases hcurrent : b₁.draft.current? id with
  | none =>
    simp only [hcurrent] at hrest
    obtain ⟨rfl, rfl⟩ := gives_pure hrest
    exact Or.inr (Or.inr ⟨by simp, rfl, rfl⟩)
  | some stmt =>
    simp only [hcurrent] at hrest
    by_cases hconcerns : target.concerns stmt
    · simp only [hconcerns, Bool.not_true, Bool.false_eq_true, if_false] at hrest
      cases stmt with
      | importDecl specifiers source o =>
        obtain ⟨n, b₂, hall, hrest⟩ := gives_bind hrest
        obtain ⟨rfl, rfl⟩ := gives_pure hrest
        exact Or.inl ⟨specifiers, source, o, rfl, hconcerns, rfl, hall⟩
      | exportNamed specifiers source o =>
        obtain ⟨n, b₂, hmove, hrest⟩ := gives_bind hrest
        obtain ⟨rfl, rfl⟩ := gives_pure hrest
        obtain rfl := Target.source_of_concerns hconcerns
        exact Or.inr (Or.inl ⟨specifiers, o, rfl, hconcerns, rfl, hmove⟩)
      | _ => simp [Target.concerns, Target.matchesModule] at hconcerns
    · simp only [hconcerns, Bool.not_false, if_true] at hrest
      obtain ⟨rfl, rfl⟩ := gives_pure hrest
      refine Or.inr (Or.inr ⟨fun other heq => ?_, rfl, rfl⟩)
      obtain rfl := Option.some.inj heq
      exact hconcerns

end Drafting

/-! ### Loops -/

namespace BoundCounts

theorem zero_add (c : BoundCounts) : add {} c = c := by
  simp [add]

theorem add_assoc (c₁ c₂ c₃ : BoundCounts) : (c₁.add c₂).add c₃ = c₁.add (c₂.add c₃) := by
  simp [add, Nat.add_assoc]

end BoundCounts

namespace Drafting

/-- **A loop** goes over a list and adds up what each round counts. What holds of no round, and is
kept by each, holds of all of them and of the sum. -/
theorem loop_induction {ι α β : Type} {loop : List ι → Drafting β} {round : ι → Drafting α}
    {f : α → β} {zero : β} {g : β → β → β} {xs : List ι} {n : β} {b b' : Bench}
    {P : List ι → β → Bench → Prop} (hgives : (loop xs).Gives b n b')
    (hnil : loop [] = pure zero)
    (hcons : ∀ x xs, loop (x :: xs) = round x >>= fun a => loop xs >>= fun k => pure (g (f a) k))
    (hzero : ∀ k, g zero k = k) (hzero' : ∀ k, g k zero = k)
    (hassoc : ∀ k₁ k₂ k₃, g (g k₁ k₂) k₃ = g k₁ (g k₂ k₃)) (start : P [] zero b)
    (step : ∀ {front x back k b₁ a b₂}, xs = front ++ x :: back → P front k b₁ →
      (round x).Gives b₁ a b₂ → P (front ++ [x]) (g k (f a)) b₂) :
    P xs n b' := by
  -- the induction is on the rounds to come, behind those that are over
  suffices h : ∀ {front back k n b}, xs = front ++ back → P front k b →
      (loop back).Gives b n b' → P xs (g k n) b' by
    rw [← hzero n]
    exact h (List.nil_append xs).symm start hgives
  intro front back
  induction back generalizing front with
  | nil =>
    intro k n b hall h hgives
    rw [hnil] at hgives
    obtain ⟨rfl, rfl⟩ := gives_pure hgives
    rwa [hall, List.append_nil, hzero']
  | cons x back ih =>
    intro k n b hall h hgives
    rw [hcons] at hgives
    obtain ⟨a, b₁, hround, hrest⟩ := gives_bind hgives
    obtain ⟨n', b₂, hothers, hrest⟩ := gives_bind hrest
    obtain ⟨rfl, rfl⟩ := gives_pure hrest
    rw [← hassoc]
    exact ih (hall.trans (List.append_cons ..)) (step hall h hround) hothers

variable {b b' : Bench} {stmt : Stmt} {target : Target}

/-- **Imported names** are bound one after the other, and those that are bound are counted. -/
theorem bindAll_induction {specifiers : List ImportSpecifier} {n : Nat}
    {P : List ImportSpecifier → Nat → Bench → Prop}
    (hgives : (bindAll stmt target specifiers).Gives b n b') (start : P [] 0 b)
    (step : ∀ {front s back k b₁ bound b₂}, specifiers = front ++ s :: back → P front k b₁ →
      (bindImported stmt target s.binding.name).Gives b₁ bound b₂ →
        P (front ++ [s]) (k + if bound then 1 else 0) b₂) :
    P specifiers n b' :=
  loop_induction hgives rfl (fun _ _ => rfl) Nat.zero_add Nat.add_zero Nat.add_assoc start step

/-- **Re-exports** are made anew one after the other. -/
theorem moveAll_induction {specifiers : List ExportSpecifier} {u : Unit}
    {P : List ExportSpecifier → Bench → Prop}
    (hgives : (moveAll stmt target specifiers).Gives b u b') (start : P [] b)
    (step : ∀ {front s back b₁ b₂}, specifiers = front ++ s :: back → P front b₁ →
      (moveExport stmt target s).Gives b₁ () b₂ → P (front ++ [s]) b₂) :
    P specifiers b' :=
  loop_induction (P := fun front _ b => P front b) (g := fun _ v => v) (f := id) hgives rfl
    (fun _ _ => by simp only [bind_pure]; rfl) (fun _ => rfl) (fun _ => rfl) (fun _ _ _ => rfl)
    start step

/-- **A statement meets targets** one after the other, and the counts of the visits add up. -/
theorem bindTargets_induction {id : Nat} {targets : List Target} {c : BoundCounts}
    {P : List Target → BoundCounts → Bench → Prop}
    (hgives : (bindTargets id targets).Gives b c b') (start : P [] {} b)
    (step : ∀ {front t back c₁ b₁ c₂ b₂}, targets = front ++ t :: back → P front c₁ b₁ →
      (bindStmt id t).Gives b₁ c₂ b₂ → P (front ++ [t]) (c₁.add c₂) b₂) :
    P targets c b' :=
  loop_induction hgives rfl (fun _ _ => rfl) BoundCounts.zero_add (fun _ => rfl)
    BoundCounts.add_assoc start step

/-- **Statements meet all targets** one after the other, and the counts add up. -/
theorem bindStmts_induction {targets : List Target} {stmts : List Stmt} {c : BoundCounts}
    {P : List Stmt → BoundCounts → Bench → Prop}
    (hgives : (bindStmts targets stmts).Gives b c b') (start : P [] {} b)
    (step : ∀ {front s back c₁ b₁ c₂ b₂}, stmts = front ++ s :: back → P front c₁ b₁ →
      (bindTargets s.origin.id targets).Gives b₁ c₂ b₂ → P (front ++ [s]) (c₁.add c₂) b₂) :
    P stmts c b' :=
  loop_induction hgives rfl (fun _ _ => rfl) BoundCounts.zero_add (fun _ => rfl)
    BoundCounts.add_assoc start step

end Drafting

/-! ### Whole passes -/

/-- A pass that ends binds statements, closes the gate, and tells what came of it. -/
theorem Module.gives_bindMessages {m : Module} {targets : List Target}
    {catalogues : CatalogueSource} {path : Option String} {r : BoundModule}
    (h : (m.bindMessages targets catalogues path).run.1 = .ok r) :
    ∃ gate b₁ b₂, Gate.ofPath path = .ok gate ∧
      (Drafting.bindStmts targets m.body).Gives ⟨.ofModule m, gate⟩ r.counts b₁ ∧
      (Gate.close catalogues).Gives b₁ r.injected b₂ ∧
      r.draft = b₂.draft ∧ r.variableName = b₂.gate.variableName := by
  have hgives : (m.bindMessages targets catalogues path).Gives r := ⟨[], _, Prod.ext h rfl⟩
  obtain ⟨gate, hgate, hrest⟩ := Loads.gives_bind hgives
  obtain ⟨⟨⟨counts, injected⟩, b₂⟩, hpass, hrest⟩ := Loads.gives_bind hrest
  obtain rfl := Loads.gives_pure hrest
  obtain ⟨counts', b₁, hstmts, hrest⟩ := Drafting.gives_bind hpass
  obtain ⟨injected', b₃, hclose, hrest⟩ := Drafting.gives_bind hrest
  obtain ⟨heq, rfl⟩ := Drafting.gives_pure hrest
  obtain ⟨rfl, rfl⟩ := Prod.mk.inj heq
  refine ⟨gate, b₁, b₂, ?_, hstmts, hclose, rfl, rfl⟩
  have hok := Loads.gives_ofExcept hgate
  cases hpath : Gate.ofPath path with
  | error e =>
    rw [hpath] at hok
    cases hok
  | ok gate' =>
    rw [hpath] at hok
    exact congrArg Except.ok (Except.ok.inj hok)

end MessageBinder
