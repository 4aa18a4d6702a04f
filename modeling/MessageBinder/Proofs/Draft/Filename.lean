import MessageBinder.Proofs.Draft.Running
import MessageBinder.Tree.Parser
import MessageBinder.Tree.Printer

/-!
# The file of a module

A module knows which file it was read from, and a pass hands that on without a look at it. So what
is made of a module is the same for every file that it may be said to be read from
(`MessageBinder.Module.bindMessages_ofFile`), and it is printed alike. A path that enters the output
can come from the gate alone.

What has to be shown for that is a property of computations on a bench
(`MessageBinder.Drafting.Unaware`), and most steps have it by their form: what they ask the bench
for is a name, a statement or the gate. The bench as a whole, file and all, is only taken out where
it is put back changed.
-/

namespace MessageBinder

/-- The draft of a module that is said to be of a file. -/
def Draft.ofFile (file : Option String) (d : Draft) : Draft := { d with filename := file }

/-- The bench of a module that is said to be of a file. -/
def Bench.ofFile (file : Option String) (b : Bench) : Bench :=
  { b with draft := b.draft.ofFile file }

/-- The module that is said to be of a file. -/
def Module.ofFile (file : Option String) (m : Module) : Module := { m with filename := file }

/-- What a module is bound to that is said to be of a file. -/
def BoundModule.ofFile (file : Option String) (r : BoundModule) : BoundModule :=
  { r with draft := r.draft.ofFile file }

/-! ### Edits -/

namespace Draft

/-- An edit keeps the file as it is. -/
def Edits (f : Draft → Except AbsentStmt Draft) : Prop :=
  ∀ file d, f (ofFile file d) = (f d).map (ofFile file)

theorem edits_append (origin : Stmt) (build : Nat → Stmt) : Edits (·.append origin build) := by
  intro file d
  change append (ofFile file d) origin build = (append d origin build).map (ofFile file)
  rw [append, append]
  change (d.sequence.appendAfter origin (build d.next) >>= _) = _
  cases d.sequence.appendAfter origin (build d.next) <;> rfl

theorem edits_remove (stmt : Stmt) : Edits (·.remove stmt) := by
  intro file d
  change remove (ofFile file d) stmt = (remove d stmt).map (ofFile file)
  rw [remove, remove]
  change (d.sequence.remove stmt >>= _) = _
  cases d.sequence.remove stmt <;> rfl

theorem renameUses_ofFile (file : Option String) (name : String) (ids : List Identifier)
    (d : Draft) : (d.ofFile file).renameUses name ids = (d.renameUses name ids).ofFile file := by
  induction ids generalizing d with
  | nil => rfl
  | cons id ids ih => exact ih (d.renameUse name id)

end Draft

/-! ### Computations -/

namespace Drafting

variable {α β : Type}

/-- **A computation is unaware of the file** of its module: it gives the same for every file, and
hands the file on. -/
def Unaware (x : Drafting α) : Prop :=
  ∀ file b, StateT.run x (b.ofFile file) = (fun r => (r.1, r.2.ofFile file)) <$> StateT.run x b

theorem unaware_pure (a : α) : (pure a : Drafting α).Unaware := fun _ _ => rfl

theorem Unaware.bind {x : Drafting α} {f : α → Drafting β} (h : x.Unaware)
    (h' : ∀ a, (f a).Unaware) : (x >>= f).Unaware := by
  intro file b
  rw [StateT.run_bind, StateT.run_bind, h file b, bind_map_left, map_bind]
  exact bind_congr fun r => h' r.1 file r.2

/-- What is asked of the bench is not the file. -/
theorem unaware_get_bind {f : Bench → Drafting α} (h : ∀ b, (f b).Unaware)
    (h' : ∀ file b, f (b.ofFile file) = f b) : (get >>= f).Unaware := by
  intro file b
  rw [StateT.run_bind, StateT.run_bind, StateT.run_get, StateT.run_get, pure_bind, pure_bind]
  exact (congrArg (StateT.run · (b.ofFile file)) (h' file b)).trans (h b file b)

theorem unaware_modifyGet {f : Bench → α × Bench}
    (h : ∀ file b, f (b.ofFile file) = ((f b).1, (f b).2.ofFile file)) :
    (modifyGet f : Drafting α).Unaware := fun file b =>
  congrArg (pure : α × Bench → Loads (α × Bench)) (h file b)

theorem unaware_modify {f : Bench → Bench} (h : ∀ file b, f (b.ofFile file) = (f b).ofFile file) :
    (modify f : Drafting Unit).Unaware :=
  unaware_modifyGet fun file b => congrArg (Prod.mk ()) (h file b)

/-- Loading is unaware of the bench. -/
theorem unaware_liftM (x : Loads α) : (liftM x : Drafting α).Unaware := by
  intro file b
  have hlift : ∀ b : Bench, StateT.run (liftM x : Drafting α) b = x >>= fun a => pure (a, b) :=
    fun _ => rfl
  rw [hlift, hlift, map_bind]
  exact bind_congr fun a => (map_pure _ _).symm

theorem unaware_edit {f : Draft → Except AbsentStmt Draft} (h : Draft.Edits f) :
    (edit f).Unaware := by
  intro file b
  rw [edit, StateT.run_bind, StateT.run_bind, StateT.run_get, StateT.run_get, pure_bind, pure_bind]
  simp only [Bench.ofFile, h file b.draft]
  cases f b.draft <;> rfl

theorem unaware_freshName (seed : String) : (freshName seed).Unaware :=
  unaware_modifyGet fun _ _ => rfl

theorem unaware_request : Gate.request.Unaware :=
  (unaware_modify fun _ _ => rfl).bind fun _ => unaware_get_bind (fun b => by
    split
    · exact unaware_pure _
    · exact (unaware_freshName _).bind fun name =>
        (unaware_modify fun _ _ => rfl).bind fun _ => unaware_pure name) fun _ _ => rfl

theorem unaware_bindImported (stmt : Stmt) (target : Target) (name : String) :
    (bindImported stmt target name).Unaware :=
  unaware_get_bind (fun b => by
    split
    · exact unaware_pure _
    · split
      · exact unaware_pure _
      · refine (unaware_freshName _).bind fun bound => (unaware_modify fun file b => ?_).bind
          fun _ => unaware_request.bind fun _ =>
            (unaware_edit (Draft.edits_append _ _)).bind fun _ => unaware_pure _
        exact congrArg (Bench.mk · b.gate) (Draft.renameUses_ofFile file _ _ b.draft))
        fun _ _ => rfl

theorem unaware_bindAll (stmt : Stmt) (target : Target) (specifiers : List ImportSpecifier) :
    (bindAll stmt target specifiers).Unaware := by
  induction specifiers with
  | nil => exact unaware_pure _
  | cons s specifiers ih =>
    exact (unaware_bindImported stmt target _).bind fun _ => ih.bind fun _ => unaware_pure _

theorem unaware_moveExport (stmt : Stmt) (target : Target) (s : ExportSpecifier) :
    (moveExport stmt target s).Unaware :=
  (unaware_freshName _).bind fun _ => (unaware_freshName _).bind fun _ => unaware_request.bind
    fun _ => (unaware_edit (Draft.edits_append _ _)).bind fun _ =>
      (unaware_edit (Draft.edits_append _ _)).bind fun _ => unaware_edit (Draft.edits_append _ _)

theorem unaware_moveAll (stmt : Stmt) (target : Target) (specifiers : List ExportSpecifier) :
    (moveAll stmt target specifiers).Unaware := by
  induction specifiers with
  | nil => exact unaware_pure _
  | cons s specifiers ih => exact (unaware_moveExport stmt target s).bind fun _ => ih

theorem unaware_moveMatching (target : Target) (specifiers : List ExportSpecifier)
    (source : Option CodeText) (o : Origin) : (moveMatching target specifiers source o).Unaware :=
  (unaware_modify fun _ _ => rfl).bind fun _ => (unaware_moveAll _ _ _).bind fun _ => by
    split
    · exact (unaware_edit (Draft.edits_remove _)).bind fun _ => unaware_pure _
    · exact unaware_pure _

theorem unaware_bindStmt (id : Nat) (target : Target) : (bindStmt id target).Unaware :=
  unaware_get_bind (fun b => by
    split
    · exact unaware_pure _
    · split
      · exact unaware_pure _
      · split
        · exact (unaware_bindAll _ _ _).bind fun _ => unaware_pure _
        · exact (unaware_moveMatching _ _ _ _).bind fun _ => unaware_pure _
        · exact unaware_pure _) fun _ _ => rfl

theorem unaware_bindTargets (id : Nat) (targets : List Target) :
    (bindTargets id targets).Unaware := by
  induction targets with
  | nil => exact unaware_pure _
  | cons target targets ih =>
    exact (unaware_bindStmt id target).bind fun _ => ih.bind fun _ => unaware_pure _

theorem unaware_bindStmts (targets : List Target) (stmts : List Stmt) :
    (bindStmts targets stmts).Unaware := by
  induction stmts with
  | nil => exact unaware_pure _
  | cons stmt stmts ih =>
    exact (unaware_bindTargets _ targets).bind fun _ => ih.bind fun _ => unaware_pure _

theorem unaware_close (catalogues : CatalogueSource) : (Gate.close catalogues).Unaware :=
  unaware_get_bind (fun b => by
    dsimp only
    split
    · exact unaware_pure _
    · exact (unaware_liftM _).bind fun record =>
        (unaware_modify fun _ _ => rfl).bind fun _ => unaware_pure _) fun _ _ => rfl

end Drafting

/-! ### Modules -/

namespace Module

/-- **The file of a module has no part in binding it.** -/
theorem bindMessages_ofFile (m : Module) (targets : List Target) (catalogues : CatalogueSource)
    (path file : Option String) : (m.ofFile file).bindMessages targets catalogues path
      = BoundModule.ofFile file <$> m.bindMessages targets catalogues path := by
  -- Both passes start on benches that differ in the file alone.
  have hpass : ∀ gate, StateT.run (do
        let counts ← Drafting.bindStmts targets m.body
        return (counts, ← Gate.close catalogues) : Drafting (BoundCounts × Bool))
          (Bench.ofFile file ⟨.ofModule m, gate⟩) = _ := fun gate =>
    ((Drafting.unaware_bindStmts targets m.body).bind fun counts =>
      (Drafting.unaware_close catalogues).bind fun injected =>
        Drafting.unaware_pure (counts, injected)) file ⟨.ofModule m, gate⟩
  rw [bindMessages, bindMessages, map_bind]
  refine bind_congr fun gate => ?_
  rw [map_bind]
  refine (congrArg (· >>= _) (hpass gate)).trans ?_
  rw [bind_map_left]
  exact bind_congr fun r => (map_pure _ _).symm

/-- A text is read as the same module whatever its file. -/
theorem parse_ofFile [CharacterNames] (text : String) (file : Option String) (base : Nat) :
    parse text file base = (parse text none base).map (ofFile file) := by
  rw [parse, parse]
  cases readTokens (Tokens.ofText text base).terminate <;> rfl

end Module

end MessageBinder
