import MessageBinder.Proofs.Draft.Running

/-!
# What a pass reads

A pass reads files through its gate only. Binding statements notes nothing
(`MessageBinder.Drafting.quiet_bindStmts`), so that the outcome of a pass is told by that of the
collection that the gate asks for, if it asks at all (`MessageBinder.Module.run_bindMessagesBy`).

The paths that are given to the loader are noted by the pass itself. To see the listing of the
directory too, the pass is stated here for any way to list a directory, of which that of the file
tree is one; another one notes in addition that it was asked (`MessageBinder.Loads.noting`).
-/

namespace MessageBinder

/-! ### Passes over any collection -/

/-- The files of a directory, by the file tree. -/
def CatalogueSource.scan (s : CatalogueSource) (directory : Path) : Loads (List String) :=
  Loads.ofExcept ((s.tree.filesIn directory).mapError Failure.file)

/-- The directory of a source. -/
def CatalogueSource.directory (s : CatalogueSource) (source : String) : Path :=
  (Path.ofString source).parent.onDisk s.project

/-- The record of a source, with the directory listed in a given way. -/
def CatalogueSource.recordBy (s : CatalogueSource) (scan : Path → Loads (List String))
    (source : String) : Loads Record := do
  let names ← scan (s.directory source)
  let collection ← s.loadAll (s.directory source)
    (matching (Path.ofString source).stem s.extension names) []
  return ⟨source, .ofTable collection, true⟩

theorem CatalogueSource.record_eq (s : CatalogueSource) : s.record = s.recordBy s.scan := rfl

/-- Closes the gate over a given collection. -/
def Gate.closeBy (collect : String → Loads Record) : Drafting Bool := do
  let gate := (← get).gate
  if gate.requests = 0 then return false
  let record ← liftM (collect gate.source)
  modify fun b =>
    let (declaration, draft) :=
      b.draft.prepend (Stmt.messagesConstant (gate.variableName.getD "") record.literal)
    ⟨draft, { b.gate with declaration := some declaration }⟩
  return true

/-- Binds targets over a given collection. -/
def Module.bindMessagesBy (m : Module) (targets : List Target) (collect : String → Loads Record)
    (path : Option String) : Loads BoundModule := do
  let gate ← Loads.ofExcept ((Gate.ofPath path).mapError Failure.config)
  let pass : Drafting (BoundCounts × Bool) := do
    let counts ← Drafting.bindStmts targets m.body
    return (counts, ← Gate.closeBy collect)
  let ((counts, injected), bench) ← pass.run ⟨.ofModule m, gate⟩
  return ⟨bench.draft, counts, injected, bench.gate.variableName⟩

theorem Module.bindMessages_eq (m : Module) (targets : List Target)
    (catalogues : CatalogueSource) (path : Option String) :
    m.bindMessages targets catalogues path
      = m.bindMessagesBy targets (catalogues.recordBy catalogues.scan) path := rfl

/-- A listing that notes that it was asked for. -/
def Loads.noting (mark : Path → String) (scan : Path → Loads (List String)) (directory : Path) :
    Loads (List String) := do
  modify (· ++ [mark directory])
  scan directory

/-! ### What is noted -/

namespace Loads

variable {α β : Type}

/-- **A computation ends** with an outcome and notes paths, whatever was noted before. -/
def Ends (x : Loads α) (r : Except Failure α) (paths : List String) : Prop :=
  ∀ log, StateT.run (ExceptT.run x) log = (r, log ++ paths)

theorem ends_pure (a : α) : (pure a : Loads α).Ends (.ok a) [] := fun log => by
  rw [List.append_nil]
  rfl

theorem ends_throw (e : Failure) : (throw e : Loads α).Ends (.error e) [] := fun log => by
  rw [List.append_nil]
  rfl

theorem ends_ofExcept (r : Except Failure α) : (ofExcept r).Ends r [] := by
  cases r with
  | ok a => exact ends_pure a
  | error e => exact ends_throw e

theorem Ends.bind {x : Loads α} {f : α → Loads β} {a : α} {r : Except Failure β}
    {paths paths' : List String} (h : x.Ends (.ok a) paths) (h' : (f a).Ends r paths') :
    (x >>= f).Ends r (paths ++ paths') := fun log => by
  rw [run_bind, h log]
  refine (h' (log ++ paths)).trans ?_
  rw [List.append_assoc]

theorem Ends.bind_error {x : Loads α} {e : Failure} {paths : List String}
    (h : x.Ends (.error e) paths) (f : α → Loads β) :
    (x >>= f).Ends (.error e) paths := fun log => by
  rw [run_bind, h log]

/-- What is made of the value of a computation is made of its outcome. -/
theorem Ends.map {x : Loads α} {r : Except Failure α} {paths : List String} (h : x.Ends r paths)
    (f : α → β) : (x >>= fun a => pure (f a)).Ends (r.map f) paths := by
  cases r with
  | error e => exact h.bind_error _
  | ok a =>
    have hrest := h.bind (f := fun a => pure (f a)) (ends_pure (f a))
    rwa [List.append_nil] at hrest

/-- A quiet start is not noted. -/
theorem Ends.bind_quiet {x : Loads α} {f : α → Loads β} {a : α} {r : Except Failure β}
    {paths : List String} (h : x.Ends (.ok a) []) (h' : (f a).Ends r paths) :
    (x >>= f).Ends r paths := h.bind h'

/-- A computation ends in one way. -/
theorem Ends.unique {x : Loads α} {r r' : Except Failure α} {paths paths' : List String}
    (h : x.Ends r paths) (h' : x.run = (r', paths')) : r' = r ∧ paths' = paths :=
  Prod.mk.inj (h'.symm.trans (h []))

theorem Ends.run {x : Loads α} {r : Except Failure α} {paths : List String} (h : x.Ends r paths) :
    x.run = (r, paths) := h []

/-- A loader is given one path. -/
theorem ends_load (loader : Loader) (path : String) :
    (load loader path).Ends (loader path) [path] := fun log => by
  cases h : loader path with
  | ok c => simp only [load, h]; rfl
  | error e => simp only [load, h]; rfl

/-- A listing that notes itself notes the directory and gives what the listing gives. -/
theorem Ends.noting {scan : Path → Loads (List String)} {directory : Path}
    {r : Except Failure (List String)} {paths : List String} (h : (scan directory).Ends r paths)
    (mark : Path → String) :
    (noting mark scan directory).Ends r (mark directory :: paths) := fun log => by
  refine (h (log ++ [mark directory])).trans ?_
  rw [List.append_assoc, List.singleton_append]

/-- A computation is quiet if it notes nothing and fails only by an edit. -/
def Quiet (x : Loads α) : Prop := ∃ r, x.Ends r [] ∧ ∀ e, r = .error e → ∃ absent, e = .edit absent

theorem quiet_pure (a : α) : (pure a : Loads α).Quiet := ⟨_, ends_pure a, nofun⟩

theorem Quiet.bind {x : Loads α} {f : α → Loads β} (h : x.Quiet) (h' : ∀ a, (f a).Quiet) :
    (x >>= f).Quiet := by
  obtain ⟨r, hr, hfails⟩ := h
  cases r with
  | error e =>
    obtain ⟨absent, rfl⟩ := hfails e rfl
    refine ⟨_, hr.bind_error f, ?_⟩
    rintro _ ⟨⟩
    exact ⟨absent, rfl⟩
  | ok a =>
    obtain ⟨r', hr', hfails'⟩ := h' a
    exact ⟨r', hr.bind hr', hfails'⟩

/-- What a quiet computation gives it ends with. -/
theorem Quiet.ends {x : Loads α} (h : x.Quiet) {a : α} (hgives : x.Gives a) :
    x.Ends (.ok a) [] := by
  obtain ⟨r, hr, -⟩ := h
  obtain ⟨log, log', hrun⟩ := hgives
  obtain rfl : r = .ok a := (Prod.mk.inj ((hr log).symm.trans hrun)).1
  exact hr

end Loads

/-- **The collection** of catalogues gives the loader the files that match, each once, in order. -/
theorem CatalogueSource.ends_loadAll (s : CatalogueSource) (directory : Path)
    (files : List (String × String)) (collection : Table Json) :
    ∃ r paths, (s.loadAll directory files collection).Ends r paths ∧
      ∀ c, r = .ok c → paths = files.map fun f => directory.entryText f.1 := by
  induction files generalizing collection with
  | nil => exact ⟨_, _, Loads.ends_pure collection, fun _ _ => rfl⟩
  | cons f files ih =>
    have hload := Loads.ends_load s.loader (directory.entryText f.1)
    cases hc : s.loader (directory.entryText f.1) with
    | error e =>
      rw [hc] at hload
      exact ⟨_, _, hload.bind_error _, nofun⟩
    | ok catalogue =>
      rw [hc] at hload
      obtain ⟨r, paths, hends, hpaths⟩ := ih (Table.insert f.2 catalogue.toJson collection)
      refine ⟨r, _, hload.bind hends, fun c hr => ?_⟩
      rw [hpaths c hr]
      rfl

/-- Names are put in their order, the least first. -/
theorem CatalogueSource.pairwise_mergeSort (names : List String) :
    (names.mergeSort fun a b => !(b < a)).Pairwise (· ≤ ·) := by
  have hle : ∀ a b : String, (!decide (b < a)) = true ↔ a ≤ b := fun a b => by
    rw [Bool.not_eq_true', decide_eq_false_iff_not, String.not_lt]
  have hpairwise := @List.pairwise_mergeSort _ (fun a b => !decide (b < a))
    (fun a b c hab hbc => (hle a c).2 (String.le_trans ((hle a b).1 hab) ((hle b c).1 hbc)))
    (fun a b => by
      rw [Bool.or_eq_true, hle, hle]
      exact String.le_total a b) names
  exact hpairwise.imp fun hab => (hle _ _).1 hab

/-- What matches is what the pattern of the source admits, in another order. -/
theorem CatalogueSource.perm_matching (base extension : String) (names : List String) :
    ((matching base extension names).map Prod.fst).Perm
      (names.filter fun name => (Locale.ofFileName? base extension name).isSome) := by
  have hmap : ∀ ns : List String, (ns.filterMap fun name =>
      (Locale.ofFileName? base extension name).map fun locale => (name, Text.lower locale)).map
        Prod.fst = ns.filter fun name => (Locale.ofFileName? base extension name).isSome := by
    intro ns
    induction ns with
    | nil => rfl
    | cons name ns ih =>
      rw [List.filterMap_cons, List.filter_cons]
      cases Locale.ofFileName? base extension name with
      | none => exact ih
      | some locale => exact congrArg (name :: ·) ih
  rw [matching, hmap]
  exact (List.mergeSort_perm names _).filter _

/-- A record is that of the collection, once the directory is listed. -/
theorem CatalogueSource.ends_recordBy {s : CatalogueSource} {scan : Path → Loads (List String)}
    {source : String} {names paths paths' : List String} {r : Except Failure (Table Json)}
    (hscan : (scan (s.directory source)).Ends (.ok names) paths)
    (hall : (s.loadAll (s.directory source)
      (matching (Path.ofString source).stem s.extension names) []).Ends r paths') :
    (s.recordBy scan source).Ends (r.map fun c => ⟨source, .ofTable c, true⟩)
      (paths ++ paths') :=
  hscan.bind (hall.map _)

/-- **Collecting a record** ends in one way. If it gives the record, the directory can be listed,
and the loader is given each matching file once; a listing that notes itself is noted once then. -/
theorem CatalogueSource.exists_ends_recordBy (s : CatalogueSource) (source : String) :
    ∃ r paths, (s.recordBy s.scan source).Ends r paths ∧ ∀ record, r = .ok record →
      (∃ names, s.tree.filesIn (s.directory source) = .ok names ∧
        paths.Perm ((names.filter fun name => (Locale.ofFileName? (Path.ofString source).stem
          s.extension name).isSome).map (s.directory source).entryText)) ∧
      ∀ mark, (s.recordBy (Loads.noting mark s.scan) source).Ends (.ok record)
        (mark (s.directory source) :: paths) := by
  have hscan : (s.scan (s.directory source)).Ends _ [] :=
    Loads.ends_ofExcept ((s.tree.filesIn (s.directory source)).mapError Failure.file)
  cases hfiles : s.tree.filesIn (s.directory source) with
  | error e =>
    rw [hfiles] at hscan
    exact ⟨_, _, hscan.bind_error _, nofun⟩
  | ok names =>
    rw [hfiles] at hscan
    obtain ⟨r, paths, hall, hpaths⟩ := s.ends_loadAll (s.directory source)
      (matching (Path.ofString source).stem s.extension names) []
    refine ⟨_, _, ends_recordBy hscan hall, fun record hr => ⟨⟨names, rfl, ?_⟩, fun mark => ?_⟩⟩
    · cases r with
      | error e => cases hr
      | ok collection =>
        have hperm := (perm_matching (Path.ofString source).stem s.extension names).map
          (s.directory source).entryText
        rw [List.map_map] at hperm
        rw [List.nil_append, hpaths collection rfl]
        exact hperm
    · rw [← hr]
      exact ends_recordBy (hscan.noting mark) hall

/-! ### What binding notes -/

namespace Drafting

variable {α β : Type}

/-- A computation on a bench is quiet if it notes nothing and fails only by an edit. -/
def Quiet (x : Drafting α) : Prop := ∀ b, Loads.Quiet (StateT.run x b)

theorem quiet_pure (a : α) : (pure a : Drafting α).Quiet := fun b => Loads.quiet_pure (a, b)

theorem Quiet.bind {x : Drafting α} {f : α → Drafting β} (h : x.Quiet) (h' : ∀ a, (f a).Quiet) :
    (x >>= f).Quiet := fun b => Loads.Quiet.bind (h b) fun r => h' r.1 r.2

theorem quiet_get : (get : Drafting Bench).Quiet := fun b => Loads.quiet_pure (b, b)

theorem quiet_modify (f : Bench → Bench) : (modify f : Drafting Unit).Quiet := fun b =>
  Loads.quiet_pure ((), f b)

theorem quiet_modifyGet (f : Bench → α × Bench) : (modifyGet f : Drafting α).Quiet := fun b =>
  Loads.quiet_pure (f b)

theorem quiet_edit (f : Draft → Except AbsentStmt Draft) : (edit f).Quiet :=
  quiet_get.bind fun b => by
    split
    · exact fun b' => Loads.quiet_pure ((), _)
    · rename_i absent _
      refine fun b' => ⟨_, Loads.ends_throw (.edit absent), ?_⟩
      rintro _ ⟨⟩
      exact ⟨absent, rfl⟩

theorem quiet_freshName (seed : String) : (freshName seed).Quiet := quiet_modifyGet _

theorem quiet_request : Gate.request.Quiet :=
  (quiet_modify _).bind fun _ => quiet_get.bind fun b => by
    split
    · exact quiet_pure _
    · exact (quiet_freshName _).bind fun name => (quiet_modify _).bind fun _ => quiet_pure name

theorem quiet_bindImported (stmt : Stmt) (target : Target) (name : String) :
    (bindImported stmt target name).Quiet :=
  quiet_get.bind fun b => by
    split
    · exact quiet_pure _
    · split
      · exact quiet_pure _
      · exact (quiet_freshName _).bind fun _ => (quiet_modify _).bind fun _ =>
          quiet_request.bind fun _ => (quiet_edit _).bind fun _ => quiet_pure _

theorem quiet_bindAll (stmt : Stmt) (target : Target) (specifiers : List ImportSpecifier) :
    (bindAll stmt target specifiers).Quiet := by
  induction specifiers with
  | nil => exact quiet_pure _
  | cons s specifiers ih =>
    exact (quiet_bindImported stmt target _).bind fun _ => ih.bind fun _ => quiet_pure _

theorem quiet_moveExport (stmt : Stmt) (target : Target) (s : ExportSpecifier) :
    (moveExport stmt target s).Quiet :=
  (quiet_freshName _).bind fun _ => (quiet_freshName _).bind fun _ => quiet_request.bind fun _ =>
    (quiet_edit _).bind fun _ => (quiet_edit _).bind fun _ => quiet_edit _

theorem quiet_moveAll (stmt : Stmt) (target : Target) (specifiers : List ExportSpecifier) :
    (moveAll stmt target specifiers).Quiet := by
  induction specifiers with
  | nil => exact quiet_pure _
  | cons s specifiers ih => exact (quiet_moveExport stmt target s).bind fun _ => ih

theorem quiet_moveMatching (target : Target) (specifiers : List ExportSpecifier)
    (source : Option CodeText) (o : Origin) : (moveMatching target specifiers source o).Quiet :=
  (quiet_modify _).bind fun _ => (quiet_moveAll _ _ _).bind fun _ => by
    split
    · exact (quiet_edit _).bind fun _ => quiet_pure _
    · exact quiet_pure _

theorem quiet_bindStmt (id : Nat) (target : Target) : (bindStmt id target).Quiet :=
  quiet_get.bind fun b => by
    split
    · exact quiet_pure _
    · split
      · exact quiet_pure _
      · split
        · exact (quiet_bindAll _ _ _).bind fun _ => quiet_pure _
        · exact (quiet_moveMatching _ _ _ _).bind fun _ => quiet_pure _
        · exact quiet_pure _

theorem quiet_bindTargets (id : Nat) (targets : List Target) : (bindTargets id targets).Quiet := by
  induction targets with
  | nil => exact quiet_pure _
  | cons target targets ih =>
    exact (quiet_bindStmt id target).bind fun _ => ih.bind fun _ => quiet_pure _

/-- **Binding statements** notes nothing, and fails only by an edit. -/
theorem quiet_bindStmts (targets : List Target) (stmts : List Stmt) :
    (bindStmts targets stmts).Quiet := by
  induction stmts with
  | nil => exact quiet_pure _
  | cons stmt stmts ih =>
    exact (quiet_bindTargets _ targets).bind fun _ => ih.bind fun _ => quiet_pure _

end Drafting

/-! ### Whole passes -/

namespace Module

variable {m : Module} {targets : List Target} {collect : String → Loads Record}

/-- **A pass without a path** fails, and does nothing else: no bench is set up. -/
theorem bindMessagesBy_of_missing {path : Option String}
    (h : Gate.ofPath path = .error .missingFilename) :
    m.bindMessagesBy targets collect path = throw (.config .missingFilename) := by
  rw [bindMessagesBy, h]
  rfl

/-- A gate that nobody asked is closed as it is. -/
theorem ends_closeBy_of_idle {b : Bench} (h : b.gate.requests = 0) :
    Loads.Ends (StateT.run (Gate.closeBy collect) b) (.ok (false, b)) [] := by
  have hclose : StateT.run (Gate.closeBy collect) b = pure (false, b) := by
    unfold Gate.closeBy
    rw [StateT.run_bind, StateT.run_get, pure_bind, if_pos h]
    rfl
  rw [hclose]
  exact Loads.ends_pure _

/-- A gate that was asked collects, and puts what it collected at the front. -/
theorem ends_closeBy {b : Bench} (h : b.gate.requests ≠ 0) {r : Except Failure Record}
    {paths : List String} (hcollect : (collect b.gate.source).Ends r paths) :
    Loads.Ends (StateT.run (Gate.closeBy collect) b) (r.map fun record =>
      let (declaration, draft) := b.draft.prepend
        (Stmt.messagesConstant (b.gate.variableName.getD "") record.literal)
      (true, ⟨draft, { b.gate with declaration := some declaration }⟩)) paths := by
  have hclose : StateT.run (Gate.closeBy collect) b = (collect b.gate.source >>= fun record =>
      let (declaration, draft) := b.draft.prepend
        (Stmt.messagesConstant (b.gate.variableName.getD "") record.literal)
      pure (true, ⟨draft, { b.gate with declaration := some declaration }⟩)) := by
    have hlift : StateT.run (liftM (collect b.gate.source) : Drafting Record) b
        = (collect b.gate.source >>= fun record => pure (record, b)) := rfl
    unfold Gate.closeBy
    rw [StateT.run_bind, StateT.run_get, pure_bind, if_neg h, StateT.run_bind, hlift, bind_assoc]
    simp only [pure_bind]
    rfl
  rw [hclose]
  exact hcollect.map _

/-- **The outcome of a pass** that binds its statements is told by that of closing its gate. -/
theorem ends_bindMessagesBy {path : Option String} {gate : Gate}
    (hgate : Gate.ofPath path = .ok gate) {c : BoundCounts} {b : Bench}
    (hstmts : (Drafting.bindStmts targets m.body).Gives ⟨.ofModule m, gate⟩ c b)
    {r : Except Failure (Bool × Bench)} {paths : List String}
    (hclose : Loads.Ends (StateT.run (Gate.closeBy collect) b) r paths) :
    (m.bindMessagesBy targets collect path).Ends
      (r.map fun (injected, b') => ⟨b'.draft, c, injected, b'.gate.variableName⟩) paths := by
  have hstart := Loads.ends_ofExcept ((Gate.ofPath path).mapError Failure.config)
  rw [hgate] at hstart
  have hends := (Drafting.quiet_bindStmts targets m.body ⟨.ofModule m, gate⟩).ends hstmts
  have hpass := hends.bind_quiet (f := fun (c, b) =>
    StateT.run (Gate.closeBy collect) b >>= fun p => pure ((c, p.1), p.2)) (hclose.map _)
  rw [bindMessagesBy, hgate]
  refine hstart.bind_quiet ?_
  have hwhole := hpass.map fun p : (BoundCounts × Bool) × Bench =>
    BoundModule.mk p.2.draft p.1.1 p.1.2 p.2.gate.variableName
  cases r with
  | ok p => exact hwhole
  | error e => exact hwhole

/-- A pass that fails at its statements collects nothing. -/
theorem ends_bindMessagesBy_of_failed {path : Option String} {gate : Gate}
    (hgate : Gate.ofPath path = .ok gate) {e : Failure}
    (hstmts : Loads.Ends (StateT.run (Drafting.bindStmts targets m.body) ⟨.ofModule m, gate⟩)
      (.error e) []) : (m.bindMessagesBy targets collect path).Ends (.error e) [] := by
  have hstart := Loads.ends_ofExcept ((Gate.ofPath path).mapError Failure.config)
  rw [hgate] at hstart
  have hpass := hstmts.bind_error fun (c, b) =>
    StateT.run (Gate.closeBy collect) b >>= fun p => pure ((c, p.1), p.2)
  rw [bindMessagesBy, hgate]
  exact hstart.bind_quiet (hpass.bind_error _)

/-- What a pass gives that asked, for a record. -/
def recorded (c : BoundCounts) (b : Bench) (record : Record) : BoundModule :=
  ⟨(b.draft.prepend (Stmt.messagesConstant (b.gate.variableName.getD "") record.literal)).2, c,
    true, b.gate.variableName⟩

/-- A pass that asked ends as its collection does. -/
theorem ends_bindMessagesBy_of_asked {path : Option String} {gate : Gate}
    (hgate : Gate.ofPath path = .ok gate) {c : BoundCounts} {b : Bench}
    (hstmts : (Drafting.bindStmts targets m.body).Gives ⟨.ofModule m, gate⟩ c b)
    (hasked : b.gate.requests ≠ 0) {r : Except Failure Record} {paths : List String}
    (hcollect : (collect b.gate.source).Ends r paths) :
    (m.bindMessagesBy targets collect path).Ends (r.map (recorded c b)) paths := by
  have hwhole := ends_bindMessagesBy hgate hstmts (ends_closeBy hasked hcollect)
  cases r with
  | ok record => exact hwhole
  | error e => exact hwhole

end Module

end MessageBinder
