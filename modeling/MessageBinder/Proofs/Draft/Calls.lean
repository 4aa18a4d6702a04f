import MessageBinder.Proofs.Draft.Scanning
import MessageBinder.Proofs.Scope.Names

/-!
# Calls to a gate

A gate is driven from outside: it is asked for its variable and it is closed, in any order and any
number of times, and a closing may fail at the listing of the directory or at any of the files. A
pass ends with its first failure, and nothing of its bench is left then. Whoever goes on after a
failure has the bench as the failing call has left it; that is what a computation that keeps it
tells (`MessageBinder.Keeping`), and the calls are the same programs there
(`MessageBinder.Gate.request_eq`, `MessageBinder.Gate.close_eq`) with the same outcomes
(`MessageBinder.Gate.outcome_eq_run`).

There are five things that a call can do (`MessageBinder.Gate.Step`), and what holds of every
sequence of calls is read off them. A failing call leaves the bench as it was, so that it might as
well not have been made, and every request answers the same name, which was free before the first
one (`MessageBinder.Gate.drive_keeps`).
-/

namespace MessageBinder

/-! ### Failures that leave something behind -/

/-- A computation on a bench that keeps it: a failing step leaves behind what it has changed so far,
and the paths it loaded. -/
abbrev Keeping := ExceptT Failure (StateT Bench (StateM (List String)))

namespace Keeping

/-- Loading changes no bench. -/
-- The lift is transitive by hand: through a plain one the paths would be found as the state.
instance : MonadLiftT Loads Keeping where
  monadLift x := ExceptT.mk (StateT.lift (ExceptT.run x))

/-- How a computation ends on a bench, and what it leaves of it. -/
def outcome {α : Type} (x : Keeping α) (b : Bench) : Except Failure α × Bench :=
  (StateT.run (StateT.run (ExceptT.run x) b) []).1

variable {α β : Type} {b b' b'' : Bench}

/-- **A computation ends** on a bench with an outcome and leaves another one, whatever was loaded
before. -/
def Ends (x : Keeping α) (b : Bench) (r : Except Failure α) (b' : Bench) : Prop :=
  ∀ log, ∃ log', StateT.run (StateT.run (ExceptT.run x) b) log = ((r, b'), log')

theorem Ends.outcome_eq {x : Keeping α} {r : Except Failure α} (h : x.Ends b r b') :
    x.outcome b = (r, b') := by
  obtain ⟨log, hlog⟩ := h []
  exact congrArg Prod.fst hlog

theorem run_bind (x : Keeping α) (f : α → Keeping β) (b : Bench) (log : List String) :
    StateT.run (StateT.run (ExceptT.run (x >>= f)) b) log
      = match StateT.run (StateT.run (ExceptT.run x) b) log with
        | ((.ok a, b'), log') => StateT.run (StateT.run (ExceptT.run (f a)) b') log'
        | ((.error e, b'), log') => ((.error e, b'), log') := by
  unfold ExceptT.run StateT.run
  simp only [bind, ExceptT.bind, ExceptT.mk, StateT.bind, ExceptT.bindCont]
  rcases x b log with ⟨⟨_ | _, b'⟩, log'⟩ <;> rfl

theorem ends_pure (a : α) (b : Bench) : (pure a : Keeping α).Ends b (.ok a) b :=
  fun log => ⟨log, rfl⟩

theorem ends_get (b : Bench) : (get : Keeping Bench).Ends b (.ok b) b := fun log => ⟨log, rfl⟩

theorem ends_modify (f : Bench → Bench) (b : Bench) :
    (modify f : Keeping Unit).Ends b (.ok ()) (f b) := fun log => ⟨log, rfl⟩

/-- Loading leaves the bench as it was, also where it fails. -/
theorem ends_liftM {x : Loads α} {r : Except Failure α} {paths : List String} (h : x.Ends r paths)
    (b : Bench) : (liftM x : Keeping α).Ends b r b := fun log => by
  refine ⟨log ++ paths, ?_⟩
  have hrun : StateT.run (StateT.run (ExceptT.run (liftM x : Keeping α)) b) log
      = match StateT.run (ExceptT.run x) log with
        | (r, log') => ((r, b), log') := rfl
  rw [hrun, h log]

theorem Ends.bind {x : Keeping α} {f : α → Keeping β} {a : α} {r : Except Failure β}
    (h : x.Ends b (.ok a) b') (h' : (f a).Ends b' r b'') : (x >>= f).Ends b r b'' := fun log => by
  obtain ⟨log', hlog'⟩ := h log
  obtain ⟨log'', hlog''⟩ := h' log'
  refine ⟨log'', ?_⟩
  rw [run_bind, hlog']
  exact hlog''

theorem Ends.bind_error {x : Keeping α} {e : Failure} (h : x.Ends b (.error e) b')
    (f : α → Keeping β) : (x >>= f).Ends b (.error e) b' := fun log => by
  obtain ⟨log', hlog'⟩ := h log
  refine ⟨log', ?_⟩
  rw [run_bind, hlog']

end Keeping

namespace Gate

section

variable {m : Type → Type} [Monad m] [MonadStateOf Bench m] [MonadLiftT Loads m]

/-- The name of the variable, for any computation on a bench. -/
def requestIn : m String := do
  modify fun b => { b with gate := { b.gate with requests := b.gate.requests + 1 } }
  match (← get).gate.variableName with
  | some name => return name
  | none =>
    let name ← modifyGet fun b =>
      let (name, draft) := b.draft.freshName "messages"
      (name, { b with draft })
    modify fun b => { b with gate := { b.gate with variableName := some name } }
    return name

/-- Closes the gate, for any computation on a bench. -/
def closeIn (catalogues : CatalogueSource) : m Bool := do
  let gate := (← get).gate
  if gate.requests = 0 then return false
  let record ← liftM (catalogues.record gate.source)
  modify fun b =>
    let (declaration, draft) :=
      b.draft.prepend (Stmt.messagesConstant (gate.variableName.getD "") record.literal)
    ⟨draft, { b.gate with declaration := some declaration }⟩
  return true

end

theorem request_eq : request = requestIn := rfl

theorem close_eq (catalogues : CatalogueSource) : close catalogues = closeIn catalogues := rfl

/-! ### Calls -/

/-- A call to a gate. Each closing finds the files and the loader of its own time. -/
inductive Call where
  /-- Asks for the variable. -/
  | request
  /-- Closes the gate. -/
  | close (catalogues : CatalogueSource)

/-- What a call answers. -/
inductive Answer where
  /-- The name of the variable. -/
  | variable (name : String)
  /-- Whether the messages were put in. -/
  | closed (injected : Bool)
deriving DecidableEq

/-- The program of a call. -/
def Call.program {m : Type → Type} [Monad m] [MonadStateOf Bench m] [MonadLiftT Loads m] :
    Call → m Answer
  | .request => return .variable (← requestIn)
  | .close catalogues => return .closed (← closeIn catalogues)

/-- The answer or the failure of a call, and the bench that it leaves. -/
def Call.outcome (c : Call) (b : Bench) : Except Failure Answer × Bench :=
  Keeping.outcome c.program b

/-- Calls one after the other, also after failures: what they answer, and the bench in the end. -/
def drive : List Call → Bench → List (Except Failure Answer) × Bench
  | [], b => ([], b)
  | c :: calls, b =>
    let (r, b) := c.outcome b
    let (rs, b) := drive calls b
    (r :: rs, b)

/-- A draft with a new gate. -/
def opened (d : Draft) (source : String) : Bench := ⟨d, { source }⟩

/-- The bench with the messages of a record put in. -/
def injected (b : Bench) (record : Record) : Bench :=
  let (declaration, draft) := b.draft.prepend
    (Stmt.messagesConstant (b.gate.variableName.getD "") record.literal)
  ⟨draft, { b.gate with declaration := some declaration }⟩

/-- **What a call can do** to a bench. -/
inductive Step (b : Bench) : Call → Except Failure Answer → Bench → Prop
  /-- The first request fixes the name. -/
  | fixes {name : String} (hnew : b.gate.variableName = none)
      (hname : name = b.draft.scope.unusedName (FreshName.base "messages")) :
      Step b .request (.ok (.variable name))
        ⟨{ b.draft with scope := b.draft.scope.reserve name },
          { b.gate with requests := b.gate.requests + 1, variableName := some name }⟩
  /-- A further request answers the name that is fixed. -/
  | repeats {name : String} (hname : b.gate.variableName = some name) :
      Step b .request (.ok (.variable name))
        ⟨b.draft, { b.gate with requests := b.gate.requests + 1 }⟩
  /-- Without requests nothing is put in. -/
  | idles {catalogues : CatalogueSource} (hidle : b.gate.requests = 0) :
      Step b (.close catalogues) (.ok (.closed false)) b
  /-- The messages are collected and put in. -/
  | injects {catalogues : CatalogueSource} {record : Record} (hasked : b.gate.requests ≠ 0)
      (hrecord : (catalogues.record b.gate.source).run.1 = .ok record) :
      Step b (.close catalogues) (.ok (.closed true)) (injected b record)
  /-- The messages cannot be collected. -/
  | fails {catalogues : CatalogueSource} {e : Failure} (hasked : b.gate.requests ≠ 0)
      (hfails : (catalogues.record b.gate.source).run.1 = .error e) :
      Step b (.close catalogues) (.error e) b

section

variable {b b' : Bench} {c : Call} {r : Except Failure Answer}

theorem Step.eq_of_error {e : Failure} (h : Step b c (.error e) b') : b' = b := by
  cases h with
  | fails => rfl

/-- Only a request changes a gate that nobody asked. -/
theorem Step.eq_of_idle (h : Step b c r b') (hidle : b.gate.requests = 0) (hc : c ≠ .request) :
    b' = b := by
  cases h with
  | fixes | repeats => exact absurd rfl hc
  | idles | fails => rfl
  | injects hasked => exact absurd hidle hasked

end

theorem step_request (b : Bench) :
    Step b .request (Call.request.outcome b).1 (Call.request.outcome b).2 := by
  obtain ⟨draft, source, requests, variableName, declaration⟩ := b
  cases variableName with
  | some name => exact .repeats rfl
  | none => exact .fixes rfl rfl

section

variable {b b' : Bench} {catalogues : CatalogueSource}

theorem outcome_close {r : Except Failure Bool}
    (h : (closeIn catalogues : Keeping Bool).Ends b r b') :
    (Call.close catalogues).outcome b = (r.map Answer.closed, b') := by
  cases r with
  | error e => exact (h.bind_error fun injected => pure (Answer.closed injected)).outcome_eq
  | ok injected =>
    exact (h.bind (f := fun injected => pure (Answer.closed injected))
      (Keeping.ends_pure _ b')).outcome_eq

/-- A gate that nobody asked is closed as it is. -/
theorem outcome_close_of_idle (h : b.gate.requests = 0) :
    (Call.close catalogues).outcome b = (.ok (.closed false), b) := by
  have hclose : (closeIn catalogues : Keeping Bool).Ends b (.ok false) b := by
    refine (Keeping.ends_get b).bind ?_
    rw [if_pos h]
    exact Keeping.ends_pure false b
  exact outcome_close hclose

/-- A gate that was asked collects the messages first, and changes nothing if it cannot. -/
theorem outcome_close_of_asked (h : b.gate.requests ≠ 0) :
    (Call.close catalogues).outcome b = match (catalogues.record b.gate.source).run.1 with
      | .ok record => (.ok (.closed true), injected b record)
      | .error e => (.error e, b) := by
  obtain ⟨r, paths, hrecord, -⟩ := catalogues.exists_ends_recordBy b.gate.source
  have hload := Keeping.ends_liftM hrecord b
  rw [CatalogueSource.record_eq, hrecord.run]
  cases r with
  | error e =>
    have hclose : (closeIn catalogues : Keeping Bool).Ends b (.error e) b := by
      refine (Keeping.ends_get b).bind ?_
      rw [if_neg h]
      exact hload.bind_error _
    exact outcome_close hclose
  | ok record =>
    have hclose : (closeIn catalogues : Keeping Bool).Ends b (.ok true) (injected b record) := by
      refine (Keeping.ends_get b).bind ?_
      rw [if_neg h]
      exact hload.bind ((Keeping.ends_modify _ b).bind (Keeping.ends_pure true _))
    exact outcome_close hclose

end

theorem step_close (b : Bench) (catalogues : CatalogueSource) :
    Step b (.close catalogues) ((Call.close catalogues).outcome b).1
      ((Call.close catalogues).outcome b).2 := by
  by_cases hidle : b.gate.requests = 0
  · rw [outcome_close_of_idle hidle]
    exact .idles hidle
  · rw [outcome_close_of_asked hidle]
    cases hrecord : (catalogues.record b.gate.source).run.1 with
    | ok record => exact .injects hidle hrecord
    | error e => exact .fails hidle hrecord

/-- **A call** does one of these things. -/
theorem step_outcome (b : Bench) (c : Call) : Step b c (c.outcome b).1 (c.outcome b).2 := by
  cases c with
  | request => exact step_request b
  | close catalogues => exact step_close b catalogues

/-- In a pass, which drops the bench of a failing step, a call has the same outcome, and the bench
that it leaves where it fails is the one before. -/
theorem outcome_eq_run (b : Bench) (c : Call) :
    c.outcome b = match (StateT.run (c.program : Drafting Answer) b).run.1 with
      | .ok (answer, b') => (.ok answer, b')
      | .error e => (.error e, b) := by
  cases c with
  | request =>
    obtain ⟨draft, source, requests, _ | name, declaration⟩ := b <;> rfl
  | close catalogues =>
    have hprogram : ∀ {r : Except Failure (Bool × Bench)} {paths : List String},
        Loads.Ends (StateT.run (closeBy catalogues.record) b) r paths →
          (StateT.run ((Call.close catalogues).program : Drafting Answer) b).run.1
            = r.map fun p => (.closed p.1, p.2) :=
      fun h => congrArg Prod.fst (h.map _).run
    by_cases hidle : b.gate.requests = 0
    · rw [outcome_close_of_idle hidle, hprogram (Module.ends_closeBy_of_idle hidle)]
      rfl
    · obtain ⟨r, paths, hrecord, -⟩ := catalogues.exists_ends_recordBy b.gate.source
      rw [outcome_close_of_asked hidle, hprogram (Module.ends_closeBy hidle hrecord),
        CatalogueSource.record_eq, hrecord.run]
      cases r with
      | ok record => rfl
      | error e => rfl

/-! ### Sequences of calls -/

theorem drive_cons (c : Call) (calls : List Call) (b : Bench) :
    drive (c :: calls) b = ((c.outcome b).1 :: (drive calls (c.outcome b).2).1,
      (drive calls (c.outcome b).2).2) := rfl

/-- The calls of a sequence that do not fail in it. -/
def succeeding (calls : List Call) (b : Bench) : List Call :=
  ((calls.zip (drive calls b).1).filter fun p => p.2.isOk).map Prod.fst

/-- **A failing call** leaves the bench as it was. -/
theorem outcome_of_error {b : Bench} {c : Call} {e : Failure} (h : (c.outcome b).1 = .error e) :
    c.outcome b = (.error e, b) := by
  have hstep := step_outcome b c
  rw [h] at hstep
  exact Prod.ext h hstep.eq_of_error

/-- **Failing calls may be left out**: the others answer the same, and leave the same bench. -/
theorem drive_succeeding (calls : List Call) (b : Bench) :
    drive (succeeding calls b) b = ((drive calls b).1.filter (·.isOk), (drive calls b).2) := by
  induction calls generalizing b with
  | nil => rfl
  | cons c calls ih =>
    cases hr : (c.outcome b).1 with
    | error e =>
      -- the calls behind it start from the same bench with it and without it
      have houtcome := outcome_of_error hr
      have hsucceeding : succeeding (c :: calls) b = succeeding calls b := by
        simp [succeeding, drive, houtcome, Except.isOk, Except.toBool]
      rw [hsucceeding, ih]
      simp [drive, houtcome, Except.isOk, Except.toBool]
    | ok answer =>
      have houtcome : c.outcome b = (.ok answer, (c.outcome b).2) := Prod.ext hr rfl
      have hsucceeding : succeeding (c :: calls) b = c :: succeeding calls (c.outcome b).2 := by
        simp [succeeding, drive, hr, Except.isOk, Except.toBool]
      rw [hsucceeding]
      simp [drive, ih, hr, Except.isOk, Except.toBool]

/-! ### The name of the variable -/

/-- Closings leave a gate alone that nobody asked. -/
theorem drive_of_idle {calls : List Call} {b : Bench} (hidle : b.gate.requests = 0)
    (hcalls : .request ∉ calls) : (drive calls b).2 = b := by
  induction calls with
  | nil => rfl
  | cons c calls ih =>
    obtain ⟨hc, hcalls⟩ := not_or.1 (List.mem_cons.not.1 hcalls)
    rw [drive_cons, (step_outcome b c).eq_of_idle hidle (Ne.symm hc)]
    exact ih hcalls

/-- The name of the variable is the one that the first request will fix, or has fixed. -/
def Names (b : Bench) (name : String) : Prop :=
  b.gate.variableName = some name ∨ b.gate.variableName = none ∧ b.gate.requests = 0 ∧
    name = b.draft.scope.unusedName (FreshName.base "messages")

/-- **The name stays**, whatever a call does, and it is what a request answers. -/
theorem Names.step {b b' : Bench} {name : String} {c : Call} {r : Except Failure Answer}
    (h : Names b name) (hstep : Step b c r b') :
    Names b' name ∧ (c = .request → r = .ok (.variable name)) := by
  cases hstep with
  | fixes hnew hname =>
    rcases h with hsome | ⟨-, -, rfl⟩
    · rw [hnew] at hsome
      cases hsome
    · rw [← hname]
      exact ⟨Or.inl rfl, fun _ => rfl⟩
  | repeats hname =>
    rcases h with hsome | ⟨hnone, -, -⟩
    · obtain rfl := Option.some.inj (hname.symm.trans hsome)
      exact ⟨Or.inl hsome, fun _ => rfl⟩
    · rw [hnone] at hname
      cases hname
  | idles | fails => exact ⟨h, nofun⟩
  | injects hasked =>
    rcases h with hsome | ⟨-, hidle, -⟩
    · exact ⟨Or.inl hsome, nofun⟩
    · exact absurd hidle hasked

theorem Names.drive {b : Bench} {name : String} (h : Names b name) (calls : List Call) :
    Names (drive calls b).2 name := by
  induction calls generalizing b with
  | nil => exact h
  | cons c calls ih => exact ih (h.step (step_outcome b c)).1

/-! ### Whole sequences -/

/-- **Calls to a new gate**, on any draft, with any files and loaders, in any order. A call that
fails leaves the bench as it was: the statements, the scope, the count of requests, the name and the
constant. So the calls that do not fail answer the same without the others, and leave the same
bench. All requests answer one name, which is free in the draft, and before the first request the
draft is as it was. -/
theorem drive_keeps (d : Draft) (source : String) (calls : List Call) :
    (∀ front c back e, calls = front ++ c :: back →
        (c.outcome (drive front (opened d source)).2).1 = .error e →
          c.outcome (drive front (opened d source)).2
            = (.error e, (drive front (opened d source)).2)) ∧
      drive (succeeding calls (opened d source)) (opened d source)
        = ((drive calls (opened d source)).1.filter (·.isOk), (drive calls (opened d source)).2) ∧
      ∃ name, d.scope.hasName name = false ∧ ∀ front back, calls = front ++ .request :: back →
        (Call.request.outcome (drive front (opened d source)).2).1 = .ok (.variable name) ∧
        (.request ∉ front → (drive front (opened d source)).2 = opened d source) := by
  refine ⟨fun front c back e _ h => outcome_of_error h, drive_succeeding calls _,
    d.scope.unusedName (FreshName.base "messages"), Scope.hasName_unusedName _ _,
    fun front back _ => ⟨?_, drive_of_idle rfl⟩⟩
  have hstart : Names (opened d source) (d.scope.unusedName (FreshName.base "messages")) :=
    Or.inr ⟨rfl, rfl, rfl⟩
  exact ((hstart.drive front).step (step_outcome _ .request)).2 rfl

end Gate

end MessageBinder
