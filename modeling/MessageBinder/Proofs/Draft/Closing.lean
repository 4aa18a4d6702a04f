import MessageBinder.Proofs.Draft.Calls
import MessageBinder.Proofs.Grammar.Reader
import MessageBinder.Proofs.Scope.Upkeep

/-!
# Constants that a gate puts in

A gate that is closed again puts its constant in again. After any calls to a new gate on a module,
the body is that of the module behind the constants that were put in, the newest first
(`MessageBinder.Gate.Filled`). The gate knows the newest of them, and the scope the oldest, since
the first declaration of a name counts (`MessageBinder.Scope.declarationOf?_register`).

So the module declares the variable once, by the constant that the gate and the scope both know,
exactly if messages were put in at most once (`MessageBinder.Gate.single_iff_of_drive`). The calls
may come in any order otherwise: requests behind a closing, closings that fail and closings before
the first request do no harm.
-/

namespace MessageBinder

/-! ### Declarations of a name -/

/-- Whether a statement of a module declares a name of the module, by the rules of its scope. -/
def Stmt.introduces (name : String) (s : Stmt) : Bool :=
  (ScopeEvent.bindings (s.declares [.module])).any (·.name = name)

/-- The statement that declares a name of the module, by its scope. -/
def Scope.declarationOf? (s : Scope) (name : String) : Option Origin :=
  (s.moduleBinding? name).map Binding.declaration

theorem Stmt.introduces_messagesConstant (name : String) (literal : CodeText) (n : Nat) :
    (messagesConstant name literal n).introduces name = true := by
  simp [introduces, messagesConstant, constant, declares, Declaration.declares, ScopeEvent.bindings,
    addedId]

namespace Scope

theorem declarationOf?_eq_first? (s : Scope) (name : String) :
    s.declarationOf? name
      = (Binding.first? s.declared (.module, name)).map Binding.declaration := by
  rw [← bare_inFrame?, Option.map_map]
  rfl

/-- **The first declaration of a name counts**: one that is taken in later declares it only if
nothing did. -/
theorem declarationOf?_register (s : Scope) (name : String) (literal : CodeText) (n : Nat) :
    (s.register (Stmt.messagesConstant name literal n)).declarationOf? name
      = (s.declarationOf? name).or (some (.synthetic n)) := by
  rw [declarationOf?_eq_first?, declarationOf?_eq_first?, register, declared_foldl_adopt,
    first?_declared_steps, Binding.first?_append]
  have hadded : Binding.first? (ScopeEvent.bindings
      ((Stmt.messagesConstant name literal n).declares [.module]
        ++ (Stmt.messagesConstant name literal n).walk [.module])) (.module, name)
      = some ⟨name, .declared .const, Stmt.addedId name (n + 1), .synthetic n, .module, []⟩ := by
    change Binding.first? [_] _ = _
    simp [Binding.first?, Binding.key, VariableKind.chain, Stmt.addedId]
  rw [hadded]
  cases Binding.first? s.declared (.module, name) with
  | some b => rfl
  | none => rfl

end Scope

namespace Module

variable {m : Module} {name : String}

theorem name_ne_of_free (h : m.scope.hasName name = false) {b : Binding}
    (hb : b ∈ ScopeEvent.bindings m.events) : b.name ≠ name := by
  rintro rfl
  have htaken : m.scope.hasName b.name :=
    (Scope.hasName_steps {} m.events b.name).2
      (Or.inr (ScopeEvent.name_mem_names_of_mem_bindings hb))
  rw [h] at htaken
  cases htaken

/-- A name that is free in a module is declared by none of its statements. -/
theorem introduces_of_free (h : m.scope.hasName name = false) :
    ∀ s ∈ m.body, s.introduces name = false := by
  intro s hs
  rw [Stmt.introduces, List.any_eq_false]
  intro b hb
  rw [decide_eq_true_eq]
  refine name_ne_of_free h ?_
  obtain ⟨chain, id, kind, o, he, rfl⟩ := ScopeEvent.mem_bindings.1 hb
  refine ScopeEvent.mem_bindings.2 ⟨chain, id, kind, o, ?_, rfl⟩
  exact List.mem_append_left _ (List.mem_flatMap.2 ⟨s, hs, he⟩)

/-- A name that is free in a module has no declaration in its scope. -/
theorem declarationOf?_of_free (h : m.scope.hasName name = false) :
    m.scope.declarationOf? name = none := by
  rw [Scope.declarationOf?_eq_first?, scope, Scope.first?_declared_steps, Option.map_eq_none_iff,
    Binding.first?_eq_none_iff]
  exact fun b hb hkey => name_ne_of_free h hb (congrArg Prod.snd hkey)

end Module

namespace Gate

/-! ### Constants in front -/

/-- The number of closings that put messages in. -/
def injections (answers : List (Except Failure Answer)) : Nat :=
  answers.countP fun
    | .ok (.closed injected) => injected
    | _ => false

/-- **A bench is filled** with constants of a variable: they stand in front of the module, the
newest first, the gate has the newest, and for the scope the oldest declares the variable. -/
structure Filled (m : Module) (name : String) (constants : List Stmt) (b : Bench) : Prop where
  /-- The name is fixed. -/
  fixed : b.gate.variableName = some name
  /-- The name is free in the module. -/
  free : m.scope.hasName name = false
  /-- They are constants of the variable. -/
  constant : ∀ s ∈ constants, ∃ literal n, s = Stmt.messagesConstant name literal n
  /-- They stand in front. -/
  body : b.draft.sequence.body = constants ++ m.body
  /-- The gate has the newest. -/
  newest : b.gate.declaration = constants.head?
  /-- The scope has the oldest. -/
  oldest : b.draft.scope.declarationOf? name = constants.getLast?.map (·.origin)

variable {m : Module} {name : String} {constants : List Stmt} {b b' : Bench} {c : Call}
  {r : Except Failure Answer}

/-- Putting messages in adds a constant. -/
theorem Filled.injected (h : Filled m name constants b) (record : Record) :
    Filled m name (Stmt.messagesConstant name record.literal b.draft.next :: constants)
      (injected b record) := by
  have hname : b.gate.variableName.getD "" = name := by rw [h.fixed, Option.getD_some]
  have hinjected : Gate.injected b record
      = ⟨(b.draft.prepend (Stmt.messagesConstant name record.literal)).2, { b.gate with
          declaration := some (Stmt.messagesConstant name record.literal b.draft.next) }⟩ := by
    rw [Gate.injected, hname]
    rfl
  rw [hinjected]
  exact
    { fixed := h.fixed
      free := h.free
      constant := List.forall_mem_cons.2 ⟨⟨_, _, rfl⟩, h.constant⟩
      body := congrArg (_ :: ·) h.body
      newest := rfl
      oldest := by
        refine (Scope.declarationOf?_register _ _ _ _).trans ?_
        rw [h.oldest, List.getLast?_cons]
        cases constants.getLast? <;> rfl }

/-- **A call** on a filled bench adds a constant if it puts messages in, and none otherwise. -/
theorem Filled.step (h : Filled m name constants b) (hstep : Step b c r b') :
    ∃ constants', Filled m name constants' b' ∧
      constants'.length = injections [r] + constants.length := by
  cases hstep with
  | fixes hnew =>
    rw [h.fixed] at hnew
    cases hnew
  | repeats => exact ⟨constants, { h with }, (Nat.zero_add _).symm⟩
  | idles | fails => exact ⟨constants, h, (Nat.zero_add _).symm⟩
  | injects => exact ⟨_, h.injected _, Nat.add_comm _ _⟩

theorem injections_cons (r : Except Failure Answer) (answers : List (Except Failure Answer)) :
    injections (r :: answers) = injections answers + injections [r] := by
  rw [injections, List.countP_cons, injections, injections, List.countP_singleton]

/-- **Calls** on a filled bench add as many constants as they put messages in. -/
theorem Filled.drive (h : Filled m name constants b) (calls : List Call) :
    ∃ constants', Filled m name constants' (drive calls b).2 ∧
      constants'.length = injections (drive calls b).1 + constants.length := by
  induction calls generalizing b constants with
  | nil => exact ⟨constants, h, (Nat.zero_add _).symm⟩
  | cons c calls ih =>
    obtain ⟨constants₁, h₁, hlength₁⟩ := h.step (step_outcome b c)
    obtain ⟨constants₂, h₂, hlength₂⟩ := ih h₁
    refine ⟨constants₂, h₂, ?_⟩
    rw [hlength₂, hlength₁, ← Nat.add_assoc]
    exact congrArg (· + _) (injections_cons _ _).symm

/-- The first request fills a bench with nothing. -/
theorem filled_of_fixes (m : Module) (source : String)
    (hstep : Step (opened (.ofModule m) source) .request r b') :
    ∃ name, Filled m name [] b' ∧ injections [r] = 0 := by
  cases hstep with
  | repeats hname => cases hname
  | fixes hnew hname =>
    have hfree : m.scope.hasName _ = false :=
      Scope.hasName_unusedName m.scope (FreshName.base "messages")
    refine ⟨_, ⟨rfl, ?_, by simp, rfl, rfl, ?_⟩, rfl⟩
    · rw [hname]
      exact hfree
    · rw [Scope.declarationOf?_eq_first?, Scope.declared_reserve, ← Scope.declarationOf?_eq_first?,
        hname]
      exact Module.declarationOf?_of_free hfree

/-- **Calls to a new gate** on a module leave it as it is until the first request, and fill it with
constants from then on. -/
theorem drive_opened (m : Module) (source : String) (calls : List Call) :
    (drive calls (opened (.ofModule m) source)).2 = opened (.ofModule m) source ∨
      ∃ name constants, Filled m name constants (drive calls (opened (.ofModule m) source)).2 ∧
        constants.length = injections (drive calls (opened (.ofModule m) source)).1 := by
  induction calls with
  | nil => exact Or.inl rfl
  | cons c calls ih =>
    cases c with
    | request =>
      obtain ⟨name, hfilled, hnone⟩ := filled_of_fixes m source (step_outcome _ .request)
      obtain ⟨constants, h, hlength⟩ := hfilled.drive calls
      refine Or.inr ⟨name, constants, h, ?_⟩
      rw [drive_cons, injections_cons, hnone]
      exact hlength
    | close catalogues =>
      -- nobody has asked yet
      have hidle : (Call.close catalogues).outcome (opened (.ofModule m) source)
          = (.ok (.closed false), opened (.ofModule m) source) := outcome_close_of_idle rfl
      rw [drive_cons, hidle, injections_cons]
      exact ih

/-! ### One constant -/

/-- **The variable is declared once** if nothing declares it in the module but the constant of the
gate, if there is one, and that is its declaration for the scope. -/
structure Single (b : Bench) (name : String) : Prop where
  /-- Only the constant of the gate declares it. -/
  declaring : b.draft.sequence.body.filter (·.introduces name) = b.gate.declaration.toList
  /-- The scope has the constant of the gate. -/
  binding : b.draft.scope.declarationOf? name = b.gate.declaration.map (·.origin)

/-- On a filled bench the constants are all that declares the variable. -/
theorem Filled.filter_body (h : Filled m name constants b) :
    b.draft.sequence.body.filter (·.introduces name) = constants := by
  have hconstants : constants.filter (·.introduces name) = constants := by
    rw [List.filter_eq_self]
    intro s hs
    obtain ⟨literal, n, rfl⟩ := h.constant s hs
    exact Stmt.introduces_messagesConstant name literal n
  have hrest : m.body.filter (·.introduces name) = [] := by
    rw [List.filter_eq_nil_iff]
    intro s hs
    rw [Module.introduces_of_free h.free s hs]
    exact Bool.false_ne_true
  rw [h.body, List.filter_append, hconstants, hrest, List.append_nil]

theorem Filled.single_iff (h : Filled m name constants b) :
    Single b name ↔ constants.length ≤ 1 := by
  constructor
  · -- all constants declare the variable, and the gate has one of them at most
    intro hsingle
    have hdeclaring := hsingle.declaring
    rw [h.filter_body] at hdeclaring
    rw [hdeclaring]
    cases b.gate.declaration <;> simp
  · intro hlength
    obtain hnil | ⟨s, hone⟩ : constants = [] ∨ ∃ s, constants = [s] := by
      match constants, hlength with
      | [], _ => exact Or.inl rfl
      | [s], _ => exact Or.inr ⟨s, rfl⟩
    · subst hnil
      exact ⟨by rw [h.filter_body, h.newest]; rfl, by rw [h.oldest, h.newest]; rfl⟩
    · subst hone
      exact ⟨by rw [h.filter_body, h.newest]; rfl, by rw [h.oldest, h.newest]; rfl⟩

/-- **How often the variable is declared.** After any calls to a new gate on a module, in any order,
a gate without a variable has left everything as it was. Otherwise what declares the variable are
the constants that were put in, one for each time, and it is declared once, by the constant that the
gate has and that is the declaration of its binding, exactly if messages were put in at most
once. -/
theorem single_iff_of_drive (m : Module) (source : String) (calls : List Call) :
    ((drive calls (opened (.ofModule m) source)).2.gate.variableName = none →
        (drive calls (opened (.ofModule m) source)).2 = opened (.ofModule m) source) ∧
      ∀ name, (drive calls (opened (.ofModule m) source)).2.gate.variableName = some name →
        (∃ constants, Filled m name constants (drive calls (opened (.ofModule m) source)).2 ∧
          constants.length = injections (drive calls (opened (.ofModule m) source)).1 ∧
          (drive calls (opened (.ofModule m) source)).2.draft.sequence.body.filter
            (·.introduces name) = constants) ∧
        (Single (drive calls (opened (.ofModule m) source)).2 name ↔
          injections (drive calls (opened (.ofModule m) source)).1 ≤ 1) := by
  rcases drive_opened m source calls with hsame | ⟨name, constants, hfilled, hlength⟩
  · refine ⟨fun _ => hsame, fun name hname => ?_⟩
    rw [hsame] at hname
    cases hname
  · refine ⟨fun hnone => ?_, fun name' hname' => ?_⟩
    · rw [hfilled.fixed] at hnone
      cases hnone
    · obtain rfl := Option.some.inj (hfilled.fixed.symm.trans hname')
      refine ⟨⟨constants, hfilled, hlength, hfilled.filter_body⟩, ?_⟩
      rw [hfilled.single_iff, hlength]

section

attribute [local instance] CharacterNames.nameless

/-- In `f` a gate that is closed twice after a request declares its variable twice, and the constant
of the gate is not the declaration of the binding. -/
theorem drive_closedTwice : ∃ m, Module.parse "f" none 0 = .ok m ∧
    ∃ b, b = (drive [.request,
        .close ⟨⟨[], ⟨.slash, []⟩⟩, "properties", fun _ => .ok [], none⟩,
        .close ⟨⟨[], ⟨.slash, []⟩⟩, "properties", fun _ => .ok [], none⟩]
          (opened (.ofModule m) "a.js")).2 ∧
      b.gate.variableName = some "_messages" ∧
      (b.draft.sequence.body.filter (·.introduces "_messages")).length = 2 ∧
      b.draft.scope.declarationOf? "_messages" ≠ b.gate.declaration.map (·.origin) := by
  have hruns : ((Module.parse "f" none 0).toOption.filter fun m =>
      let b := (drive [.request,
        .close ⟨⟨[], ⟨.slash, []⟩⟩, "properties", fun _ => .ok [], none⟩,
        .close ⟨⟨[], ⟨.slash, []⟩⟩, "properties", fun _ => .ok [], none⟩]
          (opened (.ofModule m) "a.js")).2
      decide (b.gate.variableName = some "_messages" ∧
        (b.draft.sequence.body.filter (·.introduces "_messages")).length = 2 ∧
        b.draft.scope.declarationOf? "_messages" ≠ b.gate.declaration.map (·.origin))).isSome := by
    decide +kernel
  obtain ⟨m, hm⟩ := Option.isSome_iff_exists.1 hruns
  obtain ⟨hm, hboth⟩ := Option.filter_eq_some_iff.1 hm
  exact ⟨m, Except.eq_ok_of_toOption hm, _, rfl, of_decide_eq_true hboth⟩

end

end Gate

end MessageBinder
