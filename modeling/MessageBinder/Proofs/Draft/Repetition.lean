import Mathlib.Algebra.GroupWithZero.Nat
import MessageBinder.Proofs.Draft.Visiting

/-!
# Repeated targets

A list of targets may name one target twice. For a re-export the second visit finds nothing left of
what the first one took. For an import it does find something: the constant that the first visit
appended uses the import, so that the second visit renames that use too and appends a constant
behind it, which the first constant then uses before it is there.

So a repeated target is harmless exactly when no import that it matches has uses
(`MessageBinder.Module.bindMessages_eraseDups`): then the pass is the same computation as with the
repetition left out, with the same files loaded and the same failures; otherwise it binds more. The
number of imports that a pass binds is told by the module alone
(`MessageBinder.Module.imports_of_bindMessages`).
-/

namespace MessageBinder

/-! ### Computations with the same outcome -/

/-- Computations are the same if they go on in the same way from every value that may be given. -/
theorem Loads.bind_congr {α β : Type} {x : Loads α} {f g : α → Loads β}
    (h : ∀ a, x.Gives a → f a = g a) : x >>= f = x >>= g := by
  funext log
  refine (run_bind x f log).trans (Eq.trans ?_ (run_bind x g log).symm)
  cases hx : StateT.run (ExceptT.run x) log with
  | mk r log' =>
    cases r with
    | error e => rfl
    | ok a =>
      exact congrArg (fun y : Loads β => StateT.run (ExceptT.run y) log') (h a ⟨log, log', hx⟩)

namespace Drafting

variable {α β : Type} {b : Bench}

/-- Computations are the same on a bench if they go on in the same way from whatever is given. -/
theorem run_bind_congr {x : Drafting α} {f g : α → Drafting β}
    (h : ∀ a b', x.Gives b a b' → (f a).run b' = (g a).run b') :
    (x >>= f).run b = (x >>= g).run b := by
  rw [StateT.run_bind, StateT.run_bind]
  exact Loads.bind_congr fun r hr => h r.1 r.2 hr

/-- Imported names without uses are left alone. -/
theorem run_bindAll_of_unused {stmt : Stmt} {target : Target} {specifiers : List ImportSpecifier}
    (h : ∀ s ∈ specifiers, b.draft.scope.isUsed s.binding.name = false) :
    (bindAll stmt target specifiers).run b = pure (0, b) := by
  induction specifiers with
  | nil => rfl
  | cons s specifiers ih =>
    obtain ⟨hs, hrest⟩ := List.forall_mem_cons.1 h
    have hone : (bindImported stmt target s.binding.name).run b = pure (false, b) := by
      rw [bindImported, StateT.run_bind, StateT.run_get, pure_bind]
      cases hbinding : b.draft.scope.moduleBinding? s.binding.name with
      | none => rfl
      | some binding =>
        rw [Scope.isUsed, hbinding, Option.any_some, Bool.not_eq_false'] at hs
        simp only [hs, if_true]
        rfl
    rw [bindAll, StateT.run_bind, hone, pure_bind, StateT.run_bind, ih hrest, pure_bind]
    rfl

end Drafting

/-! ### Visits without effect -/

/-- The specifiers of a module that a target matches and that have uses. -/
def Module.boundBy (m : Module) (t : Target) : List ImportSpecifier :=
  (Target.allSpecifiers [t] m.body).filter (m.scope.isUsed ·.binding.name)

namespace Bench.Visits

variable {m : Module} {met : Nat → List Target} {b b' : Bench} {stmt : Stmt}

/-- **A second visit** does nothing, if no import that the target matches has uses. -/
theorem run_bindStmt (h : b.Visits m met) (hm : m.Numbered) (hstmt : stmt ∈ m.body) {t : Target}
    (hmet : t ∈ met stmt.origin.id)
    (hunused : ∀ s ∈ t.specifiers stmt, m.scope.isUsed s.binding.name = false) :
    (Drafting.bindStmt stmt.origin.id t).run b = pure ({}, b) := by
  obtain ⟨front, c, back, f, ha, hf, hremains, rfl, hkept⟩ := h.current? hm hstmt
  have hremain := hremains c (by simp)
  rw [Drafting.bindStmt, StateT.run_bind, StateT.run_get, pure_bind, hkept]
  cases hthere : c.kept with
  | none => rfl
  | some s =>
    by_cases hconcerns : t.concerns s
    · simp only [hconcerns, Bool.not_true, Bool.false_eq_true, if_false]
      cases s with
      | importDecl specifiers source o =>
        have horigin := hremain.origin_of_importDecl hm hf hstmt hthere
        rw [horigin, Target.specifiers_of_concerns hconcerns] at hunused
        have hnone : ∀ s ∈ specifiers.filter t.matchesImport,
            b.draft.scope.isUsed s.binding.name = false := by
          intro s hs
          have himports : m.Imports c.origin s :=
            ⟨hstmt, specifiers, source, o, horigin, List.mem_of_mem_filter hs⟩
          rw [h.isUsed_eq hm himports.hasName]
          exact hunused s hs
        rw [StateT.run_bind, Drafting.run_bindAll_of_unused hnone, pure_bind]
        rfl
      | exportNamed specifiers source o =>
        -- of a re-export nothing is left that the target takes
        obtain rfl := Target.source_of_concerns hconcerns
        have hpared := hremain.pared_of_exportNamed hm hf hstmt hthere
        exact absurd hconcerns (Stmt.not_concerns_of_pared hmet hpared rfl)
      | _ => rfl
    · simp only [hconcerns, Bool.not_false, if_true]
      rfl

/-- Further visits by a target that a statement has met may be left out. -/
theorem run_bindTargets_filter (h : b.Visits m met) (hm : m.Numbered) (hstmt : stmt ∈ m.body)
    {t : Target} (hmet : t ∈ met stmt.origin.id) {targets : List Target}
    (hunused : t ∈ targets → ∀ s ∈ t.specifiers stmt, m.scope.isUsed s.binding.name = false) :
    (Drafting.bindTargets stmt.origin.id targets).run b
      = (Drafting.bindTargets stmt.origin.id (targets.filter fun t' => !t' == t)).run b := by
  induction targets generalizing b met with
  | nil => rfl
  | cons t' targets ih =>
    by_cases hsame : t' = t
    · subst hsame
      have hidle := h.run_bindStmt hm hstmt hmet (hunused (by simp))
      rw [List.filter_cons_of_neg (by simp), ← ih h hmet fun hmem =>
        hunused (List.mem_cons_of_mem _ hmem)]
      rw [Drafting.bindTargets, StateT.run_bind, hidle, pure_bind, StateT.run_bind]
      have hcounts : ∀ r : BoundCounts × Bench,
          StateT.run (pure (({} : BoundCounts).add r.1) : Drafting BoundCounts) r.2
            = (pure r : Loads (BoundCounts × Bench)) := fun r => by
        rw [StateT.run_pure, BoundCounts.add, Nat.zero_add, Nat.zero_add]
      simp only [hcounts, bind_pure]
    · rw [List.filter_cons_of_pos (by simpa using hsame)]
      refine Drafting.run_bind_congr fun c b₁ hvisit => ?_
      obtain ⟨h₁, -⟩ := h.bindStmt hm hstmt hvisit
      rw [StateT.run_bind, StateT.run_bind,
        ih h₁ ?_ fun hmem => hunused (List.mem_cons_of_mem _ hmem)]
      rw [Function.update_self]
      exact List.mem_append_left _ hmet

/-- **Repeated visits** may be left out, if no import that a repeated target matches has uses. -/
theorem run_bindTargets_eraseDups (h : b.Visits m met) (hm : m.Numbered) (hstmt : stmt ∈ m.body)
    {targets : List Target} (hunused : ∀ t, 1 < targets.count t → ∀ s ∈ t.specifiers stmt,
      m.scope.isUsed s.binding.name = false) :
    (Drafting.bindTargets stmt.origin.id targets).run b
      = (Drafting.bindTargets stmt.origin.id targets.eraseDups).run b := by
  induction hlength : targets.length using Nat.strongRecOn generalizing targets b met with
  | _ n ih =>
    cases targets with
    | nil => rfl
    | cons t targets =>
      have hcount : ∀ t', (targets.filter fun t' => !t' == t).count t' ≤ (t :: targets).count t' :=
        fun t' => (List.filter_sublist.cons _).count_le t'
      rw [List.eraseDups_cons]
      refine Drafting.run_bind_congr fun c b₁ hvisit => ?_
      obtain ⟨h₁, -⟩ := h.bindStmt hm hstmt hvisit
      rw [StateT.run_bind, StateT.run_bind, h₁.run_bindTargets_filter hm hstmt (t := t)
        (by simp [Function.update_self]) fun hmem => hunused t (by
          have hpos := List.count_pos_iff.2 hmem
          rw [List.count_cons_self]
          omega)]
      refine congrArg (· >>= _) (ih _ ?_ h₁ (fun t' ht' => hunused t' ?_) rfl)
      · rw [← hlength, List.length_cons]
        exact Nat.lt_succ_of_le (List.length_filter_le _ _)
      · exact Nat.lt_of_lt_of_le ht' (hcount t')

/-- Letting a statement meet targets leaves a bench between visits and counts what is used. -/
theorem bindTargets (h : b.Visits m met) (hm : m.Numbered) (hstmt : stmt ∈ m.body)
    {targets : List Target} {c : BoundCounts}
    (hgives : (Drafting.bindTargets stmt.origin.id targets).Gives b c b') :
    (∃ met', b'.Visits m met') ∧ c.imports
      = ((targets.flatMap (·.specifiers stmt)).filter (m.scope.isUsed ·.binding.name)).length := by
  refine Drafting.bindTargets_induction (P := fun front c b => (∃ met, b.Visits m met) ∧ c.imports
    = ((front.flatMap (·.specifiers stmt)).filter (m.scope.isUsed ·.binding.name)).length) hgives
    ⟨⟨met, h⟩, rfl⟩ ?_
  rintro front t back c₁ b₁ c₂ b₂ rfl ⟨⟨_, h⟩, hcount⟩ hvisit
  obtain ⟨h', hcount'⟩ := h.bindStmt hm hstmt hvisit
  refine ⟨⟨_, h'⟩, ?_⟩
  rw [List.flatMap_append, List.flatMap_singleton, List.filter_append, List.length_append,
    ← hcount, ← hcount']
  rfl

/-- Letting statements meet targets leaves a bench between visits and counts what is used. -/
theorem bindStmts (h : b.Visits m met) (hm : m.Numbered) {targets : List Target}
    {stmts : List Stmt} (hstmts : stmts ⊆ m.body) {c : BoundCounts}
    (hgives : (Drafting.bindStmts targets stmts).Gives b c b') :
    (∃ met', b'.Visits m met') ∧ c.imports = ((Target.allSpecifiers targets stmts).filter
      (m.scope.isUsed ·.binding.name)).length := by
  refine Drafting.bindStmts_induction (P := fun front c b => (∃ met, b.Visits m met) ∧ c.imports
    = ((Target.allSpecifiers targets front).filter (m.scope.isUsed ·.binding.name)).length) hgives
    ⟨⟨met, h⟩, rfl⟩ ?_
  rintro front s back c₁ b₁ c₂ b₂ rfl ⟨⟨_, h⟩, hcount⟩ hvisits
  obtain ⟨h', hcount'⟩ := h.bindTargets hm (hstmts (by simp)) hvisits
  refine ⟨h', ?_⟩
  rw [Target.allSpecifiers, List.flatMap_append, List.flatMap_singleton, List.filter_append,
    List.length_append, ← Target.allSpecifiers, ← hcount, ← hcount']
  rfl

/-- Repeated visits may be left out of a pass. -/
theorem run_bindStmts_eraseDups (h : b.Visits m met) (hm : m.Numbered) {targets : List Target}
    (hunused : ∀ t, 1 < targets.count t → m.boundBy t = []) {stmts : List Stmt}
    (hstmts : stmts ⊆ m.body) :
    (Drafting.bindStmts targets stmts).run b
      = (Drafting.bindStmts targets.eraseDups stmts).run b := by
  induction stmts generalizing b met with
  | nil => rfl
  | cons stmt stmts ih =>
    obtain ⟨hhead, htail⟩ := List.cons_subset.1 hstmts
    have hthere : ∀ t, 1 < targets.count t → ∀ s ∈ t.specifiers stmt,
        m.scope.isUsed s.binding.name = false := by
      intro t ht s hs
      have hnone := List.filter_eq_nil_iff.1 (hunused t ht) s
        (List.mem_flatMap.2 ⟨stmt, hhead, by simpa using hs⟩)
      simpa using hnone
    rw [Drafting.bindStmts, Drafting.bindStmts, StateT.run_bind, StateT.run_bind,
      h.run_bindTargets_eraseDups hm hhead hthere]
    refine Loads.bind_congr fun r hgives => ?_
    obtain ⟨⟨met₁, h₁⟩, -⟩ := h.bindTargets hm hhead hgives
    rw [StateT.run_bind, StateT.run_bind, ih h₁ htail]

end Bench.Visits

/-! ### Whole passes -/

/-- A sum over a list is that without an element and so many times what the element adds. -/
theorem List.sum_map_eq_count_mul_add {α : Type} [BEq α] [LawfulBEq α] (g : α → Nat) (a : α)
    (as : List α) :
    (as.map g).sum = as.count a * g a + ((as.filter fun b => !b == a).map g).sum := by
  induction as with
  | nil => simp
  | cons b as ih =>
    rw [List.map_cons, List.sum_cons, ih]
    by_cases hb : b = a
    · subst hb
      rw [List.count_cons_self, List.filter_cons_of_neg (by simp), Nat.succ_mul]
      omega
    · rw [List.count_cons_of_ne hb, List.filter_cons_of_pos (by simpa using hb), List.map_cons,
        List.sum_cons]
      omega

/-- A sum over a list is that without repetitions only if repeated elements add nothing. -/
theorem List.sum_map_eraseDups {α : Type} [BEq α] [LawfulBEq α] (g : α → Nat) (as : List α) :
    (as.eraseDups.map g).sum ≤ (as.map g).sum ∧
      ((as.eraseDups.map g).sum = (as.map g).sum → ∀ a, 1 < as.count a → g a = 0) := by
  induction hlength : as.length using Nat.strongRecOn generalizing as with
  | _ n ih =>
    cases as with
    | nil => simp
    | cons a as =>
      obtain ⟨hle, hzero⟩ := ih (as.filter fun b => !b == a).length
        (hlength ▸ Nat.lt_succ_of_le (List.length_filter_le _ _)) _ rfl
      rw [List.eraseDups_cons, List.map_cons, List.sum_cons, List.map_cons, List.sum_cons,
        List.sum_map_eq_count_mul_add g a as]
      refine ⟨by omega, fun heq b hb => ?_⟩
      by_cases hsame : b = a
      · subst hsame
        rw [List.count_cons_self] at hb
        have hnone : as.count b * g b = 0 := by omega
        exact (Nat.mul_eq_zero.1 hnone).resolve_left (by omega)
      · refine hzero (by omega) b ?_
        rw [List.count_cons_of_ne (Ne.symm hsame)] at hb
        rwa [List.count_filter (by simpa using hsame)]

/-- What several targets match is what each of them matches. -/
theorem Target.length_allSpecifiers (p : ImportSpecifier → Bool) (targets : List Target)
    (stmts : List Stmt) : ((allSpecifiers targets stmts).filter p).length
      = (targets.map fun t => ((allSpecifiers [t] stmts).filter p).length).sum := by
  induction targets with
  | nil => simp [allSpecifiers]
  | cons t targets ih =>
    have hperm : (allSpecifiers [t] stmts ++ allSpecifiers targets stmts).Perm
        (allSpecifiers (t :: targets) stmts) := by
      simpa [allSpecifiers] using List.flatMap_append_perm stmts (Target.specifiers t)
        fun stmt => targets.flatMap (·.specifiers stmt)
    rw [← (hperm.filter p).length_eq, List.filter_append, List.length_append, ih, List.map_cons,
      List.sum_cons]

namespace Module

variable {text : String} {filename : Option String} {base : Nat} {m : Module}
  {targets : List Target} {catalogues : CatalogueSource} {path : Option String}

/-- **The number of imports that a pass binds**: of each target, as often as it is listed, the
specifiers that it matches and that have uses. -/
theorem imports_of_bindMessages [CharacterNames] {r : BoundModule}
    (hparse : parse text filename base = .ok m) (hrun :
    (m.bindMessages targets catalogues path).run.1 = .ok r) :
    r.counts.imports = (targets.map fun t => (m.boundBy t).length).sum := by
  have hm := numbered_of_parse hparse
  obtain ⟨gate, b₁, b₂, hgate, hstmts, -⟩ := gives_bindMessages hrun
  obtain ⟨-, hcount⟩ :=
    (Bench.Visits.ofModule hm hgate).bindStmts hm (List.Subset.refl _) hstmts
  rw [hcount, Target.length_allSpecifiers]
  rfl

/-- **Repeated targets**: where no import that a repeated target matches has uses, the repetition
may be left out and the pass is the same in everything; elsewhere the pass binds more often. -/
theorem bindMessages_eraseDups [CharacterNames] (hparse : parse text filename base = .ok m) :
    ((∀ t, 1 < targets.count t → m.boundBy t = []) →
      m.bindMessages targets catalogues path
        = m.bindMessages targets.eraseDups catalogues path) ∧
    ∀ r r', (m.bindMessages targets catalogues path).run.1 = .ok r →
      (m.bindMessages targets.eraseDups catalogues path).run.1 = .ok r' →
      (r.counts = r'.counts ↔ ∀ t, 1 < targets.count t → m.boundBy t = []) := by
  have hm := numbered_of_parse hparse
  have hharmless : (∀ t, 1 < targets.count t → m.boundBy t = []) →
      m.bindMessages targets catalogues path
        = m.bindMessages targets.eraseDups catalogues path := by
    intro hunused
    refine Loads.bind_congr fun gate hgate => ?_
    have hok := Loads.gives_ofExcept hgate
    have hstart : Bench.Visits m (fun _ => []) ⟨.ofModule m, gate⟩ := by
      cases hpath : Gate.ofPath path with
      | error e =>
        rw [hpath] at hok
        cases hok
      | ok gate' =>
        rw [hpath] at hok
        obtain rfl := Except.ok.inj hok
        exact .ofModule hm hpath
    simp only [StateT.run_bind, hstart.run_bindStmts_eraseDups hm hunused (List.Subset.refl _)]
  refine ⟨hharmless, fun r r' hrun hrun' => ⟨fun hcounts t ht => ?_, fun hunused => ?_⟩⟩
  · have hsum := congrArg BoundCounts.imports hcounts
    rw [imports_of_bindMessages hparse hrun, imports_of_bindMessages hparse hrun'] at hsum
    exact List.eq_nil_of_length_eq_zero ((List.sum_map_eraseDups _ targets).2 hsum.symm t ht)
  · rw [hharmless hunused, hrun'] at hrun
    rw [Except.ok.inj hrun]

section

attribute [local instance] CharacterNames.nameless

/-- In `import { f } from "m"; export { f } from "m"` the import has no uses, so that the target may
be given twice. -/
theorem bindMessages_eraseDups_exported : ∃ m,
    parse "import { f } from \"m\"; export { f } from \"m\"" none 0 = .ok m ∧
      (∀ t, 1 < ([⟨"f", "m"⟩, ⟨"f", "m"⟩] : List Target).count t → m.boundBy t = []) ∧
      ∀ catalogues path, m.bindMessages [⟨"f", "m"⟩, ⟨"f", "m"⟩] catalogues path
        = m.bindMessages [⟨"f", "m"⟩] catalogues path := by
  have hparses : ((parse "import { f } from \"m\"; export { f } from \"m\"" none
      0).toOption.filter fun m => decide (m.boundBy ⟨"f", "m"⟩ = [])).isSome := by
    decide +kernel
  obtain ⟨m, hm⟩ := Option.isSome_iff_exists.1 hparses
  obtain ⟨hm, hunused⟩ := Option.filter_eq_some_iff.1 hm
  have hnone : ∀ t, 1 < ([⟨"f", "m"⟩, ⟨"f", "m"⟩] : List Target).count t → m.boundBy t = [] := by
    intro t ht
    have hmem := List.count_pos_iff.1 (Nat.lt_trans Nat.zero_lt_one ht)
    obtain rfl : t = ⟨"f", "m"⟩ := by simpa using hmem
    exact of_decide_eq_true hunused
  have hparse := Except.eq_ok_of_toOption hm
  exact ⟨m, hparse, hnone, fun _ _ => (bindMessages_eraseDups hparse).1 hnone⟩

/-- In `import { f } from "m"; f()` a target that is given twice is bound twice. -/
theorem bindMessages_repeated : ∃ m r r',
    parse "import { f } from \"m\"; f()" none 0 = .ok m ∧
      (m.bindMessages [⟨"f", "m"⟩, ⟨"f", "m"⟩]
        ⟨⟨[], ⟨.relative, []⟩⟩, "properties", fun _ => .ok [], none⟩
        (some "a.js")).run.1 = .ok r ∧
      (m.bindMessages [⟨"f", "m"⟩] ⟨⟨[], ⟨.relative, []⟩⟩, "properties", fun _ => .ok [], none⟩
        (some "a.js")).run.1 = .ok r' ∧
      r.counts = ⟨2, 0⟩ ∧ r'.counts = ⟨1, 0⟩ := by
  have hruns : ((parse "import { f } from \"m\"; f()" none 0).toOption.bind fun m =>
      ((m.bindMessages [⟨"f", "m"⟩, ⟨"f", "m"⟩]
        ⟨⟨[], ⟨.relative, []⟩⟩, "properties", fun _ => .ok [], none⟩
        (some "a.js")).run.1.toOption.filter fun r => r.counts = ⟨2, 0⟩).bind fun _ =>
      (m.bindMessages [⟨"f", "m"⟩] ⟨⟨[], ⟨.relative, []⟩⟩, "properties", fun _ => .ok [], none⟩
        (some "a.js")).run.1.toOption.filter fun r => r.counts = ⟨1, 0⟩).isSome := by
    decide +kernel
  obtain ⟨r', hr'⟩ := Option.isSome_iff_exists.1 hruns
  obtain ⟨m, hm, hr'⟩ := Option.bind_eq_some_iff.1 hr'
  obtain ⟨r, hr, hr'⟩ := Option.bind_eq_some_iff.1 hr'
  obtain ⟨hr, htwo⟩ := Option.filter_eq_some_iff.1 hr
  obtain ⟨hr', hone⟩ := Option.filter_eq_some_iff.1 hr'
  exact ⟨m, r, r', Except.eq_ok_of_toOption hm, Except.eq_ok_of_toOption hr,
    Except.eq_ok_of_toOption hr', of_decide_eq_true htwo, of_decide_eq_true hone⟩

end

end Module

end MessageBinder
