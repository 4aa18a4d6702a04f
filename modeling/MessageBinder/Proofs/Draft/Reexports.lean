import MessageBinder.Proofs.Draft.Frame
import MessageBinder.Proofs.Draft.Interface

/-!
# Re-exports made anew

A re-export that a pass has been over keeps the names that no target takes, in their order, and goes
only when there were names and none is left. For each name that was taken three statements stand
behind it, next to each other: the import of the function, the constant that binds it, and the
export under the name that others know. They are ordered by targets first and by the order of the
list second (`MessageBinder.Chunk.Rehomed`). A target that is given again takes nothing more.

All this holds for any targets and any module. The two names that are drawn for each triple differ
from each other and from everything else that the pass makes up, and from all names of the module
that its scope has taken. Whether they differ from all names of the module is told by the binders
that the scope overlooks (`MessageBinder.Module.Rehomed.apart_iff`), and there they may fail to:
`if (x) const _fImport = 1` keeps no import from being called `_fImport`.
-/

namespace MessageBinder

/-! ### Names that are drawn -/

/-- The names that statements of a module declare in it. -/
def Stmt.declaredNames (ss : List Stmt) : List String :=
  (ScopeEvent.bindings (declaresList [.module] ss)).map Binding.name

@[simp] theorem Stmt.declaredNames_append (ss ss' : List Stmt) :
    declaredNames (ss ++ ss') = declaredNames ss ++ declaredNames ss' := by
  rw [declaredNames, declaresList_append, ScopeEvent.bindings_append, List.map_append]
  rfl

/-- **What is put in at later numbers declares names that a draft adds**, in the order of the
statements. -/
theorem Draft.sublist_addedNames {d : Draft} {ss : List Stmt} {n : Nat}
    (hbody : ss.Sublist d.sequence.body) (hle : ∀ s ∈ ss, ∀ i ∈ s.identifiers, n ≤ i.origin.id) :
    (Stmt.declaredNames ss).Sublist (d.addedNames n) := by
  have hdeclares : (ScopeEvent.bindings (Stmt.declaresList [.module] ss)).Sublist
      (ScopeEvent.bindings d.events) :=
    ((hbody.flatMap _).trans (List.sublist_append_left _ _)).filterMap _
  have hlater : (ScopeEvent.bindings (Stmt.declaresList [.module] ss)).filter
      (n ≤ ·.identifier.origin.id) = ScopeEvent.bindings (Stmt.declaresList [.module] ss) := by
    refine List.filter_eq_self.2 fun b hb => decide_eq_true ?_
    obtain ⟨c, i, kind, o, he, rfl⟩ := ScopeEvent.mem_bindings.1 hb
    obtain ⟨i', hi, kind', o', heq⟩ := Stmt.declaresOne_of_mem_moduleDeclares he
    obtain ⟨-, rfl, -⟩ := ScopeEvent.declare.inj heq
    have hmem := Stmt.uses_append_binders_subset ss (List.mem_append_right _ hi)
    rw [Stmt.identifiersList_eq_flatMap] at hmem
    obtain ⟨s, hs, hi⟩ := List.mem_flatMap.1 hmem
    exact hle s hs i hi
  rw [Stmt.declaredNames, ← hlater]
  exact (hdeclares.filter _).map _

/-- The names that are drawn for a re-export. -/
def Rehoming.names (r : Rehoming) : List String := [r.imported, r.bound]

/-- What is made for names that were taken declares the names drawn for them. -/
theorem Rehoming.declaredNames_stmts (rs : List Rehoming) (messages : String) :
    Stmt.declaredNames (rs.flatMap (·.stmts messages)) = rs.flatMap Rehoming.names := by
  induction rs with
  | nil => rfl
  | cons r rs ih =>
    rw [List.flatMap_cons, Stmt.declaredNames_append, ih]
    rfl

/-! ### One re-export -/

/-- A list without its repetitions has none. -/
theorem List.nodup_eraseDups {α : Type} [BEq α] [LawfulBEq α] (as : List α) :
    as.eraseDups.Nodup := by
  match as with
  | [] => exact List.nodup_nil
  | a :: as =>
    have hlength := List.length_filter_le (!· == a) as
    rw [List.eraseDups_cons, List.nodup_cons, List.mem_eraseDups]
    exact ⟨by simp, List.nodup_eraseDups _⟩
termination_by as.length
decreasing_by rw [List.length_cons]; omega

/-- **A re-export is rehomed**: the names that no target takes are left, and for each of the others
there are three statements behind. -/
structure Chunk.Rehomed (targets : List Target) (messages : String)
    (specifiers : List ExportSpecifier) (source : CodeText) (o : Origin) (rs : List Rehoming)
    (c : Chunk) : Prop where
  /-- The names that no target takes are left in their order. -/
  kept : ∀ s ∈ c.kept,
    s = .exportNamed (specifiers.filter fun e => !targets.any (·.takes source e)) (some source) o
  /-- The statement goes when there were names and none is left. -/
  removed : c.kept = none ↔ specifiers ≠ [] ∧ ∀ e ∈ specifiers, ∃ t ∈ targets, t.takes source e
  /-- Behind it stand the statements for the names that were taken, and nothing else. -/
  added : c.added = rs.flatMap (·.stmts messages)
  /-- Each name that is taken is made anew once. -/
  once : (rs.map Rehoming.specifier).Perm
    (specifiers.filter fun e => targets.any (·.takes source e))
  /-- Targets come in their order, and with each the names that it takes in theirs. -/
  order : rs.map (fun r => (r.target, r.specifier))
    = targets.eraseDups.flatMap fun t => (specifiers.filter (t.takes source)).map (t, ·)
  /-- What is imported is the function that was re-exported, from where it was. -/
  matched : ∀ r ∈ rs, r.target ∈ targets ∧ r.target.module = source ∧
    r.target.function = r.specifier.source.name

/-- What targets take from a re-export is what is not left of it. -/
theorem Stmt.perm_takenBy_filter {targets : List Target} (htargets : targets.Nodup)
    (specifiers : List ExportSpecifier) (source : CodeText) (o : Origin) :
    (((Stmt.exportNamed specifiers (some source) o).takenBy targets).map Prod.snd).Perm
      (specifiers.filter fun e => targets.any (·.takes source e)) := by
  have hall := (List.filter_append_perm (fun e => !targets.any (·.takes source e))
    specifiers).trans (Stmt.perm_takenBy htargets specifiers source o)
  simpa only [Bool.not_not] using ((List.perm_append_left_iff _).1 hall).symm

/-- **The chunk of a re-export** that was synthesized from what the targets take. -/
theorem Chunk.rehomed_of_synthesized {m : Module} {targets : List Target} {messages : String}
    {bs : List BoundImport} {rs : List Rehoming} {c : Chunk} {specifiers : List ExportSpecifier}
    {source : CodeText} {o : Origin} (horigin : c.origin = .exportNamed specifiers (some source) o)
    (hkept : c.kept = c.origin.pared targets)
    (h : c.Synthesized m messages [] (c.origin.takenBy targets.eraseDups) bs rs) :
    c.Rehomed targets messages specifiers source o rs := by
  obtain rfl : bs = [] := List.map_eq_nil_iff.1 h.bound
  have htaken := h.taken
  rw [horigin] at hkept htaken
  refine ⟨fun s hs => ?_, ?_, h.added, ?_, htaken, fun r hr => ?_⟩
  · rw [hkept, Option.mem_def] at hs
    obtain ⟨-, hne⟩ | ⟨_, _, _, heq, rfl⟩ := Stmt.pared_eq_some hs
    · exact absurd rfl (hne _ _ _)
    · obtain ⟨rfl, hsource, rfl⟩ := Stmt.exportNamed.inj heq
      obtain rfl := Option.some.inj hsource
      rfl
  · rw [hkept, Stmt.pared_eq_none_iff]
    constructor
    · rintro ⟨_, _, _, heq, hne, hall⟩
      obtain ⟨rfl, hsource, -⟩ := Stmt.exportNamed.inj heq
      obtain rfl := Option.some.inj hsource
      exact ⟨hne, hall⟩
    · rintro ⟨hne, hall⟩
      exact ⟨specifiers, source, o, rfl, hne, hall⟩
  · -- repetitions among the targets take nothing more
    have hany : (fun e => targets.eraseDups.any (·.takes source e))
        = fun e => targets.any (·.takes source e) := by
      funext e
      rw [Bool.eq_iff_iff, List.any_eq_true, List.any_eq_true]
      simp only [List.mem_eraseDups]
    have hperm := Stmt.perm_takenBy_filter (List.nodup_eraseDups targets) specifiers source o
    rwa [← htaken, List.map_map, hany] at hperm
  · obtain ⟨hmem, htakes⟩ := Stmt.mem_takenBy (htaken ▸ List.mem_map_of_mem hr)
    simp only [Target.takes, Target.matchesExport, Bool.and_eq_true, decide_eq_true_eq] at htakes
    exact ⟨List.mem_eraseDups.1 hmem, htakes.1.symm, htakes.2.symm⟩

/-! ### Whole passes -/

/-- **The re-exports of a module are rehomed**: the module that a pass makes consists of the
messages, if there are any, and of a chunk for each statement of the module in turn, and what was
put in declares new names. -/
structure Module.Rehomed (m : Module) (targets : List Target) (r : BoundModule)
    (front : Option Stmt) (cs : List Chunk) (messages : String) (made : Chunk → List Rehoming) :
    Prop where
  /-- The statements. -/
  body : r.draft.toModule.body = front.toList ++ cs.flatMap Chunk.stmts
  /-- What is in front is the constant that holds the messages. -/
  holds : ∀ s ∈ front, ∃ literal n, s = .messagesConstant messages literal n
  /-- They are there if anything was made for a re-export. -/
  held : front = none → cs.flatMap made = []
  /-- There is a chunk for each statement, in the order of the module. -/
  origins : cs.map Chunk.origin = m.body
  /-- Every re-export is rehomed. -/
  rehomed : ∀ c ∈ cs, ∀ specifiers source o,
    c.origin = .exportNamed specifiers (some source) o →
      c.Rehomed targets messages specifiers source o (made c)
  /-- No other statement is. -/
  others : ∀ c ∈ cs, (∀ specifiers source o, c.origin ≠ .exportNamed specifiers (some source) o) →
    made c = []
  /-- What was put in declares different names. -/
  nodup : (Stmt.declaredNames (front.toList ++ cs.flatMap Chunk.added)).Nodup
  /-- None of them is taken in the module. -/
  fresh : ∀ name ∈ Stmt.declaredNames (front.toList ++ cs.flatMap Chunk.added),
    ¬ m.scope.hasName name
  /-- None is the name of a use or of a binder that is noticed. -/
  apart : ∀ name ∈ Stmt.declaredNames (front.toList ++ cs.flatMap Chunk.added),
    ∀ id ∈ m.uses ++ m.noticed, id.name ≠ name
  /-- No name that is drawn for a re-export is that of any use or binder, exactly when none is that
  of an overlooked binder. -/
  apart_iff : (∀ name ∈ (cs.flatMap made).flatMap Rehoming.names,
      ∀ id ∈ m.uses ++ m.binders, id.name ≠ name) ↔
    ∀ id ∈ m.overlooked, id.name ∉ (cs.flatMap made).flatMap Rehoming.names

/-- Where nothing was put in nothing was made for a re-export. -/
theorem Chunk.Synthesized.eq_nil {m : Module} {messages : String}
    {specifiers : List ImportSpecifier} {taken : List (Target × ExportSpecifier)}
    {bs : List BoundImport} {rs : List Rehoming} {c : Chunk}
    (h : c.Synthesized m messages specifiers taken bs rs) (hnil : c.added = []) : rs = [] := by
  rw [h.added, List.append_eq_nil_iff, List.flatMap_eq_nil_iff] at hnil
  exact List.eq_nil_iff_forall_not_mem.2 fun r hr => List.cons_ne_nil _ _ (hnil.2 r hr)

/-- **A pass leaves chunks**: the messages, if there are any, and a chunk for each statement of the
module in turn. What is behind a statement was made for the names that the targets take from it. -/
structure Module.Chunked (m : Module) (targets : List Target) (r : BoundModule)
    (front : Option Stmt) (cs : List Chunk) (messages : String) (made : Chunk → List Rehoming) :
    Prop where
  /-- The module has only grown. -/
  grown : Draft.Extends m [] r.draft
  /-- The statements. -/
  body : r.draft.toModule.body = front.toList ++ cs.flatMap Chunk.stmts
  /-- What is in front is the constant that holds the messages. -/
  holds : ∀ s ∈ front, ∃ literal n, s = .messagesConstant messages literal n ∧ m.next ≤ n
  /-- Without messages nothing is put in. -/
  held : front = none → ∀ c ∈ cs, c.added = []
  /-- There is a chunk for each statement, in the order of the module. -/
  origins : cs.map Chunk.origin = m.body
  /-- What is left of a statement keeps its number. -/
  number : ∀ c ∈ cs, ∀ s ∈ c.kept, s.origin.id = c.id
  /-- What is left of a statement in which nothing is used. -/
  kept : ∀ c ∈ cs, c.origin.uses = [] → c.kept = c.origin.pared targets
  /-- What is put in has later numbers. -/
  later : ∀ c ∈ cs, ∀ s ∈ c.added, ∀ i ∈ s.identifiers, m.next ≤ i.origin.id
  /-- What is put in. -/
  made : ∀ c ∈ cs, ∃ bs, c.Synthesized m messages
    ((targets.flatMap (·.specifiers c.origin)).filter fun s => m.scope.isUsed s.binding.name)
    (c.origin.takenBy targets.eraseDups) bs (made c)

/-- The name that an import of one name of a source gives it. -/
def Stmt.importedAs? (name : String) (source : CodeText) : Stmt → Option String
  | .importDecl [.named name' binding _] source' _ =>
    if name' = name ∧ source' = source then some binding.name else none
  | _ => none

theorem Stmt.eq_importDecl_of_importedAs? {s : Stmt} {name n : String} {source : CodeText}
    (h : s.importedAs? name source = some n) :
    ∃ binding o o', s = .importDecl [.named name binding o] source o' ∧ binding.name = n := by
  unfold Stmt.importedAs? at h
  split at h
  · rename_i name' binding o source' o'
    obtain ⟨⟨rfl, rfl⟩, hname⟩ := Option.ite_none_right_eq_some.1 h
    exact ⟨binding, o, o', rfl, Option.some.inj hname⟩
  · cases h

namespace Module

variable {text : String} {filename : Option String} {base : Nat} {m : Module}
  {targets : List Target} {catalogues : CatalogueSource} {path : Option String} {r : BoundModule}

/-- **Every pass leaves chunks.** -/
theorem exists_chunked_of_bindMessages [CharacterNames] (hparse : parse text filename base = .ok m)
    (hrun : (m.bindMessages targets catalogues path).run.1 = .ok r) :
    ∃ front cs messages made, m.Chunked targets r front cs messages made := by
  have hm := numbered_of_parse hparse
  obtain ⟨gate, b₁, b₂, hgate, hstmts, hclose, hdraft, -⟩ := gives_bindMessages hrun
  obtain ⟨met, done, hframes, hthere⟩ := Bench.Frames.of_bindStmts hm hgate hstmts
  obtain ⟨k, hk⟩ := hframes.visits.extended
  obtain ⟨cs, f, v, ha, hf, hremains, hmade, hv⟩ := hframes.chunks
  obtain ⟨hgrown, -, -⟩ := hk.close hclose
  rw [← hdraft] at hgrown
  have horigin : ∀ c ∈ cs, c.origin ∈ m.body := fun c hc => ha.origins ▸ List.mem_map_of_mem hc
  have hmet : ∀ c ∈ cs, met c.id = targets := fun c hc => (hthere c.origin (horigin c hc)).1
  have hdone : ∀ c ∈ cs, done c.id = targets.flatMap (·.specifiers c.origin) := fun c hc =>
    (hthere c.origin (horigin c hc)).2
  choose! bs made hmade using fun c hc => (hmade c hc).made
  -- what does not depend on whether the messages were put in
  have hchunked : ∀ front messages,
      r.draft.toModule.body = front.toList ++ cs.flatMap Chunk.stmts →
      (∀ s ∈ front, ∃ literal n, s = .messagesConstant messages literal n ∧ m.next ≤ n) →
      (front = none → ∀ c ∈ cs, c.added = []) →
      (∀ c ∈ cs, v = messages ∨ c.added = []) → m.Chunked targets r front cs messages made := by
    intro front messages hbody hfront hheld hvariable
    refine ⟨hgrown, hbody, hfront, hheld, ha.origins, ha.kept, fun c hc huses => ?_,
      fun c hc s hs => (ha.added c hc s hs).2, fun c hc => ⟨bs c, ?_⟩⟩
    · rw [(hremains c hc).kept_eq hm (hf.renames hm) (horigin c hc) huses, hmet c hc]
    · have hchunk := (hmade c hc).change (hvariable c hc)
      rwa [hdone c hc, hmet c hc] at hchunk
  rcases Gate.gives_close hclose with ⟨hzero, hinjected, rfl⟩ |
    ⟨hpositive, hinjected, literal, hlast, -⟩
  · refine ⟨none, cs, v, made, hchunked none v ?_ (by simp) (fun _ => ?_) fun c hc => Or.inl rfl⟩
    · rw [hdraft]
      exact ha.body
    · refine hv.resolve_left fun hname => ?_
      rw [hk.requests.1 hzero] at hname
      cases hname
  · obtain ⟨name, hname⟩ :=
      Option.ne_none_iff_exists'.1 fun hnone => hpositive (hk.requests.2 hnone)
    rw [hname, Option.getD_some, Draft.prepend_eq] at hlast
    refine ⟨some (Stmt.messagesConstant name literal b₁.draft.next), cs, name, made,
      hchunked _ name ?_ ?_ (by simp) fun c hc => ?_⟩
    · rw [hdraft, hlast]
      exact congrArg (Stmt.messagesConstant name literal b₁.draft.next :: ·) ha.body
    · rintro s hs
      exact ⟨literal, _, (Option.mem_some_iff.1 hs).symm, hk.draft.next_le⟩
    · exact hv.imp (fun hv => Option.some.inj (hv.symm.trans hname)) fun hnil => hnil c hc

namespace Chunked

variable {front : Option Stmt} {cs : List Chunk} {messages : String}
  {made : Chunk → List Rehoming}

/-- What was put in declares names that the draft has added. -/
theorem sublist_addedNames (h : m.Chunked targets r front cs messages made) :
    (Stmt.declaredNames (front.toList ++ cs.flatMap Chunk.added)).Sublist
      (r.draft.addedNames m.next) := by
  refine Draft.sublist_addedNames ?_ fun s hs i hi => ?_
  · have hchunks : (cs.flatMap Chunk.added).Sublist (cs.flatMap Chunk.stmts) :=
      List.Sublist.flatMap_right cs fun c _ => List.sublist_append_right _ _
    have hbody : r.draft.sequence.body = _ := h.body
    exact hbody ▸ hchunks.append_left front.toList
  · rcases List.mem_append.1 hs with hs | hs
    · obtain ⟨literal, n, rfl, hle⟩ := h.holds s (Option.mem_toList.1 hs)
      obtain rfl := List.mem_singleton.1 hi
      exact Nat.le_add_right_of_le hle
    · obtain ⟨c, hc, hs⟩ := List.mem_flatMap.1 hs
      exact h.later c hc s hs i hi

/-- The names that are drawn for re-exports are declared by what was put in. -/
theorem names_subset (h : m.Chunked targets r front cs messages made) :
    (cs.flatMap made).flatMap Rehoming.names
      ⊆ Stmt.declaredNames (front.toList ++ cs.flatMap Chunk.added) := by
  have hmade := h.made
  clear h
  rw [Stmt.declaredNames_append]
  refine List.subset_append_of_subset_right _ ?_
  induction cs with
  | nil => exact List.Subset.refl _
  | cons c cs ih =>
    obtain ⟨⟨bs, hc⟩, hcs⟩ := List.forall_mem_cons.1 hmade
    rw [List.flatMap_cons, List.flatMap_append, List.flatMap_cons, Stmt.declaredNames_append,
      hc.added, Stmt.declaredNames_append, Rehoming.declaredNames_stmts]
    intro name hname
    rcases List.mem_append.1 hname with hname | hname
    · exact List.mem_append_left _ (List.mem_append_right _ hname)
    · exact List.mem_append_right _ (ih hcs hname)

/-- The chunk of a re-export. -/
theorem rehomed_chunk (h : m.Chunked targets r front cs messages made) {c : Chunk} (hc : c ∈ cs)
    {specifiers : List ExportSpecifier} {source : CodeText} {o : Origin}
    (horigin : c.origin = .exportNamed specifiers (some source) o) :
    c.Rehomed targets messages specifiers source o (made c) := by
  obtain ⟨bs, hmade⟩ := h.made c hc
  have hnone : targets.flatMap (·.specifiers c.origin) = [] :=
    List.flatMap_eq_nil_iff.2 fun t _ => Target.specifiers_of_ne (by rw [horigin]; simp)
  rw [hnone] at hmade
  exact Chunk.rehomed_of_synthesized horigin (h.kept c hc (by rw [horigin]; rfl)) hmade

end Chunked

/-- **Re-exports are rehomed**, whatever the targets are and however often they are given. -/
theorem rehomed_of_bindMessages [CharacterNames] (hparse : parse text filename base = .ok m)
    (hrun : (m.bindMessages targets catalogues path).run.1 = .ok r) :
    ∃ front cs messages made, m.Rehomed targets r front cs messages made := by
  obtain ⟨front, cs, messages, made, h⟩ := exists_chunked_of_bindMessages hparse hrun
  have hnames := h.sublist_addedNames
  have hfresh : ∀ name ∈ Stmt.declaredNames (front.toList ++ cs.flatMap Chunk.added),
      ¬ m.scope.hasName name := fun name hname => (h.grown.fresh name (hnames.subset hname)).2
  have hapart : ∀ name ∈ Stmt.declaredNames (front.toList ++ cs.flatMap Chunk.added),
      ∀ id ∈ m.uses ++ m.noticed, id.name ≠ name := by
    rintro name hname id hid rfl
    refine hfresh _ hname ((m.hasName_scope_iff _).2 ?_)
    exact (List.mem_append.1 hid).imp (fun h => ⟨id, h, rfl⟩) fun h => ⟨id, h, rfl⟩
  refine ⟨front, cs, messages, made, h.body, fun s hs => ?_, fun hnone => ?_, h.origins,
    fun c hc specifiers source o heq => h.rehomed_chunk hc heq, fun c hc hne => ?_,
    hnames.nodup h.grown.nodup, hfresh, hapart,
    apart_binders_iff fun name hname => hapart name (h.names_subset hname)⟩
  · obtain ⟨literal, n, heq, -⟩ := h.holds s hs
    exact ⟨literal, n, heq⟩
  · refine List.flatMap_eq_nil_iff.2 fun c hc => ?_
    obtain ⟨bs, hmade⟩ := h.made c hc
    exact hmade.eq_nil (h.held hnone c hc)
  · obtain ⟨bs, hmade⟩ := h.made c hc
    have htaken := hmade.taken
    rwa [Stmt.takenBy_of_ne hne, List.map_eq_nil_iff] at htaken

section

attribute [local instance] CharacterNames.nameless

/-- In `export { f as a, g, f } from "m"` with the target given twice, `g` is left, and there are
three statements for each of the others. -/
theorem rehomed_of_bindMessages_repeated : ∃ m r,
    parse "export { f as a, g, f } from \"m\"" none 0 = .ok m ∧
      (m.bindMessages [⟨"f", "m"⟩, ⟨"f", "m"⟩]
        ⟨⟨[], ⟨.relative, []⟩⟩, "properties", fun _ => .ok [], none⟩
        (some "a.js")).run.1 = .ok r ∧ r.draft.toModule.body.length = 8 ∧
      ∃ front cs messages made,
        m.Rehomed [⟨"f", "m"⟩, ⟨"f", "m"⟩] r front cs messages made := by
  have hruns : ((parse "export { f as a, g, f } from \"m\"" none
      0).toOption.bind fun m => (m.bindMessages [⟨"f", "m"⟩, ⟨"f", "m"⟩]
        ⟨⟨[], ⟨.relative, []⟩⟩, "properties", fun _ => .ok [], none⟩
        (some "a.js")).run.1.toOption.filter fun r =>
          r.draft.toModule.body.length = 8).isSome := by
    decide +kernel
  obtain ⟨r, hr⟩ := Option.isSome_iff_exists.1 hruns
  obtain ⟨m, hm, hr⟩ := Option.bind_eq_some_iff.1 hr
  obtain ⟨hr, hlength⟩ := Option.filter_eq_some_iff.1 hr
  have hparse := Except.eq_ok_of_toOption hm
  have hrun := Except.eq_ok_of_toOption hr
  exact ⟨m, r, hparse, hrun, of_decide_eq_true hlength, rehomed_of_bindMessages hparse hrun⟩

/-- In `if (x) const _fImport = 1; export { f } from "m"` the import that is made for the re-export
has the name of the constant in the branch. -/
theorem bindMessages_rehomed_collision : ∃ m r,
    parse "if (x) const _fImport = 1; export { f } from \"m\"" none 0 = .ok m ∧
      (m.bindMessages [⟨"f", "m"⟩] ⟨⟨[], ⟨.relative, []⟩⟩, "properties", fun _ => .ok [], none⟩
        (some "a.js")).run.1 = .ok r ∧
      ∃ i ∈ m.binders, ∃ binding o o', .importDecl [.named "f" binding o] "m" o'
        ∈ r.draft.toModule.body ∧ binding.name = i.name := by
  have hruns : ((parse "if (x) const _fImport = 1; export { f } from \"m\"" none
      0).toOption.bind fun m => (m.bindMessages [⟨"f", "m"⟩]
        ⟨⟨[], ⟨.relative, []⟩⟩, "properties", fun _ => .ok [], none⟩
        (some "a.js")).run.1.toOption.filter fun r => m.binders.any fun i =>
          r.draft.toModule.body.any fun s => s.importedAs? "f" "m" = some i.name).isSome := by
    decide +kernel
  obtain ⟨r, hr⟩ := Option.isSome_iff_exists.1 hruns
  obtain ⟨m, hm, hr⟩ := Option.bind_eq_some_iff.1 hr
  obtain ⟨hr, hany⟩ := Option.filter_eq_some_iff.1 hr
  obtain ⟨i, hi, hany⟩ := List.any_eq_true.1 hany
  obtain ⟨s, hs, hname⟩ := List.any_eq_true.1 hany
  obtain ⟨binding, o, o', rfl, heq⟩ := Stmt.eq_importDecl_of_importedAs? (of_decide_eq_true hname)
  exact ⟨m, r, Except.eq_ok_of_toOption hm, Except.eq_ok_of_toOption hr, i, hi, binding, o, o', hs,
    heq⟩

end

end Module

end MessageBinder
