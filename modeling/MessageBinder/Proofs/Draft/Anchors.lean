import MessageBinder.Proofs.Draft.Edits
import MessageBinder.Proofs.Draft.Injection
import MessageBinder.Proofs.Draft.Repetition

/-!
# A pass never loses its anchors

An edit fails when the statement that it refers to is not in the sequence. For a statement that is
appended this is the tail of its origin, and so an origin is *anchored* as long as it stands in the
sequence together with its tail (`MessageBinder.Draft.Anchored`). Renaming goes through the
statements without moving them, what is appended is the tail from then on, and a list that ran empty
is removed at the very end of a visit, when nothing is going to be appended to it any more: a visit
never looks at a statement that is gone.

A step *maintains* a property of benches if it ends with a value in a bench that has the property
again (`MessageBinder.Drafting.Maintains`); it neither fails then nor notes anything. That is shown
for one step after the other, in the shape of the steps themselves, for anchors within a visit and
for `MessageBinder.Bench.Visits` between visits. So nothing is left that can fail but the path, the
listing of the directory and the loader (`MessageBinder.Module.anchored_bindMessages`).
-/

namespace MessageBinder

/-! ### Edits that succeed -/

namespace Sequence

/-- A statement with the given number is in the sequence. -/
def Has (q : Sequence) (n : Nat) : Prop := ∃ s ∈ q.body, s.origin.id = n

variable {q : Sequence} {origin stmt : Stmt}

theorem Has.exists_indexOf (h : q.Has stmt.origin.id) : ∃ i, q.indexOf stmt = .ok i := by
  obtain ⟨s, hs, hid⟩ := h
  have hfound : (q.body.findIdx? (·.origin.id = stmt.origin.id)).isSome := by
    rw [List.findIdx?_isSome, List.any_eq_true]
    exact ⟨s, hs, decide_eq_true hid⟩
  obtain ⟨i, hi⟩ := Option.isSome_iff_exists.1 hfound
  exact ⟨i, by rw [indexOf, hi]⟩

/-- A statement can be appended where the tail of its origin is in the sequence. -/
theorem Has.exists_appendAfter (h : q.Has (q.tailOf origin).origin.id) (stmt : Stmt) :
    ∃ q', q.appendAfter origin stmt = .ok q' := by
  obtain ⟨i, hi⟩ := h.exists_indexOf
  exact ⟨_, by rw [appendAfter, insertAfter, hi]; rfl⟩

/-- A statement can be removed where one with its number is in the sequence. -/
theorem Has.exists_remove (h : q.Has stmt.origin.id) : ∃ q', q.remove stmt = .ok q' := by
  obtain ⟨i, hi⟩ := h.exists_indexOf
  exact ⟨_, by rw [remove, hi]; rfl⟩

/-- Statements that stay where they are keep their numbers. -/
theorem Has.map (h : q.Has n) {f : Stmt → Stmt} (hf : ∀ s, (f s).origin.id = s.origin.id)
    (tails : List (Nat × Stmt)) : Has ⟨q.body.map f, tails⟩ n := by
  obtain ⟨s, hs, hid⟩ := h
  exact ⟨f s, List.mem_map_of_mem hs, (hf s).trans hid⟩

end Sequence

/-! ### Anchors -/

namespace Draft

/-- **A statement of a draft is anchored** if it is there, and so is the tail behind which the next
one goes that is appended to it. -/
structure Anchored (n : Nat) (d : Draft) : Prop where
  /-- The statement is there. -/
  statement : d.sequence.Has n
  /-- Its tail is there. -/
  tail : ∀ origin : Stmt, origin.origin.id = n →
    d.sequence.Has (d.sequence.tailOf origin).origin.id

namespace Anchored

variable {n : Nat} {d d' : Draft} {origin : Stmt}

theorem congr (h : d.Anchored n) (hsequence : d'.sequence = d.sequence) : d'.Anchored n :=
  ⟨hsequence ▸ h.statement, hsequence ▸ h.tail⟩

/-- Statements that stay where they are stay anchored. -/
theorem map (h : d.Anchored n) {f : Stmt → Stmt} (hf : ∀ s, (f s).origin.id = s.origin.id)
    (hsequence : d'.sequence = { d.sequence with body := d.sequence.body.map f }) :
    d'.Anchored n where
  statement := hsequence ▸ h.statement.map hf _
  tail origin horigin := by
    rw [hsequence]
    exact (h.tail origin horigin).map hf _

/-- **A statement can be appended** to one that is anchored, and is its tail from then on. -/
theorem exists_append (h : d.Anchored n) (horigin : origin.origin.id = n) (build : Nat → Stmt) :
    ∃ d', d.append origin build = .ok d' ∧ d'.Anchored n := by
  obtain ⟨q, hq⟩ := (h.tail origin horigin).exists_appendAfter (build d.next)
  refine ⟨{ d with sequence := q, scope := d.scope.register (build d.next)
                   next := d.next + Stmt.addedOrigins }, ?_, ?_⟩
  · rw [append, hq]
    rfl
  · obtain ⟨front, s, back, hbody, -, rfl⟩ := Sequence.appendAfter_eq_ok hq
    constructor
    · obtain ⟨t, ht, hid⟩ := h.statement
      rw [hbody] at ht
      refine ⟨t, ?_, hid⟩
      simp only [List.mem_append, List.mem_cons] at ht ⊢
      tauto
    · intro other hother
      have hsame : origin.origin.id = other.origin.id := horigin.trans hother.symm
      refine ⟨build d.next, by simp, ?_⟩
      rw [Sequence.tailOf, List.find?_cons_of_pos (by simpa using hsame)]
      rfl

/-- A statement that is there can be removed. -/
theorem exists_remove (h : d.Anchored n) (horigin : origin.origin.id = n) :
    ∃ d', d.remove origin = .ok d' := by
  obtain ⟨q, hq⟩ := (horigin ▸ h.statement : d.sequence.Has origin.origin.id).exists_remove
  exact ⟨_, by rw [remove, hq]; rfl⟩

end Anchored

/-- **What is left of a statement is anchored.** -/
theorem Arranged.anchored {m : Module} {cs : List Chunk} {d : Draft} (h : d.Arranged m cs)
    {c : Chunk} (hc : c ∈ cs) (hkept : c.kept.isSome) : d.Anchored c.id := by
  obtain ⟨s, hs⟩ := Option.isSome_iff_exists.1 hkept
  have hmem : ∀ t ∈ c.stmts, t ∈ d.sequence.body := fun t ht => by
    rw [h.body]
    exact List.mem_flatMap_of_mem hc ht
  have hthere : d.sequence.Has c.id :=
    ⟨s, hmem s (List.mem_append_left _ (by simp [hs])), h.kept c hc s hs⟩
  refine ⟨hthere, fun origin horigin => ?_⟩
  have htail : (d.sequence.tailOf origin).origin.id = c.last.origin.id := by
    rw [← h.tails c hc, Sequence.tailOf, Sequence.tailOf, horigin, Chunk.id]
    cases d.sequence.tails.find? (·.1 = c.origin.origin.id) with
    | none => exact horigin
    | some e => rfl
  rw [htail, Chunk.last]
  rcases List.eq_nil_or_concat c.added with hnil | ⟨front, t, hlast⟩
  · rw [hnil]
    exact hthere
  · rw [hlast, List.concat_eq_append, List.getLast?_concat]
    exact ⟨t, hmem t (List.mem_append_right _ (by simp [hlast])), rfl⟩

end Draft

/-! ### Steps that do not fail -/

namespace Drafting

variable {α β : Type} {P Q R : Bench → Prop}

/-- **A step leads** from one property of benches to another if from any bench that has the first it
ends with a value, in a bench that has the second. It does not fail then, and notes nothing. -/
def Leads (P : Bench → Prop) (x : Drafting α) (Q : Bench → Prop) : Prop :=
  ∀ b, P b → ∃ a b', Loads.Ends (StateT.run x b) (.ok (a, b')) [] ∧ Q b'

/-- A step maintains a property if it leads from it back to it. -/
abbrev Maintains (P : Bench → Prop) (x : Drafting α) : Prop := Leads P x P

theorem leads_pure (h : ∀ b, P b → Q b) (a : α) : Leads P (pure a) Q := fun b hb =>
  ⟨a, b, Loads.ends_pure _, h b hb⟩

theorem maintains_pure (a : α) : Maintains P (pure a) := leads_pure (fun _ hb => hb) a

theorem Leads.bind {x : Drafting α} {f : α → Drafting β} (h : Leads P x Q)
    (h' : ∀ a, Leads Q (f a) R) : Leads P (x >>= f) R := by
  intro b hb
  obtain ⟨a, b₁, hx, hb₁⟩ := h b hb
  obtain ⟨c, b₂, hf, hb₂⟩ := h' a b₁ hb₁
  refine ⟨c, b₂, ?_, hb₂⟩
  exact Loads.Ends.bind_quiet (f := fun p : α × Bench => StateT.run (f p.1) p.2) hx hf

theorem maintains_get : Maintains P (get : Drafting Bench) := fun b hb =>
  ⟨b, b, Loads.ends_pure _, hb⟩

theorem leads_modify {f : Bench → Bench} (h : ∀ b, P b → Q (f b)) :
    Leads P (modify f : Drafting Unit) Q := fun b hb => ⟨(), f b, Loads.ends_pure _, h b hb⟩

theorem leads_modifyGet {f : Bench → α × Bench} (h : ∀ b, P b → Q (f b).2) :
    Leads P (modifyGet f : Drafting α) Q := fun b hb =>
  ⟨(f b).1, (f b).2, Loads.ends_pure _, h b hb⟩

/-- An edit that succeeds does not fail the step. -/
theorem leads_edit {f : Draft → Except AbsentStmt Draft}
    (h : ∀ b, P b → ∃ d, f b.draft = .ok d ∧ Q { b with draft := d }) : Leads P (edit f) Q := by
  intro b hb
  obtain ⟨d, hd, hd'⟩ := h b hb
  have hrun : StateT.run (edit f) b = pure ((), { b with draft := d }) := by
    rw [edit, StateT.run_bind, StateT.run_get, pure_bind, hd]
    rfl
  exact ⟨(), { b with draft := d }, hrun ▸ Loads.ends_pure _, hd'⟩

/-! ### Within a visit -/

section Visit

variable {stmt : Stmt} {target : Target}

/-- The statement of a visit is anchored. -/
def Holds (stmt : Stmt) (b : Bench) : Prop := b.draft.Anchored stmt.origin.id

theorem maintains_freshName (seed : String) : Maintains (Holds stmt) (freshName seed) :=
  leads_modifyGet fun _ hb => hb.congr rfl

theorem maintains_request : Maintains (Holds stmt) Gate.request :=
  (leads_modify fun _ hb => hb.congr rfl).bind fun _ => maintains_get.bind fun _ => by
    split
    · exact maintains_pure _
    · exact (maintains_freshName _).bind fun name =>
        (leads_modify fun _ hb => hb.congr rfl).bind fun _ => maintains_pure name

theorem maintains_append (build : Nat → Stmt) :
    Maintains (Holds stmt) (edit (·.append stmt build)) :=
  leads_edit fun _ hb => hb.exists_append rfl build

theorem maintains_renameUses (name : String) (ids : List Identifier) :
    Maintains (Holds stmt)
      (modify fun b : Bench => { b with draft := b.draft.renameUses name ids }) :=
  leads_modify fun b hb =>
    hb.map (fun s => by rw [Stmt.origin_mapIds]) (b.draft.sequence_renameUses name ids)

/-- **Binding an imported name** does not fail. -/
theorem maintains_bindImported (name : String) :
    Maintains (Holds stmt) (bindImported stmt target name) :=
  maintains_get.bind fun _ => by
    split
    · exact maintains_pure _
    · split
      · exact maintains_pure _
      · exact (maintains_freshName _).bind fun _ => (maintains_renameUses _ _).bind fun _ =>
          maintains_request.bind fun _ => (maintains_append _).bind fun _ => maintains_pure _

theorem maintains_bindAll (specifiers : List ImportSpecifier) :
    Maintains (Holds stmt) (bindAll stmt target specifiers) := by
  induction specifiers with
  | nil => exact maintains_pure _
  | cons s specifiers ih =>
    exact (maintains_bindImported _).bind fun _ => ih.bind fun _ => maintains_pure _

/-- **Making a re-export anew** does not fail. -/
theorem maintains_moveExport (s : ExportSpecifier) :
    Maintains (Holds stmt) (moveExport stmt target s) :=
  (maintains_freshName _).bind fun _ => (maintains_freshName _).bind fun _ =>
    maintains_request.bind fun _ => (maintains_append _).bind fun _ =>
      (maintains_append _).bind fun _ => maintains_append _

theorem maintains_moveAll (specifiers : List ExportSpecifier) :
    Maintains (Holds stmt) (moveAll stmt target specifiers) := by
  induction specifiers with
  | nil => exact maintains_pure _
  | cons s specifiers ih => exact (maintains_moveExport s).bind fun _ => ih

/-- **Making the matching re-exports of a list anew** does not fail. A list that ran empty is
removed last, and so is anchored as long as anything is appended to it. -/
theorem leads_moveMatching (specifiers : List ExportSpecifier) (source : Option CodeText)
    (o : Origin) : Leads (fun b => b.draft.Anchored o.id) (moveMatching target specifiers source o)
      fun _ => True := by
  have hreplace : ∀ list : Stmt, list.origin.id = o.id → Maintains
      (fun b => b.draft.Anchored o.id)
      (modify fun b : Bench => { b with draft := b.draft.replace list }) := by
    intro list hlist
    refine leads_modify fun b hb => hb.map (f := fun s =>
      if s.origin.id = list.origin.id then list else s) (fun s => ?_) rfl
    split
    · rename_i heq
      exact heq.symm
    · rfl
  have hmove : ∀ kept moved, Maintains (fun b => b.draft.Anchored o.id)
      (moveAll (.exportNamed kept source o) target moved) := fun kept moved =>
    (maintains_moveAll moved : Maintains (Holds (.exportNamed kept source o)) _)
  refine (hreplace _ rfl).bind fun _ => (hmove _ _).bind fun _ => ?_
  dsimp only
  split
  · refine (leads_edit (Q := fun _ => True) fun b hb => ?_).bind fun _ =>
      leads_pure (fun _ _ => trivial) _
    have horigin : ∀ kept, (Stmt.exportNamed kept source o).origin.id = o.id := fun _ => rfl
    obtain ⟨d, hd⟩ := hb.exists_remove (horigin _)
    exact ⟨d, hd, trivial⟩
  · exact leads_pure (fun _ _ => trivial) _

end Visit

end Drafting

/-! ### Between visits -/

namespace Bench.Visits

variable {m : Module} {met : Nat → List Target} {b : Bench} {stmt : Stmt}

/-- **A visit does not fail**: what it looks at is there, and so it is anchored. -/
theorem exists_ends_bindStmt (h : b.Visits m met) (hm : m.Numbered) (hstmt : stmt ∈ m.body)
    (target : Target) : ∃ c b',
      Loads.Ends (StateT.run (Drafting.bindStmt stmt.origin.id target) b) (.ok (c, b')) [] := by
  obtain ⟨front, chunk, back, f, ha, -, -, rfl, hcurrent⟩ := h.current? hm hstmt
  rw [Drafting.bindStmt, StateT.run_bind, StateT.run_get, pure_bind, hcurrent]
  cases hkept : chunk.kept with
  | none => exact ⟨_, _, Loads.ends_pure _⟩
  | some s =>
    have hanchored : b.draft.Anchored s.origin.id := by
      rw [ha.kept chunk (by simp) s hkept]
      exact ha.anchored (by simp) (by rw [hkept]; rfl)
    dsimp only
    split
    · exact ⟨_, _, Loads.ends_pure _⟩
    · split
      · obtain ⟨c, b', hends, -⟩ := ((Drafting.maintains_bindAll _).bind fun n =>
          Drafting.maintains_pure (BoundCounts.mk n 0)) b hanchored
        exact ⟨c, b', hends⟩
      · obtain ⟨c, b', hends, -⟩ := ((Drafting.leads_moveMatching _ _ _).bind fun n =>
          Drafting.maintains_pure (BoundCounts.mk 0 n)) b hanchored
        exact ⟨c, b', hends⟩
      · exact ⟨_, _, Loads.ends_pure _⟩

end Bench.Visits

namespace Drafting

variable {m : Module} {stmt : Stmt}

/-- What ends with a value gives it. -/
theorem gives_of_ends {α : Type} {x : Drafting α} {b b' : Bench} {a : α}
    (h : Loads.Ends (StateT.run x b) (.ok (a, b')) []) : x.Gives b a b' := ⟨[], _, h []⟩

/-- A bench is between visits to the statements of a module. -/
def Between (m : Module) (b : Bench) : Prop := ∃ met, b.Visits m met

theorem maintains_bindStmt (hm : m.Numbered) (hstmt : stmt ∈ m.body) (target : Target) :
    Maintains (Between m) (bindStmt stmt.origin.id target) := by
  rintro b ⟨met, h⟩
  obtain ⟨c, b', hends⟩ := h.exists_ends_bindStmt hm hstmt target
  exact ⟨c, b', hends, _, (h.bindStmt hm hstmt (gives_of_ends hends)).1⟩

theorem maintains_bindTargets (hm : m.Numbered) (hstmt : stmt ∈ m.body) (targets : List Target) :
    Maintains (Between m) (bindTargets stmt.origin.id targets) := by
  induction targets with
  | nil => exact maintains_pure _
  | cons target targets ih =>
    exact (maintains_bindStmt hm hstmt target).bind fun _ => ih.bind fun _ => maintains_pure _

/-- **Binding statements does not fail**, whatever the targets are. -/
theorem maintains_bindStmts (hm : m.Numbered) (targets : List Target) {stmts : List Stmt}
    (hstmts : stmts ⊆ m.body) : Maintains (Between m) (bindStmts targets stmts) := by
  induction stmts with
  | nil => exact maintains_pure _
  | cons stmt stmts ih =>
    obtain ⟨hhead, htail⟩ := List.cons_subset.1 hstmts
    exact (maintains_bindTargets hm hhead targets).bind fun _ =>
      (ih htail).bind fun _ => maintains_pure _

end Drafting

/-! ### What added statements refer to -/

namespace Draft

/-- **A draft is grounded** if the names that the module declares are still declared, and so is
every name that an added statement uses, unless it is pending. -/
structure Grounded (m : Module) (pending : List String) (d : Draft) : Prop where
  /-- What the module declares is declared. -/
  declared : ∀ name, (ofModule m).Declares name → d.Declares name
  /-- Added uses are of declared names. -/
  added : ∀ u ∈ ScopeEvent.uses d.events, m.next ≤ u.2.origin.id →
    u.2.name ∈ pending ∨ d.Declares u.2.name

variable {m : Module} {d : Draft} {name : String}

theorem InOrder.isSome_moduleBinding? (h : d.InOrder) :
    (d.scope.moduleBinding? name).isSome ↔ d.Declares name := by
  rw [Scope.moduleBinding?, Scope.isSome_inFrame?, h.records.first, Binding.first?_isSome_iff]
  exact Iff.rfl

theorem grounded_ofModule (hm : m.Numbered) : (ofModule m).Grounded m [] where
  declared _ h := h
  added u hu hle := by
    have hlt := hm.use_lt hu
    omega

/-- **Every edit of a pass keeps a draft grounded.** -/
theorem kept_grounded (m : Module) : Kept m (Grounded m) where
  perm h hp := ⟨h.declared, fun u hu hle => (h.added u hu hle).imp_left hp.mem_iff.1⟩
  draw base _ h := ⟨h.declared, fun u hu hle =>
    (h.added u hu hle).imp_left (List.mem_cons_of_mem _)⟩
  renameUses {pending d name old binding} hext h hname hbinding := by
    obtain ⟨hmem, -⟩ := mem_bindings_of_moduleBinding? hbinding
    have hbindings := hext.inOrder.bindings_renameUses_uses hmem name
    have hdeclares : ∀ other, d.Declares other →
        (d.renameUses name binding.uses).Declares other := fun other hother => by
      rw [Declares, hbindings]
      exact hother
    refine ⟨fun other hother => hdeclares other (h.declared other hother), fun u hu hle => ?_⟩
    rw [uses_renameUses] at hu
    obtain ⟨v, hv, rfl⟩ := List.mem_map.1 hu
    split at hle
    · rename_i hnumber
      rw [if_pos hnumber]
      exact Or.inl hname
    · rename_i hnumber
      rw [if_neg hnumber]
      exact (h.added v hv hle).imp_right (hdeclares _)
  insert {pending rest d front back stmt} tails hext h hbody hadded hpending hused := by
    refine ⟨fun other hother => (h.declared other hother).inserted tails hbody, fun u hu hle => ?_⟩
    rcases List.mem_append.1 ((perm_uses_inserted hbody).mem_iff.1 hu) with hu | hu
    · rcases h.added u hu hle with hwaits | hthere
      · rcases List.mem_append.1 (hpending.mem_iff.1 hwaits) with hnow | hwaits
        · obtain ⟨b, hb, hname⟩ := List.mem_map.1 hnow
          rw [← hname]
          exact Or.inr (declares_inserted tails hbody hb (hadded.bindings b hb).1)
        · exact Or.inl hwaits
      · exact Or.inr (hthere.inserted tails hbody)
    · exact (hused u hu).2.imp_right fun hthere => hthere.inserted tails hbody
  pare {pending d front old new back} _ h hbody hpared := by
    have hevents : events { d with sequence := { d.sequence with body := front ++ new ++ back } }
        = d.events := events_pare hbody hpared
    refine ⟨fun other hother => ?_, fun u hu hle => ?_⟩
    · rw [Declares, hevents]
      exact h.declared other hother
    · rw [hevents] at hu
      rw [Declares, hevents]
      exact h.added u hu hle

end Draft

/-! ### Records that cannot be had -/

namespace CatalogueSource

/-- What makes the collection of a record fail: the directory cannot be listed, or the loader fails
on one of the files that match. -/
def Refuses (s : CatalogueSource) (source : String) (e : Failure) : Prop :=
  (∃ refusal, s.tree.filesIn (s.directory source) = .error refusal ∧ e = .file refusal) ∨
    ∃ names name, s.tree.filesIn (s.directory source) = .ok names ∧ name ∈ names ∧
      (Locale.ofFileName? (Path.ofString source).stem s.extension name).isSome ∧
      s.loader ((s.directory source).entryText name) = .error e

variable {s : CatalogueSource}

theorem loader_of_ends_loadAll {directory : Path} {files : List (String × String)}
    {collection : Table Json} {e : Failure} {paths : List String}
    (h : (s.loadAll directory files collection).Ends (.error e) paths) :
    ∃ f ∈ files, s.loader (directory.entryText f.1) = .error e := by
  induction files generalizing collection paths with
  | nil =>
    obtain ⟨heq, -⟩ := (Loads.ends_pure collection).unique h.run
    cases heq
  | cons f files ih =>
    have hload := Loads.ends_load s.loader (directory.entryText f.1)
    cases hc : s.loader (directory.entryText f.1) with
    | error e' =>
      rw [hc] at hload
      obtain ⟨heq, -⟩ := (hload.bind_error _).unique h.run
      obtain rfl := Except.error.inj heq
      exact ⟨f, List.mem_cons_self, hc⟩
    | ok catalogue =>
      rw [hc] at hload
      obtain ⟨r, paths', hrest, -⟩ := s.ends_loadAll directory files
        (Table.insert f.2 catalogue.toJson collection)
      obtain ⟨rfl, -⟩ := (hload.bind hrest).unique h.run
      obtain ⟨f', hf', hfails⟩ := ih hrest
      exact ⟨f', List.mem_cons_of_mem _ hf', hfails⟩

/-- **A record that cannot be collected** is refused by the directory or by the loader. -/
theorem refuses_of_ends_record {source : String} {e : Failure} {paths : List String}
    (h : (s.record source).Ends (.error e) paths) : s.Refuses source e := by
  rw [record_eq] at h
  have hscan : (s.scan (s.directory source)).Ends _ [] :=
    Loads.ends_ofExcept ((s.tree.filesIn (s.directory source)).mapError Failure.file)
  cases hfiles : s.tree.filesIn (s.directory source) with
  | error refusal =>
    rw [hfiles] at hscan
    obtain ⟨heq, -⟩ := (hscan.bind_error _).unique h.run
    exact Or.inl ⟨refusal, hfiles, Except.error.inj heq⟩
  | ok names =>
    rw [hfiles] at hscan
    obtain ⟨r, paths', hall, -⟩ := s.ends_loadAll (s.directory source)
      (matching (Path.ofString source).stem s.extension names) []
    obtain ⟨heq, -⟩ := (ends_recordBy hscan hall).unique h.run
    cases r with
    | ok collection => cases heq
    | error e' =>
      obtain rfl := Except.error.inj heq
      obtain ⟨f, hf, hfails⟩ := loader_of_ends_loadAll hall
      have hmatches := (perm_matching (Path.ofString source).stem s.extension names).mem_iff.1
        (List.mem_map_of_mem hf)
      obtain ⟨hmem, hname⟩ := List.mem_filter.1 hmatches
      exact Or.inr ⟨names, f.1, hfiles, hmem, hname, hfails⟩

end CatalogueSource

/-! ### Whole passes -/

/-- **What a pass builds refers to something.** -/
structure Module.Grounded (m : Module) (r : BoundModule) : Prop where
  /-- What the module imports is declared before and after the pass. -/
  imported : ∀ stmt s, m.Imports stmt s → (m.scope.moduleBinding? s.binding.name).isSome ∧
    (r.draft.scope.moduleBinding? s.binding.name).isSome
  /-- So is every name that an added statement uses. -/
  used : ∀ i ∈ r.draft.toModule.uses, m.next ≤ i.origin.id →
    (r.draft.scope.moduleBinding? i.name).isSome
  /-- In particular, a constant that was added binds a declared function to declared messages. -/
  bound : ∀ name function messages n, m.next ≤ n →
    Stmt.boundConstant name function messages n ∈ r.draft.toModule.body →
      (r.draft.scope.moduleBinding? function).isSome ∧
        (r.draft.scope.moduleBinding? messages).isSome
  /-- The constant that holds the messages is built when the variable has a name. -/
  held : r.injected → ∃ name literal n back, r.variableName = some name ∧
    r.draft.toModule.body = Stmt.messagesConstant name literal n :: back

namespace Module

variable {text : String} {filename : Option String} {base : Nat} {m : Module}
  {targets : List Target} {catalogues : CatalogueSource} {path : Option String} {r : BoundModule}

theorem Imports.declares {stmt : Stmt} {s : ImportSpecifier} (h : m.Imports stmt s) :
    (Draft.ofModule m).Declares s.binding.name := by
  refine ⟨s.madeBinding stmt, ?_, rfl⟩
  change _ ∈ ScopeEvent.bindings m.events
  rw [bindings_events]
  exact List.mem_append_left _ h.madeBinding_mem

theorem grounded_of_bindMessages (hm : m.Numbered)
    (hrun : (m.bindMessages targets catalogues path).run.1 = .ok r) : m.Grounded r := by
  obtain ⟨hextends, hgrounded⟩ :=
    (Draft.kept_grounded m).bindMessages hm (Draft.grounded_ofModule hm) hrun
  have hbinding : ∀ name, r.draft.Declares name → (r.draft.scope.moduleBinding? name).isSome :=
    fun name => hextends.inOrder.isSome_moduleBinding?.2
  have hused : ∀ i ∈ r.draft.toModule.uses, m.next ≤ i.origin.id →
      (r.draft.scope.moduleBinding? i.name).isSome := by
    intro i hi hle
    rw [Module.uses, ← Stmt.uses_moduleEvents] at hi
    obtain ⟨u, hu, rfl⟩ := List.mem_map.1 hi
    exact hbinding _ ((hgrounded.added u hu hle).resolve_left List.not_mem_nil)
  refine ⟨fun stmt s hs => ?_, hused, fun name function messages n hle hmem => ?_,
    fun hinjected => ?_⟩
  · exact ⟨(Draft.inOrder_ofModule hm).isSome_moduleBinding?.2 hs.declares,
      hbinding _ (hgrounded.declared _ hs.declares)⟩
  · have huse : ∀ i ∈ (Stmt.boundConstant name function messages n).uses,
        i ∈ r.draft.toModule.uses := fun i hi => by
      rw [Module.uses, Stmt.usesList_eq_flatMap]
      exact List.mem_flatMap_of_mem hmem hi
    have hfunction := hused _ (huse (Stmt.addedId function (n + 2)) List.mem_cons_self)
      (Nat.le_add_right_of_le hle)
    have hmessages := hused _ (huse (Stmt.addedId messages (n + 3))
      (List.mem_cons_of_mem _ List.mem_cons_self)) (Nat.le_add_right_of_le hle)
    exact ⟨hfunction, hmessages⟩
  · obtain ⟨gate, b₁, b₂, hgate, hstmts, hclose, hdraft, hvariable⟩ := gives_bindMessages hrun
    have hbound := (Bench.extends_ofModule hm hgate).bindStmts hstmts
    rcases Gate.gives_close hclose with ⟨-, hidle, -⟩ | ⟨hasked, -, literal, hlast, hname⟩
    · rw [hidle] at hinjected
      cases hinjected
    · obtain ⟨name, hthere⟩ :=
        Option.ne_none_iff_exists'.1 fun hnone => hasked (hbound.requests.2 hnone)
      refine ⟨name, literal, b₁.draft.next, b₁.draft.sequence.body,
        hvariable.trans (hname.trans hthere), ?_⟩
      rw [hdraft, hlast, hthere]
      rfl

/-- **A pass with a path** binds its statements and is then told by the collection of the messages:
if nothing was bound nothing happened, and else it ends as the collection does. -/
theorem run_bindMessages_of_path (hm : m.Numbered) (targets : List Target)
    (catalogues : CatalogueSource) {source : String} (hsource : source ≠ "") : ∃ c b,
      Loads.Ends (StateT.run (Drafting.bindStmts targets m.body) ⟨.ofModule m, { source }⟩)
        (.ok (c, b)) [] ∧
      (c.total = 0 → (m.bindMessages targets catalogues (some source)).run
        = (.ok ⟨.ofModule m, c, false, none⟩, [])) ∧
      (c.total ≠ 0 → ∃ name, b.gate.variableName = some name ∧
        (m.bindMessages targets catalogues (some source)).run
          = ((catalogues.record source).run.1.map (recorded c b),
            (catalogues.record source).run.2)) := by
  have hgate := Gate.ofPath_of_ne hsource
  obtain ⟨c, b, hends, -⟩ := Drafting.maintains_bindStmts hm targets (List.Subset.refl m.body)
    ⟨.ofModule m, { source }⟩ ⟨_, Bench.Visits.ofModule hm hgate⟩
  have hstmts := Drafting.gives_of_ends hends
  have htallies := tallies_of_bindStmts hm hstmts
  refine ⟨c, b, hends, fun hzero => ?_, fun hne => ?_⟩
  · obtain rfl := Drafting.eq_of_bindStmts hstmts hzero
    exact (ends_bindMessagesBy hgate hstmts (ends_closeBy_of_idle rfl)).run
  · have hasked : b.gate.requests ≠ 0 := htallies.requests ▸ hne
    have hbound := (Bench.extends_ofModule hm hgate).bindStmts hstmts
    obtain ⟨name, hname⟩ :=
      Option.ne_none_iff_exists'.1 fun hnone => hasked (hbound.requests.2 hnone)
    obtain ⟨r, paths, hrecord, -⟩ := catalogues.exists_ends_recordBy source
    have hcollect : (catalogues.record source).run = (r, paths) := hrecord.run
    rw [hcollect]
    exact ⟨name, hname, (ends_bindMessagesBy_of_asked hgate hstmts hasked
      (htallies.source ▸ hrecord)).run⟩

/-- **A pass never loses its anchors.** It fails without a path, before it looks at a statement;
with one, binding the statements ends with a value, whatever the targets are, and what can fail then
is the listing of the directory of the source and the loader on one of the files that match, both
with their own failure and only if something was bound. What a pass that ends has built refers to
declared names only. -/
theorem anchored_bindMessages [CharacterNames] (hparse : parse text filename base = .ok m)
    (targets : List Target) (catalogues : CatalogueSource) (path : Option String) :
    (path = none ∨ path = some "" →
      (m.bindMessages targets catalogues path).run = (.error (.config .missingFilename), [])) ∧
    (∀ source, source ≠ "" → path = some source → ∃ c b,
      Loads.Ends (StateT.run (Drafting.bindStmts targets m.body) ⟨.ofModule m, { source }⟩)
        (.ok (c, b)) [] ∧
      (c.total = 0 → (m.bindMessages targets catalogues path).run
        = (.ok ⟨.ofModule m, c, false, none⟩, [])) ∧
      (c.total ≠ 0 → ∃ name, b.gate.variableName = some name ∧
        (m.bindMessages targets catalogues path).run
          = ((catalogues.record source).run.1.map (recorded c b),
            (catalogues.record source).run.2))) ∧
    (∀ e, (m.bindMessages targets catalogues path).run.1 = .error e →
      (e = .config .missingFilename ∧ (path = none ∨ path = some "")) ∨
        ∃ source, source ≠ "" ∧ path = some source ∧ catalogues.Refuses source e) ∧
    ∀ r, (m.bindMessages targets catalogues path).run.1 = .ok r → m.Grounded r := by
  have hm := numbered_of_parse hparse
  have hmissing : path = none ∨ path = some "" →
      (m.bindMessages targets catalogues path).run = (.error (.config .missingFilename), []) := by
    rintro (rfl | rfl) <;>
    · rw [bindMessages_eq, bindMessagesBy_of_missing rfl]
      exact (Loads.ends_throw _).run
  refine ⟨hmissing, ?_, fun e he => ?_, fun r hr => grounded_of_bindMessages hm hr⟩
  · rintro source hsource rfl
    exact run_bindMessages_of_path hm targets catalogues hsource
  · rcases Gate.ofPath_cases path with ⟨hpath, -⟩ | ⟨source, hsource, rfl, -⟩
    · rw [hmissing hpath] at he
      exact Or.inl ⟨(Except.error.inj he).symm, hpath⟩
    · refine Or.inr ⟨source, hsource, rfl, ?_⟩
      obtain ⟨c, b, -, hnothing, hsomething⟩ :=
        run_bindMessages_of_path hm targets catalogues hsource
      by_cases hzero : c.total = 0
      · rw [hnothing hzero] at he
        cases he
      · obtain ⟨-, -, hrun⟩ := hsomething hzero
        obtain ⟨r, paths, hrecord, -⟩ := catalogues.exists_ends_recordBy source
        have hcollect : (catalogues.record source).run = (r, paths) := hrecord.run
        rw [hrun, hcollect] at he
        cases r with
        | ok record => cases he
        | error e' =>
          obtain rfl := Except.error.inj he
          exact CatalogueSource.refuses_of_ends_record hrecord

section

attribute [local instance] CharacterNames.nameless

/-- Two equal imports, a re-export that runs empty, a name that is declared three times, and a
target that is given twice. -/
theorem anchored_bindMessages_alike : ∃ m r,
    parse
      "import { f } from \"m\"; import { f } from \"m\"; var f = f(); export { f, g } from \"m\""
      none 0 = .ok m ∧
      (m.bindMessages [⟨"f", "m"⟩, ⟨"g", "m"⟩, ⟨"f", "m"⟩]
        ⟨⟨[], ⟨.relative, []⟩⟩, "properties", fun _ => .ok [], none⟩ (some "a.js")).run.1 = .ok r ∧
      r.counts.imports = 4 ∧ r.counts.exports = 2 ∧ m.Grounded r := by
  have hruns : ((parse
      "import { f } from \"m\"; import { f } from \"m\"; var f = f(); export { f, g } from \"m\""
      none 0).toOption.bind fun m =>
      (m.bindMessages [⟨"f", "m"⟩, ⟨"g", "m"⟩, ⟨"f", "m"⟩]
        ⟨⟨[], ⟨.relative, []⟩⟩, "properties", fun _ => .ok [], none⟩
        (some "a.js")).run.1.toOption.filter fun r =>
          r.counts.imports = 4 ∧ r.counts.exports = 2).isSome := by
    decide +kernel
  obtain ⟨r, hr⟩ := Option.isSome_iff_exists.1 hruns
  obtain ⟨m, hm, hr⟩ := Option.bind_eq_some_iff.1 hr
  obtain ⟨hr, hcounts⟩ := Option.filter_eq_some_iff.1 hr
  obtain ⟨himports, hexports⟩ := of_decide_eq_true hcounts
  have hparse := Except.eq_ok_of_toOption hm
  have hrun := Except.eq_ok_of_toOption hr
  obtain ⟨-, -, -, hgrounded⟩ := anchored_bindMessages hparse [⟨"f", "m"⟩, ⟨"g", "m"⟩, ⟨"f", "m"⟩]
    ⟨⟨[], ⟨.relative, []⟩⟩, "properties", fun _ => .ok [], none⟩ (some "a.js")
  exact ⟨m, r, hparse, hrun, himports, hexports, hgrounded r hrun⟩

end

end Module

end MessageBinder
