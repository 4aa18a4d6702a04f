import MessageBinder.Proofs.Draft.Synthesis

/-!
# What a pass leaves alone

A pass puts statements in, takes names out of re-exports, and renames uses. This file says what it
does *not* touch, for any list of targets and any module that can be read
(`MessageBinder.Module.framed_of_bindMessages`).

What is left of a statement is the statement, or a re-export of the names that no target takes; only
a re-export all of whose names are taken goes. But for the names of uses it is what it was. Nothing
comes of the statements that were put in themselves, although some of them import from the module of
a target: what stands behind a statement is accounted for by the specifiers and names of that
statement alone.

The invariant between visits (`MessageBinder.Bench.Frames`) counts the targets that a statement has
met and the specifiers that are done with, as lists with repetitions.
-/

namespace MessageBinder

/-! ### Along the pass -/

/-- **A bench frames a module** between visits: names are redirected, what is left of the statements
is what the targets left, and what was put in was made for specifiers that are done with and for
names that were taken. -/
structure Bench.Frames (m : Module) (names : List String) (met : Nat → List Target)
    (done : Nat → List ImportSpecifier) (b : Bench) : Prop where
  /-- Statements have met targets. -/
  visits : b.Visits m met
  /-- The chunks are what is left and what was put in, with one variable. -/
  chunks : ∃ cs f v, b.draft.Arranged m cs ∧ m.Redirects names f ∧ (∀ c ∈ cs, c.Remains f met) ∧
    (∀ c ∈ cs, c.MadeFor m v (done c.id) (met c.id)) ∧
    (b.gate.variableName = some v ∨ ∀ c ∈ cs, c.added = [])

namespace Bench.Frames

variable {m : Module} {names : List String} {met : Nat → List Target}
  {done : Nat → List ImportSpecifier} {b b' : Bench} {stmt : Stmt} {target : Target}

/-- At first nothing is put in. -/
theorem ofModule (hm : m.Numbered) (names : List String) {path : Option String} {gate : Gate}
    (hgate : Gate.ofPath path = .ok gate) :
    Bench.Frames m names (fun _ => []) (fun _ => []) ⟨.ofModule m, gate⟩ where
  visits := .ofModule hm hgate
  chunks := by
    refine ⟨_, fun i => i, "", Draft.arranged_ofModule m, .id m names, ?_, ?_, Or.inr ?_⟩
    · rintro c hc
      obtain ⟨s, -, rfl⟩ := List.mem_map.1 hc
      rw [Chunk.Remains, Stmt.pared_nil_targets, Option.map_some, s.mapIds_eq_self fun _ _ => rfl]
    · rintro c hc
      obtain ⟨s, -, rfl⟩ := List.mem_map.1 hc
      exact .nil m "" s
    · rintro c hc
      obtain ⟨s, -, rfl⟩ := List.mem_map.1 hc
      rfl

/-- The chunk of a statement. -/
theorem exists_chunk (h : b.Frames m names met done) (hm : m.Numbered) (hstmt : stmt ∈ m.body) :
    ∃ front c back f v, b.draft.Arranged m (front ++ c :: back) ∧ m.Redirects names f ∧
      (∀ c' ∈ front ++ c :: back, c'.Remains f met) ∧
      (∀ c' ∈ front ++ c :: back, c'.MadeFor m v (done c'.id) (met c'.id)) ∧
      (b.gate.variableName = some v ∨ ∀ c' ∈ front ++ c :: back, c'.added = []) ∧
      c.origin = stmt ∧ b.draft.current? stmt.origin.id = c.kept := by
  obtain ⟨cs, f, v, ha, hf, hremains, hmade, hv⟩ := h.chunks
  obtain ⟨front, c, back, rfl, rfl⟩ := ha.exists_chunk hstmt
  exact ⟨front, c, back, f, v, ha, hf, hremains, hmade, hv, rfl,
    ha.current?_eq hm h.visits.inOrder (by simp)⟩

/-- A specifier without uses is done with. -/
theorem skip (h : b.Frames m names met done) (hm : m.Numbered) {s : ImportSpecifier}
    (hs : m.Imports stmt s) (hunused : m.scope.isUsed s.binding.name = false) :
    b.Frames m names met
      (Function.update done stmt.origin.id (done stmt.origin.id ++ [s])) where
  visits := h.visits
  chunks := by
    obtain ⟨cs, f, v, ha, hf, hremains, hmade, hv⟩ := h.chunks
    refine ⟨cs, f, v, ha, hf, hremains, fun c hc => ?_, hv⟩
    by_cases hsame : c.id = stmt.origin.id
    · obtain rfl : c.origin = stmt := List.inj_on_of_nodup_map hm.statements
        (ha.origins ▸ List.mem_map_of_mem hc) hs.1 hsame
      rw [hsame, Function.update_self]
      exact (hmade c hc).skip hs hunused
    · rw [Function.update_of_ne hsame]
      exact hmade c hc

/-- **Binding an imported name** redirects it and puts a constant behind the import. -/
theorem bindImported (h : b.Frames m names met done) (hm : m.Numbered) {s : ImportSpecifier}
    (hs : m.Imports stmt s) (hin : s.binding.name ∈ names) {bound : Bool}
    (hgives : (Drafting.bindImported stmt target s.binding.name).Gives b bound b') :
    b'.Frames m names met
      (Function.update done stmt.origin.id (done stmt.origin.id ++ [s])) := by
  obtain ⟨hvisits, hbound⟩ := h.visits.bindImported hm hs hgives
  cases bound with
  | false =>
    rcases Drafting.gives_bindImported hgives with ⟨-, -, rfl⟩ | ⟨_, _, _, _, _, _, _, hfalse, _⟩
    · exact h.skip hm hs hbound.symm
    · cases hfalse
  | true =>
    obtain ⟨k, hk⟩ := h.visits.extended
    obtain ⟨front, c, back, f, v, ha, hf, hremains, hmade, hv, rfl, -⟩ := h.exists_chunk hm hs.1
    have himports := hs
    obtain ⟨hstmt, specifiers, source, o, horigin, -⟩ := hs
    have hkept := (hremains c (by simp)).kept_of_importDecl hm (hf.renames hm) hstmt horigin
    obtain ⟨binding, constant, messages, hbinding, -, hvariable, hold, ha'⟩ :=
      hk.arranged_bindImported hm ha (by rw [hkept]; rfl) rfl hgives
    obtain ⟨k', hk'⟩ := hvisits.extended
    have hmessages : ¬ m.scope.hasName messages :=
      (hk'.draft.fresh messages (by simp [hvariable])).2
    have hconstant : ¬ m.scope.hasName constant := by
      refine hk'.draft.not_hasName (s := .boundConstant constant s.binding.name messages _) ?_
        (List.mem_singleton.2 rfl) (Nat.le_add_right_of_le hk.draft.next_le)
      rw [ha'.body]
      exact List.mem_flatMap_of_mem (List.mem_append_right _ List.mem_cons_self)
        (by simp [Chunk.stmts, Chunk.extend])
    have hrenamed := ha.renamed_added h.visits.inOrder hbinding himports.hasName hconstant
    -- every chunk gets the new name, and that of the import the constant besides
    have hmapped : ∀ c' ∈ front ++ c :: back,
        (c'.mapIds (Identifier.renamedAll binding.uses constant)).Remains
          (Identifier.renamedAll binding.uses constant ∘ f) met ∧
        (c'.mapIds (Identifier.renamedAll binding.uses constant)).MadeFor m messages (done c'.id)
          (met c'.id) := by
      intro c' hc'
      have hvariable : v = messages ∨ c'.added = [] := hv.imp (hold v) fun hnil => hnil c' hc'
      obtain ⟨hall, bs, rs, hmade⟩ := (hmade c' hc').change hvariable
      exact ⟨(hremains c' hc').mapIds _, hall, _, rs, hmade.mapIds hmessages
        (Identifier.renamedAll_inPlace _ _) (hrenamed c' hc')⟩
    have hf' := hf.renamedAll hm h.visits.inOrder h.visits.steady ha hremains himports.hasName hin
      hbinding hconstant
    refine ⟨hvisits, _, _, messages, ha', hf', ha.forall_change_mapIds hm (hmapped c (by simp)).1
        fun c' hc' _ => (hmapped c' hc').1,
      ha.forall_change_mapIds hm ?_ fun c' hc' hother => ?_, Or.inl hvariable⟩
    · have hmade := (hmapped c (by simp)).2.bind himports hbound.symm hconstant b.draft.next
      rw [Chunk.id_extend, Chunk.id_mapIds, Chunk.id, Function.update_self]
      exact hmade
    · rw [Chunk.id_mapIds, Function.update_of_ne (show c'.id ≠ c.origin.origin.id from hother)]
      exact (hmapped c' hc').2

/-- Binding imported names redirects them. -/
theorem bindAll (h : b.Frames m names met done) (hm : m.Numbered)
    {specifiers : List ImportSpecifier} (hs : ∀ s ∈ specifiers, m.Imports stmt s)
    (hin : ∀ s ∈ specifiers, s.binding.name ∈ names) {n : Nat}
    (hgives : (Drafting.bindAll stmt target specifiers).Gives b n b') :
    b'.Frames m names met
      (Function.update done stmt.origin.id (done stmt.origin.id ++ specifiers)) := by
  refine Drafting.bindAll_induction (P := fun front _ b => b.Frames m names met
    (Function.update done stmt.origin.id (done stmt.origin.id ++ front))) hgives
    (by rwa [List.append_nil, Function.update_eq_self]) ?_
  rintro front s back _ b₁ _ b₂ rfl h hbound
  have h' := h.bindImported hm (hs s (by simp)) (hin s (by simp)) hbound
  rwa [Function.update_self, Function.update_idem, List.append_assoc] at h'

/-- **Making the matching re-exports of a list anew** puts in statements for what is taken. -/
theorem moveMatching (h : b.Frames m names met done) (hm : m.Numbered) (hstmt : stmt ∈ m.body)
    {specifiers : List ExportSpecifier} {o : Origin} {n : Nat}
    (hcurrent : b.draft.current? stmt.origin.id
      = some (.exportNamed specifiers (some target.module) o))
    (hconcerns : target.concerns (.exportNamed specifiers (some target.module) o))
    (hgives : (Drafting.moveMatching target specifiers (some target.module) o).Gives b n b') :
    b'.Frames m names (Function.update met stmt.origin.id (met stmt.origin.id ++ [target]))
      done := by
  have hvisits := h.visits.moveMatching hm hstmt hcurrent hconcerns hgives
  obtain ⟨k, hk⟩ := h.visits.extended
  obtain ⟨k', hk'⟩ := hvisits.extended
  obtain ⟨front, c, back, f, v, ha, hf, hremains, hmade, hv, rfl, hkept⟩ :=
    h.exists_chunk hm hstmt
  rw [hcurrent] at hkept
  have hremain := hremains c (by simp)
  have hpared := hremain.pared_of_exportNamed hm (hf.renames hm) hstmt hkept.symm
  -- the target takes something, and so was not met before
  have hnew : target ∉ met c.id := fun hmet => Stmt.not_concerns_of_pared hmet hpared rfl hconcerns
  have htaken : c.origin.taken target = specifiers.filter target.matchesExport := by
    rw [Stmt.taken_eq hnew, hpared, Option.map_some, Option.getD_some, Stmt.taken_of_concerns]
  have horigin := hremain.origin_ne_importDecl hm (hf.renames hm) hstmt hkept.symm
  obtain ⟨rs, messages, hrehomed, hold, hvariable, ha'⟩ :=
    hk.arranged_moveMatching hm ha hkept.symm hgives
  have hne : rs ≠ [] := by
    rintro rfl
    exact Stmt.filter_ne_nil_of_concerns hconcerns (List.map_eq_nil_iff.1 hrehomed.symm)
  have hisNew : ∀ r ∈ rs, r.IsNew m := by
    refine fun r hr => hk'.draft.isNew messages fun s hs => ⟨?_, ?_⟩
    · rw [ha'.body]
      refine List.mem_flatMap_of_mem (List.mem_append_right _ List.mem_cons_self) ?_
      exact List.mem_append_right _ (List.mem_append_right _ (List.mem_flatMap_of_mem hr hs))
    · refine (ha'.added _ (List.mem_append_right _ List.mem_cons_self) s ?_).1
      exact List.mem_append_right _ (List.mem_flatMap_of_mem hr hs)
  have hchange : ∀ c' ∈ front ++ c :: back, c'.MadeFor m messages (done c'.id) (met c'.id) := by
    rintro c' hc'
    refine (hmade c' hc').change ?_
    exact hv.imp (fun hv => Option.some.inj ((hold v hv).symm.trans (hvariable hne)))
      fun hnil => hnil c' hc'
  refine ⟨hvisits, _, f, messages, ha', hf,
    ha.forall_change hm (hremain.pare hm (hf.renames hm) hstmt hkept.symm hconcerns _)
      fun c' hc' hother => (hremains c' hc').of_ne hother _,
    ha.forall_change hm ?_ fun c' hc' hother => ?_, Or.inl (hvariable hne)⟩
  · change Chunk.MadeFor m messages (done c.id) (Function.update met c.id _ c.id) _
    rw [Function.update_self]
    exact (hchange c (by simp)).take horigin hnew _ hisNew (by rw [htaken, hrehomed])
  · change Chunk.MadeFor m messages (done c'.id) (Function.update met c.id _ c'.id) c'
    rw [Function.update_of_ne hother]
    exact hchange c' hc'

/-- Meeting a target that finds nothing. -/
theorem meet (h : b.Frames m names met done) (hm : m.Numbered) (hstmt : stmt ∈ m.body)
    (hleft : (stmt.pared (met stmt.origin.id)).bind (Stmt.pared [target])
      = stmt.pared (met stmt.origin.id))
    (hidle : target ∈ met stmt.origin.id ∨ stmt.taken target = []) :
    b.Frames m names (Function.update met stmt.origin.id (met stmt.origin.id ++ [target]))
      done where
  visits := h.visits.meet hm hstmt hleft
  chunks := by
    obtain ⟨cs, f, v, ha, hf, hremains, hmade, hv⟩ := h.chunks
    refine ⟨cs, f, v, ha, hf, fun c hc => ?_, fun c hc => ?_, hv⟩
    · by_cases hsame : c.id = stmt.origin.id
      · obtain rfl : c.origin = stmt := List.inj_on_of_nodup_map hm.statements
          (ha.origins ▸ List.mem_map_of_mem hc) hstmt hsame
        exact (hremains c hc).meet hleft
      · exact (hremains c hc).of_ne hsame _
    · by_cases hsame : c.id = stmt.origin.id
      · obtain rfl : c.origin = stmt := List.inj_on_of_nodup_map hm.statements
          (ha.origins ▸ List.mem_map_of_mem hc) hstmt hsame
        rw [hsame, Function.update_self]
        exact (hmade c hc).meet hidle
      · rw [Function.update_of_ne hsame]
        exact hmade c hc

/-- **A visit**: the specifiers that the target matches are done with. -/
theorem bindStmt (h : b.Frames m names met done) (hm : m.Numbered) (hstmt : stmt ∈ m.body)
    (hin : ∀ s ∈ target.specifiers stmt, s.binding.name ∈ names) {c : BoundCounts}
    (hgives : (Drafting.bindStmt stmt.origin.id target).Gives b c b') :
    b'.Frames m names (Function.update met stmt.origin.id (met stmt.origin.id ++ [target]))
      (Function.update done stmt.origin.id
        (done stmt.origin.id ++ target.specifiers stmt)) := by
  obtain ⟨front, chunk, back, f, v, ha, hf, hremains, hmade, hv, rfl, hkept⟩ :=
    h.exists_chunk hm hstmt
  have hremain := hremains chunk (by simp)
  have hkeptEq := fun huses => hremain.kept_eq hm (hf.renames hm) hstmt huses
  rcases Drafting.gives_bindStmt hgives with ⟨specifiers, source, o, hcurrent, hconcerns, -, hall⟩ |
    ⟨specifiers, o, hcurrent, hconcerns, hzero, hmove⟩ | ⟨hnone, rfl, rfl⟩
  · have horigin := hremain.origin_of_importDecl hm (hf.renames hm) hstmt
      (hkept.symm.trans hcurrent)
    have himports := fun s hs =>
      Target.imports_of_mem_specifiers (t := target) (s := s) hstmt hs
    rw [horigin, Target.specifiers_of_concerns hconcerns] at himports hin
    have hbound := h.bindAll hm himports hin hall
    rw [horigin] at hstmt ⊢
    rw [Target.specifiers_of_concerns hconcerns]
    exact hbound.meet hm hstmt rfl (Or.inr rfl)
  · rw [Target.specifiers_of_ne (hremain.origin_ne_importDecl hm (hf.renames hm) hstmt
      (hkept ▸ hcurrent)), List.append_nil, Function.update_eq_self]
    exact h.moveMatching hm hstmt hcurrent hconcerns hmove
  · have hidle := fun s hs => hnone s (hkept.trans hs)
    rw [hremain.specifiers_idle hm (hf.renames hm) hstmt hidle, List.append_nil,
      Function.update_eq_self]
    refine h.meet hm hstmt (hremain.pared_idle hm (hf.renames hm) hstmt hidle) ?_
    by_cases hmet : target ∈ met chunk.origin.origin.id
    · exact Or.inl hmet
    · exact Or.inr (hremain.taken_idle hm (hf.renames hm) hstmt hmet hidle)

/-- Letting a statement meet targets is done with what they match. -/
theorem bindTargets (h : b.Frames m names met done) (hm : m.Numbered) (hstmt : stmt ∈ m.body)
    {targets : List Target}
    (hin : ∀ s ∈ targets.flatMap (·.specifiers stmt), s.binding.name ∈ names) {c : BoundCounts}
    (hgives : (Drafting.bindTargets stmt.origin.id targets).Gives b c b') :
    b'.Frames m names (Function.update met stmt.origin.id (met stmt.origin.id ++ targets))
      (Function.update done stmt.origin.id
        (done stmt.origin.id ++ targets.flatMap (·.specifiers stmt))) := by
  refine Drafting.bindTargets_induction (P := fun front _ b => b.Frames m names
    (Function.update met stmt.origin.id (met stmt.origin.id ++ front))
    (Function.update done stmt.origin.id
      (done stmt.origin.id ++ front.flatMap (·.specifiers stmt)))) hgives ?_ ?_
  · rwa [List.flatMap_nil, List.append_nil, List.append_nil, Function.update_eq_self,
      Function.update_eq_self]
  · rintro front t back _ b₁ _ b₂ rfl h hvisit
    rw [List.flatMap_append, List.flatMap_cons, List.forall_mem_append,
      List.forall_mem_append] at hin
    have h' := h.bindStmt hm hstmt hin.2.1 hvisit
    rwa [Function.update_self, Function.update_self, Function.update_idem, Function.update_idem,
      List.append_assoc, List.append_assoc, ← List.flatMap_singleton (Target.specifiers · stmt) t,
      ← List.flatMap_append] at h'

/-- Letting statements meet targets is done with what the targets match in each of them. -/
theorem bindStmts (h : b.Frames m names met done) (hm : m.Numbered) {targets : List Target}
    {stmts : List Stmt} (hstmts : stmts ⊆ m.body) (hnodup : (stmts.map (·.origin.id)).Nodup)
    (hnone : ∀ s ∈ stmts, met s.origin.id = [] ∧ done s.origin.id = [])
    (hin : ∀ s ∈ Target.allSpecifiers targets stmts, s.binding.name ∈ names) {c : BoundCounts}
    (hgives : (Drafting.bindStmts targets stmts).Gives b c b') :
    ∃ met' done', b'.Frames m names met' done' ∧
      (∀ s ∈ stmts, met' s.origin.id = targets ∧
        done' s.origin.id = targets.flatMap (·.specifiers s)) ∧
      ∀ n, n ∉ stmts.map (·.origin.id) → met' n = met n ∧ done' n = done n := by
  refine Drafting.bindStmts_induction (P := fun front _ b => ∃ met' done',
    b.Frames m names met' done' ∧
      (∀ s ∈ front, met' s.origin.id = targets ∧
        done' s.origin.id = targets.flatMap (·.specifiers s)) ∧
      ∀ n, n ∉ front.map (·.origin.id) → met' n = met n ∧ done' n = done n) hgives
    ⟨met, done, h, by simp, fun _ _ => ⟨rfl, rfl⟩⟩ ?_
  rintro front s back _ b₁ _ b₂ rfl ⟨met', done', h, hthere, hother⟩ hvisits
  obtain ⟨hmet, hmet', hmet''⟩ := Stmt.update_visited (v := fun _ => targets) hnodup
    (fun s hs => (hthere s hs).1) fun n hn => (hother n hn).1
  obtain ⟨hdone, hdone', hdone''⟩ := Stmt.update_visited
    (v := fun s => targets.flatMap (·.specifiers s)) hnodup
    (fun s hs => (hthere s hs).2) fun n hn => (hother n hn).2
  rw [Target.allSpecifiers, List.flatMap_append, List.flatMap_cons, List.forall_mem_append,
    List.forall_mem_append] at hin
  have h' := h.bindTargets hm (hstmts (by simp)) hin.2.1 hvisits
  rw [hmet, hdone, (hnone s (by simp)).1, (hnone s (by simp)).2, List.nil_append,
    List.nil_append] at h'
  exact ⟨_, _, h', fun s hs => ⟨hmet' s hs, hdone' s hs⟩,
    fun n hn => ⟨hmet'' n hn, hdone'' n hn⟩⟩

/-- **A whole pass** lets each statement meet all targets. -/
theorem of_bindStmts (hm : m.Numbered) {path : Option String} {gate : Gate}
    (hgate : Gate.ofPath path = .ok gate) {targets : List Target} {c : BoundCounts}
    (hgives : (Drafting.bindStmts targets m.body).Gives ⟨.ofModule m, gate⟩ c b) :
    ∃ met done,
      b.Frames m ((Target.allSpecifiers targets m.body).map (·.binding.name)) met done ∧
      ∀ s ∈ m.body, met s.origin.id = targets ∧
        done s.origin.id = targets.flatMap (·.specifiers s) := by
  obtain ⟨met, done, hframes, hthere, -⟩ := (ofModule hm _ hgate).bindStmts hm
    (List.Subset.refl _) hm.statements (fun _ _ => ⟨rfl, rfl⟩)
    (fun _ hs => List.mem_map_of_mem (f := fun s : ImportSpecifier => s.binding.name) hs) hgives
  exact ⟨met, done, hframes, hthere⟩

end Bench.Frames

/-! ### Whole passes -/

/-- A statement goes when all names of a re-export are taken. -/
theorem Stmt.pared_eq_none_iff {met : List Target} {stmt : Stmt} :
    stmt.pared met = none ↔ ∃ specifiers source o,
      stmt = .exportNamed specifiers (some source) o ∧ specifiers ≠ [] ∧
        ∀ s ∈ specifiers, ∃ t ∈ met, t.takes source s := by
  by_cases hkind : ∃ specifiers source o, stmt = .exportNamed specifiers (some source) o
  · obtain ⟨specifiers, source, o, rfl⟩ := hkind
    constructor
    · intro hnone
      refine ⟨specifiers, source, o, rfl, ?_⟩
      simpa [pared, and_comm] using hnone
    · rintro ⟨_, _, _, heq, hne, hall⟩
      obtain ⟨rfl, hsource, rfl⟩ := Stmt.exportNamed.inj heq
      obtain rfl := Option.some.inj hsource
      simpa [pared, hne] using hall
  · have hother : ∀ specifiers source o, stmt ≠ .exportNamed specifiers (some source) o :=
      fun specifiers source o heq => hkind ⟨specifiers, source, o, heq⟩
    rw [pared_of_ne hother]
    refine iff_of_false (Option.some_ne_none stmt) ?_
    rintro ⟨specifiers, source, o, heq, -⟩
    exact hother specifiers source o heq

/-- A statement that concerns none of the targets is left by them. -/
theorem Stmt.pared_of_forall_not_concerns {met : List Target} {stmt : Stmt}
    (h : ∀ t ∈ met, ¬ t.concerns stmt) :
    stmt.pared met = some stmt ∧ stmt.takenBy met.eraseDups = [] := by
  have htaken : ∀ t ∈ met, stmt.taken t = [] := fun t ht => taken_of_not_concerns (h t ht)
  refine ⟨?_, List.flatMap_eq_nil_iff.2 fun t ht => ?_⟩
  · by_cases hkind : ∃ specifiers source o, stmt = .exportNamed specifiers (some source) o
    · obtain ⟨specifiers, source, o, rfl⟩ := hkind
      have hfilter : specifiers.filter (fun s => !met.any (·.takes source s)) = specifiers := by
        refine List.filter_eq_self.2 fun s hs => ?_
        rw [Bool.not_eq_true', List.any_eq_false]
        exact fun t ht => List.filter_eq_nil_iff.1 (htaken t ht) s hs
      rw [pared, hfilter]
      cases specifiers <;> rfl
    · exact pared_of_ne (fun specifiers source o heq => hkind ⟨specifiers, source, o, heq⟩) met
  · rw [htaken t (List.mem_eraseDups.1 ht), List.map_nil]

/-- A statement without the names of its identifiers: everything else that is in it. -/
def Stmt.unnamed (stmt : Stmt) : Stmt := stmt.mapIds fun i => { i with name := "" }

theorem Stmt.unnamed_mapIds {f : Identifier → Identifier} (hf : Identifier.InPlace f)
    (stmt : Stmt) : (stmt.mapIds f).unnamed = stmt.unnamed := by
  rw [unnamed, mapIds_mapIds, unnamed]
  congr 1
  funext i
  rw [Function.comp_apply, hf]

/-- **A pass keeps to its frame**: the module that it makes consists of the messages, if there are
any, and of a chunk for each statement of the module in turn, which is what is left of the statement
and what was put in for it. -/
structure Module.Framed (m : Module) (targets : List Target) (r : BoundModule)
    (front : Option Stmt) (cs : List Chunk) (f : Identifier → Identifier) (messages : String) :
    Prop where
  /-- The statements. -/
  body : r.draft.toModule.body = front.toList ++ cs.flatMap Chunk.stmts
  /-- The messages are in front if they were put in. -/
  injected : r.injected = front.isSome
  /-- What is in front is the constant that holds them. -/
  front : ∀ s ∈ front, ∃ literal n, s = .messagesConstant messages literal n
  /-- There is a chunk for each statement, in the order of the module. -/
  origins : cs.map Chunk.origin = m.body
  /-- Only uses are renamed that mean a name under which a matched specifier is imported. -/
  redirects : m.Redirects ((Target.allSpecifiers targets m.body).map (·.binding.name)) f
  /-- Declared names are not. -/
  binders : ∀ i ∈ m.binders, f i = i
  /-- But for renamed uses a statement is left without the names that targets take from it. -/
  kept : ∀ c ∈ cs, c.kept = (c.origin.pared targets).map (Stmt.mapIds f)
  /-- But for the names of identifiers it is left as it was. -/
  shape : ∀ c ∈ cs, c.kept.map Stmt.unnamed = (c.origin.pared targets).map Stmt.unnamed
  /-- A statement goes only if it is a re-export all of whose names are taken. -/
  removed : ∀ c ∈ cs, c.kept = none ↔ ∃ specifiers source o,
    c.origin = .exportNamed specifiers (some source) o ∧ specifiers ≠ [] ∧
      ∀ s ∈ specifiers, ∃ t ∈ targets, t.takes source s
  /-- What was put in was made for specifiers and taken names of the statement, and nothing else. -/
  added : ∀ c ∈ cs, ∃ bs rs, c.Synthesized m messages
    ((targets.flatMap (·.specifiers c.origin)).filter (m.scope.isUsed ·.binding.name))
    (c.origin.takenBy targets.eraseDups) bs rs
  /-- A statement that concerns no target is left, and nothing was put in for it. -/
  silent : ∀ c ∈ cs, (∀ t ∈ targets, ¬ t.concerns c.origin) → c.stmts = [c.origin.mapIds f]
  /-- What was put in has later numbers than every statement that the pass looks at. -/
  numbers : ∀ c ∈ cs, ∀ s ∈ c.added, ∀ s' ∈ m.body, s'.origin.id < s.origin.id

/-- Where no statement has anything put in for it, no name of a specifier is wanted. -/
theorem Chunk.Synthesized.added_eq_nil {m : Module} {messages : String} {bs : List BoundImport}
    {rs : List Rehoming} {c : Chunk} (h : c.Synthesized m messages [] [] bs rs) : c.added = [] := by
  rw [h.added, List.map_eq_nil_iff.1 h.bound, List.map_eq_nil_iff.1 h.taken]
  rfl

namespace Module

variable {text : String} {filename : Option String} {base : Nat} {m : Module}
  {targets : List Target} {catalogues : CatalogueSource} {path : Option String} {r : BoundModule}

/-- **The frame of a pass**: whatever the targets are, the pass renames uses of matched imports,
takes matched names out of re-exports, puts statements in behind those that they are made for, and
leaves everything else alone. -/
theorem framed_of_bindMessages [CharacterNames] (hparse : parse text filename base = .ok m)
    (hrun : (m.bindMessages targets catalogues path).run.1 = .ok r) :
    ∃ front cs f messages, m.Framed targets r front cs f messages := by
  have hm := numbered_of_parse hparse
  obtain ⟨gate, b₁, b₂, hgate, hstmts, hclose, hdraft, -⟩ := gives_bindMessages hrun
  obtain ⟨met, done, hframes, hthere, -⟩ := (Bench.Frames.ofModule hm _ hgate).bindStmts hm
    (List.Subset.refl _) hm.statements (fun _ _ => ⟨rfl, rfl⟩)
    (fun _ hs => List.mem_map_of_mem (f := fun s : ImportSpecifier => s.binding.name) hs) hstmts
  obtain ⟨k, hk⟩ := hframes.visits.extended
  obtain ⟨cs, f, v, ha, hf, hremains, hmade, hv⟩ := hframes.chunks
  have horigin : ∀ c ∈ cs, c.origin ∈ m.body := fun c hc => ha.origins ▸ List.mem_map_of_mem hc
  have hkept : ∀ c ∈ cs, c.kept = (c.origin.pared targets).map (Stmt.mapIds f) := fun c hc => by
    rw [← (hthere c.origin (horigin c hc)).1]
    exact hremains c hc
  have hadded : ∀ c ∈ cs, ∃ bs rs, c.Synthesized m v
      ((targets.flatMap (·.specifiers c.origin)).filter (m.scope.isUsed ·.binding.name))
      (c.origin.takenBy targets.eraseDups) bs rs := fun c hc => by
    obtain ⟨hmet, hdone⟩ := hthere c.origin (horigin c hc)
    have hthere := (hmade c hc).made
    rwa [Chunk.id, hmet, hdone] at hthere
  -- what does not depend on whether the messages were put in
  have hframed : ∀ front messages, r.draft.toModule.body = front.toList ++ cs.flatMap Chunk.stmts →
      r.injected = front.isSome →
      (∀ s ∈ front, ∃ literal n, s = .messagesConstant messages literal n) →
      (∀ c ∈ cs, v = messages ∨ c.added = []) → m.Framed targets r front cs f messages := by
    intro front messages hbody hinjected hfront hvariable
    refine ⟨hbody, hinjected, hfront, ha.origins, hf, fun i hi => hf.eq_of_mem_binders hm hi, hkept,
      fun c hc => ?_, fun c hc => ?_, fun c hc => ?_, fun c hc hnone => ?_,
      fun c hc s hs s' hs' => ?_⟩
    · rw [hkept c hc, Option.map_map]
      congr 1
      funext s
      exact s.unnamed_mapIds hf.inPlace
    · rw [hkept c hc, Option.map_eq_none_iff, Stmt.pared_eq_none_iff]
    · obtain ⟨bs, rs, hsynthesized⟩ := hadded c hc
      exact ⟨bs, rs, hsynthesized.change (hvariable c hc)⟩
    · obtain ⟨hpared, htaken⟩ := Stmt.pared_of_forall_not_concerns hnone
      obtain ⟨bs, rs, hsynthesized⟩ := hadded c hc
      have hspecifiers : targets.flatMap (·.specifiers c.origin) = [] :=
        List.flatMap_eq_nil_iff.2 fun t ht => Target.specifiers_of_not_concerns (hnone t ht)
      rw [hspecifiers, htaken] at hsynthesized
      rw [Chunk.stmts, hkept c hc, hpared, hsynthesized.added_eq_nil]
      rfl
    · exact Nat.lt_of_lt_of_le (hm.statement_lt s' hs') (ha.added c hc s hs).1
  rcases Gate.gives_close hclose with ⟨hzero, hinjected, rfl⟩ |
    ⟨hpositive, hinjected, literal, hlast, -⟩
  · refine ⟨none, cs, f, v, hframed none v ?_ hinjected (by simp) fun c hc => Or.inl rfl⟩
    rw [hdraft]
    exact ha.body
  · obtain ⟨name, hname⟩ :=
      Option.ne_none_iff_exists'.1 fun hnone => hpositive (hk.requests.2 hnone)
    rw [hname, Option.getD_some, Draft.prepend_eq] at hlast
    refine ⟨some (Stmt.messagesConstant name literal b₁.draft.next), cs, f, name,
      hframed _ name ?_ hinjected ?_ fun c hc => ?_⟩
    · rw [hdraft, hlast]
      exact congrArg (Stmt.messagesConstant name literal b₁.draft.next :: ·) ha.body
    · rintro s hs
      exact ⟨literal, _, (Option.mem_some_iff.1 hs).symm⟩
    · exact hv.imp (fun hv => Option.some.inj (hv.symm.trans hname)) fun hnil => hnil c hc

section

attribute [local instance] CharacterNames.nameless

/-- In `import { f } from "m"; export { f } from "m"; f()` with the target given twice, the import
is bound twice and the re-export goes. -/
theorem framed_of_bindMessages_repeated : ∃ m r,
    parse "import { f } from \"m\"; export { f } from \"m\"; f()" none 0 = .ok m ∧
      (m.bindMessages [⟨"f", "m"⟩, ⟨"f", "m"⟩]
        ⟨⟨[], ⟨.relative, []⟩⟩, "properties", fun _ => .ok [], none⟩
        (some "a.js")).run.1 = .ok r ∧
      ∃ front cs f messages, m.Framed [⟨"f", "m"⟩, ⟨"f", "m"⟩] r front cs f messages := by
  have hruns : ((parse "import { f } from \"m\"; export { f } from \"m\"; f()" none
      0).toOption.bind fun m => (m.bindMessages [⟨"f", "m"⟩, ⟨"f", "m"⟩]
        ⟨⟨[], ⟨.relative, []⟩⟩, "properties", fun _ => .ok [], none⟩
        (some "a.js")).run.1.toOption.filter fun r => r.counts = ⟨2, 1⟩).isSome := by
    decide +kernel
  obtain ⟨r, hr⟩ := Option.isSome_iff_exists.1 hruns
  obtain ⟨m, hm, hr⟩ := Option.bind_eq_some_iff.1 hr
  obtain ⟨hr, -⟩ := Option.filter_eq_some_iff.1 hr
  have hparse := Except.eq_ok_of_toOption hm
  have hrun := Except.eq_ok_of_toOption hr
  exact ⟨m, r, hparse, hrun, framed_of_bindMessages hparse hrun⟩

end

end Module

end MessageBinder
