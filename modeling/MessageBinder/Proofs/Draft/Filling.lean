import MessageBinder.Proofs.Draft.Meaning
import MessageBinder.Proofs.Draft.Visiting

/-!
# What a pass appends

Behind an import a pass appends the constants of its specifiers, behind a re-export three statements
for each name that was taken from it, and behind any other statement nothing
(`MessageBinder.Chunk.Filled`). Which names were taken is told by the targets that the re-export
has met: since targets differ, no name is taken twice (`MessageBinder.Stmt.takenBy`).

Together with what is left of the statements this gives the whole body of the module that a pass
makes (`MessageBinder.Draft.Remade`): the messages, then the chunks of the statements in their
order.
-/

namespace MessageBinder

/-! ### Names that are taken from a re-export -/

/-- A target is known by what it takes. -/
theorem Target.eq_of_takes {t t' : Target} {source : CodeText} {s : ExportSpecifier}
    (h : t.takes source s) (h' : t'.takes source s) : t = t' := by
  simp only [takes, matchesExport, Bool.and_eq_true, decide_eq_true_eq] at h h'
  rcases t with ⟨function, module⟩
  rcases t' with ⟨function', module'⟩
  simp_all

/-- What a target takes is not taken by others. -/
theorem Target.filter_takes {t : Target} {met : List Target} (ht : t ∉ met) (source : CodeText)
    (specifiers : List ExportSpecifier) : specifiers.filter (t.takes source)
      = (specifiers.filter fun s => !met.any (·.takes source s)).filter (t.takes source) := by
  rw [List.filter_filter]
  refine List.filter_congr fun s _ => ?_
  by_cases htakes : t.takes source s
  · have hnone : met.any (·.takes source s) = false := by
      refine List.any_eq_false.2 fun t' ht' htakes' => ht ?_
      rwa [Target.eq_of_takes htakes htakes']
    simp [htakes, hnone]
  · simp [htakes]

namespace Stmt

/-- The names of a re-export that a target takes. -/
def taken (t : Target) : Stmt → List ExportSpecifier
  | .exportNamed specifiers (some source) _ => specifiers.filter (t.takes source)
  | _ => []

/-- The names of a re-export that targets take in turn, each with its target. -/
def takenBy (met : List Target) (stmt : Stmt) : List (Target × ExportSpecifier) :=
  met.flatMap fun t => (stmt.taken t).map (t, ·)

theorem taken_of_not_concerns {t : Target} {stmt : Stmt} (h : ¬ t.concerns stmt) :
    stmt.taken t = [] := by
  cases stmt with
  | exportNamed specifiers source o =>
    cases source with
    | none => rfl
    | some source =>
      refine List.filter_eq_nil_iff.2 fun s hs htakes => h ?_
      simp only [Target.takes, Bool.and_eq_true, decide_eq_true_eq] at htakes
      simp only [Target.concerns, Target.matchesModule, Target.matchesFunction, Bool.and_eq_true,
        decide_eq_true_eq, List.any_eq_true]
      exact ⟨by rw [htakes.1], s, hs, htakes.2⟩
  | _ => rfl

theorem taken_of_concerns {t : Target} {specifiers : List ExportSpecifier} {o : Origin} :
    (Stmt.exportNamed specifiers (some t.module) o).taken t
      = specifiers.filter t.matchesExport :=
  List.filter_congr fun s _ => by simp [Target.takes]

/-- A target takes something of a list that it concerns. -/
theorem filter_ne_nil_of_concerns {t : Target} {specifiers : List ExportSpecifier}
    {source : CodeText} {o : Origin} (h : t.concerns (.exportNamed specifiers (some source) o)) :
    specifiers.filter t.matchesExport ≠ [] := by
  simp only [Target.concerns, Target.matchesFunction, Bool.and_eq_true, List.any_eq_true] at h
  obtain ⟨-, s, hs, hmatches⟩ := h
  exact List.ne_nil_of_mem (List.mem_filter.2 ⟨hs, hmatches⟩)

/-- What other targets leave is what there was for a target to take. -/
theorem taken_eq {t : Target} {met : List Target} (ht : t ∉ met) (stmt : Stmt) :
    stmt.taken t = ((stmt.pared met).map (taken t)).getD [] := by
  cases stmt with
  | exportNamed specifiers source o =>
    cases source with
    | none => rfl
    | some source =>
      rw [taken, Target.filter_takes ht, pared]
      split
      · rename_i hempty
        simp only [Bool.and_eq_true, List.isEmpty_iff] at hempty
        rw [hempty.1]
        rfl
      · rfl
  | _ => rfl

theorem takenBy_concat (met : List Target) (t : Target) (stmt : Stmt) :
    stmt.takenBy (met ++ [t]) = stmt.takenBy met ++ (stmt.taken t).map (t, ·) := by
  simp [takenBy]

theorem mem_takenBy {met : List Target} {specifiers : List ExportSpecifier} {source : CodeText}
    {o : Origin} {t : Target} {s : ExportSpecifier}
    (h : (t, s) ∈ (Stmt.exportNamed specifiers (some source) o).takenBy met) :
    t ∈ met ∧ t.takes source s := by
  obtain ⟨t', ht', hs⟩ := List.mem_flatMap.1 h
  obtain ⟨s', hs', heq⟩ := List.mem_map.1 hs
  obtain ⟨rfl, rfl⟩ := Prod.mk.inj heq
  exact ⟨ht', List.of_mem_filter hs'⟩

theorem takenBy_of_ne {stmt : Stmt}
    (h : ∀ specifiers source o, stmt ≠ .exportNamed specifiers (some source) o)
    (met : List Target) : stmt.takenBy met = [] := by
  have hnone : ∀ t : Target, stmt.taken t = [] := by
    intro t
    cases stmt with
    | exportNamed specifiers source o =>
      cases source with
      | none => rfl
      | some source => exact absurd rfl (h specifiers source o)
    | _ => rfl
  simp [takenBy, hnone]

end Stmt

/-- From a statement that does not concern a target, as it is by then, the target takes nothing. -/
theorem Chunk.Remains.taken_idle {m : Module} {f : Identifier → Identifier}
    {met : Nat → List Target} {c : Chunk} (h : c.Remains f met) (hm : m.Numbered)
    (hf : m.Renames f) (hc : c.origin ∈ m.body) {t : Target} (hnew : t ∉ met c.id)
    (hnone : ∀ s, c.kept = some s → ¬ t.concerns s) : c.origin.taken t = [] := by
  rw [Stmt.taken_eq hnew]
  cases hpared : c.origin.pared (met c.id) with
  | none => rfl
  | some s => exact Stmt.taken_of_not_concerns (h.not_concerns hm hf hc hnone hpared)

/-- What is kept for the statements that were visited, and for no other number, is kept after one
more visit. -/
theorem Stmt.update_visited {α : Type} {g g' : Nat → α} {v : Stmt → α} {front back : List Stmt}
    {stmt : Stmt} (hnodup : ((front ++ stmt :: back).map (·.origin.id)).Nodup)
    (hthere : ∀ s ∈ front, g' s.origin.id = v s)
    (hother : ∀ n, n ∉ front.map (·.origin.id) → g' n = g n) :
    g' stmt.origin.id = g stmt.origin.id ∧
      (∀ s ∈ front ++ [stmt], Function.update g' stmt.origin.id (v stmt) s.origin.id = v s) ∧
      ∀ n, n ∉ (front ++ [stmt]).map (·.origin.id) →
        Function.update g' stmt.origin.id (v stmt) n = g n := by
  rw [List.map_append, List.map_cons, List.nodup_middle, List.nodup_cons] at hnodup
  have hnew : stmt.origin.id ∉ front.map (·.origin.id) := fun hmem =>
    hnodup.1 (List.mem_append_left _ hmem)
  refine ⟨hother _ hnew, fun s hs => ?_, fun n hn => ?_⟩
  · rcases List.mem_append.1 hs with hs | hs
    · have hne : s.origin.id ≠ stmt.origin.id := fun heq =>
        hnew (List.mem_map.2 ⟨s, hs, heq⟩)
      rw [Function.update_of_ne hne, hthere s hs]
    · obtain rfl := List.mem_singleton.1 hs
      rw [Function.update_self]
  · rw [List.map_append, List.mem_append, not_or, List.map_singleton, List.mem_singleton] at hn
    rw [Function.update_of_ne hn.2, hother n hn.1]

/-! ### Filled chunks -/

/-- **A chunk is filled** with the constants of specifiers, if it is that of an import, and with the
statements for the names that were taken from it, if it is that of a re-export. -/
structure Chunk.Filled (m : Module) (messages : String) (met : List Target)
    (rs : List Rebinding) (hs : List Rehoming) (c : Chunk) : Prop where
  /-- The statements. -/
  added : c.added = rs.map (·.constant messages) ++ hs.flatMap (·.stmts messages)
  /-- Constants are for specifiers of the import. -/
  rebound : ∀ r ∈ rs, m.Imports c.origin r.specifier
  /-- Names that were taken were made anew. -/
  rehomed : hs.map (fun h => (h.target, h.specifier)) = c.origin.takenBy met

namespace Chunk.Filled

variable {m : Module} {messages : String} {met : List Target} {rs : List Rebinding}
  {hs : List Rehoming} {c : Chunk}

/-- Where nothing was appended the variable is of no account. -/
theorem change (h : c.Filled m messages met rs hs) {messages' : String}
    (hmessages : messages = messages' ∨ c.added = []) : c.Filled m messages' met rs hs := by
  obtain rfl | hnil := hmessages
  · exact h
  have hadded := h.added
  rw [hnil, eq_comm, List.append_eq_nil_iff, List.map_eq_nil_iff, List.flatMap_eq_nil_iff] at hadded
  obtain ⟨rfl, hnone⟩ := hadded
  have hs_nil : hs = [] := List.eq_nil_iff_forall_not_mem.2 fun r hr => by
    have hr := hnone r hr
    cases hr
  subst hs_nil
  exact ⟨hnil, h.rebound, h.rehomed⟩

/-- A replacement that leaves added identifiers alone leaves a filled chunk filled. -/
theorem mapIds (h : c.Filled m messages met rs hs) {f : Identifier → Identifier}
    (hf : ∀ s ∈ c.added, ∀ i ∈ s.identifiers, f i = i) :
    (c.mapIds f).Filled m messages met rs hs := by
  refine ⟨?_, h.rebound, h.rehomed⟩
  rw [← h.added]
  exact (List.map_congr_left fun s hs => s.mapIds_eq_self (hf s hs)).trans (List.map_id' _)

/-- Nothing is bound behind a statement that is no import. -/
theorem eq_nil_of_ne (h : c.Filled m messages met rs hs)
    (hne : ∀ specifiers source o, c.origin ≠ .importDecl specifiers source o) : rs = [] := by
  refine List.eq_nil_iff_forall_not_mem.2 fun r hr => ?_
  obtain ⟨-, specifiers, source, o, horigin, -⟩ := h.rebound r hr
  exact hne specifiers source o horigin

/-- Nothing is made anew behind a statement that is no re-export. -/
theorem rehomed_eq_nil_of_ne (h : c.Filled m messages met rs hs)
    (hne : ∀ specifiers source o, c.origin ≠ .exportNamed specifiers (some source) o) :
    hs = [] := by
  have hrehomed := h.rehomed
  rwa [Stmt.takenBy_of_ne hne, List.map_eq_nil_iff] at hrehomed

/-- The constant of one more specifier is appended to an import. -/
theorem bind (h : c.Filled m messages met rs hs) {r : Rebinding}
    (himports : m.Imports c.origin r.specifier) :
    (c.extend [r.constant messages]).Filled m messages met (rs ++ [r]) [] := by
  obtain rfl := h.rehomed_eq_nil_of_ne fun _ _ _ heq => by
    obtain ⟨-, _, _, _, horigin, -⟩ := himports
    rw [horigin] at heq
    cases heq
  refine ⟨?_, fun r' hr' => ?_, h.rehomed⟩
  · have hadded := h.added
    rw [List.flatMap_nil, List.append_nil] at hadded ⊢
    rw [Chunk.extend, hadded, List.map_append, List.map_singleton]
  · rcases List.mem_append.1 hr' with hr' | hr'
    · exact h.rebound r' hr'
    · obtain rfl := List.mem_singleton.1 hr'
      exact himports

end Chunk.Filled

/-- Renaming uses of the module leaves alone what was appended. -/
theorem Draft.Arranged.renamedAll_added {m : Module} {cs : List Chunk} {d : Draft}
    (ha : d.Arranged m cs) {ids : List Identifier} (hids : ∀ i ∈ ids, i.origin.id < m.next)
    (name : String) {c : Chunk} (hc : c ∈ cs) :
    ∀ s ∈ c.added, ∀ i ∈ s.identifiers, Identifier.renamedAll ids name i = i := by
  intro s hs i hi
  refine Identifier.renamedAll_of_notMem fun hmem => ?_
  obtain ⟨j, hj, hn⟩ := List.mem_map.1 hmem
  have hlt := hids j hj
  have hle := (ha.added c hc s hs).2 i hi
  omega

/-! ### Along the pass -/

/-- **A bench is filled** between visits: its chunks are what is left of the statements and what was
appended to them. -/
structure Bench.Fills (m : Module) (met : Nat → List Target) (b : Bench) : Prop where
  /-- The chunks are filled, with one variable. -/
  chunks : ∃ cs f v, b.draft.Arranged m cs ∧ m.Renames f ∧ (∀ c ∈ cs, c.Remains f met) ∧
    (∀ c ∈ cs, ∃ rs hs, c.Filled m v (met c.id) rs hs) ∧
    (b.gate.variableName = some v ∨ ∀ c ∈ cs, c.added = [])

namespace Bench.Fills

variable {m : Module} {met : Nat → List Target} {b b' : Bench} {stmt : Stmt} {target : Target}
  {done : List ImportSpecifier} {rs : List Rebinding}

/-- At first nothing is appended. -/
theorem ofModule (m : Module) (gate : Gate) :
    Bench.Fills m (fun _ => []) ⟨.ofModule m, gate⟩ where
  chunks := by
    have hchunk : ∀ c ∈ m.body.map fun s => (⟨s, some s, []⟩ : Chunk),
        c.added = [] ∧ c.kept = some c.origin := by
      intro c hc
      obtain ⟨s, -, rfl⟩ := List.mem_map.1 hc
      exact ⟨rfl, rfl⟩
    refine ⟨_, fun i => i, "", Draft.arranged_ofModule m, .id m, fun c hc => ?_, fun c hc => ?_,
      Or.inr fun c hc => (hchunk c hc).1⟩
    · rw [Chunk.Remains, Stmt.pared_nil_targets, Option.map_some, (hchunk c hc).2,
        c.origin.mapIds_eq_self fun _ _ => rfl]
    · exact ⟨[], [], (hchunk c hc).1, by simp, rfl⟩

/-- The chunk of a statement. -/
theorem exists_chunk (h : b.Fills m met) (hm : m.Numbered) (hd : b.draft.InOrder)
    (hstmt : stmt ∈ m.body) : ∃ front c back f v, b.draft.Arranged m (front ++ c :: back) ∧
      m.Renames f ∧ (∀ c' ∈ front ++ c :: back, c'.Remains f met) ∧
      (∀ c' ∈ front ++ c :: back, ∃ rs hs, c'.Filled m v (met c'.id) rs hs) ∧
      (b.gate.variableName = some v ∨ ∀ c' ∈ front ++ c :: back, c'.added = []) ∧
      c.origin = stmt ∧ b.draft.current? stmt.origin.id = c.kept := by
  obtain ⟨cs, f, v, ha, hf, hremains, hfilled, hv⟩ := h.chunks
  obtain ⟨front, c, back, rfl, rfl⟩ := ha.exists_chunk hstmt
  exact ⟨front, c, back, f, v, ha, hf, hremains, hfilled, hv, rfl,
    ha.current?_eq hm hd (by simp)⟩

/-- **Binding an imported name** appends its constant to the import. -/
theorem bindImported (h : b.Fills m met) (hr : b.Rebinds m done rs) (hm : m.Numbered)
    (hnames : m.declaredNames.Nodup) {s : ImportSpecifier} (hs : m.Imports stmt s)
    (hnew : s.binding ∉ done.map ImportSpecifier.binding) {bound : Bool}
    (hgives : (Drafting.bindImported stmt target s.binding.name).Gives b bound b') :
    b'.Fills m met := by
  obtain ⟨k, hk⟩ := hr.along.extended
  cases bound with
  | false =>
    rcases Drafting.gives_bindImported hgives with ⟨-, -, rfl⟩ | ⟨_, _, _, _, _, _, _, hfalse, _⟩
    · exact h
    · cases hfalse
  | true =>
    obtain ⟨front, c, back, f, v, ha, hf, hremains, hfilled, hv, rfl, -⟩ :=
      h.exists_chunk hm hr.along.inOrder hs.1
    have himports := hs
    obtain ⟨hstmt, specifiers, source, o, horigin, -⟩ := hs
    have hkept := (hremains c (by simp)).kept_of_importDecl hm hf hstmt horigin
    obtain ⟨binding, constant, messages, hbinding, -, hvariable, hold, ha'⟩ :=
      hk.arranged_bindImported hm ha (by rw [hkept]; rfl) rfl hgives
    -- only uses of the module mean a specifier that was not bound
    have huses : ∀ i ∈ binding.uses, i.origin.id ∈ Identifier.numbers m.uses ∧
        i.origin.id < m.next := by
      intro i hi
      obtain ⟨u, hu, rfl, -⟩ := (hr.along.tracked.mem_uses_iff hr.along.inOrder hm hnames himports
        (hr.specifier_ne hnew) hbinding).1 hi
      refine ⟨?_, hm.use_lt hu⟩
      rw [Module.uses, ← Stmt.uses_moduleEvents]
      exact List.mem_map_of_mem (f := fun i : Identifier => i.origin.id)
        (List.mem_map_of_mem (f := Prod.snd) hu)
    have hf' := hf.renamedAll hm (fun i hi => Or.inl (huses i hi).1) constant
    have hmapped : ∀ c' ∈ front ++ c :: back,
        (c'.mapIds (Identifier.renamedAll binding.uses constant)).Remains
          (Identifier.renamedAll binding.uses constant ∘ f) met ∧
        ∃ rs hs, (c'.mapIds (Identifier.renamedAll binding.uses constant)).Filled m messages
          (met c'.id) rs hs := by
      intro c' hc'
      obtain ⟨rs, hs, hfill⟩ := hfilled c' hc'
      exact ⟨(hremains c' hc').mapIds _, rs, hs,
        (hfill.change (hv.imp (hold v) fun hnil => hnil c' hc')).mapIds
          (ha.renamedAll_added (fun i hi => (huses i hi).2) constant hc')⟩
    refine ⟨_, _, messages, ha', hf', ha.forall_change_mapIds hm (hmapped c (by simp)).1
        fun c' hc' _ => (hmapped c' hc').1,
      ha.forall_change_mapIds hm ?_ fun c' hc' _ => (hmapped c' hc').2, Or.inl hvariable⟩
    obtain ⟨-, rs, hs, hfill⟩ := hmapped c (by simp)
    exact ⟨_, [], hfill.bind (r := ⟨c.origin, s, constant, b.draft.next⟩) himports⟩

/-- Binding imported names appends constants to the import. -/
theorem bindAll (h : b.Fills m met) (hr : b.Rebinds m done rs) (hm : m.Numbered)
    (hnames : m.declaredNames.Nodup) {specifiers : List ImportSpecifier}
    (hs : ∀ s ∈ specifiers, m.Imports stmt s)
    (hnew : ((done ++ specifiers).map ImportSpecifier.binding).Nodup) {n : Nat}
    (hgives : (Drafting.bindAll stmt target specifiers).Gives b n b') : b'.Fills m met := by
  refine (Drafting.bindAll_induction
    (P := fun front _ b => b.Fills m met ∧ ∃ rs, b.Rebinds m (done ++ front) rs) hgives
    ⟨h, rs, by rwa [List.append_nil]⟩ ?_).1
  rintro front s back _ b₁ _ b₂ rfl ⟨h, rs, hr⟩ hbound
  have hnot := ImportSpecifier.binding_notMem hnew
  rw [← List.append_assoc]
  exact ⟨h.bindImported hr hm hnames (hs s (by simp)) hnot hbound,
    hr.bindImported hm hnames (hs s (by simp)) hnot hbound⟩

/-- **Making the matching re-exports of a list anew** appends statements for what is taken. -/
theorem moveMatching (h : b.Fills m met) (hr : b.Rebinds m done rs) (hm : m.Numbered)
    (hstmt : stmt ∈ m.body) (hnew : target ∉ met stmt.origin.id)
    {specifiers : List ExportSpecifier} {o : Origin} {n : Nat}
    (hcurrent : b.draft.current? stmt.origin.id
      = some (.exportNamed specifiers (some target.module) o))
    (hconcerns : target.concerns (.exportNamed specifiers (some target.module) o))
    (hgives : (Drafting.moveMatching target specifiers (some target.module) o).Gives b n b') :
    b'.Fills m (Function.update met stmt.origin.id (met stmt.origin.id ++ [target])) := by
  obtain ⟨k, hk⟩ := hr.along.extended
  obtain ⟨front, c, back, f, v, ha, hf, hremains, hfilled, hv, rfl, hkept⟩ :=
    h.exists_chunk hm hr.along.inOrder hstmt
  rw [hcurrent] at hkept
  have hremain := hremains c (by simp)
  have hpared := hremain.pared_of_exportNamed hm hf hstmt hkept.symm
  obtain ⟨hs', messages, hrehomed, hold, hvariable, ha'⟩ :=
    hk.arranged_moveMatching hm ha hkept.symm hgives
  have htaken : c.origin.taken target = specifiers.filter target.matchesExport := by
    rw [Stmt.taken_eq hnew, ← Chunk.id, hpared, Option.map_some, Option.getD_some,
      Stmt.taken_of_concerns]
  -- the target concerns the list, so something is taken
  have hne : hs' ≠ [] := by
    rintro rfl
    exact Stmt.filter_ne_nil_of_concerns hconcerns (List.map_eq_nil_iff.1 hrehomed.symm)
  have hfilled' : ∀ c' ∈ front ++ c :: back, ∃ rs hs, c'.Filled m messages (met c'.id) rs hs := by
    intro c' hc'
    obtain ⟨rs, hs, hfill⟩ := hfilled c' hc'
    refine ⟨rs, hs, hfill.change ?_⟩
    exact hv.imp (fun hv => Option.some.inj ((hold v hv).symm.trans (hvariable hne)))
      fun hnil => hnil c' hc'
  refine ⟨_, f, messages, ha', hf,
    ha.forall_change hm (hremain.pare hm hf hstmt hkept.symm hconcerns _)
      fun c' hc' hother => (hremains c' hc').of_ne hother _,
    ha.forall_change hm ?_ fun c' hc' hother => ?_, Or.inl (hvariable hne)⟩
  · obtain ⟨rs, hs, hfill⟩ := hfilled' c (by simp)
    obtain rfl := hfill.eq_nil_of_ne (hremain.origin_ne_importDecl hm hf hstmt hkept.symm)
    refine ⟨[], hs ++ hs', ⟨?_, by simp, ?_⟩⟩
    · have hadded := hfill.added
      rw [List.map_nil, List.nil_append] at hadded ⊢
      rw [List.flatMap_append, ← hadded]
      rfl
    · change _ = c.origin.takenBy (Function.update met c.id (met c.id ++ [target]) c.id)
      rw [Function.update_self, Stmt.takenBy_concat, ← hfill.rehomed, htaken, List.map_append,
        hrehomed]
  · change ∃ rs hs, c'.Filled m messages (Function.update met c.id _ c'.id) rs hs
    rw [Function.update_of_ne hother]
    exact hfilled' c' hc'

/-- Meeting a target that finds nothing. -/
theorem meet (h : b.Fills m met) (hm : m.Numbered) (hd : b.draft.InOrder) (hstmt : stmt ∈ m.body)
    (hleft : (stmt.pared (met stmt.origin.id)).bind (Stmt.pared [target])
      = stmt.pared (met stmt.origin.id)) (hnone : stmt.taken target = []) :
    b.Fills m (Function.update met stmt.origin.id (met stmt.origin.id ++ [target])) where
  chunks := by
    obtain ⟨front, c, back, f, v, ha, hf, hremains, hfilled, hv, rfl, -⟩ :=
      h.exists_chunk hm hd hstmt
    refine ⟨_, f, v, ha, hf, fun c' hc' => ?_, fun c' hc' => ?_, hv⟩
    · by_cases hsame : c'.id = c.origin.origin.id
      · obtain rfl : c' = c := List.inj_on_of_nodup_map (ha.nodup_ids hm) hc' (by simp) hsame
        exact (hremains c' hc').meet hleft
      · exact (hremains c' hc').of_ne hsame _
    · by_cases hsame : c'.id = c.origin.origin.id
      · obtain rfl : c' = c := List.inj_on_of_nodup_map (ha.nodup_ids hm) hc' (by simp) hsame
        obtain ⟨rs, hs, hfill⟩ := hfilled c' hc'
        refine ⟨rs, hs, hfill.added, hfill.rebound, ?_⟩
        rw [hsame, Function.update_self, Stmt.takenBy_concat, hnone, List.map_nil, List.append_nil]
        exact hfill.rehomed
      · rw [Function.update_of_ne hsame]
        exact hfilled c' hc'

/-- **A visit** fills the chunk of the statement. -/
theorem bindStmt (h : b.Fills m met) (hr : b.Rebinds m done rs) (hm : m.Numbered)
    (hnames : m.declaredNames.Nodup) (hstmt : stmt ∈ m.body) (hfresh : target ∉ met stmt.origin.id)
    (hnew : ((done ++ target.specifiers stmt).map ImportSpecifier.binding).Nodup) {c : BoundCounts}
    (hgives : (Drafting.bindStmt stmt.origin.id target).Gives b c b') :
    b'.Fills m (Function.update met stmt.origin.id (met stmt.origin.id ++ [target])) := by
  obtain ⟨rs', hr'⟩ := hr.bindStmt hm hnames hstmt hnew hgives
  obtain ⟨front, chunk, back, f, v, ha, hf, hremains, hfilled, hv, rfl, hkept⟩ :=
    h.exists_chunk hm hr.along.inOrder hstmt
  have hremain := hremains chunk (by simp)
  rcases Drafting.gives_bindStmt hgives with ⟨specifiers, source, o, hcurrent, hconcerns, -, hall⟩ |
    ⟨specifiers, o, hcurrent, hconcerns, hzero, hmove⟩ | ⟨hnone, rfl, rfl⟩
  · have horigin := hremain.origin_of_importDecl hm hf hstmt (hkept.symm.trans hcurrent)
    have himports := fun s hs =>
      Target.imports_of_mem_specifiers (t := target) (s := s) hstmt hs
    rw [horigin, Target.specifiers_of_concerns hconcerns] at himports hnew
    have hfilled := h.bindAll hr hm hnames himports hnew hall
    rw [horigin] at hstmt ⊢
    exact hfilled.meet hm hr'.along.inOrder hstmt rfl rfl
  · exact h.moveMatching hr hm hstmt hfresh hcurrent hconcerns hmove
  · have hidle := fun s hs => hnone s (hkept.trans hs)
    exact h.meet hm hr.along.inOrder hstmt (hremain.pared_idle hm hf hstmt hidle)
      (hremain.taken_idle hm hf hstmt hfresh hidle)

/-- Letting a statement meet targets fills its chunk. -/
theorem bindTargets (h : b.Fills m met) (hr : b.Rebinds m done rs) (hm : m.Numbered)
    (hnames : m.declaredNames.Nodup) (hstmt : stmt ∈ m.body) {targets : List Target}
    (htargets : (met stmt.origin.id ++ targets).Nodup)
    (hnew : ((done ++ targets.flatMap (·.specifiers stmt)).map ImportSpecifier.binding).Nodup)
    {c : BoundCounts} (hgives : (Drafting.bindTargets stmt.origin.id targets).Gives b c b') :
    b'.Fills m (Function.update met stmt.origin.id (met stmt.origin.id ++ targets)) := by
  refine (Drafting.bindTargets_induction
    (P := fun front _ b =>
      b.Fills m (Function.update met stmt.origin.id (met stmt.origin.id ++ front)) ∧
        ∃ rs, b.Rebinds m (done ++ front.flatMap (·.specifiers stmt)) rs) hgives
    ⟨by rwa [List.append_nil, Function.update_eq_self],
      rs, by rwa [List.flatMap_nil, List.append_nil]⟩ ?_).1
  rintro front t back _ b₁ _ b₂ rfl ⟨h, rs, hr⟩ hvisit
  have hnew' := ImportSpecifier.nodup_rounds hnew
  -- no target comes twice
  have hfresh : t ∉ met stmt.origin.id ++ front := by
    rw [← List.append_assoc, List.nodup_middle] at htargets
    exact fun hmem => (List.nodup_cons.1 htargets).1 (List.mem_append_left _ hmem)
  have h' := h.bindStmt hr hm hnames hstmt (by rwa [Function.update_self]) hnew' hvisit
  rw [Function.update_self, Function.update_idem] at h'
  rw [List.flatMap_append, List.flatMap_singleton, ← List.append_assoc, ← List.append_assoc]
  exact ⟨h', hr.bindStmt hm hnames hstmt hnew' hvisit⟩

/-- Letting statements meet targets fills their chunks. -/
theorem bindStmts (h : b.Fills m met) (hr : b.Rebinds m done rs) (hm : m.Numbered)
    (hnames : m.declaredNames.Nodup) {targets : List Target} (htargets : targets.Nodup)
    {stmts : List Stmt} (hstmts : stmts ⊆ m.body) (hnodup : (stmts.map (·.origin.id)).Nodup)
    (hmet : ∀ s ∈ stmts, met s.origin.id = [])
    (hnew : ((done ++ Target.allSpecifiers targets stmts).map ImportSpecifier.binding).Nodup)
    {c : BoundCounts} (hgives : (Drafting.bindStmts targets stmts).Gives b c b') :
    ∃ met', b'.Fills m met' ∧ (∀ s ∈ stmts, met' s.origin.id = targets) ∧
      ∀ n, n ∉ stmts.map (·.origin.id) → met' n = met n := by
  refine (Drafting.bindStmts_induction
    (P := fun front _ b => (∃ met', b.Fills m met' ∧ (∀ s ∈ front, met' s.origin.id = targets) ∧
        ∀ n, n ∉ front.map (·.origin.id) → met' n = met n) ∧
      ∃ rs, b.Rebinds m (done ++ Target.allSpecifiers targets front) rs) hgives
    ⟨⟨met, h, by simp, fun _ _ => rfl⟩,
      rs, by rwa [Target.allSpecifiers, List.flatMap_nil, List.append_nil]⟩ ?_).1
  rintro front s back _ b₁ _ b₂ rfl ⟨⟨met', h, hthere, hother⟩, rs, hr⟩ hvisits
  have hnew' := ImportSpecifier.nodup_rounds hnew
  have hs : s ∈ m.body := hstmts (by simp)
  obtain ⟨hfirst, hvisited⟩ := Stmt.update_visited (v := fun _ => targets) hnodup hthere hother
  rw [hmet s (by simp)] at hfirst
  have h' := h.bindTargets hr hm hnames hs (by rwa [hfirst, List.nil_append]) hnew' hvisits
  rw [hfirst, List.nil_append] at h'
  rw [Target.allSpecifiers, List.flatMap_append, List.flatMap_singleton, ← List.append_assoc]
  exact ⟨⟨_, h', hvisited⟩, hr.bindTargets hm hnames hs hnew' hvisits⟩

end Bench.Fills

/-! ### Whole passes -/

/-- **A module is remade** in a draft: the messages are in front, if anything was appended, and then
come the chunks of the statements in their order. -/
structure Draft.Remade (m : Module) (targets : List Target) (rs : List Rebinding) (cs : List Chunk)
    (f : Identifier → Identifier) (messages : String) (d : Draft) : Prop where
  /-- The draft extends the module. -/
  extended : d.Extends m []
  /-- Its names and uses are those of the module with specifiers bound. -/
  tracked : d.Tracks m rs
  /-- No two constants are for the same specifier. -/
  specifiers : (rs.map (·.specifier.binding)).Nodup
  /-- They are for specifiers that targets match. -/
  met : ∀ r ∈ rs, r.specifier ∈ Target.allSpecifiers targets m.body
  /-- Every such specifier has a constant, or is not used. -/
  complete : ∀ s ∈ Target.allSpecifiers targets m.body,
    (∃ r ∈ rs, r.specifier = s) ∨ m.Unused s.binding
  /-- The constants are there. -/
  constants : ∀ r ∈ rs, m.next ≤ r.id ∧ r.constant messages ∈ d.sequence.body
  /-- The messages are in front of the chunks, if anything was appended. -/
  body : ∃ front : Option Stmt, d.sequence.body = front.toList ++ cs.flatMap Chunk.stmts ∧
    (∀ s ∈ front, ∃ literal n, s = .messagesConstant messages literal n ∧ m.next ≤ n) ∧
    (front = none → ∀ c ∈ cs, c.added = [])
  /-- There is a chunk for each statement of the module. -/
  origins : cs.map Chunk.origin = m.body
  /-- Numbers of what was appended are beyond those of the module. -/
  added : ∀ c ∈ cs, ∀ s ∈ c.added, m.next ≤ s.origin.id ∧
    ∀ i ∈ s.identifiers, m.next ≤ i.origin.id
  /-- Uses are renamed. -/
  renames : m.Renames f
  /-- What is left of a statement is what the targets leave, with uses renamed. -/
  kept : ∀ c ∈ cs, c.kept = (c.origin.pared targets).map (Stmt.mapIds f)
  /-- What was appended to it are constants of its specifiers, and what was taken from it. -/
  filled : ∀ c ∈ cs, ∃ rs hs, c.Filled m messages targets rs hs

/-- **A pass remakes the module.** -/
theorem Module.exists_remade {m : Module} (hm : m.Numbered) (hnames : m.declaredNames.Nodup)
    {targets : List Target} (htargets : targets.Nodup) {catalogues : CatalogueSource}
    {path : Option String} {r : BoundModule}
    (hrun : (m.bindMessages targets catalogues path).run.1 = .ok r) :
    ∃ rs cs f messages, r.draft.Remade m targets rs cs f messages := by
  obtain ⟨gate, b₁, b₂, hgate, hstmts, hclose, hdraft, -⟩ := gives_bindMessages hrun
  have hnew := Target.nodup_allSpecifiers hm htargets
  have hstart := Bench.Rebinds.ofModule hm hgate
  obtain ⟨rs, hr⟩ := hstart.bindStmts hm hnames (List.Subset.refl _) hnew hstmts
  obtain ⟨met, ⟨cs, f, v, ha, hf, hremains, hfilled, hv⟩, hmet, -⟩ :=
    (Bench.Fills.ofModule m gate).bindStmts hstart hm hnames htargets
      (List.Subset.refl _) hm.statements (fun _ _ => rfl) hnew hstmts
  have htargets' : ∀ c ∈ cs, met c.id = targets := fun c hc =>
    hmet c.origin (ha.origins ▸ List.mem_map_of_mem hc)
  obtain ⟨hext, htracked, -⟩ := hr.close hm hclose
  rw [hdraft]
  have hkept : ∀ c ∈ cs, c.kept = (c.origin.pared targets).map (Stmt.mapIds f) := fun c hc => by
    rw [← htargets' c hc]
    exact hremains c hc
  have hfilled' : ∀ c ∈ cs, ∃ rs hs, c.Filled m v targets rs hs := fun c hc => by
    rw [← htargets' c hc]
    exact hfilled c hc
  obtain ⟨k, hk⟩ := hr.along.extended
  rcases Gate.gives_close hclose with ⟨hzero, -, rfl⟩ | ⟨hpositive, -, literal, hlast, -⟩
  · -- without a request there is no variable, so nothing was bound and nothing appended
    have hnone := hk.requests.1 hzero
    have hnil : ∀ c ∈ cs, c.added = [] := by
      rcases hv with hv | hnil
      · rw [hnone] at hv
        cases hv
      · exact hnil
    have hbound : rs = [] := List.eq_nil_iff_forall_not_mem.2 fun r' hr' => by
      obtain ⟨v', hv', -⟩ := hr.along.placed.constants r' hr'
      rw [hnone] at hv'
      cases hv'
    subst hbound
    exact ⟨[], cs, f, v, hext, htracked, hr.specifiers, hr.met, hr.complete, by simp,
      ⟨none, ha.body, by simp, fun _ => hnil⟩, ha.origins, ha.added, hf, hkept, hfilled'⟩
  · obtain ⟨name, hname⟩ :=
      Option.ne_none_iff_exists'.1 fun hnone => hpositive (hk.requests.2 hnone)
    rw [hname, Option.getD_some, Draft.prepend_eq] at hlast
    -- the messages go in front, and everything else stays as it is
    have hbody : b₂.draft.sequence.body
        = Stmt.messagesConstant name literal b₁.draft.next :: b₁.draft.sequence.body := by
      rw [hlast]
      rfl
    have hconstants : ∀ r' ∈ rs, m.next ≤ r'.id ∧ r'.constant name ∈ b₂.draft.sequence.body := by
      intro r' hr'
      obtain ⟨v', hv', hbehind⟩ := hr.along.placed.constants r' hr'
      obtain rfl := Option.some.inj (hname.symm.trans hv')
      exact ⟨(hr.along.placed.bounds r' hr').1, hbody ▸ List.mem_cons_of_mem _ hbehind.mem⟩
    have hmessages : ∀ c ∈ cs, ∃ rs hs, c.Filled m name targets rs hs := by
      intro c hc
      obtain ⟨rs', hs', hfill⟩ := hfilled' c hc
      exact ⟨rs', hs', hfill.change
        (hv.imp (fun hv => Option.some.inj (hv.symm.trans hname)) fun hnil => hnil c hc)⟩
    refine ⟨rs, cs, f, name, hext, htracked, hr.specifiers, hr.met, hr.complete, hconstants,
      ⟨some (Stmt.messagesConstant name literal b₁.draft.next), ?_, ?_, by simp⟩, ha.origins,
      ha.added, hf, hkept, hmessages⟩
    · rw [hbody, ha.body]
      rfl
    · rintro s hs
      obtain rfl := Option.some.inj hs
      exact ⟨literal, _, rfl, hk.draft.next_le⟩

/-- A bound constant is known by its parts. -/
theorem Stmt.boundConstant_inj {name name' function function' messages messages' : String}
    {n n' : Nat}
    (h : boundConstant name function messages n = boundConstant name' function' messages' n') :
    name = name' ∧ function = function' ∧ messages = messages' ∧ n = n' := by
  simp only [boundConstant, constant, addedId, Origin.synthetic] at h
  simp_all

/-- A specifier belongs to one import. -/
theorem Module.Imports.stmt_eq {m : Module} {stmt stmt' : Stmt} {s s' : ImportSpecifier}
    (h : m.Imports stmt s) (hm : m.Numbered) (h' : m.Imports stmt' s')
    (hbinding : s.binding = s'.binding) : stmt = stmt' := by
  obtain ⟨hstmt, specifiers, source, o, rfl, hs⟩ := h
  obtain ⟨hstmt', specifiers', source', o', rfl, hs'⟩ := h'
  exact (hm.stmt_of_number hstmt hstmt' (List.mem_map_of_mem hs) (List.mem_map_of_mem hs')
    (congrArg (fun i : Identifier => i.origin.id) hbinding)).1

/-- What an added binding declares is meant by its name. -/
theorem Draft.Extends.declarer_added {m : Module} {d : Draft} (h : d.Extends m []) {b : Binding}
    (hb : b ∈ ScopeEvent.bindings d.events) (hframe : b.frame = .module)
    (hadded : m.next ≤ b.identifier.origin.id) {u : Identifier} (hu : u ∈ d.toModule.uses)
    (hname : u.name = b.name) : d.toModule.declarer? u.origin.id = some b.identifier := by
  obtain ⟨c, hu⟩ := Stmt.exists_mem_uses hu
  rw [h.inOrder.declarer?_eq hu, hname,
    h.resolve?_added hb hframe hadded (Draft.module_mem_chain hu), Option.map_some]

namespace Draft.Remade

variable {m : Module} {targets : List Target} {rs : List Rebinding} {cs : List Chunk}
  {f : Identifier → Identifier} {messages : String} {d : Draft} {c : Chunk} {s : Stmt}

/-- The chunk of a statement of the module. -/
theorem exists_chunk (h : d.Remade m targets rs cs f messages) (hs : s ∈ m.body) :
    ∃ c ∈ cs, c.origin = s := by
  rw [← h.origins] at hs
  exact List.mem_map.1 hs

theorem origin_mem (h : d.Remade m targets rs cs f messages) (hc : c ∈ cs) : c.origin ∈ m.body :=
  h.origins ▸ List.mem_map_of_mem hc

/-- What is in a chunk is in the draft. -/
theorem mem_body (h : d.Remade m targets rs cs f messages) (hc : c ∈ cs) (hs : s ∈ c.stmts) :
    s ∈ d.sequence.body := by
  obtain ⟨front, hbody, -⟩ := h.body
  rw [hbody]
  exact List.mem_append_right _ (List.mem_flatMap_of_mem hc hs)

/-- If anything was appended, the messages are the first statement. -/
theorem exists_front (h : d.Remade m targets rs cs f messages) (hc : c ∈ cs) (hs : s ∈ c.added) :
    ∃ literal n, d.sequence.body
      = Stmt.messagesConstant messages literal n :: cs.flatMap Chunk.stmts ∧ m.next ≤ n := by
  obtain ⟨front, hbody, hfront, hnone⟩ := h.body
  cases front with
  | none =>
    rw [hnone rfl c hc] at hs
    cases hs
  | some front =>
    obtain ⟨literal, n, rfl, hle⟩ := hfront front rfl
    exact ⟨literal, n, hbody, hle⟩

/-- A statement of the draft holds the messages, or is left of one of the module, or was
appended. -/
theorem stmt_cases (h : d.Remade m targets rs cs f messages) (hs : s ∈ d.sequence.body) :
    (∃ literal n, s = .messagesConstant messages literal n ∧ m.next ≤ n) ∨
      (∃ c ∈ cs, c.kept = some s ∧ ∃ s₀, c.origin.pared targets = some s₀ ∧ s = s₀.mapIds f) ∨
      ∃ c ∈ cs, s ∈ c.added := by
  obtain ⟨front, hbody, hfront, -⟩ := h.body
  rw [hbody] at hs
  rcases List.mem_append.1 hs with hs | hs
  · exact Or.inl (hfront s (Option.mem_toList.1 hs))
  · obtain ⟨c, hc, hs⟩ := List.mem_flatMap.1 hs
    rcases List.mem_append.1 hs with hs | hs
    · have hkept : c.kept = some s := by simpa using hs
      have hpared := hkept
      rw [h.kept c hc, Option.map_eq_some_iff] at hpared
      obtain ⟨s₀, hs₀, rfl⟩ := hpared
      exact Or.inr (Or.inl ⟨c, hc, hkept, s₀, hs₀, rfl⟩)
    · exact Or.inr (Or.inr ⟨c, hc, hs⟩)

/-- What was appended is the constant of a specifier, or one of the statements for a name that was
taken. -/
theorem added_cases (h : d.Remade m targets rs cs f messages) (hc : c ∈ cs) (hs : s ∈ c.added) :
    (∃ r : Rebinding, s = r.constant messages ∧ m.Imports c.origin r.specifier) ∨
      ∃ r : Rehoming, s ∈ r.stmts messages ∧ ∀ s' ∈ r.stmts messages, s' ∈ c.added := by
  obtain ⟨rs', hs', hfill⟩ := h.filled c hc
  rw [hfill.added] at hs
  rcases List.mem_append.1 hs with hs | hs
  · obtain ⟨r, hr, rfl⟩ := List.mem_map.1 hs
    exact Or.inl ⟨r, rfl, hfill.rebound r hr⟩
  · obtain ⟨r, hr, hs⟩ := List.mem_flatMap.1 hs
    refine Or.inr ⟨r, hs, fun s' hs' => ?_⟩
    rw [hfill.added]
    exact List.mem_append_right _ (List.mem_flatMap_of_mem hr hs')

theorem use_mem (hs : s ∈ d.sequence.body) {u : Identifier} (hu : u ∈ s.uses) :
    u ∈ d.toModule.uses := by
  rw [Module.uses, Stmt.usesList_eq_flatMap]
  exact List.mem_flatMap_of_mem hs hu

/-- The variable means the messages wherever something was appended. -/
theorem declarer_argument (h : d.Remade m targets rs cs f messages) {literal : CodeText} {n : Nat}
    (hfront : Stmt.messagesConstant messages literal n ∈ d.sequence.body) (hle : m.next ≤ n)
    {u : Identifier} (hu : u ∈ d.toModule.uses) (hname : u.name = messages) :
    d.toModule.declarer? u.origin.id = some (Stmt.addedId messages (n + 1)) := by
  have hadded : m.next ≤ (Stmt.addedId messages (n + 1)).origin.id := Nat.le_add_right_of_le hle
  exact h.extended.declarer_added
    (b := ⟨messages, .declared .const, Stmt.addedId messages (n + 1), .synthetic n, .module, []⟩)
    (Draft.bindings_subset hfront (List.mem_singleton.2 rfl)) rfl hadded hu hname

/-- The name under which a function that was taken is imported means that import. -/
theorem declarer_imported (h : d.Remade m targets rs cs f messages) (hc : c ∈ cs) {r : Rehoming}
    (hr : r.importStmt ∈ c.added) {u : Identifier} (hu : u ∈ d.toModule.uses)
    (hname : u.name = r.imported) :
    d.toModule.declarer? u.origin.id = some (Stmt.addedId r.imported (r.id + 1)) := by
  have hadded : m.next ≤ (Stmt.addedId r.imported (r.id + 1)).origin.id :=
    Nat.le_add_right_of_le (h.added c hc _ hr).1
  exact h.extended.declarer_added
    (b := ⟨r.imported, .importName, Stmt.addedId r.imported (r.id + 1), .synthetic r.id,
      .module, []⟩)
    (Draft.bindings_subset (h.mem_body hc (List.mem_append_right _ hr))
      (List.mem_singleton.2 rfl)) rfl hadded hu hname

/-- What is left of a statement keeps its number. -/
theorem kept_number (h : d.Remade m targets rs cs f messages) (hc : c ∈ cs)
    (hs : c.kept = some s) : s.origin.id = c.id := by
  rw [h.kept c hc, Option.map_eq_some_iff] at hs
  obtain ⟨s₀, hs₀, rfl⟩ := hs
  rw [Stmt.origin_mapIds]
  obtain ⟨rfl, -⟩ | ⟨specifiers, source, o, horigin, rfl⟩ := Stmt.pared_eq_some hs₀
  · rfl
  · rw [Chunk.id, horigin]
    rfl

/-- **The constant of a specifier was appended to its import.** -/
theorem exists_chunk_constant (h : d.Remade m targets rs cs f messages) (hm : m.Numbered)
    (hnames : m.declaredNames.Nodup) {r : Rebinding} (hr : r ∈ rs) :
    ∃ c ∈ cs, c.origin = r.stmt ∧ r.constant messages ∈ c.added := by
  obtain ⟨hle, hmem⟩ := h.constants r hr
  have himports := (h.tracked.rebound r hr).1
  rcases h.stmt_cases hmem with ⟨literal, n, heq, -⟩ | ⟨c, hc, hkept, -⟩ | ⟨c, hc, hadded⟩
  · cases heq
  · -- what is left of a statement has its number, and the constant a later one
    have hnumber : r.id = c.id := h.kept_number hc hkept
    have hlt : c.id < m.next := hm.statement_lt _ (h.origin_mem hc)
    omega
  · refine ⟨c, hc, ?_, hadded⟩
    rcases h.added_cases hc hadded with ⟨r', heq, himports'⟩ | ⟨r', hmem', hall⟩
    · have hname := (Stmt.boundConstant_inj heq).2.1
      have hbinding := himports.binding_eq himports' hnames hname
      exact (himports'.stmt_eq hm himports hbinding.symm)
    · -- the import of a name that was taken would mean what the specifier means
      have himport := hall r'.importStmt (by simp [Rehoming.stmts])
      have hname : r.specifier.binding.name = r'.imported := by
        simp only [Rehoming.stmts, List.mem_cons, List.not_mem_nil, or_false] at hmem'
        rcases hmem' with heq | heq | heq
        · cases heq
        · exact (Stmt.boundConstant_inj heq).2.1
        · cases heq
      have huse : r.function ∈ d.toModule.uses :=
        use_mem hmem (List.mem_cons_self ..)
      have hmeans := h.declarer_imported hc himport huse hname
      have hspecifier := ((h.tracked.function h.extended hm hnames h.specifiers
        (fun r hr => ⟨(h.constants r hr).1, messages, (h.constants r hr).2⟩) hr).2 _ huse).2 rfl
      rw [hspecifier, Option.some_inj] at hmeans
      have hnumber : r.specifier.binding.origin.id = r'.id + 1 := by rw [hmeans]; rfl
      have hlt := himports.binding_lt hm
      have hafter := (h.added c hc _ himport).1
      have hid : r'.importStmt.origin.id = r'.id := rfl
      omega

end Draft.Remade

end MessageBinder
