import MessageBinder.Proofs.Draft.Frame
import MessageBinder.Proofs.Draft.Scanning
import MessageBinder.Proofs.Draft.Tally
import MessageBinder.Proofs.Printing.Verbatim

/-!
# When messages are put in

The messages are put into a module if and only if a name was bound, and that is known only after the
whole pass: a statement that matches a target may hold nothing that is used. So the count of bound
names decides over everything that a pass does to the world (`MessageBinder.Module.Gated`). Where it
is zero, no directory is listed, nothing is loaded and nothing in the module is changed, and where
it is not, the directory of the source is listed once, each catalogue is loaded once, and the module
gets the one constant that every constant binds its function to.
-/

namespace MessageBinder

/-! ### What was put in -/

/-- The statements of a draft that a module did not have. -/
def Module.inserted (m : Module) (d : Draft) : List Stmt :=
  d.toModule.body.filter fun s => s.origin.id ∉ m.body.map (·.origin.id)

/-- What is left of a statement has no more texts that are printed as they are. -/
theorem Stmt.verbatims_of_pared {met : List Target} {stmt s : Stmt} (h : stmt.pared met = some s)
    (hnone : stmt.verbatims = []) : s.verbatims = [] := by
  obtain ⟨rfl, -⟩ | ⟨specifiers, source, o, rfl, rfl⟩ := pared_eq_some h
  · exact hnone
  · rfl

theorem Rehoming.verbatims_of_mem_stmts {r : Rehoming} {messages : String} {s : Stmt}
    (hs : s ∈ r.stmts messages) : s.verbatims = [] := by
  simp only [stmts, List.mem_cons, List.not_mem_nil, or_false] at hs
  rcases hs with rfl | rfl | rfl <;> rfl

theorem Rehoming.boundTo?_of_mem_stmts {r : Rehoming} {messages : String} {s : Stmt}
    (hs : s ∈ r.stmts messages) {v : Identifier} (hv : s.boundTo? = some v) :
    v.name = messages := by
  simp only [stmts, List.mem_cons, List.not_mem_nil, or_false] at hs
  rcases hs with rfl | rfl | rfl
  · cases hv
  · obtain rfl := Option.some.inj hv
    rfl
  · cases hv

namespace Chunk.Synthesized

variable {m : Module} {messages : String} {specifiers : List ImportSpecifier}
  {taken : List (Target × ExportSpecifier)} {bs : List BoundImport} {rs : List Rehoming} {c : Chunk}

theorem verbatims (h : c.Synthesized m messages specifiers taken bs rs) {s : Stmt}
    (hs : s ∈ c.added) : s.verbatims = [] := by
  rw [h.added] at hs
  rcases List.mem_append.1 hs with hs | hs
  · obtain ⟨b, -, rfl⟩ := List.mem_map.1 hs
    rfl
  · obtain ⟨r, -, hs⟩ := List.mem_flatMap.1 hs
    exact Rehoming.verbatims_of_mem_stmts hs

/-- A constant that was put in binds its function to the variable. -/
theorem boundTo? (h : c.Synthesized m messages specifiers taken bs rs) {s : Stmt}
    (hs : s ∈ c.added) {v : Identifier} (hv : s.boundTo? = some v) : v.name = messages := by
  rw [h.added] at hs
  rcases List.mem_append.1 hs with hs | hs
  · obtain ⟨b, -, rfl⟩ := List.mem_map.1 hs
    obtain rfl := Option.some.inj hv
    rfl
  · obtain ⟨r, -, hs⟩ := List.mem_flatMap.1 hs
    exact Rehoming.boundTo?_of_mem_stmts hs hv

end Chunk.Synthesized

/-! ### Before the gate is closed -/

/-- **A bench is bound** after all statements: nothing in it is printed as it is, and the constants
that were put in bind to the variable of its gate. -/
structure Bench.Bound (m : Module) (count : Nat) (b : Bench) : Prop where
  /-- Each statement that was put in has a number that the module did not have. -/
  inserted : ∀ s ∈ b.draft.sequence.body,
    m.next ≤ s.origin.id ↔ s.origin.id ∉ m.body.map (·.origin.id)
  /-- Nothing is printed as it is. -/
  verbatims : b.draft.toModule.verbatims = []
  /-- The constants that were put in bind to the variable. -/
  constants : ((m.inserted b.draft).filterMap Stmt.boundTo?).map (fun v => some v.name)
    = List.replicate count b.gate.variableName

namespace Module

variable {text : String} {filename : Option String} {base : Nat} {m : Module}
  {targets : List Target} {gate : Gate} {source : String} {c : BoundCounts} {b : Bench}

/-- **Binding all statements** of a module that was read. -/
theorem bound_of_bindStmts [CharacterNames] (hparse : parse text filename base = .ok m)
    (hgate : Gate.ofPath (some source) = .ok gate)
    (hstmts : (Drafting.bindStmts targets m.body).Gives ⟨.ofModule m, gate⟩ c b)
    (htallies : b.Tallies m gate.source c.total c.total) : b.Bound m c.total := by
  have hm := numbered_of_parse hparse
  obtain ⟨met, done, hframes, -⟩ := Bench.Frames.of_bindStmts hm hgate hstmts
  obtain ⟨cs, f, v, ha, hf, hremains, hmade, hv⟩ := hframes.chunks
  -- a statement is either what is left of one of the module or was put in
  have hcases : ∀ s ∈ b.draft.sequence.body,
      (s.origin.id ∈ m.body.map (·.origin.id) ∧ s.origin.id < m.next ∧ s.verbatims = []) ∨
      (m.next ≤ s.origin.id ∧ s.verbatims = [] ∧
        ∀ x, s.boundTo? = some x → some x.name = b.gate.variableName) := by
    intro s hs
    rw [ha.body] at hs
    obtain ⟨chunk, hchunk, hs⟩ := List.mem_flatMap.1 hs
    have horigin : chunk.origin ∈ m.body := ha.origins ▸ List.mem_map_of_mem hchunk
    rcases List.mem_append.1 hs with hs | hs
    · have hkept : chunk.kept = some s := by simpa using hs
      have hid := ha.kept chunk hchunk s hkept
      refine Or.inl ⟨hid ▸ List.mem_map_of_mem horigin, hid ▸ hm.statement_lt _ horigin, ?_⟩
      rw [hremains chunk hchunk] at hkept
      obtain ⟨s₀, hs₀, rfl⟩ := Option.map_eq_some_iff.1 hkept
      rw [Stmt.verbatims_mapIds]
      exact Stmt.verbatims_of_pared hs₀ (verbatims_of_parse hparse horigin)
    · obtain ⟨bs, rs, hsynthesized⟩ := (hmade chunk hchunk).made
      refine Or.inr ⟨(ha.added chunk hchunk s hs).1, hsynthesized.verbatims hs, fun x hx => ?_⟩
      rw [hsynthesized.boundTo? hs hx]
      refine (hv.resolve_right fun hnone => ?_).symm
      rw [hnone chunk hchunk] at hs
      cases hs
  have hinserted : ∀ s ∈ b.draft.sequence.body,
      m.next ≤ s.origin.id ↔ s.origin.id ∉ m.body.map (·.origin.id) := by
    intro s hs
    constructor
    · rintro hle hmem
      obtain ⟨s', hs', heq⟩ := List.mem_map.1 hmem
      have hlt := hm.statement_lt s' hs'
      omega
    · rintro hnot
      rcases hcases s hs with ⟨hmem, -⟩ | ⟨hle, -⟩
      · exact absurd hmem hnot
      · exact hle
  refine ⟨hinserted, List.flatMap_eq_nil_iff.2 fun s hs => ?_, List.eq_replicate_iff.2 ⟨?_, ?_⟩⟩
  · rcases hcases s hs with ⟨-, -, hnone⟩ | ⟨-, hnone, -⟩ <;> exact hnone
  · rw [List.length_map, List.length_filterMap_eq_countP, inserted, List.countP_filter,
      ← htallies.constants]
    refine List.countP_congr fun s hs => ?_
    rw [Bool.and_comm]
    simp only [Bool.and_eq_true, decide_eq_true_eq, hinserted s hs]
  · rintro name hname
    obtain ⟨x, hx, rfl⟩ := List.mem_map.1 hname
    obtain ⟨s, hs, hbound⟩ := List.mem_filterMap.1 hx
    obtain ⟨hs, hnot⟩ := List.mem_filter.1 hs
    rcases hcases s hs with ⟨hmem, -⟩ | ⟨-, -, hvariable⟩
    · simp [hmem] at hnot
    · exact hvariable x hbound

/-- Messages at the front bind nothing. -/
theorem filterMap_inserted_prepend (m : Module) (d : Draft) (name : String) (literal : CodeText) :
    (m.inserted (d.prepend (Stmt.messagesConstant name literal)).2).filterMap Stmt.boundTo?
      = (m.inserted d).filterMap Stmt.boundTo? := by
  have hbody : (d.prepend (Stmt.messagesConstant name literal)).2.toModule.body
      = Stmt.messagesConstant name literal d.next :: d.toModule.body := rfl
  rw [inserted, hbody, List.filter_cons]
  split <;> rfl

end Module

/-! ### Whatever is collected -/

/-- A gate knows the path of its source. -/
theorem Gate.eq_of_ofPath {path : Option String} {gate : Gate} (h : ofPath path = .ok gate) :
    ∃ source, path = some source ∧ gate = { source } := by
  cases path with
  | none => cases h
  | some source =>
    rw [ofPath] at h
    split at h
    · cases h
    · exact ⟨source, rfl, (Except.ok.inj h).symm⟩

theorem Gate.ofPath_of_ne {source : String} (h : source ≠ "") :
    ofPath (some source) = .ok { source } := by
  rw [ofPath, if_neg (by simpa using h)]

/-- A gate is opened by a path, unless that is missing. -/
theorem Gate.ofPath_cases (path : Option String) :
    ((path = none ∨ path = some "") ∧ ofPath path = .error .missingFilename) ∨
      ∃ source, source ≠ "" ∧ path = some source ∧ ofPath path = .ok { source } := by
  cases path with
  | none => exact Or.inl ⟨Or.inl rfl, rfl⟩
  | some source =>
    by_cases hempty : source = ""
    · subst hempty
      exact Or.inl ⟨Or.inr rfl, rfl⟩
    · exact Or.inr ⟨source, hempty, rfl, ofPath_of_ne hempty⟩

namespace Module

variable {m : Module} {targets : List Target} {source : String} {c : BoundCounts} {b : Bench}

/-- What binding the statements counts. -/
theorem tallies_of_bindStmts (hm : m.Numbered)
    (hstmts : (Drafting.bindStmts targets m.body).Gives ⟨.ofModule m, { source }⟩ c b) :
    b.Tallies m source c.total c.total := by
  have hstart : Bench.Tallies m source 0 0 ⟨.ofModule m, { source }⟩ :=
    ⟨rfl, Nat.le_refl _, rfl, Draft.tally_ofModule hm⟩
  have hend := hstart.bindStmts hm (List.Subset.refl _) hstmts
  rwa [Nat.zero_add] at hend

/-- **What a pass comes to**, whatever a collection is: it fails before it collects, it gives a
module without collecting, or its outcome is that of the collection for its source. -/
theorem bindMessagesBy_cases (hm : m.Numbered) (targets : List Target) (path : Option String) :
    (∃ e, (∀ message, e ≠ .loader message) ∧
      ∀ collect, (m.bindMessagesBy targets collect path).Ends (.error e) []) ∨
    (∃ r, ∀ collect, (m.bindMessagesBy targets collect path).Ends (.ok r) []) ∨
    ∃ source f, path = some source ∧ ∀ collect r paths, (collect source).Ends r paths →
      (m.bindMessagesBy targets collect path).Ends (r.map f) paths := by
  cases hgate : Gate.ofPath path with
  | error e =>
    refine Or.inl ⟨.config e, fun _ => Failure.noConfusion, fun collect => ?_⟩
    have hstart := Loads.ends_ofExcept ((Gate.ofPath path).mapError Failure.config)
    rw [hgate] at hstart
    rw [bindMessagesBy, hgate]
    exact hstart.bind_error _
  | ok gate =>
    obtain ⟨source, rfl, rfl⟩ := Gate.eq_of_ofPath hgate
    obtain ⟨r, hends, hfails⟩ :=
      Drafting.quiet_bindStmts targets m.body ⟨.ofModule m, { source }⟩
    cases r with
    | error e =>
      obtain ⟨absent, rfl⟩ := hfails e rfl
      exact Or.inl ⟨.edit absent, fun _ => Failure.noConfusion,
        fun collect => ends_bindMessagesBy_of_failed hgate hends⟩
    | ok p =>
      obtain ⟨c, b⟩ := p
      have hstmts : (Drafting.bindStmts targets m.body).Gives ⟨.ofModule m, { source }⟩ c b :=
        ⟨[], _, hends []⟩
      by_cases hidle : b.gate.requests = 0
      · exact Or.inr (Or.inl ⟨_, fun collect =>
          ends_bindMessagesBy hgate hstmts (ends_closeBy_of_idle hidle)⟩)
      · have hsource := (tallies_of_bindStmts hm hstmts).source
        exact Or.inr (Or.inr ⟨source, recorded c b, rfl, fun collect r paths hcollect =>
          ends_bindMessagesBy_of_asked hgate hstmts hidle (hsource.symm ▸ hcollect)⟩)

end Module

/-! ### Whole passes -/

/-- **A pass is gated** by the number of names that it binds. -/
structure Module.Gated (m : Module) (targets : List Target) (catalogues : CatalogueSource)
    (source : String) (r : BoundModule) (loads : List String) : Prop where
  /-- Binding the statements loads nothing, and asks the gate as often as it binds a name. -/
  requests : ∃ gate b, Gate.ofPath (some source) = .ok gate ∧
    Loads.Ends (StateT.run (Drafting.bindStmts targets m.body) ⟨.ofModule m, gate⟩)
      (.ok (r.counts, b)) [] ∧ b.gate.requests = r.counts.total
  /-- As many constants are put in, and they bind their functions to the variable. -/
  constants : ((m.inserted r.draft).filterMap Stmt.boundTo?).map (fun v => some v.name)
    = List.replicate r.counts.total r.variableName
  /-- Where nothing is bound, nothing is changed, no name is taken and nothing is loaded. -/
  idle : r.counts.total = 0 →
    r.draft = .ofModule m ∧ r.injected = false ∧ r.variableName = none ∧ loads = []
  /-- Where something is, the catalogues of the source are loaded, each once, and the messages stand
  at the front, under the name of the variable, and nowhere else. -/
  busy : r.counts.total ≠ 0 → r.injected = true ∧
    (∃ names, catalogues.tree.filesIn (catalogues.directory source) = .ok names ∧
      loads.Perm ((names.filter fun name => (Locale.ofFileName? (Path.ofString source).stem
        catalogues.extension name).isSome).map (catalogues.directory source).entryText)) ∧
    ∃ v literal n, r.variableName = some v ∧
      r.draft.toModule.body.head? = some (Stmt.messagesConstant v literal n) ∧
      r.draft.toModule.verbatims = [literal]
  /-- The directory of the source is listed once if something is bound, and no other: a listing that
  notes itself is noted in front of what is loaded. -/
  scans : ∀ mark, (m.bindMessagesBy targets
      (catalogues.recordBy (Loads.noting mark catalogues.scan)) (some source)).run
    = (.ok r, if r.counts.total = 0 then [] else mark (catalogues.directory source) :: loads)

namespace Module

variable {text : String} {filename : Option String} {base : Nat} {m : Module}

section

variable {targets : List Target} {source : String} {gate : Gate} {c : BoundCounts} {b : Bench}

/-- A pass that bound nothing left everything as it was. -/
theorem gated_of_total_eq_zero (hgate : Gate.ofPath (some source) = .ok gate)
    (hstmts : (Drafting.bindStmts targets m.body).Gives ⟨.ofModule m, gate⟩ c b)
    (hrequests : b.gate.requests = c.total) (hbound : b.Bound m c.total) (hzero : c.total = 0)
    (catalogues : CatalogueSource) :
    (m.bindMessages targets catalogues (some source)).Ends
      (.ok ⟨b.draft, c, false, b.gate.variableName⟩) [] ∧
    m.Gated targets catalogues source ⟨b.draft, c, false, b.gate.variableName⟩ [] := by
  have hcollects : ∀ collect, (m.bindMessagesBy targets collect (some source)).Ends
      (.ok ⟨b.draft, c, false, b.gate.variableName⟩) [] := fun collect =>
    ends_bindMessagesBy hgate hstmts (ends_closeBy_of_idle (hrequests.trans hzero))
  refine ⟨hcollects _, ?_, hbound.constants, fun _ => ?_, fun hne => absurd hzero hne,
    fun mark => ?_⟩
  · exact ⟨gate, b, hgate, (Drafting.quiet_bindStmts targets m.body _).ends hstmts, hrequests⟩
  · obtain rfl := Drafting.eq_of_bindStmts hstmts hzero
    exact ⟨rfl, rfl, (Gate.ofPath_eq_ok hgate).1, rfl⟩
  · rw [if_pos hzero]
    exact (hcollects _).run

/-- A pass that bound something collects the record of its source and puts it at the front. -/
theorem gated_of_total_ne_zero (hgate : Gate.ofPath (some source) = .ok gate)
    (hsource : b.gate.source = source)
    (hstmts : (Drafting.bindStmts targets m.body).Gives ⟨.ofModule m, gate⟩ c b)
    (hrequests : b.gate.requests = c.total) (hbound : b.Bound m c.total) (hne : c.total ≠ 0)
    {name : String} (hname : b.gate.variableName = some name) (catalogues : CatalogueSource) :
    ∃ r loads, (m.bindMessages targets catalogues (some source)).Ends r loads ∧
      ∀ bound, r = .ok bound → m.Gated targets catalogues source bound loads := by
  subst hsource
  obtain ⟨r, loads, hrecord, hcollected⟩ := catalogues.exists_ends_recordBy b.gate.source
  refine ⟨_, _, ends_bindMessagesBy_of_asked hgate hstmts (hrequests ▸ hne) hrecord,
    fun bound hr => ?_⟩
  cases r with
  | error e => cases hr
  | ok record =>
    obtain rfl := Except.ok.inj hr
    obtain ⟨hnames, hnoted⟩ := hcollected record rfl
    refine ⟨?_, ?_, fun hzero => absurd hzero hne, fun _ => ⟨rfl, hnames, ?_⟩, fun mark => ?_⟩
    · exact ⟨gate, b, hgate, (Drafting.quiet_bindStmts targets m.body _).ends hstmts, hrequests⟩
    · rw [recorded, filterMap_inserted_prepend]
      exact hbound.constants
    · rw [recorded, hname, Option.getD_some]
      refine ⟨name, record.literal, b.draft.next, rfl, rfl, ?_⟩
      exact congrArg (record.literal :: ·) hbound.verbatims
    · rw [if_neg (show (recorded c b record).counts.total ≠ 0 from hne)]
      exact (ends_bindMessagesBy_of_asked hgate hstmts (hrequests ▸ hne)
        (hnoted mark)).run

end

/-- **The gate of a pass**: without a path the pass fails before it looks at a statement, and a pass
that does not fail has put messages in if and only if it bound a name. -/
theorem gated_of_bindMessages [CharacterNames] (hparse : parse text filename base = .ok m)
    (targets : List Target) (catalogues : CatalogueSource) (path : Option String) :
    (path = none ∨ path = some "" →
      m.bindMessages targets catalogues path = throw (.config .missingFilename)) ∧
    ∀ r loads, (m.bindMessages targets catalogues path).run = (.ok r, loads) →
      ∃ source, path = some source ∧ m.Gated targets catalogues source r loads := by
  have hm := numbered_of_parse hparse
  refine ⟨fun hmissing => ?_, fun r loads hrun => ?_⟩
  · refine bindMessagesBy_of_missing ?_
    rcases hmissing with rfl | rfl <;> rfl
  obtain ⟨gate, b, -, hgate, hstmts, -⟩ := gives_bindMessages (congrArg Prod.fst hrun)
  obtain ⟨source, rfl, rfl⟩ := Gate.eq_of_ofPath hgate
  have htallies := tallies_of_bindStmts hm hstmts
  have hbound := bound_of_bindStmts hparse hgate hstmts htallies
  refine ⟨source, rfl, ?_⟩
  by_cases hzero : r.counts.total = 0
  · obtain ⟨hends, hgated⟩ :=
      gated_of_total_eq_zero hgate hstmts htallies.requests hbound hzero catalogues
    obtain ⟨hr, rfl⟩ := hends.unique hrun
    rw [← Except.ok.inj hr] at hgated
    exact hgated
  · have hextends := (Bench.extends_ofModule hm hgate).bindStmts hstmts
    obtain ⟨name, hname⟩ := Option.ne_none_iff_exists'.1 fun hnone =>
      hzero (htallies.requests.symm.trans (hextends.requests.2 hnone))
    obtain ⟨r', loads', hends, hgated⟩ := gated_of_total_ne_zero hgate htallies.source hstmts
      htallies.requests hbound hzero hname catalogues
    obtain ⟨hr, rfl⟩ := hends.unique hrun
    exact hgated r hr.symm

section

attribute [local instance] CharacterNames.nameless

/-- In `import { f, g } from "m"; f()` with both names for targets, the use of `f` is reason enough
to load what there is for the source. -/
theorem gated_of_bindMessages_unused : ∃ m r loads,
    parse "import { f, g } from \"m\"; f()" none 0 = .ok m ∧
      (m.bindMessages [⟨"f", "m"⟩, ⟨"g", "m"⟩]
        ⟨⟨[(["a.en.properties"], .file [])], ⟨.relative, []⟩⟩, "properties", fun _ => .ok [], none⟩
        (some "a.js")).run = (.ok r, loads) ∧
      loads.length = 1 ∧ ∃ source, some "a.js" = some source ∧
        m.Gated [⟨"f", "m"⟩, ⟨"g", "m"⟩]
          ⟨⟨[(["a.en.properties"], .file [])], ⟨.relative, []⟩⟩, "properties",
            fun _ => .ok [], none⟩
          source r loads := by
  have hruns : ((parse "import { f, g } from \"m\"; f()" none 0).toOption.bind fun m =>
      let run := (m.bindMessages [⟨"f", "m"⟩, ⟨"g", "m"⟩]
        ⟨⟨[(["a.en.properties"], .file [])], ⟨.relative, []⟩⟩, "properties", fun _ => .ok [], none⟩
        (some "a.js")).run
      run.1.toOption.filter fun _ => run.2.length = 1).isSome := by
    decide +kernel
  obtain ⟨r, hr⟩ := Option.isSome_iff_exists.1 hruns
  obtain ⟨m, hm, hr⟩ := Option.bind_eq_some_iff.1 hr
  obtain ⟨hr, hloads⟩ := Option.filter_eq_some_iff.1 hr
  have hparse := Except.eq_ok_of_toOption hm
  refine ⟨m, r, _, hparse, Prod.ext (Except.eq_ok_of_toOption hr) rfl, of_decide_eq_true hloads, ?_⟩
  exact (gated_of_bindMessages hparse _ _ _).2 r _ (Prod.ext (Except.eq_ok_of_toOption hr) rfl)

end

end Module

end MessageBinder
