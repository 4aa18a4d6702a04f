import MessageBinder.Proofs.CommandLine.Outputs

/-!
# Outputs that clash

Sources in a project lose the names of the project, and sources outside keep all of theirs, but not
the slashes at the front. Under one output directory the two can be the same: a source in the
project clashes with one outside whose names are those of the first behind the project, and two
sources outside clash if they differ in nothing but those slashes (`MessageBinder.Path.Clash`).
There is no other way to lose an output (`MessageBinder.Path.namesUnder_eq_iff`). Where no two
sources clash, each has an output of its own in the end, and it is what the source was compiled to
(`MessageBinder.CommandLine.exists_ownOutputs_of_reaches`).
-/

namespace MessageBinder

namespace Path

/-- **Two files clash**: they are different, and have the same names under an output directory. -/
inductive Clash (project f g : Path) : Prop
  /-- One lies in the project, and behind it are the names of the other, which lies outside. -/
  | across (hf : f.relativeTo? project = some ⟨.relative, g.names⟩)
      (hg : g.relativeTo? project = none)
  /-- Both lie outside, and only the slashes at the front differ. -/
  | outside (hf : f.relativeTo? project = none) (hg : g.relativeTo? project = none)
      (hnames : f.names = g.names) (hroot : f.root ≠ g.root)

theorem not_clash_self (project f : Path) : ¬ Clash project f f := by
  rintro (⟨hf, hg⟩ | ⟨-, -, -, hroot⟩)
  · rw [hf] at hg
    cases hg
  · exact hroot rfl

/-- **Files have the same names under an output directory** only if they are the same or clash. -/
theorem namesUnder_eq_iff {project f g : Path} :
    namesUnder project f = namesUnder project g ↔
      f = g ∨ Clash project f g ∨ Clash project g f := by
  constructor
  · intro heq
    rw [namesUnder, namesUnder] at heq
    cases hf : f.relativeTo? project with
    | some p =>
      obtain ⟨hfroot, hfnames, hproot⟩ := relativeTo?_eq_some.1 hf
      cases hg : g.relativeTo? project with
      | some q =>
        obtain ⟨hgroot, hgnames, -⟩ := relativeTo?_eq_some.1 hg
        rw [hf, hg] at heq
        dsimp only at heq
        refine Or.inl ?_
        obtain ⟨froot, fnames⟩ := f
        obtain ⟨groot, gnames⟩ := g
        simp_all
      | none =>
        rw [hf, hg] at heq
        dsimp only at heq
        -- a file inside the project clashes with one outside that has its relative names
        refine Or.inr (Or.inl (.across ?_ hg))
        rw [hf, ← heq, ← hproot]
    | none =>
      cases hg : g.relativeTo? project with
      | some q =>
        obtain ⟨-, -, hqroot⟩ := relativeTo?_eq_some.1 hg
        rw [hf, hg] at heq
        dsimp only at heq
        refine Or.inr (Or.inr (.across ?_ hf))
        rw [hg, heq, ← hqroot]
      | none =>
        rw [hf, hg] at heq
        dsimp only at heq
        by_cases hroot : f.root = g.root
        · -- both lie outside the project, so only their roots may differ
          obtain ⟨froot, fnames⟩ := f
          obtain ⟨groot, gnames⟩ := g
          exact Or.inl (by simp_all)
        · exact Or.inr (Or.inl (.outside hf hg heq hroot))
  · have hclash : ∀ {f g : Path}, Clash project f g →
        namesUnder project f = namesUnder project g := by
      rintro f g (⟨hf, hg⟩ | ⟨hf, hg, hnames, -⟩)
      · rw [namesUnder, namesUnder, hf, hg]
      · rw [namesUnder, namesUnder, hf, hg]
        exact hnames
    rintro (rfl | h | h)
    · rfl
    · exact hclash h
    · exact (hclash h).symm

/-- The names under an output directory are names of the file. -/
theorem mem_of_mem_namesUnder {project f : Path} {n : String} (h : n ∈ namesUnder project f) :
    n ∈ f.names := by
  rw [namesUnder] at h
  split at h
  · rename_i p hf
    rw [(relativeTo?_eq_some.1 hf).2.1]
    exact List.mem_append_right _ h
  · exact h

theorem join_relative_inj {d : Path} {names names' : List String} :
    d.join ⟨.relative, names⟩ = d.join ⟨.relative, names'⟩ ↔ names = names' := by
  simp [join, isAbsolute]

/-- Names without `..` lead from a directory to themselves. -/
theorem names_normalize_join {cwd directory : Path} (hcwd : cwd.isAbsolute) {names : List String}
    (h : ∀ n ∈ names, isUp n = false) :
    (cwd.join (directory.join ⟨.relative, names⟩)).normalize.names
      = (cwd.join directory).normalize.names ++ names := by
  rw [join_join_names, names_normalize_append (isAbsolute_join hcwd directory),
    foldl_further_of_forall h]

end Path

namespace CommandLine

variable {config : Config} {a : Arguments} {directory project : Path} {t t' : FileTree}
  {argv : List String} {front : List Path} {p : Progress} {ws : List (Path × Compiled)}

/-- **Sources have outputs of their own** unless two of them clash. -/
structure OwnOutputs (t' : FileTree) (project directory : Path) (ws : List (Path × Compiled)) :
    Prop where
  /-- When the outputs are written under different paths. -/
  paths : (ws.map fun w => outputPath directory w.2.source).Nodup ↔
    ∀ v ∈ ws, ∀ w ∈ ws, ¬ Path.Clash project v.1 w.1
  /-- What is there in the end then. -/
  read : (∀ v ∈ ws, ∀ w ∈ ws, ¬ Path.Clash project v.1 w.1) → ∀ w ∈ ws,
    ∃ text : String, w.2.module.text = text ∧
      t'.read (outputPath directory w.2.source) = .ok (FileTree.bytesOf text)

/-- Outputs are written under different paths unless their sources clash. -/
theorem nodup_outputs_iff (hpath : ∀ w ∈ ws,
      outputPath directory w.2.source = directory.join ⟨.relative, Path.namesUnder project w.1⟩)
    (hnodup : (ws.map (·.1)).Nodup) :
    (ws.map fun w => outputPath directory w.2.source).Nodup ↔
      ∀ v ∈ ws, ∀ w ∈ ws, ¬ Path.Clash project v.1 w.1 := by
  have hinj : ∀ v ∈ ws, ∀ w ∈ ws, v.1 = w.1 → v = w := fun v hv w hw =>
    List.inj_on_of_nodup_map hnodup hv hw
  have hsame : ∀ v ∈ ws, ∀ w ∈ ws,
      outputPath directory v.2.source = outputPath directory w.2.source ↔
        v.1 = w.1 ∨ Path.Clash project v.1 w.1 ∨ Path.Clash project w.1 v.1 := by
    intro v hv w hw
    rw [hpath v hv, hpath w hw, Path.join_relative_inj, Path.namesUnder_eq_iff]
  rw [List.nodup_map_iff_inj_on (hnodup.of_map _)]
  constructor
  · intro h v hv w hw hclash
    obtain rfl := h v hv w hw ((hsame v hv w hw).2 (Or.inr (Or.inl hclash)))
    exact Path.not_clash_self _ _ hclash
  · intro h v hv w hw heq
    rcases (hsame v hv w hw).1 heq with heq | hclash | hclash
    · exact hinj v hv w hw heq
    · exact absurd hclash (h v hv w hw)
    · exact absurd hclash (h w hw v hv)

/-- **The sources of a run have outputs of their own unless two of them clash**, as far as the run
comes. In normal form the sources are different, and none has a `..`. -/
theorem exists_ownOutputs_of_reaches [CharacterNames]
    (h : Reaches t argv a project directory config front p)
    (hdistinct : ((a.sources.map t.cwd.join).map Path.normalize).Nodup)
    (hups : ∀ file ∈ a.sources.map t.cwd.join, ∀ n ∈ file.names, Path.isUp n = false) :
    ∃ ws, Goes config directory t front ws p.tree ∧ OwnOutputs p.tree project directory ws := by
  obtain ⟨ws, hgoes⟩ := h.exists_goes
  have hpath := fun w (hw : w ∈ ws) => h.outputPath_eq hgoes hw
  have hsub : (ws.map (·.1)).Sublist (a.sources.map t.cwd.join) :=
    hgoes.sublist.trans h.sources.sublist
  have hpaths := nodup_outputs_iff hpath ((hdistinct.of_map _).sublist hsub)
  refine ⟨ws, hgoes, hpaths, fun hclash w hw => ?_⟩
  have hnodup := hpaths.2 hclash
  have hplace : ∀ w ∈ ws, ∀ place, p.tree.locate (outputPath directory w.2.source) = .ok place →
      place = (outputRoot t directory).names ++ Path.namesUnder project w.1 := by
    intro w hw place hplace
    have hnames : ∀ n ∈ Path.namesUnder project w.1, Path.isUp n = false := fun n hn =>
      hups w.1 (hsub.subset (List.mem_map_of_mem hw)) n (Path.mem_of_mem_namesUnder hn)
    have hnormal := FileTree.locate_eq_ok (hgoes.cwd_eq.symm ▸ h.absolute) hplace
    rwa [hgoes.cwd_eq, hpath w hw, Path.names_normalize_join h.absolute hnames] at hnormal
  have hapart : ∀ v ∈ ws, p.tree.locate (outputPath directory v.2.source)
      = p.tree.locate (outputPath directory w.2.source) →
        outputPath directory v.2.source = outputPath directory w.2.source := by
    intro v hv heq
    obtain ⟨place, hlocate⟩ := hgoes.exists_locate hw
    have hv' := hplace v hv place (heq.trans hlocate)
    have hw' := hplace w hw place hlocate
    have hnames : Path.namesUnder project v.1 = Path.namesUnder project w.1 :=
      List.append_cancel_left (hv'.symm.trans hw')
    rw [hpath v hv, hpath w hw, hnames]
  obtain ⟨text, htext⟩ := hgoes.exists_text w hw
  obtain ⟨before, after, rfl⟩ := List.append_of_mem hw
  have hstored := hgoes.storeAll
  rw [Goes.outputs, List.map_append, List.map_cons, List.filterMap_append,
    List.filterMap_cons_some (output?_of_text htext directory)] at hstored
  refine ⟨text, htext, FileTree.read_of_storeAll hstored fun f hf heq => ?_⟩
  obtain ⟨v, hv, hpath'⟩ := Goes.mem_outputs hf
  rw [hpath'] at heq
  rw [List.map_append, List.map_cons, List.nodup_append_comm, List.cons_append,
    List.nodup_cons] at hnodup
  have hin : outputPath directory v.2.source
      ∈ after.map fun w => outputPath directory w.2.source := List.mem_map.2 ⟨v, hv, rfl⟩
  have hsame := hapart v (List.mem_append_right _ (List.mem_cons_of_mem _ hv)) heq
  rw [hsame] at hin
  exact hnodup.1 (List.mem_append_left _ hin)

section

attribute [local instance] CharacterNames.nameless

/-- A source in the project and one beside it have outputs of their own. -/
theorem exists_ownOutputs_of_reaches_beside : ∃ p, Reaches besideTree
    ["-o", "out", "--project-root", "lib", "lib/a.js", "b.js"] besideArguments
    ⟨.slash, ["w", "lib"]⟩ ⟨.relative, ["out"]⟩ (.default ⟨.slash, ["w", "lib"]⟩)
    (besideArguments.sources.map besideTree.cwd.join) p ∧
      ((besideArguments.sources.map besideTree.cwd.join).map Path.normalize).Nodup ∧
      (∀ file ∈ besideArguments.sources.map besideTree.cwd.join, ∀ n ∈ file.names,
        Path.isUp n = false) ∧
      ∃ ws, Goes (.default ⟨.slash, ["w", "lib"]⟩) ⟨.relative, ["out"]⟩ besideTree
        (besideArguments.sources.map besideTree.cwd.join) ws p.tree ∧
        OwnOutputs p.tree ⟨.slash, ["w", "lib"]⟩ ⟨.relative, ["out"]⟩ ws := by
  obtain ⟨p, hp⟩ := exists_reaches_beside
  have hdistinct :
      ((besideArguments.sources.map besideTree.cwd.join).map Path.normalize).Nodup := by
    decide +kernel
  have hups : ∀ file ∈ besideArguments.sources.map besideTree.cwd.join, ∀ n ∈ file.names,
      Path.isUp n = false := by
    decide +kernel
  exact ⟨p, hp, hdistinct, hups, exists_ownOutputs_of_reaches hp hdistinct hups⟩

end

/-- A source in a project, and one outside that has its names behind the project. -/
def clashTree : FileTree :=
  ⟨[(["p"], .directory), (["p", "q"], .directory), (["p", "q", "a.js"], .file [0x66]),
    (["q"], .directory), (["q", "a.js"], .file [0x67])], ⟨.slash, []⟩⟩

section

attribute [local instance] CharacterNames.nameless

/-- **An output can be lost**: `p/q/a.js` in the project `p` and `q/a.js` outside are both written
to `out/q/a.js`, and the second is what remains. -/
theorem run_loses_output : ∃ o c c',
    run clashTree ["-o", "out", "--project-root", "p", "p/q/a.js", "q/a.js"] = .ok o ∧
      compiled? clashTree (.default ⟨.slash, ["p"]⟩) ⟨.slash, ["p", "q", "a.js"]⟩ = some c ∧
      compiled? clashTree (.default ⟨.slash, ["p"]⟩) ⟨.slash, ["q", "a.js"]⟩ = some c' ∧
      outputPath ⟨.relative, ["out"]⟩ c.source = outputPath ⟨.relative, ["out"]⟩ c'.source ∧
      c.module.text = "f;\n" ∧
      o.tree.at? ["out", "q", "a.js"] = some (.file (FileTree.bytesOf "g;\n")) := by
  have hrun : (run clashTree
      ["-o", "out", "--project-root", "p", "p/q/a.js", "q/a.js"]).toOption.map
        (·.tree.at? ["out", "q", "a.js"]) = some (some (.file (FileTree.bytesOf "g;\n"))) := by
    decide +kernel
  have hfirst : (compiled? clashTree (.default ⟨.slash, ["p"]⟩) ⟨.slash, ["p", "q", "a.js"]⟩).map
      (fun c => (c.source, c.module.text)) = some ("q/a.js", .ofString "f;\n") := by
    decide +kernel
  have hsecond : (compiled? clashTree (.default ⟨.slash, ["p"]⟩) ⟨.slash, ["q", "a.js"]⟩).map
      (·.source) = some "/q/a.js" := by
    decide +kernel
  obtain ⟨o, ho, hat⟩ := Option.map_eq_some_iff.1 hrun
  obtain ⟨c, hc, hcompiled⟩ := Option.map_eq_some_iff.1 hfirst
  obtain ⟨c', hc', hsource'⟩ := Option.map_eq_some_iff.1 hsecond
  obtain ⟨hsource, htext⟩ := Prod.mk.inj hcompiled
  refine ⟨o, c, c', Except.eq_ok_of_toOption ho, hc, hc', ?_, htext, hat⟩
  rw [hsource, hsource']
  decide +kernel

end

end CommandLine

end MessageBinder
