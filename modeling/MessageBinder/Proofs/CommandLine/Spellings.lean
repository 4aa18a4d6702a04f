import MessageBinder.Proofs.CommandLine.Relocation

/-!
# Spellings of a source

A source of a project can be spelled from the project or from the top, and its path in the project
should be the same either way. A relative spelling is normalized, a spelling from the top only loses
the names of the project at its front, so the two agree exactly if there was nothing to normalize:
no name is taken away again by a `..` (`MessageBinder.Path.Settled`).

For a source outside the project the same difference decides whether it keeps its whole path. It
does unless it is spelled through the project, and then a `..` is left behind the names of the
project.

Nothing of this is seen by spellings from the top that are normal: they agree with the relative ones
and keep their path outside, as `MessageBinder.Path.SpelledIn` says together with the rest.
-/

namespace MessageBinder

namespace Path

variable {p d : Path}

/-! ### Texts that are joined -/

/-- Names on both sides of a slash are read one after the other. -/
theorem namesOf_append_slash (cs ds : List Char) :
    namesOf (cs ++ '/' :: ds) = namesOf cs ++ namesOf ds := by
  rw [namesOf, List.splitOn_append_cons_self, List.map_append, List.filter_append]
  rfl

/-- What comes behind a slash does not change the root of a path that has names. -/
theorem rootOf_append_slash {cs : List Char} (h : namesOf cs ≠ []) (ds : List Char) :
    rootOf (cs ++ '/' :: ds) = rootOf cs := by
  -- Slashes alone are no names, and with them a slash more could make another root.
  have hnil : namesOf [] = [] := by decide
  rcases cs with _ | ⟨c, cs⟩
  · exact absurd hnil h
  · by_cases hc : c = '/'
    · subst hc
      rcases cs with _ | ⟨c', cs⟩
      · exact absurd hnil h
      · by_cases hc' : c' = '/'
        · subst hc'
          rcases cs with _ | ⟨c'', cs⟩
          · exact absurd hnil h
          · by_cases hc'' : c'' = '/' <;> simp [rootOf, hc'']
        · simp [rootOf, hc']
    · simp [rootOf, hc]

/-- **A text behind a slash** is joined to the path before it. -/
theorem ofString_slash {root name : String} (hnames : (ofString root).names ≠ [])
    (hname : (ofString name).root = .relative) :
    ofString (root ++ "/" ++ name) = (ofString root).join (ofString name) := by
  have hlist : (root ++ "/" ++ name).toList = root.toList ++ '/' :: name.toList := by simp
  rw [join_of_relative hname, ofString_eq, hlist, namesOf_append_slash,
    rootOf_append_slash hnames]
  rfl

/-! ### Slashes at the front -/

theorem withoutSlashes_eq_self {s : String} (h : s.toList.head? ≠ some '/') :
    withoutSlashes s = s := by
  rw [withoutSlashes]
  cases hs : s.toList with
  | nil => rw [List.dropWhile_nil, ← hs, String.ofList_toList]
  | cons c cs =>
    have hc : c ≠ '/' := by simpa [hs] using h
    rw [List.dropWhile_cons_of_neg (by simpa using hc), ← hs, String.ofList_toList]

/-- What is written for a path with a relative root starts with no slash. -/
theorem head?_text_relative (hp : p.root = .relative) (hplain : p.Plain) :
    p.text.toList.head? ≠ some '/' := by
  rw [text]
  split
  · decide
  · simpa [hp, Root.text] using head?_intercalate hplain

/-- What is written for a path from the top starts with one. -/
theorem head?_text_absolute (hp : p.isAbsolute) : p.text.toList.head? = some '/' := by
  obtain ⟨root, names⟩ := p
  cases root with
  | relative => cases hp
  | slash => simp [text, Root.text]
  | twoSlashes => simp [text, Root.text]

/-! ### Normal forms -/

/-- Normalizing brings in no names. -/
theorem names_normalize_subset (p : Path) : p.normalize.names ⊆ p.names := by
  have hstack : ∀ names stack : List String,
      names.foldl (normalStep p.isAbsolute) stack ⊆ names ++ stack := by
    intro names
    induction names with
    | nil => exact fun stack => List.Subset.refl stack
    | cons n names ih =>
      intro stack
      rw [List.foldl_cons]
      refine List.Subset.trans (ih _) ?_
      have hstep : normalStep p.isAbsolute stack n ⊆ n :: stack := by
        unfold normalStep
        split
        · split
          · split <;> simp
          · split <;> simp
        · exact List.Subset.refl _
      intro m hm
      rcases List.mem_append.1 hm with hm | hm
      · simp [hm]
      · have hm := hstep hm
        simp only [List.mem_cons, List.cons_append, List.mem_append] at hm ⊢
        tauto
  intro n hn
  rw [normalize, List.mem_reverse] at hn
  simpa using hstack p.names [] hn

theorem Plain.normalize (h : p.Plain) : p.normalize.Plain :=
  fun n hn => h n (p.names_normalize_subset hn)

/-- Names that lead up from nowhere are all put on the stack. -/
theorem foldl_normalStep_of_isUp {names stack : List String} (h : ∀ n ∈ names, isUp n = true)
    (hstack : ∀ n ∈ stack, isUp n = true) :
    names.foldl (normalStep false) stack = names.reverse ++ stack := by
  induction names generalizing stack with
  | nil => rfl
  | cons n names ih =>
    obtain ⟨hn, hnames⟩ := List.forall_mem_cons.1 h
    have hstep : normalStep false stack n = n :: stack := by
      cases stack with
      | nil => simp [normalStep, hn]
      | cons top rest => simp [normalStep, hn, hstack top List.mem_cons_self]
    rw [List.foldl_cons, hstep, ih hnames (List.forall_mem_cons.2 ⟨hn, hstack⟩)]
    simp

/-- **Relative names are in normal form** if `..` stands at their front only. -/
theorem normalize_eq_self_iff {names : List String} :
    normalize ⟨.relative, names⟩ = ⟨.relative, names⟩ ↔
      ∀ n ∈ names.dropWhile isUp, isUp n = false := by
  constructor
  · intro h
    obtain ⟨k, r, hr, hstack, -⟩ := exists_normal_form names
    have hnames : names = List.replicate k ".." ++ r := by
      have hself : (names.foldl (normalStep false) []).reverse = names := congrArg Path.names h
      rw [← hself, hstack]
      simp
    have hups : ∀ n ∈ List.replicate k "..", isUp n = true := fun n hn => by
      rw [List.eq_of_mem_replicate hn]
      rfl
    rw [hnames, List.dropWhile_append_of_pos hups, (takeWhile_isUp_of_forall hr).2]
    exact hr
  · intro h
    have hups : ∀ n ∈ names.takeWhile isUp, isUp n = true := fun n hn => List.mem_takeWhile_imp hn
    have hfold : names.foldl (normalStep false) [] = names.reverse := by
      conv_lhs => rw [← List.takeWhile_append_dropWhile (p := isUp) (l := names)]
      rw [List.foldl_append, foldl_normalStep_of_isUp hups (List.forall_mem_nil _),
        foldl_normalStep_of_forall h, List.append_nil, ← List.reverse_append,
        List.takeWhile_append_dropWhile]
    change Path.mk .relative (names.foldl (normalStep false) []).reverse = _
    rw [hfold, List.reverse_reverse]

/-- **A relative path is settled** if normalizing leaves it as it is: `..` stands at its front
only. -/
def Settled (p : Path) : Prop := ∀ n ∈ p.names.dropWhile isUp, isUp n = false

instance (p : Path) : Decidable p.Settled := inferInstanceAs (Decidable (∀ _ ∈ _, _))

/-- **Normalizing leaves what is written** for a relative path if it is settled. -/
theorem text_normalize_eq_iff (hp : p.root = .relative) (hplain : p.Plain) :
    p.normalize.text = p.text ↔ p.Settled := by
  obtain ⟨root, names⟩ := p
  obtain rfl : root = .relative := hp
  rw [Settled, ← normalize_eq_self_iff]
  refine ⟨fun heq => ?_, congrArg text⟩
  rw [← ofString_text hplain.normalize, heq, ofString_text hplain]

/-! ### Sources of a project -/

/-- Whether a path lies in a directory, by its names as they are. -/
def LiesIn (p directory : Path) : Prop := p.root = directory.root ∧ directory.names <+: p.names

instance (p directory : Path) : Decidable (p.LiesIn directory) :=
  inferInstanceAs (Decidable (_ ∧ _))

/-- A path that lies in a directory is the directory continued. -/
theorem LiesIn.exists_join (h : p.LiesIn d) : ∃ q : Path, q.root = .relative ∧ p = d.join q := by
  obtain ⟨hroot, names, hnames⟩ := h
  refine ⟨⟨.relative, names⟩, rfl, ?_⟩
  obtain ⟨root, pnames⟩ := p
  rw [join_of_relative rfl, ← hroot, hnames]

theorem Plain.of_join (h : (d.join p).Plain) (hp : p.root = .relative) : p.Plain := fun n hn =>
  h n (by rw [join_of_relative hp]; exact List.mem_append_right _ hn)

theorem relativeTo?_eq_none_iff : p.relativeTo? d = none ↔ ¬ p.LiesIn d := by
  simp [relativeTo?, LiesIn]

/-- A path from the top that does not lie in a project keeps what is written for it. -/
theorem inProject_of_not_liesIn (hp : p.isAbsolute) (hd : d.isAbsolute) (h : ¬ p.LiesIn d)
    (cwd : Path) : inProject cwd p d = p.text := by
  simp only [inProject, hp, hd, if_true, relativeTo?_eq_none_iff.2 h]

/-- **The two spellings of a source agree** if the relative one is settled. -/
theorem inProject_join_eq_iff (hd : d.isAbsolute) (hp : p.root = .relative) (hplain : p.Plain)
    (cwd : Path) : inProject cwd (d.join p) d = inProject cwd p d ↔ p.Settled := by
  have hrelative : p.isAbsolute = false := by simp [isAbsolute, hp]
  have hnormal : inProject cwd p d = p.normalize.text := by
    simp only [inProject, hrelative, Bool.false_eq_true, if_false]
    exact withoutSlashes_eq_self (head?_text_relative (p := p.normalize) hp hplain.normalize)
  rw [inProject_join hd hp, withoutSlashes_eq_self (head?_text_relative hp hplain), hnormal,
    eq_comm, text_normalize_eq_iff hp hplain]

/-- Names that climb nowhere lead from a directory to what their normal form leads to. -/
theorem normalize_join (hd : d.isAbsolute) (hnormal : d.normalize = d) (hp : p.root = .relative)
    (hclimb : climb p.names = 0) : (d.join p).normalize = d.join p.normalize := by
  obtain ⟨root, names⟩ := p
  obtain rfl : root = .relative := hp
  have hland : (normalize ⟨.relative, names⟩).names = landing names := by
    rw [landing]
    rw [climb, List.length_eq_zero_iff] at hclimb
    conv_lhs => rw [← List.takeWhile_append_dropWhile (p := isUp)
      (l := (normalize ⟨.relative, names⟩).names), hclimb, List.nil_append]
  have hnames : (normalize ⟨d.root, d.names ++ names⟩).names = d.names ++ landing names := by
    rw [names_normalize_append hd, foldl_further, hclimb, hnormal]
    simp
  rw [join_of_relative rfl, join_of_relative rfl, hland, ← hnames]
  rfl

/-- A path without `..` behind a normal directory stays in it when it is normalized. -/
theorem liesIn_normalize_of_forall (hd : d.isAbsolute) (hnormal : d.normalize = d)
    (hp : p.root = .relative) (hups : ∀ n ∈ p.names, isUp n = false) :
    (d.join p).normalize.LiesIn d := by
  obtain ⟨root, names⟩ := p
  obtain rfl : root = .relative := hp
  rw [normalize_join hd hnormal rfl (landing_of_forall hups).1, normalize_of_forall hups,
    join_of_relative rfl]
  exact ⟨rfl, List.prefix_append _ _⟩

/-- **How sources are spelled in a project**: when two spellings of one source have the same path in
the project, when a source outside keeps its whole path, and that both holds of spellings from the
top that are normal. -/
structure SpelledIn (cwd project : Path) : Prop where
  /-- Both spellings of a source have the same path exactly if the relative one is settled. -/
  alike : ∀ p : Path, p.root = .relative → p.Plain →
    (inProject cwd (project.join p) project = inProject cwd p project ↔ p.Settled)
  /-- They have the same path if the one from the top is normalized, for a source in the project. -/
  normal : ∀ p : Path, p.root = .relative → climb p.names = 0 →
    inProject cwd (project.join p).normalize project = inProject cwd p project
  /-- A source outside keeps what is written for it exactly if its names do not lead through the
  project. -/
  outside : ∀ f : Path, f.isAbsolute → f.Plain → ¬ f.normalize.LiesIn project →
    (inProject cwd f project = f.text ↔ ¬ f.LiesIn project)
  /-- If they do, what is left of it is a relative path with a `..`. -/
  through : ∀ f : Path, f.isAbsolute → f.Plain → ¬ f.normalize.LiesIn project → f.LiesIn project →
    ∃ p : Path, p.root = .relative ∧ f = project.join p ∧ inProject cwd f project = p.text ∧
      ".." ∈ p.names
  /-- It keeps what is written for its normal form. -/
  kept : ∀ f : Path, f.isAbsolute → ¬ f.normalize.LiesIn project →
    inProject cwd f.normalize project = f.normalize.text

/-- **Spellings in a project** whose path is normal: they agree where nothing has to be normalized,
and a slash between the project and a relative path joins the two. -/
theorem spelledIn_of_normal (cwd : Path) {project : String}
    (habsolute : (ofString project).isAbsolute)
    (hnormal : (ofString project).normalize = ofString project) :
    SpelledIn cwd (ofString project) ∧ ((ofString project).names ≠ [] → ∀ name,
      (ofString name).root = .relative →
        ofString (project ++ "/" ++ name) = (ofString project).join (ofString name)) := by
  have hthrough : ∀ f : Path, f.Plain → ¬ f.normalize.LiesIn (ofString project) →
      f.LiesIn (ofString project) → ∃ p : Path, p.root = .relative ∧
        f = (ofString project).join p ∧ inProject cwd f (ofString project) = p.text ∧
        ".." ∈ p.names := by
    intro f hplain hout hin
    obtain ⟨p, hp, rfl⟩ := hin.exists_join
    have hhead := head?_text_relative hp (hplain.of_join hp)
    refine ⟨p, hp, rfl, ?_, ?_⟩
    · rw [inProject_join habsolute hp, withoutSlashes_eq_self hhead]
    · -- without a `..` the source would lie in the project
      by_contra hnone
      refine hout (liesIn_normalize_of_forall habsolute hnormal hp fun n hn => ?_)
      rw [Bool.eq_false_iff]
      exact fun hup => hnone (isUp_iff.1 hup ▸ hn)
  refine ⟨⟨fun p hp hplain => inProject_join_eq_iff habsolute hp hplain cwd, ?_, ?_,
    fun f _ => hthrough f, fun f hf hout => ?_⟩, fun hnames name => ofString_slash hnames⟩
  · intro p hp hclimb
    have hrelative : p.isAbsolute = false := by simp [isAbsolute, hp]
    rw [normalize_join habsolute hnormal hp hclimb, inProject_join habsolute (p := p.normalize) hp]
    simp only [inProject, hrelative, Bool.false_eq_true, if_false]
  · intro f hf hplain hout
    refine ⟨fun hkept hin => ?_, fun hout' => inProject_of_not_liesIn hf habsolute hout' cwd⟩
    obtain ⟨p, hp, rfl, heq, -⟩ := hthrough f hplain hout hin
    refine head?_text_relative hp (hplain.of_join hp) ?_
    rw [← heq, hkept]
    exact head?_text_absolute hf
  · exact inProject_of_not_liesIn (p := f.normalize) hf habsolute hout cwd

/-- The sources of `/any/root` are spelled in this way. -/
theorem spelledIn_of_normal_root :
    (ofString "/any/root").isAbsolute ∧ (ofString "/any/root").normalize = ofString "/any/root" ∧
      SpelledIn (ofString "/") (ofString "/any/root") ∧
      ofString "/any/root/src/./pages/../Greeting.ts"
        = (ofString "/any/root").join (ofString "src/./pages/../Greeting.ts") := by
  have habsolute : (ofString "/any/root").isAbsolute := by decide +kernel
  have hnormal : (ofString "/any/root").normalize = ofString "/any/root" := by decide +kernel
  obtain ⟨hspelled, hslash⟩ := spelledIn_of_normal (ofString "/") habsolute hnormal
  have hjoined := hslash (by decide +kernel) "src/./pages/../Greeting.ts" (by decide +kernel)
  exact ⟨habsolute, hnormal, hspelled, hjoined⟩

/-- **Two spellings need not agree, nor a source outside keep its path**: in the project `/r` the
source `a/../b` is `b`, but spelled from the top it stays `a/../b`; and `/r/../x`, which is outside,
is said to be `../x`. -/
theorem inProject_detour :
    (ofString "/r").normalize = ofString "/r" ∧
      inProject (ofString "/") (ofString "a/../b") (ofString "/r") = "b" ∧
      inProject (ofString "/") (ofString "/r/a/../b") (ofString "/r") = "a/../b" ∧
      ¬ (ofString "/r/../x").normalize.LiesIn (ofString "/r") ∧
      inProject (ofString "/") (ofString "/r/../x") (ofString "/r") = "../x" := by
  decide +kernel

end Path

end MessageBinder
