import Mathlib.Data.List.Induction
import MessageBinder.Proofs.CommandLine.Storing
import MessageBinder.Proofs.Printing.Renamed

/-!
# Written and normal paths

A path whose names are names of files, none of them empty or `.` or with a slash in it, is read from
what is written for it (`MessageBinder.Path.ofString_text`), and paths from texts are such paths.

Normalizing reads names as moves. From the top they lead from place to place
(`MessageBinder.Path.names_normalize`), and from a directory they climb some names of it away and
come down again by others, both of which are told by the normal form of the names alone
(`MessageBinder.Path.foldl_further`). So whether names lead into a directory again is decided by how
far they climb and by the names through which they come down
(`MessageBinder.Path.strictlyIn_normalize_iff`).
-/

namespace MessageBinder

namespace Path

/-! ### Written paths -/

/-- Whether a text names a file or a directory. -/
def IsName (n : String) : Prop := n ≠ "" ∧ n ≠ "." ∧ '/' ∉ n.toList

/-- A path is plain if its names are names. -/
def Plain (p : Path) : Prop := ∀ n ∈ p.names, IsName n

theorem Plain.join {p q : Path} (hp : p.Plain) (hq : q.Plain) : (p.join q).Plain := by
  rw [Path.join]
  split
  · exact hq
  · exact fun n hn => (List.mem_append.1 hn).elim (hp n) (hq n)

/-- A path that is read is plain. -/
theorem plain_ofString (s : String) : (ofString s).Plain := by
  intro n hn
  obtain ⟨hn, hname⟩ := List.mem_filter.1 hn
  obtain ⟨cs, hcs, rfl⟩ := List.mem_map.1 hn
  simp only [ne_eq, Bool.and_eq_true, decide_eq_true_eq] at hname
  refine ⟨hname.1, hname.2, fun hslash => ?_⟩
  rw [String.toList_ofList] at hslash
  simpa using FreshName.forall_mem_splitOnP _ _ cs hcs '/' hslash

/-- The names that are read from characters. -/
def namesOf (cs : List Char) : List String :=
  ((cs.splitOn '/').map String.ofList).filter fun n => n ≠ "" && n ≠ "."

theorem namesOf_cons_slash (cs : List Char) : namesOf ('/' :: cs) = namesOf cs := by
  simp [namesOf, List.splitOn, List.splitOnP_cons_eq_if_modifyHead]

section

variable {names : List String}

/-- Names are read from what is written for them. -/
theorem namesOf_intercalate (h : ∀ n ∈ names, IsName n) :
    namesOf ("/".intercalate names).toList = names := by
  cases hnames : names with
  | nil => rfl
  | cons n ns =>
    have hsplit : ("/".intercalate names).toList.splitOn '/' = names.map String.toList := by
      rw [String.toList_intercalate]
      refine List.splitOn_intercalate '/' (fun l hl => ?_) (by simp [hnames])
      obtain ⟨m, hm, rfl⟩ := List.mem_map.1 hl
      exact (h m hm).2.2
    rw [namesOf, ← hnames, hsplit, List.map_map]
    have hid : String.ofList ∘ String.toList = id := funext fun m => String.ofList_toList
    rw [hid, List.map_id]
    refine List.filter_eq_self.2 fun m hm => ?_
    simp [(h m hm).1, (h m hm).2.1]

/-- What is written for names starts with no slash. -/
theorem head?_intercalate (h : ∀ n ∈ names, IsName n) :
    ("/".intercalate names).toList.head? ≠ some '/' := by
  cases names with
  | nil => simp
  | cons n ns =>
    obtain ⟨hne, -, hslash⟩ := h n List.mem_cons_self
    have hlist : n.toList ≠ [] := by simpa using hne
    obtain ⟨c, cs, hn⟩ := List.exists_cons_of_ne_nil hlist
    have hhead : ("/".intercalate (n :: ns)).toList.head? = some c := by
      cases ns with
      | nil => simp [hn]
      | cons m ns => simp [String.intercalate_cons_cons, hn]
    rw [hhead]
    rintro heq
    obtain rfl := Option.some.inj heq
    exact hslash (by simp [hn])

/-- The root of a path is read from the slashes at its front. -/
theorem rootOf_text {cs : List Char} (h : cs.head? ≠ some '/') (root : Root) :
    rootOf (root.text.toList ++ cs) = root := by
  cases cs with
  | nil => cases root <;> rfl
  | cons c cs =>
    have hc : c ≠ '/' := by simpa using h
    cases root <;> simp [Root.text, rootOf, hc]

theorem namesOf_text (cs : List Char) (root : Root) :
    namesOf (root.text.toList ++ cs) = namesOf cs := by
  cases root <;> simp [Root.text, namesOf_cons_slash]

theorem ofString_eq (s : String) : ofString s = ⟨rootOf s.toList, namesOf s.toList⟩ := rfl

/-- **A plain path is read from what is written for it.** -/
theorem ofString_text {p : Path} (h : p.Plain) : ofString p.text = p := by
  obtain ⟨root, names⟩ := p
  by_cases hdot : root = .relative ∧ names = []
  · obtain ⟨rfl, rfl⟩ := hdot
    decide
  · have htext : (text ⟨root, names⟩).toList
        = root.text.toList ++ ("/".intercalate names).toList := by
      rw [text, if_neg hdot, String.toList_append]
    rw [ofString_eq, htext, rootOf_text (head?_intercalate h), namesOf_text, namesOf_intercalate h]

/-- Without its slashes a written path is read as its names alone. -/
theorem ofString_withoutSlashes_text {p : Path} (h : p.Plain) :
    ofString (withoutSlashes p.text) = ⟨.relative, p.names⟩ := by
  obtain ⟨root, names⟩ := p
  have hhead := head?_intercalate h
  have hdrop : ("/".intercalate names).toList.dropWhile (· = '/')
      = ("/".intercalate names).toList := by
    cases hcs : ("/".intercalate names).toList with
    | nil => rfl
    | cons c cs =>
      have hc : c ≠ '/' := by simpa [hcs] using hhead
      simp [hc]
  by_cases hdot : root = .relative ∧ names = []
  · obtain ⟨rfl, rfl⟩ := hdot
    decide
  · have htext : (withoutSlashes (text ⟨root, names⟩)).toList
        = ("/".intercalate names).toList := by
      rw [withoutSlashes, text, if_neg hdot, String.toList_ofList]
      cases root <;> simpa [Root.text] using hdrop
    have hroot := rootOf_text hhead .relative
    rw [ofString_eq, htext, namesOf_intercalate h]
    exact congrArg (Path.mk · names) hroot

end

/-! ### Moves from the top -/

theorem isUp_iff {n : String} : isUp n = true ↔ n = ".." := by simp [isUp]

/-- A name that is not `..` is taken as it is. -/
theorem normalStep_of_not_isUp {n : String} (h : isUp n = false) (absolute : Bool)
    (stack : List String) : normalStep absolute stack n = n :: stack := by
  unfold normalStep
  rw [h]
  rfl

/-- `..` takes away the name before it. -/
theorem normalStep_up_cons {top : String} (h : isUp top = false) (absolute : Bool)
    (rest : List String) : normalStep absolute (top :: rest) ".." = rest := by
  simp [normalStep, h, isUp_iff]

/-- Without `..` names lead on from a place. -/
theorem foldl_further_of_forall {names : List String} (h : ∀ n ∈ names, isUp n = false)
    (place : List String) : names.foldl FileTree.further place = place ++ names := by
  induction names generalizing place with
  | nil => simp
  | cons n names ih =>
    obtain ⟨hn, hnames⟩ := List.forall_mem_cons.1 h
    rw [List.foldl_cons, ih hnames, FileTree.further, hn]
    simp

/-- From the top, normalizing goes from place to place. The stack holds no `..`. -/
theorem foldl_normalStep_absolute {stack : List String} (h : ∀ n ∈ stack, isUp n = false)
    (names : List String) : (names.foldl (normalStep true) stack).reverse
      = names.foldl FileTree.further stack.reverse := by
  induction names generalizing stack with
  | nil => rfl
  | cons n names ih =>
    rw [List.foldl_cons, List.foldl_cons, FileTree.further]
    split
    · rename_i hn
      obtain rfl := isUp_iff.1 hn
      cases stack with
      | nil => exact ih h
      | cons top rest =>
        obtain ⟨htop, hrest⟩ := List.forall_mem_cons.1 h
        rw [normalStep_up_cons htop, List.reverse_cons, List.dropLast_concat]
        exact ih hrest
    · rename_i hn
      have hn : isUp n = false := by simpa using hn
      rw [normalStep_of_not_isUp hn, ← List.reverse_cons]
      exact ih (List.forall_mem_cons.2 ⟨hn, h⟩)

/-- **The normal form of a path from the top** is the place that its names lead to. -/
theorem names_normalize {p : Path} (h : p.isAbsolute) :
    p.normalize.names = p.names.foldl FileTree.further [] := by
  rw [normalize, h]
  exact foldl_normalStep_absolute (List.forall_mem_nil _) p.names

/-- What comes behind a path goes on from its normal form. -/
theorem names_normalize_append {d : Path} (hd : d.isAbsolute) (names : List String) :
    (normalize ⟨d.root, d.names ++ names⟩).names
      = names.foldl FileTree.further d.normalize.names := by
  have habsolute : isAbsolute ⟨d.root, d.names ++ names⟩ = true := hd
  rw [names_normalize habsolute, List.foldl_append, names_normalize hd]

/-! ### Moves from a directory -/

/-- How many names of a directory relative names take away. -/
def climb (names : List String) : Nat :=
  ((normalize ⟨.relative, names⟩).names.takeWhile isUp).length

/-- The names through which relative names come down in the end. -/
def landing (names : List String) : List String :=
  (normalize ⟨.relative, names⟩).names.dropWhile isUp

/-- Names without `..` start with none. -/
theorem takeWhile_isUp_of_forall {names : List String} (h : ∀ n ∈ names, isUp n = false) :
    names.takeWhile isUp = [] ∧ names.dropWhile isUp = names := by
  cases names with
  | nil => exact ⟨rfl, rfl⟩
  | cons n names => simp [h n List.mem_cons_self]

/-- The normal form of relative names is a number of `..` and then names, and the names lead from
any place up by that number and down by these. -/
theorem exists_normal_form (names : List String) : ∃ k r, (∀ n ∈ r, isUp n = false) ∧
    names.foldl (normalStep false) [] = r.reverse ++ List.replicate k ".." ∧
    ∀ place, names.foldl FileTree.further place = place.take (place.length - k) ++ r := by
  induction names using List.reverseRecOn with
  | nil => exact ⟨0, [], nofun, rfl, fun place => by simp⟩
  | append_singleton names n ih =>
    obtain ⟨k, r, hr, hstack, hplace⟩ := ih
    simp only [List.foldl_concat, hstack, hplace, FileTree.further]
    by_cases hn : isUp n = true
    · obtain rfl := isUp_iff.1 hn
      rcases List.eq_nil_or_concat' r with rfl | ⟨r', x, rfl⟩
      -- With nothing to take away `..` climbs further.
      · refine ⟨k + 1, [], nofun, ?_, fun place => ?_⟩
        · cases k with
          | zero => rfl
          | succ k => rfl
        · rw [if_pos hn, List.append_nil, List.append_nil, List.dropLast_eq_take, List.length_take,
            List.take_take]
          congr 1
          omega
      -- Else it takes away the name through which the others came down last.
      · have hx : isUp x = false := hr x (by simp)
        refine ⟨k, r', fun m hm => hr m (by simp [hm]), ?_, fun place => ?_⟩
        · rw [List.reverse_concat, List.cons_append, normalStep_up_cons hx]
        · rw [if_pos hn, ← List.append_assoc, List.dropLast_concat]
    · refine ⟨k, r ++ [n], fun m hm => ?_, ?_, fun place => ?_⟩
      · rcases List.mem_append.1 hm with hm | hm
        · exact hr m hm
        · rw [List.mem_singleton.1 hm]
          simpa using hn
      · rw [normalStep_of_not_isUp (by simpa using hn)]
        simp
      · simp [hn]

/-- **Where relative names lead from a place**: up by their climb, and down to their landing. -/
theorem foldl_further (place names : List String) : names.foldl FileTree.further place
    = place.take (place.length - climb names) ++ landing names := by
  obtain ⟨k, r, hr, hstack, hplace⟩ := exists_normal_form names
  have hnames : (normalize ⟨.relative, names⟩).names = List.replicate k ".." ++ r := by
    change (names.foldl (normalStep false) []).reverse = _
    rw [hstack]
    simp
  have hups : ∀ n ∈ List.replicate k "..", isUp n = true := fun n hn => by
    rw [List.eq_of_mem_replicate hn]
    rfl
  obtain ⟨htake, hdrop⟩ := takeWhile_isUp_of_forall hr
  rw [hplace, climb, landing, hnames, List.takeWhile_append_of_pos hups,
    List.dropWhile_append_of_pos hups, htake, hdrop]
  simp

/-- Names without `..` are all put on the stack. -/
theorem foldl_normalStep_of_forall {names : List String} (h : ∀ n ∈ names, isUp n = false)
    (absolute : Bool) (stack : List String) :
    names.foldl (normalStep absolute) stack = names.reverse ++ stack := by
  induction names generalizing stack with
  | nil => rfl
  | cons n names ih =>
    obtain ⟨hn, hnames⟩ := List.forall_mem_cons.1 h
    rw [List.foldl_cons, ih hnames, normalStep_of_not_isUp hn]
    simp

/-- Names without `..` are their own normal form. -/
theorem normalize_of_forall {names : List String} (h : ∀ n ∈ names, isUp n = false) :
    normalize ⟨.relative, names⟩ = ⟨.relative, names⟩ := by
  change Path.mk .relative (names.foldl (normalStep false) []).reverse = _
  simp [foldl_normalStep_of_forall h]

/-- Names without `..` climb nowhere. -/
theorem landing_of_forall {names : List String} (h : ∀ n ∈ names, isUp n = false) :
    climb names = 0 ∧ landing names = names := by
  obtain ⟨htake, hdrop⟩ := takeWhile_isUp_of_forall h
  rw [climb, landing, normalize_of_forall h, htake, hdrop]
  exact ⟨rfl, rfl⟩

/-! ### Inside a directory -/

/-- Whether names go on from those of a directory. -/
def StrictlyBelow (names directory : List String) : Prop :=
  directory <+: names ∧ names ≠ directory

instance (names directory : List String) : Decidable (StrictlyBelow names directory) :=
  inferInstanceAs (Decidable (_ ∧ _))

/-- Whether a path in normal form lies in a directory, and is not the directory itself. -/
def StrictlyIn (p directory : Path) : Prop :=
  p.root = directory.root ∧ StrictlyBelow p.names directory.names

instance (p directory : Path) : Decidable (p.StrictlyIn directory) :=
  inferInstanceAs (Decidable (_ ∧ _))

/-- Whether relative names lead from a place to something inside it: they come down again through
all names that they climbed, and further. -/
def ReturnsInto (place names : List String) : Prop :=
  StrictlyBelow (landing names) (place.drop (place.length - climb names))

instance (place names : List String) : Decidable (ReturnsInto place names) :=
  inferInstanceAs (Decidable (StrictlyBelow _ _))

/-- Names without `..` lead inside if there are any. -/
theorem returnsInto_of_forall {names : List String} (h : ∀ n ∈ names, isUp n = false)
    (place : List String) : ReturnsInto place names ↔ names ≠ [] := by
  obtain ⟨hclimb, hlanding⟩ := landing_of_forall h
  simp [ReturnsInto, StrictlyBelow, hclimb, hlanding]

/-- A part of a list is in front of the whole if it is in front of what remains of it. -/
theorem prefix_take_append_iff (l l' : List String) (n : Nat) :
    (l <+: l.take n ++ l' ↔ l.drop n <+: l') ∧ (l.take n ++ l' = l ↔ l' = l.drop n) := by
  have hcut := List.take_append_drop n l
  constructor
  · nth_rewrite 1 [← hcut]
    exact List.prefix_append_right_inj _
  · calc l.take n ++ l' = l ↔ l.take n ++ l' = l.take n ++ l.drop n := by rw [hcut]
      _ ↔ l' = l.drop n := List.append_right_inj _

/-- **A directory continued by names** lies in it if they return into it. -/
theorem strictlyIn_normalize_iff {d : Path} (hd : d.isAbsolute) (names : List String) :
    (normalize ⟨d.root, d.names ++ names⟩).StrictlyIn d.normalize
      ↔ ReturnsInto d.normalize.names names := by
  have hplace : (normalize ⟨d.root, d.names ++ names⟩).names
      = d.normalize.names.take (d.normalize.names.length - climb names) ++ landing names := by
    rw [names_normalize_append hd, foldl_further]
  obtain ⟨hfront, heq⟩ := prefix_take_append_iff d.normalize.names (landing names)
    (d.normalize.names.length - climb names)
  rw [StrictlyIn, StrictlyBelow, hplace, hfront, ne_eq, heq, ReturnsInto, StrictlyBelow]
  exact and_iff_right rfl

end Path

end MessageBinder
