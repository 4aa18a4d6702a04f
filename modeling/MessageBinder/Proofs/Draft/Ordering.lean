import MessageBinder.Proofs.Draft.Anchors
import MessageBinder.Proofs.Draft.Initialization
import MessageBinder.Proofs.Draft.Reexports

/-!
# The order of what is put in

A statement meets the targets in turn, and each of them goes through the names of the statement in
their order. So what is put in behind the statement is *gathered* from the targets
(`MessageBinder.gather`): it is ordered by targets first and by names second.

No name is served by two targets, and therefore the order of the targets decides neither which names
of a statement are served, nor how many, nor how the pass ends. It does decide in which order they
are served. That is the order in which the names were written exactly if the targets are in step
with the statement, which is to say that no target for a later name comes before one for an earlier
name (`MessageBinder.gather_eq_filter_iff`); and two orders of the targets lead to the same exactly
if those that serve some name of the statement come in the same order in both
(`MessageBinder.gather_eq_gather_iff`). Of the two names in `export { a, b } from "m"` the second
comes first if its target does.
-/

namespace MessageBinder

/-! ### Gathering -/

section Gathering

variable {α β : Type} {takes : β → α → Bool} {t t' : β} {ts ts' : List β} {xs : List α}

/-- No element is taken by two. -/
def Exclusive (takes : β → α → Bool) : Prop :=
  ∀ ⦃t t' : β⦄ ⦃x : α⦄, takes t x → takes t' x → t = t'

/-- Whether one of the takers takes an element. -/
def isTaken (takes : β → α → Bool) (ts : List β) (x : α) : Bool := ts.any (takes · x)

/-- Whether a taker takes an element of a list. -/
def isTaker (takes : β → α → Bool) (xs : List α) (t : β) : Bool := xs.any (takes t)

/-- **What takers take**: from each in turn, the elements that it takes in their order. -/
def gather (takes : β → α → Bool) (ts : List β) (xs : List α) : List α :=
  ts.flatMap fun t => xs.filter (takes t)

/-- **Takers are in step with a list** if no one that takes a later element comes before one that
takes an earlier element. -/
def InStep (takes : β → α → Bool) (ts : List β) (xs : List α) : Prop :=
  ∀ ⦃x y : α⦄ ⦃t t' : β⦄, [x, y].Sublist xs → takes t x → takes t' y → ¬ [t', t].Sublist ts

theorem gather_cons (t : β) (ts : List β) (xs : List α) :
    gather takes (t :: ts) xs = xs.filter (takes t) ++ gather takes ts xs := rfl

/-- What is taken by one or by the other, in any order. -/
theorem List.perm_filter_or {p q : α → Bool} (hpq : ∀ x, p x → ¬ q x) (xs : List α) :
    (xs.filter p ++ xs.filter q).Perm (xs.filter fun x => p x || q x) := by
  have hparts := List.filter_append_perm p (xs.filter fun x => p x || q x)
  rw [List.filter_filter, List.filter_filter] at hparts
  have hfirst : (fun x => p x && (p x || q x)) = p := by
    funext x
    cases p x <;> rfl
  have hsecond : (fun x => (!p x) && (p x || q x)) = q := by
    funext x
    cases hp : p x with
    | false => rfl
    | true => simpa using hpq x hp
  rwa [hfirst, hsecond] at hparts

/-- Where no element of the second kind comes before one of the first kind, those of the first come
first. -/
theorem List.filter_or_eq_append {p q : α → Bool} (hpq : ∀ x, p x → ¬ q x)
    (h : ∀ x y, [x, y].Sublist xs → q x → ¬ p y) :
    (xs.filter fun x => p x || q x) = xs.filter p ++ xs.filter q := by
  induction xs with
  | nil => rfl
  | cons x xs ih =>
    have hrest := ih fun y z hyz => h y z (hyz.cons x)
    by_cases hp : p x
    · rw [List.filter_cons_of_pos (by simp [hp]), List.filter_cons_of_pos hp,
        List.filter_cons_of_neg (hpq x hp), hrest, List.cons_append]
    · by_cases hq : q x
      · have hnone : xs.filter p = [] := List.filter_eq_nil_iff.2 fun y hy =>
          h x y ((List.singleton_sublist.2 hy).cons_cons x) hq
        rw [List.filter_cons_of_pos (by simp [hq]), List.filter_cons_of_neg hp,
          List.filter_cons_of_pos hq, hrest, hnone, List.nil_append, List.nil_append]
      · rw [List.filter_cons_of_neg (by simp [hp, hq]), List.filter_cons_of_neg hp,
          List.filter_cons_of_neg hq, hrest]

/-- Who takes an element takes none of what the others take. -/
theorem Exclusive.not_any (h : Exclusive takes) (ht : t ∉ ts) {x : α} (hx : takes t x) :
    ¬ isTaken takes ts x := by
  rintro hany
  obtain ⟨t', ht', hx'⟩ := List.any_eq_true.1 hany
  exact ht (h hx hx' ▸ ht')

/-- **Everything that is taken is gathered**, once. -/
theorem perm_gather (h : Exclusive takes) (hts : ts.Nodup) (xs : List α) :
    (gather takes ts xs).Perm (xs.filter (isTaken takes ts)) := by
  induction ts with
  | nil => simp [gather, isTaken]
  | cons t ts ih =>
    obtain ⟨hnot, hnodup⟩ := List.nodup_cons.1 hts
    rw [gather_cons]
    exact ((ih hnodup).append_left _).trans (List.perm_filter_or (fun x => h.not_any hnot) xs)

/-- What is gathered is ordered by takers. -/
theorem pairwise_gather (h : Exclusive takes) (hts : ts.Nodup) (xs : List α) :
    (gather takes ts xs).Pairwise fun x y =>
      ∀ t t', takes t x → takes t' y → ¬ [t', t].Sublist ts := by
  refine List.pairwise_flatMap.2 ⟨fun t₁ _ => ?_, ?_⟩
  · refine List.pairwise_of_forall_mem_list fun x hx y hy t t' ht ht' hsub => ?_
    obtain rfl := h ht (List.of_mem_filter hx)
    obtain rfl := h ht' (List.of_mem_filter hy)
    exact List.not_pair_sublist hts hsub hsub
  · refine List.pairwise_iff_forall_sublist.2 fun {t₁ t₂} hsub x hx y hy t t' ht ht' => ?_
    obtain rfl := h ht (List.of_mem_filter hx)
    obtain rfl := h ht' (List.of_mem_filter hy)
    exact List.not_pair_sublist hts hsub

/-- **What is gathered is in the order of the list** exactly if the takers are in step with it. -/
theorem gather_eq_filter_iff (h : Exclusive takes) (hts : ts.Nodup) (xs : List α) :
    gather takes ts xs = (xs.filter (isTaken takes ts)) ↔ InStep takes ts xs := by
  constructor
  · rintro heq x y t t' hsub hx hy hswap
    have hordered := pairwise_gather h hts xs
    rw [heq] at hordered
    -- both are taken, as their takers are there
    have htaken : ∀ z, takes t z ∨ takes t' z → isTaken takes ts z := by
      rintro z (hz | hz)
      · exact List.any_eq_true.2 ⟨t, hswap.subset (by simp), hz⟩
      · exact List.any_eq_true.2 ⟨t', hswap.subset (by simp), hz⟩
    have hpair := hsub.filter (isTaken takes ts)
    rw [List.filter_cons_of_pos (htaken x (Or.inl hx)),
      List.filter_cons_of_pos (htaken y (Or.inr hy)), List.filter_nil] at hpair
    exact List.pairwise_iff_forall_sublist.1 hordered hpair t t' hx hy hswap
  · intro hstep
    induction ts with
    | nil => simp [gather, isTaken]
    | cons t ts ih =>
      obtain ⟨hnot, hnodup⟩ := List.nodup_cons.1 hts
      have hrest := ih hnodup fun x y t t' hsub hx hy hswap =>
        hstep hsub hx hy (hswap.cons _)
      rw [gather_cons, hrest]
      -- nothing that the others take comes before what the first one takes
      refine (List.filter_or_eq_append (fun x => h.not_any hnot) fun x y hsub hx hy => ?_).symm
      obtain ⟨t', ht', hx⟩ := List.any_eq_true.1 hx
      exact hstep hsub hx hy ((List.singleton_sublist.2 ht').cons_cons t)

/-- Who takes nothing is of no account. -/
theorem gather_filter_any (ts : List β) (xs : List α) :
    gather takes (ts.filter (isTaker takes xs)) xs = gather takes ts xs := by
  induction ts with
  | nil => rfl
  | cons t ts ih =>
    by_cases hany : isTaker takes xs t
    · rw [List.filter_cons_of_pos hany, gather_cons, gather_cons, ih]
    · have hnone : xs.filter (takes t) = [] := List.filter_eq_nil_iff.2 fun x hx htakes =>
        hany (List.any_eq_true.2 ⟨x, hx, htakes⟩)
      rw [List.filter_cons_of_neg hany, gather_cons, ih, hnone, List.nil_append]

/-- Who takes something is the first to add to what is gathered. -/
theorem exists_gather_cons (ht : isTaker takes xs t) (ts : List β) :
    ∃ x rest, takes t x ∧ gather takes (t :: ts) xs = x :: rest := by
  obtain ⟨x, hx, htakes⟩ := List.any_eq_true.1 ht
  obtain ⟨y, ys, hys⟩ := List.exists_cons_of_ne_nil
    (List.ne_nil_of_mem (List.mem_filter.2 ⟨hx, htakes⟩))
  refine ⟨y, ys ++ gather takes ts xs, List.of_mem_filter (hys ▸ List.mem_cons_self), ?_⟩
  rw [gather_cons, hys, List.cons_append]

/-- Takers who all take something are known by what is gathered. -/
theorem eq_of_gather_eq (h : Exclusive takes) (hts : ∀ t ∈ ts, isTaker takes xs t)
    (hts' : ∀ t ∈ ts', isTaker takes xs t) (heq : gather takes ts xs = gather takes ts' xs) :
    ts = ts' := by
  induction ts generalizing ts' with
  | nil =>
    cases ts' with
    | nil => rfl
    | cons t' ts' =>
      obtain ⟨y, rest, -, hcons⟩ := exists_gather_cons (hts' t' (by simp)) ts'
      cases heq.trans hcons
  | cons t ts ih =>
    obtain ⟨x, rest, hx, hcons⟩ := exists_gather_cons (hts t (by simp)) ts
    cases ts' with
    | nil => cases hcons.symm.trans heq
    | cons t' ts' =>
      obtain ⟨y, rest', hy, hcons'⟩ := exists_gather_cons (hts' t' (by simp)) ts'
      -- the first element tells who comes first
      obtain ⟨rfl, -⟩ := List.cons.inj (hcons.symm.trans (heq.trans hcons'))
      obtain rfl := h hx hy
      rw [gather_cons, gather_cons, List.append_cancel_left_eq] at heq
      rw [ih (fun t ht => hts t (List.mem_cons_of_mem _ ht))
        (fun t ht => hts' t (List.mem_cons_of_mem _ ht)) heq]

/-- **The same is gathered** exactly if those who take something come in the same order. -/
theorem gather_eq_gather_iff (h : Exclusive takes) (ts ts' : List β) (xs : List α) :
    gather takes ts xs = gather takes ts' xs ↔
      ts.filter (isTaker takes xs) = ts'.filter (isTaker takes xs) := by
  rw [← gather_filter_any ts, ← gather_filter_any ts']
  constructor
  · exact eq_of_gather_eq h (fun t ht => List.of_mem_filter ht) fun t ht => List.of_mem_filter ht
  · exact congrArg (gather takes · xs)

end Gathering

/-! ### Names that are served -/

/-- A name in the list of an import or of a re-export. -/
inductive ListedName where
  /-- A name that is imported. -/
  | imported (s : ImportSpecifier)
  /-- A name that is exported. -/
  | exported (s : ExportSpecifier)

/-- The names that a statement lists, as they were written. -/
def Stmt.listed : Stmt → List ListedName
  | .importDecl specifiers _ _ => specifiers.map .imported
  | .exportNamed specifiers _ _ => specifiers.map .exported
  | _ => []

/-- A statement imports or re-exports from one module. -/
theorem Target.module_eq_of_matchesModule {t t' : Target} {stmt : Stmt}
    (h : t.matchesModule stmt) (h' : t'.matchesModule stmt) : t.module = t'.module := by
  cases stmt with
  | importDecl specifiers source o => exact (of_decide_eq_true h).symm.trans (of_decide_eq_true h')
  | exportNamed specifiers source o =>
    exact Option.some.inj ((of_decide_eq_true h).symm.trans (of_decide_eq_true h'))
  | _ => cases h

/-- A specifier of an import names one function. -/
theorem Target.function_eq_of_matchesImport {t t' : Target} {s : ImportSpecifier}
    (h : t.matchesImport s) (h' : t'.matchesImport s) : t.function = t'.function := by
  cases s with
  | named exported binding o => exact (of_decide_eq_true h).symm.trans (of_decide_eq_true h')
  | _ => cases h

namespace Module

/-- Whether a pass serves a name of a statement for a target: it serves what the target matches, but
no imported name without uses. -/
def serves (m : Module) (stmt : Stmt) (t : Target) : ListedName → Bool
  | .imported s => t.matchesModule stmt && t.matchesImport s && m.scope.isUsed s.binding.name
  | .exported s => t.matchesModule stmt && t.matchesExport s

/-- The names of a statement that are served, in the order in which they are. -/
def served (m : Module) (targets : List Target) (stmt : Stmt) : List ListedName :=
  gather (m.serves stmt) targets stmt.listed

/-- The names of a statement that are served, in the order in which they were written. -/
def written (m : Module) (targets : List Target) (stmt : Stmt) : List ListedName :=
  stmt.listed.filter (isTaken (m.serves stmt) targets)

/-- The targets that serve a name of a statement. -/
def servers (m : Module) (targets : List Target) (stmt : Stmt) : List Target :=
  targets.filter (isTaker (m.serves stmt) stmt.listed)

/-- **No name is served by two targets.** -/
theorem exclusive_serves (m : Module) (stmt : Stmt) : Exclusive (m.serves stmt) := by
  rintro t t' n h h'
  have heq : t.function = t'.function ∧ t.module = t'.module := by
    cases n with
    | imported s =>
      simp only [serves, Bool.and_eq_true] at h h'
      obtain ⟨⟨hmodule, hfunction⟩, -⟩ := h
      obtain ⟨⟨hmodule', hfunction'⟩, -⟩ := h'
      exact ⟨Target.function_eq_of_matchesImport hfunction hfunction',
        Target.module_eq_of_matchesModule hmodule hmodule'⟩
    | exported s =>
      simp only [serves, Bool.and_eq_true] at h h'
      obtain ⟨hmodule, hfunction⟩ := h
      obtain ⟨hmodule', hfunction'⟩ := h'
      exact ⟨(of_decide_eq_true hfunction).symm.trans (of_decide_eq_true hfunction'),
        Target.module_eq_of_matchesModule hmodule hmodule'⟩
  cases t
  cases t'
  exact (Target.mk.injEq ..).mpr heq

/-- A target serves the specifiers of an import that it matches and that have uses, and the names of
a re-export that it takes. -/
theorem filter_serves (m : Module) (stmt : Stmt) (t : Target) :
    stmt.listed.filter (m.serves stmt t)
      = ((t.specifiers stmt).filter (m.scope.isUsed ·.binding.name)).map .imported
        ++ (stmt.taken t).map .exported := by
  cases stmt with
  | importDecl specifiers source o =>
    have htaken : (Stmt.importDecl specifiers source o).taken t = [] := rfl
    rw [Stmt.listed, List.filter_map, htaken, List.map_nil, List.append_nil, Target.specifiers]
    refine congrArg _ ?_
    split
    · rename_i hmodule
      rw [List.filter_filter]
      refine List.filter_congr fun s _ => ?_
      simp [serves, Target.matchesModule, hmodule, Bool.and_comm]
    · rename_i hmodule
      exact List.filter_eq_nil_iff.2 fun s _ => by simp [serves, Target.matchesModule, hmodule]
  | exportNamed specifiers source o =>
    have hspecifiers : t.specifiers (.exportNamed specifiers source o) = [] := rfl
    rw [Stmt.listed, List.filter_map, hspecifiers, List.filter_nil, List.map_nil, List.nil_append]
    refine congrArg _ ?_
    cases source with
    | none => exact List.filter_eq_nil_iff.2 fun s _ => by simp [serves, Target.matchesModule]
    | some source =>
      refine List.filter_congr fun s _ => ?_
      simp [serves, Target.matchesModule, Target.takes]
  | _ => rfl

/-- **What is served** is what is bound of an import and what is taken from a re-export. -/
theorem served_eq (m : Module) (targets : List Target) (stmt : Stmt) :
    m.served targets stmt
      = ((targets.flatMap (·.specifiers stmt)).filter (m.scope.isUsed ·.binding.name)).map .imported
        ++ ((stmt.takenBy targets).map Prod.snd).map .exported := by
  simp only [served, gather, filter_serves]
  by_cases hkind : ∃ specifiers source o, stmt = .exportNamed specifiers (some source) o
  · obtain ⟨specifiers, source, o, rfl⟩ := hkind
    simp [Stmt.takenBy, Target.specifiers, List.map_flatMap, Function.comp_def]
  · have hnone : ∀ t, stmt.taken t = [] := fun t => by
      simpa [Stmt.takenBy] using
        Stmt.takenBy_of_ne (fun specifiers source o heq => hkind ⟨specifiers, source, o, heq⟩) [t]
    simp [Stmt.takenBy, hnone, List.filter_flatMap, List.map_flatMap]

/-- **What stands for a name that is served**: one constant if it is imported, and if it is exported
the three statements for the target that takes it. The constant binds the name that was imported,
where the names that the module declares differ. -/
inductive Serving (m : Module) (targets : List Target) (messages : String) (stmt : Stmt) :
    ListedName → List Stmt → Prop where
  /-- A name that is imported. -/
  | imported (b : BoundImport) (hnew : b.IsNew m)
    (hfunction : m.declaredNames.Nodup → b.function = b.specifier.binding.name) :
    Serving m targets messages stmt (.imported b.specifier) [b.constant messages]
  /-- A name that is exported. -/
  | exported (r : Rehoming) (hnew : r.IsNew m) (htarget : r.target ∈ targets)
    (hserves : m.serves stmt r.target (.exported r.specifier)) :
    Serving m targets messages stmt (.exported r.specifier) (r.stmts messages)

end Module

/-- Without repetitions there is nothing to leave out. -/
theorem List.eraseDups_eq_self {α : Type} [BEq α] [LawfulBEq α] {as : List α} (h : as.Nodup) :
    as.eraseDups = as := by
  induction as with
  | nil => rfl
  | cons a as ih =>
    obtain ⟨hnot, hnodup⟩ := List.nodup_cons.1 h
    have hsame : (as.filter fun b => !b == a) = as := List.filter_eq_self.2 fun b hb => by
      simpa using fun heq : b = a => hnot (heq ▸ hb)
    rw [List.eraseDups_cons, hsame, ih hnodup]

/-- The constants of an arranged draft that were put in are those of what was appended: what is left
of a statement has its number, and what is behind has later ones. -/
theorem Draft.Arranged.tally_eq {m : Module} {cs : List Chunk} {d : Draft} (h : d.Arranged m cs)
    (hm : m.Numbered) :
    d.tally m.next = (cs.map fun c => c.added.countP (·.boundTo?.isSome)).sum := by
  rw [tally, h.body, List.countP_flatMap]
  refine congrArg List.sum (List.map_congr_left fun c hc => ?_)
  have hkept : c.kept.toList.countP (fun s => m.next ≤ s.origin.id && s.boundTo?.isSome) = 0 := by
    refine List.countP_eq_zero.2 fun s hs => ?_
    have hid := h.kept c hc s (Option.mem_toList.1 hs)
    have hlt : c.id < m.next := hm.statement_lt _ (h.origins ▸ List.mem_map_of_mem hc)
    simp [hid, Nat.not_le.2 hlt]
  have hadded : c.added.countP (fun s => m.next ≤ s.origin.id && s.boundTo?.isSome)
      = c.added.countP (·.boundTo?.isSome) :=
    List.countP_congr fun s hs => by simp [(h.added c hc s hs).1]
  rw [Function.comp_apply, Chunk.stmts, List.countP_append, hkept, Nat.zero_add, hadded]

/-- One constant is put in for each name that was taken. -/
theorem Rehoming.countP_boundTo?_stmts (rs : List Rehoming) (messages : String) :
    (rs.flatMap (·.stmts messages)).countP (·.boundTo?.isSome) = rs.length := by
  induction rs with
  | nil => rfl
  | cons r rs ih =>
    have hone : (r.stmts messages).countP (·.boundTo?.isSome) = 1 := rfl
    rw [List.flatMap_cons, List.countP_append, hone, ih, List.length_cons, Nat.add_comm]

namespace Chunk.Synthesized

variable {m : Module} {targets : List Target} {messages : String} {bs : List BoundImport}
  {rs : List Rehoming} {c : Chunk} (htargets : targets.Nodup)
  (h : c.Synthesized m messages
    ((targets.flatMap (·.specifiers c.origin)).filter (m.scope.isUsed ·.binding.name))
    (c.origin.takenBy targets.eraseDups) bs rs)
include htargets h

/-- One constant is put in for each name that is served. -/
theorem countP_boundTo? :
    c.added.countP (·.boundTo?.isSome) = (m.served targets c.origin).length := by
  rw [List.eraseDups_eq_self htargets] at h
  have hbound : (bs.map (·.constant messages)).countP (·.boundTo?.isSome) = bs.length := by
    rw [List.countP_map]
    exact List.countP_eq_length.2 fun b _ => rfl
  rw [h.added, List.countP_append, hbound, Rehoming.countP_boundTo?_stmts, m.served_eq, ← h.bound,
    ← h.taken, List.length_append]
  simp only [List.length_map]

/-- **What is put in behind a statement** is what stands for the names that are served, in their
order. -/
theorem exists_serving
    (hfunction : ∀ b ∈ bs, m.declaredNames.Nodup → b.function = b.specifier.binding.name) :
    ∃ blocks, List.Forall₂ (m.Serving targets messages c.origin) (m.served targets c.origin) blocks
      ∧ c.added = blocks.flatten := by
  rw [List.eraseDups_eq_self htargets] at h
  have htaken := h.taken
  refine ⟨bs.map (fun b => [b.constant messages]) ++ rs.map (·.stmts messages), ?_, ?_⟩
  · rw [m.served_eq, ← h.bound, ← htaken, List.map_map, List.map_map, List.map_map]
    refine List.rel_append ?_ ?_
    · rw [List.forall₂_map_left_iff, List.forall₂_map_right_iff, List.forall₂_same]
      exact fun b hb => .imported b (h.boundNew b hb) (hfunction b hb)
    · rw [List.forall₂_map_left_iff, List.forall₂_map_right_iff, List.forall₂_same]
      intro r hr
      have hmem : (r.target, r.specifier) ∈ c.origin.takenBy targets :=
        htaken ▸ List.mem_map_of_mem (f := fun r : Rehoming => (r.target, r.specifier)) hr
      obtain ⟨t, ht, hs⟩ := List.mem_flatMap.1 hmem
      obtain ⟨s, hs, heq⟩ := List.mem_map.1 hs
      obtain ⟨rfl, rfl⟩ := Prod.mk.inj heq
      refine .exported r (h.takenNew r hr) ht ?_
      have hserved : .exported r.specifier ∈ c.origin.listed.filter (m.serves c.origin r.target) :=
        m.filter_serves c.origin r.target ▸
          List.mem_append_right _ (List.mem_map_of_mem hs)
      exact List.of_mem_filter hserved
  · rw [h.added, List.flatten_append, ← List.flatMap_def, ← List.flatMap_def, List.map_eq_flatMap]

omit htargets in
/-- What a constant is for is a specifier that has uses and that a target matches. -/
theorem matched (hc : c.origin ∈ m.body) {b : BoundImport} (hb : b ∈ bs) :
    m.Imports c.origin b.specifier ∧ b.specifier ∈ Target.allSpecifiers targets m.body ∧
      m.scope.isUsed b.specifier.binding.name := by
  have hmem : b.specifier ∈ bs.map BoundImport.specifier := List.mem_map_of_mem hb
  rw [h.bound] at hmem
  obtain ⟨hmem, hused⟩ := List.mem_filter.1 hmem
  obtain ⟨t, ht, hs⟩ := List.mem_flatMap.1 hmem
  exact ⟨Target.imports_of_mem_specifiers hc hs, List.mem_flatMap_of_mem hc hmem, hused⟩

/-- No two constants are for the same specifier. -/
theorem nodup_bindings (hm : m.Numbered) (hc : c.origin ∈ m.body) :
    (bs.map fun b => b.specifier.binding).Nodup := by
  have hnodup := Target.nodup_allSpecifiers hm htargets
  rw [Target.allSpecifiers, List.map_flatMap] at hnodup
  have hbound := congrArg (List.map ImportSpecifier.binding) h.bound
  rw [List.map_map] at hbound
  exact hbound ▸ ((List.nodup_flatMap.1 hnodup).1 c.origin hc).sublist (List.filter_sublist.map _)

end Chunk.Synthesized

/-! ### What constants bind -/

namespace Module

/-- A specifier that has uses is not unused, where the names of the module differ. -/
theorem Imports.not_unused {m : Module} {stmt : Stmt} {s : ImportSpecifier} (h : m.Imports stmt s)
    (hm : m.Numbered) (hnames : m.declaredNames.Nodup) (hused : m.scope.isUsed s.binding.name) :
    ¬ m.Unused s.binding := by
  obtain ⟨u, hu, hname, hmeans⟩ :=
    ((Draft.Steady.ofModule m).isUsed_iff (Draft.inOrder_ofModule hm) h.hasName).1 hused
  obtain ⟨b, hb, hkey⟩ := Option.map_eq_some_iff.1 hmeans
  have hfirst := Binding.first?_key_of_resolve? hb
  rw [hkey, h.first?_eq hnames] at hfirst
  intro hunused
  rw [← hname] at hb
  exact hunused u hu b hb (congrArg Binding.identifier (Option.some.inj hfirst)).symm

namespace Chunked

variable {m : Module} {targets : List Target} {catalogues : CatalogueSource}
  {path : Option String} {r : BoundModule} {front : Option Stmt} {cs : List Chunk}
  {messages : String} {made : Chunk → List Rehoming} {bs : Chunk → List BoundImport}
  (h : m.Chunked targets r front cs messages made)
  (hbs : ∀ c ∈ cs, c.Synthesized m messages
    ((targets.flatMap (·.specifiers c.origin)).filter (m.scope.isUsed ·.binding.name))
    (c.origin.takenBy targets.eraseDups) (bs c) (made c))
  (hm : m.Numbered)
include h hbs hm

/-- A constant that binds a name of the module is that of a specifier with this name. -/
theorem exists_bound {name function messages' : String} {n : Nat} (hle : m.next ≤ n)
    (hfunction : m.scope.hasName function)
    (hmem : .boundConstant name function messages' n ∈ r.draft.toModule.body) :
    ∃ c ∈ cs, ∃ b ∈ bs c, b.function = function ∧ b.specifier.binding.name = function := by
  rw [h.body] at hmem
  rcases List.mem_append.1 hmem with hmem | hmem
  · obtain ⟨literal, n', heq, -⟩ := h.holds _ (Option.mem_toList.1 hmem)
    cases heq
  obtain ⟨c, hc, hmem⟩ := List.mem_flatMap.1 hmem
  rcases List.mem_append.1 hmem with hmem | hmem
  · -- what is left of a statement has its number
    have hnumber : n = c.id := h.number c hc _ (Option.mem_toList.1 hmem)
    have hlt : c.id < m.next :=
      hm.statement_lt _ (h.origins ▸ List.mem_map_of_mem (f := Chunk.origin) hc)
    omega
  · rw [(hbs c hc).added] at hmem
    rcases List.mem_append.1 hmem with hmem | hmem
    · obtain ⟨b, hb, heq⟩ := List.mem_map.1 hmem
      obtain rfl := (Stmt.boundConstant_inj heq).2.1
      refine ⟨c, hc, b, hb, rfl, ?_⟩
      exact (((hbs c hc).boundNew b hb).2.resolve_right (not_not.2 hfunction)).symm
    · obtain ⟨t, ht, hmem⟩ := List.mem_flatMap.1 hmem
      simp only [Rehoming.stmts, List.mem_cons, List.not_mem_nil, or_false] at hmem
      rcases hmem with heq | heq | heq
      · cases heq
      · obtain rfl := (Stmt.boundConstant_inj heq).2.1
        exact absurd hfunction ((hbs c hc).takenNew t ht).1
      · cases heq

/-- **A constant binds the specifier that it is for**, where the names of the module differ. -/
theorem function_eq (hnames : m.declaredNames.Nodup) (htargets : targets.Nodup)
    (hrun : (m.bindMessages targets catalogues path).run.1 = .ok r) {c : Chunk} (hc : c ∈ cs)
    {b : BoundImport} (hb : b ∈ bs c) : b.function = b.specifier.binding.name := by
  obtain ⟨rs, cs', f, messages', hremade⟩ := exists_remade hm hnames htargets hrun
  have horigin : ∀ c ∈ cs, c.origin ∈ m.body := fun c hc => h.origins ▸ List.mem_map_of_mem hc
  obtain ⟨himports, hall, hused⟩ := (hbs c hc).matched (horigin c hc) hb
  -- the specifier has a constant that binds it, and this is the one
  obtain ⟨r', hr', hsame⟩ :=
    (hremade.complete _ hall).resolve_right (himports.not_unused hm hnames hused)
  obtain ⟨hle, hmem⟩ := hremade.constants r' hr'
  rw [Rebinding.constant, hsame] at hmem
  obtain ⟨c₁, hc₁, b₁, hb₁, hfunction, hname⟩ := h.exists_bound hbs hm hle himports.hasName hmem
  obtain ⟨himports₁, -, -⟩ := (hbs c₁ hc₁).matched (horigin c₁ hc₁) hb₁
  have hbinding := himports.binding_eq himports₁ hnames hname.symm
  have hbodies : (cs.map Chunk.origin).Nodup := h.origins ▸ hm.statements.of_map _
  obtain rfl := List.inj_on_of_nodup_map hbodies hc hc₁ (himports.stmt_eq hm himports₁ hbinding)
  have hbindings := (hbs c hc).nodup_bindings htargets hm (horigin c hc)
  rw [List.inj_on_of_nodup_map hbindings hb hb₁ hbinding, hfunction, ← hname]

end Chunked

/-! ### Whole passes -/

/-- **A pass goes in turn**: the module that it makes consists of the messages, if there are any,
and of a chunk for each statement of the module, and what was put in behind a statement stands for
its names in the order in which they are served. -/
structure InTurn (m : Module) (targets : List Target) (r : BoundModule) (front : Option Stmt)
    (cs : List Chunk) (messages : String) : Prop where
  /-- The statements. -/
  body : r.draft.toModule.body = front.toList ++ cs.flatMap Chunk.stmts
  /-- What is in front is the constant that holds the messages. -/
  holds : ∀ s ∈ front, ∃ literal n, s = .messagesConstant messages literal n
  /-- There is a chunk for each statement, in the order of the module. -/
  origins : cs.map Chunk.origin = m.body
  /-- What was put in behind a statement. -/
  behind : ∀ c ∈ cs, ∃ blocks,
    List.Forall₂ (m.Serving targets messages c.origin) (m.served targets c.origin) blocks ∧
      c.added = blocks.flatten

variable {text : String} {filename : Option String} {base : Nat} {m : Module}
  {targets targets' : List Target} {catalogues : CatalogueSource} {path : Option String}

/-- Targets serve the same names in any order. -/
theorem perm_served (hperm : targets'.Perm targets) (m : Module) (stmt : Stmt) :
    (m.served targets' stmt).Perm (m.served targets stmt) :=
  hperm.flatMap_right _

/-- **A pass binds as many names as are served.** -/
theorem total_of_bindStmts (hm : m.Numbered) (htargets : targets.Nodup) {gate : Gate}
    (hgate : Gate.ofPath path = .ok gate) {counts : BoundCounts} {b : Bench}
    (hstmts : (Drafting.bindStmts targets m.body).Gives ⟨.ofModule m, gate⟩ counts b) :
    counts.total = (m.body.flatMap (m.served targets)).length := by
  obtain ⟨source, rfl, rfl⟩ := Gate.eq_of_ofPath hgate
  obtain ⟨met, done, hframes, hthere⟩ := Bench.Frames.of_bindStmts hm hgate hstmts
  obtain ⟨cs, f, v, ha, -, -, hmade, -⟩ := hframes.chunks
  rw [← (tallies_of_bindStmts hm hstmts).constants, ha.tally_eq hm, ← ha.origins,
    List.flatMap_map, List.length_flatMap]
  refine congrArg List.sum (List.map_congr_left fun c hc => ?_)
  obtain ⟨bs, rs, hsynthesized⟩ := (hmade c hc).made
  obtain ⟨hmet, hdone⟩ := hthere c.origin (ha.origins ▸ List.mem_map_of_mem hc)
  change met c.id = targets at hmet
  change done c.id = _ at hdone
  rw [hmet, hdone] at hsynthesized
  exact hsynthesized.countP_boundTo? htargets

/-- **Every pass goes in turn**, if no target is given twice. -/
theorem exists_inTurn [CharacterNames] (hparse : parse text filename base = .ok m)
    (htargets : targets.Nodup) {r : BoundModule}
    (hrun : (m.bindMessages targets catalogues path).run.1 = .ok r) :
    ∃ front cs messages, m.InTurn targets r front cs messages := by
  obtain ⟨front, cs, messages, made, h⟩ := exists_chunked_of_bindMessages hparse hrun
  choose! bs hbs using h.made
  refine ⟨front, cs, messages, h.body, fun s hs => ?_, h.origins, fun c hc => ?_⟩
  · obtain ⟨literal, n, heq, -⟩ := h.holds s hs
    exact ⟨literal, n, heq⟩
  · exact (hbs c hc).exists_serving htargets fun b hb hnames =>
      h.function_eq hbs (numbered_of_parse hparse) hnames htargets hrun hc hb

/-- **The order of the targets is of no account for how a pass ends**, what it loads and how many
names it binds. -/
theorem run_bindMessages_perm (hm : m.Numbered) (htargets : targets.Nodup)
    (hperm : targets'.Perm targets) (catalogues : CatalogueSource) (path : Option String) :
    ((m.bindMessages targets' catalogues path).run.1.map fun r => r.counts.total)
        = ((m.bindMessages targets catalogues path).run.1.map fun r => r.counts.total) ∧
      (m.bindMessages targets' catalogues path).run.2
        = (m.bindMessages targets catalogues path).run.2 := by
  rcases Gate.ofPath_cases path with ⟨-, hmissing⟩ | ⟨source, hsource, rfl, hgate⟩
  · rw [bindMessages_eq, bindMessages_eq, bindMessagesBy_of_missing hmissing,
      bindMessagesBy_of_missing hmissing]
    exact ⟨rfl, rfl⟩
  · obtain ⟨c, b, hends, hnothing, hsomething⟩ :=
      run_bindMessages_of_path hm targets catalogues hsource
    obtain ⟨c', b', hends', hnothing', hsomething'⟩ :=
      run_bindMessages_of_path hm targets' catalogues hsource
    have htotal : c'.total = c.total := by
      rw [total_of_bindStmts hm htargets hgate (Drafting.gives_of_ends hends),
        total_of_bindStmts hm (hperm.nodup_iff.2 htargets) hgate (Drafting.gives_of_ends hends')]
      exact (List.Perm.flatMap_left _ fun stmt _ => m.perm_served hperm stmt).length_eq
    by_cases hzero : c.total = 0
    · rw [hnothing hzero, hnothing' (htotal.trans hzero)]
      exact ⟨congrArg Except.ok htotal, rfl⟩
    · obtain ⟨-, -, hrun⟩ := hsomething hzero
      obtain ⟨-, -, hrun'⟩ := hsomething' (htotal ▸ hzero)
      rw [hrun, hrun']
      refine ⟨?_, rfl⟩
      cases (catalogues.record source).run.1 with
      | error e => rfl
      | ok record => exact congrArg Except.ok htotal

/-- **The order of what a pass puts in.** Behind each statement stands what serves its names, by
targets first. These are the names that targets serve in any case; they are in the order in which
they were written exactly if the targets are in step with the statement. With the targets in another
order a pass ends in the same way, loads the same and serves the same names, and it serves those of
a statement in the same order exactly if the targets that serve them come in the same order. -/
theorem order_of_bindMessages [CharacterNames] (hparse : parse text filename base = .ok m)
    (htargets : targets.Nodup) (catalogues : CatalogueSource) (path : Option String) :
    (∀ r, (m.bindMessages targets catalogues path).run.1 = .ok r →
      (∃ front cs messages, m.InTurn targets r front cs messages) ∧
        r.counts.total = (m.body.flatMap (m.served targets)).length) ∧
    (∀ stmt, (m.served targets stmt).Perm (m.written targets stmt) ∧
      (m.served targets stmt = m.written targets stmt ↔
        InStep (m.serves stmt) targets stmt.listed)) ∧
    ∀ targets', targets'.Perm targets →
      ((m.bindMessages targets' catalogues path).run.1.map fun r => r.counts.total)
          = ((m.bindMessages targets catalogues path).run.1.map fun r => r.counts.total) ∧
        (m.bindMessages targets' catalogues path).run.2
          = (m.bindMessages targets catalogues path).run.2 ∧
        ∀ stmt, (m.served targets' stmt).Perm (m.served targets stmt) ∧
          (m.served targets' stmt = m.served targets stmt ↔
            m.servers targets' stmt = m.servers targets stmt) := by
  have hm := numbered_of_parse hparse
  refine ⟨fun r hrun => ⟨exists_inTurn hparse htargets hrun, ?_⟩, fun stmt => ⟨?_, ?_⟩,
    fun targets' hperm => ?_⟩
  · obtain ⟨gate, b₁, b₂, hgate, hstmts, -⟩ := gives_bindMessages hrun
    exact total_of_bindStmts hm htargets hgate hstmts
  · exact perm_gather (m.exclusive_serves stmt) htargets stmt.listed
  · exact gather_eq_filter_iff (m.exclusive_serves stmt) htargets stmt.listed
  · obtain ⟨hends, hloads⟩ := run_bindMessages_perm hm htargets hperm catalogues path
    exact ⟨hends, hloads, fun stmt => ⟨m.perm_served hperm stmt,
      gather_eq_gather_iff (m.exclusive_serves stmt) targets' targets stmt.listed⟩⟩

section

attribute [local instance] CharacterNames.nameless

/-- In `import { a, b } from "m"; a(); b()` both names are served, that of the first target
first. -/
theorem order_of_bindMessages_imported : ∃ m r,
    parse "import { a, b } from \"m\"; a(); b()" none 0 = .ok m ∧
      [(⟨"b", "m"⟩ : Target), ⟨"a", "m"⟩].Nodup ∧
      (m.bindMessages [⟨"b", "m"⟩, ⟨"a", "m"⟩]
        ⟨⟨[], ⟨.relative, []⟩⟩, "properties", fun _ => .ok [], none⟩
        (some "a.js")).run.1 = .ok r ∧
      (∃ front cs messages,
        m.InTurn [⟨"b", "m"⟩, ⟨"a", "m"⟩] r front cs messages) ∧
      r.counts.total = 2 := by
  have hruns : ((parse "import { a, b } from \"m\"; a(); b()" none 0).toOption.bind fun m =>
      (m.bindMessages [⟨"b", "m"⟩, ⟨"a", "m"⟩]
        ⟨⟨[], ⟨.relative, []⟩⟩, "properties", fun _ => .ok [], none⟩
        (some "a.js")).run.1.toOption.filter fun r => r.counts.total = 2).isSome := by
    decide +kernel
  obtain ⟨r, hr⟩ := Option.isSome_iff_exists.1 hruns
  obtain ⟨m, hm, hr⟩ := Option.bind_eq_some_iff.1 hr
  obtain ⟨hr, htotal⟩ := Option.filter_eq_some_iff.1 hr
  have hparse := Except.eq_ok_of_toOption hm
  have hrun := Except.eq_ok_of_toOption hr
  obtain ⟨hturn, -⟩ := (order_of_bindMessages hparse (by decide) _ _).1 r hrun
  exact ⟨m, r, hparse, by decide, hrun, hturn, of_decide_eq_true htotal⟩

/-- In `export { a, b } from "m"` the names are exported in the order of the targets, whatever the
order in which they were written. -/
theorem bindMessages_out_of_step : ∃ m r r',
    parse "export { a, b } from \"m\"" none 0 = .ok m ∧
      [(⟨"b", "m"⟩ : Target), ⟨"a", "m"⟩].Nodup ∧
      [(⟨"b", "m"⟩ : Target), ⟨"a", "m"⟩].Perm [⟨"a", "m"⟩, ⟨"b", "m"⟩] ∧
      (m.bindMessages [⟨"b", "m"⟩, ⟨"a", "m"⟩]
        ⟨⟨[], ⟨.relative, []⟩⟩, "properties", fun _ => .ok [], none⟩
        (some "a.js")).run.1 = .ok r ∧
      (m.bindMessages [⟨"a", "m"⟩, ⟨"b", "m"⟩]
        ⟨⟨[], ⟨.relative, []⟩⟩, "properties", fun _ => .ok [], none⟩
        (some "a.js")).run.1 = .ok r' ∧
      m.exports.map Export.label = [.name "a", .name "b"] ∧
      r.draft.toModule.exports.map Export.label = [.name "b", .name "a"] ∧
      r'.draft.toModule.exports.map Export.label = [.name "a", .name "b"] := by
  have hruns : ((parse "export { a, b } from \"m\"" none 0).toOption.bind fun m =>
      ((m.bindMessages [⟨"b", "m"⟩, ⟨"a", "m"⟩]
        ⟨⟨[], ⟨.relative, []⟩⟩, "properties", fun _ => .ok [], none⟩
        (some "a.js")).run.1.toOption.filter fun r =>
          r.draft.toModule.exports.map Export.label = [.name "b", .name "a"]).bind fun _ =>
      (m.bindMessages [⟨"a", "m"⟩, ⟨"b", "m"⟩]
        ⟨⟨[], ⟨.relative, []⟩⟩, "properties", fun _ => .ok [], none⟩
        (some "a.js")).run.1.toOption.filter fun r' =>
          m.exports.map Export.label = [.name "a", .name "b"] ∧
          r'.draft.toModule.exports.map Export.label = [.name "a", .name "b"]).isSome := by
    decide +kernel
  obtain ⟨r', hr'⟩ := Option.isSome_iff_exists.1 hruns
  obtain ⟨m, hm, hr'⟩ := Option.bind_eq_some_iff.1 hr'
  obtain ⟨r, hr, hr'⟩ := Option.bind_eq_some_iff.1 hr'
  obtain ⟨hr, hlabels⟩ := Option.filter_eq_some_iff.1 hr
  obtain ⟨hr', hlabels'⟩ := Option.filter_eq_some_iff.1 hr'
  obtain ⟨hwritten, hstep⟩ := of_decide_eq_true hlabels'
  exact ⟨m, r, r', Except.eq_ok_of_toOption hm, by decide, List.Perm.swap _ _ _,
    Except.eq_ok_of_toOption hr, Except.eq_ok_of_toOption hr', hwritten,
    of_decide_eq_true hlabels, hstep⟩

end

end Module

end MessageBinder
