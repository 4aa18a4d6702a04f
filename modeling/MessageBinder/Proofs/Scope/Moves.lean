import MessageBinder.Proofs.Scope.Ledger

/-!
# Uses that move

Two operations of a scope take a use from where it is and put it elsewhere. Renaming takes one use
out of the ledger and enters it again at the end, linked to what the new name means at its place
(`MessageBinder.Scope.Keeps.rename`). Adopting writes the key of one binding into every entry that
has no link and means that binding (`MessageBinder.Scope.Keeps.adopt`); done for each of several
bindings in turn, it brings up to date exactly the entries that mean one of them
(`MessageBinder.Scope.Keeps.foldl_adopt`).
-/

namespace MessageBinder

namespace UseEntry

/-- The entries with a number taken out. -/
def without (n : Nat) (L : List UseEntry) : List UseEntry := L.filter (·.number ≠ n)

theorem mem_without {n : Nat} {L : List UseEntry} {e : UseEntry} :
    e ∈ without n L ↔ e ∈ L ∧ e.number ≠ n := by
  simp [without]

theorem without_append (n : Nat) (L L' : List UseEntry) :
    without n (L ++ L') = without n L ++ without n L' :=
  List.filter_append L L'

theorem notMem_map_without (n : Nat) (L : List UseEntry) : n ∉ (without n L).map number := by
  intro h
  obtain ⟨e, he, hn⟩ := List.mem_map.1 h
  exact (mem_without.1 he).2 hn

/-- The entry after the bindings with certain keys have adopted. -/
def adoptedBy (ds : List Binding) (keys : List BindingKey) (e : UseEntry) : UseEntry :=
  if e.link = none ∧ ∃ key ∈ keys, e.meaning ds = some key then { e with link := e.meaning ds }
  else e

theorem adoptedBy_nil (ds : List Binding) (e : UseEntry) : e.adoptedBy ds [] = e := by
  simp [adoptedBy]

/-- Adopting by one binding after the other is adopting by all of them. -/
theorem adoptedBy_cons (ds : List Binding) (key : BindingKey) (keys : List BindingKey)
    (e : UseEntry) :
    (e.adopted ds key).adoptedBy ds keys = e.adoptedBy ds (key :: keys) := by
  by_cases hnone : e.link = none
  · by_cases hkey : e.meaning ds = some key
    · have h1 : e.adopted ds key = { e with link := some key } := by
        rw [adopted, if_pos ⟨hnone, hkey⟩]
      rw [h1, adoptedBy, if_neg (by simp), adoptedBy, if_pos ⟨hnone, key, by simp, hkey⟩, hkey]
    · have h1 : e.adopted ds key = e := by rw [adopted, if_neg fun hc => hkey hc.2]
      have h2 : (∃ k ∈ key :: keys, e.meaning ds = some k) ↔ ∃ k ∈ keys, e.meaning ds = some k := by
        rw [List.exists_mem_cons_iff, or_iff_right hkey]
      simp only [h1, adoptedBy, h2]
  · have h1 : e.adopted ds key = e := by rw [adopted, if_neg fun hc => hnone hc.1]
    simp [h1, adoptedBy, hnone]

end UseEntry

namespace Scope

/-! ### Taking a use out -/

@[simp] theorem declared_unlink (s : Scope) (n : Nat) : (s.unlink n).declared = s.declared := by
  rw [unlink]
  split
  · simp only [declared, List.map_map]
    refine List.map_congr_left fun b _ => ?_
    rw [Function.comp_apply]
    split <;> rfl
  · rfl

@[simp] theorem keys_unlink (s : Scope) (n : Nat) :
    (s.unlink n).bindings.map Binding.key = s.bindings.map Binding.key := by
  rw [unlink]
  split
  · rw [List.map_map]
    refine List.map_congr_left fun b _ => ?_
    rw [Function.comp_apply]
    split <;> rfl
  · rfl

@[simp] theorem placeOf_unlink (s : Scope) (n m : Nat) :
    (s.unlink n).placeOf m = s.placeOf m := by
  rw [unlink]
  split <;> rfl

@[simp] theorem hasName_unlink (s : Scope) (n : Nat) (name : String) :
    (s.unlink n).hasName name = s.hasName name := by
  rw [unlink]
  split <;> rfl

theorem linkOf?_unlink_self (s : Scope) (n : Nat) : (s.unlink n).linkOf? n = none := by
  rw [unlink]
  split
  · simp [linkOf?]
  · rename_i hnone
    exact hnone

theorem linkOf?_unlink_of_ne (s : Scope) {n m : Nat} (h : m ≠ n) :
    (s.unlink n).linkOf? m = s.linkOf? m := by
  rw [unlink]
  split
  · rw [linkOf?, linkOf?, List.find?_filter]
    congr 2
    funext e
    by_cases he : e.1 = m
    · simp [he, h]
    · simp [he]
  · rfl

/-- A binding after a use was taken out. -/
theorem mem_bindings_unlink {s : Scope} {n : Nat} {b : Binding} (h : b ∈ (s.unlink n).bindings) :
    ∃ c ∈ s.bindings, c.key = b.key ∧
      b.uses = if s.linkOf? n = some c.key then c.uses.filter (·.origin.id ≠ n) else c.uses := by
  rw [unlink] at h
  split at h
  · rename_i key hkey
    obtain ⟨c, hc, rfl⟩ := List.mem_map.1 h
    refine ⟨c, hc, ?_, ?_⟩
    · split <;> rfl
    · rw [hkey]
      by_cases hk : c.key = key
      · rw [if_pos hk, if_pos (by rw [hk])]
      · rw [if_neg hk, if_neg fun hc => hk (Option.some.inj hc).symm]
  · rename_i hnone
    exact ⟨b, h, rfl, by rw [hnone, if_neg (by simp)]⟩

theorem unresolved_unlink (s : Scope) (n : Nat) :
    (s.unlink n).unresolved = if s.linkOf? n = none then s.unresolved.filter (·.origin.id ≠ n)
      else s.unresolved := by
  rw [unlink]
  split
  · rename_i hkey
    rw [hkey, if_neg (by simp)]
  · rename_i hnone
    rw [if_pos hnone]

namespace Keeps

variable {s : Scope} {L : List UseEntry}

/-- No other list of uses holds the identifier of an entry. -/
theorem filter_linkedTo_of_ne (h : s.Keeps L) {e : UseEntry} (he : e ∈ L)
    {link : Option BindingKey} (hne : e.link ≠ link) :
    (UseEntry.linkedTo link L).filter (·.origin.id ≠ e.number) = UseEntry.linkedTo link L := by
  refine List.filter_eq_self.2 fun id hid => ?_
  obtain ⟨e', he', hlink, rfl⟩ := UseEntry.mem_linkedTo.1 hid
  have hnum : e'.number ≠ e.number := fun hc =>
    hne (by rw [← h.eq_of_number_eq he' he hc, hlink])
  exact decide_eq_true hnum

theorem unlink (h : s.Keeps L) {e : UseEntry} (he : e ∈ L) :
    (s.unlink e.number).Keeps (UseEntry.without e.number L) where
  keys_nodup := by simpa using h.keys_nodup
  numbers_nodup := h.numbers_nodup.sublist (List.filter_sublist.map _)
  uses b hb := by
    obtain ⟨c, hc, hkey, huses⟩ := mem_bindings_unlink hb
    rw [huses, ← hkey, UseEntry.without, UseEntry.linkedTo_filter, h.links e he]
    -- only the binding to which the entry was linked loses it
    by_cases hlink : e.link = some c.key
    · rw [if_pos hlink]
      exact (h.uses c hc).filter _
    · rw [if_neg hlink, h.filter_linkedTo_of_ne he hlink]
      exact h.uses c hc
  unresolved := by
    rw [unresolved_unlink, UseEntry.without, UseEntry.linkedTo_filter, h.links e he]
    by_cases hlink : e.link = none
    · rw [if_pos hlink]
      exact h.unresolved.filter _
    · rw [if_neg hlink, h.filter_linkedTo_of_ne he hlink]
      exact h.unresolved
  bound e' he' := by
    rw [keys_unlink]
    exact h.bound e' (UseEntry.mem_without.1 he').1
  links e' he' := by
    obtain ⟨hmem, hne⟩ := UseEntry.mem_without.1 he'
    rw [linkOf?_unlink_of_ne _ hne, h.links e' hmem]
  link_none n hn := by
    by_cases hne : n = e.number
    · rw [hne, linkOf?_unlink_self]
    · rw [linkOf?_unlink_of_ne _ hne]
      refine h.link_none n fun hm => hn ?_
      obtain ⟨e', he', hnum⟩ := List.mem_map.1 hm
      exact List.mem_map.2 ⟨e', UseEntry.mem_without.2 ⟨he', hnum.trans_ne hne⟩, hnum⟩
  places e' he' := by
    rw [placeOf_unlink]
    exact h.places e' (UseEntry.mem_without.1 he').1

/-! ### Renaming -/

/-- **Renaming moves one entry**: it leaves its place in the ledger and comes back at the end,
linked to what its new name means where it stands. -/
theorem rename (h : s.Keeps L) {e : UseEntry} (he : e ∈ L) (name : String) :
    (s.rename e.id name).Keeps (UseEntry.without e.number L ++
      [⟨e.chain, { e.id with name },
        (Binding.resolve? s.declared e.chain name).map Binding.key⟩]) := by
  have hplace : s.placeOf e.id.origin.id = e.chain := h.places e he
  have h' : ((s.unlink e.number).reserve name).Keeps (UseEntry.without e.number L) :=
    (h.unlink he).reserve name
  have hnew : ({ e.id with name } : Identifier).origin.id
      ∉ (UseEntry.without e.number L).map UseEntry.number :=
    UseEntry.notMem_map_without e.number L
  have := h'.link hnew (by rw [placeOf_reserve, placeOf_unlink, hplace])
  rw [Scope.rename, hplace]
  simpa [UseEntry.number] using this

end Keeps

@[simp] theorem declared_link (s : Scope) (chain : Chain) (id : Identifier) :
    (s.link chain id).declared = s.declared := by
  rw [link]
  split
  · rw [declared_addUses]
  · rfl

@[simp] theorem hasName_link (s : Scope) (chain : Chain) (id : Identifier) (name : String) :
    (s.link chain id).hasName name = s.hasName name := by
  rw [link]
  split <;> rfl

@[simp] theorem declared_rename (s : Scope) (id : Identifier) (name : String) :
    (s.rename id name).declared = s.declared := by
  simp [rename]

@[simp] theorem hasName_rename (s : Scope) (id : Identifier) (name name' : String) :
    (s.rename id name).hasName name' = (s.hasName name' || name' = name) := by
  simp [rename]

/-! ### Adopting -/

@[simp] theorem declared_adopt (s : Scope) (b : Binding) :
    (s.adopt b).declared = s.declared := by
  rw [adopt, declared_addUses]
  rfl

@[simp] theorem hasName_adopt (s : Scope) (b : Binding) (name : String) :
    (s.adopt b).hasName name = s.hasName name := rfl

@[simp] theorem keys_adopt (s : Scope) (b : Binding) :
    (s.adopt b).bindings.map Binding.key = s.bindings.map Binding.key := by
  rw [adopt, keys_addUses]

namespace Keeps

variable {s : Scope} {L : List UseEntry}

/-- The unresolved uses that mean a binding are the entries that wait for it. -/
theorem filter_means (h : s.Keeps L) (b : Binding) :
    (s.unresolved.filter (s.means b)).Perm
      ((L.filter (UseEntry.waits s.declared b.key)).map (·.id)) := by
  refine (h.unresolved.filter _).trans (List.Perm.of_eq ?_)
  rw [UseEntry.linkedTo, List.filter_map, List.filter_filter]
  refine congrArg _ (List.filter_congr fun e he => ?_)
  have hm := h.means_iff he b
  rw [Function.comp_apply, UseEntry.waits, Bool.and_comm, Bool.eq_iff_iff]
  simp only [Bool.and_eq_true, decide_eq_true_eq, hm]

theorem filter_not_means (h : s.Keeps L) (b : Binding) :
    (s.unresolved.filter (!s.means b ·)).Perm
      (UseEntry.linkedTo none (L.map (UseEntry.adopted s.declared b.key))) := by
  rw [UseEntry.linkedTo_none_map_adopted]
  refine (h.unresolved.filter _).trans (List.Perm.of_eq ?_)
  rw [UseEntry.linkedTo, List.filter_map, List.filter_filter]
  refine congrArg _ (List.filter_congr fun e he => ?_)
  have hm := h.means_iff he b
  rw [Function.comp_apply, UseEntry.waits, Bool.and_comm, Bool.eq_iff_iff]
  by_cases hlink : e.link = none
  · simp [hlink, hm, Bool.eq_false_iff]
  · simp [hlink]

/-- **A binding that adopts** takes the entries that have no link and mean it. -/
theorem adopt (h : s.Keeps L) {b : Binding} (hb : b.key ∈ s.bindings.map Binding.key) :
    (s.adopt b).Keeps (L.map (UseEntry.adopted s.declared b.key)) where
  keys_nodup := by simpa using h.keys_nodup
  numbers_nodup := by
    rw [List.map_map]
    simpa [Function.comp_def] using h.numbers_nodup
  uses c hc := by
    obtain ⟨c', hc', hkey, huses⟩ := mem_bindings_addUses hc
    rw [huses, ← hkey]
    by_cases hk : c'.key = b.key
    · rw [if_pos hk, hk]
      refine (List.Perm.append ?_ (h.filter_means b)).trans
        (UseEntry.linkedTo_map_adopted s.declared b.key L).symm
      rw [← hk]
      exact h.uses c' hc'
    · rw [if_neg hk, UseEntry.linkedTo_map_adopted_of_ne hk]
      exact h.uses c' hc'
  unresolved := h.filter_not_means b
  bound e he key hkey := by
    rw [keys_adopt]
    obtain ⟨e', he', rfl⟩ := List.mem_map.1 he
    by_cases hw : e'.waits s.declared b.key
    · rw [UseEntry.adopted_of_waits hw] at hkey
      rwa [← Option.some.inj hkey]
    · rw [UseEntry.adopted_of_not_waits hw] at hkey
      exact h.bound e' he' key hkey
  links e he := by
    obtain ⟨e', he', rfl⟩ := List.mem_map.1 he
    have hids := (h.filter_means b).map (fun id : Identifier => id.origin.id)
    rw [UseEntry.adopted_number, Scope.adopt]
    -- the entries that waited are those that the binding took
    by_cases hw : e'.waits s.declared b.key
    · rw [UseEntry.adopted_of_waits hw]
      refine linkOf?_addUses_of_mem _ _ (hids.mem_iff.2 ?_)
      rw [List.map_map]
      exact List.mem_map.2 ⟨e', List.mem_filter.2 ⟨he', hw⟩, rfl⟩
    · rw [UseEntry.adopted_of_not_waits hw, linkOf?_addUses_of_notMem]
      · exact h.links e' he'
      · intro hmem
        obtain ⟨id, hid, hnum⟩ := List.mem_map.1 (hids.mem_iff.1 hmem)
        obtain ⟨e'', he'', rfl⟩ := List.mem_map.1 hid
        obtain ⟨hmem'', hw''⟩ := List.mem_filter.1 he''
        exact hw (h.eq_of_number_eq hmem'' he' hnum ▸ hw'')
  link_none n hn := by
    have hids := (h.filter_means b).map (fun id : Identifier => id.origin.id)
    have hn' : n ∉ L.map UseEntry.number := by
      rw [List.map_map] at hn
      simpa [Function.comp_def] using hn
    rw [Scope.adopt, linkOf?_addUses_of_notMem]
    · exact h.link_none n hn'
    · intro hmem
      obtain ⟨id, hid, hnum⟩ := List.mem_map.1 (hids.mem_iff.1 hmem)
      obtain ⟨e, he, rfl⟩ := List.mem_map.1 hid
      exact hn' (List.mem_map.2 ⟨e, (List.mem_filter.1 he).1, hnum⟩)
  places e he := by
    obtain ⟨e', he', rfl⟩ := List.mem_map.1 he
    rw [UseEntry.adopted_number, UseEntry.adopted_chain]
    exact h.places e' he'

/-- **Bindings that adopt in turn** bring up to date the entries that mean one of them. -/
theorem foldl_adopt (h : s.Keeps L) {bs : List Binding}
    (hbs : ∀ b ∈ bs, b.key ∈ s.bindings.map Binding.key) :
    (bs.foldl Scope.adopt s).Keeps
      (L.map (UseEntry.adoptedBy s.declared (bs.map Binding.key))) := by
  induction bs generalizing s L with
  | nil =>
    have hid : L.map (UseEntry.adoptedBy s.declared []) = L :=
      List.map_id'' (UseEntry.adoptedBy_nil s.declared) L
    simpa [hid] using h
  | cons b bs ih =>
    have h' := ih (h.adopt (hbs b (by simp))) fun c hc => by
      rw [keys_adopt]
      exact hbs c (by simp [hc])
    rw [declared_adopt, List.map_map] at h'
    simpa only [List.foldl_cons, List.map_cons, Function.comp_def, UseEntry.adoptedBy_cons] using h'

end Keeps

@[simp] theorem declared_foldl_adopt (s : Scope) (bs : List Binding) :
    (bs.foldl adopt s).declared = s.declared := by
  induction bs generalizing s with
  | nil => rfl
  | cons b bs ih => rw [List.foldl_cons, ih, declared_adopt]

@[simp] theorem hasName_foldl_adopt (s : Scope) (bs : List Binding) (name : String) :
    (bs.foldl adopt s).hasName name = s.hasName name := by
  induction bs generalizing s with
  | nil => rfl
  | cons b bs ih => rw [List.foldl_cons, ih, hasName_adopt]

end Scope

end MessageBinder
