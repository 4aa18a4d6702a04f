import Mathlib.Data.List.Perm.Basic
import Mathlib.Data.List.Nodup
import MessageBinder.Proofs.Scope.Resolution

/-!
# The ledger of a scope

A scope spreads what it knows about one use over four places: the use stands in the list of a
binding or among the unresolved ones, the links say to which binding it went, and the places say
which frames are around it. A *ledger* is the same knowledge in one list, an entry for each use with
its chain and its link, and `MessageBinder.Scope.Keeps` says that a scope keeps a ledger: the uses
of every binding are the entries linked to it, each once, the unresolved ones are the entries
without a link, and links and places say what the entries say.

Every operation of a scope is then an operation on the ledger. A new use is a new entry at the end,
linked to what its name means; a renamed one is taken out and put back; a binding that adopts
writes its key into the entries without a link that mean it; a declaration leaves the ledger alone.
Whether the links are *right* is not a matter of this file: a scope can keep a ledger whose entries
are out of date, and does so for a moment when a declaration comes late.
-/

namespace MessageBinder

/-- One use of a name as a scope keeps it. -/
structure UseEntry where
  /-- The frames around the use. -/
  chain : Chain
  /-- The identifier. -/
  id : Identifier
  /-- The key of the binding that it went to, if it went to one. -/
  link : Option BindingKey

namespace UseEntry

/-- The number of the identifier, by which the scope tells uses apart. -/
def number (e : UseEntry) : Nat := e.id.origin.id

/-- The identifiers of the entries with a given link. -/
def linkedTo (link : Option BindingKey) (L : List UseEntry) : List Identifier :=
  (L.filter (·.link = link)).map (·.id)

/-- What the name of a use means among declared bindings, by its key. -/
def meaning (ds : List Binding) (e : UseEntry) : Option BindingKey :=
  (Binding.resolve? ds e.chain e.id.name).map Binding.key

/-- The entry after a binding has adopted: linked to it if it was unlinked and means it. -/
def adopted (ds : List Binding) (key : BindingKey) (e : UseEntry) : UseEntry :=
  if e.link = none ∧ e.meaning ds = some key then { e with link := some key } else e

@[simp] theorem linkedTo_nil (link : Option BindingKey) : linkedTo link [] = [] := rfl

@[simp] theorem linkedTo_append (link : Option BindingKey) (L L' : List UseEntry) :
    linkedTo link (L ++ L') = linkedTo link L ++ linkedTo link L' := by
  simp [linkedTo]

theorem mem_linkedTo {link : Option BindingKey} {L : List UseEntry} {id : Identifier} :
    id ∈ linkedTo link L ↔ ∃ e ∈ L, e.link = link ∧ e.id = id := by
  simp [linkedTo, and_assoc]

theorem linkedTo_perm {L L' : List UseEntry} (h : L.Perm L') (link : Option BindingKey) :
    (linkedTo link L).Perm (linkedTo link L') :=
  (h.filter _).map _

theorem linkedTo_eq_nil {link : Option BindingKey} {L : List UseEntry}
    (h : ∀ e ∈ L, e.link ≠ link) : linkedTo link L = [] := by
  rw [linkedTo, List.filter_eq_nil_iff.2 (by simpa using h), List.map_nil]

/-- Taking out the entries with a number takes out the identifiers with that number. -/
theorem linkedTo_filter (link : Option BindingKey) (L : List UseEntry) (n : Nat) :
    linkedTo link (L.filter (·.number ≠ n)) = (linkedTo link L).filter (·.origin.id ≠ n) := by
  simp only [linkedTo, List.filter_filter, List.filter_map]
  exact congrArg _ (List.filter_congr fun e _ => Bool.and_comm _ _)

@[simp] theorem adopted_id (ds : List Binding) (key : BindingKey) (e : UseEntry) :
    (e.adopted ds key).id = e.id := by
  rw [adopted]
  split <;> rfl

@[simp] theorem adopted_chain (ds : List Binding) (key : BindingKey) (e : UseEntry) :
    (e.adopted ds key).chain = e.chain := by
  rw [adopted]
  split <;> rfl

@[simp] theorem adopted_number (ds : List Binding) (key : BindingKey) (e : UseEntry) :
    (e.adopted ds key).number = e.number := by
  rw [number, adopted_id, number]

@[simp] theorem adopted_meaning (ds ds' : List Binding) (key : BindingKey) (e : UseEntry) :
    (e.adopted ds key).meaning ds' = e.meaning ds' := by
  rw [meaning, adopted_id, adopted_chain, meaning]

/-- An entry that means the adopting binding and has no link. -/
def waits (ds : List Binding) (key : BindingKey) (e : UseEntry) : Bool :=
  e.link = none && e.meaning ds = some key

theorem adopted_of_waits {ds : List Binding} {key : BindingKey} {e : UseEntry}
    (h : e.waits ds key) : e.adopted ds key = { e with link := some key } := by
  rw [adopted, if_pos (by simpa [waits] using h)]

theorem adopted_of_not_waits {ds : List Binding} {key : BindingKey} {e : UseEntry}
    (h : ¬ e.waits ds key) : e.adopted ds key = e := by
  rw [adopted, if_neg (by simpa [waits] using h)]

/-- The adopting binding gains the entries that wait for it. -/
theorem linkedTo_map_adopted (ds : List Binding) (key : BindingKey) (L : List UseEntry) :
    (linkedTo (some key) (L.map (adopted ds key))).Perm
      (linkedTo (some key) L ++ (L.filter (waits ds key)).map (·.id)) := by
  induction L with
  | nil => simp
  | cons e L ih =>
    by_cases hw : e.waits ds key
    · have hlink : e.link = none := by
        have := hw
        simp only [waits, Bool.and_eq_true, decide_eq_true_eq] at this
        exact this.1
      have h1 : linkedTo (some key) ((e :: L).map (adopted ds key))
          = e.id :: linkedTo (some key) (L.map (adopted ds key)) := by
        simp [linkedTo, adopted_of_waits hw]
      have h2 : linkedTo (some key) (e :: L) = linkedTo (some key) L := by
        simp [linkedTo, hlink]
      rw [h1, h2, List.filter_cons_of_pos hw, List.map_cons]
      exact (ih.cons _).trans List.perm_middle.symm
    · rw [List.filter_cons_of_neg hw, List.map_cons, adopted_of_not_waits hw]
      by_cases hlink : e.link = some key
      · simpa [linkedTo, hlink] using ih.cons e.id
      · simpa [linkedTo, hlink] using ih

/-- Other bindings keep their entries. -/
theorem linkedTo_map_adopted_of_ne {ds : List Binding} {key key' : BindingKey} (h : key' ≠ key)
    (L : List UseEntry) :
    linkedTo (some key') (L.map (adopted ds key)) = linkedTo (some key') L := by
  induction L with
  | nil => rfl
  | cons e L ih =>
    have hlink : (e.adopted ds key).link = some key' ↔ e.link = some key' := by
      by_cases hw : e.waits ds key
      · have hnone : e.link = none := by
          have := hw
          simp only [waits, Bool.and_eq_true, decide_eq_true_eq] at this
          exact this.1
        simp [adopted_of_waits hw, hnone, h.symm]
      · rw [adopted_of_not_waits hw]
    by_cases he : e.link = some key'
    · simpa [linkedTo, he, hlink.2 he] using ih
    · simpa [linkedTo, he, hlink] using ih

/-- The entries left without a link are those that did not wait. -/
theorem linkedTo_none_map_adopted (ds : List Binding) (key : BindingKey) (L : List UseEntry) :
    linkedTo none (L.map (adopted ds key))
      = (L.filter fun e => e.link = none && !e.waits ds key).map (·.id) := by
  induction L with
  | nil => rfl
  | cons e L ih =>
    by_cases hw : e.waits ds key
    · simpa [linkedTo, adopted_of_waits hw, hw] using ih
    · by_cases he : e.link = none
      · simpa [linkedTo, adopted_of_not_waits hw, hw, he] using ih
      · simpa [linkedTo, adopted_of_not_waits hw, hw, he] using ih

end UseEntry

namespace Scope

/-- **A scope keeps a ledger**: its lists of uses, its links and its places say of every use what
the ledger says, and of no other use anything. -/
structure Keeps (s : Scope) (L : List UseEntry) : Prop where
  /-- No two bindings have the same frame and name. -/
  keys_nodup : (s.bindings.map Binding.key).Nodup
  /-- Every use has one entry. -/
  numbers_nodup : (L.map UseEntry.number).Nodup
  /-- The uses of a binding are the entries linked to it. -/
  uses : ∀ b ∈ s.bindings, b.uses.Perm (UseEntry.linkedTo (some b.key) L)
  /-- The uses without a binding are the entries without a link. -/
  unresolved : s.unresolved.Perm (UseEntry.linkedTo none L)
  /-- Entries are linked to bindings of the scope. -/
  bound : ∀ e ∈ L, ∀ key, e.link = some key → key ∈ s.bindings.map Binding.key
  /-- The links say what the entries say. -/
  links : ∀ e ∈ L, s.linkOf? e.number = e.link
  /-- What has no entry has no link. -/
  link_none : ∀ n, n ∉ L.map UseEntry.number → s.linkOf? n = none
  /-- The places say what the entries say. -/
  places : ∀ e ∈ L, s.placeOf e.number = e.chain

/-! ### What the single changes do -/

@[simp] theorem bindings_reserve (s : Scope) (name : String) :
    (s.reserve name).bindings = s.bindings := by
  rw [reserve]
  split <;> rfl

@[simp] theorem unresolved_reserve (s : Scope) (name : String) :
    (s.reserve name).unresolved = s.unresolved := by
  rw [reserve]
  split <;> rfl

@[simp] theorem places_reserve (s : Scope) (name : String) :
    (s.reserve name).places = s.places := by
  rw [reserve]
  split <;> rfl

@[simp] theorem links_reserve (s : Scope) (name : String) : (s.reserve name).links = s.links := by
  rw [reserve]
  split <;> rfl

@[simp] theorem linkOf?_reserve (s : Scope) (name : String) (n : Nat) :
    (s.reserve name).linkOf? n = s.linkOf? n := by
  rw [linkOf?, links_reserve, linkOf?]

@[simp] theorem placeOf_reserve (s : Scope) (name : String) (n : Nat) :
    (s.reserve name).placeOf n = s.placeOf n := by
  rw [placeOf, places_reserve, placeOf]

@[simp] theorem declared_reserve (s : Scope) (name : String) :
    (s.reserve name).declared = s.declared := by
  rw [declared, bindings_reserve, declared]

@[simp] theorem hasName_reserve (s : Scope) (name name' : String) :
    (s.reserve name).hasName name' = (s.hasName name' || name' = name) := by
  rw [reserve]
  split
  · rename_i h
    by_cases hn : name' = name
    · subst hn
      simp [h]
    · simp [hn]
  · simp [hasName]

@[simp] theorem bindings_place (s : Scope) (chain : Chain) (id : Identifier) :
    (s.place chain id).bindings = s.bindings := rfl

@[simp] theorem unresolved_place (s : Scope) (chain : Chain) (id : Identifier) :
    (s.place chain id).unresolved = s.unresolved := rfl

@[simp] theorem linkOf?_place (s : Scope) (chain : Chain) (id : Identifier) (n : Nat) :
    (s.place chain id).linkOf? n = s.linkOf? n := rfl

@[simp] theorem declared_place (s : Scope) (chain : Chain) (id : Identifier) :
    (s.place chain id).declared = s.declared := rfl

@[simp] theorem hasName_place (s : Scope) (chain : Chain) (id : Identifier) (name : String) :
    (s.place chain id).hasName name = s.hasName name := rfl

@[simp] theorem placeOf_place_self (s : Scope) (chain : Chain) (id : Identifier) :
    (s.place chain id).placeOf id.origin.id = chain := by
  simp [place, placeOf]

theorem placeOf_place_of_ne (s : Scope) (chain : Chain) {id : Identifier} {n : Nat}
    (h : id.origin.id ≠ n) : (s.place chain id).placeOf n = s.placeOf n := by
  simp [place, placeOf, h]

@[simp] theorem declared_addUses (s : Scope) (key : BindingKey) (ids : List Identifier) :
    (s.addUses key ids).declared = s.declared := by
  simp only [declared, addUses, List.map_map]
  refine List.map_congr_left fun b _ => ?_
  by_cases h : b.key = key <;> simp [h, Binding.bare]

@[simp] theorem unresolved_addUses (s : Scope) (key : BindingKey) (ids : List Identifier) :
    (s.addUses key ids).unresolved = s.unresolved := rfl

@[simp] theorem placeOf_addUses (s : Scope) (key : BindingKey) (ids : List Identifier) (n : Nat) :
    (s.addUses key ids).placeOf n = s.placeOf n := rfl

@[simp] theorem hasName_addUses (s : Scope) (key : BindingKey) (ids : List Identifier)
    (name : String) : (s.addUses key ids).hasName name = s.hasName name := rfl

@[simp] theorem keys_addUses (s : Scope) (key : BindingKey) (ids : List Identifier) :
    (s.addUses key ids).bindings.map Binding.key = s.bindings.map Binding.key := by
  simp only [addUses, List.map_map]
  refine List.map_congr_left fun b _ => ?_
  rw [Function.comp_apply]
  by_cases h : b.key = key
  · rw [if_pos h]
    rfl
  · rw [if_neg h]

theorem linkOf?_addUses_of_mem (s : Scope) (key : BindingKey) {ids : List Identifier} {n : Nat}
    (h : n ∈ ids.map (·.origin.id)) : (s.addUses key ids).linkOf? n = some key := by
  rw [linkOf?, addUses]
  induction ids with
  | nil => simp at h
  | cons id ids ih =>
    by_cases hid : id.origin.id = n
    · simp [hid]
    · have hmem : n ∈ ids.map (·.origin.id) := by
        simpa [Ne.symm hid] using h
      simpa [hid] using ih hmem

theorem linkOf?_addUses_of_notMem (s : Scope) (key : BindingKey) {ids : List Identifier} {n : Nat}
    (h : n ∉ ids.map (·.origin.id)) : (s.addUses key ids).linkOf? n = s.linkOf? n := by
  rw [linkOf?, addUses, linkOf?]
  congr 1
  rw [List.find?_append]
  have : (ids.map fun id => (id.origin.id, key)).find? (fun e => decide (e.1 = n)) = none := by
    simpa using h
  rw [this, Option.none_or]

/-- A binding after further uses were given to the binding with a key. -/
theorem mem_bindings_addUses {s : Scope} {key : BindingKey} {ids : List Identifier} {b : Binding}
    (h : b ∈ (s.addUses key ids).bindings) :
    ∃ c ∈ s.bindings, c.key = b.key ∧ b.uses = if c.key = key then c.uses ++ ids else c.uses := by
  obtain ⟨c, hc, rfl⟩ := List.mem_map.1 h
  refine ⟨c, hc, ?_, ?_⟩
  · by_cases hk : c.key = key
    · rw [if_pos hk]
      rfl
    · rw [if_neg hk]
  · by_cases hk : c.key = key
    · rw [if_pos hk, if_pos hk]
    · rw [if_neg hk, if_neg hk]

namespace Keeps

variable {s : Scope} {L : List UseEntry}

/-! ### What a ledger fixes -/

/-- The order of a ledger is of no account. -/
theorem perm (h : s.Keeps L) {L' : List UseEntry} (hp : L.Perm L') : s.Keeps L' where
  keys_nodup := h.keys_nodup
  numbers_nodup := (hp.map _).nodup_iff.1 h.numbers_nodup
  uses b hb := (h.uses b hb).trans (UseEntry.linkedTo_perm hp _)
  unresolved := h.unresolved.trans (UseEntry.linkedTo_perm hp _)
  bound e he := h.bound e (hp.mem_iff.2 he)
  links e he := h.links e (hp.mem_iff.2 he)
  link_none n hn := h.link_none n fun hm => hn ((hp.map _).mem_iff.1 hm)
  places e he := h.places e (hp.mem_iff.2 he)

/-- An entry is told by its number. -/
theorem eq_of_number_eq (h : s.Keeps L) {e e' : UseEntry} (he : e ∈ L) (he' : e' ∈ L)
    (hn : e.number = e'.number) : e = e' :=
  List.inj_on_of_nodup_map h.numbers_nodup he he' hn

/-- The binding with the key of a binding is that binding. -/
theorem inFrame?_of_mem (h : s.Keeps L) {b : Binding} (hb : b ∈ s.bindings) :
    s.inFrame? b.frame b.name = some b := by
  cases hf : s.inFrame? b.frame b.name with
  | none =>
    rw [inFrame?, List.find?_eq_none] at hf
    exact absurd (decide_eq_true rfl) (hf b hb)
  | some c =>
    rw [inFrame?_eq_first?] at hf
    rw [List.inj_on_of_nodup_map h.keys_nodup (Binding.mem_of_first? hf) hb
      (Binding.key_of_first? hf)]

/-- **The binding that a use has** is the one that its entry is linked to. -/
theorem bindingOf?_eq (h : s.Keeps L) {e : UseEntry} (he : e ∈ L) :
    s.bindingOf? e.number = e.link.bind fun key => s.inFrame? key.1 key.2 := by
  rw [bindingOf?, h.links e he]

/-- What an unlinked identifier means is worked out at its place. -/
theorem means_iff (h : s.Keeps L) {e : UseEntry} (he : e ∈ L) (b : Binding) :
    s.means b e.id ↔ e.meaning s.declared = some b.key := by
  have hplace : s.placeOf e.id.origin.id = e.chain := h.places e he
  rw [means, hplace, UseEntry.meaning, ← key_lookup?]
  cases hl : s.lookup? e.chain e.id.name with
  | none => simp
  | some c =>
    rw [lookup?_eq_resolve?] at hl
    have hname : c.name = e.id.name := Binding.name_of_resolve? hl
    have himp : c.key = b.key → e.id.name = b.name := fun hk =>
      hname.symm.trans (congrArg Prod.snd hk)
    simpa using himp

/-! ### How the operations of a scope keep it -/

theorem reserve (h : s.Keeps L) (name : String) : (s.reserve name).Keeps L where
  keys_nodup := by simpa using h.keys_nodup
  numbers_nodup := h.numbers_nodup
  uses := by simpa using h.uses
  unresolved := by simpa using h.unresolved
  bound := by simpa using h.bound
  links := by simpa using h.links
  link_none := by simpa using h.link_none
  places := by simpa using h.places

theorem place (h : s.Keeps L) (chain : Chain) {id : Identifier}
    (hid : id.origin.id ∉ L.map UseEntry.number) : (s.place chain id).Keeps L where
  keys_nodup := h.keys_nodup
  numbers_nodup := h.numbers_nodup
  uses := h.uses
  unresolved := h.unresolved
  bound := h.bound
  links := h.links
  link_none := h.link_none
  places e he := by
    have hne : id.origin.id ≠ e.number := fun hc => hid (hc ▸ List.mem_map_of_mem he)
    rw [placeOf_place_of_ne _ _ hne, h.places e he]

/-- A new binding leaves the ledger alone. -/
theorem addBinding (h : s.Keeps L) {b : Binding} (hb : b.key ∉ s.bindings.map Binding.key)
    (huses : b.uses = []) : ({ s with bindings := s.bindings ++ [b] } : Scope).Keeps L where
  keys_nodup := by
    rw [List.map_append, List.nodup_append]
    exact ⟨h.keys_nodup, by simp, by simpa using hb⟩
  numbers_nodup := h.numbers_nodup
  uses c hc := by
    rcases List.mem_append.1 hc with hc | hc
    · exact h.uses c hc
    · rw [List.mem_singleton.1 hc, huses, UseEntry.linkedTo_eq_nil]
      exact fun e he hlink => hb (h.bound e he _ hlink)
  unresolved := h.unresolved
  bound e he key hkey := by
    rw [List.map_append]
    exact List.mem_append_left _ (h.bound e he key hkey)
  links := h.links
  link_none := h.link_none
  places := h.places

theorem declare (h : s.Keeps L) (chain : Chain) {id : Identifier} (kind : BindingKind)
    (declaration : Origin) (hid : id.origin.id ∉ L.map UseEntry.number) :
    (s.declare chain id kind declaration).Keeps L := by
  have h' : ((s.reserve id.name).place chain id).Keeps L := (h.reserve id.name).place chain hid
  rw [Scope.declare]
  split
  · exact h'
  · rename_i hnone
    refine h'.addBinding (fun hmem => hnone ?_) rfl
    obtain ⟨c, hc, hkey⟩ := List.mem_map.1 hmem
    rw [inFrame?_eq_first?, Binding.first?_isSome_iff]
    exact ⟨c, hc, hkey⟩

/-- A linked use is a new entry, linked to what its name means. -/
theorem link (h : s.Keeps L) {chain : Chain} {id : Identifier}
    (hid : id.origin.id ∉ L.map UseEntry.number) (hplace : s.placeOf id.origin.id = chain) :
    (s.link chain id).Keeps
      (L ++ [⟨chain, id, (Binding.resolve? s.declared chain id.name).map Binding.key⟩]) := by
  have hne : ∀ e ∈ L, e.number ≠ id.origin.id := fun e he hc => hid (hc ▸ List.mem_map_of_mem he)
  have hnumbers (link : Option BindingKey) :
      ((L ++ [(⟨chain, id, link⟩ : UseEntry)]).map UseEntry.number).Nodup := by
    rw [List.map_append, List.nodup_append]
    exact ⟨h.numbers_nodup, by simp, by simpa [UseEntry.number] using hne⟩
  rw [← key_lookup?, Scope.link]
  cases hl : s.lookup? chain id.name with
  | none =>
    -- the name means nothing: the bindings and the links stay, the entry is an unresolved one
    exact
      { keys_nodup := h.keys_nodup
        numbers_nodup := hnumbers none
        uses := fun b hb => by simpa [UseEntry.linkedTo] using h.uses b hb
        unresolved := by simpa [UseEntry.linkedTo] using h.unresolved.append_right [id]
        bound := List.forall_mem_append.2 ⟨h.bound, List.forall_mem_singleton.2 nofun⟩
        links := List.forall_mem_append.2
          ⟨h.links, List.forall_mem_singleton.2 (h.link_none _ hid)⟩
        link_none := fun n hn => h.link_none n fun hm => hn (by simp [hm])
        places := List.forall_mem_append.2 ⟨h.places, List.forall_mem_singleton.2 hplace⟩ }
  | some b =>
    -- the entry joins those of its binding, and no other number changes its link
    have hb : b ∈ s.bindings := Binding.mem_of_resolve? (lookup?_eq_resolve? _ _ _ ▸ hl)
    refine
      { keys_nodup := by simpa using h.keys_nodup
        numbers_nodup := hnumbers (some b.key)
        uses := fun c hc => ?_
        unresolved := by simpa [UseEntry.linkedTo] using h.unresolved
        bound := ?_
        links := List.forall_mem_append.2 ⟨fun e he => ?_, List.forall_mem_singleton.2 ?_⟩
        link_none := fun n hn => ?_
        places := List.forall_mem_append.2
          ⟨fun e he => (placeOf_addUses ..).trans (h.places e he),
            List.forall_mem_singleton.2 ((placeOf_addUses ..).trans hplace)⟩ }
    · obtain ⟨c', hc', hkey, huses⟩ := mem_bindings_addUses hc
      rw [huses, ← hkey, UseEntry.linkedTo_append]
      by_cases hk : c'.key = b.key
      · rw [if_pos hk]
        simpa [UseEntry.linkedTo, hk] using (h.uses c' hc').append_right [id]
      · rw [if_neg hk]
        simpa [UseEntry.linkedTo, Ne.symm hk] using h.uses c' hc'
    · rw [keys_addUses]
      refine List.forall_mem_append.2 ⟨h.bound, List.forall_mem_singleton.2 fun key hkey => ?_⟩
      rw [← Option.some.inj hkey]
      exact List.mem_map_of_mem hb
    · rw [linkOf?_addUses_of_notMem _ _ (by simpa using hne e he), h.links e he]
    · exact linkOf?_addUses_of_mem _ _ (by simp [UseEntry.number])
    · rw [List.map_append, List.mem_append, not_or] at hn
      rw [linkOf?_addUses_of_notMem _ _ (by simpa [UseEntry.number] using hn.2), h.link_none n hn.1]

theorem addUse (h : s.Keeps L) (chain : Chain) {id : Identifier}
    (hid : id.origin.id ∉ L.map UseEntry.number) :
    (s.addUse chain id).Keeps
      (L ++ [⟨chain, id, (Binding.resolve? s.declared chain id.name).map Binding.key⟩]) := by
  have h' : ((s.reserve id.name).place chain id).Keeps L := (h.reserve id.name).place chain hid
  rw [Scope.addUse]
  simpa using h'.link hid (placeOf_place_self _ _ _)

end Keeps

end Scope

end MessageBinder
