import Mathlib.Data.List.Basic
import MessageBinder.Scope.Walk

/-!
# What a name means

A scope answers look-ups from a list of bindings that grows and whose uses move about. For what a
name *means* the uses are of no account, and neither is a second declaration of a name in a frame.
This file strips both away: from a list of declared bindings, in the order in which they were
declared, `MessageBinder.Binding.first?` takes the first with a given frame and name, and
`MessageBinder.Binding.resolve?` takes the first along a chain of frames. A scope looks up exactly
this in its own bindings (`MessageBinder.Scope.bare_lookup?`), so that two scopes whose declared
bindings agree frame by frame give every name the same meaning.
-/

namespace MessageBinder

namespace Binding

/-- The binding without its uses: what the declaration alone says. -/
def bare (b : Binding) : Binding := { b with uses := [] }

@[simp] theorem bare_key (b : Binding) : b.bare.key = b.key := rfl

@[simp] theorem bare_identifier (b : Binding) : b.bare.identifier = b.identifier := rfl

@[simp] theorem bare_bare (b : Binding) : b.bare.bare = b.bare := rfl

/-- The first of several declared bindings with the given frame and name. -/
def first? (ds : List Binding) (key : BindingKey) : Option Binding := ds.find? (·.key = key)

/-- What a name means in a chain: its first declaration in the first frame that declares it. -/
def resolve? (ds : List Binding) (chain : Chain) (name : String) : Option Binding :=
  chain.findSome? fun frame => first? ds (frame, name)

/-! ### The first declaration in a frame -/

@[simp] theorem first?_nil (key : BindingKey) : first? [] key = none := rfl

theorem first?_append (ds es : List Binding) (key : BindingKey) :
    first? (ds ++ es) key = (first? ds key).or (first? es key) := by
  rw [first?, List.find?_append]
  rfl

theorem key_of_first? {ds : List Binding} {key : BindingKey} {b : Binding}
    (h : first? ds key = some b) : b.key = key := by
  simpa using List.find?_some h

theorem mem_of_first? {ds : List Binding} {key : BindingKey} {b : Binding}
    (h : first? ds key = some b) : b ∈ ds :=
  List.mem_of_find?_eq_some h

theorem first?_eq_none_iff {ds : List Binding} {key : BindingKey} :
    first? ds key = none ↔ ∀ b ∈ ds, b.key ≠ key := by
  simp [first?]

theorem first?_isSome_iff {ds : List Binding} {key : BindingKey} :
    (first? ds key).isSome ↔ ∃ b ∈ ds, b.key = key := by
  simp [first?]

/-- Declarations with other keys do not matter. -/
theorem first?_append_of_forall_ne {ds es : List Binding} {key : BindingKey}
    (h : ∀ b ∈ es, b.key ≠ key) : first? (ds ++ es) key = first? ds key := by
  rw [first?_append, first?_eq_none_iff.2 h, Option.or_none]

theorem append_first?_of_forall_ne {ds es : List Binding} {key : BindingKey}
    (h : ∀ b ∈ ds, b.key ≠ key) : first? (ds ++ es) key = first? es key := by
  rw [first?_append, first?_eq_none_iff.2 h, Option.none_or]

/-- **The first declaration counts**: what is declared already stays what it is. -/
theorem first?_append_of_isSome {ds es : List Binding} {key : BindingKey}
    (h : (first? ds key).isSome) : first? (ds ++ es) key = first? ds key := by
  obtain ⟨b, hb⟩ := Option.isSome_iff_exists.1 h
  rw [first?_append, hb, Option.some_or]

theorem first?_map_bare (ds : List Binding) (key : BindingKey) :
    first? (ds.map bare) key = (first? ds key).map bare := by
  rw [first?, List.find?_map]
  rfl

/-! ### Along a chain -/

theorem resolve?_cons (ds : List Binding) (frame : Frame) (chain : Chain) (name : String) :
    resolve? ds (frame :: chain) name = (first? ds (frame, name)).or (resolve? ds chain name) := by
  rw [resolve?, List.findSome?_cons]
  cases h : first? ds (frame, name) with
  | none => rfl
  | some b => rfl

/-- **The meaning of a name is a matter of the frames around it.** -/
theorem resolve?_congr {ds es : List Binding} {chain : Chain} {name : String}
    (h : ∀ frame ∈ chain, first? ds (frame, name) = first? es (frame, name)) :
    resolve? ds chain name = resolve? es chain name := by
  induction chain with
  | nil => rfl
  | cons frame chain ih =>
    rw [resolve?_cons, resolve?_cons, h frame (by simp), ih fun f hf => h f (by simp [hf])]

/-- A declaration in a frame that does not surround a place does not change what a name means
there. -/
theorem resolve?_append_of_frame_notMem {ds es : List Binding} {chain : Chain} {name : String}
    (h : ∀ b ∈ es, b.frame ∉ chain) : resolve? (ds ++ es) chain name = resolve? ds chain name := by
  refine resolve?_congr fun frame hf => first?_append_of_forall_ne fun b hb hkey => ?_
  have hframe : b.frame = frame := congrArg Prod.fst hkey
  exact h b hb (hframe ▸ hf)

/-- **Late declarations in the module.** Declarations in the last frame of a chain and in frames
that are not around give a meaning to a name that had none, and to no other. -/
theorem resolve?_append_last {ds es : List Binding} {last : Frame} {pre : Chain} {name : String}
    (hlast : last ∉ pre) (h : ∀ b ∈ es, b.frame = last ∨ b.frame ∉ pre) :
    resolve? (ds ++ es) (pre ++ [last]) name
      = (resolve? ds (pre ++ [last]) name).or (first? es (last, name)) := by
  induction pre with
  | nil =>
    rw [List.nil_append, resolve?_cons, resolve?_cons, first?_append]
    simp [resolve?]
  | cons frame pre ih =>
    rw [List.mem_cons, not_or] at hlast
    obtain ⟨hne, hlast'⟩ := hlast
    have hframe : first? (ds ++ es) (frame, name) = first? ds (frame, name) := by
      refine first?_append_of_forall_ne fun b hb hkey => ?_
      have hbf : b.frame = frame := congrArg Prod.fst hkey
      rcases h b hb with hb' | hb'
      · exact hne (hb'.symm.trans hbf)
      · exact hb' (hbf ▸ List.mem_cons_self)
    have hrest := ih hlast' fun b hb =>
      (h b hb).imp_right fun hn hm => hn (List.mem_cons_of_mem _ hm)
    rw [List.cons_append, resolve?_cons, resolve?_cons, hframe, hrest, Option.or_assoc]

theorem resolve?_eq_none_iff {ds : List Binding} {chain : Chain} {name : String} :
    resolve? ds chain name = none ↔ ∀ frame ∈ chain, first? ds (frame, name) = none := by
  simp [resolve?]

/-- What a name means is one of the declared bindings, of that name and in a frame around. -/
theorem resolve?_eq_some {ds : List Binding} {chain : Chain} {name : String} {b : Binding}
    (h : resolve? ds chain name = some b) :
    ∃ frame ∈ chain, first? ds (frame, name) = some b ∧ b.key = (frame, name) := by
  obtain ⟨frame, hf, hb⟩ := List.exists_of_findSome?_eq_some h
  exact ⟨frame, hf, hb, key_of_first? hb⟩

theorem name_of_resolve? {ds : List Binding} {chain : Chain} {name : String} {b : Binding}
    (h : resolve? ds chain name = some b) : b.name = name := by
  obtain ⟨_, _, _, hkey⟩ := resolve?_eq_some h
  exact congrArg Prod.snd hkey

/-- What a name means has a key with the name. -/
theorem eq_of_key_resolve? {ds : List Binding} {chain : Chain} {name : String} {key : BindingKey}
    (h : (resolve? ds chain name).map Binding.key = some key) : name = key.2 := by
  obtain ⟨b, hb, rfl⟩ := Option.map_eq_some_iff.1 h
  exact (name_of_resolve? hb).symm

theorem mem_of_resolve? {ds : List Binding} {chain : Chain} {name : String} {b : Binding}
    (h : resolve? ds chain name = some b) : b ∈ ds := by
  obtain ⟨_, _, hb, _⟩ := resolve?_eq_some h
  exact mem_of_first? hb

/-- What a name means is what its key finds. -/
theorem first?_key_of_resolve? {ds : List Binding} {chain : Chain} {name : String} {b : Binding}
    (h : resolve? ds chain name = some b) : first? ds b.key = some b := by
  obtain ⟨_, _, hb, hkey⟩ := resolve?_eq_some h
  rw [hkey, hb]

/-- A binding that alone has its name is what the name means wherever its frame is around. -/
theorem resolve?_of_forall_eq {ds : List Binding} {chain : Chain} {b : Binding} (hb : b ∈ ds)
    (hframe : b.frame ∈ chain) (h : ∀ b' ∈ ds, b'.name = b.name → b' = b) :
    resolve? ds chain b.name = some b := by
  cases hr : resolve? ds chain b.name with
  | none => exact absurd rfl (first?_eq_none_iff.1 (resolve?_eq_none_iff.1 hr b.frame hframe) b hb)
  | some b' => rw [h b' (mem_of_resolve? hr) (name_of_resolve? hr)]

theorem resolve?_map_bare (ds : List Binding) (chain : Chain) (name : String) :
    resolve? (ds.map bare) chain name = (resolve? ds chain name).map bare := by
  induction chain with
  | nil => rfl
  | cons frame chain ih =>
    rw [resolve?_cons, resolve?_cons, first?_map_bare, ih]
    cases first? ds (frame, name) <;> simp

end Binding

namespace Scope

/-- The bindings of a scope without their uses. -/
def declared (s : Scope) : List Binding := s.bindings.map Binding.bare

theorem inFrame?_eq_first? (s : Scope) (frame : Frame) (name : String) :
    s.inFrame? frame name = Binding.first? s.bindings (frame, name) := rfl

theorem lookup?_eq_resolve? (s : Scope) (chain : Chain) (name : String) :
    s.lookup? chain name = Binding.resolve? s.bindings chain name := rfl

theorem bare_inFrame? (s : Scope) (frame : Frame) (name : String) :
    (s.inFrame? frame name).map Binding.bare = Binding.first? s.declared (frame, name) :=
  (Binding.first?_map_bare s.bindings (frame, name)).symm

/-- **A scope looks up what the name means in its bindings.** -/
theorem bare_lookup? (s : Scope) (chain : Chain) (name : String) :
    (s.lookup? chain name).map Binding.bare = Binding.resolve? s.declared chain name :=
  (Binding.resolve?_map_bare s.bindings chain name).symm

theorem key_lookup? (s : Scope) (chain : Chain) (name : String) :
    (s.lookup? chain name).map Binding.key
      = (Binding.resolve? s.declared chain name).map Binding.key := by
  rw [← bare_lookup?, Option.map_map]
  rfl

theorem isSome_inFrame? (s : Scope) (frame : Frame) (name : String) :
    (s.inFrame? frame name).isSome = (Binding.first? s.declared (frame, name)).isSome := by
  rw [← bare_inFrame?, Option.isSome_map]

end Scope

end MessageBinder
