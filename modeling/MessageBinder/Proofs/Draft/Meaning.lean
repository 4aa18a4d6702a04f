import MessageBinder.Proofs.Draft.Rebinding

/-!
# What a pass does to every use

After a pass the names of a module are looked at afresh, as if the module had just been read. Every
use that meant a specifier which a target matches means the constant of that specifier, which holds
the specifier bound to the messages, and the constant is the only one to use the specifier still.
Every other use means what it meant (`MessageBinder.Module.rebound_of_bindMessages`).

Nothing is assumed of the nesting of functions and blocks around a use. What is needed is that the
declarations of the module itself have different names and that the targets differ.
-/

namespace MessageBinder

/-! ### Meeting specifiers once -/

/-- The specifiers of an import. -/
def Stmt.specifiers : Stmt → List ImportSpecifier
  | .importDecl specifiers _ _ => specifiers
  | _ => []

theorem Stmt.bindings_specifiers_sublist (stmt : Stmt) :
    (stmt.specifiers.map ImportSpecifier.binding).Sublist stmt.identifiers := by
  cases stmt with
  | importDecl specifiers source o => exact List.Sublist.refl _
  | _ => exact List.nil_sublist _

namespace Target

variable {m : Module} {targets : List Target}

theorem specifiers_sublist (t : Target) (stmt : Stmt) :
    (t.specifiers stmt).Sublist stmt.specifiers := by
  cases stmt with
  | importDecl ss source o =>
    rw [specifiers]
    split
    · exact List.filter_sublist
    · exact List.nil_sublist _
  | _ => exact List.nil_sublist _

/-- A target is known by what it matches. -/
theorem eq_of_mem_specifiers {t t' : Target} {stmt : Stmt} {s : ImportSpecifier}
    (h : s ∈ t.specifiers stmt) (h' : s ∈ t'.specifiers stmt) : t = t' := by
  cases stmt with
  | importDecl ss source o =>
    rw [specifiers] at h h'
    split at h
    case isFalse => cases h
    split at h'
    case isFalse => cases h'
    rename_i hmodule hmodule'
    have hfunction := List.of_mem_filter h
    have hfunction' := List.of_mem_filter h'
    cases s with
    | named exported binding o' =>
      simp only [matchesImport, decide_eq_true_eq] at hfunction hfunction'
      cases t
      cases t'
      simp_all
    | default binding o' => cases hfunction
    | all binding o' => cases hfunction
  | _ => cases h

/-- **No specifier is met twice**, not even under another target. -/
theorem nodup_allSpecifiers (hm : m.Numbered) (htargets : targets.Nodup) :
    ((allSpecifiers targets m.body).map ImportSpecifier.binding).Nodup := by
  have hids : (m.body.flatMap Stmt.identifiers).Nodup := by
    rw [← Stmt.identifiersList_eq_flatMap]
    exact List.Nodup.of_map _ hm.distinct.identifiers
  obtain ⟨heach, hapart⟩ := List.nodup_flatMap.1 hids
  have hbindings : ∀ t stmt, ((specifiers t stmt).map ImportSpecifier.binding).Sublist
      stmt.identifiers := fun t stmt =>
    ((specifiers_sublist t stmt).map _).trans stmt.bindings_specifiers_sublist
  simp only [allSpecifiers, List.map_flatMap]
  refine List.nodup_flatMap.2 ⟨fun stmt hstmt => ?_, hapart.imp ?_⟩
  · refine List.nodup_flatMap.2 ⟨fun t _ => (heach stmt hstmt).sublist (hbindings t stmt), ?_⟩
    refine htargets.imp fun {t t'} hne id hid hid' => ?_
    obtain ⟨s, hs, rfl⟩ := List.mem_map.1 hid
    obtain ⟨s', hs', heq⟩ := List.mem_map.1 hid'
    obtain rfl := List.inj_on_of_nodup_map
      ((heach stmt hstmt).sublist stmt.bindings_specifiers_sublist)
      ((specifiers_sublist t' stmt).subset hs') ((specifiers_sublist t stmt).subset hs) heq
    exact hne (eq_of_mem_specifiers hs hs')
  · -- specifiers of different statements are different identifiers
    intro stmt stmt' hdisjoint id hid hid'
    obtain ⟨t, -, hs⟩ := List.mem_flatMap.1 hid
    obtain ⟨t', -, hs'⟩ := List.mem_flatMap.1 hid'
    exact hdisjoint ((hbindings t stmt).subset hs) ((hbindings t' stmt').subset hs')

end Target

/-! ### What a use means -/

namespace Module

/-- The identifier that declares the use with a number, as a scope built from the module says. -/
def declarer? (m : Module) (n : Nat) : Option Identifier :=
  (m.scope.bindingOf? n).map Binding.identifier

/-- A scope built from a module says what names mean there. -/
theorem declarer?_eq {m : Module} (hm : Stmt.Distinct m.body) {c : Chain} {id : Identifier}
    (hu : (c, id) ∈ ScopeEvent.uses m.events) :
    m.declarer? id.origin.id
      = (Binding.resolve? (ScopeEvent.bindings m.events) c id.name).map Binding.identifier := by
  have hbinding := congrArg (Option.map Binding.identifier) ((records_scope hm).bindingOf? hu)
  rw [Option.map_map] at hbinding
  exact hbinding

/-- **A module is rebound** in another one by constants for specifiers that targets match: all uses
of a specifier are uses of its constant, and the other uses are what they were. -/
structure Rebound (m : Module) (targets : List Target) (rs : List Rebinding) (m' : Module) :
    Prop where
  /-- Constants are for specifiers of imports that targets match. -/
  imports : ∀ r ∈ rs, m.Imports r.stmt r.specifier ∧
    r.specifier ∈ Target.allSpecifiers targets m.body
  /-- No two constants are for the same specifier. -/
  specifiers : (rs.map (·.specifier.binding)).Nodup
  /-- Different constants are different statements. -/
  ids : (rs.map Rebinding.id).Nodup
  /-- The messages are in a constant in front. Behind the import of each specifier, with nothing but
  added statements between, is its constant, whose argument is declared there. -/
  placed : ∀ r ∈ rs, ∃ messages literal n front mid back,
    m'.body = Stmt.messagesConstant messages literal n :: front ++ r.stmt :: mid
      ++ r.constant messages :: back ∧
    (∀ s ∈ mid, m.next ≤ s.origin.id) ∧
    m'.declarer? (r.argument messages).origin.id = some (Stmt.addedId messages (n + 1))
  /-- What the constant binds is the specifier, of which that is the only use. -/
  function : ∀ r ∈ rs, r.function ∈ m'.uses ∧ ∀ u ∈ m'.uses,
    m'.declarer? u.origin.id = some r.specifier.binding ↔ u = r.function
  /-- Every specifier that a target matches and a use means has a constant. -/
  complete : ∀ u ∈ m.uses, ∀ s ∈ Target.allSpecifiers targets m.body,
    m.declarer? u.origin.id = some s.binding → ∃ r ∈ rs, r.specifier = s
  /-- What meant the specifier means the constant. -/
  bound : ∀ u ∈ m.uses, ∀ r ∈ rs, m.declarer? u.origin.id = some r.specifier.binding →
    { u with name := r.name } ∈ m'.uses ∧ m'.declarer? u.origin.id = some r.declared
  /-- What meant no such specifier has its name and means what it meant. -/
  unchanged : ∀ u ∈ m.uses, (∀ s ∈ Target.allSpecifiers targets m.body,
      m.declarer? u.origin.id ≠ some s.binding) →
    u ∈ m'.uses ∧ m'.declarer? u.origin.id = m.declarer? u.origin.id

end Module

/-! ### Names of a draft -/

theorem Stmt.mem_moduleEvents {ss : List Stmt} {s : Stmt} (hs : s ∈ ss) {e : ScopeEvent}
    (he : e ∈ moduleEvents [s]) : e ∈ moduleEvents ss := by
  obtain ⟨front, back, rfl⟩ := List.append_of_mem hs
  exact (moduleEvents_insert_perm front back s).subset (List.mem_append_right _ he)

theorem Draft.bindings_subset {d : Draft} {s : Stmt} (hs : s ∈ d.sequence.body) :
    ScopeEvent.bindings (Stmt.moduleEvents [s]) ⊆ ScopeEvent.bindings d.events := by
  intro b hb
  obtain ⟨c, id, kind, o, he, heq⟩ := ScopeEvent.mem_bindings.1 hb
  exact ScopeEvent.mem_bindings.2 ⟨c, id, kind, o, Stmt.mem_moduleEvents hs he, heq⟩

theorem Draft.uses_subset {d : Draft} {s : Stmt} (hs : s ∈ d.sequence.body) :
    ScopeEvent.uses (Stmt.moduleEvents [s]) ⊆ ScopeEvent.uses d.events := fun _ hu =>
  ScopeEvent.mem_uses.2 (Stmt.mem_moduleEvents hs (ScopeEvent.mem_uses.1 hu))

/-- The module is around every use. -/
theorem Draft.module_mem_chain {d : Draft} {c : Chain} {id : Identifier}
    (hu : (c, id) ∈ ScopeEvent.uses d.events) : .module ∈ c := by
  obtain ⟨pre, rfl, -⟩ := Stmt.chain_of_mem_uses hu
  simp

theorem Draft.mem_toModule_uses {d : Draft} {c : Chain} {id : Identifier}
    (hu : (c, id) ∈ ScopeEvent.uses d.events) : id ∈ d.toModule.uses := by
  rw [Module.uses, ← Stmt.uses_moduleEvents]
  exact List.mem_map_of_mem (f := Prod.snd) hu

/-- What a scope built from the module of a draft says. -/
theorem Draft.InOrder.declarer?_eq {d : Draft} (h : d.InOrder) {c : Chain} {id : Identifier}
    (hu : (c, id) ∈ ScopeEvent.uses d.events) :
    d.toModule.declarer? id.origin.id
      = (Binding.resolve? (ScopeEvent.bindings d.events) c id.name).map Binding.identifier :=
  Module.declarer?_eq h.numbered.distinct hu

namespace Rebinding

/-- The binding that a constant makes. -/
def madeBinding (r : Rebinding) : Binding :=
  ⟨r.name, .declared .const, r.declared, .synthetic r.id, .module, []⟩

variable {d : Draft} {r : Rebinding} {v : String}

theorem madeBinding_mem (h : r.constant v ∈ d.sequence.body) :
    r.madeBinding ∈ ScopeEvent.bindings d.events :=
  Draft.bindings_subset h (List.mem_singleton.2 rfl)

theorem uses_subset (h : r.constant v ∈ d.sequence.body) :
    [([.module], r.function), ([.module], r.argument v)] ⊆ ScopeEvent.uses d.events :=
  Draft.uses_subset h

end Rebinding

namespace Draft

variable {m : Module} {rs : List Rebinding} {d : Draft} {r : Rebinding} {v : String} {c : Chain}

/-- The name of a constant means it everywhere. -/
theorem Extends.declarer_constant (hext : d.Extends m []) (hr : r.constant v ∈ d.sequence.body)
    (hle : m.next ≤ r.id) (hc : .module ∈ c) :
    (Binding.resolve? (ScopeEvent.bindings d.events) c r.name).map Binding.identifier
      = some r.declared := by
  have hadded : m.next ≤ r.madeBinding.identifier.origin.id := Nat.le_add_right_of_le hle
  have hmeans := hext.resolve?_added (Rebinding.madeBinding_mem hr) rfl hadded hc
  rw [show r.name = r.madeBinding.name from rfl, hmeans]
  rfl

/-- The name of the variable means it everywhere. -/
theorem Extends.declarer_messages (hext : d.Extends m []) {messages : String} {literal : CodeText}
    {n : Nat} (hmem : Stmt.messagesConstant messages literal n ∈ d.sequence.body) (hle : m.next ≤ n)
    (hc : .module ∈ c) :
    (Binding.resolve? (ScopeEvent.bindings d.events) c messages).map Binding.identifier
      = some (Stmt.addedId messages (n + 1)) := by
  have hbinding := bindings_subset hmem (List.mem_singleton.2 rfl)
  have hadded : m.next ≤ (Stmt.addedId messages (n + 1)).origin.id := Nat.le_add_right_of_le hle
  exact congrArg (Option.map Binding.identifier) (hext.resolve?_added hbinding rfl hadded hc)

/-- The name of a specifier means it in the module. -/
theorem Tracks.declarer_specifier (h : d.Tracks m rs) (hnames : m.declaredNames.Nodup)
    {stmt : Stmt} {s : ImportSpecifier} (hs : m.Imports stmt s) :
    (Binding.resolve? (ScopeEvent.bindings d.events) [.module] s.binding.name).map
      Binding.identifier = some s.binding := by
  rw [h.resolve?_taken hs.hasName, Binding.resolve?_cons]
  change Option.map _ ((Binding.first? _ _).or none) = _
  rw [Option.or_none, hs.first?_eq hnames]
  rfl


end Draft

/-! ### Uses after a pass -/

namespace Draft.Tracks

variable {m : Module} {rs : List Rebinding} {d : Draft} {r : Rebinding}

/-- **What meant a specifier that was bound means its constant.** -/
theorem bound (h : d.Tracks m rs) (hext : d.Extends m []) (hm : m.Numbered)
    (hspecifiers : (rs.map (·.specifier.binding)).Nodup)
    (hconstants : ∀ r ∈ rs, m.next ≤ r.id ∧ ∃ v, r.constant v ∈ d.sequence.body)
    {u : Identifier} (hu : u ∈ m.uses) (hr : r ∈ rs)
    (hmeans : m.declarer? u.origin.id = some r.specifier.binding) :
    { u with name := r.name } ∈ d.toModule.uses ∧
      d.toModule.declarer? u.origin.id = some r.declared := by
  obtain ⟨c, hu⟩ := Stmt.exists_mem_uses hu
  rw [Module.declarer?_eq hm.distinct hu] at hmeans
  obtain ⟨b, hb, hid⟩ := Option.map_eq_some_iff.1 hmeans
  have hmeant := Rebinding.meant?_of_mem (u := (c, u)) hspecifiers hr hb hid
  have happlied := Rebinding.applied_of_meant? hmeant
  obtain ⟨more, hperm, -⟩ := h.uses
  have hthere : (c, { u with name := r.name }) ∈ ScopeEvent.uses d.events :=
    hperm.mem_iff.2 (List.mem_append_left _ (List.mem_map.2 ⟨_, hu, happlied⟩))
  obtain ⟨hle, v, hv⟩ := hconstants r hr
  refine ⟨mem_toModule_uses hthere, ?_⟩
  rw [← hext.declarer_constant hv hle (module_mem_chain hthere)]
  exact hext.inOrder.declarer?_eq hthere

/-- **What meant nothing that was bound means what it meant.** -/
theorem unchanged (h : d.Tracks m rs) (hext : d.Extends m []) (hm : m.Numbered) {u : Identifier}
    (hu : u ∈ m.uses)
    (hmeans : ∀ r ∈ rs, m.declarer? u.origin.id ≠ some r.specifier.binding) :
    u ∈ d.toModule.uses ∧ d.toModule.declarer? u.origin.id = m.declarer? u.origin.id := by
  obtain ⟨c, hu⟩ := Stmt.exists_mem_uses hu
  have hdeclarer := Module.declarer?_eq hm.distinct hu
  have hnone : Rebinding.meant? rs (ScopeEvent.bindings m.events) (c, u) = none := by
    refine Option.eq_none_iff_forall_ne_some.2 fun r hr => ?_
    obtain ⟨hmem, b, hb, hid⟩ := Rebinding.meant?_eq_some hr
    refine hmeans r hmem (hdeclarer.trans ?_)
    rw [hb, Option.map_some, hid]
  obtain ⟨more, hperm, -⟩ := h.uses
  have hthere : (c, u) ∈ ScopeEvent.uses d.events :=
    hperm.mem_iff.2 (List.mem_append_left _
      (List.mem_map.2 ⟨_, hu, Rebinding.applied_of_meant?_eq_none hnone⟩))
  refine ⟨mem_toModule_uses hthere, ?_⟩
  rw [hdeclarer, hext.inOrder.declarer?_eq hthere, h.resolve?_taken (Module.hasName_of_mem_uses hu)]

/-- **A specifier that was bound is used by its constant only.** -/
theorem function (h : d.Tracks m rs) (hext : d.Extends m []) (hm : m.Numbered)
    (hnames : m.declaredNames.Nodup) (hspecifiers : (rs.map (·.specifier.binding)).Nodup)
    (hconstants : ∀ r ∈ rs, m.next ≤ r.id ∧ ∃ v, r.constant v ∈ d.sequence.body) (hr : r ∈ rs) :
    r.function ∈ d.toModule.uses ∧ ∀ u ∈ d.toModule.uses,
      d.toModule.declarer? u.origin.id = some r.specifier.binding ↔ u = r.function := by
  have hfunction : ∀ r ∈ rs, r.function ∈ d.toModule.uses ∧
      d.toModule.declarer? r.function.origin.id = some r.specifier.binding := by
    intro r hr
    obtain ⟨-, v, hv⟩ := hconstants r hr
    have hthere := Rebinding.uses_subset hv (List.mem_cons_self ..)
    refine ⟨mem_toModule_uses hthere, ?_⟩
    rw [hext.inOrder.declarer?_eq hthere]
    exact h.declarer_specifier hnames (h.rebound r hr).1
  refine ⟨(hfunction r hr).1, fun u hu => ⟨fun hmeans => ?_, ?_⟩⟩
  · have hlt := (h.rebound r hr).1.binding_lt hm
    obtain ⟨c, hthere⟩ := Stmt.exists_mem_uses hu
    have hdeclarer := hmeans
    rw [hext.inOrder.declarer?_eq hthere] at hdeclarer
    obtain ⟨b, hb, hid⟩ := Option.map_eq_some_iff.1 hdeclarer
    obtain ⟨more, hperm, hmore⟩ := h.uses
    rcases List.mem_append.1 (hperm.mem_iff.1 hthere) with hold | hadded
    · -- the uses of the module that meant the specifier have another name
      obtain ⟨⟨c₀, u₀⟩, hu₀, happlied⟩ := List.mem_map.1 hold
      cases hmeant : Rebinding.meant? rs (ScopeEvent.bindings m.events) (c₀, u₀) with
      | some r' =>
        obtain ⟨hr', -⟩ := Rebinding.meant?_eq_some hmeant
        rw [Rebinding.applied_of_meant? hmeant] at happlied
        obtain ⟨rfl, rfl⟩ := Prod.mk.inj happlied
        obtain ⟨hle, v, hv⟩ := hconstants r' hr'
        have hconstant := hext.declarer_constant hv hle (module_mem_chain hthere)
        rw [hb, Option.map_some, hid, Option.some_inj] at hconstant
        have hnumber : r.specifier.binding.origin.id = r'.id + 1 := by rw [hconstant]; rfl
        omega
      | none =>
        rw [Rebinding.applied_of_meant?_eq_none hmeant] at happlied
        obtain ⟨rfl, rfl⟩ := Prod.mk.inj happlied
        rw [h.resolve?_taken (Module.hasName_of_mem_uses hu₀)] at hb
        rw [Rebinding.meant?_of_mem hspecifiers hr hb hid] at hmeant
        cases hmeant
    · rcases hmore _ hadded with hfree | ⟨r', hr', heq⟩
      · refine absurd ?_ hfree
        rw [← Binding.name_of_resolve? hb]
        exact hext.declared b (Binding.mem_of_resolve? hb) (hid ▸ hlt)
      · obtain rfl : u = r'.function := heq
        rw [(hfunction r' hr').2, Option.some_inj] at hmeans
        rw [List.inj_on_of_nodup_map hspecifiers hr' hr hmeans]
  · rintro rfl
    exact (hfunction r hr).2

end Draft.Tracks

/-! ### Whole passes -/

/-- At the start of a pass no specifier was met. -/
theorem Bench.Rebinds.ofModule {m : Module} (hm : m.Numbered) {path : Option String} {gate : Gate}
    (hgate : Gate.ofPath path = .ok gate) : Bench.Rebinds m [] [] ⟨.ofModule m, gate⟩ := by
  have hnone := (Gate.ofPath_eq_ok hgate).1
  refine ⟨⟨⟨0, Bench.extends_ofModule hm hgate⟩, Draft.tracks_ofModule m, ?_⟩,
    List.nodup_nil, List.nodup_nil, by simp, by simp⟩
  rw [hnone]
  exact Draft.placed_ofModule m

/-- **Closing the gate** puts the messages in front, where the constants find them. -/
theorem Bench.Rebinds.close {m : Module} {done : List ImportSpecifier} {rs : List Rebinding}
    {b b' : Bench} (h : b.Rebinds m done rs) (hm : m.Numbered) {catalogues : CatalogueSource}
    {injected : Bool} (hgives : (Gate.close catalogues).Gives b injected b') :
    b'.draft.Extends m [] ∧ b'.draft.Tracks m rs ∧
      ∀ r ∈ rs, ∃ messages literal n body,
        b'.draft.sequence.body = Stmt.messagesConstant messages literal n :: body ∧ m.next ≤ n ∧
        r.stmt ∈ body ∧ Stmt.Behind m.next r.stmt.origin.id (r.constant messages) body := by
  obtain ⟨k, hk⟩ := h.along.extended
  have hextends := (hk.close hgives).1
  rcases Gate.gives_close hgives with ⟨hzero, -, rfl⟩ |
    ⟨hpositive, -, literal, hdraft, -⟩
  · refine ⟨hextends, h.along.tracked, fun r hr => ?_⟩
    obtain ⟨v, hv, -⟩ := h.along.placed.constants r hr
    rw [hk.requests.1 hzero] at hv
    cases hv
  · obtain ⟨name, hname⟩ :=
      Option.ne_none_iff_exists'.1 fun hnone => hpositive (hk.requests.2 hnone)
    rw [hname, Option.getD_some, Draft.prepend_eq] at hdraft
    refine ⟨hextends, ?_, fun r hr => ?_⟩
    · rw [hdraft]
      refine h.along.tracked.insert hk.draft _ rfl (Stmt.messagesConstant_addedAt ..)
        (fun c hc => ?_) (by simp [Stmt.uses_messagesConstant])
      rw [Stmt.bindings_messagesConstant] at hc
      obtain rfl := List.mem_singleton.1 hc
      simp [hname]
    · obtain ⟨v, hv, hbehind⟩ := h.along.placed.constants r hr
      obtain rfl := Option.some.inj (hname.symm.trans hv)
      refine ⟨name, literal, b.draft.next, b.draft.sequence.body, ?_, hk.draft.next_le, ?_, hbehind⟩
      · rw [hdraft]
        rfl
      · exact (h.along.placed.mem_body hm (h.along.tracked.rebound r hr).1).1

namespace Module

/-- **Every use after a pass**: of a module whose declarations have different names, with targets
that differ, the pass makes one in which what a target matches is rebound and the rest is as it
was. -/
theorem rebound_of_bindMessages [CharacterNames] {text : String} {filename : Option String}
    {base : Nat} {m : Module} {targets : List Target} {catalogues : CatalogueSource}
    {path : Option String} {r : BoundModule} (hparse : parse text filename base = .ok m)
    (hnames : m.declaredNames.Nodup) (htargets : targets.Nodup)
    (hrun : (m.bindMessages targets catalogues path).run.1 = .ok r) :
    ∃ rs, m.Rebound targets rs r.draft.toModule := by
  have hm := numbered_of_parse hparse
  obtain ⟨gate, b₁, b₂, hgate, hstmts, hclose, hdraft, -⟩ := gives_bindMessages hrun
  obtain ⟨rs, h⟩ := (Bench.Rebinds.ofModule hm hgate).bindStmts hm hnames (List.Subset.refl _)
    (Target.nodup_allSpecifiers hm htargets) hstmts
  obtain ⟨hext, htracked, hfront⟩ := h.close hm hclose
  rw [← hdraft] at hext htracked hfront
  have hconstants : ∀ r' ∈ rs, m.next ≤ r'.id ∧ ∃ v, r'.constant v ∈ r.draft.sequence.body := by
    intro r' hr'
    obtain ⟨messages, literal, n, body, hbody, -, -, hbehind⟩ := hfront r' hr'
    exact ⟨(h.along.placed.bounds r' hr').1, messages,
      hbody ▸ List.mem_cons_of_mem _ hbehind.mem⟩
  refine ⟨rs, fun r' hr' => ⟨(htracked.rebound r' hr').1, h.met r' hr'⟩, h.specifiers, h.ids,
    fun r' hr' => ?_, fun r' hr' =>
      htracked.function hext hm hnames h.specifiers hconstants hr', fun u hu s hs hmeans => ?_,
    fun u hu r' hr' hmeans => htracked.bound hext hm h.specifiers hconstants hu hr' hmeans,
    fun u hu hmeans =>
      htracked.unchanged hext hm hu fun r' hr' => hmeans r'.specifier (h.met r' hr')⟩
  · obtain ⟨messages, literal, n, body, hbody, hle, hstmt, hbehind⟩ := hfront r' hr'
    obtain ⟨front, s, mid, back, hparts, hid, hmid⟩ := hbehind.exists_eq
    have hthere : s ∈ r.draft.sequence.body ∧ r'.stmt ∈ r.draft.sequence.body := by
      rw [hbody]
      exact ⟨by simp [hparts], List.mem_cons_of_mem _ hstmt⟩
    obtain rfl := hext.inOrder.stmt_inj hthere.1 hthere.2 hid
    refine ⟨messages, literal, n, front, mid, back, ?_, hmid, ?_⟩
    · rw [List.cons_append, List.cons_append, ← hparts]
      exact hbody
    · have hmem : r'.constant messages ∈ r.draft.sequence.body :=
        hbody ▸ List.mem_cons_of_mem _ hbehind.mem
      have huse := Rebinding.uses_subset hmem (List.mem_cons_of_mem _ (List.mem_singleton_self _))
      have hfirst : Stmt.messagesConstant messages literal n ∈ r.draft.sequence.body :=
        hbody ▸ List.mem_cons_self
      rw [hext.inOrder.declarer?_eq huse]
      exact hext.declarer_messages hfirst hle (List.mem_singleton_self _)
  · obtain ⟨c, hu⟩ := Stmt.exists_mem_uses hu
    rcases h.complete s hs with hbound | hunused
    · exact hbound
    · rw [declarer?_eq hm.distinct hu] at hmeans
      obtain ⟨b, hb, hid⟩ := Option.map_eq_some_iff.1 hmeans
      exact absurd hid (hunused _ hu b hb)

end Module

namespace Module

section

attribute [local instance] CharacterNames.nameless

/-- In `import { f } from "m"; f(); function g(f) { f() }` the first use means the constant, and the
one in the function is left alone. -/
theorem rebound_of_bindMessages_shadowed : ∃ m r rs,
    parse "import { f } from \"m\"; f(); function g(f) { f() }" none 0 = .ok m ∧
      m.declaredNames.Nodup ∧ [(⟨"f", "m"⟩ : Target)].Nodup ∧
      (m.bindMessages [⟨"f", "m"⟩] ⟨⟨[], ⟨.relative, []⟩⟩, "properties", fun _ => .ok [], none⟩
        (some "a.js")).run.1 = .ok r ∧
      m.Rebound [⟨"f", "m"⟩] rs r.draft.toModule ∧ rs ≠ [] := by
  have hruns : ((parse "import { f } from \"m\"; f(); function g(f) { f() }" none
      0).toOption.bind fun m => (m.bindMessages [⟨"f", "m"⟩]
        ⟨⟨[], ⟨.relative, []⟩⟩, "properties", fun _ => .ok [], none⟩
        (some "a.js")).run.1.toOption.filter fun _ => decide (m.declaredNames.Nodup ∧
          ∃ u ∈ m.uses, ∃ s ∈ Target.allSpecifiers [⟨"f", "m"⟩] m.body,
            m.declarer? u.origin.id = some s.binding)).isSome := by
    decide +kernel
  obtain ⟨r, hr⟩ := Option.isSome_iff_exists.1 hruns
  obtain ⟨m, hm, hr⟩ := Option.bind_eq_some_iff.1 hr
  obtain ⟨hr, hdecide⟩ := Option.filter_eq_some_iff.1 hr
  obtain ⟨hnames, u, hu, s, hs, hmeans⟩ := of_decide_eq_true hdecide
  have hparse := Except.eq_ok_of_toOption hm
  have hrun := Except.eq_ok_of_toOption hr
  obtain ⟨rs, hrebound⟩ := rebound_of_bindMessages hparse hnames (by decide) hrun
  obtain ⟨r', hr', -⟩ := hrebound.complete u hu s hs hmeans
  exact ⟨m, r, rs, hparse, hnames, by decide, hrun, hrebound, List.ne_nil_of_mem hr'⟩

end

end Module

end MessageBinder
