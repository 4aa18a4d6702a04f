import MessageBinder.Proofs.Draft.Filling

/-!
# When constants are there

A constant can be used once the statement that declares it has run. Bodies of functions run later,
and a list of exports does not read what it exports; every other use of a statement is evaluated
when the statement runs (`MessageBinder.Stmt.evaluated`).

The messages are in front of everything, and what a pass appends behind a re-export stands in the
order of its uses. The constant of an imported name stands behind the import, while the uses of the
name can be anywhere, since imports are there before any statement runs. So a use finds the constant
initialized exactly if it does not stand above the import that it means
(`MessageBinder.Module.initialized_of_bindMessages`).

That is told of modules that declare each name at their top once, and of targets that differ. Of a
name that is declared twice nothing is said, since there a name need not mean the import.
-/

namespace MessageBinder

/-! ### Uses that are evaluated -/

mutual

/-- The uses of an expression that are evaluated with it. -/
def Expr.evaluated : Expr → List Identifier
  | .name id => [id]
  | .literal .. | .verbatim .. => []
  | .array es _ => Expr.evaluatedList es
  | .object ps _ => Property.evaluatedList ps
  | .member e _ _ => e.evaluated
  | .index e i _ => e.evaluated ++ i.evaluated
  | .call f as _ => f.evaluated ++ Expr.evaluatedList as
  | .unary _ e _ => e.evaluated
  | .binary _ l r _ => l.evaluated ++ r.evaluated
  | .conditional t c a _ => t.evaluated ++ c.evaluated ++ a.evaluated
  | .assign _ t v _ => t.evaluated ++ v.evaluated
  | .group e _ => e.evaluated
  | .arrow .. | .arrowBlock .. => []

/-- The uses of expressions that are evaluated with them. -/
def Expr.evaluatedList : List Expr → List Identifier
  | [] => []
  | e :: es => e.evaluated ++ Expr.evaluatedList es

/-- The uses of properties that are evaluated with them. -/
def Property.evaluatedList : List Property → List Identifier
  | [] => []
  | ⟨_, v, _, _, _⟩ :: ps => v.evaluated ++ Property.evaluatedList ps

end

/-- The uses of variables that are evaluated with their declaration. -/
def Declarator.evaluatedList : List Declarator → List Identifier
  | [] => []
  | ⟨_, none, _⟩ :: ds => Declarator.evaluatedList ds
  | ⟨_, some e, _⟩ :: ds => e.evaluated ++ Declarator.evaluatedList ds

/-- The uses of a declaration that are evaluated with it. -/
def Declaration.evaluated : Declaration → List Identifier
  | .variables _ ds _ => Declarator.evaluatedList ds
  | .function .. => []

mutual

/-- The uses of a statement that are evaluated when it runs. -/
def Stmt.evaluated : Stmt → List Identifier
  | .importDecl .. | .exportNamed .. | .exportAll .. | .returnValue none _ => []
  | .exportDecl d _ | .declaration d => d.evaluated
  | .exportDefault e _ | .returnValue (some e) _ | .expr e _ => e.evaluated
  | .block ⟨body, _⟩ => Stmt.evaluatedList body
  | .ifThen t c none _ => t.evaluated ++ c.evaluated
  | .ifThen t c (some a) _ => t.evaluated ++ c.evaluated ++ a.evaluated

/-- The uses of statements that are evaluated when they run. -/
def Stmt.evaluatedList : List Stmt → List Identifier
  | [] => []
  | s :: ss => s.evaluated ++ Stmt.evaluatedList ss

end

mutual

theorem Expr.evaluated_sublist (e : Expr) : e.evaluated.Sublist e.uses := by
  match e with
  | .name _ => exact List.Sublist.refl _
  | .literal .. | .verbatim .. => exact List.Sublist.refl _
  | .array es _ => exact Expr.evaluatedList_sublist es
  | .object ps _ => exact Property.evaluatedList_sublist ps
  | .member e _ _ | .unary _ e _ | .group e _ => exact e.evaluated_sublist
  | .index e i _ | .binary _ e i _ | .assign _ e i _ =>
    exact e.evaluated_sublist.append i.evaluated_sublist
  | .call f as _ => exact f.evaluated_sublist.append (Expr.evaluatedList_sublist as)
  | .conditional t c a _ =>
    exact (t.evaluated_sublist.append c.evaluated_sublist).append a.evaluated_sublist
  | .arrow .. | .arrowBlock .. => exact List.nil_sublist _

theorem Expr.evaluatedList_sublist (es : List Expr) :
    (Expr.evaluatedList es).Sublist (Expr.usesList es) := by
  match es with
  | [] => exact List.Sublist.refl _
  | e :: es => exact e.evaluated_sublist.append (Expr.evaluatedList_sublist es)

theorem Property.evaluatedList_sublist (ps : List Property) :
    (Property.evaluatedList ps).Sublist (Property.usesList ps) := by
  match ps with
  | [] => exact List.Sublist.refl _
  | ⟨_, v, _, _, _⟩ :: ps => exact v.evaluated_sublist.append (Property.evaluatedList_sublist ps)

end

theorem Declarator.evaluatedList_sublist (ds : List Declarator) :
    (Declarator.evaluatedList ds).Sublist (Declarator.usesList ds) := by
  induction ds with
  | nil => exact List.Sublist.refl _
  | cons d ds ih =>
    obtain ⟨_, _ | e, _⟩ := d
    · exact ih
    · exact e.evaluated_sublist.append ih

theorem Declaration.evaluated_sublist (d : Declaration) : d.evaluated.Sublist d.uses := by
  cases d with
  | «variables» _ ds _ => exact Declarator.evaluatedList_sublist ds
  | function => exact List.nil_sublist _

mutual

/-- What is evaluated is used. -/
theorem Stmt.evaluated_sublist (s : Stmt) : s.evaluated.Sublist s.uses := by
  match s with
  | .importDecl .. | .exportNamed .. | .exportAll .. | .returnValue none _ =>
    exact List.nil_sublist _
  | .exportDecl d _ | .declaration d => exact d.evaluated_sublist
  | .exportDefault e _ | .returnValue (some e) _ | .expr e _ => exact e.evaluated_sublist
  | .block ⟨body, _⟩ => exact Stmt.evaluatedList_sublist body
  | .ifThen t c none _ => exact t.evaluated_sublist.append c.evaluated_sublist
  | .ifThen t c (some a) _ =>
    exact (t.evaluated_sublist.append c.evaluated_sublist).append a.evaluated_sublist

theorem Stmt.evaluatedList_sublist (ss : List Stmt) :
    (Stmt.evaluatedList ss).Sublist (Stmt.usesList ss) := by
  match ss with
  | [] => exact List.Sublist.refl _
  | s :: ss => exact s.evaluated_sublist.append (Stmt.evaluatedList_sublist ss)

end

section

variable (f : Identifier → Identifier)

mutual

theorem Expr.evaluated_mapIds (e : Expr) : (e.mapIds f).evaluated = e.evaluated.map f := by
  match e with
  | .name _ | .literal .. | .verbatim .. | .arrow .. | .arrowBlock .. => rfl
  | .array es _ => exact Expr.evaluatedList_mapIdsList es
  | .object ps _ => exact Property.evaluatedList_mapIdsList ps
  | .member e _ _ | .unary _ e _ | .group e _ => exact e.evaluated_mapIds
  | .index e i _ | .binary _ e i _ | .assign _ e i _ =>
    simp [Expr.mapIds, Expr.evaluated, e.evaluated_mapIds, i.evaluated_mapIds]
  | .call g as _ =>
    simp [Expr.mapIds, Expr.evaluated, g.evaluated_mapIds, Expr.evaluatedList_mapIdsList as]
  | .conditional t c a _ =>
    simp [Expr.mapIds, Expr.evaluated, t.evaluated_mapIds, c.evaluated_mapIds, a.evaluated_mapIds]

theorem Expr.evaluatedList_mapIdsList (es : List Expr) :
    Expr.evaluatedList (Expr.mapIdsList f es) = (Expr.evaluatedList es).map f := by
  match es with
  | [] => rfl
  | e :: es =>
    simp [Expr.mapIdsList, Expr.evaluatedList, e.evaluated_mapIds,
      Expr.evaluatedList_mapIdsList es]

theorem Property.evaluatedList_mapIdsList (ps : List Property) :
    Property.evaluatedList (Property.mapIdsList f ps) = (Property.evaluatedList ps).map f := by
  match ps with
  | [] => rfl
  | ⟨_, v, _, _, _⟩ :: ps =>
    simp [Property.mapIdsList, Property.evaluatedList, v.evaluated_mapIds,
      Property.evaluatedList_mapIdsList ps]

end

theorem Declarator.evaluatedList_mapIdsList (ds : List Declarator) :
    Declarator.evaluatedList (Declarator.mapIdsList f ds)
      = (Declarator.evaluatedList ds).map f := by
  induction ds with
  | nil => rfl
  | cons d ds ih =>
    obtain ⟨_, _ | e, _⟩ := d
    · simp [Declarator.mapIdsList, Declarator.evaluatedList, ih]
    · simp [Declarator.mapIdsList, Declarator.evaluatedList, e.evaluated_mapIds, ih]

theorem Declaration.evaluated_mapIds (d : Declaration) :
    (d.mapIds f).evaluated = d.evaluated.map f := by
  cases d with
  | «variables» _ ds _ => exact Declarator.evaluatedList_mapIdsList f ds
  | function => rfl

mutual

/-- Replacing identifiers replaces those that are evaluated. -/
theorem Stmt.evaluated_mapIds (s : Stmt) : (s.mapIds f).evaluated = s.evaluated.map f := by
  match s with
  | .importDecl .. | .exportNamed .. | .exportAll .. | .returnValue none _ => rfl
  | .exportDecl d _ | .declaration d => exact d.evaluated_mapIds f
  | .exportDefault e _ | .returnValue (some e) _ | .expr e _ => exact e.evaluated_mapIds f
  | .block ⟨body, _⟩ => exact Stmt.evaluatedList_mapIdsList body
  | .ifThen t c none _ =>
    simp [Stmt.mapIds, Stmt.evaluated, t.evaluated_mapIds, c.evaluated_mapIds]
  | .ifThen t c (some a) _ =>
    simp [Stmt.mapIds, Stmt.evaluated, t.evaluated_mapIds, c.evaluated_mapIds, a.evaluated_mapIds]

theorem Stmt.evaluatedList_mapIdsList (ss : List Stmt) :
    Stmt.evaluatedList (Stmt.mapIdsList f ss) = (Stmt.evaluatedList ss).map f := by
  match ss with
  | [] => rfl
  | s :: ss =>
    simp [Stmt.mapIdsList, Stmt.evaluatedList, s.evaluated_mapIds,
      Stmt.evaluatedList_mapIdsList ss]

end

end

/-- What is left of a statement evaluates what the statement does. -/
theorem Stmt.evaluated_of_pared {met : List Target} {stmt s : Stmt} (h : stmt.pared met = some s) :
    s.evaluated = stmt.evaluated := by
  obtain ⟨rfl, -⟩ | ⟨specifiers, source, o, rfl, rfl⟩ := pared_eq_some h
  · rfl
  · rfl

/-! ### Order -/

section

variable {α β : Type} {l : List α} {a b : α}

/-- Of two elements of a list one stands behind the other. -/
theorem List.pair_sublist_or (ha : a ∈ l) (hb : b ∈ l) (hne : a ≠ b) :
    [a, b].Sublist l ∨ [b, a].Sublist l := by
  obtain ⟨front, back, rfl⟩ := List.append_of_mem ha
  rcases List.mem_append.1 hb with hb | hb
  · refine Or.inr ?_
    exact (List.singleton_sublist.2 hb).append (List.singleton_sublist.2 List.mem_cons_self)
  · refine Or.inl (List.Sublist.trans ?_ (List.sublist_append_right front _))
    exact (List.singleton_sublist.2 ((List.mem_cons.1 hb).resolve_left hne.symm)).cons_cons a

/-- Where nothing is twice, only one of two elements stands behind the other. -/
theorem List.not_pair_sublist (hnodup : l.Nodup) (h : [a, b].Sublist l) :
    ¬ [b, a].Sublist l := by
  induction l with
  | nil => cases h
  | cons x l ih =>
    obtain ⟨hx, hnodup⟩ := List.nodup_cons.1 hnodup
    intro h'
    cases h with
    | cons _ h =>
      cases h' with
      | cons _ h' => exact ih hnodup h h'
      | cons_cons _ _ => exact hx (h.subset (by simp))
    | cons_cons _ h =>
      cases h' with
      | cons _ h' => exact hx (h'.subset (by simp))
      | cons_cons _ _ => exact hx (h.subset (by simp))

/-- What belongs to elements stands in their order. -/
theorem List.pair_sublist_flatMap {f : α → List β} {x y : β} (h : [a, b].Sublist l) (hx : x ∈ f a)
    (hy : y ∈ f b) : [x, y].Sublist (l.flatMap f) := by
  refine List.Sublist.trans ?_ (h.flatMap f)
  rw [List.flatMap_cons, List.flatMap_singleton]
  exact (List.singleton_sublist.2 hx).append (List.singleton_sublist.2 hy)

end

/-! ### Constants and their uses -/

/-- The identifiers that a statement declares as constants. -/
def Stmt.constants : Stmt → List Identifier
  | .declaration (.variables .const declarators _) => declarators.map Declarator.id
  | _ => []

theorem Declarator.map_id_subset (declarators : List Declarator) :
    declarators.map Declarator.id ⊆ Declarator.identifiersList declarators := by
  induction declarators with
  | nil => exact List.nil_subset _
  | cons d ds ih =>
    obtain ⟨id, _ | e, _⟩ := d
    · exact List.cons_subset_cons id ih
    · exact List.cons_subset_cons id (List.subset_append_of_subset_right e.identifiers ih)

theorem Stmt.constants_subset (s : Stmt) : s.constants ⊆ s.identifiers := by
  intro id hid
  unfold constants at hid
  split at hid
  · exact Declarator.map_id_subset _ hid
  · cases hid

/-- A use that is evaluated stands above the import that it means. -/
def Module.UsedAbove (m : Module) (n : Nat) : Prop :=
  ∃ stmt stmt' s u, [stmt, stmt'].Sublist m.body ∧ u ∈ stmt.evaluated ∧ u.origin.id = n ∧
    m.Imports stmt' s ∧ m.declarer? n = some s.binding

/-- What a use means has a number below that of the module. -/
theorem Module.Numbered.declarer_lt {m : Module} (h : m.Numbered) {u id : Identifier}
    (hu : u ∈ m.uses) (hmeans : m.declarer? u.origin.id = some id) : id.origin.id < m.next := by
  obtain ⟨c, hu⟩ := Stmt.exists_mem_uses hu
  rw [Module.declarer?_eq h.distinct hu] at hmeans
  obtain ⟨b, hb, rfl⟩ := Option.map_eq_some_iff.1 hmeans
  exact h.binding_lt (Binding.mem_of_resolve? hb)

namespace Draft.Remade

variable {m : Module} {targets : List Target} {rs : List Rebinding} {cs : List Chunk}
  {f : Identifier → Identifier} {messages : String} {d : Draft} {c : Chunk}
  {s stmt : Stmt} {u id : Identifier}

/-- One statement of the draft declares an identifier. -/
theorem eq_of_declares (h : d.Remade m targets rs cs f messages) {s s' : Stmt}
    (hs : s ∈ d.sequence.body) (hs' : s' ∈ d.sequence.body) (hid : id ∈ s.identifiers)
    (hid' : id ∈ s'.identifiers) : s = s' :=
  (h.extended.inOrder.numbered.stmt_of_number hs hs' hid hid' rfl).1

/-- **A use in what was appended** stands behind the constant that it means. -/
theorem initialized_added (h : d.Remade m targets rs cs f messages) (hm : m.Numbered)
    (hnames : m.declaredNames.Nodup) (hc : c ∈ cs) (hstmt : stmt ∈ c.added)
    (hu : u ∈ stmt.evaluated) (hs : s ∈ d.sequence.body) (hconst : id ∈ s.constants)
    (hadded : m.next ≤ id.origin.id) (hmeans : d.toModule.declarer? u.origin.id = some id) :
    [s, stmt].Sublist d.sequence.body := by
  obtain ⟨literal, n, hbody, hle⟩ := h.exists_front hc hstmt
  have hthere := h.mem_body hc (List.mem_append_right _ hstmt)
  have huse := use_mem hthere (stmt.evaluated_sublist.subset hu)
  have hfront : Stmt.messagesConstant messages literal n ∈ d.sequence.body :=
    hbody ▸ List.mem_cons_self
  -- the messages are in front of everything
  have hargument : u.name = messages → [s, stmt].Sublist d.sequence.body := by
    intro hname
    have hvariable := h.declarer_argument hfront hle huse hname
    rw [hvariable, Option.some_inj] at hmeans
    have hself : Stmt.addedId messages (n + 1)
        ∈ (Stmt.messagesConstant messages literal n).identifiers := List.mem_cons_self
    obtain rfl := h.eq_of_declares hs hfront (s.constants_subset hconst) (hmeans ▸ hself)
    rw [hbody]
    exact (List.singleton_sublist.2 (List.mem_flatMap_of_mem hc
      (List.mem_append_right _ hstmt))).cons_cons _
  rcases h.added_cases hc hstmt with ⟨r, rfl, himports⟩ | ⟨r, hmem, hall⟩
  · rcases List.mem_pair.1 hu with rfl | rfl
    · -- a specifier is no constant
      have hplace := Rebinding.uses_subset hthere (List.mem_cons_self ..)
      have hspecifier := (h.extended.inOrder.declarer?_eq hplace).trans
        (h.tracked.declarer_specifier hnames himports)
      obtain rfl := Option.some.inj (hspecifier.symm.trans hmeans)
      have hlt := himports.binding_lt hm
      omega
    · exact hargument rfl
  · have himport := hall r.importStmt (by simp [Rehoming.stmts])
    simp only [Rehoming.stmts, List.mem_cons, List.not_mem_nil, or_false] at hmem
    rcases hmem with rfl | rfl | rfl
    · cases hu
    · rcases List.mem_pair.1 hu with rfl | rfl
      · have himported := h.declarer_imported hc himport huse rfl
        rw [himported, Option.some_inj] at hmeans
        have hself : Stmt.addedId r.imported (r.id + 1) ∈ r.importStmt.identifiers :=
          List.mem_cons_self
        obtain rfl := h.eq_of_declares hs (h.mem_body hc (List.mem_append_right _ himport))
          (s.constants_subset hconst) (hmeans ▸ hself)
        cases hconst
      · exact hargument rfl
    · cases hu

/-- Statements of chunks stand in the order of the chunks, which is that of the module. -/
theorem pair_sublist (h : d.Remade m targets rs cs f messages) {a b : Chunk} {x y : Stmt}
    (hab : [a, b].Sublist cs) (hx : x ∈ a.stmts) (hy : y ∈ b.stmts) :
    [x, y].Sublist d.sequence.body ∧ [a.origin, b.origin].Sublist m.body := by
  obtain ⟨front, hbody, -⟩ := h.body
  refine ⟨?_, h.origins ▸ hab.map Chunk.origin⟩
  rw [hbody]
  exact (List.pair_sublist_flatMap hab hx hy).trans (List.sublist_append_right _ _)

/-- **A use in what is left of a statement** stands behind the constant that it means if it did not
stand above the import of the specifier that it meant. -/
theorem initialized_kept (h : d.Remade m targets rs cs f messages) (hm : m.Numbered)
    (hnames : m.declaredNames.Nodup) (hc : c ∈ cs) (hkept : c.kept = some stmt)
    (hu : u ∈ stmt.evaluated) (hs : s ∈ d.sequence.body) (hconst : id ∈ s.constants)
    (hadded : m.next ≤ id.origin.id) (hmeans : d.toModule.declarer? u.origin.id = some id) :
    [s, stmt].Sublist d.sequence.body ↔ ¬ m.UsedAbove u.origin.id := by
  obtain ⟨stmt₀, hpared, hmap⟩ := Option.map_eq_some_iff.1 ((h.kept c hc).symm.trans hkept)
  subst hmap
  rw [Stmt.evaluated_mapIds, Stmt.evaluated_of_pared hpared] at hu
  obtain ⟨u₀, hu₀, rfl⟩ := List.mem_map.1 hu
  have horigin := h.origin_mem hc
  have huse : u₀ ∈ m.uses := by
    rw [Module.uses, Stmt.usesList_eq_flatMap]
    exact List.mem_flatMap_of_mem horigin (c.origin.evaluated_sublist.subset hu₀)
  rw [h.renames.inPlace] at hmeans ⊢
  have hconstants : ∀ r ∈ rs, m.next ≤ r.id ∧ ∃ v, r.constant v ∈ d.sequence.body :=
    fun r hr => ⟨(h.constants r hr).1, messages, (h.constants r hr).2⟩
  by_cases hbound : ∃ r ∈ rs, m.declarer? u₀.origin.id = some r.specifier.binding
  · obtain ⟨r, hr, hspecifier⟩ := hbound
    have hdeclared := (h.tracked.bound h.extended hm h.specifiers hconstants huse hr hspecifier).2
    rw [hdeclared, Option.some_inj] at hmeans
    subst hmeans
    obtain ⟨c', hc', hstmt', hconstant⟩ := h.exists_chunk_constant hm hnames hr
    have hself : r.declared ∈ (r.constant messages).identifiers := List.mem_cons_self
    obtain rfl := h.eq_of_declares hs (h.mem_body hc' (List.mem_append_right _ hconstant))
      (s.constants_subset hconst) hself
    have himports := (h.tracked.rebound r hr).1
    -- the import evaluates nothing, so the use is in another chunk
    have hne : c' ≠ c := by
      rintro rfl
      obtain ⟨-, specifiers, source, o, heq, -⟩ := himports
      rw [hstmt', heq] at hu₀
      cases hu₀
    have hnodup : m.body.Nodup := hm.statements.of_map
    have hchunk : stmt₀.mapIds f ∈ c.stmts := List.mem_append_left _ (by simp [hkept])
    have hchunk' : r.constant messages ∈ c'.stmts := List.mem_append_right _ hconstant
    rcases List.pair_sublist_or hc' hc hne with hbefore | hbehind
    · obtain ⟨hdraft, hmodule⟩ := h.pair_sublist hbefore hchunk' hchunk
      refine iff_of_true hdraft ?_
      rintro ⟨stmt₁, stmt₂, s', u', habove, hu', hnumber, himports', hmeans'⟩
      have hstmt₁ := (hm.stmt_of_number (habove.subset (by simp)) horigin
        (stmt₁.uses_subset_identifiers (stmt₁.evaluated_sublist.subset hu'))
        (c.origin.uses_subset_identifiers (c.origin.evaluated_sublist.subset hu₀)) hnumber).1
      have hstmt₂ := himports'.stmt_eq hm himports
        (Option.some.inj (hmeans'.symm.trans hspecifier))
      rw [hstmt₁, hstmt₂, ← hstmt'] at habove
      exact List.not_pair_sublist hnodup hmodule habove
    · obtain ⟨hdraft, hmodule⟩ := h.pair_sublist hbehind hchunk hchunk'
      refine iff_of_false (List.not_pair_sublist h.extended.inOrder.numbered.statements.of_map
      hdraft) ?_
      rw [not_not]
      exact ⟨c.origin, c'.origin, r.specifier, u₀, hmodule, hu₀, rfl, hstmt' ▸ himports, hspecifier⟩
  · have hunchanged := (h.tracked.unchanged h.extended hm huse fun r hr heq =>
      hbound ⟨r, hr, heq⟩).2
    rw [hunchanged] at hmeans
    have hlt := hm.declarer_lt huse hmeans
    omega

end Draft.Remade

namespace Module

/-- **When a constant is there**: in what a pass with different targets makes of a module that
declares each name at its top once, a use that is evaluated stands behind the added constant that it
means exactly if it did not stand, in the module as it was, above the import that it meant. -/
theorem initialized_of_bindMessages [CharacterNames] {text : String} {filename : Option String}
    {base : Nat} {m : Module} {targets : List Target} {catalogues : CatalogueSource}
    {path : Option String} {r : BoundModule} (hparse : parse text filename base = .ok m)
    (hnames : m.declaredNames.Nodup) (htargets : targets.Nodup)
    (hrun : (m.bindMessages targets catalogues path).run.1 = .ok r) :
    ∀ stmt ∈ r.draft.toModule.body, ∀ u ∈ stmt.evaluated, ∀ s ∈ r.draft.toModule.body,
      ∀ id ∈ s.constants, m.next ≤ id.origin.id →
      r.draft.toModule.declarer? u.origin.id = some id →
      ([s, stmt].Sublist r.draft.toModule.body ↔ ¬ m.UsedAbove u.origin.id) := by
  intro stmt hstmt u hu s hs id hconst hadded hmeans
  have hm := numbered_of_parse hparse
  obtain ⟨rs, cs, f, messages, h⟩ := exists_remade hm hnames htargets hrun
  rcases h.stmt_cases hstmt with ⟨literal, n, rfl, -⟩ | ⟨c, hc, hkept, -⟩ | ⟨c, hc, hstmt⟩
  · cases hu
  · exact h.initialized_kept hm hnames hc hkept hu hs hconst hadded hmeans
  · refine iff_of_true (h.initialized_added hm hnames hc hstmt hu hs hconst hadded hmeans) ?_
    -- uses in what was appended have numbers beyond those of the module
    rintro ⟨stmt', imp, s', u', habove, hu', hnumber, -⟩
    have hlt := hm.identifier_lt u' (mem_identifiers (habove.subset List.mem_cons_self)
      (stmt'.uses_subset_identifiers (stmt'.evaluated_sublist.subset hu')))
    have hle := (h.added c hc stmt hstmt).2 u
      (stmt.uses_subset_identifiers (stmt.evaluated_sublist.subset hu))
    omega

section

attribute [local instance] CharacterNames.nameless

/-- In `f(); import { f } from "m"; f()` the first use stands above the import. -/
theorem initialized_of_bindMessages_above : ∃ m r,
    parse "f(); import { f } from \"m\"; f()" none 0 = .ok m ∧ m.declaredNames.Nodup ∧
      [(⟨"f", "m"⟩ : Target)].Nodup ∧
      (m.bindMessages [⟨"f", "m"⟩] ⟨⟨[], ⟨.relative, []⟩⟩, "properties", fun _ => .ok [], none⟩
        (some "a.js")).run.1 = .ok r ∧
      ∃ stmt ∈ r.draft.toModule.body, ∃ u ∈ stmt.evaluated, m.UsedAbove u.origin.id := by
  have hruns : ((parse "f(); import { f } from \"m\"; f()" none 0).toOption.bind fun m =>
      (m.bindMessages [⟨"f", "m"⟩] ⟨⟨[], ⟨.relative, []⟩⟩, "properties", fun _ => .ok [], none⟩
        (some "a.js")).run.1.toOption.filter fun r => decide (m.declaredNames.Nodup ∧
          ∃ stmt ∈ r.draft.toModule.body, ∃ u ∈ stmt.evaluated, ∃ s ∈ r.draft.toModule.body,
            ∃ id ∈ s.constants, m.next ≤ id.origin.id ∧
              r.draft.toModule.declarer? u.origin.id = some id ∧
              ¬ ([s, stmt].map (·.origin.id)).Sublist
                (r.draft.toModule.body.map (·.origin.id)))).isSome := by
    decide +kernel
  obtain ⟨r, hr⟩ := Option.isSome_iff_exists.1 hruns
  obtain ⟨m, hm, hr⟩ := Option.bind_eq_some_iff.1 hr
  obtain ⟨hr, hdecide⟩ := Option.filter_eq_some_iff.1 hr
  obtain ⟨hnames, stmt, hstmt, u, hu, s, hs, id, hid, hadded, hmeans, hnot⟩ :=
    of_decide_eq_true hdecide
  have hparse := Except.eq_ok_of_toOption hm
  have hrun := Except.eq_ok_of_toOption hr
  have hiff := initialized_of_bindMessages hparse hnames (by decide) hrun stmt hstmt u hu s hs id
    hid hadded hmeans
  exact ⟨m, r, hparse, hnames, by decide, hrun, stmt, hstmt, u, hu,
    not_not.1 fun hno => hnot ((hiff.2 hno).map _)⟩

/-- In `f(); import { f } from "m"` the constant is used before it is there. -/
theorem bindMessages_uninitialized : ∃ m r,
    parse "f(); import { f } from \"m\"" none 0 = .ok m ∧ m.declaredNames.Nodup ∧
      (m.bindMessages [⟨"f", "m"⟩] ⟨⟨[], ⟨.relative, []⟩⟩, "properties", fun _ => .ok [], none⟩
        (some "a.js")).run.1 = .ok r ∧
      ∃ stmt ∈ r.draft.toModule.body, ∃ u ∈ stmt.evaluated, ∃ s ∈ r.draft.toModule.body,
        ∃ id ∈ s.constants, m.next ≤ id.origin.id ∧
          r.draft.toModule.declarer? u.origin.id = some id ∧
          ¬ [s, stmt].Sublist r.draft.toModule.body := by
  have hruns : ((parse "f(); import { f } from \"m\"" none 0).toOption.bind fun m =>
      (m.bindMessages [⟨"f", "m"⟩] ⟨⟨[], ⟨.relative, []⟩⟩, "properties", fun _ => .ok [], none⟩
        (some "a.js")).run.1.toOption.filter fun r => decide (m.declaredNames.Nodup ∧
          ∃ stmt ∈ r.draft.toModule.body, ∃ u ∈ stmt.evaluated, ∃ s ∈ r.draft.toModule.body,
            ∃ id ∈ s.constants, m.next ≤ id.origin.id ∧
              r.draft.toModule.declarer? u.origin.id = some id ∧
              ¬ ([s, stmt].map (·.origin.id)).Sublist
                (r.draft.toModule.body.map (·.origin.id)))).isSome := by
    decide +kernel
  obtain ⟨r, hr⟩ := Option.isSome_iff_exists.1 hruns
  obtain ⟨m, hm, hr⟩ := Option.bind_eq_some_iff.1 hr
  obtain ⟨hr, hdecide⟩ := Option.filter_eq_some_iff.1 hr
  obtain ⟨hnames, stmt, hstmt, u, hu, s, hs, id, hid, hadded, hmeans, hnot⟩ :=
    of_decide_eq_true hdecide
  exact ⟨m, r, Except.eq_ok_of_toOption hm, hnames, Except.eq_ok_of_toOption hr, stmt, hstmt, u,
    hu, s, hs, id, hid, hadded, hmeans, fun hsub => hnot (hsub.map _)⟩

end

end Module

end MessageBinder
