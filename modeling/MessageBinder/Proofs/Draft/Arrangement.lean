import MessageBinder.Proofs.Draft.Hygiene
import MessageBinder.Proofs.Scope.Replacing

/-!
# Arrangement of a draft

At any time of a pass the statements of a draft fall into chunks, one for each statement of the
module and in their order: what is left of the statement, and behind it what was appended to it
(`MessageBinder.Draft.Arranged`). A statement keeps its number as long as something is left of it;
what was appended has numbers of its own, beyond those of the module.

The operations of a draft are operations on chunks. Appending to a statement makes its chunk longer,
exchanging or removing a statement concerns what is left of it, and renaming goes through all
chunks. So the order of the module is kept, and where a statement came to stand is known.
-/

namespace MessageBinder

/-! ### Chunks -/

/-- What a statement of a module has become. -/
structure Chunk where
  /-- The statement as it was. -/
  origin : Stmt
  /-- What is left of it. -/
  kept : Option Stmt
  /-- What was appended to it. -/
  added : List Stmt

namespace Chunk

/-- The number of the statement. -/
def id (c : Chunk) : Nat := c.origin.origin.id

/-- The statements of a chunk. -/
def stmts (c : Chunk) : List Stmt := c.kept.toList ++ c.added

/-- The statement behind which the next one goes. -/
def last (c : Chunk) : Stmt := c.added.getLast?.getD c.origin

/-- The chunk with its identifiers replaced. -/
def mapIds (f : Identifier → Identifier) (c : Chunk) : Chunk :=
  { c with kept := c.kept.map (Stmt.mapIds f), added := c.added.map (Stmt.mapIds f) }

/-- The chunk with one more statement appended. -/
def append (c : Chunk) (stmt : Stmt) : Chunk := { c with added := c.added ++ [stmt] }

@[simp] theorem id_mapIds (f : Identifier → Identifier) (c : Chunk) : (c.mapIds f).id = c.id := rfl

@[simp] theorem id_append (c : Chunk) (stmt : Stmt) : (c.append stmt).id = c.id := rfl

theorem stmts_mapIds (f : Identifier → Identifier) (c : Chunk) :
    (c.mapIds f).stmts = c.stmts.map (Stmt.mapIds f) := by
  cases h : c.kept <;> simp [stmts, mapIds, h]

theorem stmts_append (c : Chunk) (stmt : Stmt) : (c.append stmt).stmts = c.stmts ++ [stmt] :=
  (List.append_assoc _ _ _).symm

@[simp] theorem last_append (c : Chunk) (stmt : Stmt) : (c.append stmt).last = stmt := by
  simp [last, append]

theorem last_mapIds_number (f : Identifier → Identifier) (c : Chunk) :
    (c.mapIds f).last.origin.id = c.last.origin.id := by
  rw [last, last, mapIds, List.getLast?_map]
  cases c.added.getLast? <;> simp

end Chunk

/-- Statements with different numbers are parted in one way only at a statement. -/
theorem Stmt.split_inj {front back front' back' : List Stmt} {s s' : Stmt}
    (h : front ++ [s] ++ back = front' ++ [s'] ++ back')
    (hnodup : ((front ++ [s] ++ back).map (·.origin.id)).Nodup)
    (hs : s.origin.id = s'.origin.id) : front = front' ∧ s = s' ∧ back = back' := by
  induction front generalizing front' with
  | nil =>
    cases front' with
    | nil => simpa using h
    | cons t front' =>
      obtain ⟨rfl, rfl⟩ : s = t ∧ back = front' ++ [s'] ++ back' := by simpa using h
      simp [hs] at hnodup
  | cons t front ih =>
    cases front' with
    | nil =>
      obtain ⟨rfl, rfl⟩ : t = s' ∧ front ++ [s] ++ back = back' := by simpa using h
      simp [hs] at hnodup
    | cons t' front' =>
      simp only [List.cons_append, List.cons.injEq, List.map_cons, List.nodup_cons] at h hnodup
      obtain ⟨rfl, h⟩ := h
      obtain ⟨rfl, hrest⟩ := ih h hnodup.2
      exact ⟨rfl, hrest⟩

/-! ### Arranged drafts -/

namespace Draft

/-- **A draft is arranged** in chunks, one for each statement of the module in turn. -/
structure Arranged (m : Module) (cs : List Chunk) (d : Draft) : Prop where
  /-- The statements are those of the chunks. -/
  body : d.sequence.body = cs.flatMap Chunk.stmts
  /-- There is a chunk for each statement of the module. -/
  origins : cs.map Chunk.origin = m.body
  /-- A statement keeps its number. -/
  kept : ∀ c ∈ cs, ∀ s ∈ c.kept, s.origin.id = c.id
  /-- Numbers of what was appended are beyond those of the module. -/
  added : ∀ c ∈ cs, ∀ s ∈ c.added, m.next ≤ s.origin.id ∧
    ∀ i ∈ s.identifiers, m.next ≤ i.origin.id
  /-- The tail of a statement is the last one of its chunk. -/
  tails : ∀ c ∈ cs, (d.sequence.tailOf c.origin).origin.id = c.last.origin.id

/-- The chunks of a module that was read are its statements. -/
theorem arranged_ofModule (m : Module) :
    Arranged m (m.body.map fun s => ⟨s, some s, []⟩) (ofModule m) where
  body := by
    rw [List.flatMap_map]
    exact (List.flatMap_singleton' m.body).symm
  origins := by
    rw [List.map_map]
    exact List.map_id' m.body
  kept := by
    rintro c hc s hs
    obtain ⟨s', -, rfl⟩ := List.mem_map.1 hc
    rw [Option.mem_some_iff.1 hs]
    rfl
  added := by
    rintro c hc s hs
    obtain ⟨s', -, rfl⟩ := List.mem_map.1 hc
    cases hs
  tails := by
    rintro c hc
    obtain ⟨s', -, rfl⟩ := List.mem_map.1 hc
    rfl

namespace Arranged

variable {m : Module} {cs front back : List Chunk} {c : Chunk} {d d' : Draft} {stmt : Stmt}

/-- Only the statements count. -/
theorem congr (h : d.Arranged m cs) (hsequence : d'.sequence = d.sequence) : d'.Arranged m cs where
  body := hsequence ▸ h.body
  origins := h.origins
  kept := h.kept
  added := h.added
  tails := hsequence ▸ h.tails

/-- Different chunks have different numbers. -/
theorem nodup_ids (h : d.Arranged m cs) (hm : m.Numbered) : (cs.map Chunk.id).Nodup := by
  have hstatements := hm.statements
  rw [← h.origins, List.map_map] at hstatements
  exact hstatements

theorem id_lt (h : d.Arranged m cs) (hm : m.Numbered) (hc : c ∈ cs) : c.id < m.next :=
  hm.statement_lt c.origin (h.origins ▸ List.mem_map_of_mem hc)

/-- There is a chunk for each statement of the module. -/
theorem exists_chunk (h : d.Arranged m cs) {s : Stmt} (hs : s ∈ m.body) :
    ∃ front c back, cs = front ++ c :: back ∧ c.origin = s := by
  rw [← h.origins] at hs
  obtain ⟨c, hc, rfl⟩ := List.mem_map.1 hs
  obtain ⟨front, back, rfl⟩ := List.append_of_mem hc
  exact ⟨front, c, back, rfl, rfl⟩

/-- Different chunks have different numbers. -/
theorem id_ne (h : d.Arranged m (front ++ c :: back)) (hm : m.Numbered) :
    ∀ c' ∈ front ++ back, c'.id ≠ c.id := by
  have hnodup := h.nodup_ids hm
  rw [List.map_append, List.map_cons, List.nodup_middle, ← List.map_append] at hnodup
  intro c' hc' heq
  exact (List.nodup_cons.1 hnodup).1 (List.mem_map.2 ⟨c', hc', heq⟩)

/-- What holds of what a chunk becomes, and of the chunks with other numbers, holds of all. -/
theorem forall_change (h : d.Arranged m (front ++ c :: back)) (hm : m.Numbered) {c' : Chunk}
    {P : Chunk → Prop} (hc : P c') (hothers : ∀ x ∈ front ++ c :: back, x.id ≠ c.id → P x) :
    ∀ x ∈ front ++ c' :: back, P x := by
  intro x hx
  rcases List.mem_cons.1 (List.perm_middle.mem_iff.1 hx) with rfl | hx
  · exact hc
  · exact hothers x (List.perm_middle.mem_iff.2 (List.mem_cons_of_mem _ hx)) (h.id_ne hm x hx)

/-- A chunk changes, and identifiers are replaced in all of them. -/
theorem forall_change_mapIds (h : d.Arranged m (front ++ c :: back)) (hm : m.Numbered)
    {f : Identifier → Identifier} {c' : Chunk} {P : Chunk → Prop} (hc : P c')
    (hothers : ∀ x ∈ front ++ c :: back, x.id ≠ c.id → P (x.mapIds f)) :
    ∀ x ∈ front.map (Chunk.mapIds f) ++ c' :: back.map (Chunk.mapIds f), P x := by
  intro x hx
  rcases List.mem_cons.1 (List.perm_middle.mem_iff.1 hx) with rfl | hx
  · exact hc
  · rw [← List.map_append] at hx
    obtain ⟨y, hy, rfl⟩ := List.mem_map.1 hx
    exact hothers y (List.perm_middle.mem_iff.2 (List.mem_cons_of_mem _ hy)) (h.id_ne hm y hy)

/-- The statements around what is left of one. -/
theorem body_kept (h : d.Arranged m (front ++ c :: back)) (hkept : c.kept = some stmt) :
    d.sequence.body
      = front.flatMap Chunk.stmts ++ [stmt] ++ (c.added ++ back.flatMap Chunk.stmts) := by
  rw [h.body, List.flatMap_append, List.flatMap_cons, Chunk.stmts, hkept]
  simp

/-- What is left of a statement is found by its number. -/
theorem current?_eq (h : d.Arranged m cs) (hm : m.Numbered) (hd : d.InOrder) (hc : c ∈ cs) :
    d.current? c.id = c.kept := by
  cases hkept : c.kept with
  | some s =>
    have hmem : s ∈ d.sequence.body := by
      rw [h.body]
      exact List.mem_flatMap.2 ⟨c, hc, List.mem_append_left _ (by simp [hkept])⟩
    rw [← h.kept c hc s hkept]
    exact hd.current?_eq hmem
  | none =>
    refine List.find?_eq_none.2 fun s hs hid => ?_
    rw [h.body] at hs
    obtain ⟨c', hc', hs⟩ := List.mem_flatMap.1 hs
    have hid : s.origin.id = c.id := of_decide_eq_true hid
    rcases List.mem_append.1 hs with hs | hs
    · have hs : c'.kept = some s := by simpa using hs
      have hsame := List.inj_on_of_nodup_map (h.nodup_ids hm) hc' hc
        ((h.kept c' hc' s hs).symm.trans hid)
      rw [hsame, hkept] at hs
      cases hs
    · have hlt := h.id_lt hm hc
      have hle := (h.added c' hc' s hs).1
      omega

/-- A change within one chunk. -/
theorem update {c' : Chunk} (h : d.Arranged m (front ++ c :: back))
    (hbody : d'.sequence.body
      = front.flatMap Chunk.stmts ++ c'.stmts ++ back.flatMap Chunk.stmts)
    (horigin : c'.origin = c.origin) (hkept : ∀ s ∈ c'.kept, s.origin.id = c.id)
    (hadded : ∀ s ∈ c'.added, m.next ≤ s.origin.id ∧ ∀ i ∈ s.identifiers, m.next ≤ i.origin.id)
    (hothers : ∀ x ∈ front ++ back,
      (d'.sequence.tailOf x.origin).origin.id = (d.sequence.tailOf x.origin).origin.id)
    (htail : (d'.sequence.tailOf c.origin).origin.id = c'.last.origin.id) :
    d'.Arranged m (front ++ c' :: back) := by
  have hsplit : ∀ x ∈ front ++ c' :: back, x = c' ∨ x ∈ front ++ back := fun x hx =>
    List.mem_cons.1 (List.perm_middle.mem_iff.1 hx)
  have hold : ∀ x ∈ front ++ back, x ∈ front ++ c :: back := fun x hx =>
    List.perm_middle.mem_iff.2 (List.mem_cons_of_mem _ hx)
  refine ⟨?_, ?_, fun x hx s hs => ?_, fun x hx => ?_, fun x hx => ?_⟩
  · rw [hbody, List.flatMap_append, List.flatMap_cons, List.append_assoc]
  · rw [← h.origins]
    simp [horigin]
  · rcases hsplit x hx with rfl | hx
    · rw [Chunk.id, horigin]
      exact hkept s hs
    · exact h.kept x (hold x hx) s hs
  · rcases hsplit x hx with rfl | hx
    · exact hadded
    · exact h.added x (hold x hx)
  · rcases hsplit x hx with rfl | hx
    · rw [horigin]
      exact htail
    · rw [hothers x hx]
      exact h.tails x (hold x hx)

/-- Replacing identifiers goes through all chunks. -/
theorem mapIds (h : d.Arranged m cs) {f : Identifier → Identifier} (hf : Identifier.InPlace f)
    (hbody : d'.sequence.body = d.sequence.body.map (Stmt.mapIds f))
    (htails : d'.sequence.tails = d.sequence.tails) :
    d'.Arranged m (cs.map (Chunk.mapIds f)) where
  body := by
    rw [hbody, h.body, List.map_flatMap, List.flatMap_map]
    simp only [Chunk.stmts_mapIds]
  origins := by
    rw [← h.origins, List.map_map]
    rfl
  kept := by
    intro c' hc' s hs
    obtain ⟨c, hc, rfl⟩ := List.mem_map.1 hc'
    obtain ⟨s', hs', rfl⟩ := Option.map_eq_some_iff.1 hs
    rw [Stmt.origin_mapIds]
    exact h.kept c hc s' hs'
  added := by
    intro c' hc' s hs
    obtain ⟨c, hc, rfl⟩ := List.mem_map.1 hc'
    obtain ⟨s', hs', rfl⟩ := List.mem_map.1 hs
    obtain ⟨hle, hids⟩ := h.added c hc s' hs'
    refine ⟨by rwa [Stmt.origin_mapIds], fun i hi => ?_⟩
    rw [Stmt.identifiers_mapIds] at hi
    obtain ⟨i', hi', rfl⟩ := List.mem_map.1 hi
    rw [hf]
    exact hids i' hi'
  tails := by
    intro c' hc'
    obtain ⟨c, hc, rfl⟩ := List.mem_map.1 hc'
    rw [Chunk.last_mapIds_number, ← h.tails c hc, Sequence.tailOf, Sequence.tailOf, htails]
    rfl

/-- Renaming a use goes through all chunks. -/
theorem renameUse (h : d.Arranged m cs) (name : String) (id : Identifier) :
    (d.renameUse name id).Arranged m
      (cs.map (Chunk.mapIds (Identifier.renamed id.origin.id name))) :=
  h.mapIds (Identifier.renamed_inPlace _ _) (Stmt.mapIdsList_eq_map _ _) rfl

/-- **What is appended to a statement** makes its chunk longer. -/
theorem append (h : d.Arranged m (front ++ c :: back)) (hm : m.Numbered) (hd : d.InOrder)
    (hle : m.next ≤ d.next) {origin : Stmt} (hid : origin.origin.id = c.id)
    (hkept : c.kept.isSome) {build : Nat → Stmt} (hadded : (build d.next).AddedAt d.next)
    (happend : d.append origin build = .ok d') :
    d'.Arranged m (front ++ c.append (build d.next) :: back) := by
  obtain ⟨pre, s, post, hbody, hs, rfl⟩ := append_eq_ok happend
  have htail : (d.sequence.tailOf origin).origin.id = c.last.origin.id := by
    rw [← h.tails c (by simp), Sequence.tailOf, Sequence.tailOf, hid, Chunk.id]
    cases d.sequence.tails.find? (·.1 = c.origin.origin.id) with
    | none => exact hid
    | some e => rfl
  -- the tail is the last statement of the chunk
  obtain ⟨init, t, hstmts, ht⟩ : ∃ init t, c.stmts = init ++ [t] ∧
      t.origin.id = c.last.origin.id := by
    obtain ⟨k, hk⟩ := Option.isSome_iff_exists.1 hkept
    rcases List.eq_nil_or_concat c.added with hnil | ⟨init, t, hlast⟩
    · refine ⟨[], k, ?_, ?_⟩
      · rw [Chunk.stmts, hk, hnil]
        rfl
      · rw [Chunk.last, hnil]
        exact h.kept c (by simp) k hk
    · refine ⟨k :: init, t, ?_, ?_⟩
      · rw [Chunk.stmts, hk, hlast, List.concat_eq_append]
        rfl
      · rw [Chunk.last, hlast]
        simp
  have hparts : d.sequence.body = (front.flatMap Chunk.stmts ++ init) ++ [t]
      ++ back.flatMap Chunk.stmts := by
    rw [h.body, List.flatMap_append, List.flatMap_cons, hstmts]
    simp
  have hnodup := hd.numbered.statements
  change (d.sequence.body.map (·.origin.id)).Nodup at hnodup
  rw [hparts] at hnodup hbody
  obtain ⟨rfl, rfl, rfl⟩ := Stmt.split_inj hbody hnodup (ht.trans (hs.trans htail).symm)
  refine h.update ?_ rfl (fun k hk => h.kept c (by simp) k hk) (fun k hk => ?_)
    (fun x hx => ?_) ?_
  · rw [inserted, Chunk.stmts_append, hstmts]
    simp
  · rcases List.mem_append.1 hk with hk | hk
    · exact h.added c (by simp) k hk
    · obtain rfl := List.mem_singleton.1 hk
      refine ⟨Nat.le_trans hle (Nat.le_of_eq hadded.origin.symm), fun i hi => ?_⟩
      exact Nat.le_trans hle (hadded.bounds i hi).1
  · have hne : origin.origin.id ≠ x.origin.origin.id := fun heq =>
      h.id_ne hm x hx (heq.symm.trans hid)
    rw [inserted, Sequence.tailOf, Sequence.tailOf, List.find?_cons_of_neg (by simpa using hne)]
  · have hthere : origin.origin.id = c.origin.origin.id := hid
    rw [inserted, Sequence.tailOf, List.find?_cons_of_pos (by simpa using hthere),
      Chunk.last_append]
    rfl

/-- Exchanging what is left of a statement. -/
theorem replace (h : d.Arranged m (front ++ c :: back)) (hd : d.InOrder) {s : Stmt}
    (hkept : c.kept = some s) (hid : stmt.origin.id = c.id) :
    (d.replace stmt).Arranged m (front ++ { c with kept := some stmt } :: back) := by
  have hs := h.kept c (by simp) s hkept
  rw [hd.replace_eq (h.body_kept hkept) (hs.trans hid.symm)]
  refine h.update ?_ rfl (fun k hk => ?_) (h.added c (by simp)) (fun x _ => rfl)
    (h.tails c (by simp))
  · simp [Chunk.stmts]
  · rw [← Option.mem_some_iff.1 hk]
    exact hid

/-- Removing what is left of a statement. -/
theorem remove (h : d.Arranged m (front ++ c :: back)) (hd : d.InOrder) {s : Stmt}
    (hkept : c.kept = some s) (hid : stmt.origin.id = c.id) (hremove : d.remove stmt = .ok d') :
    d'.Arranged m (front ++ { c with kept := none } :: back) := by
  obtain ⟨pre, t, post, hbody, ht, rfl⟩ := remove_eq_ok hremove
  have hs := h.kept c (by simp) s hkept
  have hparts := h.body_kept hkept
  have hnodup := hd.numbered.statements
  change (d.sequence.body.map (·.origin.id)).Nodup at hnodup
  rw [hparts] at hnodup hbody
  obtain ⟨rfl, rfl, rfl⟩ := Stmt.split_inj hbody hnodup (hs.trans (ht.trans hid).symm)
  refine h.update ?_ rfl (by simp) (h.added c (by simp)) (fun x _ => rfl) (h.tails c (by simp))
  simp [Chunk.stmts]

end Arranged

end Draft

/-! ### Renaming many uses -/

/-- Gives a new name to the identifiers with the numbers of given ones. -/
def Identifier.renamedAll (ids : List Identifier) (name : String) (i : Identifier) : Identifier :=
  if i.origin.id ∈ numbers ids then { i with name } else i

namespace Identifier

theorem renamedAll_inPlace (ids : List Identifier) (name : String) :
    InPlace (renamedAll ids name) := by
  intro i
  rw [renamedAll]
  split <;> rfl

theorem renamedAll_of_notMem {ids : List Identifier} {name : String} {i : Identifier}
    (h : i.origin.id ∉ numbers ids) : renamedAll ids name i = i := if_neg h

theorem renamedAll_cons (id : Identifier) (ids : List Identifier) (name : String) :
    renamedAll (id :: ids) name = renamedAll ids name ∘ renamed id.origin.id name := by
  funext i
  rw [Function.comp_apply, renamedAll, renamedAll, renamed]
  by_cases hid : i.origin.id = id.origin.id
  · simp [numbers, hid]
  · simp [numbers, hid]

end Identifier

/-- Renaming uses one after the other is one replacement. -/
theorem Draft.sequence_renameUses (d : Draft) (name : String) (ids : List Identifier) :
    (d.renameUses name ids).sequence = { d.sequence with
      body := d.sequence.body.map (Stmt.mapIds (Identifier.renamedAll ids name)) } := by
  induction ids generalizing d with
  | nil =>
    have hself : ∀ s : Stmt, s.mapIds (Identifier.renamedAll [] name) = s := fun s =>
      s.mapIds_eq_self fun i _ => Identifier.renamedAll_of_notMem (by simp [Identifier.numbers])
    rw [List.map_congr_left fun s _ => hself s, List.map_id']
    rfl
  | cons id ids ih =>
    refine (ih (d.renameUse name id)).trans ?_
    rw [Identifier.renamedAll_cons, renameUse]
    simp only [Stmt.mapIdsList_eq_map, List.map_map]
    congr 2
    funext s
    exact s.mapIds_mapIds _ _

theorem Draft.Arranged.renameUses {m : Module} {cs : List Chunk} {d : Draft}
    (h : d.Arranged m cs) (name : String) (ids : List Identifier) :
    (d.renameUses name ids).Arranged m
      (cs.map (Chunk.mapIds (Identifier.renamedAll ids name))) := by
  have hsequence := d.sequence_renameUses name ids
  exact h.mapIds (Identifier.renamedAll_inPlace ids name) (by rw [hsequence]) (by rw [hsequence])

/-! ### Along the pass -/

/-- A re-export that was made anew: the target, the name in the list, the names that were drawn, and
the number at which the statements were added. -/
structure Rehoming where
  /-- The target. -/
  target : Target
  /-- The name in the list. -/
  specifier : ExportSpecifier
  /-- The name under which the function is imported. -/
  imported : String
  /-- The name of the constant. -/
  bound : String
  /-- The number of the first statement. -/
  id : Nat

namespace Rehoming

/-- The import. -/
def importStmt (r : Rehoming) : Stmt :=
  .addedImport r.target.function.string r.imported r.target.module r.id

/-- The constant, with the messages in the given variable. -/
def constant (r : Rehoming) (messages : String) : Stmt :=
  .boundConstant r.bound r.imported messages (r.id + Stmt.addedOrigins)

/-- The export. -/
def exportStmt (r : Rehoming) : Stmt :=
  .addedExport r.bound r.specifier.exported (r.id + Stmt.addedOrigins + Stmt.addedOrigins)

/-- The statements in their order. -/
def stmts (r : Rehoming) (messages : String) : List Stmt :=
  [r.importStmt, r.constant messages, r.exportStmt]

end Rehoming

namespace Chunk

/-- The chunk with more statements appended. -/
def extend (c : Chunk) (ss : List Stmt) : Chunk := { c with added := c.added ++ ss }

@[simp] theorem extend_nil (c : Chunk) : c.extend [] = c := by
  rw [extend, List.append_nil]

@[simp] theorem id_extend (c : Chunk) (ss : List Stmt) : (c.extend ss).id = c.id := rfl

theorem extend_extend (c : Chunk) (ss ss' : List Stmt) :
    (c.extend ss).extend ss' = c.extend (ss ++ ss') := by
  rw [extend, extend, extend, List.append_assoc]

end Chunk

namespace Bench.Extends

variable {m : Module} {pending : List String} {k : Nat} {front back : List Chunk} {c : Chunk}
  {b b' : Bench} {stmt : Stmt}

/-- Appending in the course of a pass makes a chunk longer. -/
theorem arranged_append (h : b.Extends m pending k) (hm : m.Numbered)
    (ha : b.draft.Arranged m (front ++ c :: back)) (hkept : c.kept.isSome)
    (hid : stmt.origin.id = c.id) {build : Nat → Stmt}
    (hadded : (build b.draft.next).AddedAt b.draft.next) {u : Unit}
    (hgives : (Drafting.edit (·.append stmt build)).Gives b u b') :
    b'.draft.Arranged m (front ++ c.extend [build b.draft.next] :: back) ∧
      b'.draft.next = b.draft.next + Stmt.addedOrigins ∧ b'.gate = b.gate := by
  obtain ⟨d, happend, rfl⟩ := Drafting.gives_edit hgives
  refine ⟨ha.append hm h.draft.inOrder h.draft.next_le hid hkept hadded happend, ?_, rfl⟩
  obtain ⟨-, -, -, -, -, rfl⟩ := Draft.append_eq_ok happend
  rfl

/-- **Binding an imported name** that has uses renames them everywhere and appends the constant. -/
theorem arranged_bindImported (h : b.Extends m [] k) (hm : m.Numbered)
    (ha : b.draft.Arranged m (front ++ c :: back)) (hkept : c.kept.isSome)
    (hid : stmt.origin.id = c.id) {target : Target} {name : String}
    (hgives : (Drafting.bindImported stmt target name).Gives b true b') :
    ∃ binding constant messages, b.draft.scope.moduleBinding? name = some binding ∧
      binding.uses ≠ [] ∧ b'.gate.variableName = some messages ∧
      (∀ v, b.gate.variableName = some v → v = messages) ∧
      b'.draft.Arranged m
        (front.map (Chunk.mapIds (Identifier.renamedAll binding.uses constant)) ++
          (c.mapIds (Identifier.renamedAll binding.uses constant)).extend
            [Stmt.boundConstant constant name messages b.draft.next] ::
          back.map (Chunk.mapIds (Identifier.renamedAll binding.uses constant))) := by
  rcases Drafting.gives_bindImported hgives with ⟨-, hfalse, -⟩ |
    ⟨binding, constant, messages, b₁, b₂, hbinding, hne, -, hfresh, hrequest, happend⟩
  · cases hfalse
  · obtain ⟨hmem, -⟩ := Draft.mem_bindings_of_moduleBinding? hbinding
    have hdrawn := h.freshName hfresh
    obtain ⟨-, rfl⟩ := Drafting.gives_freshName hfresh
    have hrenamed := hdrawn.renameBinding (by rwa [Scope.bindings_reserve]) constant
    obtain ⟨hrequested, hvariable, hsequence⟩ := hrenamed.request hrequest
    have hnext : b₂.draft.next = b.draft.next :=
      (Gate.next_request hrequest).trans (Draft.next_renameUses ..)
    have hold : ∀ v, b.gate.variableName = some v → v = messages := fun v hv =>
      Gate.eq_of_gives_request hrequest hv
    have hreserved : Draft.Arranged m (front ++ c :: back)
        { b.draft with scope := b.draft.scope.reserve constant } := ha.congr rfl
    have hall : b₂.draft.Arranged m ((front ++ c :: back).map
        (Chunk.mapIds (Identifier.renamedAll binding.uses constant))) :=
      (hreserved.renameUses constant binding.uses).congr hsequence
    rw [List.map_append, List.map_cons] at hall
    obtain ⟨hthere, -, hgate⟩ := hrequested.arranged_append hm hall
      (by simpa [Chunk.mapIds] using hkept) hid (Stmt.boundConstant_addedAt ..) happend
    rw [hnext] at hthere
    exact ⟨binding, constant, messages, hbinding, hne, hgate ▸ hvariable, hold, hthere⟩

/-- **Making a re-export anew** appends an import, a constant and an export. -/
theorem arranged_moveExport (h : b.Extends m [] k) (hm : m.Numbered)
    (ha : b.draft.Arranged m (front ++ c :: back)) (hkept : c.kept.isSome)
    (hid : stmt.origin.id = c.id) {target : Target} {s : ExportSpecifier} {u : Unit}
    (hgives : (Drafting.moveExport stmt target s).Gives b u b') :
    ∃ imported bound messages, b'.gate.variableName = some messages ∧
      (∀ v, b.gate.variableName = some v → v = messages) ∧
      b'.draft.Arranged m (front ++
        c.extend (Rehoming.stmts ⟨target, s, imported, bound, b.draft.next⟩ messages) :: back) := by
  obtain ⟨imported, bound, messages, b₁, b₂, b₃, b₄, b₅, himported, hbound, hrequest, himport,
    hconstant, hexport⟩ := Drafting.gives_moveExport hgives
  have hdrawn := (h.freshName himported).freshName hbound
  obtain ⟨-, rfl⟩ := Drafting.gives_freshName himported
  obtain ⟨-, rfl⟩ := Drafting.gives_freshName hbound
  obtain ⟨hrequested, hvariable, hsequence⟩ := hdrawn.request hrequest
  have hnext : b₃.draft.next = b.draft.next := (Gate.next_request hrequest).trans rfl
  have hold : ∀ v, b.gate.variableName = some v → v = messages := fun v hv =>
    Gate.eq_of_gives_request hrequest hv
  obtain ⟨hfirst, hgate₄⟩ := hrequested.append (Stmt.addedImport_addedAt ..) rfl
    (List.Perm.swap imported bound []) himport
  obtain ⟨hsecond, hgate₅⟩ := hfirst.append (Stmt.boundConstant_addedAt ..) rfl
    (List.Perm.refl _) hconstant
  obtain ⟨ha₄, hnext₄, -⟩ := hrequested.arranged_append hm (ha.congr hsequence) hkept hid
    (Stmt.addedImport_addedAt ..) himport
  obtain ⟨ha₅, hnext₅, -⟩ := hfirst.arranged_append hm ha₄ hkept hid
    (Stmt.boundConstant_addedAt ..) hconstant
  obtain ⟨ha₆, -, hgate₆⟩ := hsecond.arranged_append hm ha₅ hkept hid
    (Stmt.addedExport_addedAt ..) hexport
  rw [hnext₅, hnext₄, hnext, Chunk.extend_extend, Chunk.extend_extend] at ha₆
  refine ⟨imported, bound, messages, ?_, hold, ha₆⟩
  rw [hgate₆, hgate₅, hgate₄, hvariable]

/-- Making re-exports anew appends three statements for each. -/
theorem arranged_moveAll (h : b.Extends m [] k) (hm : m.Numbered)
    (ha : b.draft.Arranged m (front ++ c :: back)) (hkept : c.kept.isSome)
    (hid : stmt.origin.id = c.id) {target : Target} {specifiers : List ExportSpecifier} {u : Unit}
    (hgives : (Drafting.moveAll stmt target specifiers).Gives b u b') :
    ∃ (rs : List Rehoming) (messages : String),
      rs.map (fun r => (r.target, r.specifier)) = specifiers.map (target, ·) ∧
      (∀ v, b.gate.variableName = some v → b'.gate.variableName = some v) ∧
      (rs ≠ [] → b'.gate.variableName = some messages) ∧
      b'.draft.Arranged m (front ++ c.extend (rs.flatMap (·.stmts messages)) :: back) := by
  induction specifiers generalizing b c k with
  | nil =>
    obtain ⟨-, rfl⟩ := Drafting.gives_pure hgives
    refine ⟨[], "", rfl, fun v hv => hv, by simp, ?_⟩
    rw [List.flatMap_nil, Chunk.extend_nil]
    exact ha
  | cons s specifiers ih =>
    obtain ⟨u₁, b₁, hmove, hrest⟩ := Drafting.gives_bind hgives
    obtain ⟨imported, bound, messages, hvariable, hold, ha₁⟩ :=
      h.arranged_moveExport hm ha hkept hid hmove
    obtain ⟨rs, messages', hrs, hstays, hmessages, ha'⟩ :=
      ih (h.moveExport hmove) ha₁ hkept hid hrest
    have hthere := hstays _ hvariable
    refine ⟨⟨target, s, imported, bound, b.draft.next⟩ :: rs, messages, ?_, fun v hv => ?_,
      fun _ => hthere, ?_⟩
    · rw [List.map_cons, hrs, List.map_cons]
    · rw [hold v hv]
      exact hthere
    · have hsame : rs.flatMap (·.stmts messages') = rs.flatMap (·.stmts messages) := by
        by_cases hnil : rs = []
        · rw [hnil]
          rfl
        · rw [Option.some.inj ((hmessages hnil).symm.trans hthere)]
      rw [Chunk.extend_extend, hsame] at ha'
      exact ha'

/-- **Making the matching re-exports of a list anew** pares the list and appends to it. -/
theorem arranged_moveMatching (h : b.Extends m [] k) (hm : m.Numbered)
    (ha : b.draft.Arranged m (front ++ c :: back)) {target : Target}
    {specifiers : List ExportSpecifier} {source : CodeText} {o : Origin} {n : Nat}
    (hkept : c.kept = some (.exportNamed specifiers (some source) o))
    (hgives : (Drafting.moveMatching target specifiers (some source) o).Gives b n b') :
    ∃ (rs : List Rehoming) (messages : String),
      rs.map (fun r => (r.target, r.specifier))
        = (specifiers.filter target.matchesExport).map (target, ·) ∧
      (∀ v, b.gate.variableName = some v → b'.gate.variableName = some v) ∧
      (rs ≠ [] → b'.gate.variableName = some messages) ∧
      b'.draft.Arranged m (front ++ ({ c with
        kept := if (specifiers.filter (!target.matchesExport ·)).isEmpty then none
          else some (.exportNamed (specifiers.filter (!target.matchesExport ·)) (some source) o)
        } : Chunk).extend (rs.flatMap (·.stmts messages)) :: back) := by
  obtain ⟨-, b₁, hmove, hrest⟩ := Drafting.gives_moveMatching hgives
  have hid : o.id = c.id := ha.kept c (by simp) _ hkept
  have hsub : (specifiers.filter (!target.matchesExport ·)).Sublist specifiers :=
    List.filter_sublist
  have hbody := ha.body_kept hkept
  have hpared := h.pare hbody (Stmt.pared_exportNamed hsub source o)
  have hreplaced : (b.draft.replace (.exportNamed (specifiers.filter (!target.matchesExport ·))
      (some source) o)).Arranged m _ := ha.replace h.draft.inOrder hkept hid
  have hreplace : b.draft.replace
      (.exportNamed (specifiers.filter (!target.matchesExport ·)) (some source) o) = _ :=
    h.draft.inOrder.replace_eq hbody rfl
  rw [hreplace] at hmove hreplaced
  obtain ⟨rs, messages, hrs, hstays, hmessages, ha₁⟩ :=
    hpared.arranged_moveAll hm hreplaced rfl (by exact hid) hmove
  rcases hrest with ⟨hne, rfl⟩ | ⟨hempty, hedit⟩
  · refine ⟨rs, messages, hrs, hstays, hmessages, ?_⟩
    rw [if_neg fun hempty => hne (List.isEmpty_iff.1 hempty)]
    exact ha₁
  · obtain ⟨d, hremove, rfl⟩ := Drafting.gives_edit hedit
    refine ⟨rs, messages, hrs, hstays, hmessages, ?_⟩
    have hgone := ha₁.remove (hpared.moveAll hmove).draft.inOrder rfl (by exact hid) hremove
    rw [hempty]
    exact hgone

end Bench.Extends

end MessageBinder
