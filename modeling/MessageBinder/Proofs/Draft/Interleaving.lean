import Mathlib.Data.List.Induction
import MessageBinder.Proofs.Draft.Editing
import MessageBinder.Tree.Same

/-!
# Interleaved edits of a sequence

Statements are appended to several statements of one sequence in turns, and each of those may be
removed once something was appended to it, with more to be appended later. Whatever the order of
the calls is, every statement of the original sequence has a *row* of its own
(`MessageBinder.Sequence.Edit.row`): itself, unless it was removed, and what was appended to it so
far. The sequence is always made up of the rows in the original order
(`MessageBinder.Sequence.Settled`), and the tail of a statement is the end of its row
(`MessageBinder.Sequence.Edit.exists_row_eq`). That is all a step needs: a tail has a number that no
other statement has, so it is found where its row ends, however the other rows have changed, and
whether the statement the row began with is still there or not.

What a statement looks like never matters, only which one it is: a run on other statements of the
same numbers has the same outcome (`MessageBinder.Sequence.rows_of_interleaved`).
-/

namespace MessageBinder

namespace Sequence

/-! ### Edits that succeed -/

section Succeed

variable {front back : List Stmt} {s anchor stmt : Stmt} {tails : List (Nat × Stmt)}

/-- A statement is found where the first one with its number stands. -/
theorem indexOf_append (hfront : ∀ x ∈ front, x.origin.id ≠ anchor.origin.id)
    (hs : s.origin.id = anchor.origin.id) :
    indexOf ⟨front ++ s :: back, tails⟩ anchor = .ok front.length := by
  have hnone : front.findIdx? (·.origin.id = anchor.origin.id) = none :=
    List.findIdx?_eq_none_iff.2 fun x hx => decide_eq_false (hfront x hx)
  rw [indexOf, List.findIdx?_append, hnone, List.findIdx?_cons, if_pos (decide_eq_true hs)]
  simp

theorem appendAfter_append {origin : Stmt}
    (htail : tailOf ⟨front ++ s :: back, tails⟩ origin = anchor)
    (hfront : ∀ x ∈ front, x.origin.id ≠ anchor.origin.id)
    (hs : s.origin.id = anchor.origin.id) :
    appendAfter ⟨front ++ s :: back, tails⟩ origin stmt
      = .ok ⟨front ++ s :: stmt :: back, (origin.origin.id, stmt) :: tails⟩ := by
  have hinsert : (front ++ s :: back).insertIdx (front.length + 1) stmt
      = front ++ s :: stmt :: back := by
    clear htail hfront
    induction front with
    | nil => rfl
    | cons x front ih => rw [List.cons_append, List.length_cons, List.insertIdx_succ_cons, ih]; rfl
  rw [appendAfter, htail, insertAfter, indexOf_append hfront hs]
  simp only [bind, Except.bind, pure, Except.pure, hinsert]

theorem remove_append (hfront : ∀ x ∈ front, x.origin.id ≠ anchor.origin.id)
    (hs : s.origin.id = anchor.origin.id) :
    remove ⟨front ++ s :: back, tails⟩ anchor = .ok ⟨front ++ back, tails⟩ := by
  have herase : (front ++ s :: back).eraseIdx front.length = front ++ back := by
    rw [List.eraseIdx_append_of_length_le (Nat.le_refl _), Nat.sub_self, List.eraseIdx_cons_zero]
  rw [remove, indexOf_append hfront hs]
  simp only [bind, Except.bind, pure, Except.pure, herase]

end Succeed

/-! ### Runs of edits -/

/-- A call that edits a sequence. -/
inductive Edit where
  /-- A statement is appended to another one. -/
  | append (origin stmt : Stmt)
  /-- A statement is removed. -/
  | remove (origin : Stmt)

namespace Edit

/-- The statement that is appended to or removed. -/
def origin : Edit → Stmt
  | append origin _ | remove origin => origin

/-- The statements that edits append. -/
def appended (es : List Edit) : List Stmt :=
  es.filterMap fun
    | append _ stmt => some stmt
    | remove _ => none

/-- The statements that edits append to one statement, in the order of the calls. -/
def appendedTo (es : List Edit) (s : Stmt) : List Stmt :=
  es.filterMap fun
    | append origin stmt => if origin.origin.id = s.origin.id then some stmt else none
    | remove _ => none

/-- Whether edits remove a statement. -/
def removes (es : List Edit) (s : Stmt) : Bool :=
  es.any fun
    | append .. => false
    | remove origin => origin.origin.id = s.origin.id

/-- A statement, unless it is removed, and then all that is appended to it. -/
def row (es : List Edit) (s : Stmt) : List Stmt :=
  (if removes es s then [] else [s]) ++ appendedTo es s

/-- The edit on statements that are replaced. -/
def map (f : Stmt → Stmt) : Edit → Edit
  | append origin stmt => append (f origin) (f stmt)
  | remove origin => remove (f origin)

end Edit

/-- The sequence after one edit. -/
def edit (q : Sequence) : Edit → Except AbsentStmt Sequence
  | .append origin stmt => q.appendAfter origin stmt
  | .remove origin => q.remove origin

/-- The sequence after edits, one after the other. -/
def run (q : Sequence) (es : List Edit) : Except AbsentStmt Sequence := es.foldlM edit q

theorem run_concat (q : Sequence) (es : List Edit) (e : Edit) :
    q.run (es ++ [e]) = q.run es >>= (edit · e) := by
  rw [run, List.foldlM_append, run]
  simp only [List.foldlM_cons, List.foldlM_nil, bind_pure]

/-- **Edits interleave** over a sequence of statements if they concern statements that stand in it
once, append statements that are new and different, and remove a statement at most once and only
after something was appended to it. -/
structure Interleaved (body : List Stmt) (es : List Edit) : Prop where
  /-- What is edited stands in the sequence. -/
  mem : ∀ e ∈ es, e.origin ∈ body
  /-- It stands there once. -/
  once : ∀ e ∈ es, body.countP (·.origin.id = e.origin.origin.id) = 1
  /-- What is appended is none of the statements that were there. -/
  fresh : ∀ stmt ∈ Edit.appended es, ∀ s ∈ body, s.origin.id ≠ stmt.origin.id
  /-- No statement is appended twice. -/
  nodup : ((Edit.appended es).map (·.origin.id)).Nodup
  /-- What is removed was appended to before, and was not removed before. -/
  removals : ∀ before origin, before ++ [.remove origin] <+: es →
    Edit.appendedTo before origin ≠ [] ∧ Edit.removes before origin = false

/-- **A sequence is settled** if it consists of the rows of the original statements in their order,
and the tail of each is the last statement that was appended to it. -/
structure Settled (body : List Stmt) (es : List Edit) (q : Sequence) : Prop where
  /-- The statements. -/
  body : q.body = body.flatMap (Edit.row es)
  /-- The tails. -/
  tails : ∀ s, q.tailOf s = (Edit.appendedTo es s).getLast?.getD s

/-! ### Rows -/

namespace Edit

variable {es : List Edit} {origin stmt s : Stmt}

@[simp] theorem appendedTo_concat_append :
    appendedTo (es ++ [append origin stmt]) s
      = appendedTo es s ++ if origin.origin.id = s.origin.id then [stmt] else [] := by
  rw [appendedTo, List.filterMap_append, appendedTo]
  by_cases h : origin.origin.id = s.origin.id <;> simp [h]

@[simp] theorem appendedTo_concat_remove :
    appendedTo (es ++ [remove origin]) s = appendedTo es s := by
  simp [appendedTo]

@[simp] theorem removes_concat_append :
    removes (es ++ [append origin stmt]) s = removes es s := by
  simp [removes]

@[simp] theorem removes_concat_remove :
    removes (es ++ [remove origin]) s
      = (removes es s || origin.origin.id = s.origin.id) := by
  simp [removes]

theorem appendedTo_sublist (es : List Edit) (s : Stmt) :
    (appendedTo es s).Sublist (appended es) := by
  induction es with
  | nil => exact List.Sublist.refl _
  | cons e es ih =>
    cases e with
    | remove => exact ih
    | append origin stmt =>
      by_cases h : origin.origin.id = s.origin.id
      · simpa [appendedTo, appended, h] using ih
      · simpa [appendedTo, appended, h] using ih.cons stmt

/-- A statement is appended to one statement only, as the numbers of all that is appended differ. -/
theorem eq_of_mem_appendedTo {s t x y : Stmt} (hnodup : ((appended es).map (·.origin.id)).Nodup)
    (hx : x ∈ appendedTo es s) (hy : y ∈ appendedTo es t) (hxy : x.origin.id = y.origin.id) :
    s.origin.id = t.origin.id := by
  induction es with
  | nil => cases hx
  | cons e es ih =>
    cases e with
    | remove => exact ih hnodup hx hy
    | append origin stmt =>
      obtain ⟨hnew, hnodup⟩ := List.nodup_cons.1 hnodup
      have hother : ∀ z u, z ∈ appendedTo es u → stmt.origin.id ≠ z.origin.id := fun z u hz heq =>
        hnew (List.mem_map.2 ⟨z, (appendedTo_sublist es u).subset hz, heq.symm⟩)
      have hcons : ∀ z u, z ∈ appendedTo (append origin stmt :: es) u →
          (z = stmt ∧ origin.origin.id = u.origin.id) ∨ z ∈ appendedTo es u := fun z u hz => by
        by_cases h : origin.origin.id = u.origin.id
        · simpa [appendedTo, h] using hz
        · exact Or.inr (by simpa [appendedTo, h] using hz)
      rcases hcons x s hx with ⟨rfl, hs⟩ | hx'
      · rcases hcons y t hy with ⟨-, ht⟩ | hy'
        · exact hs.symm.trans ht
        · exact absurd hxy (hother y t hy')
      · rcases hcons y t hy with ⟨rfl, -⟩ | hy'
        · exact absurd hxy.symm (hother x s hx')
        · exact ih hnodup hx' hy'

theorem mem_row {x : Stmt} (hx : x ∈ row es s) : x = s ∨ x ∈ appendedTo es s := by
  rw [row] at hx
  split at hx
  · exact Or.inr hx
  · exact List.mem_cons.1 hx

/-- **The tail ends the row**, if the statement that the row began with was appended to before it
was removed. -/
theorem exists_row_eq (h : removes es s → appendedTo es s ≠ []) :
    ∃ front, row es s = front ++ [(appendedTo es s).getLast?.getD s] := by
  rcases List.eq_nil_or_concat (appendedTo es s) with hnil | ⟨front, t, hconcat⟩
  · have hstays : removes es s = false := Bool.eq_false_iff.2 fun hgone => h hgone hnil
    exact ⟨[], by simp [row, hnil, hstays]⟩
  · rw [List.concat_eq_append] at hconcat
    refine ⟨(if removes es s then [] else [s]) ++ front, ?_⟩
    simp [row, hconcat]

/-- An edit concerns the row of one statement. -/
theorem row_concat_of_ne {e : Edit} (h : e.origin.origin.id ≠ s.origin.id) :
    row (es ++ [e]) s = row es s := by
  cases e with
  | append origin stmt =>
    have hne : ¬origin.origin.id = s.origin.id := h
    rw [row, removes_concat_append, appendedTo_concat_append, if_neg hne, List.append_nil, row]
  | remove origin =>
    have hne : decide (origin.origin.id = s.origin.id) = false := decide_eq_false h
    rw [row, removes_concat_remove, appendedTo_concat_remove, hne, Bool.or_false, row]

section Map

variable {f : Stmt → Stmt} (hf : ∀ s, (f s).origin.id = s.origin.id) (es : List Edit) (s : Stmt)
include hf

theorem removes_map : removes (es.map (Edit.map f)) (f s) = removes es s := by
  rw [removes, List.any_map, removes]
  congr 1
  funext e
  cases e <;> simp [Edit.map, hf]

theorem appendedTo_map : appendedTo (es.map (Edit.map f)) (f s) = (appendedTo es s).map f := by
  rw [appendedTo, List.filterMap_map, appendedTo, List.map_filterMap]
  congr 1
  funext e
  cases e with
  | remove => rfl
  | append origin stmt =>
    simp only [Function.comp_apply, Edit.map, hf]
    split <;> rfl

theorem row_map : row (es.map (Edit.map f)) (f s) = (row es s).map f := by
  rw [row, removes_map hf, appendedTo_map hf, row, List.map_append]
  split <;> rfl

end Map

end Edit

/-! ### What a step preserves -/

namespace Interleaved

variable {body : List Stmt} {es : List Edit} {e : Edit} {s t x y : Stmt}

theorem of_prefix {before : List Edit} (h : Interleaved body es) (hbefore : before <+: es) :
    Interleaved body before where
  mem e he := h.mem e (hbefore.subset he)
  once e he := h.once e (hbefore.subset he)
  fresh stmt hstmt := h.fresh stmt ((hbefore.sublist.filterMap _).subset hstmt)
  nodup := h.nodup.sublist ((hbefore.sublist.filterMap _).map _)
  removals _ _ hearlier := h.removals _ _ (hearlier.trans hbefore)

/-- The rows of two statements have no number in common. -/
theorem ne_of_mem_row (h : Interleaved body es) (hs : s ∈ body) (ht : t ∈ body)
    (hne : s.origin.id ≠ t.origin.id) (hx : x ∈ Edit.row es s) (hy : y ∈ Edit.row es t) :
    x.origin.id ≠ y.origin.id := by
  rcases Edit.mem_row hx with rfl | hx
  · rcases Edit.mem_row hy with rfl | hy
    · exact hne
    · exact h.fresh y ((Edit.appendedTo_sublist es t).subset hy) x hs
  · rcases Edit.mem_row hy with rfl | hy
    · exact (h.fresh x ((Edit.appendedTo_sublist es s).subset hx) y ht).symm
    · exact fun heq => hne (Edit.eq_of_mem_appendedTo h.nodup hx hy heq)

/-- The statements of a row have different numbers. -/
theorem nodup_row (h : Interleaved body es) (hs : s ∈ body) :
    ((Edit.row es s).map (·.origin.id)).Nodup := by
  have hsub := Edit.appendedTo_sublist es s
  have hnodup := h.nodup.sublist (hsub.map (·.origin.id))
  rw [Edit.row]
  split
  · exact hnodup
  · refine List.nodup_cons.2 ⟨fun hmem => ?_, hnodup⟩
    obtain ⟨y, hy, heq⟩ := List.mem_map.1 hmem
    exact h.fresh y (hsub.subset hy) s hs heq.symm

/-- The place of a statement that is edited: no statement before or behind it has its number. -/
theorem exists_split (h : Interleaved body es) (he : e ∈ es) :
    ∃ front back, body = front ++ e.origin :: back ∧
      ∀ s, s ∈ front ∨ s ∈ back → s ∈ body ∧ e.origin.origin.id ≠ s.origin.id := by
  obtain ⟨front, back, hbody⟩ := List.append_of_mem (h.mem e he)
  have honce := h.once e he
  rw [hbody, List.countP_append, List.countP_cons_of_pos (by simp)] at honce
  have hfront : front.countP (·.origin.id = e.origin.origin.id) = 0 := by omega
  have hback : back.countP (·.origin.id = e.origin.origin.id) = 0 := by omega
  rw [List.countP_eq_zero] at hfront hback
  refine ⟨front, back, hbody, ?_⟩
  rintro s (hs | hs)
  · exact ⟨hbody ▸ List.mem_append_left _ hs, fun heq => hfront s hs (by simpa using heq.symm)⟩
  · refine ⟨hbody ▸ List.mem_append_right _ (List.mem_cons_of_mem _ hs), fun heq => ?_⟩
    exact hback s hs (by simpa using heq.symm)

/-- What was removed was appended to. -/
theorem appendedTo_ne_nil (h : Interleaved body es) (hremoved : Edit.removes es s) :
    Edit.appendedTo es s ≠ [] := by
  obtain ⟨e, he, hes⟩ := List.any_eq_true.1 hremoved
  cases e with
  | append => cases hes
  | remove origin =>
    obtain ⟨before, after, rfl⟩ := List.append_of_mem he
    have hid : origin.origin.id = s.origin.id := of_decide_eq_true hes
    have hbefore := (h.removals before origin ⟨after, by simp⟩).1
    rw [Edit.appendedTo, hid] at hbefore
    rw [Edit.appendedTo, List.filterMap_append]
    exact fun hnil => hbefore (List.append_eq_nil_iff.1 hnil).1

/-- The rows of the other statements stay as they are. -/
theorem flatMap_row_concat {part : List Stmt}
    (hpart : ∀ s ∈ part, e.origin.origin.id ≠ s.origin.id) :
    part.flatMap (Edit.row (es ++ [e])) = part.flatMap (Edit.row es) :=
  List.flatMap_congr fun s hs => Edit.row_concat_of_ne (hpart s hs)

/-- **The row of the statement that an edit concerns** is cut out of the sequence: what stands
before it and behind it stays as it is, and what stands before it has other numbers. -/
theorem exists_cut (h : Interleaved body (es ++ [e])) :
    ∃ front back, body.flatMap (Edit.row es) = front ++ (Edit.row es e.origin ++ back) ∧
      body.flatMap (Edit.row (es ++ [e])) = front ++ (Edit.row (es ++ [e]) e.origin ++ back) ∧
      ∀ x ∈ front, ∀ y ∈ Edit.row es e.origin, x.origin.id ≠ y.origin.id := by
  have hes := h.of_prefix (List.prefix_append es [e])
  have he : e ∈ es ++ [e] := by simp
  obtain ⟨front, back, hbody, hapart⟩ := h.exists_split he
  refine ⟨front.flatMap (Edit.row es), back.flatMap (Edit.row es), ?_, ?_, ?_⟩
  · rw [hbody, List.flatMap_append, List.flatMap_cons]
  · rw [hbody, List.flatMap_append, List.flatMap_cons,
      flatMap_row_concat fun s hs => (hapart s (Or.inl hs)).2,
      flatMap_row_concat fun s hs => (hapart s (Or.inr hs)).2]
  · intro x hx y hy
    obtain ⟨s, hs, hx⟩ := List.mem_flatMap.1 hx
    obtain ⟨hsbody, hne⟩ := hapart s (Or.inl hs)
    exact hes.ne_of_mem_row hsbody (h.mem e he) hne.symm hx hy

/-- **A statement can be appended** to a settled sequence: the tail is found at the end of the row,
as no other statement up to there has its number. -/
theorem exists_appendAfter_eq_ok {q : Sequence} {origin stmt : Stmt}
    (h : Interleaved body (es ++ [.append origin stmt])) (hq : Settled body es q) :
    ∃ q', q.appendAfter origin stmt = .ok q' ∧ Settled body (es ++ [.append origin stmt]) q' := by
  have hes := h.of_prefix (List.prefix_append es _)
  obtain ⟨front, back, hcut, hcut', hfront⟩ := h.exists_cut
  obtain ⟨start, hrow⟩ := Edit.exists_row_eq fun hgone => hes.appendedTo_ne_nil (s := origin) hgone
  have hrow' : Edit.row (es ++ [.append origin stmt]) origin = Edit.row es origin ++ [stmt] := by
    simp [Edit.row]
  have hnodup := hes.nodup_row (h.mem _ (List.mem_append_right _ List.mem_cons_self))
  rw [Edit.origin, hrow] at hnodup hcut hfront
  rw [Edit.origin, hrow', hrow] at hcut'
  set tail := (Edit.appendedTo es origin).getLast?.getD origin with htail
  have hapart : ∀ x ∈ front ++ start, x.origin.id ≠ tail.origin.id := by
    intro x hx
    rcases List.mem_append.1 hx with hx | hx
    · exact hfront x hx tail (by simp)
    · rw [List.map_append, List.nodup_append] at hnodup
      exact hnodup.2.2 _ (List.mem_map_of_mem hx) _ (by simp)
  obtain ⟨statements, tails⟩ := q
  have hstatements : statements = front ++ start ++ tail :: back := by
    rw [show statements = _ from hq.body, hcut]
    simp
  subst hstatements
  refine ⟨_, appendAfter_append (hq.tails origin) hapart rfl, ?_, fun s => ?_⟩
  · rw [hcut']
    simp
  · rw [Edit.appendedTo_concat_append, tailOf]
    by_cases hs : origin.origin.id = s.origin.id
    · rw [List.find?_cons_of_pos (by simpa using hs), if_pos hs, List.getLast?_concat]
      rfl
    · rw [List.find?_cons_of_neg (by simpa using hs), if_neg hs, List.append_nil]
      exact hq.tails s

/-- **A statement can be removed** from a settled sequence: its row begins with it. -/
theorem exists_remove_eq_ok {q : Sequence} {origin : Stmt}
    (h : Interleaved body (es ++ [.remove origin])) (hq : Settled body es q) :
    ∃ q', q.remove origin = .ok q' ∧ Settled body (es ++ [.remove origin]) q' := by
  obtain ⟨front, back, hcut, hcut', hfront⟩ := h.exists_cut
  have hstays := (h.removals es origin (List.prefix_refl _)).2
  have hrow : Edit.row es origin = origin :: Edit.appendedTo es origin := by
    simp [Edit.row, hstays]
  have hrow' : Edit.row (es ++ [.remove origin]) origin = Edit.appendedTo es origin := by
    simp [Edit.row]
  rw [Edit.origin, hrow] at hcut hfront
  rw [Edit.origin, hrow'] at hcut'
  obtain ⟨statements, tails⟩ := q
  obtain rfl : statements = front ++ origin :: (Edit.appendedTo es origin ++ back) :=
    hq.body.trans hcut
  refine ⟨_, remove_append (fun x hx => hfront x hx origin List.mem_cons_self) rfl, ?_, fun s => ?_⟩
  · rw [hcut']
  · rw [Edit.appendedTo_concat_remove]
    exact hq.tails s

/-- **A run of interleaved edits** succeeds and leaves the sequence settled. The induction is on the
edits from the last one back. -/
theorem exists_run_eq_ok (h : Interleaved body es) :
    ∃ q, run ⟨body, []⟩ es = .ok q ∧ Settled body es q := by
  induction es using List.reverseRecOn with
  | nil => exact ⟨⟨body, []⟩, rfl, (List.flatMap_singleton' body).symm, fun s => rfl⟩
  | append_singleton es e ih =>
    obtain ⟨q, hrun, hq⟩ := ih (h.of_prefix (List.prefix_append es [e]))
    rw [run_concat, hrun]
    cases e with
    | append origin stmt => exact h.exists_appendAfter_eq_ok hq
    | remove origin => exact h.exists_remove_eq_ok hq

/-- Edits interleave over statements that are replaced, as long as these keep their numbers. -/
theorem map {f : Stmt → Stmt} (hf : ∀ s, (f s).origin.id = s.origin.id)
    (h : Interleaved body es) : Interleaved (body.map f) (es.map (Edit.map f)) := by
  have horigin : ∀ e, (Edit.map f e).origin = f e.origin := fun e => by cases e <;> rfl
  have happended : Edit.appended (es.map (Edit.map f)) = (Edit.appended es).map f := by
    rw [Edit.appended, List.filterMap_map, Edit.appended, List.map_filterMap]
    congr 1
    funext e
    cases e <;> rfl
  have hnumbers : ∀ l : List Stmt, (l.map f).map (·.origin.id) = l.map (·.origin.id) := fun l => by
    rw [List.map_map]
    exact List.map_congr_left fun s _ => hf s
  constructor
  · simp only [List.forall_mem_map, horigin]
    exact fun e he => List.mem_map_of_mem (h.mem e he)
  · simp only [List.forall_mem_map, horigin, List.countP_map, hf, Function.comp_def]
    exact h.once
  · simp only [happended, List.forall_mem_map, hf]
    exact h.fresh
  · rw [happended, hnumbers]
    exact h.nodup
  · intro before origin hbefore
    obtain ⟨earlier, hearlier, heq⟩ := List.prefix_map_iff.1 hbefore
    obtain ⟨before, last, rfl, rfl, hlast⟩ := List.map_eq_append_iff.1 heq.symm
    obtain ⟨e, rfl, he⟩ := List.map_eq_singleton_iff.1 hlast
    cases e with
    | append => cases he
    | remove origin =>
      obtain rfl := Edit.remove.inj he
      rw [Edit.appendedTo_map hf, Edit.removes_map hf, Ne, List.map_eq_nil_iff]
      exact h.removals before origin hearlier

end Interleaved

/-- **Interleaved edits keep the order of the calls for each origin.** At every moment of a run no
call has failed, and the sequence consists of the original statements in their order, each unless it
was removed and followed by exactly what was appended to it so far, in the order of the calls. Which
statement is meant depends on its number only: if the statements are replaced by others of the same
numbers, as similar to each other as they may be, the run ends with the replaced statements. -/
theorem rows_of_interleaved {body : List Stmt} {es : List Edit} (h : Interleaved body es) :
    (∀ before, before <+: es →
      ∃ q, run ⟨body, []⟩ before = .ok q ∧ q.body = body.flatMap (Edit.row before)) ∧
    ∀ f : Stmt → Stmt, (∀ s, (f s).origin.id = s.origin.id) →
      ∃ q, run ⟨body.map f, []⟩ (es.map (Edit.map f)) = .ok q ∧
        q.body = (body.flatMap (Edit.row es)).map f := by
  constructor
  · intro before hbefore
    obtain ⟨q, hrun, hq⟩ := (h.of_prefix hbefore).exists_run_eq_ok
    exact ⟨q, hrun, hq.body⟩
  · intro f hf
    obtain ⟨q, hrun, hq⟩ := (h.map hf).exists_run_eq_ok
    refine ⟨q, hrun, ?_⟩
    rw [hq.body, List.flatMap_map, List.map_flatMap]
    exact List.flatMap_congr fun s _ => Edit.row_map hf es s

/-- Two statements of the same form are told apart: statements of that form too are appended to each
in turns, and the first one is removed in between. -/
theorem rows_of_interleaved_alike :
    ∃ s : Nat → Stmt, (∀ i j, (s i).same (s j)) ∧
      Interleaved [s 0, s 1] [.append (s 0) (s 2), .append (s 1) (s 3), .remove (s 0),
        .append (s 1) (s 4), .append (s 0) (s 5)] ∧
      ∃ q, run ⟨[s 0, s 1], []⟩ [.append (s 0) (s 2), .append (s 1) (s 3), .remove (s 0),
        .append (s 1) (s 4), .append (s 0) (s 5)] = .ok q ∧
        q.body = [s 2, s 5, s 1, s 3, s 4] := by
  let s : Nat → Stmt := fun n => .expr (.name ⟨"f", .synthetic n⟩) (.synthetic n)
  have hedits : Interleaved [s 0, s 1] [.append (s 0) (s 2), .append (s 1) (s 3), .remove (s 0),
      .append (s 1) (s 4), .append (s 0) (s 5)] := by
    refine ⟨by simp [Edit.origin], by decide, by decide, by decide, ?_⟩
    rintro before origin ⟨after, heq⟩
    rcases before with _ | ⟨_, _ | ⟨_, _ | ⟨_, _ | ⟨_, _ | ⟨_, before⟩⟩⟩⟩⟩ <;>
      simp only [List.cons_append, List.nil_append, List.cons.injEq, reduceCtorEq, false_and,
        and_false, Edit.remove.injEq, List.append_eq_nil_iff] at heq
    obtain ⟨rfl, rfl, rfl, -⟩ := heq
    exact ⟨by decide, by decide⟩
  obtain ⟨q, hrun, hq⟩ := (rows_of_interleaved hedits).1 _ (List.prefix_refl _)
  exact ⟨s, fun i j => by simp [s, Stmt.same, Expr.same], hedits, q, hrun, hq⟩

end Sequence

end MessageBinder
