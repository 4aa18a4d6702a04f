import MessageBinder.Proofs.Draft.Editing

/-!
# Where added statements go

A statement appended to another one stands behind it with nothing but added statements between the
two (`MessageBinder.Stmt.Behind`), and it stays there: later statements may come in between, and a
re-export may go, but no statement of the module gets between. What makes appending work is that the
tail remembered for a statement stands behind it (`MessageBinder.Sequence.Laid`).

Added statements are known by their numbers, which are those from the number of the module on.
-/

namespace MessageBinder

namespace Stmt

/-- A list leads to a statement over added statements only. -/
inductive Leads (n : Nat) (x : Stmt) : List Stmt → Prop
  /-- The statement is first. -/
  | here (ss : List Stmt) : Leads n x (x :: ss)
  /-- The statement comes after an added one. -/
  | past {s : Stmt} {ss : List Stmt} (hs : n ≤ s.origin.id) (h : Leads n x ss) : Leads n x (s :: ss)

/-- **A statement stands behind** the one with a given number, with added statements between. -/
inductive Behind (n i : Nat) (x : Stmt) : List Stmt → Prop
  /-- The one with the number is first. -/
  | start {s : Stmt} {ss : List Stmt} (hs : s.origin.id = i) (h : Leads n x ss) :
    Behind n i x (s :: ss)
  /-- Both come later. -/
  | later (s : Stmt) {ss : List Stmt} (h : Behind n i x ss) : Behind n i x (s :: ss)

variable {n i : Nat} {x y z : Stmt} {front back : List Stmt}

namespace Leads

theorem mem {ss : List Stmt} (h : Leads n x ss) : x ∈ ss := by
  induction h with
  | here => exact List.mem_cons_self
  | past _ _ ih => exact List.mem_cons_of_mem _ ih

theorem insert (h : Leads n x (front ++ back)) (hz : n ≤ z.origin.id) :
    Leads n x (front ++ z :: back) := by
  induction front with
  | nil => exact past hz h
  | cons s front ih =>
    cases h with
    | here => exact here _
    | past hs h => exact past hs (ih h)

theorem map {f : Stmt → Stmt} (hf : ∀ s, (f s).origin = s.origin) {ss : List Stmt}
    (h : Leads n x ss) : Leads n (f x) (ss.map f) := by
  induction h with
  | here ss => exact here _
  | past hs _ ih => exact past (by rwa [hf]) ih

/-- A statement of the module between is not there, so it may as well go or change. -/
theorem pare {old new : List Stmt} (h : Leads n x (front ++ old ++ back)) (hx : n ≤ x.origin.id)
    (hold : ∀ s ∈ old, s.origin.id < n) (hne : old ≠ []) : Leads n x (front ++ new ++ back) := by
  induction front with
  | nil =>
    obtain ⟨s, rest, rfl⟩ := List.exists_cons_of_ne_nil hne
    have hlt := hold s (by simp)
    cases h with
    | here => omega
    | past hs _ => omega
  | cons s front ih =>
    cases h with
    | here => exact here _
    | past hs h => exact past hs (ih h)

/-- What is put right behind the statement led to is led to as well. -/
theorem extend (h : Leads n x (front ++ y :: back)) (hy : y.origin.id = x.origin.id)
    (hx : n ≤ x.origin.id) (hnodup : ((front ++ y :: back).map (·.origin.id)).Nodup) :
    Leads n z (front ++ y :: z :: back) := by
  induction front with
  | nil => exact past (hy ▸ hx) (here _)
  | cons s front ih =>
    obtain ⟨hnot, htail⟩ := List.nodup_cons.1 hnodup
    cases h with
    | here => exact absurd (List.mem_map.2 ⟨y, by simp, hy⟩) hnot
    | past hs h => exact past hs (ih h htail)

theorem exists_eq {ss : List Stmt} (h : Leads n x ss) :
    ∃ mid back, ss = mid ++ x :: back ∧ ∀ s ∈ mid, n ≤ s.origin.id := by
  induction h with
  | here ss => exact ⟨[], ss, rfl, by simp⟩
  | @past s ss hs _ ih =>
    obtain ⟨mid, back, rfl, hmid⟩ := ih
    exact ⟨s :: mid, back, rfl, List.forall_mem_cons.2 ⟨hs, hmid⟩⟩

end Leads

namespace Behind

theorem mem {ss : List Stmt} (h : Behind n i x ss) : x ∈ ss := by
  induction h with
  | start _ h => exact List.mem_cons_of_mem _ h.mem
  | later _ _ ih => exact List.mem_cons_of_mem _ ih

/-- **What is behind stays behind** when an added statement comes in anywhere. -/
theorem insert (h : Behind n i x (front ++ back)) (hz : n ≤ z.origin.id) :
    Behind n i x (front ++ z :: back) := by
  induction front with
  | nil => exact later z h
  | cons s front ih =>
    cases h with
    | start hs h => exact start hs (h.insert hz)
    | later _ h => exact later s (ih h)

theorem map {f : Stmt → Stmt} (hf : ∀ s, (f s).origin = s.origin) {ss : List Stmt}
    (h : Behind n i x ss) : Behind n i (f x) (ss.map f) := by
  induction h with
  | start hs h => exact start (by rwa [hf]) (h.map hf)
  | later _ _ ih => exact later _ ih

/-- What is behind stays behind when a statement of the module goes or changes, unless it is the one
that it is behind and that goes. -/
theorem pare {new : List Stmt} (h : Behind n i x (front ++ [y] ++ back)) (hx : n ≤ x.origin.id)
    (hy : y.origin.id < n) (hnew : y.origin.id = i → ∃ y', new = [y'] ∧ y'.origin.id = i) :
    Behind n i x (front ++ new ++ back) := by
  induction front with
  | nil =>
    cases h with
    | start hs h =>
      obtain ⟨y', rfl, hy'⟩ := hnew hs
      exact start hy' h
    | later _ h =>
      have hall : ∀ new : List Stmt, Behind n i x (new ++ back) := fun new => by
        induction new with
        | nil => exact h
        | cons s new ih => exact later s ih
      exact hall new
  | cons s front ih =>
    cases h with
    | start hs h => exact start hs (h.pare hx (by simpa using hy) (by simp))
    | later _ h => exact later s (ih h)

/-- What is put right behind a statement stands behind it. -/
theorem first (hy : y.origin.id = i) (front back : List Stmt) :
    Behind n i z (front ++ y :: z :: back) := by
  induction front with
  | nil => exact start hy (.here _)
  | cons s front ih => exact later s ih

/-- What is put right behind a statement that stands behind another one stands behind it too. -/
theorem extend (h : Behind n i x (front ++ y :: back)) (hy : y.origin.id = x.origin.id)
    (hx : n ≤ x.origin.id) (hnodup : ((front ++ y :: back).map (·.origin.id)).Nodup) :
    Behind n i z (front ++ y :: z :: back) := by
  induction front with
  | nil =>
    have hmem : x.origin.id ∈ back.map (·.origin.id) := by
      cases h with
      | start _ h => exact List.mem_map_of_mem h.mem
      | later _ h => exact List.mem_map_of_mem h.mem
    rw [← hy] at hmem
    exact absurd hmem (List.nodup_cons.1 hnodup).1
  | cons s front ih =>
    obtain ⟨hnot, htail⟩ := List.nodup_cons.1 hnodup
    cases h with
    | start hs h => exact start hs (h.extend hy hx htail)
    | later _ h => exact later s (ih h htail)

theorem exists_eq {ss : List Stmt} (h : Behind n i x ss) :
    ∃ front s mid back, ss = front ++ s :: mid ++ x :: back ∧ s.origin.id = i ∧
      ∀ s ∈ mid, n ≤ s.origin.id := by
  induction h with
  | @start s ss hs h =>
    obtain ⟨mid, back, rfl, hmid⟩ := h.exists_eq
    exact ⟨[], s, mid, back, rfl, hs, hmid⟩
  | later s _ ih =>
    obtain ⟨front, s', mid, back, rfl, hs, hmid⟩ := ih
    exact ⟨s :: front, s', mid, back, rfl, hs, hmid⟩

end Behind

end Stmt

/-! ### Tails -/

namespace Sequence

/-- **A sequence is laid out** if the tail of every statement that is there stands behind it. -/
structure Laid (n : Nat) (q : Sequence) : Prop where
  /-- Tails belong to statements of the module. -/
  keys : ∀ e ∈ q.tails, e.1 < n
  /-- A tail stands behind its statement, though perhaps renamed. -/
  tails : ∀ i e, q.tails.find? (·.1 = i) = some e → (∃ s ∈ q.body, s.origin.id = i) →
    ∃ t, t.origin.id = e.2.origin.id ∧ n ≤ t.origin.id ∧ Stmt.Behind n i t q.body

namespace Laid

variable {n : Nat} {q : Sequence} {front back : List Stmt} {s stmt origin : Stmt}

/-- A sequence without tails is laid out. -/
theorem nil (n : Nat) (body : List Stmt) : Laid n ⟨body, []⟩ where
  keys := by simp
  tails := by simp

/-- **What is appended stands behind its origin**, and the sequence stays laid out. -/
theorem append (h : q.Laid n) (hbody : q.body = front ++ [s] ++ back)
    (hs : s.origin.id = (q.tailOf origin).origin.id)
    (hnodup : (q.body.map (·.origin.id)).Nodup)
    (horigin : ∃ t ∈ q.body, t.origin.id = origin.origin.id)
    (hlt : origin.origin.id < n) (hstmt : n ≤ stmt.origin.id) :
    Laid n ⟨front ++ [s] ++ stmt :: back, (origin.origin.id, stmt) :: q.tails⟩ ∧
      Stmt.Behind n origin.origin.id stmt (front ++ [s] ++ stmt :: back) := by
  -- the statement goes behind the last one for its origin, or else behind the origin
  have hbehind : Stmt.Behind n origin.origin.id stmt (front ++ [s] ++ stmt :: back) := by
    rw [hbody, List.append_assoc, List.singleton_append] at hnodup
    rw [List.append_assoc, List.singleton_append]
    cases hfind : q.tails.find? (·.1 = origin.origin.id) with
    | none =>
      rw [tailOf, hfind] at hs
      exact .first hs front back
    | some e =>
      obtain ⟨t, hte, hle, ht⟩ := h.tails _ e hfind horigin
      rw [tailOf, hfind] at hs
      rw [hbody, List.append_assoc, List.singleton_append] at ht
      exact ht.extend (hs.trans hte.symm) hle hnodup
  refine ⟨⟨List.forall_mem_cons.2 ⟨hlt, h.keys⟩, fun i e hfind hthere => ?_⟩, hbehind⟩
  by_cases hi : origin.origin.id = i
  · rw [List.find?_cons_of_pos (by simpa using hi)] at hfind
    obtain rfl := Option.some.inj hfind
    exact ⟨stmt, rfl, hstmt, hi ▸ hbehind⟩
  · rw [List.find?_cons_of_neg (by simpa using hi)] at hfind
    -- the new statement has a later number than its origin, which was there before
    have hlt' : i < n := by
      have hkey := h.keys e (List.mem_of_find?_eq_some hfind)
      have heq : e.1 = i := by simpa using List.find?_some hfind
      rwa [heq] at hkey
    obtain ⟨s', hs', hid⟩ := hthere
    have hold : ∃ s ∈ q.body, s.origin.id = i := by
      rcases List.mem_append.1 hs' with hs' | hs'
      · exact ⟨s', hbody ▸ List.mem_append_left _ hs', hid⟩
      · rcases List.mem_cons.1 hs' with rfl | hs'
        · omega
        · exact ⟨s', hbody ▸ List.mem_append_right _ hs', hid⟩
    obtain ⟨t, hte, hle, ht⟩ := h.tails i e hfind hold
    exact ⟨t, hte, hle, (hbody ▸ ht).insert hstmt⟩

/-- Statements that change where they stand leave the layout as it is. -/
theorem map (h : q.Laid n) {f : Stmt → Stmt} (hf : ∀ s, (f s).origin = s.origin) :
    Laid n { q with body := q.body.map f } where
  keys := h.keys
  tails i e hfind hthere := by
    obtain ⟨s', hs', hid⟩ := hthere
    obtain ⟨s, hs, rfl⟩ := List.mem_map.1 hs'
    obtain ⟨t, hte, hle, ht⟩ := h.tails i e hfind ⟨s, hs, by rwa [hf] at hid⟩
    exact ⟨f t, by rw [hf, hte], by rwa [hf], ht.map hf⟩

/-- A statement of the module that goes or changes leaves the rest laid out. -/
theorem pare (h : q.Laid n) {new : List Stmt} (hbody : q.body = front ++ [s] ++ back)
    (hnodup : (q.body.map (·.origin.id)).Nodup) (hs : s.origin.id < n)
    (hnew : new = [] ∨ ∃ s', new = [s'] ∧ s'.origin.id = s.origin.id) :
    Laid n { q with body := front ++ new ++ back } where
  keys := h.keys
  tails i e hfind hthere := by
    have hold : (∃ t ∈ q.body, t.origin.id = i) ∧
        (s.origin.id = i → ∃ s', new = [s'] ∧ s'.origin.id = i) := by
      obtain ⟨t, ht, rfl⟩ := hthere
      rcases hnew with rfl | ⟨s', rfl, hid⟩
      · rw [hbody] at hnodup ⊢
        simp only [List.map_append, List.map_cons, List.append_assoc, List.singleton_append,
          List.nodup_middle, List.nodup_cons] at hnodup
        rw [← List.map_append] at hnodup
        rw [List.append_nil] at ht
        refine ⟨⟨t, by simp only [List.mem_append] at ht ⊢; tauto, rfl⟩, fun heq => ?_⟩
        exact absurd (List.mem_map.2 ⟨t, ht, heq.symm⟩) hnodup.1
      · refine ⟨?_, fun heq => ⟨s', rfl, hid.trans heq⟩⟩
        rw [hbody]
        simp only [List.mem_append, List.mem_singleton] at ht
        rcases ht with (ht | rfl) | ht
        · exact ⟨t, by simp [ht], rfl⟩
        · exact ⟨s, by simp, hid.symm⟩
        · exact ⟨t, by simp [ht], rfl⟩
    obtain ⟨t, hte, hle, ht⟩ := h.tails i e hfind hold.1
    exact ⟨t, hte, hle, (hbody ▸ ht).pare hle hs hold.2⟩

end Laid

end Sequence

end MessageBinder
