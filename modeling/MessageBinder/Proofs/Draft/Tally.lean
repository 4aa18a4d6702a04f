import MessageBinder.Proofs.Draft.Arrangement

/-!
# Counting what a pass binds

How many names a pass binds is counted in three places: by what binding a statement gives back, by
the gate, which counts the requests for its variable, and in the module itself, by the constants
`const x = f.bind(v)` that were put in. Along a pass the three agree
(`MessageBinder.Bench.Tallies`), whatever was skipped on the way. A visit that counts nothing does
nothing at all (`MessageBinder.Drafting.eq_of_bindStmts`), not even to the names that are taken.
-/

namespace MessageBinder

/-! ### Constants -/

/-- The variable in `f.bind(v)`. -/
def Expr.boundTo? : Expr → Option Identifier
  | .call (.member (.name _) property _) [.name v] _ => if property = "bind" then some v else none
  | _ => none

/-- The variable in `const x = f.bind(v)`. -/
def Stmt.boundTo? : Stmt → Option Identifier
  | .declaration (.variables .const [⟨_, some e, _⟩] _) => e.boundTo?
  | _ => none

theorem Expr.boundTo?_mapIds (f : Identifier → Identifier) (e : Expr) :
    (e.mapIds f).boundTo? = e.boundTo?.map f := by
  cases e with
  | call callee as o =>
    cases callee with
    | member object property o' =>
      cases object with
      | name g =>
        rcases as with _ | ⟨a, _ | ⟨a', as⟩⟩
        · rfl
        · cases a with
          | name v =>
            simp only [mapIds, mapIdsList, boundTo?]
            split <;> rfl
          | _ => rfl
        · cases a <;> rfl
      | _ => rfl
    | _ => rfl
  | _ => rfl

theorem Stmt.boundTo?_mapIds (f : Identifier → Identifier) (s : Stmt) :
    (s.mapIds f).boundTo? = s.boundTo?.map f := by
  cases s with
  | declaration d =>
    rcases d with ⟨kind, ds, o⟩ | _
    · rcases ds with _ | ⟨⟨id, _ | e, o'⟩, _ | ⟨⟨id', _ | e', o''⟩, ds⟩⟩
      case declaration.variables.cons.some.nil => cases kind with
        | const => exact e.boundTo?_mapIds f
        | _ => rfl
      all_goals cases kind <;> rfl
    · rfl
  | returnValue value o => cases value <;> rfl
  | ifThen test consequent alternate o => cases alternate <;> rfl
  | _ => rfl

/-- The number of constants from a number on that bind a function to something. -/
def Draft.tally (d : Draft) (n : Nat) : Nat :=
  d.sequence.body.countP fun s => n ≤ s.origin.id && s.boundTo?.isSome

namespace Draft

variable {d d' : Draft} {n : Nat}

theorem tally_ofModule {m : Module} (hm : m.Numbered) : (ofModule m).tally m.next = 0 := by
  refine List.countP_eq_zero.2 fun s hs => ?_
  have hlt := hm.statement_lt s hs
  simp only [Bool.and_eq_true, decide_eq_true_eq, not_and]
  omega

/-- Renaming makes and loses no constant. -/
theorem tally_renameUses (d : Draft) (name : String) (ids : List Identifier) (n : Nat) :
    (d.renameUses name ids).tally n = d.tally n := by
  rw [tally, sequence_renameUses, List.countP_map]
  refine List.countP_congr fun s _ => ?_
  rw [Function.comp_apply, Stmt.origin_mapIds, Stmt.boundTo?_mapIds, Option.isSome_map]

/-- A constant that is put in counts. -/
theorem tally_inserted {front back : List Stmt} (hbody : d.sequence.body = front ++ back)
    (stmt : Stmt) (tails : List (Nat × Stmt)) (hle : n ≤ stmt.origin.id) :
    (d.inserted front stmt back tails).tally n
      = d.tally n + if stmt.boundTo?.isSome then 1 else 0 := by
  have hpart : (front ++ stmt :: back).countP (fun s => n ≤ s.origin.id && s.boundTo?.isSome)
      = (front ++ back).countP (fun s => n ≤ s.origin.id && s.boundTo?.isSome)
        + if stmt.boundTo?.isSome then 1 else 0 := by
    rw [List.countP_append, List.countP_cons, List.countP_append]
    simp only [hle, decide_true, Bool.true_and]
    omega
  rw [tally, tally, hbody]
  exact hpart

/-- Exchanging a statement of the module makes and loses no constant. -/
theorem tally_replace (d : Draft) {stmt : Stmt} (hlt : stmt.origin.id < n) :
    (d.replace stmt).tally n = d.tally n := by
  rw [tally, replace, List.countP_map]
  refine List.countP_congr fun s _ => ?_
  rw [Function.comp_apply]
  split
  · rename_i hid
    simp [hid, Nat.not_le.2 hlt]
  · rfl

/-- Removing a statement of the module loses no constant. -/
theorem tally_remove {stmt : Stmt} (h : d.remove stmt = .ok d') (hlt : stmt.origin.id < n) :
    d'.tally n = d.tally n := by
  obtain ⟨front, s, back, hbody, hid, rfl⟩ := remove_eq_ok h
  have hone : [s].countP (fun s => n ≤ s.origin.id && s.boundTo?.isSome) = 0 := by
    simp [hid, Nat.not_le.2 hlt]
  rw [tally, tally, hbody, List.countP_append, List.countP_append, List.countP_append, hone,
    Nat.add_zero]

end Draft

/-! ### Along the pass -/

/-- The counts of two parts add up. -/
theorem BoundCounts.total_add (c c' : BoundCounts) : (c.add c').total = c.total + c'.total := by
  simp only [total, add]
  omega

/-- **A bench tallies**: so many requests were made, and so many constants were put in. -/
structure Bench.Tallies (m : Module) (path : String) (requests constants : Nat) (b : Bench) :
    Prop where
  /-- The source is that of the gate. -/
  source : b.gate.source = path
  /-- The draft has moved on from the number of the module. -/
  next_le : m.next ≤ b.draft.next
  /-- The gate counts requests. -/
  requests : b.gate.requests = requests
  /-- The module holds the constants. -/
  constants : b.draft.tally m.next = constants

namespace Bench.Tallies

variable {m : Module} {path : String} {k l : Nat} {b b' : Bench} {stmt : Stmt} {target : Target}

theorem freshName (h : b.Tallies m path k l) {seed name : String}
    (hgives : (Drafting.freshName seed).Gives b name b') : b'.Tallies m path k l := by
  obtain ⟨-, rfl⟩ := Drafting.gives_freshName hgives
  exact ⟨h.source, h.next_le, h.requests, h.constants⟩

theorem request (h : b.Tallies m path k l) {name : String}
    (hgives : Gate.request.Gives b name b') : b'.Tallies m path (k + 1) l := by
  have hrequests : b.gate.requests + 1 = k + 1 := by rw [h.requests]
  rcases Gate.gives_request hgives with ⟨-, rfl⟩ | ⟨-, -, rfl⟩
  · exact ⟨h.source, h.next_le, hrequests, h.constants⟩
  · exact ⟨h.source, h.next_le, hrequests, h.constants⟩

theorem append (h : b.Tallies m path k l) {build : Nat → Stmt}
    (hbuild : (build b.draft.next).origin.id = b.draft.next) {u : Unit}
    (hgives : (Drafting.edit (·.append stmt build)).Gives b u b') :
    b'.Tallies m path k (l + if (build b.draft.next).boundTo?.isSome then 1 else 0) := by
  obtain ⟨d, happend, rfl⟩ := Drafting.gives_edit hgives
  obtain ⟨front, s, back, hbody, -, rfl⟩ := Draft.append_eq_ok happend
  refine ⟨h.source, Nat.le_add_right_of_le h.next_le, h.requests, ?_⟩
  rw [Draft.tally_inserted hbody _ _ (hbuild.symm ▸ h.next_le), h.constants]

/-- An imported name that is bound counts once, and one that is not does not. -/
theorem bindImported (h : b.Tallies m path k k) {name : String} {bound : Bool}
    (hgives : (Drafting.bindImported stmt target name).Gives b bound b') :
    b'.Tallies m path (k + if bound then 1 else 0) (k + if bound then 1 else 0) := by
  rcases Drafting.gives_bindImported hgives with ⟨-, rfl, rfl⟩ |
    ⟨binding, constant, messages, b₁, b₂, -, -, rfl, hfresh, hrequest, happend⟩
  · exact h
  · have hdrawn := h.freshName hfresh
    have hrenamed : Bench.Tallies m path k k
        { b₁ with draft := b₁.draft.renameUses constant binding.uses } :=
      ⟨hdrawn.source, (Draft.next_renameUses ..).symm ▸ hdrawn.next_le, hdrawn.requests,
        (Draft.tally_renameUses ..).trans hdrawn.constants⟩
    exact (hrenamed.request hrequest).append rfl happend

theorem bindAll (h : b.Tallies m path k k) {specifiers : List ImportSpecifier} {n : Nat}
    (hgives : (Drafting.bindAll stmt target specifiers).Gives b n b') :
    b'.Tallies m path (k + n) (k + n) := by
  refine Drafting.bindAll_induction (P := fun _ n b => b.Tallies m path (k + n) (k + n)) hgives h
    fun _ h hbound => ?_
  rw [← Nat.add_assoc]
  exact h.bindImported hbound

/-- A name that is made anew counts once. -/
theorem moveExport (h : b.Tallies m path k k) {s : ExportSpecifier} {u : Unit}
    (hgives : (Drafting.moveExport stmt target s).Gives b u b') :
    b'.Tallies m path (k + 1) (k + 1) := by
  obtain ⟨imported, bound, messages, b₁, b₂, b₃, b₄, b₅, himported, hbound, hrequest, himport,
    hconstant, hexport⟩ := Drafting.gives_moveExport hgives
  have hrequested := ((h.freshName himported).freshName hbound).request hrequest
  exact ((hrequested.append rfl himport).append rfl hconstant).append rfl hexport

theorem moveAll (h : b.Tallies m path k k) {specifiers : List ExportSpecifier} {u : Unit}
    (hgives : (Drafting.moveAll stmt target specifiers).Gives b u b') :
    b'.Tallies m path (k + specifiers.length) (k + specifiers.length) := by
  refine Drafting.moveAll_induction
    (P := fun front b => b.Tallies m path (k + front.length) (k + front.length)) hgives h
    fun _ h hmove => ?_
  rw [List.length_append, List.length_singleton, ← Nat.add_assoc]
  exact h.moveExport hmove

/-- The names that are taken from a list count once each. -/
theorem moveMatching (h : b.Tallies m path k k) {specifiers : List ExportSpecifier}
    {source : Option CodeText} {o : Origin} (hlt : o.id < m.next) {n : Nat}
    (hgives : (Drafting.moveMatching target specifiers source o).Gives b n b') :
    b'.Tallies m path (k + n) (k + n) := by
  obtain ⟨rfl, b₁, hmove, hrest⟩ := Drafting.gives_moveMatching hgives
  have hreplaced : Bench.Tallies m path k k ⟨b.draft.replace
      (.exportNamed (specifiers.filter (!target.matchesExport ·)) source o), b.gate⟩ :=
    ⟨h.source, h.next_le, h.requests, (Draft.tally_replace _ hlt).trans h.constants⟩
  have hmoved := hreplaced.moveAll hmove
  rcases hrest with ⟨-, rfl⟩ | ⟨-, hedit⟩
  · exact hmoved
  · obtain ⟨d, hremove, rfl⟩ := Drafting.gives_edit hedit
    refine ⟨hmoved.source, ?_, hmoved.requests, ?_⟩
    · obtain ⟨-, -, -, -, -, rfl⟩ := Draft.remove_eq_ok hremove
      exact hmoved.next_le
    · exact (Draft.tally_remove hremove hlt).trans hmoved.constants

/-- **A visit** counts what it binds. -/
theorem bindStmt (h : b.Tallies m path k k) {id : Nat} (hlt : id < m.next) {c : BoundCounts}
    (hgives : (Drafting.bindStmt id target).Gives b c b') :
    b'.Tallies m path (k + c.total) (k + c.total) := by
  rcases Drafting.gives_bindStmt hgives with ⟨specifiers, source, o, -, -, hzero, hall⟩ |
    ⟨specifiers, o, hcurrent, -, hzero, hmove⟩ | ⟨-, rfl, rfl⟩
  · rw [BoundCounts.total, hzero]
    exact h.bindAll hall
  · obtain ⟨hid, -⟩ := Draft.body_of_current? hcurrent
    rw [BoundCounts.total, hzero, Nat.zero_add]
    exact h.moveMatching (hid ▸ hlt) hmove
  · exact h

theorem bindTargets (h : b.Tallies m path k k) {id : Nat} (hlt : id < m.next)
    {targets : List Target} {c : BoundCounts}
    (hgives : (Drafting.bindTargets id targets).Gives b c b') :
    b'.Tallies m path (k + c.total) (k + c.total) := by
  refine Drafting.bindTargets_induction
    (P := fun _ c b => b.Tallies m path (k + c.total) (k + c.total)) hgives h fun _ h hvisit => ?_
  rw [BoundCounts.total_add, ← Nat.add_assoc]
  exact h.bindStmt hlt hvisit

/-- **A pass counts alike everywhere.** -/
theorem bindStmts (h : b.Tallies m path k k) (hm : m.Numbered) {targets : List Target}
    {stmts : List Stmt} (hstmts : stmts ⊆ m.body) {c : BoundCounts}
    (hgives : (Drafting.bindStmts targets stmts).Gives b c b') :
    b'.Tallies m path (k + c.total) (k + c.total) := by
  refine Drafting.bindStmts_induction
    (P := fun _ c b => b.Tallies m path (k + c.total) (k + c.total)) hgives h
    fun hall h hvisits => ?_
  rw [BoundCounts.total_add, ← Nat.add_assoc]
  exact h.bindTargets (hm.statement_lt _ (hstmts (by simp [hall]))) hvisits

end Bench.Tallies

/-! ### Visits that count nothing -/

namespace Drafting

variable {b b' : Bench} {stmt : Stmt} {target : Target}

theorem eq_of_bindAll {specifiers : List ImportSpecifier}
    (h : (bindAll stmt target specifiers).Gives b 0 b') : b' = b := by
  refine bindAll_induction (P := fun _ n b' => n = 0 → b' = b) h (fun _ => rfl)
    (fun _ hsame hbound hzero => ?_) rfl
  rw [Nat.add_eq_zero_iff] at hzero
  obtain rfl := hsame hzero.1
  rcases gives_bindImported hbound with ⟨-, -, rfl⟩ | ⟨_, _, _, _, _, _, _, rfl, _⟩
  · rfl
  · exact absurd hzero.2 Nat.one_ne_zero

/-- A visit that binds nothing leaves everything as it is. -/
theorem eq_of_bindStmt {id : Nat} {c : BoundCounts} (h : (bindStmt id target).Gives b c b')
    (hzero : c.total = 0) : b' = b := by
  rcases gives_bindStmt h with ⟨specifiers, source, o, -, -, hexports, hall⟩ |
    ⟨specifiers, o, -, hconcerns, himports, hmove⟩ | ⟨-, -, rfl⟩
  · rw [BoundCounts.total, hexports, Nat.add_zero] at hzero
    rw [hzero] at hall
    exact eq_of_bindAll hall
  · -- a list that concerns the target has a name that matches
    obtain ⟨hcount, -⟩ := gives_moveMatching hmove
    rw [BoundCounts.total, himports, Nat.zero_add, hcount, List.length_eq_zero_iff,
      List.filter_eq_nil_iff] at hzero
    simp only [Target.concerns, Target.matchesFunction, Bool.and_eq_true,
      List.any_eq_true] at hconcerns
    obtain ⟨-, s, hs, hmatches⟩ := hconcerns
    exact absurd hmatches (hzero s hs)
  · rfl

theorem eq_of_bindTargets {id : Nat} {targets : List Target} {c : BoundCounts}
    (h : (bindTargets id targets).Gives b c b') (hzero : c.total = 0) : b' = b := by
  refine bindTargets_induction (P := fun _ c b' => c.total = 0 → b' = b) h (fun _ => rfl)
    (fun _ hsame hvisit hzero => ?_) hzero
  rw [BoundCounts.total_add, Nat.add_eq_zero_iff] at hzero
  obtain rfl := hsame hzero.1
  exact eq_of_bindStmt hvisit hzero.2

/-- **A pass that binds nothing leaves everything as it is.** -/
theorem eq_of_bindStmts {targets : List Target} {stmts : List Stmt} {c : BoundCounts}
    (h : (bindStmts targets stmts).Gives b c b') (hzero : c.total = 0) : b' = b := by
  refine bindStmts_induction (P := fun _ c b' => c.total = 0 → b' = b) h (fun _ => rfl)
    (fun _ hsame hvisits hzero => ?_) hzero
  rw [BoundCounts.total_add, Nat.add_eq_zero_iff] at hzero
  obtain rfl := hsame hzero.1
  exact eq_of_bindTargets hvisits hzero.2

end Drafting

end MessageBinder
