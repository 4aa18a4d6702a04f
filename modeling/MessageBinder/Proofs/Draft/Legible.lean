import MessageBinder.Proofs.Draft.Hygiene
import MessageBinder.Proofs.Printing.Renamed

/-!
# Drafts that can be printed

A pass makes nothing that cannot be printed. Names that it draws are plain, whatever the targets are
called; what it copies from the module – an imported name, a name of a re-export, a name under which
something is exported – could be printed where it stood, and can be where it is put.

This holds of a bench at any time before the gate is closed (`MessageBinder.Bench.Legible`). The
constant that holds the messages is not covered: its value is a text, which has to be read.
-/

namespace MessageBinder

/-! ### Added statements -/

namespace Printable

variable {marks texts : Bool} {name function messages exported : String}
  {module : CodeText} {e : Expr}

/-- An expression with members and calls after it is one without operators. -/
theorem ofSuffixed (h : Printable marks texts (.suffixed e)) : Printable marks texts (.expr e) :=
  .exprChoice (.choiceOperation (.operationTighter (.operationTighter (.operationTighter
    (.operationTighter (.operationTighter (.operationTighter (.operationOperand
      (.operandSuffixed h)))))))))

theorem boundConstant (hname : IsBindingName name) (hfunction : IsBindingName function)
    (hmessages : IsBindingName messages) (id : Nat) :
    Printable marks texts (.stmt (Stmt.boundConstant name function messages id)) := by
  have hbind : IsName "bind".toList := ⟨'b', "ind".toList, rfl, rfl, List.all_eq_true.1 (by decide)⟩
  have hargument : Printable marks texts (.expr (.name (Stmt.addedId messages (id + 3)))) :=
    .ofSuffixed (.suffixedPrimary (.name hmessages))
  have hcallee : Printable marks texts (.primary (.name (Stmt.addedId function (id + 2)))) :=
    .name hfunction
  have hvalue : Printable marks texts (.suffixed (.call
      (.member (.name (Stmt.addedId function (id + 2))) "bind" (.synthetic (id + 2)))
      [.name (Stmt.addedId messages (id + 3))] (.synthetic (id + 2)))) :=
    .call (.member hbind (.suffixedPrimary hcallee)) (List.forall_mem_singleton.2 hargument)
  exact .declaration (.variableDecl nofun (List.forall_mem_singleton.2
    (.declaratorInit hname hvalue.ofSuffixed)))

theorem addedImport (hfunction : IsExportName function) (hname : IsBindingName name)
    (hmodule : texts → module.IsText) (id : Nat) :
    Printable marks texts (.stmt (Stmt.addedImport function name module id)) :=
  .importDecl (Or.inl (Or.inr (List.forall_mem_singleton.2 ⟨hfunction, hname⟩))) hmodule

theorem addedExport (hname : IsBindingName name) (hexported : IsExportName exported) (id : Nat) :
    Printable marks texts (.stmt (Stmt.addedExport name exported id)) :=
  .exportNamed (List.forall_mem_singleton.2 ⟨hexported, hname.isExportName, fun _ => hname⟩)
    fun _ => nofun

end Printable

/-- What a target matches in an import has a name that can be bound. -/
theorem AreImports.isBindingName_of_matches {ss : List ImportSpecifier} (h : AreImports ss)
    {target : Target} {s : ImportSpecifier} (hs : s ∈ ss) (hmatches : target.matchesImport s) :
    IsBindingName s.binding.name := by
  have hrest : ∀ {ss : List ImportSpecifier}, AreImportRest ss → s ∈ ss →
      IsBindingName s.binding.name := by
    rintro ss (⟨id, o, rfl, -⟩ | hall) hs
    · obtain rfl := List.mem_singleton.1 hs
      cases hmatches
    · have hlisted := hall s hs
      cases s with
      | named exported binding o => exact hlisted.2
      | default | all => exact hlisted.elim
  rcases h with h | ⟨id, o, rest, rfl, -, h⟩
  · exact hrest h hs
  · rcases List.mem_cons.1 hs with rfl | hs
    · cases hmatches
    · exact hrest h hs

/-! ### Along the pass -/

/-- **A bench is legible**: its statements can be printed, and so can the name of the variable once
it is fixed. With `texts`, no string in it holds a surrogate. -/
structure Bench.Legible (b : Bench) (texts : Bool) : Prop where
  /-- The statements can be printed. -/
  body : PrintableBody false texts b.draft.sequence.body
  /-- The variable has a plain name. -/
  variableName : ∀ name ∈ b.gate.variableName, IsPlainName name

/-- A module that was read makes a legible bench. -/
theorem Bench.legible_ofModule {texts : Bool} {m : Module} (hm : PrintableBody true texts m.body)
    {path : Option String} {gate : Gate} (hgate : Gate.ofPath path = .ok gate) :
    Bench.Legible ⟨.ofModule m, gate⟩ texts :=
  ⟨hm.unmarked, by simp [(Gate.ofPath_eq_ok hgate).1]⟩

namespace Bench.Legible

variable {texts : Bool} {b b' : Bench} {stmt : Stmt} {target : Target}

theorem freshName (h : b.Legible texts) {seed name : String}
    (hgives : (Drafting.freshName seed).Gives b name b') : b'.Legible texts ∧ IsPlainName name := by
  obtain ⟨rfl, rfl⟩ := Drafting.gives_freshName hgives
  exact ⟨⟨h.body, h.variableName⟩, b.draft.scope.isPlainName_unusedName seed⟩

theorem request (h : b.Legible texts) {name : String} (hgives : Gate.request.Gives b name b') :
    b'.Legible texts ∧ IsPlainName name := by
  rcases Gate.gives_request hgives with ⟨hname, rfl⟩ | ⟨-, rfl, rfl⟩
  · exact ⟨⟨h.body, h.variableName⟩, h.variableName name hname⟩
  · have hname := b.draft.scope.isPlainName_unusedName "messages"
    exact ⟨⟨h.body, by rintro _ ⟨⟩; exact hname⟩, hname⟩

theorem renameUses (h : b.Legible texts) {name : String} (hname : IsPlainName name)
    (ids : List Identifier) :
    Bench.Legible { b with draft := b.draft.renameUses name ids } texts := by
  induction ids generalizing b with
  | nil => exact h
  | cons id ids ih =>
    have hone : Bench.Legible { b with draft := b.draft.renameUse name id } texts :=
      ⟨h.body.mapIds (Identifier.renamesPlainly_renamed hname _), h.variableName⟩
    exact ih hone

theorem append (h : b.Legible texts) {build : Nat → Stmt}
    (hbuild : ∀ id, Printable false texts (.stmt (build id))) {u : Unit}
    (hgives : (Drafting.edit (·.append stmt build)).Gives b u b') : b'.Legible texts := by
  obtain ⟨d, happend, rfl⟩ := Drafting.gives_edit hgives
  obtain ⟨front, s, back, hbody, -, rfl⟩ := Draft.append_eq_ok happend
  refine ⟨?_, h.variableName⟩
  have hold := h.body
  rw [hbody, PrintableBody, List.forall_mem_append] at hold
  exact List.forall_mem_append.2 ⟨hold.1, List.forall_mem_cons.2 ⟨hbuild _, hold.2⟩⟩

theorem bindImported (h : b.Legible texts) {name : String} (hname : IsBindingName name)
    {bound : Bool} (hgives : (Drafting.bindImported stmt target name).Gives b bound b') :
    b'.Legible texts := by
  rcases Drafting.gives_bindImported hgives with ⟨-, -, rfl⟩ |
    ⟨binding, constant, messages, b₁, b₂, -, -, -, hfresh, hrequest, happend⟩
  · exact h
  · obtain ⟨h₁, hconstant⟩ := h.freshName hfresh
    obtain ⟨h₂, hmessages⟩ := (h₁.renameUses hconstant binding.uses).request hrequest
    exact h₂.append
      (Printable.boundConstant hconstant.isBindingName hname hmessages.isBindingName) happend

theorem bindAll (h : b.Legible texts) {specifiers : List ImportSpecifier}
    (hnames : ∀ s ∈ specifiers, IsBindingName s.binding.name) {n : Nat}
    (hgives : (Drafting.bindAll stmt target specifiers).Gives b n b') : b'.Legible texts := by
  refine Drafting.bindAll_induction (P := fun _ _ b => b.Legible texts) hgives h
    fun hall h hbound => ?_
  exact h.bindImported (hnames _ (by simp [hall])) hbound

/-- A name that is taken from a re-export is made anew under names that can be printed. -/
theorem moveExport (h : b.Legible texts) {s : ExportSpecifier}
    (hfunction : IsExportName target.function.string) (hmodule : texts → target.module.IsText)
    (hexported : IsExportName s.exported) {u : Unit}
    (hgives : (Drafting.moveExport stmt target s).Gives b u b') : b'.Legible texts := by
  obtain ⟨imported, bound, messages, b₁, b₂, b₃, b₄, b₅, himported, hbound, hrequest, himport,
    hconstant, hexport⟩ := Drafting.gives_moveExport hgives
  obtain ⟨h₁, himported⟩ := h.freshName himported
  obtain ⟨h₂, hbound⟩ := h₁.freshName hbound
  obtain ⟨h₃, hmessages⟩ := h₂.request hrequest
  have h₄ := h₃.append (Printable.addedImport hfunction himported.isBindingName hmodule) himport
  have h₅ := h₄.append (Printable.boundConstant hbound.isBindingName himported.isBindingName
    hmessages.isBindingName) hconstant
  exact h₅.append (Printable.addedExport hbound.isBindingName hexported) hexport

theorem moveAll (h : b.Legible texts) {specifiers : List ExportSpecifier}
    (hfunction : ∀ s ∈ specifiers, IsExportName target.function.string)
    (hmodule : texts → target.module.IsText)
    (hexported : ∀ s ∈ specifiers, IsExportName s.exported) {u : Unit}
    (hgives : (Drafting.moveAll stmt target specifiers).Gives b u b') : b'.Legible texts := by
  refine Drafting.moveAll_induction (P := fun _ b => b.Legible texts) hgives h
    fun {_ s _ _ _} hall h hmove => ?_
  have hs : s ∈ specifiers := by simp [hall]
  exact h.moveExport (hfunction s hs) hmodule (hexported s hs) hmove

/-- A list of re-exports can be printed without some of its names. -/
theorem moveMatching (h : b.Legible texts) {specifiers : List ExportSpecifier} {o : Origin}
    (hnames : AreExports false specifiers) (hmodule : texts → target.module.IsText) {n : Nat}
    (hgives : (Drafting.moveMatching target specifiers (some target.module) o).Gives b n b') :
    b'.Legible texts := by
  obtain ⟨-, b₁, hmove, hrest⟩ := Drafting.gives_moveMatching hgives
  have hkept : Printable false texts (.stmt
      (.exportNamed (specifiers.filter (!target.matchesExport ·)) (some target.module) o)) :=
    .exportNamed (fun s hs => hnames s (List.mem_filter.1 hs).1) fun ht _ hs =>
      Option.mem_some_iff.1 hs ▸ hmodule ht
  have hreplaced : Bench.Legible ⟨b.draft.replace (.exportNamed
      (specifiers.filter (!target.matchesExport ·)) (some target.module) o), b.gate⟩ texts := by
    refine ⟨fun s hs => ?_, h.variableName⟩
    obtain ⟨s', hs', rfl⟩ := List.mem_map.1 hs
    split
    · exact hkept
    · exact h.body s' hs'
  have hmoved := hreplaced.moveAll (fun s hs => by
    obtain ⟨hs, hmatches⟩ := List.mem_filter.1 hs
    rw [← of_decide_eq_true hmatches, CodeText.string_ofString]
    exact (hnames s hs).2.1) hmodule (fun s hs => (hnames s (List.mem_filter.1 hs).1).1) hmove
  rcases hrest with ⟨-, rfl⟩ | ⟨-, hedit⟩
  · exact hmoved
  · obtain ⟨d, hremove, rfl⟩ := Drafting.gives_edit hedit
    obtain ⟨front, s, back, hbody, -, rfl⟩ := Draft.remove_eq_ok hremove
    have hold := hmoved.body
    rw [hbody, PrintableBody, List.forall_mem_append, List.forall_mem_append] at hold
    exact ⟨List.forall_mem_append.2 ⟨hold.1.1, hold.2⟩, hmoved.variableName⟩

/-- **A visit** makes nothing that cannot be printed. -/
theorem bindStmt (h : b.Legible texts) {id : Nat} {c : BoundCounts}
    (hgives : (Drafting.bindStmt id target).Gives b c b') : b'.Legible texts := by
  have hcurrent : ∀ stmt, b.draft.current? id = some stmt → Printable false texts (.stmt stmt) :=
    fun stmt hstmt => h.body stmt (List.mem_of_find?_eq_some hstmt)
  rcases Drafting.gives_bindStmt hgives with ⟨specifiers, source, o, hstmt, -, -, hall⟩ |
    ⟨specifiers, o, hstmt, -, -, hmove⟩ | ⟨-, -, rfl⟩
  · cases hcurrent _ hstmt with
    | importDecl hss _ =>
      refine h.bindAll (fun s hs => ?_) hall
      obtain ⟨hs, hmatches⟩ := List.mem_filter.1 hs
      exact hss.isBindingName_of_matches hs hmatches
  · cases hcurrent _ hstmt with
    | exportNamed hss hs =>
      exact h.moveMatching hss (fun ht => hs ht _ rfl) hmove
  · exact h

theorem bindTargets (h : b.Legible texts) {id : Nat} {targets : List Target} {c : BoundCounts}
    (hgives : (Drafting.bindTargets id targets).Gives b c b') : b'.Legible texts :=
  Drafting.bindTargets_induction (P := fun _ _ b => b.Legible texts) hgives h fun _ h hvisit =>
    h.bindStmt hvisit

/-- **A pass makes nothing that cannot be printed**, whatever the targets are. -/
theorem bindStmts (h : b.Legible texts) {targets : List Target} {stmts : List Stmt}
    {c : BoundCounts} (hgives : (Drafting.bindStmts targets stmts).Gives b c b') :
    b'.Legible texts :=
  Drafting.bindStmts_induction (P := fun _ _ b => b.Legible texts) hgives h fun _ h hvisits =>
    h.bindTargets hvisits

end Bench.Legible

end MessageBinder
