import MessageBinder.Proofs.Printing.RoundTrip
import MessageBinder.Proofs.Scope.Renaming

/-!
# Texts that are printed as they are

An expression can be a text that the printer writes down as it is, without a look at it. No such
text comes of reading a module (`MessageBinder.Module.verbatims_of_parse`), and replacing
identifiers neither makes nor changes one, so that those of a module tell what was put in.
-/

namespace MessageBinder

mutual

/-- The texts in an expression that are printed as they are. -/
def Expr.verbatims : Expr → List CodeText
  | .name _ | .literal .. => []
  | .verbatim text _ => [text]
  | .array es _ => Expr.verbatimsList es
  | .object ps _ => Property.verbatimsList ps
  | .member e _ _ | .unary _ e _ | .group e _ | .arrow _ e _ => e.verbatims
  | .index e i _ | .binary _ e i _ | .assign _ e i _ => e.verbatims ++ i.verbatims
  | .call f as _ => f.verbatims ++ Expr.verbatimsList as
  | .conditional t c a _ => t.verbatims ++ c.verbatims ++ a.verbatims
  | .arrowBlock _ b _ => b.verbatims

/-- The texts in expressions that are printed as they are. -/
def Expr.verbatimsList : List Expr → List CodeText
  | [] => []
  | e :: es => e.verbatims ++ Expr.verbatimsList es

/-- The texts in properties that are printed as they are. -/
def Property.verbatimsList : List Property → List CodeText
  | [] => []
  | ⟨_, v, _, _, _⟩ :: ps => v.verbatims ++ Property.verbatimsList ps

/-- The texts in variables that are printed as they are. -/
def Declarator.verbatimsList : List Declarator → List CodeText
  | [] => []
  | ⟨_, none, _⟩ :: ds => Declarator.verbatimsList ds
  | ⟨_, some e, _⟩ :: ds => e.verbatims ++ Declarator.verbatimsList ds

/-- The texts in a block that are printed as they are. -/
def Block.verbatims : Block → List CodeText
  | ⟨body, _⟩ => Stmt.verbatimsList body

/-- The texts in a declaration that are printed as they are. -/
def Declaration.verbatims : Declaration → List CodeText
  | .variables _ ds _ => Declarator.verbatimsList ds
  | .function _ _ b _ => b.verbatims

/-- The texts in a statement that are printed as they are. -/
def Stmt.verbatims : Stmt → List CodeText
  | .importDecl .. | .exportNamed .. | .exportAll .. | .returnValue none _ => []
  | .exportDecl d _ | .declaration d => d.verbatims
  | .exportDefault e _ | .returnValue (some e) _ | .expr e _ => e.verbatims
  | .block b => b.verbatims
  | .ifThen t c none _ => t.verbatims ++ c.verbatims
  | .ifThen t c (some a) _ => t.verbatims ++ c.verbatims ++ a.verbatims

/-- The texts in statements that are printed as they are. -/
def Stmt.verbatimsList : List Stmt → List CodeText
  | [] => []
  | s :: ss => s.verbatims ++ Stmt.verbatimsList ss

end

/-- The texts in a module that are printed as they are. -/
def Module.verbatims (m : Module) : List CodeText := m.body.flatMap Stmt.verbatims

/-! ### Replacing identifiers -/

section

variable (f : Identifier → Identifier)

mutual

theorem Expr.verbatims_mapIds (e : Expr) : (e.mapIds f).verbatims = e.verbatims := by
  match e with
  | .name _ | .literal .. | .verbatim .. => rfl
  | .array es _ => exact Expr.verbatimsList_mapIdsList es
  | .object ps _ => exact Property.verbatimsList_mapIdsList ps
  | .member e _ _ | .unary _ e _ | .group e _ | .arrow _ e _ => exact e.verbatims_mapIds
  | .index e i _ | .binary _ e i _ | .assign _ e i _ =>
    simp [Expr.mapIds, Expr.verbatims, e.verbatims_mapIds, i.verbatims_mapIds]
  | .call g as _ =>
    simp [Expr.mapIds, Expr.verbatims, g.verbatims_mapIds, Expr.verbatimsList_mapIdsList as]
  | .conditional t c a _ =>
    simp [Expr.mapIds, Expr.verbatims, t.verbatims_mapIds, c.verbatims_mapIds, a.verbatims_mapIds]
  | .arrowBlock _ b _ => exact b.verbatims_mapIds

theorem Expr.verbatimsList_mapIdsList (es : List Expr) :
    Expr.verbatimsList (Expr.mapIdsList f es) = Expr.verbatimsList es := by
  match es with
  | [] => rfl
  | e :: es =>
    simp [Expr.mapIdsList, Expr.verbatimsList, e.verbatims_mapIds,
      Expr.verbatimsList_mapIdsList es]

theorem Property.verbatimsList_mapIdsList (ps : List Property) :
    Property.verbatimsList (Property.mapIdsList f ps) = Property.verbatimsList ps := by
  match ps with
  | [] => rfl
  | ⟨_, v, _, _, _⟩ :: ps =>
    simp [Property.mapIdsList, Property.verbatimsList, v.verbatims_mapIds,
      Property.verbatimsList_mapIdsList ps]

theorem Declarator.verbatimsList_mapIdsList (ds : List Declarator) :
    Declarator.verbatimsList (Declarator.mapIdsList f ds) = Declarator.verbatimsList ds := by
  match ds with
  | [] => rfl
  | ⟨_, none, _⟩ :: ds =>
    simp [Declarator.mapIdsList, Declarator.verbatimsList,
      Declarator.verbatimsList_mapIdsList ds]
  | ⟨_, some e, _⟩ :: ds =>
    simp [Declarator.mapIdsList, Declarator.verbatimsList, e.verbatims_mapIds,
      Declarator.verbatimsList_mapIdsList ds]

theorem Block.verbatims_mapIds (b : Block) : (b.mapIds f).verbatims = b.verbatims := by
  match b with
  | ⟨body, _⟩ => exact Stmt.verbatimsList_mapIdsList body

theorem Declaration.verbatims_mapIds (d : Declaration) :
    (d.mapIds f).verbatims = d.verbatims := by
  match d with
  | .variables _ ds _ => exact Declarator.verbatimsList_mapIdsList ds
  | .function _ _ b _ => exact b.verbatims_mapIds

theorem Stmt.verbatims_mapIds (s : Stmt) : (s.mapIds f).verbatims = s.verbatims := by
  match s with
  | .importDecl .. | .exportNamed .. | .exportAll .. | .returnValue none _ => rfl
  | .exportDecl d _ | .declaration d => exact d.verbatims_mapIds
  | .exportDefault e _ | .returnValue (some e) _ | .expr e _ => exact e.verbatims_mapIds
  | .block b => exact b.verbatims_mapIds
  | .ifThen t c none _ =>
    simp [Stmt.mapIds, Stmt.verbatims, t.verbatims_mapIds, c.verbatims_mapIds]
  | .ifThen t c (some a) _ =>
    simp [Stmt.mapIds, Stmt.verbatims, t.verbatims_mapIds, c.verbatims_mapIds, a.verbatims_mapIds]

theorem Stmt.verbatimsList_mapIdsList (ss : List Stmt) :
    Stmt.verbatimsList (Stmt.mapIdsList f ss) = Stmt.verbatimsList ss := by
  match ss with
  | [] => rfl
  | s :: ss =>
    simp [Stmt.mapIdsList, Stmt.verbatimsList, s.verbatims_mapIds,
      Stmt.verbatimsList_mapIdsList ss]

end

end

/-! ### What is read -/

theorem Expr.verbatimsList_eq_nil {es : List Expr} (h : ∀ e ∈ es, e.verbatims = []) :
    Expr.verbatimsList es = [] := by
  induction es with
  | nil => rfl
  | cons e es ih =>
    obtain ⟨he, hes⟩ := List.forall_mem_cons.1 h
    rw [verbatimsList, he, ih hes, List.append_nil]

theorem Property.verbatimsList_eq_nil {ps : List Property} (h : ∀ p ∈ ps, p.value.verbatims = []) :
    Property.verbatimsList ps = [] := by
  induction ps with
  | nil => rfl
  | cons p ps ih =>
    obtain ⟨hp, hps⟩ := List.forall_mem_cons.1 h
    obtain ⟨key, v, shorthand, quoted, o⟩ := p
    rw [verbatimsList, ih hps, List.append_nil]
    exact hp

theorem Declarator.verbatimsList_eq_nil {ds : List Declarator}
    (h : ∀ d ∈ ds, Declarator.verbatimsList [d] = []) : Declarator.verbatimsList ds = [] := by
  induction ds with
  | nil => rfl
  | cons d ds ih =>
    obtain ⟨hd, hds⟩ := List.forall_mem_cons.1 h
    obtain ⟨id, _ | e, o⟩ := d
    · exact ih hds
    · have hd : e.verbatims = [] := by simpa [verbatimsList] using hd
      rw [verbatimsList, hd, ih hds, List.append_nil]

theorem Stmt.verbatimsList_eq_nil {ss : List Stmt} (h : ∀ s ∈ ss, s.verbatims = []) :
    Stmt.verbatimsList ss = [] := by
  induction ss with
  | nil => rfl
  | cons s ss ih =>
    obtain ⟨hs, hss⟩ := List.forall_mem_cons.1 h
    rw [verbatimsList, hs, ih hss, List.append_nil]

/-- The texts in a phrase that are printed as they are. -/
def Phrase.verbatims : Phrase → List CodeText
  | .expr e | .choice e | .operation _ e | .operand e | .suffixed e | .primary e => e.verbatims
  | .exprs _ _ es | .someExprs _ _ es => Expr.verbatimsList es
  | .property p => p.value.verbatims
  | .properties ps | .someProperties ps => Property.verbatimsList ps
  | .block b => b.verbatims
  | .untilBrace ss | .body ss => Stmt.verbatimsList ss
  | .declarator d => Declarator.verbatimsList [d]
  | .declarators ds => Declarator.verbatimsList ds
  | .declaration d => d.verbatims
  | .stmt s | .branch s => s.verbatims

/-- **What the grammar of trees admits** has no such text. -/
theorem Printable.verbatims_eq_nil {marks texts : Bool} {x : Phrase}
    (h : Printable marks texts x) :
    x.verbatims = [] := by
  induction h with
  | string | number | truth | null | name | importDecl | exportNamed | exportAll | returnNothing
  | declarator => rfl
  | exprChoice _ ih | arrow _ _ _ ih | arrowBlock _ _ ih | choiceOperation _ ih
  | operationOperand _ ih | operationTighter _ ih | operandSuffixed _ ih | unary _ _ ih
  | suffixedPrimary _ ih | member _ _ ih | group _ ih | property _ _ _ _ ih | functionDecl _ _ _ ih
  | exportDecl _ ih | exportDefault _ ih | declaration _ ih | blockStatement _ ih
  | returnValue _ ih | exprStatement _ _ ih => exact ih
  | assign _ _ _ _ ih ih' | binary _ _ _ ih ih' | index _ _ ih ih' | ifThen _ _ ih ih' =>
    exact List.append_eq_nil_iff.2 ⟨ih, ih'⟩
  | conditional _ _ _ iht ihc iha | ifElse _ _ _ _ iht ihc iha =>
    exact List.append_eq_nil_iff.2 ⟨List.append_eq_nil_iff.2 ⟨iht, ihc⟩, iha⟩
  | call _ _ ih ih' => exact List.append_eq_nil_iff.2 ⟨ih, Expr.verbatimsList_eq_nil ih'⟩
  | array _ ih => exact Expr.verbatimsList_eq_nil ih
  | object _ ih => exact Property.verbatimsList_eq_nil ih
  | block _ ih => exact Stmt.verbatimsList_eq_nil ih
  | declaratorInit _ _ ih => exact List.append_eq_nil_iff.2 ⟨ih, rfl⟩
  | variableDecl _ _ ih => exact Declarator.verbatimsList_eq_nil ih

/-- **A module that was read** has no such text. -/
theorem Module.verbatims_of_parse [CharacterNames] {text : String} {filename : Option String}
    {base : Nat} {m : Module} (h : parse text filename base = .ok m) {s : Stmt} (hs : s ∈ m.body) :
    s.verbatims = [] := (printable_of_parse h s hs).verbatims_eq_nil

end MessageBinder
