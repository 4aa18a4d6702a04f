import MessageBinder.Proofs.Printing.Levels
import MessageBinder.Proofs.Token.Gluing

/-!
# What printing glues

The printer puts an operator that is a sign against its operand, and the dot of a member against
what it is a member of. So it glues two tokens where a sign is the operand of the same sign, and
where an integer has a member; such a node is *tight* (`MessageBinder.Expr.isTight`). Everywhere
else a blank, a bracket, a comma or a semicolon stands between, and tokens of a printed module are
glued exactly if a node of it is tight (`MessageBinder.Module.areUnglued_text`).

The grammar makes this a matter of one node and its operand: an expression behind a sign is no sum,
so it begins with a sign only if it is one, and an expression in front of a dot ends with an integer
only if it is one.
-/

namespace MessageBinder

/-! ### Tight nodes -/

/-- Whether an operator stands against its operand with the same sign, or an integer against the dot
of its member. -/
def Expr.isTight : Expr → Bool
  | .unary op (.unary op' _ _) _ => (op = "+" || op = "-") && op' = op
  | .member (.literal (.integer _) _ _) _ _ => true
  | _ => false

/-- Whether a node is printed with glued tokens of its own. -/
def Node.isTight : Node → Bool
  | .expr e => e.isTight
  | _ => false

/-- None of the nodes is tight. -/
def AreLoose (xs : List Node) : Prop := ∀ x ∈ xs, x.isTight = false

namespace AreLoose

variable {x : Node} {xs ys : List Node}

@[simp] theorem nil : AreLoose [] := nofun

@[simp] theorem cons : AreLoose (x :: xs) ↔ x.isTight = false ∧ AreLoose xs := List.forall_mem_cons

/-- A node that is not tight does not matter. -/
theorem tail (h : x.isTight = false) : AreLoose (x :: xs) ↔ AreLoose xs :=
  cons.trans (and_iff_right h)

/-- A node without others below it. -/
theorem leaf (h : x.isTight = false) : True ↔ AreLoose [x] :=
  (iff_true_intro ((tail h).2 nil)).symm

@[simp] theorem append : AreLoose (xs ++ ys) ↔ AreLoose xs ∧ AreLoose ys := List.forall_mem_append

@[simp] theorem exprs {es : List Expr} :
    AreLoose (Expr.nodesList es) ↔ ∀ e ∈ es, AreLoose e.nodes := by
  rw [Expr.nodesList_eq]
  exact List.forall_mem_flatMap

@[simp] theorem properties {ps : List Property} :
    AreLoose (Property.nodesList ps) ↔ ∀ p ∈ ps, AreLoose p.nodes := by
  rw [Property.nodesList_eq]
  exact List.forall_mem_flatMap

@[simp] theorem declarators {ds : List Declarator} :
    AreLoose (Declarator.nodesList ds) ↔ ∀ d ∈ ds, AreLoose d.nodes := by
  rw [Declarator.nodesList_eq]
  exact List.forall_mem_flatMap

@[simp] theorem stmts {ss : List Stmt} :
    AreLoose (Stmt.nodesList ss) ↔ ∀ s ∈ ss, AreLoose s.nodes := by
  rw [Stmt.nodesList_eq]
  exact List.forall_mem_flatMap

end AreLoose

/-! ### What a phrase adds -/

/-- Whether an expression does not begin with the sign in front of it. -/
def Edge.spares : Edge → Expr → Bool
  | .plus, .unary op _ _ => op ≠ "+"
  | .minus, .unary op _ _ => op ≠ "-"
  | _, _ => true

@[simp] theorem Edge.spares_clear (e : Expr) : Edge.clear.spares e = true := rfl

section Unary

variable {k : TokenKind} (hk : k.isUnary) (e : Expr) (o : Origin)
include hk

/-- An operator is glued to a sign in front of it if it is that sign. -/
theorem Edge.meets_unary (edge : Edge) :
    edge.meets k = false ↔ edge.spares (.unary k.spelling e o) = true := by
  cases k <;> cases hk <;> cases edge <;> simp [Edge.meets, Edge.spares, TokenKind.spelling]

/-- An operator is glued to its operand if that begins with the same sign. -/
theorem Edge.spares_behind (w : List Char) :
    (Edge.behind w k).spares e = true ↔ (Expr.unary k.spelling e o).isTight = false := by
  have hsame : ∀ op op' : String, decide (op' ≠ op) = true ↔ decide (op' = op) = false := by simp
  cases k <;> cases hk <;> cases e <;> first | exact iff_of_true rfl rfl | exact hsame _ _

end Unary

/-- The edge behind an expression that is an operand as it stands. -/
def Expr.edge : Expr → Edge
  | .literal (.integer _) _ _ => .integer
  | _ => .clear

/-- Whether a phrase can stand behind a sign. -/
def Phrase.isOperand : Phrase → Bool
  | .operand _ | .suffixed _ | .primary _ => true
  | _ => false

/-- Whether a phrase can stand in front of a dot. -/
def Phrase.isSuffixed : Phrase → Bool
  | .suffixed _ | .primary _ => true
  | _ => false

/-- The edge behind a phrase. -/
def Phrase.edge : Phrase → Edge
  | .suffixed e | .primary e => e.edge
  | _ => .clear

/-- Whether a phrase does not begin with the sign in front of it. -/
def Phrase.spared (edge : Edge) : Phrase → Bool
  | .operand e => edge.spares e
  | _ => true

/-- Nothing at the front of a text belongs to what is before it, and no member follows. -/
def Lexer.Ends (rest : List Char) : Prop := Lexer.Apart rest ∧ rest.head? ≠ some '.'

/-- What can follow a phrase. -/
def Phrase.EndsBefore (p : Phrase) (rest : List Char) : Prop :=
  Lexer.Apart rest ∧ (p.isSuffixed = false → rest.head? ≠ some '.')

/-- **The text of a phrase is glued at its tight nodes only**, and to a sign in front of it if it
begins with the same. -/
def Phrase.GluesTight (p : Phrase) : Prop :=
  ∀ (depth : Nat) (edge : Edge) (rest : List Char), (p.isOperand = false → edge = .clear) →
    p.EndsBefore rest →
    Abuts edge (p.text depth).written rest p.edge (p.spared edge ∧ AreLoose p.nodes)

namespace Lexer

theorem ends_cons {c : Char} (hname : isNameChar c = false) (hdigit : Text.isDecimalDigit c = false)
    (hdot : c ≠ '.') (cs : List Char) : Ends (c :: cs) :=
  ⟨apart_cons hname hdigit hdot cs, fun h => hdot (Option.some.inj h)⟩

theorem ends_blank (cs : List Char) : Ends (' ' :: cs) := ends_cons rfl rfl (by decide) cs

theorem ends_newline (cs : List Char) : Ends ('\n' :: cs) := ends_cons rfl rfl (by decide) cs

theorem ends_semicolon (cs : List Char) : Ends (';' :: cs) := ends_cons rfl rfl (by decide) cs

theorem ends_closing {k k' : TokenKind} (hk : k.closing? = some k') (cs : List Char) :
    Ends (k'.spelling.toList ++ cs) := by
  cases k <;> cases hk <;> exact ends_cons rfl rfl (by decide) cs

end Lexer

/-! ### Lists -/

section Lists

variable {α : Type} {text : α → CodeText} {P : α → Prop} {xs : List α} {edge : Edge}
  {rest : List Char}

/-- Each item adds what it says, whatever is set apart behind it. -/
def AbutItems (text : α → CodeText) (P : α → Prop) (xs : List α) : Prop :=
  ∀ x ∈ xs, ∀ rest, Lexer.Ends rest → Abuts .clear (text x).written rest .clear (P x)

theorem AbutItems.separated (h : AbutItems text P xs) (hrest : Lexer.Ends rest) :
    Abuts .clear (commaSeparated (xs.map text)).written rest .clear (∀ x ∈ xs, P x) := by
  induction xs with
  | nil => exact Abuts.nil.iff (by simp)
  | cons x xs ih =>
    have hx := h x (List.mem_cons_self ..)
    cases xs with
    | nil =>
      rw [List.map_singleton, commaSeparated, CodeText.intercalate_singleton]
      exact (hx rest hrest).iff (by simp)
    | cons y ys =>
      rw [written_commaSeparated_cons]
      have hmore := ih fun z hz => h z (List.mem_cons_of_mem _ hz)
      refine ((hx _ (Lexer.ends_cons rfl rfl (by decide) _)).append
        (.symbol (k := .comma) rfl hmore)).iff ?_
      simp only [List.forall_mem_cons]

/-- A list in brackets without blanks inside. -/
theorem AbutItems.listed {k k' : TokenKind} (h : AbutItems text P xs) (hk : k.closing? = some k') :
    Abuts edge (k.spelling.toList ++
      ((commaSeparated (xs.map text)).written ++ k'.spelling.toList)) rest .clear (∀ x ∈ xs, P x) :=
  .enclosed hk (h.separated (Lexer.ends_closing hk rest))

/-- A list in braces, with blanks inside unless it is empty. -/
theorem AbutItems.inBraces (h : AbutItems text P xs) :
    Abuts edge (inBraces (xs.map text)).written rest .clear (∀ x ∈ xs, P x) := by
  cases xs with
  | nil =>
    rw [written_inBraces_nil]
    exact h.listed rfl
  | cons x xs =>
    rw [written_inBraces_cons]
    exact .enclosed rfl (.blank ((h.separated (Lexer.ends_blank _)).lead (.blank .nil)))

/-- Parameters in parentheses. -/
theorem abuts_params {ids : List Identifier} (h : AreBindingNames ids) :
    Abuts edge (TokenKind.leftParen.spelling.toList ++
      ((paramsText ids).written ++ TokenKind.rightParen.spelling.toList)) rest .clear True :=
  have hids : AbutItems (fun id => (id.name : CodeText)) (fun _ => True) ids :=
    fun id hid _ hrest => by
      rw [CodeText.written_ofString]
      exact .name (h id hid).1 hrest.1
  (hids.listed rfl).iff (by simp)

end Lists

/-! ### Expressions -/

namespace Phrase.GluesTight

variable {p q : Phrase} {e : Expr} {o : Origin}

/-- A phrase that can stand behind no sign and in front of no dot, by its nodes alone. -/
theorem of_loose (hp : p.isOperand = false)
    (h : ∀ (depth : Nat) (rest : List Char), Lexer.Ends rest →
      Abuts .clear (p.text depth).written rest .clear (AreLoose p.nodes)) : p.GluesTight := by
  intro depth edge rest hedge hrest
  obtain rfl := hedge hp
  have hkind : p.isSuffixed = false ∧ p.edge = .clear ∧ p.spared .clear = true := by
    cases p <;> first | exact ⟨rfl, rfl, rfl⟩ | cases hp
  rw [hkind.2.1, hkind.2.2]
  exact (h depth rest ⟨hrest.1, hrest.2 hkind.1⟩).iff (by simp)

theorem loose (h : p.GluesTight) (hp : p.isOperand = false) (depth : Nat) {rest : List Char}
    (hrest : Lexer.Ends rest) :
    Abuts .clear (p.text depth).written rest .clear (AreLoose p.nodes) := by
  have hkind : p.edge = .clear ∧ p.spared .clear = true := by
    cases p <;> first | exact ⟨rfl, rfl⟩ | cases hp
  have habuts := h depth .clear rest (fun _ => rfl) ⟨hrest.1, fun _ => hrest.2⟩
  rw [hkind.1, hkind.2] at habuts
  exact habuts.iff (by simp)

theorem operationOperand (h : (Phrase.operand e).GluesTight) : (Phrase.operation 0 e).GluesTight :=
  of_loose rfl fun depth _ hrest =>
    (h depth .clear _ nofun ⟨hrest.1, fun _ => hrest.2⟩).iff (and_iff_right (Edge.spares_clear e))

theorem operandSuffixed (hlevel : e.level ≤ 1) (h : (Phrase.suffixed e).GluesTight) :
    (Phrase.operand e).GluesTight := by
  intro depth edge rest _ hrest
  -- what has a level below that of an operator begins with none
  have hspares : edge.spares e = true := by
    cases e <;> first | (cases edge <;> rfl) | exact absurd hlevel (by simp [Expr.level])
  have habuts := (h depth edge rest nofun ⟨hrest.1, nofun⟩).iff
    (Q := (Phrase.operand e).spared edge ∧ AreLoose (Phrase.operand e).nodes)
    (and_congr_left' (iff_of_true rfl hspares))
  have hedge : e.edge = .clear ∨ e.edge = .integer := by
    unfold Expr.edge
    split
    · exact .inr rfl
    · exact .inl rfl
  rcases hedge with hedge | hedge
  · rwa [Phrase.edge, hedge] at habuts
  · rw [Phrase.edge, hedge] at habuts
    exact habuts.clear (hrest.2 rfl)

theorem arrow {ids : List Identifier} (hids : AreBindingNames ids)
    (h : (Phrase.expr e).GluesTight) :
    (Phrase.expr (.arrow ids e o)).GluesTight := by
  refine of_loose rfl fun depth rest hrest => ?_
  simp only [Phrase.text, Expr.written_text_arrow]
  exact ((abuts_params hids).follow (.blank (.symbol rfl (h.loose rfl depth hrest)))).iff
    (AreLoose.tail rfl).symm

theorem arrowBlock {ids : List Identifier} {b : Block} (hids : AreBindingNames ids)
    (h : (Phrase.block b).GluesTight) : (Phrase.expr (.arrowBlock ids b o)).GluesTight := by
  refine of_loose rfl fun depth rest hrest => ?_
  simp only [Phrase.text, Expr.written_text_arrowBlock]
  exact ((abuts_params hids).follow (.blank (.symbol rfl (h.loose rfl depth hrest)))).iff
    (AreLoose.tail rfl).symm

/-- An operator between its operands. -/
theorem operands {l r : Phrase} {k : TokenKind} (hk : k.isSymbol) (hp : p.isOperand = false)
    (hl : l.isOperand = false) (hr : r.isOperand = false) (h : l.GluesTight) (h' : r.GluesTight)
    (htext : ∀ depth, (p.text depth).written
      = (l.text depth).written ++ (' ' :: (k.spelling.toList ++ ' ' :: (r.text depth).written)))
    (hnodes : AreLoose p.nodes ↔ AreLoose l.nodes ∧ AreLoose r.nodes) : p.GluesTight := by
  refine of_loose hp fun depth rest hrest => ?_
  rw [htext]
  exact ((h.loose hl depth (Lexer.ends_blank _)).append
    (.blank (.symbol hk (h'.loose hr depth hrest)))).iff hnodes.symm

theorem assign {k : TokenKind} {target value : Expr} (hk : k.isAssignment)
    (h : (Phrase.choice target).GluesTight) (h' : (Phrase.expr value).GluesTight) :
    (Phrase.expr (.assign k.spelling target value o)).GluesTight := by
  have hsymbol : k.isSymbol := by
    revert hk
    cases k <;> decide
  exact operands hsymbol rfl rfl rfl h h' (Expr.written_text_assign _ _ o · _)
    ((AreLoose.tail rfl).trans AreLoose.append)

theorem binary {k : TokenKind} {n : Nat} {l r : Expr} (hk : k.looseness? = some (n + 1))
    (h : (Phrase.operation (n + 1) l).GluesTight) (h' : (Phrase.operation n r).GluesTight) :
    (Phrase.operation (n + 1) (.binary k.spelling l r o)).GluesTight := by
  have hsymbol : k.isSymbol := by
    revert hk
    cases k <;> first | exact fun _ => rfl | nofun
  exact operands hsymbol rfl rfl rfl h h' (Expr.written_text_binary _ _ o · _)
    ((AreLoose.tail rfl).trans AreLoose.append)

theorem conditional {t c a : Expr} (ht : (Phrase.operation loosest t).GluesTight)
    (hc : (Phrase.expr c).GluesTight) (ha : (Phrase.expr a).GluesTight) :
    (Phrase.choice (.conditional t c a o)).GluesTight := by
  refine of_loose rfl fun depth rest hrest => ?_
  simp only [Phrase.text, Expr.written_text_conditional]
  refine ((ht.loose rfl depth (Lexer.ends_blank _)).append (.blank (.symbol rfl
    ((hc.loose rfl depth (Lexer.ends_blank _)).append (.blank (.symbol rfl
      (ha.loose rfl depth hrest))))))).iff ?_
  exact ((AreLoose.tail rfl).trans (AreLoose.append.trans (and_congr_right' AreLoose.append))).symm

theorem unary {k : TokenKind} (hk : k.isUnary) (hopens : ∀ depth, Opens (e.text depth).written)
    (h : (Phrase.operand e).GluesTight) : (Phrase.operand (.unary k.spelling e o)).GluesTight := by
  intro depth edge rest _ hrest
  have hnodes : ∀ w, (edge.meets k = false ∧
      (Phrase.operand e).spared (.behind w k) ∧ AreLoose (Phrase.operand e).nodes) ↔
      (Phrase.operand (.unary k.spelling e o)).spared edge ∧
        AreLoose (Phrase.operand (.unary k.spelling e o)).nodes := by
    intro w
    rw [edge.meets_unary hk e o]
    exact and_congr_right' ((and_congr_left' (Edge.spares_behind hk e o w)).trans
      (AreLoose.cons (x := .expr (.unary k.spelling e o))).symm)
  refine Abuts.iff ?_ (hnodes k.spelling.toList)
  cases hword : k.isWord with
  | true =>
    have hoperator : isWordOperator k.spelling := by
      cases k <;> cases hk <;> cases hword <;> rfl
    simp only [Phrase.text, Expr.written_text_unaryWord _ _ _ hoperator]
    refine (Abuts.lexeme (Lexer.front_word hword (Lexer.apart_blank _))).append (.blank ?_)
    rw [Edge.behind_of_isWord hword]
    exact h depth .clear rest nofun hrest
  | false =>
    have hsign : (k = .bang ∨ k = .minus ∨ k = .plus) ∧ isWordOperator k.spelling = false := by
      revert hk hword
      cases k <;> decide
    obtain ⟨c, cs, hcs, hc⟩ := hopens depth
    have hne : c ≠ '=' := by
      rintro rfl
      exact absurd hc (by decide)
    simp only [Phrase.text, Expr.written_text_unarySign _ _ _ hsign.2]
    refine (Abuts.lexeme ?_).append (h depth _ rest nofun hrest)
    rw [hcs]
    exact Lexer.front_sign hsign.1 hne _

theorem member {property : String} (hname : IsName property.toList)
    (h : (Phrase.suffixed e).GluesTight) : (Phrase.suffixed (.member e property o)).GluesTight := by
  intro depth edge rest _ hrest
  simp only [Phrase.text, Expr.written_text_member]
  have hdot : Abuts e.edge (TokenKind.dot.spelling.toList ++ property.toList) rest .clear
      (e.edge.meets .dot = false) :=
    (Abuts.lexeme (Lexer.front_closed rfl _)).lead (.name hname hrest.1)
  refine ((h depth edge _ nofun ⟨Lexer.apart_dot hname rest, nofun⟩).append hdot).iff ?_
  have htight : e.edge.meets .dot = false ↔ (Expr.member e property o).isTight = false := by
    cases e with
    | literal v raw o' => cases v <;> simp [Expr.edge, Expr.isTight, Edge.meets]
    | _ => simp [Expr.edge, Expr.isTight, Edge.meets]
  rw [htight, and_assoc]
  exact and_congr_right' (and_comm.trans (AreLoose.cons (x := .expr (.member e property o))).symm)

theorem index {i : Expr} (h : (Phrase.suffixed e).GluesTight) (h' : (Phrase.expr i).GluesTight) :
    (Phrase.suffixed (.index e i o)).GluesTight := by
  intro depth edge rest _ hrest
  simp only [Phrase.text, Expr.written_text_index]
  refine ((h depth edge _ nofun ⟨Lexer.apart_cons rfl rfl (by decide) _, nofun⟩).append
    (.enclosed rfl (h'.loose rfl depth (Lexer.ends_closing (k := .leftBracket) rfl _)))).iff ?_
  rw [and_assoc]
  exact and_congr_right' ((AreLoose.tail rfl).trans AreLoose.append).symm

/-- Expressions with commas between them. -/
theorem abutItems {es : List Expr} (h : ∀ e ∈ es, (Phrase.expr e).GluesTight) (depth : Nat) :
    AbutItems (Expr.text depth) (fun e => AreLoose e.nodes) es :=
  fun e he _ hrest => (h e he).loose rfl depth hrest

theorem call {f : Expr} {as : List Expr} (h : (Phrase.suffixed f).GluesTight)
    (h' : ∀ a ∈ as, (Phrase.expr a).GluesTight) : (Phrase.suffixed (.call f as o)).GluesTight := by
  intro depth edge rest _ hrest
  simp only [Phrase.text, Expr.written_text_call]
  refine ((h depth edge _ nofun ⟨Lexer.apart_cons rfl rfl (by decide) _, nofun⟩).append
    ((abutItems h' depth).listed (k := .leftParen) rfl)).iff ?_
  rw [and_assoc]
  exact and_congr_right'
    ((AreLoose.tail rfl).trans (AreLoose.append.trans (and_congr_right' AreLoose.exprs))).symm

/-- A primary by its nodes and by the edge behind it. -/
theorem of_primary {edge' : Edge} (hedge : e.edge = edge')
    (h : ∀ (depth : Nat) (edge : Edge) (rest : List Char), Lexer.Apart rest →
      Abuts edge (e.text depth).written rest edge' (AreLoose e.nodes)) :
    (Phrase.primary e).GluesTight := by
  intro depth edge rest _ hrest
  rw [Phrase.edge, hedge]
  exact (h depth edge rest hrest.1).iff (and_iff_right rfl).symm

theorem string {s : CodeText} {raw : String} :
    (Phrase.primary (.literal (.text s) raw o)).GluesTight := by
  refine of_primary rfl fun depth edge rest _ => ?_
  simp only [Expr.text]
  exact (Abuts.quoted s).iff (AreLoose.leaf rfl)

theorem number {v : LiteralValue} {raw : String} (h : IsNumeral raw.toList)
    (hv : NumberLiteral.value raw = .ok v) : (Phrase.primary (.literal v raw o)).GluesTight := by
  have hedge : (Expr.literal v raw o).edge = .behind raw.toList .number := by
    unfold NumberLiteral.value at hv
    dsimp only at hv
    split at hv
    · rename_i hmark
      obtain rfl := Except.ok.inj hv
      simp only [hmark, if_true, Expr.edge, Edge.behind]
    · rename_i hmark
      split at hv
      · cases hv
      · obtain rfl := Except.ok.inj hv
        simp only [hmark, Bool.false_eq_true, if_false, Expr.edge, Edge.behind]
  refine of_primary hedge fun depth edge rest hrest => ?_
  rw [Expr.text_number hv, CodeText.written_ofString]
  exact (Abuts.plain (Lexer.front_number h hrest) (edge.meets_eq_false (by decide))).iff
    (AreLoose.leaf (by obtain ⟨n, rfl⟩ | ⟨x, rfl⟩ := NumberLiteral.value_cases hv <;> rfl))

theorem truth {b : Bool} : (Phrase.primary (.literal (.truth b)
    (if b then TokenKind.trueWord else TokenKind.falseWord).spelling o)).GluesTight := by
  refine of_primary rfl fun depth edge rest hrest => ?_
  have hword : (if b then TokenKind.trueWord else TokenKind.falseWord).isWord := by
    cases b <;> rfl
  simp only [Expr.text, CodeText.written_ofString]
  exact (Abuts.word hword hrest).iff (AreLoose.leaf rfl)

theorem null : (Phrase.primary (.literal .null TokenKind.nullWord.spelling o)).GluesTight := by
  refine of_primary rfl fun depth edge rest hrest => ?_
  simp only [Expr.text, CodeText.written_ofString]
  exact (Abuts.word rfl hrest).iff (AreLoose.leaf rfl)

theorem name {id : Identifier} (h : IsBindingName id.name) :
    (Phrase.primary (.name id)).GluesTight := by
  refine of_primary rfl fun depth edge rest hrest => ?_
  simp only [Expr.text, CodeText.written_ofString]
  exact (Abuts.name h.1 hrest).iff (AreLoose.leaf rfl)

theorem array {es : List Expr} (h : ∀ e ∈ es, (Phrase.expr e).GluesTight) :
    (Phrase.primary (.array es o)).GluesTight := by
  refine of_primary rfl fun depth edge rest _ => ?_
  simp only [Expr.written_text_array]
  exact ((abutItems h depth).listed (k := .leftBracket) rfl).iff
    ((AreLoose.tail rfl).trans AreLoose.exprs).symm

theorem group (h : (Phrase.expr e).GluesTight) : (Phrase.primary (.group e o)).GluesTight := by
  refine of_primary rfl fun depth edge rest _ => ?_
  simp only [Expr.written_text_group]
  exact (Abuts.enclosed rfl
    (h.loose rfl depth (Lexer.ends_closing (k := .leftParen) rfl _))).iff (AreLoose.tail rfl).symm

theorem property {key : CodeText} {v : Expr} {shorthand quoted : Bool}
    (hkey : quoted = false → IsBindingKey key) (h : (Phrase.expr v).GluesTight) :
    (Phrase.property ⟨key, v, shorthand, quoted, o⟩).GluesTight := by
  refine of_loose rfl fun depth rest hrest => ?_
  cases hshort : Property.isShort ⟨key, v, shorthand, quoted, o⟩ with
  | true =>
    -- the value is a name
    cases v <;> simp only [Property.isShort, Bool.false_eq_true] at hshort
    have hquoted : quoted = false := by simpa using (Bool.and_eq_true_iff.1 hshort).2
    obtain ⟨name, rfl, hname⟩ := hkey hquoted
    simp only [Phrase.text, Property.text, Property.isShort, hshort, if_true,
      CodeText.written_ofString]
    exact (Abuts.name hname.1 hrest.1).iff ((AreLoose.leaf rfl).trans (AreLoose.tail rfl).symm)
  | false =>
    have hname : ∀ rest, Lexer.Apart rest →
        Abuts .clear (if quoted then quotedString key else key).written rest .clear True := by
      intro rest hrest
      cases quoted with
      | true => exact .quoted key
      | false =>
        obtain ⟨name, rfl, hname⟩ := hkey rfl
        simp only [Bool.false_eq_true, if_false, CodeText.written_ofString]
        exact .name hname.1 hrest
    simp only [Phrase.text, Property.written_text_long _ _ _ hshort]
    exact ((hname _ (Lexer.apart_cons rfl rfl (by decide) _)).follow
      (.symbol rfl (h.loose rfl depth hrest))).iff (AreLoose.tail rfl).symm

theorem object {ps : List Property} (h : ∀ p ∈ ps, (Phrase.property p).GluesTight) :
    (Phrase.primary (.object ps o)).GluesTight := by
  refine of_primary rfl fun depth edge rest _ => ?_
  simp only [Expr.text_object]
  have hitems : AbutItems (Property.text depth) (fun p => AreLoose p.nodes) ps :=
    fun p hp _ hrest => (h p hp).loose rfl depth hrest
  exact hitems.inBraces.iff ((AreLoose.tail rfl).trans AreLoose.properties).symm

end Phrase.GluesTight

/-! ### Statements -/

/-- Lines of statements, from the front of one on. -/
theorem abuts_lines {ss : List Stmt} (h : ∀ s ∈ ss, (Phrase.stmt s).GluesTight) (depth : Nat)
    (rest : List Char) :
    Abuts .clear (lines depth ss) rest .clear (∀ s ∈ ss, AreLoose s.nodes) := by
  induction ss with
  | nil => exact Abuts.nil.iff (by simp)
  | cons s ss ih =>
    rw [lines_cons, CodeText.written_append, CodeText.written_ofString, toList_indentation,
      List.append_assoc]
    have hmore := ih fun s hs => h s (List.mem_cons_of_mem _ hs)
    have hline := (h s (List.mem_cons_self ..)).loose rfl depth
      (Lexer.ends_newline (lines depth ss ++ rest))
    refine (Abuts.blanks (2 * depth) (hline.append (.newline hmore))).iff ?_
    exact (List.forall_mem_cons (p := fun s : Stmt => AreLoose s.nodes)).symm

section Sources

variable {rest : List Char}

/-- What follows the names of an import or a re-export. -/
theorem abuts_source (s : CodeText) : Abuts .clear (' ' :: (TokenKind.fromWord.spelling.toList ++
    ' ' :: ((quotedString s).written ++ [';']))) rest .clear True :=
  .blank ((Abuts.word rfl (Lexer.apart_blank _)).follow
    (.blank ((Abuts.quoted s).follow .semicolon)))

/-- A name of a list, and the name behind `as` if it is another one. -/
theorem abuts_alias {a b : String} (ha : IsName a.toList) (hb : IsName b.toList)
    (hrest : Lexer.Apart rest) :
    Abuts .clear (if a = b then b else a ++ " as " ++ b).toList rest .clear True := by
  split
  · exact .name hb hrest
  · rw [toList_alias]
    exact (Abuts.name ha (Lexer.apart_blank _)).follow (.blank
      ((Abuts.word rfl (Lexer.apart_blank _)).follow (.blank (.name hb hrest))))

theorem abutItems_imports {ss : List ImportSpecifier} (h : ∀ s ∈ ss, s.IsListed) :
    AbutItems (fun s => (s.text : CodeText)) (fun _ => True) ss := by
  intro s hs rest hrest
  have hs := h s hs
  match s with
  | .named exported binding o =>
    simp only [ImportSpecifier.text_named, CodeText.written_ofString]
    exact abuts_alias hs.1.1 hs.2.1 hrest.1
  | .default .. | .all .. => exact hs.elim

theorem abutItems_exports {ss : List ExportSpecifier} {isLocal : Bool} (h : AreExports isLocal ss) :
    AbutItems (fun s => (s.text : CodeText)) (fun _ => True) ss := by
  intro s hs rest hrest
  obtain ⟨hexported, hsource, -⟩ := h s hs
  simp only [ExportSpecifier.text, CodeText.written_ofString]
  exact abuts_alias hsource.1 hexported.1 hrest.1

theorem abuts_importRest {ss : List ImportSpecifier} (h : AreImportRest ss) (hne : ss ≠ [])
    (hrest : Lexer.Apart rest) : Abuts .clear (importClause ss).written rest .clear True := by
  obtain ⟨id, o, rfl, hid⟩ | h := h
  · rw [written_importClause_all]
    exact .symbol rfl ((Abuts.word rfl (Lexer.apart_blank _)).follow
      (.blank (.name hid.1 hrest)))
  · rw [importClause_listed h hne]
    exact (abutItems_imports h).inBraces.iff (by simp)

theorem abuts_importClause {ss : List ImportSpecifier} (h : AreImports ss) (hne : ss ≠ [])
    (hrest : Lexer.Apart rest) : Abuts .clear (importClause ss).written rest .clear True := by
  obtain h | ⟨id, o, more, rfl, hid, hmore⟩ := h
  · exact abuts_importRest h hne hrest
  by_cases hnil : more = []
  · subst hnil
    rw [importClause_single, CodeText.written_ofString]
    exact .name hid.1 hrest
  · rw [written_importClause_default id o hnil]
    exact (Abuts.name hid.1 (Lexer.apart_cons rfl rfl (by decide) _)).follow
      (.symbol rfl (abuts_importRest hmore hnil hrest))

end Sources

namespace Phrase.GluesTight

variable {e : Expr} {o : Origin}

theorem block {ss : List Stmt} (h : ∀ s ∈ ss, (Phrase.stmt s).GluesTight) :
    (Phrase.block ⟨ss, o⟩).GluesTight := by
  refine of_loose rfl fun depth rest hrest => ?_
  refine Abuts.iff (P := ∀ s ∈ ss, AreLoose s.nodes) ?_ AreLoose.stmts.symm
  simp only [Phrase.text]
  cases ss with
  | nil =>
    rw [Block.written_text_nil]
    exact (Abuts.enclosed (k := .leftBrace) rfl .nil).iff (by simp)
  | cons s ss =>
    rw [Block.written_text_cons]
    refine .enclosed (k := .leftBrace) rfl (.newline ((abuts_lines h (depth + 1) _).lead ?_))
    rw [toList_indentation, ← List.append_nil (List.replicate (2 * depth) ' ')]
    exact .blanks _ .nil

theorem declarator {id : Identifier} (hid : IsBindingName id.name) :
    (Phrase.declarator ⟨id, none, o⟩).GluesTight := by
  refine of_loose rfl fun depth rest hrest => ?_
  simp only [Phrase.text, Declarator.text, CodeText.written_ofString]
  exact (Abuts.name hid.1 hrest.1).iff (AreLoose.leaf rfl)

theorem declaratorInit {id : Identifier} (hid : IsBindingName id.name)
    (h : (Phrase.expr e).GluesTight) : (Phrase.declarator ⟨id, some e, o⟩).GluesTight := by
  refine of_loose rfl fun depth rest hrest => ?_
  simp only [Phrase.text, Declarator.written_text_init]
  exact ((Abuts.name hid.1 (Lexer.apart_blank _)).follow
    (.blank (.symbol rfl (h.loose rfl depth hrest)))).iff (AreLoose.tail rfl).symm

theorem variableDecl {kind : VariableKind} {ds : List Declarator}
    (h : ∀ d ∈ ds, (Phrase.declarator d).GluesTight) :
    (Phrase.declaration (.variables kind ds o)).GluesTight := by
  refine of_loose rfl fun depth rest hrest => ?_
  have hname : IsName kind.word.toList := by
    cases kind
    · exact Lexer.isName_spelling (k := .constWord) rfl
    · exact Lexer.isName_spelling (k := .letWord) rfl
    · exact Lexer.isName_spelling (k := .varWord) rfl
  have hitems : AbutItems (Declarator.text depth) (fun d => AreLoose d.nodes) ds :=
    fun d hd _ hrest => (h d hd).loose rfl depth hrest
  simp only [Phrase.text, Declaration.written_text_variables]
  exact ((Abuts.name hname (Lexer.apart_blank _)).follow
    (.blank ((hitems.separated (Lexer.ends_semicolon rest)).lead .semicolon))).iff
    ((AreLoose.tail rfl).trans AreLoose.declarators).symm

theorem functionDecl {f : Identifier} {ids : List Identifier} {b : Block}
    (hf : IsBindingName f.name) (hids : AreBindingNames ids) (h : (Phrase.block b).GluesTight) :
    (Phrase.declaration (.function f ids b o)).GluesTight := by
  refine of_loose rfl fun depth rest hrest => ?_
  simp only [Phrase.text, Declaration.written_text_function]
  exact ((Abuts.word rfl (Lexer.apart_blank _)).follow (.blank
    ((Abuts.name hf.1 (Lexer.apart_cons rfl rfl (by decide) _)).follow
      ((abuts_params hids).follow (.blank (h.loose rfl depth hrest)))))).iff
    (AreLoose.tail rfl).symm

theorem importDecl {ss : List ImportSpecifier} {source : CodeText} (hss : AreImports ss) :
    (Phrase.stmt (.importDecl ss source o)).GluesTight := by
  refine of_loose rfl fun depth rest hrest => ?_
  refine Abuts.iff ?_ (AreLoose.leaf rfl)
  by_cases hnil : ss = []
  · subst hnil
    simp only [Phrase.text, Stmt.written_text_importBare]
    exact (Abuts.word rfl (Lexer.apart_blank _)).follow
      (.blank ((Abuts.quoted source).follow .semicolon))
  · simp only [Phrase.text, Stmt.written_text_import _ _ _ hnil]
    exact (Abuts.word rfl (Lexer.apart_blank _)).follow
      (.blank ((abuts_importClause hss hnil (Lexer.apart_blank _)).follow (abuts_source source)))

theorem exportNamed {ss : List ExportSpecifier} {source : Option CodeText}
    (hss : AreExports source.isNone ss) : (Phrase.stmt (.exportNamed ss source o)).GluesTight := by
  refine of_loose rfl fun depth rest hrest => ?_
  refine Abuts.iff ?_ (AreLoose.leaf rfl)
  simp only [Phrase.text, Stmt.written_text_export _ _ hss]
  refine (Abuts.word rfl (Lexer.apart_blank _)).follow (.blank
    (((abutItems_exports hss).inBraces.iff (Q := True) (by simp)).follow ?_))
  cases source with
  | none => exact .semicolon
  | some s => exact abuts_source s

theorem exportAll {source : CodeText} : (Phrase.stmt (.exportAll source o)).GluesTight := by
  refine of_loose rfl fun depth rest hrest => ?_
  refine Abuts.iff ?_ (AreLoose.leaf rfl)
  simp only [Phrase.text, Stmt.written_text_exportAll]
  exact (Abuts.word rfl (Lexer.apart_blank _)).follow
    (.blank ((Abuts.closed (k := .star) rfl nofun).follow (abuts_source source)))

theorem exportDecl {d : Declaration} (h : (Phrase.declaration d).GluesTight) :
    (Phrase.stmt (.exportDecl d o)).GluesTight := by
  refine of_loose rfl fun depth rest hrest => ?_
  simp only [Phrase.text, Stmt.written_text_exportDecl]
  exact ((Abuts.word rfl (Lexer.apart_blank _)).follow
    (.blank (h.loose rfl depth hrest))).iff (AreLoose.tail rfl).symm

theorem exportDefault (h : (Phrase.expr e).GluesTight) :
    (Phrase.stmt (.exportDefault e o)).GluesTight := by
  refine of_loose rfl fun depth rest hrest => ?_
  simp only [Phrase.text, Stmt.written_text_exportDefault]
  exact ((Abuts.word rfl (Lexer.apart_blank _)).follow (.blank
    ((Abuts.word rfl (Lexer.apart_blank _)).follow (.blank
      ((h.loose rfl depth (Lexer.ends_semicolon _)).lead .semicolon))))).iff
    (AreLoose.tail rfl).symm

theorem declaration {d : Declaration} (h : (Phrase.declaration d).GluesTight) :
    (Phrase.stmt (.declaration d)).GluesTight := by
  refine of_loose rfl fun depth rest hrest => ?_
  simp only [Phrase.text, Stmt.text]
  exact (h.loose rfl depth hrest).iff (AreLoose.tail rfl).symm

theorem blockStatement {b : Block} (h : (Phrase.block b).GluesTight) :
    (Phrase.stmt (.block b)).GluesTight := by
  refine of_loose rfl fun depth rest hrest => ?_
  simp only [Phrase.text, Stmt.text]
  exact (h.loose rfl depth hrest).iff (AreLoose.tail rfl).symm

theorem returnNothing : (Phrase.stmt (.returnValue none o)).GluesTight := by
  refine of_loose rfl fun depth rest hrest => ?_
  simp only [Phrase.text, Stmt.written_text_returnNothing]
  exact ((Abuts.word rfl (Lexer.apart_cons rfl rfl (by decide) _)).follow .semicolon).iff
    (AreLoose.leaf rfl)

theorem returnValue (h : (Phrase.expr e).GluesTight) :
    (Phrase.stmt (.returnValue (some e) o)).GluesTight := by
  refine of_loose rfl fun depth rest hrest => ?_
  simp only [Phrase.text, Stmt.written_text_returnValue]
  exact ((Abuts.word rfl (Lexer.apart_blank _)).follow (.blank
    ((h.loose rfl depth (Lexer.ends_semicolon _)).lead .semicolon))).iff (AreLoose.tail rfl).symm

/-- The condition of a choice, and what follows. -/
theorem condition {cs rest : List Char} {P : Prop} {depth : Nat} (h : (Phrase.expr e).GluesTight)
    (h' : Abuts .clear cs rest .clear P) :
    Abuts .clear (TokenKind.ifWord.spelling.toList ++ (' ' ::
      ((TokenKind.leftParen.spelling.toList ++
        ((e.text depth).written ++ TokenKind.rightParen.spelling.toList)) ++ ' ' :: cs)))
      rest .clear
      (AreLoose e.nodes ∧ P) :=
  (Abuts.word rfl (Lexer.apart_blank _)).follow (.blank ((Abuts.enclosed rfl
    (h.loose rfl depth (Lexer.ends_closing (k := .leftParen) rfl _))).append (.blank h')))

theorem ifThen {s : Stmt} (hopens : ∀ depth, Opens (s.text depth).written)
    (h : (Phrase.expr e).GluesTight) (hs : (Phrase.stmt s).GluesTight) :
    (Phrase.stmt (.ifThen e s none o)).GluesTight := by
  refine of_loose rfl fun depth rest hrest => ?_
  simp only [Phrase.text, Stmt.written_text_ifThen _ _ _ (hopens depth)]
  exact (condition h (hs.loose rfl depth hrest)).iff
    ((AreLoose.tail rfl).trans AreLoose.append).symm

theorem ifElse {s a : Stmt} (hopens : ∀ depth, Opens (s.text depth).written)
    (hopens' : ∀ depth, Opens (a.text depth).written) (h : (Phrase.expr e).GluesTight)
    (hs : (Phrase.stmt s).GluesTight) (ha : (Phrase.stmt a).GluesTight) :
    (Phrase.stmt (.ifThen e s (some a) o)).GluesTight := by
  refine of_loose rfl fun depth rest hrest => ?_
  simp only [Phrase.text, Stmt.written_text_ifElse _ _ _ (hopens depth) (hopens' depth)]
  refine (condition h ((hs.loose rfl depth (Lexer.ends_blank _)).append (.blank
    ((Abuts.word rfl (Lexer.apart_blank _)).follow (.blank (ha.loose rfl depth hrest)))))).iff ?_
  exact ((AreLoose.tail rfl).trans (AreLoose.append.trans (and_congr_right' AreLoose.append))).symm

theorem exprStatement (h : (Phrase.expr e).GluesTight) : (Phrase.stmt (.expr e o)).GluesTight := by
  refine of_loose rfl fun depth rest hrest => ?_
  simp only [Phrase.text, Stmt.written_text_expr]
  exact ((h.loose rfl depth (Lexer.ends_semicolon _)).lead .semicolon).iff
    (AreLoose.tail rfl).symm

end Phrase.GluesTight

/-- **What can be printed is glued at its tight nodes only.** -/
theorem Printable.gluesTight {marks texts : Bool} {p : Phrase} (h : Printable marks texts p) :
    p.GluesTight := by
  induction h with
  | exprChoice _ ih | choiceOperation _ ih | operationTighter _ ih | suffixedPrimary _ ih =>
    exact ih
  | arrow hids _ _ ih => exact .arrow hids ih
  | arrowBlock hids _ ih => exact .arrowBlock hids ih
  | assign hk _ _ _ ih ih' => exact .assign hk ih ih'
  | conditional _ _ _ iht ihc iha => exact .conditional iht ihc iha
  | operationOperand _ ih => exact .operationOperand ih
  | binary hk _ _ ih ih' => exact .binary hk ih ih'
  | operandSuffixed h ih => exact .operandSuffixed h.regular.2 ih
  | unary hk h ih => exact .unary hk (fun depth => h.opens depth rfl) ih
  | member hname _ ih => exact .member hname ih
  | index _ _ ih ih' => exact .index ih ih'
  | call _ _ ih ih' => exact .call ih ih'
  | string _ => exact .string
  | number h hv => exact .number h hv
  | truth => exact .truth
  | null => exact .null
  | name h => exact .name h
  | array _ ih => exact .array ih
  | object _ ih => exact .object ih
  | group _ ih => exact .group ih
  | property hkey _ _ _ ih => exact .property hkey ih
  | block _ ih => exact .block ih
  | declarator hid => exact .declarator hid
  | declaratorInit hid _ ih => exact .declaratorInit hid ih
  | variableDecl _ _ ih => exact .variableDecl ih
  | functionDecl hf hids _ ih => exact .functionDecl hf hids ih
  | importDecl hss _ => exact .importDecl hss
  | exportNamed hss _ => exact .exportNamed hss
  | exportAll _ => exact .exportAll
  | exportDecl _ ih => exact .exportDecl ih
  | exportDefault _ ih => exact .exportDefault ih
  | declaration _ ih => exact .declaration ih
  | blockStatement _ ih => exact .blockStatement ih
  | returnNothing => exact .returnNothing
  | returnValue _ ih => exact .returnValue ih
  | ifThen _ hs ih ihs => exact .ifThen (fun depth => hs.opens depth rfl) ih ihs
  | ifElse _ _ hs ha ih ihs iha =>
    exact .ifElse (fun depth => hs.opens depth rfl) (fun depth => ha.opens depth rfl) ih ihs iha
  | exprStatement _ _ ih => exact .exprStatement ih

/-! ### Modules -/

namespace Module

/-- The text of a module that can be printed is glued at its tight nodes only. -/
theorem areUnglued_text {marks texts : Bool} {m : Module}
    (h : PrintableBody marks texts m.body) (base : Nat) :
    AreUnglued (Tokens.ofText (String.ofList m.text.written) base).tokens ↔ AreLoose m.nodes := by
  have hlines := abuts_lines (fun s hs => (h s hs).gluesTight) 0 [] ⟨base, 1, 1⟩
  rw [List.append_nil, ← written_text] at hlines
  rw [← areUngluedFrom_clear (i := base), nodes, AreLoose.stmts, Tokens.ofText,
    String.toList_ofList]
  refine hlines.trans (and_iff_left ?_)
  simp [Lexer.Unglued, Lexer.scan]

/-- **Printing glues two tokens exactly at a sign that is the operand of the same sign, and at an
integer that has a member**: of a module that was read, no token of the printed text is glued to the
next one exactly if no node is such. -/
theorem areUnglued_text_of_parse [CharacterNames] {text : String} {filename : Option String}
    {base : Nat} {m : Module} (h : parse text filename base = .ok m) (base' : Nat) :
    AreUnglued (Tokens.ofText (String.ofList m.text.written) base').tokens ↔
      ∀ x ∈ m.nodes, x.isTight = false :=
  areUnglued_text (printable_of_parse h) base'

section

attribute [local instance] CharacterNames.nameless

/-- Signs and numbers that come near each other, and are not glued. -/
theorem areUnglued_text_of_parse_near : ∃ m,
    parse "a - -b + +(- + -c) - -(+d)\n1.5.e + (2).f - g[3].h" none 0 = .ok m ∧
      (AreUnglued (Tokens.ofText (String.ofList m.text.written) 0).tokens ↔
        ∀ x ∈ m.nodes, x.isTight = false) ∧
      AreUnglued (Tokens.ofText (String.ofList m.text.written) 0).tokens := by
  have hparses : ((parse "a - -b + +(- + -c) - -(+d)\n1.5.e + (2).f - g[3].h"
      none 0).toOption.filter fun m => ∀ x ∈ m.nodes, x.isTight = false).isSome := by
    decide +kernel
  obtain ⟨m, hm⟩ := Option.isSome_iff_exists.1 hparses
  obtain ⟨hm, hloose⟩ := Option.filter_eq_some_iff.1 hm
  have hparse := Except.eq_ok_of_toOption hm
  have hunglued := areUnglued_text_of_parse hparse 0
  exact ⟨m, hparse, hunglued, hunglued.2 (of_decide_eq_true hloose)⟩

/-- Two signs with a blank between them are printed without it. -/
theorem not_areUnglued_text_signs : ∃ m, parse "- -x" none 0 = .ok m ∧
    AreUnglued (Tokens.ofText "- -x" 0).tokens ∧
      ¬ AreUnglued (Tokens.ofText (String.ofList m.text.written) 0).tokens := by
  have hparses : ((parse "- -x" none 0).toOption.filter
      fun m => ¬ ∀ x ∈ m.nodes, x.isTight = false).isSome := by
    decide +kernel
  obtain ⟨m, hm⟩ := Option.isSome_iff_exists.1 hparses
  obtain ⟨hm, htight⟩ := Option.filter_eq_some_iff.1 hm
  have hparse := Except.eq_ok_of_toOption hm
  have hnode : ¬ ∀ x ∈ m.nodes, x.isTight = false := of_decide_eq_true htight
  exact ⟨m, hparse, by decide +kernel, fun hunglued =>
    hnode ((areUnglued_text (printable_of_parse hparse) 0).1 hunglued)⟩

end

end Module

end MessageBinder
