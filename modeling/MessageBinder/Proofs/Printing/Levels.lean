import MessageBinder.Proofs.Printing.RoundTrip

/-!
# The levels of operators

The printer writes no parentheses but those of the tree, so a tree must say by its shape which
operator binds more tightly and on which side an operator gathers. Every expression stands at a
*level* (`MessageBinder.Expr.level`), and a node obeys the levels (`MessageBinder.Node.obeys`) if
its operands stand where its operator admits them. Three rules look further than one node: a
statement or the body of an arrow function begins with no object, and in front of an `else` no
choice is open.

Every node of a module that was read obeys the levels, and an expression whose nodes obey them is
told by its text (`MessageBinder.Module.obeys_of_parse`): the levels leave no second way to read it.
-/

namespace MessageBinder

/-! ### Levels -/

/-- The level of an operator between two operands. -/
def operatorLevel? : String → Option Nat
  | "*" | "/" | "%" => some 3
  | "+" | "-" => some 4
  | "<" | ">" | "<=" | ">=" => some 5
  | "==" | "!=" | "===" | "!==" => some 6
  | "&&" => some 7
  | "||" => some 8
  | _ => none

/-- **The level of an expression**, from the tightest on: a primary, something with a member, an
element or a call behind it, an operator before an operand, six levels of operators between
operands, a choice, and at last an assignment or a function. -/
def Expr.level : Expr → Nat
  | .name _ | .literal .. | .verbatim .. | .array .. | .object .. | .group .. => 0
  | .member .. | .index .. | .call .. => 1
  | .unary .. => 2
  | .binary op _ _ _ => (operatorLevel? op).getD 3
  | .conditional .. => 9
  | .assign .. | .arrow .. | .arrowBlock .. => 10

/-- Whether the operands of an expression stand at levels that its operator admits. -/
def Expr.obeys : Expr → Bool
  | .member e _ _ | .index e _ _ | .call e _ _ => e.level ≤ 1
  | .unary _ e _ => e.level ≤ 2
  | .binary op l r _ => (operatorLevel? op).any fun n => l.level ≤ n && r.level < n
  | .conditional t _ _ _ => t.level ≤ 8
  | .assign _ target _ _ => target.isTarget
  | .arrow _ e _ => !e.opensBrace
  | _ => true

/-- Whether a statement that is an expression begins with no object, and one with an alternative has
no open choice in front of it. -/
def Stmt.obeys : Stmt → Bool
  | .expr e _ => !e.opensBrace
  | .ifThen _ c (some _) _ => !c.isOpen
  | _ => true

/-- **Whether a node obeys the levels.** -/
def Node.obeys : Node → Bool
  | .expr e => e.obeys
  | .stmt s => s.obeys
  | .property _ | .declarator _ | .declaration _ => true

/-! ### Spellings -/

/-- An expression with names, numbers and operators that are such. -/
def Expr.IsSpelled : Expr → Prop
  | .name id => IsBindingName id.name
  | .literal (.text _) _ _ => True
  | .literal (.truth b) raw _ =>
    raw = (if b then TokenKind.trueWord else TokenKind.falseWord).spelling
  | .literal .null raw _ => raw = TokenKind.nullWord.spelling
  | .literal v raw _ => IsNumeral raw.toList ∧ NumberLiteral.value raw = .ok v
  | .verbatim .. => False
  | .member _ property _ => IsName property.toList
  | .unary op _ _ => ∃ k : TokenKind, k.isUnary ∧ op = k.spelling
  | .assign op _ _ _ => ∃ k : TokenKind, k.isAssignment ∧ op = k.spelling
  | .arrow ids _ _ | .arrowBlock ids _ _ => AreBindingNames ids
  | .array .. | .object .. | .index .. | .call .. | .binary .. | .conditional .. | .group .. => True

/-- A node with names, numbers and operators that are such. -/
def Node.IsSpelled : Node → Prop
  | .expr e => e.IsSpelled
  | .property p => p.quoted = false → IsBindingKey p.key
  | .declarator d => IsBindingName d.id.name
  | .declaration (.variables _ ds _) => ds ≠ []
  | .declaration (.function f ids _ _) => IsBindingName f.name ∧ AreBindingNames ids
  | .stmt (.importDecl ss _ _) => AreImports ss
  | .stmt (.exportNamed ss s _) => AreExports s.isNone ss
  | .stmt _ => True

/-- Nodes that are spelled and obey the levels. -/
def AreRegular (xs : List Node) : Prop := ∀ x ∈ xs, x.IsSpelled ∧ x.obeys

namespace AreRegular

variable {x : Node} {xs ys : List Node}

@[simp] theorem nil : AreRegular [] := nofun

@[simp] theorem cons : AreRegular (x :: xs) ↔ (x.IsSpelled ∧ x.obeys) ∧ AreRegular xs :=
  List.forall_mem_cons

@[simp] theorem append : AreRegular (xs ++ ys) ↔ AreRegular xs ∧ AreRegular ys :=
  List.forall_mem_append

theorem exprs {es : List Expr} : AreRegular (Expr.nodesList es) ↔ ∀ e ∈ es, AreRegular e.nodes := by
  rw [Expr.nodesList_eq]
  exact List.forall_mem_flatMap

theorem properties {ps : List Property} :
    AreRegular (Property.nodesList ps) ↔ ∀ p ∈ ps, AreRegular p.nodes := by
  rw [Property.nodesList_eq]
  exact List.forall_mem_flatMap

theorem declarators {ds : List Declarator} :
    AreRegular (Declarator.nodesList ds) ↔ ∀ d ∈ ds, AreRegular d.nodes := by
  rw [Declarator.nodesList_eq]
  exact List.forall_mem_flatMap

theorem stmts {ss : List Stmt} :
    AreRegular (Stmt.nodesList ss) ↔ ∀ s ∈ ss, AreRegular s.nodes := by
  rw [Stmt.nodesList_eq]
  exact List.forall_mem_flatMap

end AreRegular

/-! ### What can be printed obeys the levels -/

/-- The expression of a phrase stands at a level that the phrase admits. -/
def Phrase.KeepsLevel : Phrase → Prop
  | .choice e => e.level ≤ 9
  | .operation looseness e => e.level ≤ looseness + 2
  | .operand e => e.level ≤ 2
  | .suffixed e => e.level ≤ 1
  | .primary e => e.level = 0
  | _ => True

theorem operatorLevel?_spelling {k : TokenKind} {n : Nat} (h : k.looseness? = some n) :
    operatorLevel? k.spelling = some (n + 2) := by
  revert h
  cases k <;> rintro ⟨⟩ <;> rfl

/-- **What can be printed obeys the levels.** -/
theorem Printable.regular {marks texts : Bool} {p : Phrase} (h : Printable marks texts p) :
    AreRegular p.nodes ∧ p.KeepsLevel := by
  induction h with
  | exprChoice _ ih => exact ⟨ih.1, trivial⟩
  | arrow hids hbrace _ ih =>
    exact ⟨AreRegular.cons.2 ⟨⟨hids, by simp [Node.obeys, Expr.obeys, hbrace]⟩, ih.1⟩, trivial⟩
  | arrowBlock hids _ ih => exact ⟨AreRegular.cons.2 ⟨⟨hids, rfl⟩, ih.1⟩, trivial⟩
  | assign hk htarget _ _ ih ih' =>
    exact ⟨AreRegular.cons.2 ⟨⟨⟨_, hk, rfl⟩, htarget⟩, AreRegular.append.2 ⟨ih.1, ih'.1⟩⟩, trivial⟩
  | choiceOperation _ ih => exact ⟨ih.1, Nat.le_succ_of_le ih.2⟩
  | conditional _ _ _ iht ihc iha =>
    refine ⟨AreRegular.cons.2 ⟨⟨trivial, decide_eq_true iht.2⟩, ?_⟩, Nat.le_refl _⟩
    exact AreRegular.append.2 ⟨iht.1, AreRegular.append.2 ⟨ihc.1, iha.1⟩⟩
  | operationOperand _ ih => exact ⟨ih.1, ih.2⟩
  | operationTighter _ ih => exact ⟨ih.1, Nat.le_succ_of_le ih.2⟩
  | @binary k n l r o hk _ _ ih ih' =>
    -- the left operand may be of the level of the operator, the right one is below it
    have hlevel := operatorLevel?_spelling hk
    have hl : l.level ≤ n + 1 + 2 := ih.2
    have hr : r.level ≤ n + 2 := ih'.2
    have hobeys : (Expr.binary k.spelling l r o).obeys := by
      simp only [Expr.obeys, hlevel, Option.any_some, Bool.and_eq_true, decide_eq_true_eq]
      omega
    refine ⟨AreRegular.cons.2 ⟨⟨trivial, hobeys⟩, AreRegular.append.2 ⟨ih.1, ih'.1⟩⟩, ?_⟩
    simp [Phrase.KeepsLevel, Expr.level, hlevel]
  | operandSuffixed _ ih => exact ⟨ih.1, Nat.le_succ_of_le ih.2⟩
  | unary hk _ ih =>
    exact ⟨AreRegular.cons.2 ⟨⟨⟨_, hk, rfl⟩, decide_eq_true ih.2⟩, ih.1⟩, Nat.le_refl _⟩
  | suffixedPrimary _ ih => exact ⟨ih.1, Nat.le_trans (Nat.le_of_eq ih.2) (Nat.zero_le _)⟩
  | member hname _ ih =>
    exact ⟨AreRegular.cons.2 ⟨⟨hname, decide_eq_true ih.2⟩, ih.1⟩, Nat.le_refl _⟩
  | index _ _ ih ih' =>
    refine ⟨AreRegular.cons.2 ⟨⟨trivial, decide_eq_true ih.2⟩, ?_⟩, Nat.le_refl _⟩
    exact AreRegular.append.2 ⟨ih.1, ih'.1⟩
  | call _ _ ih ih' =>
    refine ⟨AreRegular.cons.2 ⟨⟨trivial, decide_eq_true ih.2⟩, ?_⟩, Nat.le_refl _⟩
    exact AreRegular.append.2 ⟨ih.1, AreRegular.exprs.2 fun a ha => (ih' a ha).1⟩
  | string => exact ⟨AreRegular.cons.2 ⟨⟨trivial, rfl⟩, .nil⟩, rfl⟩
  | number h hv =>
    refine ⟨AreRegular.cons.2 ⟨⟨?_, rfl⟩, .nil⟩, rfl⟩
    obtain ⟨n, rfl⟩ | ⟨x, rfl⟩ := NumberLiteral.value_cases hv
    · exact ⟨h, hv⟩
    · exact ⟨h, hv⟩
  | truth => exact ⟨AreRegular.cons.2 ⟨⟨rfl, rfl⟩, .nil⟩, rfl⟩
  | null => exact ⟨AreRegular.cons.2 ⟨⟨rfl, rfl⟩, .nil⟩, rfl⟩
  | name h => exact ⟨AreRegular.cons.2 ⟨⟨h, rfl⟩, .nil⟩, rfl⟩
  | array _ ih =>
    exact ⟨AreRegular.cons.2 ⟨⟨trivial, rfl⟩, AreRegular.exprs.2 fun e he => (ih e he).1⟩, rfl⟩
  | object _ ih =>
    exact ⟨AreRegular.cons.2 ⟨⟨trivial, rfl⟩, AreRegular.properties.2 fun p hp => (ih p hp).1⟩, rfl⟩
  | group _ ih => exact ⟨AreRegular.cons.2 ⟨⟨trivial, rfl⟩, ih.1⟩, rfl⟩
  | property hkey _ _ _ ih => exact ⟨AreRegular.cons.2 ⟨⟨hkey, rfl⟩, ih.1⟩, trivial⟩
  | block _ ih => exact ⟨AreRegular.stmts.2 fun s hs => (ih s hs).1, trivial⟩
  | declarator hid => exact ⟨AreRegular.cons.2 ⟨⟨hid, rfl⟩, .nil⟩, trivial⟩
  | declaratorInit hid _ ih => exact ⟨AreRegular.cons.2 ⟨⟨hid, rfl⟩, ih.1⟩, trivial⟩
  | variableDecl hne _ ih =>
    exact ⟨AreRegular.cons.2 ⟨⟨hne, rfl⟩, AreRegular.declarators.2 fun d hd => (ih d hd).1⟩,
      trivial⟩
  | functionDecl hf hids _ ih => exact ⟨AreRegular.cons.2 ⟨⟨⟨hf, hids⟩, rfl⟩, ih.1⟩, trivial⟩
  | importDecl hss _ | exportNamed hss _ => exact ⟨AreRegular.cons.2 ⟨⟨hss, rfl⟩, .nil⟩, trivial⟩
  | exportAll | returnNothing => exact ⟨AreRegular.cons.2 ⟨⟨trivial, rfl⟩, .nil⟩, trivial⟩
  | exportDecl _ ih | exportDefault _ ih | declaration _ ih | blockStatement _ ih
  | returnValue _ ih => exact ⟨AreRegular.cons.2 ⟨⟨trivial, rfl⟩, ih.1⟩, trivial⟩
  | ifThen _ _ ih ihs =>
    exact ⟨AreRegular.cons.2 ⟨⟨trivial, rfl⟩, AreRegular.append.2 ⟨ih.1, ihs.1⟩⟩, trivial⟩
  | ifElse hopen _ _ _ ih ihs iha =>
    refine ⟨AreRegular.cons.2 ⟨⟨trivial, by simp [Node.obeys, Stmt.obeys, hopen]⟩, ?_⟩, trivial⟩
    exact AreRegular.append.2 ⟨ih.1, AreRegular.append.2 ⟨ihs.1, iha.1⟩⟩
  | exprStatement hbrace _ ih =>
    exact ⟨AreRegular.cons.2 ⟨⟨trivial, by simp [Node.obeys, Stmt.obeys, hbrace]⟩, ih.1⟩, trivial⟩

/-! ### What obeys the levels can be printed -/

/-- The phrase of the expressions at a level. -/
def Phrase.atLevel : Nat → Expr → Phrase
  | 0, e => .primary e
  | 1, e => .suffixed e
  | 2, e => .operand e
  | l + 3, e =>
    if l < loosest then .operation (l + 1) e else if l = loosest then .choice e else .expr e

theorem Expr.level_le_of_isTarget {e : Expr} (h : e.isTarget) : e.level ≤ 9 := by
  cases e <;> first | (simp [Expr.level]; done) | cases h

/-- The operators at a level. -/
theorem exists_spelling_of_operatorLevel? {op : String} {n : Nat} (h : operatorLevel? op = some n) :
    ∃ (k : TokenKind) (l : Nat), k.looseness? = some (l + 1) ∧ op = k.spelling ∧ n = l + 3 ∧
      l < loosest := by
  unfold operatorLevel? at h
  split at h
  all_goals cases h
  · exact ⟨.star, 0, rfl, rfl, rfl, by decide⟩
  · exact ⟨.slash, 0, rfl, rfl, rfl, by decide⟩
  · exact ⟨.percent, 0, rfl, rfl, rfl, by decide⟩
  · exact ⟨.plus, 1, rfl, rfl, rfl, by decide⟩
  · exact ⟨.minus, 1, rfl, rfl, rfl, by decide⟩
  · exact ⟨.less, 2, rfl, rfl, rfl, by decide⟩
  · exact ⟨.greater, 2, rfl, rfl, rfl, by decide⟩
  · exact ⟨.atMost, 2, rfl, rfl, rfl, by decide⟩
  · exact ⟨.atLeast, 2, rfl, rfl, rfl, by decide⟩
  · exact ⟨.equal, 3, rfl, rfl, rfl, by decide⟩
  · exact ⟨.unequal, 3, rfl, rfl, rfl, by decide⟩
  · exact ⟨.strictEqual, 3, rfl, rfl, rfl, by decide⟩
  · exact ⟨.strictUnequal, 3, rfl, rfl, rfl, by decide⟩
  · exact ⟨.both, 4, rfl, rfl, rfl, by decide⟩
  · exact ⟨.either, 5, rfl, rfl, rfl, by decide⟩

theorem Expr.level_le : ∀ e : Expr, e.level ≤ 10
  | .name _ | .literal .. | .verbatim .. | .array .. | .object .. | .group .. => Nat.zero_le _
  | .member .. | .index .. | .call .. => by simp [Expr.level]
  | .unary .. | .conditional .. | .assign .. | .arrow .. | .arrowBlock .. => by simp [Expr.level]
  | .binary op _ _ _ => by
    cases hop : operatorLevel? op with
    | none => simp [Expr.level, hop]
    | some n =>
      obtain ⟨-, l, -, -, rfl, hl⟩ := exists_spelling_of_operatorLevel? hop
      have hloosest : loosest = 6 := rfl
      simp only [Expr.level, hop, Option.getD_some]
      omega

namespace Printable

variable {marks texts : Bool} {e : Expr} {l l' : Nat}

/-- What stands at a level stands at the next. -/
theorem loosen (h : Printable marks texts (.atLevel l e)) :
    Printable marks texts (.atLevel (l + 1) e) := by
  match l with
  | 0 => exact .suffixedPrimary h
  | 1 => exact .operandSuffixed h
  | 2 => exact .operationTighter (.operationOperand h)
  | l + 3 =>
    simp only [Phrase.atLevel] at h ⊢
    rcases Nat.lt_trichotomy l loosest with hl | rfl | hl
    · rw [if_pos hl] at h
      rcases Nat.lt_or_eq_of_le hl with hl' | hl'
      · rw [if_pos hl']
        exact .operationTighter h
      · have hnext : l + 1 = loosest := hl'
        rw [if_neg (by omega), if_pos hnext]
        exact .choiceOperation (hnext ▸ h)
    · exact .exprChoice h
    · rw [if_neg (by omega), if_neg (by omega)] at h ⊢
      exact h

theorem at_mono (hle : l ≤ l') (h : Printable marks texts (.atLevel l e)) :
    Printable marks texts (.atLevel l' e) := by
  induction hle with
  | refl => exact h
  | step _ ih => exact ih.loosen

section AtLevel

variable (h : Printable marks texts (.atLevel e.level e))
include h

theorem expr_of_level : Printable marks texts (.expr e) := h.at_mono e.level_le

theorem suffixed_of_level (hle : e.level ≤ 1) : Printable marks texts (.suffixed e) := h.at_mono hle

theorem operand_of_level (hle : e.level ≤ 2) : Printable marks texts (.operand e) := h.at_mono hle

theorem choice_of_level (hle : e.level ≤ 9) : Printable marks texts (.choice e) := h.at_mono hle

theorem operation_of_level {n : Nat} (hle : e.level ≤ n + 2) (hn : n ≤ loosest) :
    Printable marks texts (.operation n e) := by
  cases n with
  | zero => exact .operationOperand (h.operand_of_level hle)
  | succ n =>
    have hat := h.at_mono hle
    rwa [Phrase.atLevel, if_pos (Nat.lt_of_succ_le hn)] at hat

end AtLevel

end Printable

theorem Expr.printable_of_isSpelled {marks : Bool} {v : LiteralValue} {raw : String} {o : Origin}
    (h : (Expr.literal v raw o).IsSpelled) :
    Printable marks false (.primary (.literal v raw o)) := by
  match v, h with
  | .text _, _ => exact .string nofun
  | .truth _, h => exact h ▸ .truth
  | .null, h => exact h ▸ .null
  | .integer _, h | .float _, h => exact .number h.1 h.2

mutual

/-- **An expression whose nodes obey the levels can be printed.** -/
theorem Expr.printable_of_regular :
    ∀ e : Expr, AreRegular e.nodes → Printable false false (.atLevel e.level e)
  | .name id, h => .name (AreRegular.cons.1 h).1.1
  | .literal v raw o, h => Expr.printable_of_isSpelled (AreRegular.cons.1 h).1.1
  | .verbatim .., h => (AreRegular.cons.1 h).1.1.elim
  | .array es _, h => .array (Expr.printable_of_regularList es (AreRegular.cons.1 h).2)
  | .object ps _, h => .object (Property.printable_of_regularList ps (AreRegular.cons.1 h).2)
  | .member e _ _, h => by
    obtain ⟨⟨hname, hlevel⟩, h⟩ := AreRegular.cons.1 h
    exact .member hname ((Expr.printable_of_regular e h).suffixed_of_level
    (of_decide_eq_true hlevel))
  | .index e i _, h => by
    obtain ⟨⟨-, hlevel⟩, h⟩ := AreRegular.cons.1 h
    obtain ⟨h, h'⟩ := AreRegular.append.1 h
    exact .index ((Expr.printable_of_regular e h).suffixed_of_level (of_decide_eq_true hlevel))
      (Expr.printable_of_regular i h').expr_of_level
  | .call f as _, h => by
    obtain ⟨⟨-, hlevel⟩, h⟩ := AreRegular.cons.1 h
    obtain ⟨h, h'⟩ := AreRegular.append.1 h
    exact .call ((Expr.printable_of_regular f h).suffixed_of_level (of_decide_eq_true hlevel))
      (Expr.printable_of_regularList as h')
  | .unary op e _, h => by
    obtain ⟨⟨⟨k, hk, hop⟩, hlevel⟩, h⟩ := AreRegular.cons.1 h
    rw [hop]
    exact .unary hk ((Expr.printable_of_regular e h).operand_of_level (of_decide_eq_true hlevel))
  | .binary op l r o, h => by
    obtain ⟨⟨-, hobeys⟩, hnodes⟩ := AreRegular.cons.1 h
    obtain ⟨hl, hr⟩ := AreRegular.append.1 hnodes
    obtain ⟨n, hn, hlevels⟩ := (Option.any_eq_true _ _).1 hobeys
    obtain ⟨k, m, hk, rfl, rfl, hm⟩ := exists_spelling_of_operatorLevel? hn
    simp only [Bool.and_eq_true, decide_eq_true_eq] at hlevels
    -- the left operand is at most at the level of the operator, the right one below it
    have hbinary : Printable false false (.operation (m + 1) (.binary k.spelling l r o)) :=
      .binary hk ((Expr.printable_of_regular l hl).operation_of_level hlevels.1 hm)
        ((Expr.printable_of_regular r hr).operation_of_level (Nat.le_of_lt_succ hlevels.2)
          (Nat.le_of_lt hm))
    have hlevel : (Expr.binary k.spelling l r o).level = m + 3 := by
      simp [Expr.level, hn]
    rw [hlevel, Phrase.atLevel, if_pos hm]
    exact hbinary
  | .conditional t c a _, h => by
    obtain ⟨⟨-, hlevel⟩, h⟩ := AreRegular.cons.1 h
    obtain ⟨ht, h⟩ := AreRegular.append.1 h
    obtain ⟨hc, ha⟩ := AreRegular.append.1 h
    exact .conditional
      ((Expr.printable_of_regular t ht).operation_of_level (of_decide_eq_true hlevel)
      (Nat.le_refl _))
      (Expr.printable_of_regular c hc).expr_of_level (Expr.printable_of_regular a ha).expr_of_level
  | .assign op t v _, h => by
    obtain ⟨⟨⟨k, hk, hop⟩, htarget⟩, h⟩ := AreRegular.cons.1 h
    obtain ⟨h, h'⟩ := AreRegular.append.1 h
    rw [hop]
    exact .assign hk htarget
      ((Expr.printable_of_regular t h).choice_of_level (Expr.level_le_of_isTarget htarget))
      (Expr.printable_of_regular v h').expr_of_level
  | .group e _, h => .group (Expr.printable_of_regular e (AreRegular.cons.1 h).2).expr_of_level
  | .arrow ids e _, h => by
    obtain ⟨⟨hids, hbrace⟩, h⟩ := AreRegular.cons.1 h
    exact .arrow hids (by simpa [Node.obeys, Expr.obeys] using hbrace)
      (Expr.printable_of_regular e h).expr_of_level
  | .arrowBlock ids b _, h => by
    obtain ⟨⟨hids, -⟩, h⟩ := AreRegular.cons.1 h
    exact .arrowBlock hids (Block.printable_of_regular b h)

theorem Expr.printable_of_regularList :
    ∀ es : List Expr, AreRegular (Expr.nodesList es) → ∀ e ∈ es, Printable false false (.expr e)
  | [], _ => nofun
  | e :: es, h => by
    obtain ⟨h, h'⟩ := AreRegular.append.1 h
    exact List.forall_mem_cons.2
      ⟨(Expr.printable_of_regular e h).expr_of_level, Expr.printable_of_regularList es h'⟩

theorem Property.printable_of_regular :
    ∀ p : Property, AreRegular p.nodes → Printable false false (.property p)
  | ⟨_, value, _, _, _⟩, h => by
    obtain ⟨⟨hkey, -⟩, h⟩ := AreRegular.cons.1 h
    exact .property hkey nofun nofun (Expr.printable_of_regular value h).expr_of_level

theorem Property.printable_of_regularList :
    ∀ ps : List Property, AreRegular (Property.nodesList ps) →
      ∀ p ∈ ps, Printable false false (.property p)
  | [], _ => nofun
  | p :: ps, h => by
    obtain ⟨h, h'⟩ := AreRegular.append.1 h
    exact List.forall_mem_cons.2
      ⟨Property.printable_of_regular p h, Property.printable_of_regularList ps h'⟩

theorem Declarator.printable_of_regular :
    ∀ d : Declarator, AreRegular d.nodes → Printable false false (.declarator d)
  | ⟨_, none, _⟩, h => .declarator (AreRegular.cons.1 h).1.1
  | ⟨_, some e, _⟩, h => by
    obtain ⟨⟨hid, -⟩, h⟩ := AreRegular.cons.1 h
    exact .declaratorInit hid (Expr.printable_of_regular e h).expr_of_level

theorem Declarator.printable_of_regularList :
    ∀ ds : List Declarator, AreRegular (Declarator.nodesList ds) →
      ∀ d ∈ ds, Printable false false (.declarator d)
  | [], _ => nofun
  | d :: ds, h => by
    obtain ⟨h, h'⟩ := AreRegular.append.1 h
    exact List.forall_mem_cons.2
      ⟨Declarator.printable_of_regular d h, Declarator.printable_of_regularList ds h'⟩

theorem Block.printable_of_regular : ∀ b : Block, AreRegular b.nodes →
    Printable false false (.block b)
  | ⟨body, _⟩, h => .block (Stmt.printable_of_regularList body h)

theorem Declaration.printable_of_regular :
    ∀ d : Declaration, AreRegular d.nodes → Printable false false (.declaration d)
  | .variables _ ds _, h => by
    obtain ⟨⟨hne, -⟩, h⟩ := AreRegular.cons.1 h
    exact .variableDecl hne (Declarator.printable_of_regularList ds h)
  | .function _ _ b _, h => by
    obtain ⟨⟨⟨hf, hids⟩, -⟩, h⟩ := AreRegular.cons.1 h
    exact .functionDecl hf hids (Block.printable_of_regular b h)

theorem Stmt.printable_of_regular : ∀ s : Stmt, AreRegular s.nodes → Printable false false (.stmt s)
  | .importDecl .., h => .importDecl (AreRegular.cons.1 h).1.1 nofun
  | .exportNamed .., h => .exportNamed (AreRegular.cons.1 h).1.1 nofun
  | .exportAll .., _ => .exportAll nofun
  | .exportDecl d _, h => .exportDecl (Declaration.printable_of_regular d (AreRegular.cons.1 h).2)
  | .exportDefault e _, h =>
    .exportDefault (Expr.printable_of_regular e (AreRegular.cons.1 h).2).expr_of_level
  | .declaration d, h => .declaration (Declaration.printable_of_regular d (AreRegular.cons.1 h).2)
  | .block b, h => .blockStatement (Block.printable_of_regular b (AreRegular.cons.1 h).2)
  | .returnValue none _, _ => .returnNothing
  | .returnValue (some e) _, h =>
    .returnValue (Expr.printable_of_regular e (AreRegular.cons.1 h).2).expr_of_level
  | .ifThen t c none _, h => by
    obtain ⟨h, h'⟩ := AreRegular.append.1 (AreRegular.cons.1 h).2
    exact .ifThen (Expr.printable_of_regular t h).expr_of_level (Stmt.printable_of_regular c h')
  | .ifThen t c (some a) _, h => by
    obtain ⟨⟨-, hopen⟩, h⟩ := AreRegular.cons.1 h
    obtain ⟨ht, h⟩ := AreRegular.append.1 h
    obtain ⟨hc, ha⟩ := AreRegular.append.1 h
    exact .ifElse (by simpa [Node.obeys, Stmt.obeys] using hopen)
      (Expr.printable_of_regular t ht).expr_of_level (Stmt.printable_of_regular c hc)
      (Stmt.printable_of_regular a ha)
  | .expr e _, h => by
    obtain ⟨⟨-, hbrace⟩, h⟩ := AreRegular.cons.1 h
    exact .exprStatement (by simpa [Node.obeys, Stmt.obeys] using hbrace)
      (Expr.printable_of_regular e h).expr_of_level

theorem Stmt.printable_of_regularList :
    ∀ ss : List Stmt, AreRegular (Stmt.nodesList ss) → ∀ s ∈ ss, Printable false false (.stmt s)
  | [], _ => nofun
  | s :: ss, h => by
    obtain ⟨h, h'⟩ := AreRegular.append.1 h
    exact List.forall_mem_cons.2
      ⟨Stmt.printable_of_regular s h, Stmt.printable_of_regularList ss h'⟩

end

/-! ### What obeys the levels is told by its text -/

/-- A statement in blocks, one inside the other. -/
def Stmt.nested : Nat → Stmt → Stmt
  | 0, s => s
  | n + 1, s => .block ⟨[Stmt.nested n s], nowhere⟩

section Nested

variable {n depth : Nat} {s s' : Stmt} {marks texts : Bool}

/-- Blocks are printed alike around what is printed alike at the level inside. -/
theorem Stmt.text_nested (h : s'.text (depth + n) = s.text (depth + n)) :
    (Stmt.nested n s').text depth = (Stmt.nested n s).text depth := by
  induction n generalizing depth with
  | zero => exact h
  | succ n ih =>
    have hinner : (Stmt.nested n s').text (depth + 1) = (Stmt.nested n s).text (depth + 1) :=
      ih (by rwa [Nat.add_right_comm])
    simp only [Stmt.nested, Stmt.text, Block.text, Stmt.texts, hinner]

theorem Printable.nested (h : Printable marks texts (.stmt s)) :
    Printable marks texts (.stmt (s.nested n)) := by
  induction n with
  | zero => exact h
  | succ n ih =>
    exact .blockStatement (.block fun t ht => List.mem_singleton.1 ht ▸ ih)

theorem Stmt.plain_eq_of_nested
    (h : (Stmt.nested n s').plain marks = (Stmt.nested n s).plain marks) :
    s'.plain marks = s.plain marks := by
  induction n with
  | zero => exact h
  | succ n ih =>
    simp only [Stmt.nested, Stmt.plain, Block.plain, Stmt.plainList, Stmt.block.injEq,
      Block.mk.injEq, List.cons.injEq, and_true] at h
    exact ih h

end Nested

/-- **An expression whose nodes obey the levels is told by its text**, but for what the printer does
not keep. -/
theorem Expr.plain_eq_of_text_eq {e e' : Expr} {depth : Nat} (h : AreRegular e.nodes)
    (h' : AreRegular e'.nodes) (htext : e'.text depth = e.text depth) :
    e'.plain false = e.plain false := by
  -- the text of the expression stands in that of a module, and no name is read in it
  let _ := CharacterNames.nameless
  have hreads : ∀ e : Expr, AreRegular e.nodes → ∃ m,
      Module.parse (String.ofList (Module.text
          ⟨[Stmt.nested depth (.returnValue (some e) nowhere)], none, 0⟩).written) none 0 = .ok m ∧
        m.plain false
          = Module.plain false ⟨[Stmt.nested depth (.returnValue (some e) nowhere)], none, 0⟩ :=
    fun e h => Module.parse_written (fun s hs => List.mem_singleton.1 hs ▸
      (Printable.returnValue (e.printable_of_regular h).expr_of_level).nested) none 0
  obtain ⟨m, hm, hplain⟩ := hreads e h
  obtain ⟨m', hm', hplain'⟩ := hreads e' h'
  have hreturn : (Stmt.nested depth (.returnValue (some e') nowhere)).text 0
      = (Stmt.nested depth (.returnValue (some e) nowhere)).text 0 :=
    Stmt.text_nested (by simp only [Nat.zero_add, Stmt.text, htext])
  have hmodule : Module.text ⟨[Stmt.nested depth (.returnValue (some e') nowhere)], none, 0⟩
      = Module.text ⟨[Stmt.nested depth (.returnValue (some e) nowhere)], none, 0⟩ := by
    simp only [Module.text, Stmt.texts, hreturn]
  rw [hmodule, hm] at hm'
  obtain rfl := Except.ok.inj hm'
  have hbody := congrArg Module.body (hplain'.symm.trans hplain)
  simp only [Module.plain, Stmt.plainList, List.cons.injEq, and_true] at hbody
  have hvalue := Stmt.plain_eq_of_nested hbody
  simpa only [Stmt.plain, Stmt.returnValue.injEq, Option.some.injEq, and_true] using hvalue

namespace Module

/-- **What is read obeys the levels of the operators, and the levels leave no choice**: every node
of a module that was read obeys them, and of expressions whose nodes do no two have the same text,
but for what the printer does not keep. -/
theorem obeys_of_parse [CharacterNames] {text : String} {filename : Option String} {base : Nat}
    {m : Module} (h : parse text filename base = .ok m) :
    AreRegular m.nodes ∧
      ∀ e e' : Expr, AreRegular e.nodes → AreRegular e'.nodes →
        ∀ depth, e'.text depth = e.text depth → e'.plain false = e.plain false :=
  ⟨AreRegular.stmts.2 fun s hs => (printable_of_parse h s hs).regular.1,
    fun _ _ he he' _ htext => Expr.plain_eq_of_text_eq he he' htext⟩

section

attribute [local instance] CharacterNames.nameless

/-- Operators of every level, and a choice inside the alternative of another. -/
theorem obeys_of_parse_mixed : ∃ m,
    parse ("x = a - b - c * -d.e(f)[0] < g || !h === i && j ? [k] : l => (\x7b\x7d)" ++
      "\nif (p) q; else if (r) s") none 0 = .ok m ∧ m.nodes.length = 39 ∧ AreRegular m.nodes ∧
        ∀ e e' : Expr, AreRegular e.nodes → AreRegular e'.nodes →
          ∀ depth, e'.text depth = e.text depth → e'.plain false = e.plain false := by
  have hparses : ((parse
      ("x = a - b - c * -d.e(f)[0] < g || !h === i && j ? [k] : l => (\x7b\x7d)" ++
        "\nif (p) q; else if (r) s") none 0).toOption.filter
          fun m => m.nodes.length = 39).isSome := by
    decide +kernel
  obtain ⟨m, hm⟩ := Option.isSome_iff_exists.1 hparses
  obtain ⟨hm, hlength⟩ := Option.filter_eq_some_iff.1 hm
  have hparse := Except.eq_ok_of_toOption hm
  exact ⟨m, hparse, of_decide_eq_true hlength, obeys_of_parse hparse⟩

end

end Module

end MessageBinder
