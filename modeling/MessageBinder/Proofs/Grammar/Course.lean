import MessageBinder.Proofs.Grammar.Lookahead

/-!
# The course of a text

How much of the grammar one sees from the tokens so far, without trees: the brackets that are open,
with what each of them stands for, and what is behind the next token since the last bracket or
statement. `MessageBinder.Spot` keeps that much, together with the number of statements begun.

Terminators in front of a statement, or in front of the brace of a block, are *spare*, and every
other terminator ends a statement. `MessageBinder.Leads` says both of tokens at once: where they
lead, and what is true of them without some of the spare terminators. A property of a row of tokens
is proved from the first to the last, each token taking its place in front of those that follow
(`MessageBinder.Leads.cons`, `MessageBinder.Leads.append`).
-/

namespace MessageBinder

/-! ### The statements of a tree -/

mutual

/-- The number of statements in an expression. -/
def Expr.statements : Expr → Nat
  | .name _ | .literal .. | .verbatim .. => 0
  | .array es _ => Expr.statementsList es
  | .object ps _ => Property.statementsList ps
  | .member e _ _ | .unary _ e _ | .group e _ | .arrow _ e _ => e.statements
  | .index e i _ => e.statements + i.statements
  | .call f as _ => f.statements + Expr.statementsList as
  | .binary _ l r _ => l.statements + r.statements
  | .conditional t c a _ => t.statements + c.statements + a.statements
  | .assign _ t v _ => t.statements + v.statements
  | .arrowBlock _ b _ => b.statements

/-- The number of statements in expressions. -/
def Expr.statementsList : List Expr → Nat
  | [] => 0
  | e :: es => e.statements + Expr.statementsList es

/-- The number of statements in a property. -/
def Property.statements : Property → Nat
  | ⟨_, value, _, _, _⟩ => value.statements

/-- The number of statements in properties. -/
def Property.statementsList : List Property → Nat
  | [] => 0
  | p :: ps => p.statements + Property.statementsList ps

/-- The number of statements in the first value of a variable. -/
def Declarator.statements : Declarator → Nat
  | ⟨_, none, _⟩ => 0
  | ⟨_, some e, _⟩ => e.statements

/-- The number of statements in the first values of variables. -/
def Declarator.statementsList : List Declarator → Nat
  | [] => 0
  | d :: ds => d.statements + Declarator.statementsList ds

/-- The number of statements in a block. -/
def Block.statements : Block → Nat
  | ⟨body, _⟩ => Stmt.statementsList body

/-- The number of statements in a declaration. -/
def Declaration.statements : Declaration → Nat
  | .variables _ ds _ => Declarator.statementsList ds
  | .function _ _ b _ => b.statements

/-- The number of statements in a statement, with itself. -/
def Stmt.statements : Stmt → Nat
  | .importDecl .. | .exportNamed .. | .exportAll .. | .returnValue none _ => 1
  | .exportDecl d _ | .declaration d => 1 + d.statements
  | .exportDefault e _ | .returnValue (some e) _ | .expr e _ => 1 + e.statements
  | .block b => 1 + b.statements
  | .ifThen t c none _ => 1 + t.statements + c.statements
  | .ifThen t c (some a) _ => 1 + t.statements + c.statements + a.statements

/-- The number of statements in statements. -/
def Stmt.statementsList : List Stmt → Nat
  | [] => 0
  | s :: ss => s.statements + Stmt.statementsList ss

end

/-! ### Spots -/

/-- What an open bracket stands for. -/
inductive Enclosure where
  /-- A grouping, parameters or arguments. -/
  | paren
  /-- An index or an array. -/
  | square
  /-- An object, or a list of imports or exports. -/
  | brace
  /-- The condition of a choice. -/
  | ifHead
  /-- The parameters of a function declaration. -/
  | functionHead
  /-- A block statement, or the body of a function declaration. -/
  | block
  /-- The body of a function that is an expression. -/
  | body
deriving DecidableEq, Repr

/-- What is behind the next token. -/
inductive Behind where
  /-- The beginning of a text or a block, or the end of a statement. -/
  | opening
  /-- The condition of a choice, or `else`. -/
  | branch
  /-- `return`. -/
  | returning
  /-- A token that an operand has to follow. -/
  | expecting
  /-- An operand. -/
  | operand
  /-- The body of a function that is an expression. -/
  | closure
  /-- `import` or `export`, and part of what they say. -/
  | clause
  /-- `function` in a declaration. -/
  | naming
  /-- The name of a function declaration. -/
  | named
  /-- The parameters of a function declaration. -/
  | headed
  /-- `if`. -/
  | condition
  /-- A bracket that encloses no statements, and anything within it. -/
  | inside
deriving DecidableEq, Repr

namespace Enclosure

/-- The bracket that is open. -/
def bracket : Enclosure → Bracket
  | paren => .paren
  | square => .square
  | brace => .brace
  | ifHead | functionHead => .head
  | block | body => .block

/-- Whether statements are enclosed. -/
def isBlock (e : Enclosure) : Bool := e.bracket = .block

/-- What is behind the next token when the bracket has been closed. -/
def resume : Enclosure → Behind
  | paren | square | brace => .operand
  | ifHead => .branch
  | functionHead => .headed
  | block => .opening
  | body => .closure

end Enclosure

/-- What a token does to a spot. -/
inductive Move where
  /-- Nothing. -/
  | stay
  /-- It is behind the next one. -/
  | to (b : Behind)
  /-- It opens a bracket. -/
  | enter (e : Enclosure)
  /-- It closes the innermost bracket. -/
  | leave
deriving DecidableEq, Repr

namespace Behind

/-- What a token does where an operand has to follow. -/
def begin : TokenKind → Option Move
  | .leftParen => some (.enter .paren)
  | .leftBracket => some (.enter .square)
  | .leftBrace => some (.enter .brace)
  | .blockBrace => some (.enter .body)
  | k => if k.startsPrimary then some (.to .operand) else
      if k.isUnary then some (.to .expecting) else none

/-- What a token does where a statement has to follow. -/
def start : TokenKind → Option Move
  | .importWord | .exportWord => some (.to .clause)
  | .functionWord => some (.to .naming)
  | .constWord | .letWord | .varWord => some (.to .expecting)
  | .returnWord => some (.to .returning)
  | .ifWord => some (.to .condition)
  | .blockBrace => some (.enter .block)
  | k => begin k

/-- What a token does, if one of its kind can come here. -/
def move : Behind → TokenKind → Option Move
  | .opening, .terminator => some .stay
  | .opening, .rightBrace => some .leave
  | .opening, .elseWord => some (.to .branch)
  | .opening, k => start k
  | .branch, .terminator => some (.to .opening)
  | .branch, k => start k
  | .returning, .terminator => some (.to .opening)
  | .returning, k => begin k
  | .expecting, k => begin k
  | .operand, .terminator => some (.to .opening)
  | .operand, .leftParen => some (.enter .paren)
  | .operand, .leftBracket => some (.enter .square)
  | .operand, .fromWord => some (.to .clause)
  | .operand, .rightParen | .operand, .rightBracket => none
  | .operand, k => if k.continuesStatement then some (.to .expecting) else none
  | .closure, .terminator => some (.to .opening)
  | .closure, .comma | .closure, .colon => some (.to .expecting)
  | .closure, _ => none
  | .clause, .string => some (.to .operand)
  | .clause, .leftBrace => some (.enter .brace)
  | .clause, .functionWord => some (.to .naming)
  | .clause, .defaultWord | .clause, .constWord | .clause, .letWord | .clause, .varWord =>
    some (.to .expecting)
  | .clause, k => if k.isBindingName || k = .star || k = .comma then some .stay else none
  | .naming, k => if k.isBindingName then some (.to .named) else none
  | .named, k => if k = .leftParen then some (.enter .functionHead) else none
  | .headed, k => if k = .blockBrace then some (.enter .block) else none
  | .condition, k => if k = .leftParen then some (.enter .ifHead) else none
  | .inside, .leftParen => some (.enter .paren)
  | .inside, .leftBracket => some (.enter .square)
  | .inside, .leftBrace => some (.enter .brace)
  | .inside, .blockBrace => some (.enter .body)
  | .inside, .rightParen | .inside, .rightBracket | .inside, .rightBrace => some .leave
  | .inside, .terminator | .inside, .newline | .inside, .semicolon | .inside, .importWord
  | .inside, .exportWord | .inside, .constWord | .inside, .letWord | .inside, .varWord
  | .inside, .functionWord | .inside, .returnWord | .inside, .ifWord | .inside, .elseWord => none
  | .inside, _ => some .stay

/-- Whether a token begins a statement here. A lone terminator is a branch. -/
def begins : Behind → TokenKind → Bool
  | .opening, k => k ≠ .terminator && k ≠ .rightBrace && k ≠ .elseWord
  | .branch, _ => true
  | _, _ => false

end Behind

/-- A place between two tokens. -/
structure Spot where
  /-- What the open brackets stand for, innermost first. -/
  opened : List Enclosure
  /-- What is behind the next token. -/
  behind : Behind
  /-- The number of statements that have begun. -/
  statements : Nat
deriving DecidableEq, Repr

/-- Whether the innermost open bracket, if there is one, encloses no statements. -/
def isInside (o : List Enclosure) : Bool := o.head?.any fun e => !e.isBlock

/-- The spot with the given open brackets. What is behind the next token does not matter inside. -/
def spot (o : List Enclosure) (b : Behind) (n : Nat) : Spot :=
  ⟨o, if isInside o then .inside else b, n⟩

namespace Spot

/-- The spot behind a token, if one of its kind can come here. -/
def next (σ : Spot) (k : TokenKind) : Option Spot :=
  let n := σ.statements + if σ.behind.begins k then 1 else 0
  match σ.behind.move k, σ.opened with
  | some .stay, o => some ⟨o, σ.behind, n⟩
  | some (.to b), o => some ⟨o, b, n⟩
  | some (.enter e), o => some (spot (e :: o) .opening n)
  | some .leave, e :: o => some (spot o e.resume n)
  | some .leave, [] => none
  | none, _ => none

/-- The spot behind tokens, if each of them can come where it does. -/
def walk (σ : Spot) : List Token → Option Spot
  | [] => some σ
  | t :: c => (σ.next t.kind).bind fun σ' => σ'.walk c

theorem walk_append (σ : Spot) (c d : List Token) :
    σ.walk (c ++ d) = (σ.walk c).bind fun σ' => σ'.walk d := by
  induction c generalizing σ with
  | nil => rfl
  | cons t c ih =>
    simp only [List.cons_append, walk, Option.bind_assoc]
    exact congrArg _ (funext fun σ' => ih σ')

/-- A terminator where a statement can begin changes nothing. -/
theorem next_spare {σ : Spot} {t : Token} (hσ : σ.behind = .opening) (ht : t.kind = .terminator) :
    σ.next t.kind = some σ := by
  obtain ⟨o, b, n⟩ := σ
  obtain rfl : b = .opening := hσ
  rw [ht]
  rfl

end Spot

/-- The tokens without some of the spare terminators among them. -/
inductive Spares : Spot → List Token → List Token → Prop
  | nil {σ : Spot} : Spares σ [] []
  | keep {σ σ' : Spot} {t : Token} {c c' : List Token} (ht : σ.next t.kind = some σ')
      (h : Spares σ' c c') : Spares σ (t :: c) (t :: c')
  | drop {σ : Spot} {t : Token} {c c' : List Token} (hσ : σ.behind = .opening)
      (ht : t.kind = .terminator) (h : Spares σ c c') : Spares σ (t :: c) c'

namespace Spares

variable {σ σ' : Spot} {t : Token} {c c' d : List Token}

theorem append (h : Spares σ (c ++ d) c') (hc : σ.walk c = some σ') :
    ∃ e e', c' = e ++ e' ∧ Spares σ c e ∧ Spares σ' d e' := by
  induction c generalizing σ c' with
  | nil =>
    obtain rfl := Option.some.inj hc
    exact ⟨[], c', rfl, .nil, h⟩
  | cons t c ih =>
    obtain ⟨σ₁, ht, hrest⟩ := Option.bind_eq_some_iff.1 hc
    cases h with
    | keep ht' h =>
      obtain rfl := Option.some.inj (ht.symm.trans ht')
      obtain ⟨e, e', rfl, he, he'⟩ := ih h hrest
      exact ⟨t :: e, e', rfl, .keep ht he, he'⟩
    | drop hσ hk h =>
      obtain rfl := Option.some.inj ((Spot.next_spare hσ hk).symm.trans ht)
      obtain ⟨e, e', rfl, he, he'⟩ := ih h hrest
      exact ⟨e, e', rfl, .drop hσ hk he, he'⟩

/-- Tokens that stay as they are. -/
theorem prepend {c d d' : List Token} (hc : σ.walk c = some σ') (h : Spares σ' d d') :
    Spares σ (c ++ d) (c ++ d') := by
  induction c generalizing σ with
  | nil =>
    obtain rfl := Option.some.inj hc
    exact h
  | cons t c ih =>
    obtain ⟨σ₁, ht, hrest⟩ := Option.bind_eq_some_iff.1 hc
    exact .keep ht (ih hrest)

theorem of_walk (h : σ.walk c = some σ') : Spares σ c c := by
  have hc := prepend h .nil
  rwa [List.append_nil] at hc

end Spares

/-- **Tokens lead from one spot to another**, and have a property that they keep without spare
terminators. -/
structure Leads (σ : Spot) (c : List Token) (σ' : Spot) (Q : List Token → Prop) : Prop where
  walk : σ.walk c = some σ'
  spares : ∀ c', Spares σ c c' → Q c'

namespace Leads

variable {σ σ₁ σ' : Spot} {t : Token} {k : TokenKind} {c d : List Token} {Q R : List Token → Prop}

theorem nil (h : R []) : Leads σ [] σ R :=
  ⟨rfl, fun c' hc => by cases hc; exact h⟩

theorem mono (h : Leads σ c σ' Q) (hQ : ∀ c', Q c' → R c') : Leads σ c σ' R :=
  ⟨h.walk, fun c' hc => hQ c' (h.spares c' hc)⟩

/-- Tokens behind others, in a property of both. -/
theorem append (h : Leads σ c σ₁ Q) (h' : ∀ c', Q c' → Leads σ₁ d σ' fun d' => R (c' ++ d')) :
    Leads σ (c ++ d) σ' R := by
  have hwhole := h' c (h.spares c (.of_walk h.walk))
  refine ⟨by rw [Spot.walk_append, h.walk]; exact hwhole.walk, fun e he => ?_⟩
  obtain ⟨c', d', rfl, hc', hd'⟩ := he.append h.walk
  exact (h' c' (h.spares c' hc')).spares d' hd'

/-- Tokens behind others that stay as they are. -/
theorem past (h : Leads σ c σ₁ (· = c)) (h' : Leads σ₁ d σ' fun d' => R (c ++ d')) :
    Leads σ (c ++ d) σ' R :=
  h.append fun _ hc => hc ▸ h'

/-- A token that is no spare terminator. -/
theorem cons (hσ : σ.behind ≠ .opening ∨ t.kind ≠ .terminator) (ht : σ.next t.kind = some σ₁)
    (h : Leads σ₁ c σ' fun c' => R (t :: c')) : Leads σ (t :: c) σ' R := by
  refine ⟨by rw [Spot.walk, ht]; exact h.walk, fun e he => ?_⟩
  cases he with
  | keep ht' he =>
    obtain rfl := Option.some.inj (ht.symm.trans ht')
    exact h.spares _ he
  | drop hb hk _ =>
    rcases hσ with hσ | hσ
    · exact absurd hb hσ
    · exact absurd hk hσ

/-- A token that is told by its kind. -/
theorem word (ht : t.kind = k) (hk : k ≠ .terminator) (hnext : σ.next k = some σ₁)
    (h : Leads σ₁ c σ' fun c' => R (t :: c')) : Leads σ (t :: c) σ' R :=
  .cons (.inr (ht ▸ hk)) (ht ▸ hnext) h

/-- A terminator that is not spare. -/
theorem fin (ht : t.kind = .terminator) (hσ : σ.behind ≠ .opening)
    (hnext : σ.next .terminator = some σ') (hR : R [t]) : Leads σ [t] σ' R :=
  .cons (.inl hσ) (ht ▸ hnext) (.nil hR)

/-- A spare terminator. -/
theorem spare (hσ : σ.behind = .opening) (ht : t.kind = .terminator) (h : Leads σ c σ' Q)
    (hQ : ∀ c', Q c' → Q (t :: c')) : Leads σ (t :: c) σ' Q := by
  have hstay := Spot.next_spare hσ ht
  refine ⟨by rw [Spot.walk, hstay]; exact h.walk, fun e he => ?_⟩
  cases he with
  | keep ht' he =>
    obtain rfl := Option.some.inj (hstay.symm.trans ht')
    exact hQ _ (h.spares _ he)
  | drop _ _ he => exact h.spares _ he

/-- A first token that is read alike at two spots. -/
theorem of_next_eq {σ₂ : Spot} (h : Leads σ (t :: c) σ' Q)
    (hnext : σ₂.next t.kind = σ.next t.kind) (hk : t.kind ≠ .terminator) :
    Leads σ₂ (t :: c) σ' Q := by
  refine ⟨by rw [Spot.walk, hnext]; exact h.walk, fun e he => ?_⟩
  cases he with
  | keep ht he => exact h.spares _ (.keep (hnext ▸ ht) he)
  | drop _ ht _ => exact absurd ht hk

end Leads

/-! ### Single tokens -/

section Next

variable {o : List Enclosure} {b b' : Behind} {n : Nat} {k : TokenKind} {e : Enclosure}

theorem spot_of_inside (h : isInside o) (b' : Behind) : spot o b n = spot o b' n := by
  unfold spot
  rw [if_pos h, if_pos h]

theorem spot_of_not_inside (h : isInside o = false) : spot o b n = ⟨o, b, n⟩ := by
  unfold spot
  rw [if_neg (by simp [h])]

theorem isInside_cons : isInside (e :: o) = !e.isBlock := rfl

theorem isInside_of_not_isBlock (he : e.isBlock = false) : isInside (e :: o) := by
  rw [isInside_cons, he]
  rfl

theorem not_isInside_of_isBlock (he : e.isBlock) : isInside (e :: o) = false := by
  rw [isInside_cons, he]
  rfl

/-- A token that stays inside, and elsewhere is behind the next. -/
theorem next_to (hk : Behind.inside.move k = some .stay) (hmove : b.move k = some (.to b'))
    (hbegins : b.begins k = false) : (spot o b n).next k = some (spot o b' n) := by
  unfold spot Spot.next
  cases ho : isInside o with
  | true =>
    have hinside : Behind.inside.begins k = false := rfl
    simp only [if_pos, hk, hinside]
    simp
  | false =>
    simp only [Bool.false_eq_true, if_false, hmove, hbegins]
    simp

/-- A token that opens a bracket. -/
theorem next_enter (hk : Behind.inside.move k = some (.enter e))
    (hmove : b.move k = some (.enter e)) (hbegins : b.begins k = false) :
    (spot o b n).next k = some (spot (e :: o) .opening n) := by
  unfold spot Spot.next
  cases ho : isInside o with
  | true =>
    have hinside : Behind.inside.begins k = false := rfl
    simp only [if_pos, hk, hinside]
    simp [spot]
  | false =>
    simp only [Bool.false_eq_true, if_false, hmove, hbegins]
    simp [spot]

/-- A token of statements that opens a bracket. -/
theorem next_enter_of_not_inside (ho : isInside o = false) (hmove : b.move k = some (.enter e))
    (hbegins : b.begins k = false) :
    (spot o b n).next k = some (spot (e :: o) .opening n) := by
  rw [spot_of_not_inside ho]
  unfold Spot.next
  simp only [hmove, hbegins]
  simp [spot]

/-- The brace that closes a block. -/
theorem next_rightBrace (he : e.isBlock) :
    (spot (e :: o) .opening n).next .rightBrace = some (spot o e.resume n) := by
  rw [spot_of_not_inside (not_isInside_of_isBlock he)]
  rfl

/-- A token that closes a bracket inside. -/
theorem next_leave (he : e.isBlock = false) (hk : Behind.inside.move k = some .leave) :
    (spot (e :: o) b n).next k = some (spot o e.resume n) := by
  have hbegins : Behind.inside.begins k = false := rfl
  unfold Spot.next
  unfold spot
  rw [if_pos (isInside_of_not_isBlock he)]
  simp only [hk, hbegins]
  simp

/-- A token of statements. -/
theorem next_of_not_inside (ho : isInside o = false) (hmove : b.move k = some (.to b'))
    (hbegins : b.begins k = false) : (spot o b n).next k = some (spot o b' n) := by
  rw [spot_of_not_inside ho, spot_of_not_inside ho]
  unfold Spot.next
  simp only [hmove, hbegins]
  simp

/-- A token that leaves no brackets. -/
theorem next_inside (ho : isInside o) (hk : Behind.inside.move k = some .stay) :
    (spot o b n).next k = some (spot o b n) := by
  have hbegins : Behind.inside.begins k = false := rfl
  unfold spot
  rw [if_pos ho]
  unfold Spot.next
  simp only [hk, hbegins]
  simp

/-- A token that belongs to what is behind it. -/
theorem next_stay (ho : isInside o = false) (hmove : b.move k = some .stay)
    (hbegins : b.begins k = false) : (spot o b n).next k = some (spot o b n) := by
  rw [spot_of_not_inside ho]
  unfold Spot.next
  simp only [hmove, hbegins]
  simp

/-- The first token of a statement. -/
theorem next_of_begins (ho : isInside o = false) (hmove : b.move k = some (.to b'))
    (hbegins : b.begins k) : (spot o b n).next k = some (spot o b' (n + 1)) := by
  rw [spot_of_not_inside ho, spot_of_not_inside ho]
  unfold Spot.next
  simp only [hmove, hbegins]
  simp

end Next

/-- What is behind the next token lets an operand follow. -/
def Behind.Awaits (b : Behind) : Prop := b = .expecting ∨ b = .returning

/-- What is behind the next token has been an expression. -/
def Behind.Ends (b : Behind) : Prop := b = .operand ∨ b = .closure

namespace Behind

variable {b : Behind} {k : TokenKind} {m : Move}

theorem awaits_expecting : expecting.Awaits := .inl rfl

theorem ends_operand : operand.Ends := .inl rfl

theorem Awaits.move (h : b.Awaits) (hk : begin k = some m) : b.move k = some m := by
  rcases h with rfl | rfl
  · exact hk
  · cases k <;> first | exact hk | cases hk

theorem Awaits.begins (h : b.Awaits) : b.begins k = false := by
  rcases h with rfl | rfl <;> rfl

theorem Ends.begins (h : b.Ends) : b.begins k = false := by
  rcases h with rfl | rfl <;> rfl

theorem Awaits.ne_opening (h : b.Awaits) : b ≠ .opening := by
  rcases h with rfl | rfl <;> nofun

theorem Ends.ne_opening (h : b.Ends) : b ≠ .opening := by
  rcases h with rfl | rfl <;> nofun

end Behind

section Awaits

variable {o : List Enclosure} {b : Behind} {n : Nat} {k : TokenKind}

/-- An operand of one token. -/
theorem next_atom (hb : b.Awaits) (hk : k.startsPrimary)
    (hne : k ≠ .leftParen ∧ k ≠ .leftBracket ∧ k ≠ .leftBrace) :
    (spot o b n).next k = some (spot o .operand n) := by
  have hmoves : Behind.inside.move k = some .stay ∧ Behind.begin k = some (.to .operand) := by
    revert hk hne
    cases k <;> decide
  exact next_to hmoves.1 (hb.move hmoves.2) hb.begins

theorem next_bindingName (hb : b.Awaits) (hk : k.isBindingName) :
    (spot o b n).next k = some (spot o .operand n) := by
  refine next_to ?_ (hb.move ?_) hb.begins <;> cases k <;> first | rfl | cases hk

theorem next_unary (hb : b.Awaits) (hk : k.isUnary) :
    (spot o b n).next k = some (spot o .expecting n) := by
  refine next_to ?_ (hb.move ?_) hb.begins <;> cases k <;> first | rfl | cases hk

theorem next_looseness? {l : Nat} (hk : k.looseness? = some l) :
    (spot o .operand n).next k = some (spot o .expecting n) := by
  refine next_to ?_ ?_ rfl <;> cases k <;> first | rfl | cases hk

theorem next_assignment (hk : k.isAssignment) :
    (spot o .operand n).next k = some (spot o .expecting n) := by
  refine next_to ?_ ?_ rfl <;> cases k <;> first | rfl | cases hk

/-- A comma or a colon follows any expression. -/
theorem next_separator (hb : b.Ends) (hk : k = .comma ∨ k = .colon) :
    (spot o b n).next k = some (spot o .expecting n) := by
  rcases hb with rfl | rfl <;> rcases hk with rfl | rfl <;> exact next_to rfl rfl rfl

/-- A terminator ends a statement. -/
theorem next_terminator (ho : isInside o = false) (hb : b.Ends) :
    (spot o b n).next .terminator = some (spot o .opening n) := by
  rcases hb with rfl | rfl <;> exact next_of_not_inside ho rfl rfl

end Awaits

/-! ### Lists of names -/

section Names

variable {o : List Enclosure} {b : Behind} {n : Nat} {e : Enclosure} {c : List Token}

/-- Tokens of which none leaves the brackets around them. -/
def Dwells (c : List Token) : Prop := ∀ t ∈ c, Behind.inside.move t.kind = some .stay

theorem ne_terminator_of_move {k : TokenKind} {m : Move} (h : Behind.inside.move k = some m) :
    k ≠ .terminator := by
  rintro rfl
  cases h

theorem stay_of_isExportName {k : TokenKind} :
    k.isExportName → Behind.inside.move k = some .stay := by
  cases k <;> first | exact fun _ => rfl | nofun

theorem stay_of_isBindingName {k : TokenKind} :
    k.isBindingName → Behind.inside.move k = some .stay := by
  cases k <;> first | exact fun _ => rfl | nofun

theorem Dwells.leads (h : Dwells c) (ho : isInside o) :
    Leads (spot o b n) c (spot o b n) (· = c) := by
  induction c with
  | nil => exact .nil rfl
  | cons t c ih =>
    have ht := h t (List.mem_cons_self ..)
    refine .cons (.inr (ne_terminator_of_move ht)) (next_inside ho ht) ?_
    exact (ih fun t' ht' => h t' (List.mem_cons_of_mem _ ht')).mono fun _ => congrArg _

variable {α : Type} {item : α → List Token → Prop} {close : TokenKind} {trailing : Bool}
  {xs : List α}

theorem dwells_append {d : List Token} (h : Dwells c) (h' : Dwells d) : Dwells (c ++ d) :=
  fun t ht => (List.mem_append.1 ht).elim (h t) (h' t)

theorem dwells_singleton {t : Token} (h : Behind.inside.move t.kind = some .stay) : Dwells [t] := by
  intro t' ht'
  obtain rfl := List.mem_singleton.1 ht'
  exact h

theorem Items.dwells (hitem : ∀ x c, item x c → Dwells c) (h : Items item close trailing xs c) :
    ∃ d t, c = d ++ [t] ∧ t.kind = close ∧ Dwells d := by
  induction h with
  | last hx ht => exact ⟨_, _, rfl, ht, hitem _ _ hx⟩
  | @trailed x c comma t hx hcomma ht _ =>
    exact ⟨c ++ [comma], t, by simp, ht,
      dwells_append (hitem _ _ hx) (dwells_singleton (by rw [hcomma]; rfl))⟩
  | @more x xs c c' comma hx hcomma _ ih =>
    obtain ⟨d, t, rfl, ht, hd⟩ := ih
    refine ⟨c ++ comma :: d, t, by simp, ht, dwells_append (hitem _ _ hx) ?_⟩
    exact dwells_append (c := [comma]) (dwells_singleton (by rw [hcomma]; rfl)) hd

/-- A list is left behind its closing token. -/
theorem Listed.leads (hitem : ∀ x c, item x c → Dwells c) (h : Listed item close trailing xs c)
    (hclose : Behind.inside.move close = some .leave) (he : e.isBlock = false) :
    Leads (spot (e :: o) b n) c (spot o e.resume n) (· = c) := by
  obtain ⟨d, t, rfl, ht, hd⟩ : ∃ d t, c = d ++ [t] ∧ t.kind = close ∧ Dwells d := by
    rcases h with ⟨-, t, ht, rfl⟩ | h
    · exact ⟨[], t, rfl, ht, nofun⟩
    · exact h.dwells hitem
  exact (hd.leads (isInside_of_not_isBlock he)).past <|
    .word ht (ne_terminator_of_move hclose) (next_leave he hclose) (.nil rfl)

theorem BindingToken.dwells (id : Identifier) (c : List Token) (h : BindingToken id c) :
    Dwells c := by
  obtain ⟨t, ht, -, rfl⟩ := h
  exact dwells_singleton (stay_of_isBindingName ht)

theorem AliasTokens.dwells {admits : TokenKind → Bool} {t second : Token}
    (hadmits : ∀ k, admits k → k.isExportName) (h : AliasTokens admits t second c) : Dwells c := by
  obtain ⟨hexport, ⟨-, rfl⟩ | ⟨as, has, hsecond, rfl⟩⟩ := h
  · exact dwells_singleton (stay_of_isExportName hexport)
  · refine dwells_append (c := [t]) (dwells_singleton (stay_of_isExportName hexport)) ?_
    refine dwells_append (c := [as]) (dwells_singleton (by rw [has]; rfl)) ?_
    exact dwells_singleton (stay_of_isExportName (hadmits _ hsecond))

theorem ImportTokens.dwells (s : ImportSpecifier) (c : List Token) (h : ImportTokens s c) :
    Dwells c := by
  obtain ⟨t, second, halias, -, -⟩ := h
  exact halias.dwells fun k hk => by rw [TokenKind.isExportName, hk]; rfl

theorem ExportTokens.dwells (isLocal : Bool) (s : ExportSpecifier) (c : List Token)
    (h : ExportTokens isLocal s c) : Dwells c := by
  obtain ⟨t, second, halias, -, -⟩ := h
  exact halias.dwells fun _ => id

/-- Parameters are an operand to the course. -/
theorem ArrowParams.leads {ids : List Identifier} (h : ArrowParams ids c) (hb : b.Awaits) :
    Leads (spot o b n) c (spot o .operand n) (· = c) := by
  cases h with
  | name h =>
    obtain ⟨t, ht, -, rfl⟩ := h
    exact .cons (.inr (ne_terminator_of_move (stay_of_isBindingName ht)))
      (next_bindingName hb ht) (.nil rfl)
  | group ht h =>
    exact .word ht nofun (next_enter rfl (hb.move rfl) hb.begins) <|
      (h.leads BindingToken.dwells rfl rfl).mono fun _ => congrArg _

/-- What an import binds is part of its clause. -/
theorem ImportRest.leads {ss : List ImportSpecifier} (h : ImportRest ss c)
    (ho : isInside o = false) :
    ∃ b', (b' = .clause ∨ b' = .operand) ∧
      Leads (spot o .clause n) c (spot o b' n) (· = c) := by
  cases h with
  | all hstar has ht =>
    exact ⟨.clause, .inl rfl, .word hstar nofun (next_stay ho rfl rfl) <|
      .word has nofun (next_stay ho rfl rfl) <| .word ht nofun (next_stay ho rfl rfl) (.nil rfl)⟩
  | list ht h =>
    exact ⟨.operand, .inr rfl, .word ht nofun (next_enter rfl rfl rfl) <|
      (h.leads ImportTokens.dwells rfl rfl).mono fun _ => congrArg _⟩

theorem ImportClause.leads {ss : List ImportSpecifier} (h : ImportClause ss c)
    (ho : isInside o = false) :
    ∃ b', (b' = .clause ∨ b' = .operand) ∧
      Leads (spot o .clause n) c (spot o b' n) (· = c) := by
  cases h with
  | default ht =>
    exact ⟨.clause, .inl rfl, .word ht nofun (next_stay ho rfl rfl) (.nil rfl)⟩
  | both ht hcomma h =>
    obtain ⟨b', hb', h⟩ := h.leads ho
    exact ⟨b', hb', .word ht nofun (next_stay ho rfl rfl) <|
      .word hcomma nofun (next_stay ho rfl rfl) <| h.mono fun _ hc => hc ▸ rfl⟩
  | rest h => exact h.leads ho

end Names

end MessageBinder
