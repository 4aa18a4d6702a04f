import MessageBinder.Proofs.Grammar.Soundness

/-!
# Looking ahead

Reading decides by the next token. So to say what a reader makes of given tokens one has to know
with which tokens a phrase starts (`MessageBinder.Derives.starts`), and that what follows a phrase
does not carry it on: a reader takes as much as it can. `MessageBinder.Free` says so, by the
looseness up to which operators belong to the phrase.
-/

namespace MessageBinder

open Parse

/-! ### Readers on given tokens -/

namespace Parse

variable {α β : Type} {x : Parse α} {f : α → Parse β} {a : α} {ts rest : List Token} {t : Token}
  {kind : TokenKind}

theorem bind_of_eq_ok (h : x ts = .ok (a, rest)) : (x >>= f) ts = f a rest := by
  rw [show (x >>= f) ts = (x ts >>= fun p => f p.1 p.2) from rfl, h]
  rfl

theorem accept_cons {admits : TokenKind → Bool} (h : admits t.kind) :
    accept admits (t :: ts) = .ok (t, ts) :=
  accept_eq_ok.2 ⟨rfl, h⟩

theorem expect_cons (h : t.kind = kind) : expect kind (t :: ts) = .ok (t, ts) :=
  expect_eq_ok.2 ⟨rfl, h⟩

theorem skip?_cons (h : t.kind = kind) : skip? kind (t :: ts) = .ok (true, ts) :=
  skip?_eq_ok.2 (Or.inl ⟨rfl, t, rfl, h⟩)

theorem skip?_of_ne (h : ∀ t ∈ ts.head?, t.kind ≠ kind) : skip? kind ts = .ok (false, ts) := by
  refine skip?_eq_ok.2 (Or.inr ⟨rfl, rfl, fun hhead => ?_⟩)
  obtain ⟨t, ht, hk⟩ := Option.map_eq_some_iff.1 hhead
  exact h t ht hk

/-- Items start with a token with which an item starts. -/
theorem exists_cons_of_items {Q : β → List Token → Prop} {close : TokenKind} {trailing : Bool}
    {q : Token → Prop} (hfirst : ∀ y c, Q y c → ∃ t c', c = t :: c' ∧ q t) {ys : List β}
    {c : List Token} (h : Items Q close trailing ys c) : ∃ t c', c = t :: c' ∧ q t := by
  cases h with
  | last hy _ | trailed hy _ _ _ | more hy _ _ =>
    obtain ⟨t, c', rfl, ht⟩ := hfirst _ _ hy
    exact ⟨t, _, rfl, ht⟩

/-- **A list is read item by item**, if each item is read where a comma or the closing token
follows. -/
theorem moreItems_of_items {item : Parse α} {g : α → Checked β} {Q : β → List Token → Prop}
    {close : TokenKind} {trailing : Bool} {N : Nat} (hclose : close ≠ .comma)
    (hitem : ∀ y c t rest, Q y c → c.length ≤ N → (t.kind = .comma ∨ t.kind = close) →
      ∃ a, g a = .ok y ∧ item (c ++ t :: rest) = .ok (a, t :: rest))
    (hfirst : ∀ y c, Q y c → ∃ t c', c = t :: c' ∧ t.kind ≠ close) {ys : List β} {c : List Token}
    (h : Items Q close trailing ys c) :
    ∀ m rest, c.length ≤ m → c.length ≤ N → ∃ as : List α, as.mapM g = .ok ys ∧
      moreItems item close trailing m (c ++ rest) = .ok (as, rest) := by
  induction h with
  | @last y c t hy ht =>
    intro m rest hm hN
    simp only [List.length_append, List.length_singleton] at hm hN
    obtain ⟨m, rfl⟩ : ∃ m', m = m' + 1 := ⟨m - 1, by omega⟩
    obtain ⟨a, ha, hread⟩ := hitem y c t rest hy (by omega) (Or.inr ht)
    refine ⟨[a], Checked.mapM_cons_eq_ok.2 ⟨y, [], ha, List.mapM_nil, rfl⟩, ?_⟩
    rw [moreItems, List.append_assoc, List.singleton_append, bind_of_eq_ok hread,
      bind_of_eq_ok (skip?_of_ne (by simp [ht, hclose])), if_neg Bool.false_ne_true,
      bind_of_eq_ok (expect_cons ht)]
    rfl
  | @trailed y c comma t hy hcomma ht htrailing =>
    intro m rest hm hN
    simp only [List.length_append, List.length_cons, List.length_nil] at hm hN
    obtain ⟨m, rfl⟩ : ∃ m', m = m' + 1 := ⟨m - 1, by omega⟩
    obtain ⟨a, ha, hread⟩ := hitem y c comma (t :: rest) hy (by omega) (Or.inl hcomma)
    refine ⟨[a], Checked.mapM_cons_eq_ok.2 ⟨y, [], ha, List.mapM_nil, rfl⟩, ?_⟩
    rw [moreItems, List.append_assoc, List.cons_append, List.cons_append, List.nil_append,
      bind_of_eq_ok hread, bind_of_eq_ok (skip?_cons hcomma), if_pos rfl, peek_bind, if_pos,
      bind_of_eq_ok (expect_cons ht)]
    · rfl
    · simp [htrailing, ht]
  | @more y ys c c' comma hy hcomma hys ih =>
    intro m rest hm hN
    simp only [List.length_append, List.length_cons] at hm hN
    obtain ⟨m, rfl⟩ : ∃ m', m = m' + 1 := ⟨m - 1, by omega⟩
    obtain ⟨a, ha, hread⟩ := hitem y c comma (c' ++ rest) hy (by omega) (Or.inl hcomma)
    obtain ⟨as, has, hreads⟩ := ih m rest (by omega) (by omega)
    -- behind the comma another item starts, not the end of the list
    obtain ⟨t, c'', rfl, hne⟩ := exists_cons_of_items hfirst hys
    refine ⟨a :: as, Checked.mapM_cons_eq_ok.2 ⟨y, ys, ha, has, rfl⟩, ?_⟩
    rw [moreItems, List.append_assoc, List.cons_append, bind_of_eq_ok hread,
      bind_of_eq_ok (skip?_cons hcomma), if_pos rfl, peek_bind, if_neg, bind_of_eq_ok hreads]
    · rfl
    · simp [hne]

/-- A list, perhaps without items, is read item by item. -/
theorem items_of_listed {item : Parse α} {g : α → Checked β} {Q : β → List Token → Prop}
    {close : TokenKind} {trailing : Bool} {N : Nat} (hclose : close ≠ .comma)
    (hitem : ∀ y c t rest, Q y c → c.length ≤ N → (t.kind = .comma ∨ t.kind = close) →
      ∃ a, g a = .ok y ∧ item (c ++ t :: rest) = .ok (a, t :: rest))
    (hfirst : ∀ y c, Q y c → ∃ t c', c = t :: c' ∧ t.kind ≠ close) {ys : List β} {c : List Token}
    (h : Listed Q close trailing ys c) {m : Nat} (hm : c.length ≤ m) (hN : c.length ≤ N)
    (rest : List Token) : ∃ as : List α, as.mapM g = .ok ys ∧
      items item close trailing m (c ++ rest) = .ok (as, rest) := by
  rcases h with ⟨rfl, t, ht, rfl⟩ | h
  · refine ⟨[], List.mapM_nil, ?_⟩
    rw [items, List.singleton_append, bind_of_eq_ok (skip?_cons ht)]
    rfl
  · obtain ⟨as, has, hreads⟩ := moreItems_of_items hclose hitem hfirst h m rest hm hN
    obtain ⟨t, c', rfl, hne⟩ := exists_cons_of_items hfirst h
    refine ⟨as, has, ?_⟩
    rw [items, bind_of_eq_ok (skip?_of_ne (by simp [hne])), if_neg Bool.false_ne_true, hreads]

end Parse

/-! ### First tokens -/

namespace TokenKind

/-- Whether an expression without an operator in front starts with a token of this kind. -/
def startsPrimary : TokenKind → Bool
  | string | number | trueWord | falseWord | nullWord | leftBracket | leftBrace | leftParen
  | name | fromWord | asWord => true
  | _ => false

/-- Whether an expression starts with a token of this kind. -/
def startsExpr (k : TokenKind) : Bool := k.startsPrimary || k.isUnary

/-- Whether a statement starts with a token of this kind. -/
def startsStmt : TokenKind → Bool
  | importWord | exportWord | functionWord | constWord | letWord | varWord | blockBrace
  | returnWord | ifWord => true
  | k => k.startsExpr

theorem startsPrimary_of_isBindingName {k : TokenKind} : k.isBindingName → k.startsPrimary := by
  cases k <;> decide

theorem startsExpr_of_startsPrimary {k : TokenKind} : k.startsPrimary → k.startsExpr := by
  cases k <;> decide

theorem startsStmt_of_startsExpr {k : TokenKind} : k.startsExpr → k.startsStmt := by
  cases k <;> decide

theorem startsStmt_of_variableKind? {k : TokenKind} :
    k.variableKind?.isSome → k.startsStmt := by
  cases k <;> decide

end TokenKind

/-- The kinds of tokens with which a phrase starts. -/
def Phrase.starts : Phrase → TokenKind → Bool
  | .expr _ | .choice _ | .operation .. | .operand _ | .someExprs .. => TokenKind.startsExpr
  | .suffixed _ | .primary _ => TokenKind.startsPrimary
  | .exprs close _ _ => fun k => k = close || k.startsExpr
  | .property _ | .someProperties _ => fun k => k = .string || k.isBindingName
  | .properties _ => fun k => k = .rightBrace || k = .string || k.isBindingName
  | .block _ => (· = .blockBrace)
  | .untilBrace _ => fun k => k = .rightBrace || k = .terminator || k.startsStmt
  | .declarator _ | .declarators _ => TokenKind.isBindingName
  | .declaration (.variables ..) => (·.variableKind?.isSome)
  | .declaration (.function ..) => (· = .functionWord)
  | .stmt _ => TokenKind.startsStmt
  | .branch _ | .body _ => fun k => k = .terminator || k.startsStmt

/-- The first token of a phrase is of its kinds; only a module may have none. -/
def Phrase.Starts : Phrase → List Token → Prop
  | .body ss, c => ∀ t ∈ c.head?, (Phrase.body ss).starts t.kind
  | p, c => ∃ t c', c = t :: c' ∧ p.starts t.kind

theorem length_pos_of_starts {q : TokenKind → Bool} {c : List Token}
    (h : ∃ t c', c = t :: c' ∧ q t.kind) : 0 < c.length := by
  obtain ⟨t, c, rfl, -⟩ := h
  exact Nat.succ_pos _

theorem ArrowParams.starts {ids : List Identifier} {c : List Token} (h : ArrowParams ids c) :
    ∃ t c', c = t :: c' ∧ t.kind.startsExpr := by
  cases h with
  | name h =>
    obtain ⟨t, ht, -, rfl⟩ := h
    exact ⟨t, [], rfl,
      TokenKind.startsExpr_of_startsPrimary (TokenKind.startsPrimary_of_isBindingName ht)⟩
  | @group _ c t ht _ => exact ⟨t, c, rfl, by rw [ht]; rfl⟩

/-- **A phrase starts with a token of its kinds.** -/
theorem Derives.starts [CharacterNames] {p : Phrase} {c : List Token} (h : Derives p c) :
    p.Starts c := by
  -- what starts with a part starts as the part does
  have front : ∀ {q q' : TokenKind → Bool} {c : List Token} (c' : List Token),
      (∃ t c', c = t :: c' ∧ q t.kind) → (∀ k, q k → q' k) →
      ∃ t c'', c ++ c' = t :: c'' ∧ q' t.kind := by
    rintro q q' c c' ⟨t, c'', rfl, ht⟩ hq
    exact ⟨t, c'' ++ c', rfl, hq _ ht⟩
  have whole : ∀ {q q' : TokenKind → Bool} {c : List Token}, (∃ t c', c = t :: c' ∧ q t.kind) →
      (∀ k, q k → q' k) → ∃ t c'', c = t :: c'' ∧ q' t.kind := by
    rintro q q' c ⟨t, c'', rfl, ht⟩ hq
    exact ⟨t, c'', rfl, hq _ ht⟩
  induction h with
  | exprChoice _ ih | choiceOperation _ ih | operationOperand _ ih | operationTighter _ ih
  | suffixedPrimary _ ih | lastDeclarator _ ih => exact ih
  | arrow hids _ _ _ _ | arrowBlock hids _ _ _ _ => exact front _ hids.starts fun _ h => h
  | assign _ _ _ _ ih _ | conditional _ _ _ _ _ ih _ _ | binary _ _ _ ih _ | member _ _ _ ih
  | index _ _ _ _ ih _ | call _ _ _ ih _ | lastExpr _ _ ih | trailedExpr _ _ _ ih
  | moreExprs _ _ _ ih _ | lastProperty _ _ ih | trailedProperty _ _ _ ih
  | moreProperties _ _ _ ih _ | moreDeclarators _ _ _ ih _ => exact front _ ih fun _ h => h
  | operandSuffixed _ ih => exact whole ih fun _ => TokenKind.startsExpr_of_startsPrimary
  | unary hop _ _ => exact ⟨_, _, rfl, by simp [Phrase.starts, TokenKind.startsExpr, hop]⟩
  | string ht | number ht | quotedProperty ht _ _ _ => exact ⟨_, _, rfl, by rw [ht.1]; rfl⟩
  | null ht | array ht _ _ | object ht _ _ | group ht _ _ _ | noProperties ht
  | block ht _ _ | brace ht | blockNothing ht _ _ | functionDecl ht _ _ _ _ _ | importBare ht _ _
  | importNames ht _ _ _ _ | exportLocal ht _ _ _ | exportFrom ht _ _ _ _ _ | exportAll ht _ _ _ _
  | exportDecl ht _ _ | exportDefault ht _ _ _ _ | returnNothing ht _ | returnValue ht _ _ _
  | ifThen ht _ _ _ _ _ _ | ifElse ht _ _ _ _ _ _ _ _ _ _ | branchNothing ht =>
    exact ⟨_, _, rfl, by rw [ht]; rfl⟩
  | @truth _ b ht => exact ⟨_, _, rfl, by rw [ht]; cases b <;> rfl⟩
  | name ht => exact ⟨_, _, rfl, TokenKind.startsPrimary_of_isBindingName ht⟩
  | noExprs ht => exact ⟨_, _, rfl, by simp [Phrase.starts, ht]⟩
  | exprsSome _ ih => exact whole ih fun k hk => by simp [Phrase.starts, show k.startsExpr from hk]
  | property ht _ _ _ | shortProperty ht => exact ⟨_, _, rfl, by simp [Phrase.starts, ht]⟩
  | propertiesSome _ ih =>
    exact whole ih fun k hk => by
      rcases Bool.or_eq_true_iff.1 hk with hk | hk <;> simp_all [Phrase.starts]
  | blockStmt _ _ ih _ =>
    exact front _ ih fun k hk => by simp [Phrase.starts, show k.startsStmt from hk]
  | declarator ht | declaratorInit ht _ _ _ => exact ⟨_, _, rfl, ht⟩
  | variableDecl ht _ _ _ => exact ⟨_, _, rfl, by simp [Phrase.starts, ht]⟩
  | @declaration d _ _ ih =>
    match d with
    | .variables .. => exact whole ih fun _ => TokenKind.startsStmt_of_variableKind?
    | .function .. => exact whole ih fun k hk => by rw [of_decide_eq_true hk]; rfl
  | blockStatement _ ih => exact whole ih fun k hk => by rw [of_decide_eq_true hk]; rfl
  | exprStatement _ _ ih => exact front _ ih fun _ => TokenKind.startsStmt_of_startsExpr
  | branchStmt _ ih =>
    exact whole ih fun k hk => by simp [Phrase.starts, show k.startsStmt from hk]
  | noStmts => exact nofun
  | nothing ht _ _ =>
    rintro t ⟨⟩
    rw [ht]
    rfl
  | stmts _ _ ih _ =>
    obtain ⟨t, c, rfl, ht⟩ := ih
    rintro t' ⟨⟩
    simp [Phrase.starts, show t.kind.startsStmt from ht]

/-! ### What follows a phrase -/

/-- Whether a token of this kind behind operands and operators carries them on: a suffix, an
operator that binds as loosely as given or more tightly, and beyond all operators the marks of a
choice, an arrow or an assignment. -/
def TokenKind.carriesOn (looseness : Nat) (k : TokenKind) : Bool :=
  k = .dot || k = .leftBracket || k = .leftParen || k.looseness?.any (· ≤ looseness) ||
    (loosest < looseness && k = .question) ||
    (loosest + 1 < looseness && (k = .arrow || k.isAssignment))

/-- The looseness at which a choice is carried on by its mark. -/
def choiceLevel : Nat := loosest + 1

/-- The looseness at which everything carries on that can. -/
def exprLevel : Nat := loosest + 2

/-- What follows does not carry on operands and operators of the given looseness. -/
def Free (looseness : Nat) (rest : List Token) : Prop :=
  ∀ t ∈ rest.head?, t.kind.carriesOn looseness = false

namespace Free

variable {l l' : Nat} {rest : List Token} {t : Token}

theorem mono (h : Free l' rest) (hle : l ≤ l') : Free l rest := by
  intro t ht
  have hfree := h t ht
  simp only [TokenKind.carriesOn, Bool.or_eq_false_iff, Bool.and_eq_false_imp, decide_eq_true_eq]
    at hfree ⊢
  obtain ⟨⟨⟨⟨⟨hdot, hbracket⟩, hparen⟩, hoperator⟩, hquestion⟩, harrow⟩ := hfree
  refine ⟨⟨⟨⟨⟨hdot, hbracket⟩, hparen⟩, ?_⟩, fun _ => hquestion (by omega)⟩,
    fun _ => harrow (by omega)⟩
  cases hk : t.kind.looseness? with
  | none => rfl
  | some n =>
    rw [hk, Option.any_some, decide_eq_false_iff_not] at hoperator
    rw [Option.any_some, decide_eq_false_iff_not]
    omega

theorem cons (h : t.kind.carriesOn l = false) : Free l (t :: rest) := by
  rintro t' ⟨⟩
  exact h

theorem looseness?_ne (h : Free (l + 1) rest) :
    (rest.head?.map (·.kind)).bind TokenKind.looseness? ≠ some (l + 1) := by
  cases rest with
  | nil => simp
  | cons t rest =>
    intro hk
    have hfree := h t rfl
    simp only [List.head?_cons, Option.map_some, Option.bind_some] at hk
    simp [TokenKind.carriesOn, hk] at hfree

/-- An operator does not carry on what binds more tightly. -/
theorem operator (h : t.kind.looseness? = some (l + 1)) : Free l (t :: rest) := by
  refine cons ?_
  cases hk : t.kind <;> rw [hk] at h <;> cases h <;> rfl

end Free

end MessageBinder
