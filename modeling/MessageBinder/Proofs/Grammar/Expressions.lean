import MessageBinder.Proofs.Grammar.Lookahead

/-!
# Expressions that follow the grammar are read

For each rule of the grammar of expressions: if the readers read its parts, they read the whole
(`MessageBinder.Phrase.Read`).

The left-recursive phrases are read in loops, so for them it is said to which point the loop has
come. And each reader needs a bound on the descent that is large enough for the tokens of its
phrase: sixteen for each token are enough, with a little to spare that depends on how deep down the
reader stands.
-/

namespace MessageBinder

variable [CharacterNames]

open Parse

/-! ### Readings -/

/-- A reading without fault, of the given expression. -/
structure Reading.Holds (r : Reading) (e : Expr) : Prop where
  expr : r.expr = .ok e
  origin : r.origin = e.origin

/-- With a bound that leaves the given slack, the reader makes of the tokens what it should, if
what follows them is admitted. -/
def ReadsAs {α : Type} (x : Nat → Parse α) (good : α → Prop) (slack : Nat)
    (follows : List Token → Prop) (c : List Token) : Prop :=
  ∀ n rest, 16 * c.length ≤ n + slack → follows rest →
    ∃ a, good a ∧ x n (c ++ rest) = .ok (a, rest)

/-- What the loop over operators of the given looseness has read when it comes to the end of the
tokens. -/
def ReadsOperators (l : Nat) (e : Expr) (c : List Token) : Prop :=
  ∀ n rest, 16 * c.length + l ≤ n + 13 → Free l rest → ∃ k r, r.Holds e ∧ n + 1 ≤ k + c.length ∧
    (readBinary n l >>= readOperators n l) (c ++ rest) = readOperators k l r rest

/-- What the loop over suffixes has read when it comes to the end of the tokens. -/
def ReadsSuffixes (e : Expr) (c : List Token) : Prop :=
  ∀ n rest, 16 * c.length ≤ n + 15 → ∃ k r, r.Holds e ∧ n + 1 ≤ k + c.length ∧
    (readPrimary n >>= readSuffixes n) (c ++ rest) = readSuffixes k r rest

/-- An expression that stands in a list. -/
def ReadsExpr (e : Expr) (c : List Token) : Prop :=
  ReadsAs readExpr (·.Holds e) 5 (Free exprLevel) c ∧ (Phrase.expr e).Starts c

/-- A property that stands in a list. -/
def ReadsProperty (p : Property) (c : List Token) : Prop :=
  ReadsAs readProperty (· = .ok p) 5
    (fun rest => ∃ t ts, rest = t :: ts ∧ (t.kind = .comma ∨ t.kind = .rightBrace)) c ∧
    (Phrase.property p).Starts c

/-- What follows a statement is no alternative that would be its own. -/
def Stmt.Ends (s : Stmt) (rest : List Token) : Prop :=
  s.isOpen → ∀ t ∈ rest.head?, t.kind ≠ .elseWord

/-- **Tokens are read as a phrase** by the reader of its kind. -/
def Phrase.Read : Phrase → List Token → Prop
  | .expr e => ReadsAs readExpr (·.Holds e) 5 (Free exprLevel)
  | .choice e => ReadsAs readConditional (·.Holds e) 6
      fun rest => Free (if e.isTarget then choiceLevel else exprLevel) rest
  | .operation 0 e => ReadsAs (readBinary · 0) (·.Holds e) 13 (Free 0)
  | .operation (l + 1) e => ReadsOperators l e
  | .operand e => ReadsAs readUnary (·.Holds e) 14 (Free 0)
  | .suffixed e => ReadsSuffixes e
  | .primary e => ReadsAs readPrimary (·.Holds e) 15 fun _ => True
  | .exprs close trailing es => Listed ReadsExpr close trailing es
  | .someExprs close trailing es => Items ReadsExpr close trailing es
  | .property p => ReadsAs readProperty (· = .ok p) 5
      fun rest => ∃ t ts, rest = t :: ts ∧ (t.kind = .comma ∨ t.kind = .rightBrace)
  | .properties ps => Listed ReadsProperty .rightBrace true ps
  | .someProperties ps => Items ReadsProperty .rightBrace true ps
  | .block b => ReadsAs readBlock (· = .ok b) 2 fun _ => True
  | .untilBrace ss => ReadsAs readUntilBrace (ReadStmt.body · = .ok ss) 0 fun _ => True
  | .declarator d => ReadsAs readDeclarator (· = .ok d) 1 (Free exprLevel)
  | .declarators ds => ReadsAs readDeclarators (·.mapM id = .ok ds) 0
      fun rest => ∃ t ts, rest = t :: ts ∧ t.kind = .terminator
  | .declaration (.variables k ds o) =>
      ReadsAs readVariables (· = .ok (.variables k ds o)) 1 fun _ => True
  | .declaration (.function f ids b o) =>
      ReadsAs readFunction (· = .ok (.function f ids b o)) 1 fun _ => True
  | .stmt s => ReadsAs readStmt (· = .stmt (.ok s)) 0 s.Ends
  | .branch s => ReadsAs readStmt (·.branch = .ok s) 0 s.Ends
  | .body ss => fun c => ∀ n, 16 * c.length + 16 ≤ n → ∃ rs, ReadStmt.body rs = .ok ss ∧
      readStatements n c = .ok (rs, [])

/-! ### Leaving the loops -/

theorem readSuffixes_of_free {n : Nat} {r : Reading} {rest : List Token} (h : Free 0 rest) :
    readSuffixes (n + 1) r rest = .ok (r, rest) := by
  rw [readSuffixes, peek_bind]
  cases rest with
  | nil => rfl
  | cons t rest =>
    have hfree := h t rfl
    rw [List.head?_cons, Option.map_some]
    cases hk : t.kind <;> rw [hk] at hfree <;> first | rfl | cases hfree

theorem readOperators_of_free {n l : Nat} {r : Reading} {rest : List Token}
    (h : Free (l + 1) rest) : readOperators (n + 1) l r rest = .ok (r, rest) := by
  rw [readOperators, peek_bind, if_neg h.looseness?_ne]
  rfl

theorem readUnary_of_suffixes {n : Nat} {r : Reading} {t : Token} {ts rest : List Token}
    (ht : t.kind.startsPrimary)
    (h : (readPrimary n >>= readSuffixes n) (t :: ts) = .ok (r, rest)) :
    readUnary (n + 1) (t :: ts) = .ok (r, rest) := by
  have hunary : t.kind.isUnary = false := by revert ht; cases t.kind <;> decide
  rw [readUnary, peek_bind, if_neg (by simp [hunary])]
  exact h

theorem readConditional_of_binary {n : Nat} {r : Reading} {ts rest : List Token}
    (h : readBinary n loosest ts = .ok (r, rest)) (hfree : Free choiceLevel rest) :
    readConditional (n + 1) ts = .ok (r, rest) := by
  have hquestion : ∀ t ∈ rest.head?, t.kind ≠ .question := fun t ht hk => by
    have := hfree t ht
    rw [hk] at this
    cases this
  rw [readConditional, bind_of_eq_ok h, bind_of_eq_ok (skip?_of_ne hquestion),
    if_neg Bool.false_ne_true]
  rfl

theorem readExpr_of_conditional {n : Nat} {r : Reading} {ts rest : List Token}
    (h : readConditional n ts = .ok (r, rest)) (hfree : Free exprLevel rest) :
    readExpr (n + 1) ts = .ok (r, rest) := by
  rw [readExpr, bind_of_eq_ok h, peek_bind]
  cases rest with
  | nil => rfl
  | cons t rest =>
    have hfree := hfree t rfl
    rw [List.head?_cons, Option.map_some]
    cases hk : t.kind <;> rw [hk] at hfree <;> first | rfl | cases hfree

/-- What a reader makes of a primary expression alone, every reader above it does. -/
theorem readConditional_of_primary {n : Nat} {r : Reading} {t : Token} {ts rest : List Token}
    (ht : t.kind.startsPrimary) (h : readPrimary (n + 1) (t :: ts) = .ok (r, rest))
    (hfree : Free choiceLevel rest) : readConditional (n + 10) (t :: ts) = .ok (r, rest) := by
  have hbinary : ∀ l ≤ loosest, readBinary (n + 3 + l) l (t :: ts) = .ok (r, rest) := by
    intro l
    induction l with
    | zero =>
      intro _
      refine readUnary_of_suffixes ht ?_
      rw [bind_of_eq_ok h]
      exact readSuffixes_of_free (hfree.mono (by decide))
    | succ l ih =>
      intro hl
      rw [← Nat.add_assoc, readBinary, bind_of_eq_ok (ih (by omega)),
        show n + 3 + l = n + 2 + l + 1 by omega]
      exact readOperators_of_free (hfree.mono (by unfold choiceLevel; omega))
  exact readConditional_of_binary (hbinary loosest (Nat.le_refl _)) hfree

theorem readPrimary_name {n : Nat} {t : Token} {rest : List Token} (ht : t.kind.isBindingName) :
    readPrimary (n + 1) (t :: rest) = .ok (.name t, rest) := by
  have hread : (accept TokenKind.isBindingName >>= fun t => pure (Reading.name t)) (t :: rest)
      = (.ok (.name t, rest) : Except Stop (Reading × List Token)) := by
    rw [bind_of_eq_ok (accept_cons ht)]
    rfl
  rw [readPrimary, peek_bind, List.head?_cons, Option.map_some]
  cases hk : t.kind <;> rw [hk] at ht <;> first | exact hread | cases ht

theorem readExpr_name {n : Nat} {t : Token} {rest : List Token} (ht : t.kind.isBindingName)
    (hfree : Free exprLevel rest) (hn : 11 ≤ n) : readExpr n (t :: rest) = .ok (.name t, rest) := by
  obtain ⟨n, rfl⟩ : ∃ m, n = m + 11 := ⟨n - 11, by omega⟩
  exact readExpr_of_conditional (readConditional_of_primary
    (TokenKind.startsPrimary_of_isBindingName ht) (readPrimary_name ht)
    (hfree.mono (by decide))) hfree

theorem readPrimary_group {n : Nat} {t : Token} {rs : List Reading} {ts rest : List Token}
    (ht : t.kind = .leftParen)
    (h : items (readExpr n) .rightParen false n ts = .ok (rs, rest)) :
    readPrimary (n + 1) (t :: ts) = .ok (.group t.origin rs, rest) := by
  rw [readPrimary, peek_bind, List.head?_cons, Option.map_some, ht]
  show (expect .leftParen >>= _) _ = _
  rw [bind_of_eq_ok (expect_cons ht), bind_of_eq_ok h]
  rfl

/-! ### Expressions -/

/-- The parameter that an item between parentheses stands for, if it is a name alone. -/
def Reading.parameter (r : Reading) : Checked Identifier :=
  match r.identifier? with
  | some id => .ok id
  | none => .error (.faultAt .arrowParameter r.origin)

namespace Phrase.Read

variable {c c' : List Token} {t : Token} {e e' : Expr}

theorem exprChoice (h : (Phrase.choice e).Read c) (hstart : (Phrase.choice e).Starts c) :
    (Phrase.expr e).Read c := by
  intro n rest hn hfree
  obtain ⟨t, c, rfl, -⟩ := hstart
  rw [List.length_cons] at hn
  obtain ⟨n, rfl⟩ : ∃ m, n = m + 1 := ⟨n - 1, by omega⟩
  have hchoice : Free (if e.isTarget then choiceLevel else exprLevel) rest := by
    split
    · exact hfree.mono (by decide)
    · exact hfree
  obtain ⟨r, hr, hread⟩ := h n rest (by rw [List.length_cons]; omega) hchoice
  exact ⟨r, hr, readExpr_of_conditional hread hfree⟩

/-- Parameters are read as an expression, whose shape tells what they are. -/
theorem arrowParams {ids : List Identifier} (h : ArrowParams ids c) {first : Token}
    (hfirst : c.head? = some first) {n : Nat} (rest : List Token) (hn : 16 * c.length ≤ n + 6)
    (hfree : Free choiceLevel rest) : ∃ r, r.shape.params? = some (.ok ids) ∧
      r.origin = first.origin ∧ readConditional n (c ++ rest) = .ok (r, rest) := by
  cases h with
  | name h =>
    obtain ⟨t, ht, rfl, rfl⟩ := h
    obtain rfl : t = first := Option.some.inj hfirst
    rw [List.length_singleton] at hn
    obtain ⟨n, rfl⟩ : ∃ m, n = m + 10 := ⟨n - 10, by omega⟩
    exact ⟨.name t, rfl, rfl, readConditional_of_primary
      (TokenKind.startsPrimary_of_isBindingName ht) (readPrimary_name ht) hfree⟩
  | @group _ c t ht h =>
    obtain rfl : t = first := Option.some.inj hfirst
    rw [List.length_cons] at hn
    obtain ⟨n, rfl⟩ : ∃ m, n = m + 10 := ⟨n - 10, by omega⟩
    have hpos : 0 < c.length := by
      rcases h with ⟨-, t, -, rfl⟩ | h
      · exact Nat.one_pos
      · cases h <;> simp only [List.length_append, List.length_cons] <;> omega
    -- each parameter is read as an expression that is a name
    have hitem : ∀ (id : Identifier) (c' : List Token) (t : Token) (rest : List Token),
        BindingToken id c' → c'.length ≤ c.length → (t.kind = .comma ∨ t.kind = .rightParen) →
        ∃ r : Reading, r.parameter = .ok id ∧
          readExpr n (c' ++ t :: rest) = .ok (r, t :: rest) := by
      rintro id c' t rest ⟨t', ht', rfl, rfl⟩ - hnext
      refine ⟨.name t', rfl, readExpr_name ht' (Free.cons ?_) (by omega)⟩
      rcases hnext with hnext | hnext <;> rw [hnext] <;> rfl
    have hfirst : ∀ (id : Identifier) (c : List Token), BindingToken id c →
        ∃ t c', c = t :: c' ∧ t.kind ≠ .rightParen := by
      rintro id c ⟨t, ht, -, hc⟩
      refine ⟨t, [], hc, fun hk => ?_⟩
      rw [hk] at ht
      cases ht
    obtain ⟨rs, hrs, hread⟩ := items_of_listed (by decide) hitem hfirst h (m := n) (by omega)
      (Nat.le_refl _) rest
    refine ⟨.group t.origin rs, ?_, rfl,
      readConditional_of_primary (by rw [ht]; rfl) (readPrimary_group ht hread) hfree⟩
    rw [← hrs]
    exact congrArg some List.mapM_map

theorem readExpr_arrow {n : Nat} {ids : List Identifier} {r : Reading} {ts ts' rest : List Token}
    {body : Checked Expr ⊕ Checked Block} (ht : t.kind = .arrow)
    (hread : readConditional n ts = .ok (r, t :: ts')) (hshape : r.shape.params? = some (.ok ids))
    (hbody : readArrowBody n ts' = .ok (body, rest)) :
    readExpr (n + 1) ts = .ok (.arrow r.origin (.ok ids) body, rest) := by
  rw [readExpr, bind_of_eq_ok hread, peek_bind, List.head?_cons, Option.map_some, ht]
  simp only [hshape]
  rw [bind_of_eq_ok (expect_cons ht), bind_of_eq_ok hbody]
  rfl

theorem arrow {ids : List Identifier} {first : Token} (hids : ArrowParams ids c)
    (hfirst : c.head? = some first) (ht : t.kind = .arrow)
    (h : (Phrase.expr e).Read c') (hstart : (Phrase.expr e).Starts c') :
    (Phrase.expr (.arrow ids e first.origin)).Read (c ++ t :: c') := by
  intro n rest hn hfree
  simp only [List.length_append, List.length_cons] at hn
  obtain ⟨n, rfl⟩ : ∃ m, n = m + 2 := ⟨n - 2, by omega⟩
  obtain ⟨r, hshape, ho, hread⟩ := arrowParams hids hfirst (n := n + 1) (t :: (c' ++ rest))
    (by omega) (Free.cons (by rw [ht]; rfl))
  obtain ⟨r', hr', hread'⟩ := h n rest (by omega) hfree
  have hbody : readArrowBody (n + 1) (c' ++ rest) = .ok (.inl r'.expr, rest) := by
    obtain ⟨t', c', rfl, ht'⟩ := hstart
    have hk : t'.kind ≠ .blockBrace := fun hk => by
      rw [hk] at ht'
      cases ht'
    rw [readArrowBody, peek_bind, if_neg (by simpa using hk), bind_of_eq_ok hread']
    rfl
  refine ⟨.arrow r.origin (.ok ids) (.inl r'.expr), ⟨?_, ho⟩, ?_⟩
  · simp only [Reading.arrow, hr'.expr, ho]
    rfl
  · rw [List.append_assoc]
    exact readExpr_arrow ht hread hshape hbody

theorem arrowBlock {ids : List Identifier} {b : Block} {first : Token} (hids : ArrowParams ids c)
    (hfirst : c.head? = some first) (ht : t.kind = .arrow)
    (h : (Phrase.block b).Read c') (hstart : (Phrase.block b).Starts c') :
    (Phrase.expr (.arrowBlock ids b first.origin)).Read (c ++ t :: c') := by
  intro n rest hn hfree
  simp only [List.length_append, List.length_cons] at hn
  obtain ⟨n, rfl⟩ : ∃ m, n = m + 2 := ⟨n - 2, by omega⟩
  obtain ⟨r, hshape, ho, hread⟩ := arrowParams hids hfirst (n := n + 1) (t :: (c' ++ rest))
    (by omega) (Free.cons (by rw [ht]; rfl))
  obtain ⟨b', hb', hread'⟩ := h n rest (by omega) trivial
  have hbody : readArrowBody (n + 1) (c' ++ rest) = .ok (.inr b', rest) := by
    obtain ⟨t', c', rfl, ht'⟩ := hstart
    have hk : t'.kind = .blockBrace := of_decide_eq_true ht'
    rw [readArrowBody, peek_bind, if_pos (by simpa using hk), bind_of_eq_ok hread']
    rfl
  refine ⟨.arrow r.origin (.ok ids) (.inr b'), ⟨?_, ho⟩, ?_⟩
  · simp only [Reading.arrow, hb', ho]
    rfl
  · rw [List.append_assoc]
    exact readExpr_arrow ht hread hshape hbody

theorem assign {target value : Expr} {op : Token} (hop : op.kind.isAssignment)
    (htarget : target.isTarget) (h : (Phrase.choice target).Read c)
    (h' : (Phrase.expr value).Read c') :
    (Phrase.expr (.assign op.text target value target.origin)).Read (c ++ op :: c') := by
  intro n rest hn hfree
  simp only [List.length_append, List.length_cons] at hn
  obtain ⟨n, rfl⟩ : ∃ m, n = m + 1 := ⟨n - 1, by omega⟩
  have hnext : Free choiceLevel (op :: (c' ++ rest)) :=
    Free.cons (by revert hop; cases op.kind <;> decide)
  obtain ⟨r, hr, hread⟩ := h n (op :: (c' ++ rest)) (by omega) (by rwa [if_pos htarget])
  obtain ⟨r', hr', hread'⟩ := h' n rest (by omega) hfree
  refine ⟨r.assign op r', ⟨?_, hr.origin⟩, ?_⟩
  · simp only [Reading.assign, hr.expr, hr'.expr, hr.origin]
    cases target <;> first | rfl | cases htarget
  · have hassign : (accept TokenKind.isAssignment >>= fun op => do
        return r.assign op (← readExpr n)) (op :: (c' ++ rest)) = .ok (r.assign op r', rest) := by
      rw [bind_of_eq_ok (accept_cons hop), bind_of_eq_ok hread']
      rfl
    rw [List.append_assoc, List.cons_append, readExpr, bind_of_eq_ok hread, peek_bind,
      List.head?_cons, Option.map_some]
    cases hk : op.kind <;> rw [hk] at hop <;> first | exact hassign | cases hop

/-- Once the loop over operators is left, the operators are read. -/
theorem readBinary {l : Nat} (h : (Phrase.operation l e).Read c)
    (hstart : (Phrase.operation l e).Starts c) {n : Nat} (rest : List Token)
    (hn : 16 * c.length + l ≤ n + 13) (hfree : Free l rest) :
    ∃ r, r.Holds e ∧ readBinary n l (c ++ rest) = .ok (r, rest) := by
  obtain ⟨t, c, rfl, -⟩ := hstart
  cases l with
  | zero => exact h n rest hn hfree
  | succ l =>
    rw [List.length_cons] at hn
    obtain ⟨n, rfl⟩ : ∃ m, n = m + 1 := ⟨n - 1, by omega⟩
    obtain ⟨k, r, hr, hk, hread⟩ := h n rest (by rw [List.length_cons]; omega)
      (hfree.mono (by omega))
    rw [List.length_cons] at hk
    obtain ⟨k, rfl⟩ : ∃ m, k = m + 1 := ⟨k - 1, by omega⟩
    refine ⟨r, hr, ?_⟩
    rw [MessageBinder.readBinary, hread]
    exact readOperators_of_free hfree

theorem choiceOperation (h : (Phrase.operation loosest e).Read c)
    (hstart : (Phrase.operation loosest e).Starts c) : (Phrase.choice e).Read c := by
  intro n rest hn hfree
  have hfree' : Free choiceLevel rest := by
    split at hfree
    · exact hfree
    · exact hfree.mono (by decide)
  have hpos := length_pos_of_starts hstart
  obtain ⟨n, rfl⟩ : ∃ m, n = m + 1 := ⟨n - 1, by omega⟩
  obtain ⟨r, hr, hread⟩ := h.readBinary hstart (n := n) rest
    (by unfold loosest; omega) (hfree'.mono (by decide))
  exact ⟨r, hr, readConditional_of_binary hread hfree'⟩

theorem conditional {x y z : Expr} {cx cy cz : List Token} {question colon : Token}
    (hquestion : question.kind = .question) (hcolon : colon.kind = .colon)
    (hx : (Phrase.operation loosest x).Read cx) (hstart : (Phrase.operation loosest x).Starts cx)
    (hy : (Phrase.expr y).Read cy) (hz : (Phrase.expr z).Read cz) :
    (Phrase.choice (.conditional x y z x.origin)).Read
      (cx ++ question :: (cy ++ colon :: cz)) := by
  intro n rest hn hfree
  simp only [List.length_append, List.length_cons] at hn
  obtain ⟨n, rfl⟩ : ∃ m, n = m + 1 := ⟨n - 1, by omega⟩
  obtain ⟨rx, hrx, hreadx⟩ := hx.readBinary hstart (n := n)
    (question :: (cy ++ colon :: (cz ++ rest))) (by unfold loosest; omega)
    (Free.cons (by rw [hquestion]; rfl))
  obtain ⟨ry, hry, hready⟩ := hy n (colon :: (cz ++ rest)) (by omega)
    (Free.cons (by rw [hcolon]; rfl))
  obtain ⟨rz, hrz, hreadz⟩ := hz n rest (by omega) hfree
  refine ⟨rx.conditional ry rz, ⟨?_, hrx.origin⟩, ?_⟩
  · simp only [Reading.conditional, hrx.expr, hry.expr, hrz.expr, hrx.origin]
    rfl
  · rw [List.append_assoc, List.cons_append, List.append_assoc, List.cons_append,
      readConditional, bind_of_eq_ok hreadx, bind_of_eq_ok (skip?_cons hquestion), if_pos rfl,
      bind_of_eq_ok hready, bind_of_eq_ok (expect_cons hcolon), bind_of_eq_ok hreadz]
    rfl

theorem operationOperand (h : (Phrase.operand e).Read c) (hstart : (Phrase.operand e).Starts c) :
    (Phrase.operation 0 e).Read c := by
  intro n rest hn hfree
  obtain ⟨t, c, rfl, -⟩ := hstart
  rw [List.length_cons] at hn
  obtain ⟨n, rfl⟩ : ∃ m, n = m + 1 := ⟨n - 1, by omega⟩
  exact h n rest (by rw [List.length_cons]; omega) hfree

theorem operationTighter {l : Nat} (h : (Phrase.operation l e).Read c)
    (hstart : (Phrase.operation l e).Starts c) : (Phrase.operation (l + 1) e).Read c := by
  intro n rest hn hfree
  obtain ⟨r, hr, hread⟩ := h.readBinary hstart rest hn hfree
  have hpos := length_pos_of_starts hstart
  exact ⟨n, r, hr, by omega, bind_of_eq_ok hread⟩

theorem binary {l : Nat} {op : Token} (hop : op.kind.looseness? = some (l + 1))
    (h : (Phrase.operation (l + 1) e).Read c) (h' : (Phrase.operation l e').Read c')
    (hstart : (Phrase.operation l e').Starts c') :
    (Phrase.operation (l + 1) (.binary op.text e e' e.origin)).Read (c ++ op :: c') := by
  intro n rest hn hfree
  simp only [List.length_append, List.length_cons] at hn
  obtain ⟨k, r, hr, hk, hread⟩ := h n (op :: (c' ++ rest)) (by omega) (Free.operator hop)
  obtain ⟨k, rfl⟩ : ∃ m, k = m + 1 := ⟨k - 1, by omega⟩
  obtain ⟨r', hr', hread'⟩ := h'.readBinary hstart (n := k) rest (by omega) hfree
  refine ⟨k, r.binary op r', ⟨?_, hr.origin⟩, ?_, ?_⟩
  · simp only [Reading.binary, hr.expr, hr'.expr, hr.origin]
    rfl
  · simp only [List.length_append, List.length_cons]
    omega
  · rw [List.append_assoc, List.cons_append, hread, readOperators, peek_bind, if_pos (by exact hop),
      bind_of_eq_ok (accept_cons (by simp [hop])), bind_of_eq_ok hread']

theorem operandSuffixed (h : (Phrase.suffixed e).Read c) (hstart : (Phrase.suffixed e).Starts c) :
    (Phrase.operand e).Read c := by
  intro n rest hn hfree
  obtain ⟨t, c, rfl, ht⟩ := hstart
  rw [List.length_cons] at hn
  obtain ⟨n, rfl⟩ : ∃ m, n = m + 1 := ⟨n - 1, by omega⟩
  obtain ⟨k, r, hr, hk, hread⟩ := h n rest (by rw [List.length_cons]; omega)
  rw [List.length_cons] at hk
  obtain ⟨k, rfl⟩ : ∃ m, k = m + 1 := ⟨k - 1, by omega⟩
  refine ⟨r, hr, readUnary_of_suffixes ht ?_⟩
  exact hread.trans (readSuffixes_of_free hfree)

theorem unary {op : Token} (hop : op.kind.isUnary) (h : (Phrase.operand e).Read c) :
    (Phrase.operand (.unary op.text e op.origin)).Read (op :: c) := by
  intro n rest hn hfree
  rw [List.length_cons] at hn
  obtain ⟨n, rfl⟩ : ∃ m, n = m + 1 := ⟨n - 1, by omega⟩
  obtain ⟨r, hr, hread⟩ := h n rest (by omega) hfree
  refine ⟨r.unary op, ⟨?_, rfl⟩, ?_⟩
  · simp only [Reading.unary, hr.expr]
    rfl
  · rw [List.cons_append, readUnary, peek_bind, if_pos (by simpa using hop),
      bind_of_eq_ok (accept_cons hop), bind_of_eq_ok hread]
    rfl

theorem suffixedPrimary (h : (Phrase.primary e).Read c) (hstart : (Phrase.primary e).Starts c) :
    (Phrase.suffixed e).Read c := by
  intro n rest hn
  obtain ⟨r, hr, hread⟩ := h n rest hn trivial
  have hpos := length_pos_of_starts hstart
  exact ⟨n, r, hr, by omega, bind_of_eq_ok hread⟩

theorem member {dot : Token} (hdot : dot.kind = .dot) (ht : t.kind = .name)
    (h : (Phrase.suffixed e).Read c) :
    (Phrase.suffixed (.member e t.text e.origin)).Read (c ++ [dot, t]) := by
  intro n rest hn
  simp only [List.length_append, List.length_cons, List.length_nil] at hn
  obtain ⟨k, r, hr, hk, hread⟩ := h n (dot :: t :: rest) (by omega)
  obtain ⟨k, rfl⟩ : ∃ m, k = m + 1 := ⟨k - 1, by omega⟩
  refine ⟨k, r.member t, ⟨?_, hr.origin⟩, ?_, ?_⟩
  · simp only [Reading.member, hr.expr, hr.origin]
    rfl
  · simp only [List.length_append, List.length_cons, List.length_nil]
    omega
  · rw [List.append_assoc, List.cons_append, List.cons_append, List.nil_append, hread,
      readSuffixes, peek_bind, List.head?_cons, Option.map_some, hdot]
    show (expect .dot >>= _) _ = _
    rw [bind_of_eq_ok (expect_cons hdot), bind_of_eq_ok (expect_cons ht)]

theorem index {t' : Token} (ht : t.kind = .leftBracket) (ht' : t'.kind = .rightBracket)
    (h : (Phrase.suffixed e).Read c) (h' : (Phrase.expr e').Read c') :
    (Phrase.suffixed (.index e e' e.origin)).Read (c ++ t :: (c' ++ [t'])) := by
  intro n rest hn
  simp only [List.length_append, List.length_cons, List.length_nil] at hn
  obtain ⟨k, r, hr, hk, hread⟩ := h n (t :: (c' ++ t' :: rest)) (by omega)
  obtain ⟨k, rfl⟩ : ∃ m, k = m + 1 := ⟨k - 1, by omega⟩
  obtain ⟨r', hr', hread'⟩ := h' k (t' :: rest) (by omega) (Free.cons (by rw [ht']; rfl))
  refine ⟨k, r.index r', ⟨?_, hr.origin⟩, ?_, ?_⟩
  · simp only [Reading.index, hr.expr, hr'.expr, hr.origin]
    rfl
  · simp only [List.length_append, List.length_cons, List.length_nil]
    omega
  · rw [List.append_assoc, List.cons_append, List.append_assoc, List.singleton_append, hread,
      readSuffixes, peek_bind, List.head?_cons, Option.map_some, ht]
    show (expect .leftBracket >>= _) _ = _
    rw [bind_of_eq_ok (expect_cons ht), bind_of_eq_ok hread', bind_of_eq_ok (expect_cons ht')]

/-- A list of expressions is read item by item. -/
theorem items {close : TokenKind} {trailing : Bool} {es : List Expr}
    (h : (Phrase.exprs close trailing es).Read c)
    (hclose : close = .rightParen ∨ close = .rightBracket) {n : Nat}
    (hn : 16 * c.length ≤ n + 5) (rest : List Token) : ∃ rs : List Reading,
      rs.mapM (·.expr) = .ok es ∧
        items (readExpr n) close trailing n (c ++ rest) = .ok (rs, rest) := by
  refine items_of_listed (N := c.length) (by rcases hclose with rfl | rfl <;> decide)
    (fun e c' t rest he hle ht => ?_) (fun e c' he => ?_) h (by omega) (Nat.le_refl _) rest
  · have hfree : Free exprLevel (t :: rest) := by
      refine Free.cons ?_
      rcases ht with ht | ht
      · rw [ht]
        rfl
      · rw [ht]
        rcases hclose with rfl | rfl <;> rfl
    obtain ⟨r, hr, hread⟩ := he.1 n (t :: rest) (by omega) hfree
    exact ⟨r, hr.expr, hread⟩
  · obtain ⟨t, c'', rfl, ht⟩ := he.2
    refine ⟨t, c'', rfl, fun hk => ?_⟩
    rw [hk] at ht
    rcases hclose with rfl | rfl <;> cases ht

theorem call {es : List Expr} (ht : t.kind = .leftParen) (h : (Phrase.suffixed e).Read c)
    (h' : (Phrase.exprs .rightParen false es).Read c') :
    (Phrase.suffixed (.call e es e.origin)).Read (c ++ t :: c') := by
  intro n rest hn
  simp only [List.length_append, List.length_cons] at hn
  obtain ⟨k, r, hr, hk, hread⟩ := h n (t :: (c' ++ rest)) (by omega)
  obtain ⟨k, rfl⟩ : ∃ m, k = m + 1 := ⟨k - 1, by omega⟩
  obtain ⟨rs, hrs, hreads⟩ := h'.items (Or.inl rfl) (n := k) (by omega) rest
  refine ⟨k, r.call rs, ⟨?_, hr.origin⟩, ?_, ?_⟩
  · simp only [Reading.call, hr.expr, hrs, hr.origin]
    rfl
  · simp only [List.length_append, List.length_cons]
    omega
  · rw [List.append_assoc, List.cons_append, hread, readSuffixes, peek_bind, List.head?_cons,
      Option.map_some, ht]
    show (expect .leftParen >>= _) _ = _
    rw [bind_of_eq_ok (expect_cons ht), bind_of_eq_ok hreads]

/-- A token alone is read as a primary expression. -/
theorem primary_token (h : ∀ n rest, ∃ r, Reading.Holds r e ∧
    readPrimary (n + 1) (t :: rest) = .ok (r, rest)) : (Phrase.primary e).Read [t] := by
  intro n rest hn _
  rw [List.length_singleton] at hn
  obtain ⟨n, rfl⟩ : ∃ m, n = m + 1 := ⟨n - 1, by omega⟩
  exact h n rest

theorem string {s : CodeText} (ht : StringToken s t) :
    (Phrase.primary (.literal (.text s) t.text t.origin)).Read [t] := by
  refine primary_token fun n rest => ⟨.literal t (t.stringValue.map .text), ⟨?_, rfl⟩, ?_⟩
  · simp only [Reading.literal, Token.stringValue, ht.2]
    rfl
  · rw [readPrimary, peek_bind, List.head?_cons, Option.map_some, ht.1]
    show (expect .string >>= _) _ = _
    rw [bind_of_eq_ok (expect_cons ht.1)]
    rfl

theorem number {v : LiteralValue} (ht : NumberToken v t) :
    (Phrase.primary (.literal v t.text t.origin)).Read [t] := by
  refine primary_token fun n rest => ⟨.literal t t.numberValue, ⟨?_, rfl⟩, ?_⟩
  · simp only [Reading.literal, Token.numberValue, ht.2]
    rfl
  · rw [readPrimary, peek_bind, List.head?_cons, Option.map_some, ht.1]
    show (expect .number >>= _) _ = _
    rw [bind_of_eq_ok (expect_cons ht.1)]
    rfl

theorem truth {b : Bool} (ht : t.kind = if b then .trueWord else .falseWord) :
    (Phrase.primary (.literal (.truth b) t.text t.origin)).Read [t] := by
  refine primary_token fun n rest => ⟨.literal t (.ok (.truth b)), ⟨rfl, rfl⟩, ?_⟩
  cases b with
  | true =>
    replace ht : t.kind = .trueWord := ht
    rw [readPrimary, peek_bind, List.head?_cons, Option.map_some, ht]
    show (expect .trueWord >>= _) _ = _
    rw [bind_of_eq_ok (expect_cons ht)]
    rfl
  | false =>
    replace ht : t.kind = .falseWord := ht
    rw [readPrimary, peek_bind, List.head?_cons, Option.map_some, ht]
    show (expect .falseWord >>= _) _ = _
    rw [bind_of_eq_ok (expect_cons ht)]
    rfl

theorem null (ht : t.kind = .nullWord) :
    (Phrase.primary (.literal .null t.text t.origin)).Read [t] := by
  refine primary_token fun n rest => ⟨.literal t (.ok .null), ⟨rfl, rfl⟩, ?_⟩
  rw [readPrimary, peek_bind, List.head?_cons, Option.map_some, ht]
  show (expect .nullWord >>= _) _ = _
  rw [bind_of_eq_ok (expect_cons ht)]
  rfl

theorem name (ht : t.kind.isBindingName) : (Phrase.primary (.name t.identifier)).Read [t] :=
  primary_token fun _ _ => ⟨.name t, ⟨rfl, rfl⟩, readPrimary_name ht⟩

theorem array {es : List Expr} (ht : t.kind = .leftBracket)
    (h : (Phrase.exprs .rightBracket true es).Read c) :
    (Phrase.primary (.array es t.origin)).Read (t :: c) := by
  intro n rest hn _
  rw [List.length_cons] at hn
  obtain ⟨n, rfl⟩ : ∃ m, n = m + 1 := ⟨n - 1, by omega⟩
  obtain ⟨rs, hrs, hreads⟩ := h.items (Or.inr rfl) (n := n) (by omega) rest
  refine ⟨.array t.origin rs, ⟨?_, rfl⟩, ?_⟩
  · simp only [Reading.array, hrs]
    rfl
  · rw [List.cons_append, readPrimary, peek_bind, List.head?_cons, Option.map_some, ht]
    show (expect .leftBracket >>= _) _ = _
    rw [bind_of_eq_ok (expect_cons ht), bind_of_eq_ok hreads]
    rfl

theorem object {ps : List Property} (ht : t.kind = .leftBrace)
    (h : (Phrase.properties ps).Read c) : (Phrase.primary (.object ps t.origin)).Read (t :: c) := by
  intro n rest hn _
  rw [List.length_cons] at hn
  obtain ⟨n, rfl⟩ : ∃ m, n = m + 1 := ⟨n - 1, by omega⟩
  obtain ⟨as, has, hreads⟩ : ∃ as : List (Checked Property), as.mapM id = .ok ps ∧
      Parse.items (readProperty n) .rightBrace true n (c ++ rest) = .ok (as, rest) := by
    refine items_of_listed (N := c.length) (by decide) (fun p c' t rest hp hle ht => ?_)
      (fun p c' hp => ?_) h (by omega) (Nat.le_refl _) rest
    · obtain ⟨a, rfl, hread⟩ := hp.1 n (t :: rest) (by omega) ⟨t, rest, rfl, ht⟩
      exact ⟨_, rfl, hread⟩
    · obtain ⟨t, c'', rfl, ht⟩ := hp.2
      refine ⟨t, c'', rfl, fun hk => ?_⟩
      rw [hk] at ht
      cases ht
  refine ⟨.object t.origin as, ⟨?_, rfl⟩, ?_⟩
  · simp only [Reading.object, has]
    rfl
  · rw [List.cons_append, readPrimary, peek_bind, List.head?_cons, Option.map_some, ht]
    show (expect .leftBrace >>= _) _ = _
    rw [bind_of_eq_ok (expect_cons ht), bind_of_eq_ok hreads]
    rfl

theorem group {t' : Token} (ht : t.kind = .leftParen) (ht' : t'.kind = .rightParen)
    (h : (Phrase.expr e).Read c) (hstart : (Phrase.expr e).Starts c) :
    (Phrase.primary (.group e t.origin)).Read (t :: (c ++ [t'])) := by
  intro n rest hn _
  simp only [List.length_cons, List.length_append, List.length_nil] at hn
  obtain ⟨n, rfl⟩ : ∃ m, n = m + 1 := ⟨n - 1, by omega⟩
  have hlist : (Phrase.exprs .rightParen false [e]).Read (c ++ [t']) :=
    Or.inr (.last ⟨h, hstart⟩ ht')
  obtain ⟨rs, hrs, hreads⟩ := hlist.items (Or.inl rfl) (n := n)
    (by simp only [List.length_append, List.length_cons, List.length_nil]; omega) rest
  refine ⟨.group t.origin rs, ⟨?_, rfl⟩, readPrimary_group ht hreads⟩
  -- the list has one item
  cases rs with
  | nil => cases hrs
  | cons r rs =>
    obtain ⟨e', es', hr, hes, heq⟩ := Checked.mapM_cons_eq_ok.1 hrs
    obtain ⟨rfl, rfl⟩ := List.cons.inj heq
    cases rs with
    | nil =>
      simp only [Reading.group, hr]
      rfl
    | cons r' rs =>
      obtain ⟨_, _, _, _, heq⟩ := Checked.mapM_cons_eq_ok.1 hes
      cases heq

end Phrase.Read

end MessageBinder
