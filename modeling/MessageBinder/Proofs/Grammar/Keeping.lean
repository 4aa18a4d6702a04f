import MessageBinder.Proofs.Grammar.Course

/-!
# Tokens keep to the course

**Tokens that derive statements keep to the course** (`MessageBinder.Derives.keeps`): no token comes
where the course does not admit it, the statements begun are those of the tree, and the tokens
derive the same without some of the spare terminators. What this says of a phrase,
`MessageBinder.Phrase.Keeps`, differs from one kind of phrase to another: an expression can end in
an operand or in the body of a function, a list ends behind its closing token, and what encloses a
list decides what is behind the next token afterwards.
-/

namespace MessageBinder

/-- **The tokens of a phrase keep to the course**: from a spot where the phrase can begin they lead
to one where it has ended, with the statements of the phrase begun on the way, and without some of
the spare terminators they derive the same. -/
def Phrase.Keeps [CharacterNames] : Phrase → List Token → Prop
  | .expr e, c => ∀ o b n, b.Awaits →
      ∃ b', b'.Ends ∧ Leads (spot o b n) c (spot o b' (n + e.statements)) (Derives (.expr e))
  | .choice e, c => ∀ o b n, b.Awaits → ∃ b', b'.Ends ∧ (e.isTarget → b' = .operand) ∧
      Leads (spot o b n) c (spot o b' (n + e.statements)) (Derives (.choice e))
  | .operation l e, c => ∀ o b n, b.Awaits →
      Leads (spot o b n) c (spot o .operand (n + e.statements)) (Derives (.operation l e))
  | .operand e, c => ∀ o b n, b.Awaits →
      Leads (spot o b n) c (spot o .operand (n + e.statements)) (Derives (.operand e))
  | .suffixed e, c => ∀ o b n, b.Awaits →
      Leads (spot o b n) c (spot o .operand (n + e.statements)) (Derives (.suffixed e))
  | .primary e, c => ∀ o b n, b.Awaits →
      Leads (spot o b n) c (spot o .operand (n + e.statements)) (Derives (.primary e))
  | .exprs close trailing es, c => Behind.inside.move close = some .leave →
      ∀ e o b n, e.isBlock = false → Leads (spot (e :: o) b n) c
        (spot o e.resume (n + Expr.statementsList es)) (Derives (.exprs close trailing es))
  | .someExprs close trailing es, c => Behind.inside.move close = some .leave →
      ∀ e o b n, e.isBlock = false → Leads (spot (e :: o) b n) c
        (spot o e.resume (n + Expr.statementsList es)) (Derives (.someExprs close trailing es))
  | .property p, c => ∀ o b n, isInside o →
      Leads (spot o b n) c (spot o b (n + p.statements)) (Derives (.property p))
  | .properties ps, c => ∀ e o b n, e.isBlock = false → Leads (spot (e :: o) b n) c
      (spot o e.resume (n + Property.statementsList ps)) (Derives (.properties ps))
  | .someProperties ps, c => ∀ e o b n, e.isBlock = false → Leads (spot (e :: o) b n) c
      (spot o e.resume (n + Property.statementsList ps)) (Derives (.someProperties ps))
  | .block s, c => ∀ σ e o n, e.isBlock →
      σ.next .blockBrace = some (spot (e :: o) .opening n) →
      Leads σ c (spot o e.resume (n + s.statements)) (Derives (.block s))
  | .untilBrace ss, c => ∀ e o n, e.isBlock → Leads (spot (e :: o) .opening n) c
      (spot o e.resume (n + Stmt.statementsList ss)) (Derives (.untilBrace ss))
  | .declarator d, c => ∀ o n, isInside o = false → ∃ b', b'.Ends ∧
      Leads (spot o .expecting n) c (spot o b' (n + d.statements)) (Derives (.declarator d))
  | .declarators ds, c => ∀ o n, isInside o = false → ∃ b', b'.Ends ∧ Leads (spot o .expecting n) c
      (spot o b' (n + Declarator.statementsList ds)) (Derives (.declarators ds))
  | .declaration d, c => ∀ o n, isInside o = false →
      Leads (spot o .clause n) c (spot o .opening (n + d.statements)) (Derives (.declaration d))
  | .stmt s, c => ∀ o b n, isInside o = false → (b = .opening ∨ b = .branch) →
      Leads (spot o b n) c (spot o .opening (n + s.statements)) (Derives (.stmt s))
  | .branch s, c => ∀ o n, isInside o = false →
      Leads (spot o .branch n) c (spot o .opening (n + s.statements)) (Derives (.branch s))
  | .body ss, c => ∀ o n, isInside o = false →
      Leads (spot o .opening n) c (spot o .opening (n + Stmt.statementsList ss))
        (Derives (.body ss))

/-! ### Single tokens -/

section Spots

variable {o : List Enclosure} {b b' : Behind} {n : Nat} {k : TokenKind} {e : Enclosure}

theorem behind_spot_ne (hb : b ≠ .opening) : (spot o b n).behind ≠ .opening := by
  unfold spot
  split
  · nofun
  · exact hb

theorem behind_spot (ho : isInside o = false) : (spot o b n).behind = b := by
  rw [spot_of_not_inside ho]

/-- Brackets other than those of blocks look the same from everywhere within. -/
theorem spot_within (he : e.isBlock = false) (b' : Behind) :
    spot (e :: o) b n = spot (e :: o) b' n :=
  spot_of_inside (isInside_of_not_isBlock he) b'

/-- A token that does the same behind two things, of which it begins a statement behind the one. -/
theorem next_of_move_eq (ho : isInside o = false) (hmove : b.move k = b'.move k)
    (hstay : b'.move k ≠ some .stay) (hbegins : b.begins k) (hbegins' : b'.begins k = false) :
    (spot o b n).next k = (spot o b' (n + 1)).next k := by
  rw [spot_of_not_inside ho, spot_of_not_inside ho]
  unfold Spot.next
  simp only [hmove, hbegins, hbegins']
  split
  · rename_i h
    exact absurd h hstay
  all_goals rfl

/-- An expression at the beginning of a statement is read as one behind a token that awaits it. -/
theorem next_of_startsExpr (ho : isInside o = false) (hb : b = .opening ∨ b = .branch)
    (hk : k.startsExpr) : (spot o b n).next k = (spot o .expecting (n + 1)).next k := by
  have hsame : b.move k = Behind.expecting.move k ∧ Behind.expecting.move k ≠ some .stay ∧
      b.begins k = true ∧ Behind.expecting.begins k = false := by
    revert hk
    rcases hb with rfl | rfl <;> cases k <;> decide
  exact next_of_move_eq ho hsame.1 hsame.2.1 hsame.2.2.1 hsame.2.2.2

/-- A declaration at the beginning of a statement is read as one behind `export`. -/
theorem next_of_declares (ho : isInside o = false) (hb : b = .opening ∨ b = .branch)
    (hk : k.variableKind?.isSome ∨ k = .functionWord) :
    (spot o b n).next k = (spot o .clause (n + 1)).next k := by
  have hsame : b.move k = Behind.clause.move k ∧ Behind.clause.move k ≠ some .stay ∧
      b.begins k = true ∧ Behind.clause.begins k = false := by
    revert hk
    rcases hb with rfl | rfl <;> cases k <;> decide
  exact next_of_move_eq ho hsame.1 hsame.2.1 hsame.2.2.1 hsame.2.2.2

/-- The first token of a statement, told by its kind. -/
theorem next_start (ho : isInside o = false) (hb : b = .opening ∨ b = .branch)
    (hk : Behind.start k = some (.to b'))
    (hne : k ≠ .terminator ∧ k ≠ .rightBrace ∧ k ≠ .elseWord) :
    (spot o b n).next k = some (spot o b' (n + 1)) := by
  obtain ⟨hterminator, hbrace, helse⟩ := hne
  have hmove : b.move k = some (.to b') ∧ b.begins k := by
    rcases hb with rfl | rfl
    · refine ⟨?_, by simp [Behind.begins, hterminator, hbrace, helse]⟩
      rw [← hk]
      unfold Behind.move
      split <;> first | rfl | contradiction
    · refine ⟨?_, rfl⟩
      rw [← hk]
      unfold Behind.move
      split <;> first | rfl | contradiction
  exact next_of_begins ho hmove.1 hmove.2

/-- The brace of a block statement. -/
theorem next_blockBrace (ho : isInside o = false) (hb : b = .opening ∨ b = .branch) :
    (spot o b n).next .blockBrace = some (spot (.block :: o) .opening (n + 1)) := by
  rw [spot_of_not_inside ho]
  rcases hb with rfl | rfl <;> rfl

theorem ne_terminator_of_startsExpr (hk : k.startsExpr) : k ≠ .terminator := by
  rintro rfl
  cases hk

/-- The name of a function declaration. -/
theorem next_naming (ho : isInside o = false) (hk : k.isBindingName) :
    (spot o .naming n).next k = some (spot o .named n) :=
  next_of_not_inside ho (by simp [Behind.move, hk]) rfl

/-- The first word of a declaration of variables. -/
theorem next_variableKind? {kind : VariableKind} (ho : isInside o = false)
    (hk : k.variableKind? = some kind) :
    (spot o .clause n).next k = some (spot o .expecting n) := by
  refine next_of_not_inside ho ?_ rfl
  revert hk
  cases k <;> first | exact fun _ => rfl | nofun

end Spots

/-! ### The parts of phrases -/

namespace Leads

variable {o : List Enclosure} {b : Behind} {n : Nat} {k close : TokenKind} {t : Token}
  {c d : List Token} {e : Enclosure} {x : Expr} {σ' : Spot} {R : List Token → Prop}

/-- A literal. -/
theorem literal (hb : b.Awaits) (ht : t.kind = k) (hk : k.startsPrimary)
    (hne : k ≠ .leftParen ∧ k ≠ .leftBracket ∧ k ≠ .leftBrace) (hR : R [t]) :
    Leads (spot o b n) [t] (spot o .operand n) R :=
  .word ht (by rintro rfl; cases hk) (next_atom hb hk hne) (.nil hR)

/-- A name where an operand has to follow. -/
theorem name (hb : b.Awaits) (ht : t.kind.isBindingName)
    (h : Leads (spot o .operand n) c σ' fun c' => R (t :: c')) : Leads (spot o b n) (t :: c) σ' R :=
  .cons (.inr (ne_terminator_of_move (stay_of_isBindingName ht))) (next_bindingName hb ht) h

/-- The key of a property. -/
theorem key (ho : isInside o) (ht : t.kind.isBindingName)
    (h : Leads (spot o b n) c σ' fun c' => R (t :: c')) : Leads (spot o b n) (t :: c) σ' R :=
  .cons (.inr (ne_terminator_of_move (stay_of_isBindingName ht)))
    (next_inside ho (stay_of_isBindingName ht)) h

/-- The token that closes a bracket which encloses no statements. -/
theorem closing (he : e.isBlock = false) (ht : t.kind = close)
    (hclose : Behind.inside.move close = some .leave)
    (h : Leads (spot o e.resume n) c σ' fun c' => R (t :: c')) :
    Leads (spot (e :: o) b n) (t :: c) σ' R :=
  .word ht (ne_terminator_of_move hclose) (next_leave he hclose) h

/-- An expression in brackets. -/
theorem brackets [CharacterNames] {t' : Token} (he : e.isBlock = false) (ht : t.kind = k)
    (hk : k ≠ .terminator) (hnext : (spot o b n).next k = some (spot (e :: o) .opening n))
    (ht' : t'.kind = close) (hclose : Behind.inside.move close = some .leave)
    (hx : (Phrase.expr x).Keeps c) (h : ∀ c', Derives (.expr x) c' →
    Leads (spot o e.resume (n + x.statements)) d σ'
      fun d' => R (t :: (c' ++ t' :: d'))) :
    Leads (spot o b n) (t :: (c ++ t' :: d)) σ' R := by
  obtain ⟨b', -, hx⟩ := hx (e :: o) .expecting n Behind.awaits_expecting
  rw [spot_within he .expecting] at hnext
  exact .word ht hk hnext <| hx.append fun c' hc' => .closing he ht' hclose (h c' hc')

/-- The terminator of a statement that ends in an expression or in a text. -/
theorem sentence (ho : isInside o = false) (hb : b.Ends) (ht : t.kind = .terminator) (hR : R [t]) :
    Leads (spot o b n) [t] (spot o .opening n) R :=
  .fin ht (behind_spot_ne hb.ne_opening) (next_terminator ho hb) hR

/-- The end of an import or export that names a module. -/
theorem source [CharacterNames] {s : CodeText} {from' source fin : Token} (ho : isInside o = false)
    (hb : b = .clause ∨ b = .operand) (hfrom : from'.kind = .fromWord)
    (hsource : StringToken s source) (hfin : fin.kind = .terminator) (hR : R [from', source, fin]) :
    Leads (spot o b n) [from', source, fin] (spot o .opening n) R := by
  have hnext : (spot o b n).next .fromWord = some (spot o .clause n) := by
    rcases hb with rfl | rfl
    · exact next_stay ho rfl rfl
    · exact next_of_not_inside ho rfl rfl
  exact .word hfrom nofun hnext <| .word hsource.1 nofun (next_of_not_inside ho rfl rfl) <|
    .sentence ho Behind.ends_operand hfin hR

/-- The list of an export. -/
theorem exportList {isLocal : Bool} {ss : List ExportSpecifier} {brace : Token}
    (ho : isInside o = false) (hb : b = .opening ∨ b = .branch) (ht : t.kind = .exportWord)
    (hbrace : brace.kind = .leftBrace) (hss : Listed (ExportTokens isLocal) .rightBrace true ss c)
    (h : Leads (spot o .operand (n + 1)) d σ' fun d' => R (t :: brace :: (c ++ d'))) :
    Leads (spot o b n) (t :: brace :: (c ++ d)) σ' R :=
  .word ht nofun (next_start ho hb rfl (by decide)) <|
    .word hbrace nofun (next_enter rfl rfl rfl) <|
    (hss.leads (ExportTokens.dwells isLocal) rfl rfl).past h

/-- The condition of a choice. -/
theorem condition [CharacterNames] {paren close : Token} (ho : isInside o = false)
    (hb : b = .opening ∨ b = .branch) (ht : t.kind = .ifWord) (hparen : paren.kind = .leftParen)
    (hclose : close.kind = .rightParen) (hx : (Phrase.expr x).Keeps c)
    (h : ∀ c', Derives (.expr x) c' → Leads (spot o .branch (n + 1 + x.statements)) d σ'
      fun d' => R (t :: paren :: (c' ++ close :: d'))) :
    Leads (spot o b n) (t :: paren :: (c ++ close :: d)) σ' R :=
  .word ht nofun (next_start ho hb rfl (by decide)) <|
    .brackets rfl hparen nofun (next_enter_of_not_inside ho rfl rfl) hclose rfl hx h

end Leads

/-! ### Phrases -/

/-- A declaration starts with a word of its own. -/
theorem Derives.declares [CharacterNames] {d : Declaration} {c : List Token}
    (h : Derives (.declaration d) c) :
    ∃ t c', c = t :: c' ∧ (t.kind.variableKind?.isSome ∨ t.kind = .functionWord) := by
  match d, h.starts with
  | .variables .., ⟨t, c', hc, ht⟩ => exact ⟨t, c', hc, .inl ht⟩
  | .function .., ⟨t, c', hc, ht⟩ => exact ⟨t, c', hc, .inr (of_decide_eq_true ht)⟩

/-- **The tokens of every phrase keep to the course.** -/
theorem Derives.keeps [CharacterNames] {p : Phrase} {c : List Token} (h : Derives p c) :
    p.Keeps c := by
  -- each case walks along the tokens of its rule, and the last step derives the whole again from
  -- what the parts have kept
  have expecting := Behind.awaits_expecting
  induction h with
  -- expressions
  | exprChoice _ ih =>
    intro o b n hb
    obtain ⟨b', hb', -, h⟩ := ih o b n hb
    exact ⟨b', hb', h.mono fun _ => .exprChoice⟩
  | arrow hids hfirst ht _ ih =>
    intro o b n hb
    obtain ⟨b', hb', h⟩ := ih o .expecting n expecting
    rw [Expr.statements]
    exact ⟨b', hb', (hids.leads hb).past <| .word ht nofun (next_to rfl rfl rfl) <|
      h.mono fun _ => .arrow hids hfirst ht⟩
  | arrowBlock hids hfirst ht _ ih =>
    intro o b n hb
    have h := ih (spot o .expecting n) .body o n rfl (next_enter rfl rfl rfl)
    rw [Expr.statements]
    exact ⟨.closure, .inr rfl, (hids.leads hb).past <| .word ht nofun (next_to rfl rfl rfl) <|
      h.mono fun _ => .arrowBlock hids hfirst ht⟩
  | assign hop htarget _ _ ih ih' =>
    intro o b n hb
    obtain ⟨b', -, hoperand, h⟩ := ih o b n hb
    obtain rfl := hoperand htarget
    obtain ⟨b'', hb'', h'⟩ := ih' o .expecting _ expecting
    simp only [Expr.statements, ← Nat.add_assoc]
    exact ⟨b'', hb'', h.append fun x hx =>
      .cons (.inl (behind_spot_ne nofun)) (next_assignment hop) <|
      h'.mono fun _ => .assign hop htarget hx⟩
  | choiceOperation _ ih =>
    exact fun o b n hb =>
      ⟨.operand, .inl rfl, fun _ => rfl, (ih o b n hb).mono fun _ => .choiceOperation⟩
  | conditional hquestion hcolon _ _ _ iht ihc iha =>
    intro o b n hb
    obtain ⟨b', hb', hc⟩ := ihc o .expecting _ expecting
    obtain ⟨b'', hb'', ha⟩ := iha o .expecting _ expecting
    simp only [Expr.statements, ← Nat.add_assoc]
    exact ⟨b'', hb'', nofun, (iht o b n hb).append fun x hx =>
      .word hquestion nofun (next_to rfl rfl rfl) <| hc.append fun y hy =>
      .word hcolon nofun (next_separator hb' (.inr rfl)) <|
      ha.mono fun _ => .conditional hquestion hcolon hx hy⟩
  | operationOperand _ ih => exact fun o b n hb => (ih o b n hb).mono fun _ => .operationOperand
  | operationTighter _ ih => exact fun o b n hb => (ih o b n hb).mono fun _ => .operationTighter
  | binary hop _ _ ih ih' =>
    intro o b n hb
    simp only [Expr.statements, ← Nat.add_assoc]
    exact (ih o b n hb).append fun x hx =>
      .cons (.inl (behind_spot_ne nofun)) (next_looseness? hop) <|
      (ih' o .expecting _ expecting).mono fun _ => .binary hop hx
  | operandSuffixed _ ih => exact fun o b n hb => (ih o b n hb).mono fun _ => .operandSuffixed
  | unary hop _ ih =>
    intro o b n hb
    rw [Expr.statements]
    exact .cons (.inl (behind_spot_ne hb.ne_opening)) (next_unary hb hop) <|
      (ih o .expecting n expecting).mono fun _ => .unary hop
  | suffixedPrimary _ ih => exact fun o b n hb => (ih o b n hb).mono fun _ => .suffixedPrimary
  | member hdot ht _ ih =>
    intro o b n hb
    rw [Expr.statements]
    exact (ih o b n hb).append fun x hx => .word hdot nofun (next_to rfl rfl rfl) <|
      .word ht nofun (next_to rfl rfl rfl) (.nil (.member hdot ht hx))
  | index ht ht' _ _ ih ih' =>
    intro o b n hb
    simp only [Expr.statements, ← Nat.add_assoc]
    exact (ih o b n hb).append fun x hx =>
      .brackets rfl ht nofun (next_enter rfl rfl rfl) ht' rfl ih' fun y hy =>
      .nil (.index ht ht' hx hy)
  | call ht _ _ ih ih' =>
    intro o b n hb
    simp only [Expr.statements, ← Nat.add_assoc]
    exact (ih o b n hb).append fun x hx => .word ht nofun (next_enter rfl rfl rfl) <|
      (ih' rfl .paren o .opening _ rfl).mono fun _ => .call ht hx
  | string ht => exact fun o b n hb => .literal hb ht.1 rfl (by decide) (.string ht)
  | number ht => exact fun o b n hb => .literal hb ht.1 rfl (by decide) (.number ht)
  | @truth t v ht =>
    intro o b n hb
    cases v with
    | false => exact .literal hb ht rfl (by decide) (.truth ht)
    | true => exact .literal hb ht rfl (by decide) (.truth ht)
  | null ht => exact fun o b n hb => .literal hb ht rfl (by decide) (.null ht)
  | name ht => exact fun o b n hb => .name hb ht (.nil (.name ht))
  | array ht _ ih =>
    intro o b n hb
    rw [Expr.statements]
    exact .word ht nofun (next_enter rfl (hb.move rfl) hb.begins) <|
      (ih rfl .square o .opening n rfl).mono fun _ => .array ht
  | object ht _ ih =>
    intro o b n hb
    rw [Expr.statements]
    exact .word ht nofun (next_enter rfl (hb.move rfl) hb.begins) <|
      (ih .brace o .opening n rfl).mono fun _ => .object ht
  | group ht ht' _ ih =>
    intro o b n hb
    rw [Expr.statements]
    exact .brackets rfl ht nofun (next_enter rfl (hb.move rfl) hb.begins) ht' rfl ih fun x hx =>
      .nil (.group ht ht' hx)
  -- lists of expressions
  | noExprs ht => exact fun hclose e o b n he => .closing he ht hclose (.nil (.noExprs ht))
  | exprsSome _ ih =>
    exact fun hclose e o b n he => (ih hclose e o b n he).mono fun _ => .exprsSome
  | lastExpr ht _ ih =>
    intro hclose e o b n he
    rw [spot_within he .expecting]
    obtain ⟨b', -, h⟩ := ih (e :: o) .expecting n expecting
    simp only [Expr.statementsList, Nat.add_zero]
    exact h.append fun x hx => .closing he ht hclose (.nil (.lastExpr ht hx))
  | trailedExpr hcomma ht _ ih =>
    intro hclose e o b n he
    rw [spot_within he .expecting]
    obtain ⟨b', hb', h⟩ := ih (e :: o) .expecting n expecting
    simp only [Expr.statementsList, Nat.add_zero]
    exact h.append fun x hx => .word hcomma nofun (next_separator hb' (.inl rfl)) <|
      .closing he ht hclose (.nil (.trailedExpr hcomma ht hx))
  | moreExprs hcomma _ _ ih ih' =>
    intro hclose e o b n he
    rw [spot_within he .expecting]
    obtain ⟨b', hb', h⟩ := ih (e :: o) .expecting n expecting
    simp only [Expr.statementsList, ← Nat.add_assoc]
    exact h.append fun x hx => .word hcomma nofun (next_separator hb' (.inl rfl)) <|
      (ih' hclose e o .expecting _ he).mono fun _ => .moreExprs hcomma hx
  -- properties
  | quotedProperty ht hcolon _ ih =>
    intro o b n ho
    obtain ⟨b', -, h⟩ := ih o .expecting n expecting
    rw [spot_of_inside ho b, spot_of_inside (b := b') ho b] at h
    exact .word ht.1 nofun (next_inside ho rfl) <| .word hcolon nofun (next_inside ho rfl) <|
      h.mono fun _ => .quotedProperty ht hcolon
  | property ht hcolon _ ih =>
    intro o b n ho
    obtain ⟨b', -, h⟩ := ih o .expecting n expecting
    rw [spot_of_inside ho b, spot_of_inside (b := b') ho b] at h
    exact .key ho ht <| .word hcolon nofun (next_inside ho rfl) <|
      h.mono fun _ => .property ht hcolon
  | shortProperty ht => exact fun o b n ho => .key ho ht (.nil (.shortProperty ht))
  | noProperties ht => exact fun e o b n he => .closing he ht rfl (.nil (.noProperties ht))
  | propertiesSome _ ih => exact fun e o b n he => (ih e o b n he).mono fun _ => .propertiesSome
  | lastProperty ht _ ih =>
    intro e o b n he
    simp only [Property.statementsList, Nat.add_zero]
    exact (ih (e :: o) b n (isInside_of_not_isBlock he)).append fun x hx =>
      .closing he ht rfl (.nil (.lastProperty ht hx))
  | trailedProperty hcomma ht _ ih =>
    intro e o b n he
    have ho := isInside_of_not_isBlock (o := o) he
    simp only [Property.statementsList, Nat.add_zero]
    exact (ih (e :: o) b n ho).append fun x hx => .word hcomma nofun (next_inside ho rfl) <|
      .closing he ht rfl (.nil (.trailedProperty hcomma ht hx))
  | moreProperties hcomma _ _ ih ih' =>
    intro e o b n he
    have ho := isInside_of_not_isBlock (o := o) he
    simp only [Property.statementsList, ← Nat.add_assoc]
    exact (ih (e :: o) b n ho).append fun x hx => .word hcomma nofun (next_inside ho rfl) <|
      (ih' e o b _ he).mono fun _ => .moreProperties hcomma hx
  -- blocks
  | block ht _ ih =>
    intro σ e o n he hnext
    rw [Block.statements]
    exact .word ht nofun hnext <| (ih e o n he).mono fun _ => .block ht
  | brace ht => exact fun e o n he => .word ht nofun (next_rightBrace he) (.nil (.brace ht))
  | blockNothing ht _ ih =>
    exact fun e o n he => (ih e o n he).spare (behind_spot (not_isInside_of_isBlock he)) ht
      fun _ => .blockNothing ht
  | blockStmt _ _ ih ih' =>
    intro e o n he
    simp only [Stmt.statementsList, ← Nat.add_assoc]
    exact (ih (e :: o) .opening n (not_isInside_of_isBlock he) (.inl rfl)).append fun x hx =>
      (ih' e o _ he).mono fun _ => .blockStmt hx
  -- declarations
  | declarator ht =>
    exact fun o n _ => ⟨.operand, .inl rfl, .name expecting ht (.nil (.declarator ht))⟩
  | declaratorInit ht hassign _ ih =>
    intro o n _
    obtain ⟨b', hb', h⟩ := ih o .expecting n expecting
    rw [Declarator.statements]
    exact ⟨b', hb', .name expecting ht <| .word hassign nofun (next_to rfl rfl rfl) <|
      h.mono fun _ => .declaratorInit ht hassign⟩
  | lastDeclarator _ ih =>
    intro o n ho
    obtain ⟨b', hb', h⟩ := ih o n ho
    simp only [Declarator.statementsList, Nat.add_zero]
    exact ⟨b', hb', h.mono fun _ => .lastDeclarator⟩
  | moreDeclarators hcomma _ _ ih ih' =>
    intro o n ho
    obtain ⟨b', hb', h⟩ := ih o n ho
    obtain ⟨b'', hb'', h'⟩ := ih' o _ ho
    simp only [Declarator.statementsList, ← Nat.add_assoc]
    exact ⟨b'', hb'', h.append fun x hx => .word hcomma nofun (next_separator hb' (.inl rfl)) <|
      h'.mono fun _ => .moreDeclarators hcomma hx⟩
  | variableDecl ht hfin _ ih =>
    intro o n ho
    obtain ⟨b', hb', h⟩ := ih o n ho
    rw [Declaration.statements]
    exact .cons (.inl (behind_spot_ne nofun)) (next_variableKind? ho ht) <|
      h.append fun x hx => .sentence ho hb' hfin (.variableDecl ht hfin hx)
  | functionDecl ht hf hparen hids _ ih =>
    intro o n ho
    have hbody := ih (spot o .headed n) .block o n rfl (next_enter_of_not_inside ho rfl rfl)
    rw [Declaration.statements]
    exact .word ht nofun (next_of_not_inside ho rfl rfl) <|
      .cons (.inl (behind_spot_ne nofun)) (next_naming ho hf) <|
      .word hparen nofun (next_enter_of_not_inside ho rfl rfl) <|
      (hids.leads BindingToken.dwells rfl rfl).past <|
      hbody.mono fun _ => .functionDecl ht hf hparen hids
  -- statements
  | importBare ht hsource hfin =>
    intro o b n ho hb
    rw [Stmt.statements]
    exact .word ht nofun (next_start ho hb rfl (by decide)) <|
      .word hsource.1 nofun (next_of_not_inside ho rfl rfl) <|
      .sentence ho Behind.ends_operand hfin (.importBare ht hsource hfin)
  | importNames ht hclause hfrom hsource hfin =>
    intro o b n ho hb
    obtain ⟨b', hb', hnames⟩ := hclause.leads (n := n + 1) ho
    rw [Stmt.statements]
    exact .word ht nofun (next_start ho hb rfl (by decide)) <| hnames.past <|
      .source ho hb' hfrom hsource hfin (.importNames ht hclause hfrom hsource hfin)
  | exportLocal ht hbrace hss hfin =>
    intro o b n ho hb
    rw [Stmt.statements]
    exact .exportList ho hb ht hbrace hss <|
      .sentence ho Behind.ends_operand hfin (.exportLocal ht hbrace hss hfin)
  | exportFrom ht hbrace hss hfrom hsource hfin =>
    intro o b n ho hb
    rw [Stmt.statements]
    exact .exportList ho hb ht hbrace hss <|
      .source ho (.inr rfl) hfrom hsource hfin (.exportFrom ht hbrace hss hfrom hsource hfin)
  | exportAll ht hstar hfrom hsource hfin =>
    intro o b n ho hb
    rw [Stmt.statements]
    exact .word ht nofun (next_start ho hb rfl (by decide)) <|
      .word hstar nofun (next_stay ho rfl rfl) <|
      .source ho (.inl rfl) hfrom hsource hfin (.exportAll ht hstar hfrom hsource hfin)
  | exportDecl ht _ ih =>
    intro o b n ho hb
    simp only [Stmt.statements, ← Nat.add_assoc]
    exact .word ht nofun (next_start ho hb rfl (by decide)) <|
      (ih o (n + 1) ho).mono fun _ => .exportDecl ht
  | exportDefault ht hdefault hfin _ ih =>
    intro o b n ho hb
    obtain ⟨b', hb', h⟩ := ih o .expecting (n + 1) expecting
    simp only [Stmt.statements, ← Nat.add_assoc]
    exact .word ht nofun (next_start ho hb rfl (by decide)) <|
      .word hdefault nofun (next_of_not_inside ho rfl rfl) <|
      h.append fun x hx => .sentence ho hb' hfin (.exportDefault ht hdefault hfin hx)
  | declaration h ih =>
    intro o b n ho hb
    obtain ⟨t, c, rfl, hk⟩ := h.declares
    have hne : t.kind ≠ .terminator := fun hk' => absurd (hk' ▸ hk) (by decide)
    simp only [Stmt.statements, ← Nat.add_assoc]
    exact ((ih o (n + 1) ho).of_next_eq (next_of_declares ho hb hk) hne).mono fun _ => .declaration
  | blockStatement _ ih =>
    intro o b n ho hb
    simp only [Stmt.statements, ← Nat.add_assoc]
    exact (ih _ .block o (n + 1) rfl (next_blockBrace ho hb)).mono fun _ => .blockStatement
  | returnNothing ht hfin =>
    intro o b n ho hb
    rw [Stmt.statements]
    exact .word ht nofun (next_start ho hb rfl (by decide)) <|
      .fin hfin (behind_spot_ne nofun) (next_of_not_inside ho rfl rfl) (.returnNothing ht hfin)
  | returnValue ht hfin _ ih =>
    intro o b n ho hb
    obtain ⟨b', hb', h⟩ := ih o .returning (n + 1) (.inr rfl)
    simp only [Stmt.statements, ← Nat.add_assoc]
    exact .word ht nofun (next_start ho hb rfl (by decide)) <|
      h.append fun x hx => .sentence ho hb' hfin (.returnValue ht hfin hx)
  | exprStatement hfin h ih =>
    intro o b n ho hb
    obtain ⟨t, c, rfl, hk⟩ := h.starts
    obtain ⟨b', hb', h'⟩ := ih o .expecting (n + 1) expecting
    have hne := ne_terminator_of_startsExpr hk
    simp only [Stmt.statements, ← Nat.add_assoc]
    exact (h'.of_next_eq (next_of_startsExpr ho hb hk) hne).append fun x hx =>
      .sentence ho hb' hfin (.exprStatement hfin hx)
  | ifThen ht hparen hclose _ _ ih ihs =>
    intro o b n ho hb
    simp only [Stmt.statements, ← Nat.add_assoc]
    exact .condition ho hb ht hparen hclose ih fun x hx =>
      (ihs o _ ho).mono fun _ => .ifThen ht hparen hclose hx
  | ifElse ht hparen hclose hother hopen _ _ _ ih ihs iha =>
    intro o b n ho hb
    simp only [Stmt.statements, ← Nat.add_assoc]
    exact .condition ho hb ht hparen hclose ih fun x hx => (ihs o _ ho).append fun y hy =>
      .word hother nofun (next_of_not_inside ho rfl rfl) <|
      (iha o _ ho).mono fun _ => .ifElse ht hparen hclose hother hopen hx hy
  | branchStmt _ ih =>
    exact fun o n ho => (ih o .branch n ho (.inr rfl)).mono fun _ => .branchStmt
  | branchNothing ht =>
    exact fun o n ho => .fin ht (behind_spot_ne nofun) (next_of_begins ho rfl rfl)
      (.branchNothing ht)
  -- modules
  | noStmts => exact fun o n _ => .nil .noStmts
  | nothing ht _ ih =>
    exact fun o n ho => (ih o n ho).spare (behind_spot ho) ht fun _ => .nothing ht
  | stmts _ _ ih ih' =>
    intro o n ho
    simp only [Stmt.statementsList, ← Nat.add_assoc]
    exact (ih o .opening n ho (.inl rfl)).append fun x hx =>
      (ih' o _ ho).mono fun _ => .stmts hx

/-- The tokens of a module lead from its beginning to its end, through all its statements. -/
theorem Derives.leads [CharacterNames] {ss : List Stmt} {c : List Token}
    (h : Derives (.body ss) c) :
    Leads ⟨[], .opening, 0⟩ c ⟨[], .opening, Stmt.statementsList ss⟩ (Derives (.body ss)) := by
  have hkeeps := h.keeps [] 0 rfl
  rwa [Nat.zero_add] at hkeeps

end MessageBinder
