import MessageBinder.Proofs.Grammar.Recognition

/-!
# Statements against the rules

The second half of the induction: blocks, declarations, exports, choices and statements. A statement
is told by its first token, an expression as a statement by having none of the others. A choice
takes an `else` that stands behind its first branch; the first branch is therefore read with what
follows it widened by an `else`, and `MessageBinder.EndsStmt` is what makes that no loss.
-/

namespace MessageBinder

open Token (kinds ahead)
open Form (language_rule language_token language_append language_or language_optional language_many)
open Rule
open Parse (Follows items)

variable {ts : List Token} {K A : Language TokenKind} {n : Nat}

/-! ### The rules of statements -/

theorem language_block : block.language * K =
    one .blockBrace * (KStar.kstar stmt.language * (one .rightBrace * K)) := by
  change block.form.language * K = _
  simp only [Rule.form, language_append, language_many, language_token, language_rule, mul_assoc]

theorem language_declarator : declarator.language * K =
    oneOf TokenKind.isBindingName * (K + one .assign * (assignExpr.language * K)) := by
  change declarator.form.language * K = _
  simp only [Rule.form, language_append, language_optional, language_token, language_rule,
    language_binding, add_mul, one_mul, mul_assoc]

theorem language_varDecl : varDecl.language * K =
    oneOf (·.variableKind?.isSome) * (declarator.language *
      (KStar.kstar (one .comma * declarator.language) * K)) := by
  have hkind : varKind.language = oneOf (·.variableKind?.isSome) := by
    change varKind.form.language = _
    simp only [Rule.form, language_or, language_token, oneOf_add]
    exact congrArg oneOf (funext fun k => by cases k <;> rfl)
  change varDecl.form.language * K = _
  simp only [Rule.form, language_append, language_many, language_token, language_rule, hkind,
    mul_assoc]

theorem language_functionDecl : functionDecl.language * K =
    one .functionWord * (oneOf TokenKind.isBindingName * (one .leftParen *
      listed (oneOf TokenKind.isBindingName) .rightParen false (block.language * K))) := by
  have hparams : params.language = oneOf TokenKind.isBindingName *
      KStar.kstar (one .comma * oneOf TokenKind.isBindingName) := by
    change params.form.language = _
    simp only [Rule.form, language_append, language_many, language_token, language_rule,
      language_binding]
  change functionDecl.form.language * K = _
  simp only [Rule.form, language_append, language_optional, language_token, language_rule,
    language_binding, hparams, listed_eq, Bool.false_eq_true, if_false, mul_one, mul_assoc]

theorem language_returnStmt : returnStmt.language * K =
    one .returnWord * (one .terminator * K + assignExpr.language * (one .terminator * K)) := by
  change returnStmt.form.language * K = _
  simp only [Rule.form, language_append, language_optional, language_token, language_rule,
    language_expr, add_mul, one_mul, mul_assoc]

/-- The first branch of a choice is followed by what follows the choice, or by an `else`. -/
theorem language_ifStmt : ifStmt.language * K =
    one .ifWord * (one .leftParen * (assignExpr.language * (one .rightParen *
      (stmt.language * (K + one .elseWord * (stmt.language * K)))))) := by
  change ifStmt.form.language * K = _
  simp only [Rule.form, language_append, language_optional, language_token, language_rule,
    language_expr, add_mul, one_mul, mul_assoc]

theorem language_exprStmt : exprStmt.language * K =
    assignExpr.language * (one .terminator * K) := by
  change exprStmt.form.language * K = _
  simp only [Rule.form, language_append, language_token, language_rule, language_expr, mul_assoc]

/-! ### What follows a statement -/

namespace EndsStmt

theorem of_lacks (hK : Possible K) (helse : Lacks (some .elseWord) K) : EndsStmt K :=
  ⟨hK, fun _ hw => absurd rfl (helse _ hw)⟩

/-- Statements and what follows them. -/
theorem stmts (hK : Possible K) (helse : Lacks (some .elseWord) K) :
    EndsStmt (KStar.kstar stmt.language * K) := by
  refine of_lacks (possible_mul.2 ⟨possible_kstar, hK⟩) ?_
  rw [kstar_mul_eq]
  exact helse.add (Rule.lacks rfl (by decide))

/-- Before the second branch of a choice ends the first. -/
theorem branch (hK : EndsStmt K) : EndsStmt (K + one .elseWord * (stmt.language * K)) where
  possible := possible_add.2 (Or.inl hK.possible)
  absorbs w hw := by
    have hw : w ∈ stmt.language * K := by
      rcases hw with hw | hw
      · exact hK.absorbs w hw
      · exact (cons_mem_oneOf_mul.1 hw).2
    rw [mul_add]
    exact Or.inl hw

end EndsStmt

/-- The kinds by which a statement is told from an expression. -/
def stmtMarks : List TokenKind :=
  [.terminator, .importWord, .exportWord, .functionWord, .constWord, .letWord, .varWord,
    .blockBrace, .returnWord, .ifWord]

namespace Recognizes

/-! ### Blocks and declarations -/

theorem block_succ [CharacterNames] (h : Recognizes n) (hn : 16 * ts.length < n + 1)
    (hK : Possible K) :
    Follows 1 (readBlock (n + 1)) ts (block.language * K) fun _ => K := by
  rw [readBlock, language_block]
  refine .expect_bind le_rfl (by simp [hK]) fun _ rest hlen => ?_
  exact .bind (Nat.zero_le 1) (h.untilBrace_follows (by omega) hK) fun _ _ _ => .pure .refl

theorem untilBrace_succ [CharacterNames] (h : Recognizes n) (hn : 16 * ts.length + 12 < n + 1)
    (hK : Possible K) :
    Follows 1 (readUntilBrace (n + 1)) ts (KStar.kstar stmt.language * (one .rightBrace * K))
      fun _ => K := by
  have hend : EndsStmt (KStar.kstar stmt.language * (one .rightBrace * K)) :=
    .stmts (by simp [hK]) (lacks_token (by decide))
  rw [readUntilBrace]
  conv in KStar.kstar _ * _ => rw [kstar_mul_eq]
  refine .skip? le_rfl hK (fun _ => .left .refl (Rule.lacks rfl (by decide))) (fun rest hlen => ?_)
    fun hne => ?_
  · rw [if_pos rfl]
    exact .pure .refl
  · rw [if_neg Bool.false_ne_true]
    refine .narrow (.right (lacks_token hne) .refl) ?_
    refine .bind le_rfl (h.stmt_follows (by omega) hend) fun _ rest hlen => ?_
    exact .bind (Nat.zero_le 1) (h.untilBrace_follows (by omega) hK) fun _ _ _ => .pure .refl

theorem declarator_succ [CharacterNames] (h : Recognizes n) (hn : 16 * ts.length < n + 1)
    (hK : EndsExpr K) (hassign : Lacks (some .assign) K) :
    Follows 1 (readDeclarator (n + 1)) ts (declarator.language * K) fun _ => K := by
  rw [readDeclarator, language_declarator]
  refine .accept_bind le_rfl ⟨.name, rfl⟩ (possible_add.2 (Or.inl hK.possible))
    fun _ rest hlen => ?_
  refine .skip? (Nat.zero_le 1) (K := assignExpr.language * K) (by simp [hK.possible])
    (fun _ => .right hassign .refl) (fun rest' hlen' => ?_) fun hne => ?_
  · rw [if_pos rfl]
    exact .bind (Nat.zero_le 1) (h.expr_follows (by omega) hK) fun _ _ _ => .pure .refl
  · rw [if_neg Bool.false_ne_true]
    exact .pure (.left .refl (lacks_token hne))

theorem declarators_succ [CharacterNames] (h : Recognizes n) (hn : 16 * ts.length + 1 < n + 1)
    (hK : Possible K) :
    Follows 1 (readDeclarators (n + 1)) ts (declarator.language *
      (KStar.kstar (one .comma * declarator.language) * (one .terminator * K)))
      fun _ => one .terminator * K := by
  -- behind a declarator stands a comma or the end of the declaration
  have hmore : Possible (one .terminator * K) := by simp [hK]
  have htail : EndsExpr (KStar.kstar (one .comma * declarator.language) * (one .terminator * K)) ∧
      Lacks (some .assign)
        (KStar.kstar (one .comma * declarator.language) * (one .terminator * K)) := by
    rw [kstar_mul_eq, mul_assoc]
    exact ⟨.of_avoids (possible_add.2 (Or.inl hmore)) (.add (.token rfl) (.token rfl)),
      .add (lacks_token (by decide)) (lacks_token (by decide))⟩
  rw [readDeclarators]
  refine .bind le_rfl (h.declarator_follows (by omega) htail.1 htail.2) fun _ rest hlen => ?_
  rw [kstar_mul_eq, mul_assoc]
  refine .skip? (Nat.zero_le 1) (by simp [hK]) (fun _ => .right (lacks_token (by decide)) .refl)
    (fun rest' hlen' => ?_) fun hne => ?_
  · rw [if_pos rfl]
    exact .bind (Nat.zero_le 1) (h.declarators_follows (by omega) hK) fun _ _ _ => .pure .refl
  · rw [if_neg Bool.false_ne_true]
    exact .pure (.left .refl (lacks_token hne))

theorem variables_succ [CharacterNames] (h : Recognizes n) (hn : 16 * ts.length < n + 1)
    (hK : Possible K) :
    Follows 1 (readVariables (n + 1)) ts (varDecl.language * (one .terminator * K))
      fun _ => K := by
  rw [readVariables, language_varDecl]
  refine .accept_bind le_rfl ⟨.constWord, rfl⟩ (by simp [hK]) fun t rest hlen => ?_
  refine .bind (Nat.zero_le 1) (h.declarators_follows (by omega) hK) fun _ rest' hlen' => ?_
  exact .expect_bind (Nat.zero_le 1) hK fun _ _ _ => .pure .refl

theorem function_succ [CharacterNames] (h : Recognizes n) (hn : 16 * ts.length < n + 1)
    (hK : Possible K) :
    Follows 1 (readFunction (n + 1)) ts (functionDecl.language * K) fun _ => K := by
  have hname : Possible (oneOf TokenKind.isBindingName) := possible_oneOf.2 ⟨.name, rfl⟩
  have hbody : Possible (block.language * K) := by simp [hK]
  rw [readFunction, language_functionDecl]
  refine .expect_bind le_rfl (by simp [hname, possible_listed hbody]) fun _ rest hlen => ?_
  refine .accept_bind (Nat.zero_le 1) ⟨.name, rfl⟩ (by simp [possible_listed hbody])
    fun _ rest' hlen' => ?_
  refine .expect_bind (Nat.zero_le 1) (possible_listed hbody) fun _ rest'' hlen'' => ?_
  refine .bind (Nat.zero_le 1) (.items (by omega) hname hbody (by decide)
    (fun _ => lacks_oneOf ?_) fun _ _ => .accept ⟨.name, rfl⟩ (possible_listTail hbody))
    fun _ rest₃ hlen₃ => ?_
  · rintro k ⟨⟩
    decide
  · exact .bind (Nat.zero_le 1) (h.block_follows (by omega) hK) fun _ _ _ => .pure .refl

theorem export_succ [CharacterNames] (h : Recognizes n) {o : Origin}
    (hn : 16 * ts.length + 1 < n + 1) (hK : Possible K) : Follows 1 (readExport (n + 1) o) ts
      (one .leftBrace * listed exportSpec.language .rightBrace true
          (one .fromWord * sourced K + one .terminator * K) +
        one .star * (one .fromWord * sourced K) + varDecl.language * (one .terminator * K) +
        functionDecl.language * K +
        one .defaultWord * (assignExpr.language * (one .terminator * K))) fun _ => K := by
  have hend : Possible (one .fromWord * sourced K + one .terminator * K) := by simp [hK]
  rw [readExport]
  refine .peek ?_
  split
  · rename_i hbrace
    refine .narrow_of_ahead hbrace (.left (.left (.left (.left .refl (lacks_token (by decide)))
      (Rule.lacks rfl (by decide))) (Rule.lacks rfl (by decide))) (lacks_token (by decide))) ?_
    exact .expect_bind le_rfl (possible_listed hend) fun _ rest hlen =>
      (follows_readExportList (by omega) hK).mono (Nat.zero_le 1)
  · rename_i hstar
    refine .narrow_of_ahead hstar (.left (.left (.left (.right (lacks_token (by decide)) .refl)
      (Rule.lacks rfl (by decide))) (Rule.lacks rfl (by decide))) (lacks_token (by decide))) ?_
    exact .expect_bind le_rfl (by simp [possible_sourced hK]) fun _ rest hlen =>
      (follows_readExportAll hK).mono (Nat.zero_le 1)
  · rename_i hfunction
    refine .narrow_of_ahead hfunction (.left (.right (.add (.add (lacks_token (by decide))
      (lacks_token (by decide))) (Rule.lacks rfl (by decide))) .refl) (lacks_token (by decide))) ?_
    exact .bind le_rfl (h.function_follows (by omega) hK) fun _ _ _ => .pure .refl
  · rename_i hdefault
    refine .narrow_of_ahead hdefault (.right (.add (.add (.add (lacks_token (by decide))
      (lacks_token (by decide))) (Rule.lacks rfl (by decide))) (Rule.lacks rfl (by decide)))
      .refl) ?_
    refine .expect_bind le_rfl (by simp [hK]) fun _ rest hlen => ?_
    refine .bind (Nat.zero_le 1) (h.expr_follows (by omega) (.token rfl hK)) fun _ rest' _ => ?_
    exact .expect_bind (Nat.zero_le 1) hK fun _ _ _ => .pure .refl
  · rename_i hbrace hstar hfunction hdefault
    have hnone : Lacks (ahead ts) (functionDecl.language * K) := by
      refine Rule.lacks rfl fun k hk heq => hfunction ?_
      rw [heq, List.mem_singleton.1 hk]
    refine .narrow (.left (.left (.right (.add (lacks_token hbrace) (lacks_token hstar)) .refl)
      hnone) (lacks_token hdefault)) ?_
    exact .bind le_rfl (h.variables_follows (by omega) hK) fun _ _ _ => .pure .refl

/-! ### Statements -/

theorem else_succ [CharacterNames] (h : Recognizes n) (hn : 16 * ts.length < n + 1)
    (hK : EndsStmt K) :
    Follows 0 (readElse (n + 1)) ts (K + one .elseWord * (stmt.language * K)) fun _ => K := by
  rw [readElse]
  refine .skip? (Nat.zero_le 1) (K := stmt.language * K) (by simp [hK.possible]) (fun _ => ?_)
    (fun rest hlen => ?_) fun hne => ?_
  · -- an `else` that may follow the choice is one that the choice may take
    refine .absorb .refl fun w hw hhead => ?_
    rcases w with _ | ⟨k, w⟩
    · cases hhead
    · obtain rfl := Option.some.inj hhead
      exact cons_mem_oneOf_mul.2 ⟨rfl, hK.absorbs w hw⟩
  · rw [if_pos rfl]
    exact .bind (Nat.zero_le 1) (h.stmt_follows (by omega) hK) fun _ _ _ => .pure .refl
  · rw [if_neg Bool.false_ne_true]
    exact .pure (.left .refl (lacks_token hne))

theorem stmt_succ [CharacterNames] (h : Recognizes n) (hn : 16 * ts.length + 11 < n + 1)
    (hK : EndsStmt K) :
    Follows 1 (readStmt (n + 1)) ts (stmt.language * K) fun _ => K := by
  have hpossible := hK.possible
  -- a declaration of variables, by any of its three words
  have variables' : ∀ {k : TokenKind}, ahead ts = some k →
      stmt.form.prune (· = k) = varDecl ++ TokenKind.terminator →
      Follows 1 (readVariables n >>= fun d => pure (ReadStmt.stmt (d.map .declaration))) ts
        (stmt.language * K) fun _ => K := by
    intro k hk hf
    refine .narrow_of_ahead hk (narrows_token rfl hf) ?_
    rw [language_append, language_rule, language_token, mul_assoc]
    exact .bind le_rfl (h.variables_follows (by omega) hpossible) fun _ _ _ => .pure .refl
  rw [readStmt]
  refine .peek ?_
  split
  · rename_i hterminator
    refine .narrow_of_ahead hterminator (narrows_token (f := TokenKind.terminator) rfl rfl) ?_
    rw [language_token]
    exact .expect_bind le_rfl hpossible fun _ _ _ => .pure .refl
  · rename_i himport
    refine .narrow_of_ahead himport (narrows_token (f := importStmt) rfl rfl) ?_
    rw [language_rule, language_importStmt]
    refine .expect_bind le_rfl (by simp [possible_sourced hpossible]) fun _ rest hlen => ?_
    exact .bind (Nat.zero_le 1) (follows_readImport (by omega) hpossible) fun _ _ _ => .pure .refl
  · rename_i hexport
    refine .narrow_of_ahead hexport (narrows_token (f := exportStmt) rfl rfl) ?_
    rw [language_rule, language_exportStmt]
    refine .expect_bind le_rfl (by simp [possible_sourced hpossible]) fun _ rest hlen => ?_
    exact .bind (Nat.zero_le 1) (h.export_follows (by omega) hpossible) fun _ _ _ => .pure .refl
  · rename_i hfunction
    refine .narrow_of_ahead hfunction (narrows_token (f := functionDecl) rfl rfl) ?_
    rw [language_rule]
    exact .bind le_rfl (h.function_follows (by omega) hpossible) fun _ _ _ => .pure .refl
  · rename_i hconst
    exact variables' hconst rfl
  · rename_i hlet
    exact variables' hlet rfl
  · rename_i hvar
    exact variables' hvar rfl
  · rename_i hbrace
    refine .narrow_of_ahead hbrace (narrows_token (f := block) rfl rfl) ?_
    rw [language_rule]
    exact .bind le_rfl (h.block_follows (by omega) hpossible) fun _ _ _ => .pure .refl
  · rename_i hreturn
    refine .narrow_of_ahead hreturn (narrows_token (f := returnStmt) rfl rfl) ?_
    rw [language_rule, language_returnStmt]
    refine .expect_bind le_rfl (by simp [hpossible]) fun _ rest hlen => ?_
    refine .skip? (Nat.zero_le 1) hpossible (fun _ => .left .refl (Rule.lacks rfl (by decide)))
      (fun rest' hlen' => ?_) fun hne => ?_
    · rw [if_pos rfl]
      exact .pure .refl
    · rw [if_neg Bool.false_ne_true]
      refine .narrow (.right (lacks_token hne) .refl) ?_
      refine .bind (Nat.zero_le 1) (h.expr_follows (by omega) (.token rfl hpossible))
        fun _ rest' _ => ?_
      exact .expect_bind (Nat.zero_le 1) hpossible fun _ _ _ => .pure .refl
  · rename_i hif
    refine .narrow_of_ahead hif (narrows_token (f := ifStmt) rfl rfl) ?_
    rw [language_rule, language_ifStmt]
    refine .expect_bind le_rfl (by simp [hpossible]) fun _ rest hlen => ?_
    refine .expect_bind (Nat.zero_le 1) (by simp [hpossible]) fun _ rest₂ hlen₂ => ?_
    refine .bind (Nat.zero_le 1) (h.expr_follows (by omega) (.token rfl (by simp [hpossible])))
      fun _ rest₃ hlen₃ => ?_
    refine .expect_bind (Nat.zero_le 1) (by simp [hpossible]) fun _ rest₄ hlen₄ => ?_
    refine .bind (Nat.zero_le 1) (h.stmt_follows (by omega) hK.branch) fun _ rest₅ hlen₅ => ?_
    exact .bind le_rfl (h.else_follows (by omega) hK) fun _ _ _ => .pure .refl
  · rename_i h₁ h₂ h₃ h₄ h₅ h₆ h₇ h₈ h₉ h₁₀
    have hexpr : ∀ k, ahead ts = some k → decide (k ∉ stmtMarks) := by
      intro k hk
      rw [decide_eq_true_eq]
      simp only [stmtMarks, List.mem_cons, List.not_mem_nil, or_false]
      rintro (rfl | rfl | rfl | rfl | rfl | rfl | rfl | rfl | rfl | rfl)
      exacts [h₁ hk, h₂ hk, h₃ hk, h₄ hk, h₅ hk, h₆ hk, h₇ hk, h₈ hk, h₉ hk, h₁₀ hk]
    refine .narrow (narrows_rule (f := exprStmt) _ rfl rfl hexpr) ?_
    rw [language_rule, language_exprStmt]
    refine .bind le_rfl (h.expr_follows (by omega) (.token rfl hpossible)) fun _ rest hlen => ?_
    exact .expect_bind (Nat.zero_le 1) hpossible fun _ _ _ => .pure .refl

end Recognizes

/-- **At every bound the readers follow their rules.** -/
theorem recognizes [CharacterNames] (n : Nat) : Recognizes n := by
  induction n with
  | zero => constructor <;> intros <;> omega
  | succ n h =>
    exact
      { expr_follows := h.expr_succ
        arrowBody_follows := h.arrowBody_succ
        conditional_follows := h.conditional_succ
        binary_follows := h.binary_succ
        operators_follows := h.operators_succ
        unary_follows := h.unary_succ
        suffixes_follows := h.suffixes_succ
        primary_follows := h.primary_succ
        property_follows := h.property_succ
        block_follows := h.block_succ
        untilBrace_follows := h.untilBrace_succ
        declarator_follows := h.declarator_succ
        declarators_follows := h.declarators_succ
        variables_follows := h.variables_succ
        function_follows := h.function_succ
        export_follows := h.export_succ
        else_follows := h.else_succ
        stmt_follows := h.stmt_succ }

end MessageBinder
