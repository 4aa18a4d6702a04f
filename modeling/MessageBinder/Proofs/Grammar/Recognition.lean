import MessageBinder.Proofs.Grammar.Layers

/-!
# The descent follows the rules

Every reader of the descent follows its rule, whatever stands behind it. They call one another, so
this is one induction on the bound on their depth: `MessageBinder.Recognizes` collects what is
claimed of all of them at one bound, and each reader has a lemma that takes it from one bound to the
next. A bound is enough if it exceeds sixteen times the tokens by the rank of the reader; readers
that call another one before they take a token have the greater rank.

What decides about the second branch of a choice between statements is again what follows: where an
`else` may stand behind the statement, it must be one that the rules derive as its own.
-/

namespace MessageBinder

variable [CharacterNames]

open Token (kinds ahead)
open Form (language_rule language_token language_append language_or language_optional language_many)
open Rule
open Parse (Follows items)

variable {ts : List Token} {K M A : Language TokenKind} {n l : Nat}

/-- What follows a statement: behind an `else` stand a statement and what follows it. -/
structure EndsStmt (K : Language TokenKind) : Prop where
  /-- Something can follow. -/
  possible : Possible K
  /-- The branch behind an `else` can be the branch of the statement. -/
  absorbs : ∀ w, .elseWord :: w ∈ K → w ∈ stmt.language * K

/-- The kinds by which a primary expression is told from a name. -/
def primaryMarks : List TokenKind :=
  [.string, .number, .trueWord, .falseWord, .nullWord, .leftBracket, .leftBrace, .leftParen]

/-- At this bound on the depth the readers follow their rules. -/
structure Recognizes (n : Nat) : Prop where
  expr_follows {ts : List Token} {K : Language TokenKind} (hn : 16 * ts.length + 10 < n)
    (hK : EndsExpr K) : Follows 1 (readExpr n) ts (assignExpr.language * K) fun _ => K
  arrowBody_follows {ts : List Token} {K : Language TokenKind} (hn : 16 * ts.length + 11 < n)
    (hK : EndsExpr K) : Follows 1 (readArrowBody n) ts (arrowBody.language * K) fun _ => K
  conditional_follows {ts : List Token} {K M : Language TokenKind} (hn : 16 * ts.length + 9 < n)
    (hK : EndsExpr K) (hM : Arrows M) : Follows 1 (readConditional n) ts
      (conditional.language * K + arrowParams.language * M) (Reading.after K M)
  binary_follows {ts : List Token} {K M : Language TokenKind} {l : Nat} (hl : l ≤ loosest)
    (hn : 16 * ts.length + 2 + l < n) (hK : Possible K) (havoid : Avoids l K) (hM : Arrows M) :
    Follows 1 (readBinary n l) ts ((levelRule l).language * K + arrowParams.language * M)
      (Reading.after K M)
  operators_follows {ts : List Token} {K M : Language TokenKind} {l : Nat} {left : Reading}
    (hl : l < loosest) (hn : 16 * ts.length < n) (hK : Possible K) (havoid : Avoids (l + 1) K)
    (hM : Arrows M) : Follows 0 (readOperators n l left) ts
      (left.after (KStar.kstar (operation l) * K) M) (Reading.after K M)
  unary_follows {ts : List Token} {K M : Language TokenKind} (hn : 16 * ts.length + 1 < n)
    (hK : Possible K) (havoid : Avoids 0 K) (hM : Arrows M) : Follows 1 (readUnary n) ts
      (unary.language * K + arrowParams.language * M) (Reading.after K M)
  suffixes_follows {ts : List Token} {K M : Language TokenKind} {left : Reading}
    (hn : 16 * ts.length < n) (hK : Possible K) (havoid : Avoids 0 K) (hM : Arrows M) :
    Follows 0 (readSuffixes n left) ts (left.after (KStar.kstar suffix * K) M) (Reading.after K M)
  primary_follows {ts : List Token} {K M : Language TokenKind} (hn : 16 * ts.length < n)
    (hK : Possible K) : Follows 1 (readPrimary n) ts
      (primary.language * K + arrowParams.language * M) (Reading.after K M)
  property_follows {ts : List Token} {K : Language TokenKind} (hn : 16 * ts.length < n)
    (hK : EndsExpr K) (hcolon : Lacks (some .colon) K) :
    Follows 1 (readProperty n) ts (property.language * K) fun _ => K
  block_follows {ts : List Token} {K : Language TokenKind} (hn : 16 * ts.length < n)
    (hK : Possible K) :
    Follows 1 (readBlock n) ts (block.language * K) fun _ => K
  untilBrace_follows {ts : List Token} {K : Language TokenKind} (hn : 16 * ts.length + 12 < n)
    (hK : Possible K) : Follows 1 (readUntilBrace n) ts
      (KStar.kstar stmt.language * (one .rightBrace * K)) fun _ => K
  declarator_follows {ts : List Token} {K : Language TokenKind} (hn : 16 * ts.length < n)
    (hK : EndsExpr K) (hassign : Lacks (some .assign) K) :
    Follows 1 (readDeclarator n) ts (declarator.language * K) fun _ => K
  declarators_follows {ts : List Token} {K : Language TokenKind} (hn : 16 * ts.length + 1 < n)
    (hK : Possible K) : Follows 1 (readDeclarators n) ts (declarator.language *
      (KStar.kstar (one .comma * declarator.language) * (one .terminator * K)))
      fun _ => one .terminator * K
  variables_follows {ts : List Token} {K : Language TokenKind} (hn : 16 * ts.length < n)
    (hK : Possible K) : Follows 1 (readVariables n) ts
      (varDecl.language * (one .terminator * K)) fun _ => K
  function_follows {ts : List Token} {K : Language TokenKind} (hn : 16 * ts.length < n)
    (hK : Possible K) : Follows 1 (readFunction n) ts (functionDecl.language * K) fun _ => K
  export_follows {ts : List Token} {K : Language TokenKind} {o : Origin}
    (hn : 16 * ts.length + 1 < n)
    (hK : Possible K) : Follows 1 (readExport n o) ts
      (one .leftBrace * listed exportSpec.language .rightBrace true
          (one .fromWord * sourced K + one .terminator * K) +
        one .star * (one .fromWord * sourced K) + varDecl.language * (one .terminator * K) +
        functionDecl.language * K +
        one .defaultWord * (assignExpr.language * (one .terminator * K))) fun _ => K
  else_follows {ts : List Token} {K : Language TokenKind} (hn : 16 * ts.length < n)
    (hK : EndsStmt K) : Follows 0 (readElse n) ts
      (K + one .elseWord * (stmt.language * K)) fun _ => K
  stmt_follows {ts : List Token} {K : Language TokenKind} (hn : 16 * ts.length + 11 < n)
    (hK : EndsStmt K) : Follows 1 (readStmt n) ts (stmt.language * K) fun _ => K

namespace Recognizes

/-! ### Expressions -/

theorem expr_succ (h : Recognizes n) (hn : 16 * ts.length + 10 < n + 1) (hK : EndsExpr K) :
    Follows 1 (readExpr (n + 1)) ts (assignExpr.language * K) fun _ => K := by
  have hbody : Possible (arrowBody.language * K) := by simp [hK.possible]
  have hvalue : Possible (assignExpr.language * K) := by simp [hK.possible]
  rw [readExpr, language_assignExpr]
  refine .bind le_rfl (h.conditional_follows (by omega) hK.assign arrows_token)
    fun left rest hlen => ?_
  refine .peek ?_
  split
  · -- an arrow takes what stands before it for its parameters, or it cannot stand here
    rename_i harrow
    have hnone : Lacks (some .arrow)
        (K + oneOf TokenKind.isAssignment * (assignExpr.language * K)) := hK.assign.noArrow
    split
    · rename_i params hparams
      rw [Reading.after_of_isSome (by rw [hparams]; rfl)]
      refine .narrow_of_ahead harrow (.right hnone .refl) ?_
      refine .expect_bind (Nat.zero_le 1) hbody fun _ rest' hlen' => ?_
      exact .bind (Nat.zero_le 1) (h.arrowBody_follows (by omega) hK) fun _ _ _ => .pure .refl
    · rename_i hparams
      rw [Reading.after, if_neg (by simp [hparams])]
      refine .pure (harrow ▸ .left .refl (lacks_oneOf fun k hk hassign => ?_))
      obtain rfl := Option.some.inj hk
      exact absurd hassign (by decide)
  · rename_i kind hne hkind
    have hother : ahead rest ≠ some .arrow := fun heq => hne (Option.some.inj (hkind ▸ heq))
    split
    · rename_i hassign
      refine .narrow (.after hother arrows_token (.absorb .refl fun w hw hhead => ?_))
        (.accept_bind (Nat.zero_le 1) ⟨.assign, rfl⟩ hvalue fun op rest' hlen' =>
          .bind (Nat.zero_le 1) (h.expr_follows (by omega) hK) fun _ _ _ => .pure .refl)
      -- what follows may assign as well, and then it is derived by the assignment too
      rcases w with _ | ⟨k, w⟩
      · rw [hkind] at hhead
        cases hhead
      · obtain rfl : k = kind := Option.some.inj (hhead.trans hkind)
        exact cons_mem_oneOf_mul.2 ⟨hassign, hK.absorbs k w hassign hw⟩
    · rename_i hassign
      refine .pure (.after hother arrows_token (.left .refl (lacks_oneOf fun k hk => ?_)))
      obtain rfl : kind = k := Option.some.inj (hkind.symm.trans hk)
      exact hassign
  · rename_i hnone
    refine .pure (.after (by simp [hnone]) arrows_token (.left .refl (lacks_oneOf ?_)))
    simp [hnone]

theorem arrowBody_succ (h : Recognizes n) (hn : 16 * ts.length + 11 < n + 1) (hK : EndsExpr K) :
    Follows 1 (readArrowBody (n + 1)) ts (arrowBody.language * K) fun _ => K := by
  rw [readArrowBody, language_arrowBody, add_mul]
  refine .peek ?_
  split
  · rename_i hbrace
    refine .narrow_of_ahead hbrace (.left .refl (Rule.lacks rfl (by decide))) ?_
    exact .bind le_rfl (h.block_follows (by omega) hK.possible) fun _ _ _ => .pure .refl
  · rename_i hbrace
    refine .narrow (.right (Rule.lacks rfl ?_) .refl) ?_
    · rintro k hk
      obtain rfl := List.mem_singleton.1 hk
      exact hbrace
    · exact .bind le_rfl (h.expr_follows (by omega) hK) fun _ _ _ => .pure .refl

theorem conditional_succ (h : Recognizes n) (hn : 16 * ts.length + 9 < n + 1) (hK : EndsExpr K)
    (hM : Arrows M) : Follows 1 (readConditional (n + 1)) ts
      (conditional.language * K + arrowParams.language * M) (Reading.after K M) := by
  have hchoice : Possible (assignExpr.language * (one .colon * (assignExpr.language * K))) := by
    simp [hK.possible]
  have havoid : Avoids loosest
      (K + one .question * (assignExpr.language * (one .colon * (assignExpr.language * K)))) :=
    .add (fun k hk => hK.avoids k (by cases k <;> first | rfl | exact absurd hk (by decide)))
      (.token rfl)
  rw [readConditional, language_conditional]
  refine .bind le_rfl (h.binary_follows (l := loosest) le_rfl (by simp only [loosest]; omega)
    (possible_add.2 (Or.inl hK.possible)) havoid hM) fun test rest hlen => ?_
  refine .skip? (Nat.zero_le 1) hchoice (fun _ => ?_) (fun rest' hlen' => ?_) fun hne => ?_
  · exact .after (by decide) hM (.right (hK.avoids .question rfl) .refl)
  · rw [if_pos rfl]
    refine .bind (Nat.zero_le 1) (h.expr_follows (by omega) (.token rfl (by simp [hK.possible])))
      fun _ rest'' hlen'' => ?_
    refine .expect_bind (Nat.zero_le 1) (by simp [hK.possible]) fun _ rest₃ hlen₃ => ?_
    refine .bind (Nat.zero_le 1) (h.expr_follows (by omega) hK) fun _ _ _ => .pure ?_
    rw [Reading.after_of_other rfl]
    exact .refl
  · rw [if_neg Bool.false_ne_true]
    exact .pure (.after_after (.left .refl (lacks_token hne)))

/-- Operands behind which no arrow can come. -/
theorem operand (h : Recognizes n) (hl : l ≤ loosest) (hn : 16 * ts.length + 2 + l < n)
    (hK : Possible K) (havoid : Avoids l K) :
    Follows 1 (readBinary n l) ts ((levelRule l).language * K) fun _ => K := by
  have hbinary := h.binary_follows hl hn hK havoid arrows_zero
  rwa [mul_zero, add_zero, Reading.after_zero] at hbinary

theorem binary_succ (h : Recognizes n) (hl : l ≤ loosest) (hn : 16 * ts.length + 2 + l < n + 1)
    (hK : Possible K) (havoid : Avoids l K) (hM : Arrows M) :
    Follows 1 (readBinary (n + 1) l) ts ((levelRule l).language * K + arrowParams.language * M)
      (Reading.after K M) := by
  cases l with
  | zero =>
    rw [readBinary]
    exact h.unary_follows (by omega) hK havoid hM
  | succ l =>
    rw [readBinary, language_levelRule hl, mul_assoc]
    refine .bind le_rfl (h.binary_follows (Nat.le_of_succ_le hl) (by omega)
      (possible_mul.2 ⟨possible_kstar, hK⟩) havoid.operations hM) fun left rest hlen => ?_
    exact h.operators_follows hl (by omega) hK havoid hM

theorem operators_succ (h : Recognizes n) {left : Reading} (hl : l < loosest)
    (hn : 16 * ts.length < n + 1) (hK : Possible K) (havoid : Avoids (l + 1) K) (hM : Arrows M) :
    Follows 0 (readOperators (n + 1) l left) ts (left.after (KStar.kstar (operation l) * K) M)
      (Reading.after K M) := by
  have hmore : Possible (KStar.kstar (operation l) * K) := possible_mul.2 ⟨possible_kstar, hK⟩
  rw [readOperators, kstar_mul_eq, operation, mul_assoc, ← operation]
  refine .peek ?_
  split
  · rename_i hop
    obtain ⟨k, hk, hloose⟩ := Option.bind_eq_some_iff.1 hop
    refine .narrow_of_ahead hk (.after ?_ hM (.right ?_ .refl)) ?_
    · rintro ⟨⟩
      cases hloose
    · exact havoid k (TokenKind.carriesOn_of_looseness hloose).1
    · refine .accept_bind (Nat.zero_le 1) ⟨k, decide_eq_true hloose⟩ ?_ fun op rest hlen => ?_
      · exact possible_mul.2 ⟨Rule.possible _, hmore⟩
      refine .bind (Nat.zero_le 1) (h.operand (Nat.le_of_lt hl) ?_ hmore havoid.operations)
        fun right rest' hlen' => ?_
      · simp only [loosest] at hl
        omega
      have hnext : Follows 0 (readOperators n l (left.binary op right)) rest'
          ((left.binary op right).after (KStar.kstar (operation l) * K) M) (Reading.after K M) :=
        h.operators_follows hl (by omega) hK havoid hM
      rwa [Reading.after_of_other rfl] at hnext
  · rename_i hop
    refine .pure (.after_after (.left .refl (lacks_oneOf fun k hk hloose => hop ?_)))
    rw [show _ = some k from hk]
    exact of_decide_eq_true hloose

theorem unary_succ (h : Recognizes n) (hn : 16 * ts.length + 1 < n + 1) (hK : Possible K)
    (havoid : Avoids 0 K) (hM : Arrows M) : Follows 1 (readUnary (n + 1)) ts
      (unary.language * K + arrowParams.language * M) (Reading.after K M) := by
  -- neither a suffixed expression nor the parameters of an arrow start with an operator
  have noOperator : ∀ {r : Rule} {A : Language TokenKind}, r.nullable = false →
      (∀ k ∈ r.first, k.isUnary = false) → ∀ k, k.isUnary → Lacks (some k) (r.language * A) := by
    intro r A hr hfirst k hk
    refine Rule.lacks hr fun k' hk' heq => ?_
    obtain rfl := Option.some.inj heq
    rw [hfirst k hk'] at hk
    cases hk
  rw [readUnary, language_unary, add_mul, mul_assoc]
  refine .peek ?_
  split
  · rename_i hunary
    obtain ⟨k, hk, hop⟩ := (Option.any_eq_true _ _).1 hunary
    refine .narrow_of_ahead hk (.left (.left .refl (noOperator rfl (by decide) k hop))
      (noOperator rfl (by decide) k hop)) ?_
    refine .accept_bind le_rfl ⟨.bang, rfl⟩ (by simp [hK]) fun op rest hlen => ?_
    have hoperand : Follows 1 (readUnary n) rest
        (unary.language * K + arrowParams.language * 0) (Reading.after K 0) :=
      h.unary_follows (by omega) hK havoid arrows_zero
    rw [mul_zero, add_zero, Reading.after_zero] at hoperand
    refine .bind (Nat.zero_le 1) hoperand fun _ _ _ => .pure ?_
    rw [Reading.after_of_other rfl]
    exact .refl
  · rename_i hunary
    refine .narrow (.add (.right (lacks_oneOf fun k hk hop => hunary ?_) .refl) .refl) ?_
    · rw [show _ = some k from hk]
      exact hop
    · rw [language_suffixed, mul_assoc]
      exact .bind le_rfl (h.primary_follows (by omega) (by simp [hK])) fun left rest hlen =>
        h.suffixes_follows (by omega) hK havoid hM

/-- Suffixes behind what is not the parameters of an arrow. -/
theorem moreSuffixes (h : Recognizes n) {left : Reading} (hleft : left.shape = .other)
    (hn : 16 * ts.length < n) (hK : Possible K) (havoid : Avoids 0 K) (hM : Arrows M) :
    Follows 0 (readSuffixes n left) ts (KStar.kstar suffix * K) (Reading.after K M) := by
  have hsuffixes : Follows 0 (readSuffixes n left) ts (left.after (KStar.kstar suffix * K) M)
      (Reading.after K M) := h.suffixes_follows hn hK havoid hM
  rwa [Reading.after_of_other hleft] at hsuffixes

/-- The expressions of a list with their closing token. -/
theorem exprs (h : Recognizes n) {close : TokenKind} {trailing : Bool}
    (hn : 16 * ts.length + 10 < n) (hclose : close.carriesOn exprLevel = false)
    (hcomma : close ≠ .comma) (hfirst : close ∉ assignExpr.first) (hK : Possible K) :
    Follows 1 (items (readExpr n) close trailing n) ts
      (listed assignExpr.language close trailing K) fun _ => K := by
  refine .items (by omega) (Rule.possible _) hK hcomma (fun _ => Rule.lacks rfl fun k hk heq => ?_)
    fun rest hrest => h.expr_follows (by omega) (.listTail hclose hK)
  obtain rfl := Option.some.inj heq
  exact hfirst hk

theorem suffixes_succ (h : Recognizes n) {left : Reading} (hn : 16 * ts.length < n + 1)
    (hK : Possible K) (havoid : Avoids 0 K) (hM : Arrows M) :
    Follows 0 (readSuffixes (n + 1) left) ts (left.after (KStar.kstar suffix * K) M)
      (Reading.after K M) := by
  have hmore : Possible (KStar.kstar suffix * K) := possible_mul.2 ⟨possible_kstar, hK⟩
  rw [readSuffixes, kstar_suffix_mul]
  refine .peek ?_
  split
  · rename_i hdot
    refine .narrow_of_ahead hdot (.after (by decide) hM (.right (havoid _ rfl)
      (.left (.left .refl (lacks_token (by decide))) (lacks_token (by decide))))) ?_
    refine .expect_bind (Nat.zero_le 1) (possible_mul.2 ⟨possible_token, hmore⟩)
      fun _ rest hlen => ?_
    exact .expect_bind (Nat.zero_le 1) hmore fun _ rest' hlen' =>
      h.moreSuffixes rfl (by omega) hK havoid hM
  · rename_i hbracket
    refine .narrow_of_ahead hbracket (.after (by decide) hM (.right (havoid _ rfl)
      (.left (.right (lacks_token (by decide)) .refl) (lacks_token (by decide))))) ?_
    refine .expect_bind (Nat.zero_le 1) (by simp [hmore]) fun _ rest hlen => ?_
    refine .bind (Nat.zero_le 1) (h.expr_follows (by omega) (.token rfl hmore))
      fun i rest' hlen' => ?_
    exact .expect_bind (Nat.zero_le 1) hmore fun _ rest'' hlen'' =>
      h.moreSuffixes rfl (by omega) hK havoid hM
  · rename_i hparen
    refine .narrow_of_ahead hparen (.after (by decide) hM (.right (havoid _ rfl)
      (.right (.add (lacks_token (by decide)) (lacks_token (by decide))) .refl))) ?_
    refine .expect_bind (Nat.zero_le 1) (possible_listed hmore) fun _ rest hlen => ?_
    exact .bind (Nat.zero_le 1) (h.exprs (by omega) rfl (by decide) (by decide) hmore)
      fun args rest' hlen' => h.moreSuffixes rfl (by omega) hK havoid hM
  · rename_i hdot hbracket hparen
    exact .pure (.after_after (.left .refl (.add (.add (lacks_token hdot) (lacks_token hbracket))
      (lacks_token hparen))))

theorem primary_succ (h : Recognizes n) (hn : 16 * ts.length < n + 1) (hK : Possible K) :
    Follows 1 (readPrimary (n + 1)) ts
      (primary.language * K + arrowParams.language * M) (Reading.after K M) := by
  -- what starts with a kind that starts no parameters
  have alone : ∀ {k : TokenKind} {f : Form}, ahead ts = some k → k ∉ arrowParams.first →
      primary.form.prune (· = k) = f →
      Narrows (some k) (primary.language * K + arrowParams.language * M) (f.language * K) := by
    intro k f _ hk hf
    refine .left (narrows_token rfl hf) (Rule.lacks rfl fun k' hk' heq => hk ?_)
    obtain rfl := Option.some.inj heq
    exact hk'
  have literal : ∀ {k : TokenKind} {g : Token → Reading}, ahead ts = some k →
      k ∉ arrowParams.first → primary.form.prune (· = k) = .token k → (∀ t, (g t).shape = .other) →
      Follows 1 (Parse.expect k >>= fun t => pure (g t)) ts
        (primary.language * K + arrowParams.language * M) (Reading.after K M) := by
    intro k g hts hk hf hg
    refine .narrow_of_ahead hts (alone hts hk hf) ?_
    rw [language_token]
    refine .expect_bind le_rfl hK fun t _ _ => .pure ?_
    rw [Reading.after_of_other (hg t)]
    exact .refl
  rw [readPrimary]
  refine .peek ?_
  split
  · rename_i hstring
    exact literal hstring (by decide) rfl fun _ => rfl
  · rename_i hnumber
    exact literal hnumber (by decide) rfl fun _ => rfl
  · rename_i htrue
    exact literal htrue (by decide) rfl fun _ => rfl
  · rename_i hfalse
    exact literal hfalse (by decide) rfl fun _ => rfl
  · rename_i hnull
    exact literal hnull (by decide) rfl fun _ => rfl
  · rename_i hbracket
    refine .narrow_of_ahead hbracket (alone (f := array) hbracket (by decide) rfl) ?_
    rw [language_rule, language_array]
    refine .expect_bind le_rfl (possible_listed hK) fun _ rest hlen => ?_
    refine .bind (Nat.zero_le 1) (h.exprs (by omega) rfl (by decide) (by decide) hK) fun _ _ _ =>
      .pure ?_
    rw [Reading.after_of_other rfl]
    exact .refl
  · rename_i hbrace
    refine .narrow_of_ahead hbrace (alone (f := object) hbrace (by decide) rfl) ?_
    rw [language_rule, language_object]
    refine .expect_bind le_rfl (possible_listed hK) fun _ rest hlen => ?_
    refine .bind (Nat.zero_le 1) (.items (by omega) (Rule.possible _) hK (by decide)
      (fun _ => Rule.lacks rfl (by decide)) fun rest' hlen' => h.property_follows (by omega)
        (.listTail rfl hK) (lacks_listTail (by decide) (by decide))) fun _ _ _ => .pure ?_
    rw [Reading.after_of_other rfl]
    exact .refl
  · -- a grouping, or the parameters of an arrow
    rename_i hparen
    refine .narrow_of_ahead hparen ((narrows_token (f := paren) rfl rfl).add
      (narrows_token (f := paren) rfl rfl)) ?_
    rw [language_rule, ← mul_add, language_paren]
    refine .expect_bind le_rfl (possible_listed (possible_add.2 (Or.inl hK)))
      fun _ rest hlen => ?_
    refine .bind (Nat.zero_le 1) (h.exprs (by omega) rfl (by decide) (by decide)
      (possible_add.2 (Or.inl hK))) fun _ _ _ => .pure ?_
    rw [Reading.after_of_isSome rfl]
    exact .refl
  · -- a name, or the one parameter of an arrow
    rename_i h₁ h₂ h₃ h₄ h₅ h₆ h₇ h₈
    have hname : ∀ k, ahead ts = some k → decide (k ∉ primaryMarks) := by
      intro k hk
      rw [decide_eq_true_eq]
      simp only [primaryMarks, List.mem_cons, List.not_mem_nil, or_false]
      rintro (rfl | rfl | rfl | rfl | rfl | rfl | rfl | rfl)
      exacts [h₁ hk, h₂ hk, h₃ hk, h₄ hk, h₅ hk, h₆ hk, h₇ hk, h₈ hk]
    refine .narrow ((narrows_rule (f := binding) _ rfl rfl hname).add
      (narrows_rule (f := binding) _ rfl rfl hname)) ?_
    rw [language_rule, language_binding, ← mul_add]
    refine .accept_bind le_rfl ⟨.name, rfl⟩ (possible_add.2 (Or.inl hK)) fun _ _ _ => .pure ?_
    rw [Reading.after_of_isSome rfl]
    exact .refl

theorem property_succ (h : Recognizes n) (hn : 16 * ts.length < n + 1) (hK : EndsExpr K)
    (hcolon : Lacks (some .colon) K) :
    Follows 1 (readProperty (n + 1)) ts (property.language * K) fun _ => K := by
  rw [readProperty, language_property]
  refine .peek ?_
  split
  · rename_i hstring
    refine .narrow_of_ahead hstring (.left .refl (lacks_oneOf fun k hk hname => ?_)) ?_
    · obtain rfl := Option.some.inj hk
      exact absurd hname (by decide)
    refine .expect_bind le_rfl (by simp [hK.possible]) fun _ rest hlen => ?_
    refine .expect_bind (Nat.zero_le 1) (by simp [hK.possible]) fun _ rest' hlen' => ?_
    exact .bind (Nat.zero_le 1) (h.expr_follows (by omega) hK) fun _ _ _ => .pure .refl
  · rename_i hstring
    refine .narrow (.right (lacks_token hstring) .refl) ?_
    refine .accept_bind le_rfl ⟨.name, rfl⟩ (possible_add.2 (Or.inl hK.possible))
      fun _ rest hlen => ?_
    refine .skip? (Nat.zero_le 1) (K := assignExpr.language * K) (by simp [hK.possible])
      (fun _ => .right hcolon .refl) (fun rest' hlen' => ?_) fun hne => ?_
    · rw [if_pos rfl]
      exact .bind (Nat.zero_le 1) (h.expr_follows (by omega) hK) fun _ _ _ => .pure .refl
    · rw [if_neg Bool.false_ne_true]
      exact .pure (.left .refl (lacks_token hne))

end Recognizes

end MessageBinder
