import MessageBinder.Proofs.Grammar.Clauses

/-!
# The layers of expressions against the rules

The rules of operators and suffixes are left-recursive, and the readers are loops; Arden's lemma
turns the one into the other. Two things do not go layer by layer.

An arrow takes as its parameters what may just as well be the beginning of a conditional, and which
of the two it is shows only behind the closing parenthesis. So every layer is compared with a sum:
what the layer derives, and the parameters of an arrow with what stands behind them. Whether the
second is still open after reading is what the shape of the reading says, see
`MessageBinder.Reading.after`.

And where an expression ends at its alternate, what looks like an assignment to the whole choice is
read as one to the alternate. `MessageBinder.EndsExpr` asks of what follows an expression that
nothing in it carries the expression on, assignments apart, and of these that the rules derive them
the other way too.
-/

namespace MessageBinder

open Token (kinds ahead)
open Form (language_rule language_token language_append language_or language_optional language_many)
open Rule

variable {K K' M A B : Language TokenKind} {h : Option TokenKind} {l : Nat}

/-! ### Operators -/

/-- Arden's lemma for left recursion. -/
theorem eq_mul_kstar {Λ : Language TokenKind} (hΛ : Λ = A + Λ * B) (hB : [] ∉ B) :
    Λ = A * KStar.kstar B := by
  have hreverse : Λ.reverse = B.reverse * Λ.reverse + A.reverse := by
    conv_lhs => rw [hΛ]
    rw [Language.reverse_add, Language.reverse_mul, add_comm]
  have hnil : [] ∉ B.reverse := hB
  have hstar := (Language.self_eq_mul_add_iff hnil).1 hreverse
  rw [← Language.reverse_reverse Λ, hstar, Language.reverse_mul, Language.reverse_kstar,
    Language.reverse_reverse, Language.reverse_reverse]

theorem nil_notMem_oneOf_mul {admits : TokenKind → Bool} : [] ∉ oneOf admits * K := by
  intro hw
  obtain ⟨_, _, -, -, heq⟩ := mem_oneOf_mul.1 hw
  cases heq

/-- The rule of the operands and operators that bind as loosely as given, or more tightly. -/
def levelRule : Nat → Rule
  | 0 => unary
  | 1 => multiplicative
  | 2 => additive
  | 3 => relational
  | 4 => equality
  | 5 => logicalAnd
  | _ => logicalOr

/-- The operators that bind just more loosely than given. -/
def operatorForm : Nat → Form
  | 0 => multiplicativeOp
  | 1 => additiveOp
  | 2 => relationalOp
  | 3 => equalityOp
  | 4 => TokenKind.both
  | _ => TokenKind.either

theorem form_levelRule : ∀ {l}, l < loosest → (levelRule (l + 1)).form =
    levelRule l ||| levelRule (l + 1) ++ operatorForm l ++ levelRule l
  | 0, _ | 1, _ | 2, _ | 3, _ | 4, _ | 5, _ => rfl

theorem language_operatorForm : ∀ {l}, l < loosest →
    (operatorForm l).language = oneOf fun k => k.looseness? = some (l + 1)
  | 0, _ | 1, _ | 2, _ | 3, _ | 4, _ | 5, _ => by
    simp only [operatorForm, language_rule, Rule.language, Rule.form, language_or, language_token,
      oneOf_add]
    exact congrArg oneOf (funext fun k => by cases k <;> rfl)

/-- An operator that binds just more loosely than given, with its right operand. -/
def operation (l : Nat) : Language TokenKind :=
  oneOf (fun k => k.looseness? = some (l + 1)) * (levelRule l).language

/-- **A level is its first operand and then operators with their right operands.** -/
theorem language_levelRule (hl : l < loosest) :
    (levelRule (l + 1)).language = (levelRule l).language * KStar.kstar (operation l) := by
  refine eq_mul_kstar ?_ nil_notMem_oneOf_mul
  change (levelRule (l + 1)).form.language = _
  rw [form_levelRule hl]
  simp only [language_append, language_or, language_rule, language_operatorForm hl, operation,
    mul_assoc]

theorem language_unary : unary.language =
    oneOf TokenKind.isUnary * unary.language + suffixed.language := by
  have hop : unaryOp.language = oneOf TokenKind.isUnary := by
    change unaryOp.form.language = _
    simp only [Rule.form, language_or, language_token, oneOf_add]
    exact congrArg oneOf (funext fun k => by cases k <;> rfl)
  change unary.form.language = _
  simp only [Rule.form, language_append, language_or, language_rule, hop]
  exact add_comm _ _

/-! ### Suffixes -/

theorem listed_mul {close : TokenKind} {trailing : Bool} :
    listed A close trailing K * K' = listed A close trailing (K * K') := by
  simp only [listed_eq, mul_assoc]

theorem language_expr : expr.language = assignExpr.language := by
  change expr.form.language = _
  rw [Rule.form, language_rule]

/-- A member, an element or a call. -/
def suffix : Language TokenKind :=
  one .dot * one .name + one .leftBracket * (assignExpr.language * one .rightBracket) +
    one .leftParen * listed assignExpr.language .rightParen false 1

theorem nil_notMem_suffix : [] ∉ suffix := by
  rintro ((hw | hw) | hw) <;> exact nil_notMem_oneOf_mul hw

/-- **An expression with suffixes is a primary one and then suffixes.** -/
theorem language_suffixed : suffixed.language = primary.language * KStar.kstar suffix := by
  refine eq_mul_kstar ?_ nil_notMem_suffix
  have harguments : arguments.language = assignExpr.language *
      KStar.kstar (one .comma * assignExpr.language) := by
    change arguments.form.language = _
    simp only [Rule.form, language_append, language_many, language_token, language_rule]
  change suffixed.form.language = _
  simp only [Rule.form, language_append, language_or, language_optional, language_token,
    language_rule, language_expr, harguments, suffix, listed_eq, Bool.false_eq_true, if_false,
    mul_add, add_mul, mul_one, one_mul, mul_assoc, add_assoc]

theorem kstar_mul_eq : KStar.kstar A * K = K + A * (KStar.kstar A * K) := by
  conv_lhs => rw [← Language.one_add_self_mul_kstar_eq_kstar, add_mul, one_mul, mul_assoc]

/-- What can stand behind a primary expression. -/
theorem kstar_suffix_mul : KStar.kstar suffix * K =
    K + (one .dot * (one .name * (KStar.kstar suffix * K)) +
      one .leftBracket * (assignExpr.language * (one .rightBracket * (KStar.kstar suffix * K))) +
      one .leftParen * listed assignExpr.language .rightParen false (KStar.kstar suffix * K)) := by
  conv_lhs => rw [kstar_mul_eq]
  rw [suffix, add_mul, add_mul, mul_assoc, mul_assoc, mul_assoc, mul_assoc, listed_mul, one_mul]

/-! ### The loosest layers -/

theorem language_assignOp : assignOp.language = oneOf TokenKind.isAssignment := by
  change assignOp.form.language = _
  simp only [Rule.form, language_or, language_token, oneOf_add]
  exact congrArg oneOf (funext fun k => by cases k <;> rfl)

theorem language_assignExpr : assignExpr.language * K =
    conditional.language * (K + oneOf TokenKind.isAssignment * (assignExpr.language * K)) +
      arrowParams.language * (one .arrow * (arrowBody.language * K)) := by
  have harrow : arrowFunction.language =
      arrowParams.language * (one .arrow * arrowBody.language) := by
    change arrowFunction.form.language = _
    simp only [Rule.form, language_append, language_token, language_rule, mul_assoc]
  change assignExpr.form.language * K = _
  simp only [Rule.form, language_append, language_or, language_rule, language_assignOp, harrow,
    mul_add, add_mul, mul_assoc]
  abel

theorem language_conditional : conditional.language * K =
    logicalOr.language * (K + one .question *
      (assignExpr.language * (one .colon * (assignExpr.language * K)))) := by
  change conditional.form.language * K = _
  simp only [Rule.form, language_append, language_or, language_token, language_rule, mul_add,
    add_mul, mul_assoc]

theorem language_arrowBody :
    arrowBody.language = block.language + assignExpr.language := by
  change arrowBody.form.language = _
  simp only [Rule.form, language_or, language_rule]

/-! ### Primary expressions -/

theorem language_paren : paren.language * K =
    one .leftParen * listed assignExpr.language .rightParen false K := by
  change paren.form.language * K = _
  simp only [Rule.form, language_append, language_optional, language_many, language_token,
    language_rule, listed_eq, Bool.false_eq_true, if_false, mul_one, mul_assoc]

theorem language_array : array.language * K =
    one .leftBracket * listed assignExpr.language .rightBracket true K := by
  change array.form.language * K = _
  simp only [Rule.form, language_append, language_optional, language_many, language_token,
    language_rule, listed_eq, if_true, mul_assoc]

theorem language_object : object.language * K =
    one .leftBrace * listed property.language .rightBrace true K := by
  change object.form.language * K = _
  simp only [Rule.form, language_append, language_optional, language_many, language_token,
    language_rule, listed_eq, if_true, mul_assoc]

theorem language_property : property.language * K =
    one .string * (one .colon * (assignExpr.language * K)) +
      oneOf TokenKind.isBindingName * (K + one .colon * (assignExpr.language * K)) := by
  change property.form.language * K = _
  simp only [Rule.form, language_append, language_or, language_token, language_rule,
    language_binding, mul_add, add_mul, mul_assoc]
  abel

/-! ### What follows an expression -/

/-- Nothing in the language carries on operands and operators of the given looseness. -/
def Avoids (l : Nat) (K : Language TokenKind) : Prop := ∀ k, k.carriesOn l → Lacks (some k) K

/-- What binds more loosely is carried on by more. -/
theorem TokenKind.carriesOn_mono {k : TokenKind} {l l' : Nat} (hle : l ≤ l')
    (hk : k.carriesOn l) : k.carriesOn l' := by
  by_contra hk'
  have hfree : Free l' [⟨k, "", default⟩] := Free.cons (by simpa using hk')
  rw [hfree.mono hle _ rfl] at hk
  cases hk

/-- An operator carries on its own level, but none that binds more tightly. -/
theorem TokenKind.carriesOn_of_looseness {k : TokenKind} (hk : k.looseness? = some (l + 1)) :
    k.carriesOn (l + 1) ∧ k.carriesOn l = false := by
  have hfree : Free l [⟨k, "", default⟩] := Free.operator hk
  exact ⟨by simp [carriesOn, hk], hfree _ rfl⟩

namespace Avoids

theorem mono {l' : Nat} (hK : Avoids l' K) (hle : l ≤ l') : Avoids l K := fun k hk =>
  hK k (k.carriesOn_mono hle hk)

theorem operations (hK : Avoids (l + 1) K) : Avoids l (KStar.kstar (operation l) * K) := by
  intro k hk
  rw [kstar_mul_eq, operation, mul_assoc]
  refine (hK.mono (Nat.le_succ l) k hk).add (lacks_oneOf fun k' heq hop => ?_)
  obtain rfl := Option.some.inj heq
  rw [(TokenKind.carriesOn_of_looseness (of_decide_eq_true hop)).2] at hk
  cases hk

theorem token {k : TokenKind} (hk : k.carriesOn l = false) : Avoids l (one k * K) := by
  intro k' hk'
  refine lacks_token fun heq => ?_
  obtain rfl := Option.some.inj heq
  rw [hk] at hk'
  cases hk'

theorem add (hA : Avoids l A) (hB : Avoids l B) : Avoids l (A + B) := fun k hk =>
  (hA k hk).add (hB k hk)

theorem listTail {close : TokenKind} {trailing : Bool}
    (hcomma : TokenKind.comma.carriesOn l = false) (hclose : close.carriesOn l = false) :
    Avoids l (listTail A close trailing K) := by
  rw [listTail_eq]
  exact (token hcomma).add (token hclose)

end Avoids

/-- What follows an expression: nothing carries it on, and what assigns can be an assignment to the
end of it instead. -/
structure EndsExpr (K : Language TokenKind) : Prop where
  /-- Something can follow. -/
  possible : Possible K
  /-- No suffix, operator or mark of a choice follows. -/
  avoids : Avoids choiceLevel K
  /-- No arrow follows. -/
  noArrow : Lacks (some .arrow) K
  /-- Behind an operator that assigns stand an expression and what follows it. -/
  absorbs : ∀ k w, k.isAssignment → k :: w ∈ K → w ∈ assignExpr.language * K

namespace EndsExpr

theorem of_avoids (hK : Possible K) (hexpr : Avoids exprLevel K) : EndsExpr K where
  possible := hK
  avoids k hk := hexpr k (by cases k <;> first | rfl | exact absurd hk (by decide))
  noArrow := hexpr .arrow rfl
  absorbs k w hk hw :=
    absurd rfl (hexpr k (by cases k <;> first | rfl | exact absurd hk (by decide)) _ hw)

theorem token {k : TokenKind} (hk : k.carriesOn exprLevel = false) (hK : Possible K) :
    EndsExpr (one k * K) :=
  of_avoids (possible_mul.2 ⟨possible_token, hK⟩) (.token hk)

theorem listTail {close : TokenKind} {trailing : Bool} (hclose : close.carriesOn exprLevel = false)
    (hK : Possible K) : EndsExpr (listTail A close trailing K) :=
  of_avoids (possible_listTail hK) (.listTail rfl hclose)

/-- Before an assignment ends what can be assigned to. -/
theorem assign (hK : EndsExpr K) :
    EndsExpr (K + oneOf TokenKind.isAssignment * (assignExpr.language * K)) where
  possible := possible_add.2 (Or.inl hK.possible)
  avoids k hk := by
    refine (hK.avoids k hk).add (lacks_oneOf fun k' heq hk' => ?_)
    obtain rfl := Option.some.inj heq
    cases k <;> first | exact absurd hk (by decide) | exact absurd hk' (by decide)
  noArrow := hK.noArrow.add (lacks_oneOf fun k heq hk => by
    obtain rfl := Option.some.inj heq
    exact absurd hk (by decide))
  absorbs k w hk hw := by
    have hw : w ∈ assignExpr.language * K := by
      rcases hw with hw | hw
      · exact hK.absorbs k w hk hw
      · exact (cons_mem_oneOf_mul.1 hw).2
    rw [mul_add]
    exact Or.inl hw

end EndsExpr

/-! ### Parameters of an arrow that may still come -/

/-- The language starts with an arrow, if it has words at all. -/
def Arrows (M : Language TokenKind) : Prop := ∀ h, h ≠ some .arrow → Lacks h M

theorem arrows_zero : Arrows 0 := fun _ _ => lacks_zero

theorem arrows_token : Arrows (one .arrow * K) := fun _ hh => lacks_token hh

/-- What can stand behind a reading: what follows an expression, and an arrow if the reading can be
the parameters of one. -/
def Reading.after (K M : Language TokenKind) (r : Reading) : Language TokenKind :=
  if r.shape.params?.isSome then K + M else K

namespace Reading

variable {r : Reading}

theorem after_of_isSome (hr : r.shape.params?.isSome) : r.after K M = K + M := if_pos hr

theorem after_of_other (hr : r.shape = .other) : r.after K M = K :=
  if_neg (by rw [hr]; nofun)

theorem after_zero : Reading.after K 0 = fun _ => K := by
  funext r
  rw [after]
  split
  · exact add_zero K
  · rfl

end Reading

namespace Narrows

theorem after {r : Reading} (hh : h ≠ some .arrow) (hM : Arrows M) (hK : Narrows h K K') :
    Narrows h (r.after K M) K' := by
  rw [Reading.after]
  split
  · exact hK.left (hM h hh)
  · exact hK

theorem after_after {r : Reading} (hK : Narrows h K K') :
    Narrows h (r.after K M) (r.after K' M) := by
  rw [Reading.after, Reading.after]
  split
  · exact hK.add .refl
  · exact hK

end Narrows

/-- **Prediction by a rule.** Of its alternatives those stay that can start with what stands
next. -/
theorem narrows_rule {r : Rule} {f : Form} (admits : TokenKind → Bool) (hr : r.nullable = false)
    (hf : r.form.prune admits = f) (hh : ∀ k, h = some k → admits k) :
    Narrows h (r.language * K) (f.language * K) :=
  hf ▸ Form.narrows_prune ((Form.nullable_form r).trans hr) hh

/-- A rule whose first kind is a token. -/
theorem narrows_token {r : Rule} {k : TokenKind} {f : Form} (hr : r.nullable = false)
    (hf : r.form.prune (· = k) = f) : Narrows (some k) (r.language * K) (f.language * K) :=
  narrows_rule _ hr hf fun k' hk => by
    obtain rfl := Option.some.inj hk
    exact decide_eq_true rfl

end MessageBinder
