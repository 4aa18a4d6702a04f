import Mathlib.Tactic.Abel
import MessageBinder.Proofs.Grammar.Residue

/-!
# Lists and clauses against the rules

The parts of the grammar that need no descent: lists with commas, the names of imports and exports,
and the clauses around them. For each there is an equation, which brings its rule into the shape in
which it is read, common beginnings first; and with the equation the reader follows the rule, rule
for rule.
-/

namespace MessageBinder

open Token (kinds ahead)
open Form (language_rule language_token language_append language_or language_optional language_many)

variable {ts : List Token} {K A : Language TokenKind}

/-! ### Lists -/

/-- What can stand behind an item of a list: further items, a comma if one may trail, the closing
token, and what follows the list. -/
def listTail (A : Language TokenKind) (close : TokenKind) (trailing : Bool)
    (K : Language TokenKind) : Language TokenKind :=
  KStar.kstar (one .comma * A) * ((if trailing then 1 + one .comma else 1) * (one close * K))

/-- What a comma leads to, or the closing token. -/
theorem listTail_eq (A : Language TokenKind) (close : TokenKind) (trailing : Bool)
    (K : Language TokenKind) :
    listTail A close trailing K =
      one .comma * (A * listTail A close trailing K + if trailing then one close * K else 0) +
        one close * K := by
  have hstar : listTail A close trailing K =
      (if trailing then 1 + one .comma else 1) * (one close * K) +
        one .comma * (A * listTail A close trailing K) := by
    conv_lhs => rw [listTail, ← Language.one_add_self_mul_kstar_eq_kstar, add_mul, one_mul]
    rw [listTail, mul_assoc, mul_assoc]
  refine hstar.trans ?_
  cases trailing
  · simp only [Bool.false_eq_true, if_false, one_mul, add_zero]
    exact add_comm _ _
  · simp only [if_true, add_mul, one_mul, mul_add]
    rw [add_comm, add_comm (one close * K), add_assoc]

/-- The items of a list, perhaps none, the closing token, and what follows the list. -/
def listed (A : Language TokenKind) (close : TokenKind) (trailing : Bool)
    (K : Language TokenKind) : Language TokenKind :=
  one close * K + A * listTail A close trailing K

theorem possible_listTail {close : TokenKind} {trailing : Bool} (hK : Possible K) :
    Possible (listTail A close trailing K) := by
  rw [listTail_eq]
  simp [hK]

theorem possible_listed {close : TokenKind} {trailing : Bool} (hK : Possible K) :
    Possible (listed A close trailing K) := by
  simp [listed, hK]

theorem lacks_listTail {h : Option TokenKind} {close : TokenKind} {trailing : Bool}
    (hcomma : h ≠ some .comma) (hclose : h ≠ some close) :
    Lacks h (listTail A close trailing K) := by
  rw [listTail_eq]
  exact .add (lacks_token hcomma) (lacks_token hclose)

/-- A list as the rules write it. -/
theorem listed_eq (A : Language TokenKind) (close : TokenKind) (trailing : Bool)
    (K : Language TokenKind) :
    listed A close trailing K = (1 + A * (KStar.kstar (one .comma * A) *
      if trailing then 1 + one .comma else 1)) * (one close * K) := by
  rw [listed, listTail, add_mul, one_mul, mul_assoc, mul_assoc]

namespace Parse.Follows

variable {α : Type} {item : Parse α} {close : TokenKind} {trailing : Bool}

/-- **Lists are read item by item.** The items of a list need not be told from its closing token by
what follows them. -/
theorem moreItems {n : Nat} (hn : ts.length < n) (hA : Possible A) (hK : Possible K)
    (hcomma : close ≠ .comma) (hclose : ∀ K, Lacks (some close) (A * K))
    (hitem : ∀ rest : List Token, rest.length ≤ ts.length →
      Follows 1 item rest (A * listTail A close trailing K) fun _ => listTail A close trailing K) :
    Follows 1 (moreItems item close trailing n) ts (A * listTail A close trailing K)
      fun _ => K := by
  induction n generalizing ts with
  | zero => omega
  | succ n ih =>
    rw [Parse.moreItems]
    refine bind le_rfl (hitem ts le_rfl) fun x rest hrest => ?_
    rw [listTail_eq]
    refine skip? (Nat.zero_le 1) (K := A * listTail A close trailing K +
      if trailing then one close * K else 0) ?_ (fun _ => ?_) (fun rest' hrest' => ?_) fun hne => ?_
    · simp [hA, possible_listTail hK]
    · exact .left .refl (lacks_token fun h => hcomma (Option.some.inj h).symm)
    · -- behind a comma stands the closing token or another item
      rw [if_pos rfl]
      refine peek ?_
      split
      · rename_i hpeek
        rw [Bool.and_eq_true, decide_eq_true_eq] at hpeek
        refine narrow (.right (hpeek.2 ▸ hclose _) ?_)
          (expect_bind (Nat.zero_le 1) hK fun _ _ _ => pure .refl)
        rw [if_pos hpeek.1]
        exact .refl
      · rename_i hpeek
        refine narrow (.left .refl ?_) (bind (Nat.zero_le 1)
          (ih (by omega) fun rest'' h => hitem rest'' (by omega)) fun _ _ _ => pure .refl)
        split
        · rename_i htrailing
          refine lacks_token fun h => hpeek ?_
          rw [show _ = some close from h, htrailing, Bool.true_and, decide_eq_true_eq]
        · exact lacks_zero
    · rw [if_neg Bool.false_ne_true]
      exact narrow (.right (lacks_token hne) .refl)
        (expect_bind (Nat.zero_le 1) hK fun _ _ _ => pure .refl)

theorem items {n : Nat} (hn : ts.length < n) (hA : Possible A) (hK : Possible K)
    (hcomma : close ≠ .comma) (hclose : ∀ K, Lacks (some close) (A * K))
    (hitem : ∀ rest : List Token, rest.length ≤ ts.length →
      Follows 1 item rest (A * listTail A close trailing K) fun _ => listTail A close trailing K) :
    Follows 1 (items item close trailing n) ts (listed A close trailing K) fun _ => K := by
  rw [Parse.items]
  refine skip? le_rfl hK (fun _ => .left .refl (hclose _)) (fun _ _ => ?_) fun hne => ?_
  · rw [if_pos rfl]
    exact pure .refl
  · rw [if_neg Bool.false_ne_true]
    exact narrow (.right (lacks_token hne) .refl) (moreItems hn hA hK hcomma hclose hitem)

end Parse.Follows

/-! ### Names of imports and exports -/

open Rule
open Parse (Follows items)

theorem language_binding : binding.language = oneOf TokenKind.isBindingName := by
  change binding.form.language = _
  simp only [Rule.form, language_or, language_token, oneOf_add]
  exact congrArg oneOf (funext fun k => by cases k <;> rfl)

theorem language_moduleName : moduleName.language = oneOf TokenKind.isExportName := by
  change moduleName.form.language = _
  simp only [Rule.form, language_or, language_token, language_rule, language_binding, oneOf_add]
  exact congrArg oneOf (funext fun k => by cases k <;> rfl)

theorem language_importSpec : importSpec.language =
    oneOf TokenKind.isExportName * (1 + one .asWord * oneOf TokenKind.isBindingName) := by
  change importSpec.form.language = _
  simp only [Rule.form, language_append, language_optional, language_token, language_rule,
    language_binding, language_moduleName]

theorem language_exportSpec : exportSpec.language =
    oneOf TokenKind.isExportName * (1 + one .asWord * oneOf TokenKind.isExportName) := by
  have hname : exportName.language = oneOf TokenKind.isExportName := by
    change exportName.form.language = _
    rw [Rule.form, language_rule, language_moduleName]
  change exportSpec.form.language = _
  simp only [Rule.form, language_append, language_optional, language_token, language_rule, hname,
    language_moduleName]

theorem language_namedImports : namedImports.language * K =
    one .leftBrace * listed importSpec.language .rightBrace true K := by
  change namedImports.form.language * K = _
  simp only [Rule.form, language_append, language_optional, language_many, language_token,
    language_rule, listed_eq, if_true, mul_assoc]

theorem language_namedExports : namedExports.language * K =
    one .leftBrace * listed exportSpec.language .rightBrace true K := by
  change namedExports.form.language * K = _
  simp only [Rule.form, language_append, language_optional, language_many, language_token,
    language_rule, listed_eq, if_true, mul_assoc]

theorem follows_readAlias {admits : TokenKind → Bool} (hadm : ∃ k, admits k) (hK : Possible K)
    (has : Lacks (some .asWord) K) :
    Follows 1 (readAlias admits) ts
      (oneOf TokenKind.isExportName * (1 + one .asWord * oneOf admits) * K) fun _ => K := by
  rw [readAlias, mul_assoc, add_mul, one_mul, mul_assoc]
  refine .accept_bind le_rfl ⟨.name, rfl⟩ (possible_add.2 (.inl hK)) fun t rest hrest => ?_
  refine .skip? (Nat.zero_le 1) (K := oneOf admits * K) ?_ (fun _ => .right has .refl)
    (fun rest' _ => ?_) fun hne => ?_
  · exact possible_mul.2 ⟨possible_oneOf.2 hadm, hK⟩
  · rw [if_pos rfl]
    exact .accept_bind (Nat.zero_le 1) hadm hK fun _ _ _ => .pure .refl
  · rw [if_neg Bool.false_ne_true]
    exact .pure (.left .refl (lacks_token hne))

theorem follows_readImportSpecifier (hK : Possible K) (has : Lacks (some .asWord) K) :
    Follows 1 readImportSpecifier ts (importSpec.language * K) fun _ => K := by
  rw [readImportSpecifier, language_importSpec]
  refine .bind le_rfl (follows_readAlias ⟨.name, rfl⟩ hK has) ?_
  rintro ⟨t, alias?⟩ rest -
  dsimp only
  split <;> exact .pure .refl

theorem follows_readExportSpecifier (hK : Possible K) (has : Lacks (some .asWord) K) :
    Follows 1 readExportSpecifier ts (exportSpec.language * K) fun _ => K := by
  rw [readExportSpecifier, language_exportSpec]
  exact .bind le_rfl (follows_readAlias ⟨.name, rfl⟩ hK has) fun _ _ _ => .pure .refl

/-- The list of an import, from its first name on. -/
theorem follows_importSpecifiers {n : Nat} (hn : ts.length < n) (hK : Possible K) :
    Follows 1 (items readImportSpecifier .rightBrace true n) ts
      (listed importSpec.language .rightBrace true K) fun _ => K :=
  .items hn (Rule.possible _) hK nofun (fun _ => Rule.lacks rfl (by decide)) fun _ _ =>
    follows_readImportSpecifier (possible_listTail hK) (lacks_listTail nofun nofun)

/-- The list of an export, from its first name on. -/
theorem follows_exportSpecifiers {n : Nat} (hn : ts.length < n) (hK : Possible K) :
    Follows 1 (items readExportSpecifier .rightBrace true n) ts
      (listed exportSpec.language .rightBrace true K) fun _ => K :=
  .items hn (Rule.possible _) hK nofun (fun _ => Rule.lacks rfl (by decide)) fun _ _ =>
    follows_readExportSpecifier (possible_listTail hK) (lacks_listTail nofun nofun)

/-! ### Clauses -/

/-- What an import binds besides its default export. -/
def importRest : Language TokenKind :=
  one .star * (one .asWord * one .name) + namedImports.language

theorem language_importClause : importClause.language =
    one .name * (1 + one .comma * importRest) + importRest := by
  change importClause.form.language = _
  simp only [Rule.form, language_append, language_or, language_token, language_rule, importRest,
    mul_add, mul_one, mul_assoc]
  abel

/-- The source of an import or a re-export, with the end of the statement. -/
def sourced (K : Language TokenKind) : Language TokenKind := one .string * (one .terminator * K)

theorem possible_sourced (hK : Possible K) : Possible (sourced K) := by
  simp [sourced, hK]

theorem language_importStmt : importStmt.language * K =
    one .importWord * (importClause.language * (one .fromWord * sourced K) + sourced K) := by
  change importStmt.form.language * K = _
  simp only [Rule.form, language_append, language_or, language_token, language_rule, sourced,
    mul_add, add_mul, mul_assoc]

theorem language_exportStmt : exportStmt.language * K =
    one .exportWord * (one .leftBrace * listed exportSpec.language .rightBrace true
        (one .fromWord * sourced K + one .terminator * K) +
      one .star * (one .fromWord * sourced K) + varDecl.language * (one .terminator * K) +
      functionDecl.language * K +
      one .defaultWord * (assignExpr.language * (one .terminator * K))) := by
  change exportStmt.form.language * K = _
  simp only [Rule.form, language_append, language_or, language_token, language_rule, sourced,
    ← language_namedExports, mul_add, add_mul, mul_assoc]

theorem follows_readSource (hK : Possible K) : Follows 1 readSource ts (sourced K) fun _ => K := by
  rw [readSource, sourced]
  refine .expect_bind le_rfl (by simp [hK]) fun t rest _ => ?_
  exact .expect_bind (Nat.zero_le 1) hK fun _ _ _ => .pure .refl

theorem follows_readImportRest {n : Nat} (hn : ts.length < n) (hK : Possible K) :
    Follows 1 (readImportRest n) ts (importRest * K) fun _ => K := by
  rw [readImportRest, importRest, add_mul, mul_assoc, mul_assoc,
    language_namedImports]
  refine .skip? le_rfl (K := one .asWord * (one .name * K)) (by simp [hK])
    (fun _ => .left .refl (lacks_token (by decide))) (fun rest _ => ?_) fun hne => ?_
  · rw [if_pos rfl]
    refine .expect_bind (Nat.zero_le 1) (by simp [hK]) fun _ rest' _ => ?_
    exact .expect_bind (Nat.zero_le 1) hK fun _ _ _ => .pure .refl
  · rw [if_neg Bool.false_ne_true]
    refine .narrow (.right (lacks_token hne) .refl) ?_
    refine .expect_bind le_rfl (possible_listed hK) fun _ rest hrest => ?_
    exact .bind (Nat.zero_le 1) (follows_importSpecifiers (by omega) hK) fun _ _ _ => .pure .refl

theorem follows_readImportClause {n : Nat} (hn : ts.length < n) (hK : Possible K)
    (hcomma : Lacks (some .comma) K) :
    Follows 1 (readImportClause n) ts (importClause.language * K) fun _ => K := by
  rw [readImportClause, language_importClause, add_mul, mul_assoc, add_mul, one_mul,
    mul_assoc]
  refine .peek ?_
  split
  · rename_i hname
    have hrest : Lacks (some .name) (importRest * K) := by
      rw [importRest, add_mul, mul_assoc]
      exact .add (lacks_token (by decide)) (Rule.lacks rfl (by decide))
    refine .narrow (.left .refl (hname ▸ hrest)) ?_
    refine .expect_bind le_rfl (by simp [hK]) fun t rest hlen => ?_
    refine .skip? (Nat.zero_le 1) (K := importRest * K) ?_ (fun _ => .right hcomma .refl)
      (fun rest' hlen' => ?_) fun hne => ?_
    · simp [importRest, hK]
    · rw [if_pos rfl]
      exact .bind (Nat.zero_le 1) (follows_readImportRest (by omega) hK) fun _ _ _ => .pure .refl
    · rw [if_neg Bool.false_ne_true]
      exact .pure (.left .refl (lacks_token hne))
  · rename_i hname
    exact .narrow (.right (lacks_token hname) .refl) (follows_readImportRest hn hK)

theorem follows_readImport [CharacterNames] {n : Nat} {o : Origin} (hn : ts.length < n)
    (hK : Possible K) :
    Follows 1 (readImport o n) ts
      (importClause.language * (one .fromWord * sourced K) + sourced K) fun _ => K := by
  rw [readImport]
  refine .peek ?_
  split
  · rename_i hstring
    refine .narrow (.right (hstring ▸ Rule.lacks rfl (by decide)) .refl) ?_
    exact .bind le_rfl (follows_readSource hK) fun _ _ _ => .pure .refl
  · rename_i hstring
    refine .narrow (.left .refl (lacks_token hstring)) ?_
    refine .bind le_rfl (follows_readImportClause hn (by simp [possible_sourced hK])
      (lacks_token (by decide))) fun _ rest _ => ?_
    refine .expect_bind (Nat.zero_le 1) (possible_sourced hK) fun _ rest' _ => ?_
    exact .bind (Nat.zero_le 1) (follows_readSource hK) fun _ _ _ => .pure .refl

theorem follows_readExportList [CharacterNames] {n : Nat} {o : Origin} (hn : ts.length < n)
    (hK : Possible K) :
    Follows 1 (readExportList o n) ts (listed exportSpec.language .rightBrace true
      (one .fromWord * sourced K + one .terminator * K)) fun _ => K := by
  rw [readExportList]
  refine .bind le_rfl (follows_exportSpecifiers hn (by simp [hK])) fun _ rest _ => ?_
  refine .skip? (Nat.zero_le 1) (possible_sourced hK)
    (fun _ => .left .refl (lacks_token (by decide))) (fun rest' _ => ?_) fun hne => ?_
  · rw [if_pos rfl]
    exact .bind (Nat.zero_le 1) (follows_readSource hK) fun _ _ _ => .pure .refl
  · rw [if_neg Bool.false_ne_true]
    exact .narrow (.right (lacks_token hne) .refl)
      (.expect_bind (Nat.zero_le 1) hK fun _ _ _ => .pure .refl)

theorem follows_readExportAll [CharacterNames] {o : Origin} (hK : Possible K) :
    Follows 1 (readExportAll o) ts (one .fromWord * sourced K) fun _ => K := by
  rw [readExportAll]
  refine .expect_bind le_rfl (possible_sourced hK) fun _ rest _ => ?_
  exact .bind (Nat.zero_le 1) (follows_readSource hK) fun _ _ _ => .pure .refl

end MessageBinder
