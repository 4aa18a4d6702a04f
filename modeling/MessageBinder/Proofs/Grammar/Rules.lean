import Mathlib.Computability.Language
import MessageBinder.Token.Basic

/-!
# The rules of the grammar

The grammar of modules as its rules are written down: a rule is a form, and a form puts kinds of
tokens and other rules together by sequence, choice, option and repetition. Nothing here knows of
reading or of trees. What a form derives is a language over the kinds of tokens, and every way of
putting forms together is an operation of Kleene algebra on their languages; the rules are equations
between languages, which is the shape in which the readers are compared with them.

Two more things are computed from the rules and not read off them case by case: the kinds that can
stand first in what a form derives, and one sequence that it does derive.
-/

namespace MessageBinder

/-- The rules of the grammar. -/
inductive Rule where
  | start | stmt
  | importStmt | importClause | namedImports | importSpec
  | exportStmt | namedExports | exportSpec | exportName | binding | moduleName
  | varDecl | varKind | declarator | functionDecl | params | block | returnStmt | ifStmt | exprStmt
  | expr | assignExpr | assignOp | arrowFunction | arrowParams | arrowBody | conditional
  | logicalOr | logicalAnd | equality | relational | additive | multiplicative | unary
  | equalityOp | relationalOp | additiveOp | multiplicativeOp | unaryOp
  | suffixed | arguments | primary | paren | array | object | property
deriving DecidableEq, Repr

/-- What can stand on the right of a rule. -/
inductive Form where
  /-- A token of a kind. -/
  | token (k : TokenKind)
  /-- What a rule says. -/
  | rule (r : Rule)
  /-- One form after the other. -/
  | seq (f g : Form)
  /-- One form or the other. -/
  | choice (f g : Form)
  /-- The form or nothing. -/
  | optional (f : Form)
  /-- The form any number of times. -/
  | many (f : Form)
deriving DecidableEq, Repr

namespace Form

instance : Coe TokenKind Form := ⟨token⟩

instance : Coe Rule Form := ⟨rule⟩

instance : Append Form := ⟨seq⟩

instance : OrOp Form := ⟨choice⟩

end Form

open Form (optional many) in
open TokenKind in
/-- The form of each rule. -/
def Rule.form : Rule → Form
  | start => many stmt
  | stmt => importStmt ||| exportStmt ||| varDecl ++ terminator ||| functionDecl ||| returnStmt |||
      ifStmt ||| block ||| exprStmt ||| terminator
  -- imports
  | importStmt => importWord ++ importClause ++ fromWord ++ string ++ terminator |||
      importWord ++ string ++ terminator
  | importClause => namedImports ||| name ||| name ++ comma ++ namedImports |||
      TokenKind.star ++ asWord ++ name ||| name ++ comma ++ TokenKind.star ++ asWord ++ name
  | namedImports => leftBrace ++
      optional (importSpec ++ many (comma ++ importSpec) ++ optional comma) ++ rightBrace
  | importSpec => moduleName ++ optional (asWord ++ binding)
  -- exports
  | exportStmt => exportWord ++ namedExports ++ fromWord ++ string ++ terminator |||
      exportWord ++ namedExports ++ terminator |||
      exportWord ++ TokenKind.star ++ fromWord ++ string ++ terminator |||
      exportWord ++ varDecl ++ terminator ||| exportWord ++ functionDecl |||
      exportWord ++ defaultWord ++ assignExpr ++ terminator
  | namedExports => leftBrace ++
      optional (exportSpec ++ many (comma ++ exportSpec) ++ optional comma) ++ rightBrace
  | exportSpec => moduleName ++ optional (asWord ++ exportName)
  | exportName => moduleName
  | binding => name ||| fromWord ||| asWord
  | moduleName => binding ||| defaultWord
  -- declarations and statements
  | varDecl => varKind ++ declarator ++ many (comma ++ declarator)
  | varKind => constWord ||| letWord ||| varWord
  | declarator => binding ++ optional (assign ++ assignExpr)
  | functionDecl =>
      functionWord ++ binding ++ leftParen ++ optional params ++ rightParen ++ block
  | params => binding ++ many (comma ++ binding)
  | block => blockBrace ++ many stmt ++ rightBrace
  | returnStmt => returnWord ++ optional expr ++ terminator
  | ifStmt => ifWord ++ leftParen ++ expr ++ rightParen ++ stmt ++ optional (elseWord ++ stmt)
  | exprStmt => expr ++ terminator
  -- expressions
  | expr => assignExpr
  | assignExpr => conditional ||| arrowFunction ||| conditional ++ assignOp ++ assignExpr
  | assignOp => assign ||| plusAssign ||| minusAssign
  | arrowFunction => arrowParams ++ arrow ++ arrowBody
  | arrowParams => binding ||| paren
  | arrowBody => block ||| assignExpr
  | conditional => logicalOr ||| logicalOr ++ question ++ assignExpr ++ colon ++ assignExpr
  | logicalOr => logicalAnd ||| logicalOr ++ either ++ logicalAnd
  | logicalAnd => equality ||| logicalAnd ++ both ++ equality
  | equality => relational ||| equality ++ equalityOp ++ relational
  | relational => additive ||| relational ++ relationalOp ++ additive
  | additive => multiplicative ||| additive ++ additiveOp ++ multiplicative
  | multiplicative => unary ||| multiplicative ++ multiplicativeOp ++ unary
  | unary => suffixed ||| unaryOp ++ unary
  | equalityOp => strictEqual ||| strictUnequal ||| equal ||| unequal
  | relationalOp => atMost ||| atLeast ||| less ||| greater
  | additiveOp => plus ||| minus
  | multiplicativeOp => TokenKind.star ||| slash ||| percent
  | unaryOp => bang ||| minus ||| plus ||| typeofWord ||| newWord
  | suffixed => primary ||| suffixed ++ dot ++ name |||
      suffixed ++ leftBracket ++ expr ++ rightBracket |||
      suffixed ++ leftParen ++ optional arguments ++ rightParen
  | arguments => assignExpr ++ many (comma ++ assignExpr)
  | primary => binding ||| string ||| number ||| trueWord ||| falseWord ||| nullWord |||
      array ||| object ||| paren
  | paren => leftParen ++ optional (assignExpr ++ many (comma ++ assignExpr)) ++ rightParen
  | array => leftBracket ++
      optional (assignExpr ++ many (comma ++ assignExpr) ++ optional comma) ++ rightBracket
  | object => leftBrace ++
      optional (property ++ many (comma ++ property) ++ optional comma) ++ rightBrace
  | property => binding ++ colon ++ assignExpr ||| string ++ colon ++ assignExpr ||| binding

namespace Form

/-- The sequences of kinds that a form derives. -/
inductive Derives : Form → List TokenKind → Prop
  | token (k : TokenKind) : Derives (token k) [k]
  | rule {r : Rule} {w : List TokenKind} (h : Derives r.form w) : Derives (rule r) w
  | seq {f g : Form} {u v : List TokenKind} (hf : Derives f u) (hg : Derives g v) :
      Derives (seq f g) (u ++ v)
  | left {f g : Form} {w : List TokenKind} (h : Derives f w) : Derives (choice f g) w
  | right {f g : Form} {w : List TokenKind} (h : Derives g w) : Derives (choice f g) w
  | none {f : Form} : Derives (optional f) []
  | some {f : Form} {w : List TokenKind} (h : Derives f w) : Derives (optional f) w
  | done {f : Form} : Derives (many f) []
  | more {f : Form} {u v : List TokenKind} (hf : Derives f u) (hm : Derives (many f) v) :
      Derives (many f) (u ++ v)

/-- The language of a form. -/
def language (f : Form) : Language TokenKind := {w | Derives f w}

end Form

/-- The language of a rule. -/
def Rule.language (r : Rule) : Language TokenKind := r.form.language

namespace Form

variable {f g : Form} {w : List TokenKind}

theorem mem_language : w ∈ f.language ↔ Derives f w := Iff.rfl

/-! ### Forms as operations on languages -/

theorem mem_language_token {k : TokenKind} : w ∈ (token k).language ↔ w = [k] := by
  rw [mem_language]
  constructor
  · rintro ⟨⟩
    rfl
  · rintro rfl
    exact .token k

/-- A rule is an equation. -/
theorem language_rule (r : Rule) : (rule r).language = r.language := by
  ext w
  rw [mem_language, Rule.language, mem_language]
  constructor
  · rintro ⟨⟩
    assumption
  · exact .rule

theorem language_append (f g : Form) : (f ++ g).language = f.language * g.language := by
  ext w
  rw [Language.mem_mul, mem_language]
  constructor
  · rintro (_ | _ | ⟨hf, hg⟩)
    exact ⟨_, hf, _, hg, rfl⟩
  · rintro ⟨u, hu, v, hv, rfl⟩
    exact .seq hu hv

theorem language_or (f g : Form) : (f ||| g).language = f.language + g.language := by
  ext w
  rw [Language.mem_add, mem_language]
  constructor
  · rintro (_ | _ | _ | hf | hg)
    · exact Or.inl hf
    · exact Or.inr hg
  · rintro (hf | hg)
    · exact .left hf
    · exact .right hg

theorem language_optional (f : Form) : (optional f).language = 1 + f.language := by
  ext w
  rw [Language.mem_add, Language.mem_one, mem_language]
  constructor
  · rintro (_ | _ | _ | _ | _ | _ | h)
    · exact Or.inl rfl
    · exact Or.inr h
  · rintro (rfl | h)
    · exact .none
    · exact .some h

theorem language_many (f : Form) : (many f).language = KStar.kstar f.language := by
  ext w
  rw [Language.mem_kstar, mem_language]
  constructor
  · intro h
    generalize hm : many f = m at h
    induction h with
    | done => exact ⟨[], rfl, nofun⟩
    | @more g u v hu _ _ ih =>
      obtain rfl : f = g := Form.many.inj hm
      obtain ⟨us, rfl, hus⟩ := ih rfl
      exact ⟨u :: us, rfl, List.forall_mem_cons.2 ⟨hu, hus⟩⟩
    | _ => cases hm
  · rintro ⟨us, rfl, hus⟩
    induction us with
    | nil => exact .done
    | cons u us ih =>
      rw [List.forall_mem_cons] at hus
      exact .more hus.1 (ih hus.2)

/-! ### What can stand first -/

end Form

/-- Whether a rule derives nothing at all. -/
def Rule.nullable (r : Rule) : Bool := r = start

namespace Form

/-- Whether a form derives nothing at all. -/
def nullable : Form → Bool
  | token _ => false
  | rule r => r.nullable
  | seq f g => f.nullable && g.nullable
  | choice f g => f.nullable || g.nullable
  | optional _ | many _ => true

/-- The form of a rule derives nothing only if the rule does. -/
theorem nullable_form (r : Rule) : r.form.nullable = r.nullable := by
  cases r <;> rfl

theorem nullable_of_derives (h : Derives f []) : f.nullable := by
  generalize hw : [] = w at h
  induction h with
  | token => cases hw
  | @rule r w _ ih =>
    rw [nullable, ← nullable_form]
    exact ih hw
  | seq _ _ ihf ihg =>
    obtain ⟨rfl, rfl⟩ := List.append_eq_nil_iff.1 hw.symm
    rw [nullable, ihf rfl, ihg rfl, Bool.true_and]
  | left _ ih => rw [nullable, ih hw, Bool.true_or]
  | right _ ih => rw [nullable, ih hw, Bool.or_true]
  | _ => rfl

end Form

namespace Rule

open TokenKind

/-- The kinds that can stand first in an expression without operators before it. -/
def primaryFirst : List TokenKind :=
  [name, fromWord, asWord, string, number, trueWord, falseWord, nullWord, leftBracket, leftBrace,
    leftParen]

/-- The kinds that can stand first in an expression. -/
def exprFirst : List TokenKind := [bang, minus, plus, typeofWord, newWord] ++ primaryFirst

/-- The kinds that can stand first in a statement. -/
def stmtFirst : List TokenKind :=
  [importWord, exportWord, constWord, letWord, varWord, functionWord, returnWord, ifWord,
    blockBrace, terminator] ++ exprFirst

/-- The kinds that can stand first in what a rule derives. -/
def first : Rule → List TokenKind
  | start | stmt => stmtFirst
  | importStmt => [importWord]
  | importClause => [leftBrace, name, TokenKind.star]
  | namedImports | namedExports | object => [leftBrace]
  | importSpec | exportSpec | exportName | moduleName => [name, fromWord, asWord, defaultWord]
  | exportStmt => [exportWord]
  | binding | params | declarator => [name, fromWord, asWord]
  | varDecl | varKind => [constWord, letWord, varWord]
  | functionDecl => [functionWord]
  | block => [blockBrace]
  | returnStmt => [returnWord]
  | ifStmt => [ifWord]
  | assignOp => [assign, plusAssign, minusAssign]
  | arrowFunction | arrowParams => [name, fromWord, asWord, leftParen]
  | arrowBody => blockBrace :: exprFirst
  | equalityOp => [strictEqual, strictUnequal, equal, unequal]
  | relationalOp => [atMost, atLeast, less, greater]
  | additiveOp => [plus, minus]
  | multiplicativeOp => [TokenKind.star, slash, percent]
  | unaryOp => [bang, minus, plus, typeofWord, newWord]
  | suffixed | primary => primaryFirst
  | paren => [leftParen]
  | array => [leftBracket]
  | property => [name, fromWord, asWord, string]
  | exprStmt | expr | assignExpr | conditional | logicalOr | logicalAnd | equality | relational
  | additive | multiplicative | unary | arguments => exprFirst

end Rule

namespace Form

/-- The kinds that can stand first in what a form derives. -/
def first : Form → List TokenKind
  | token k => [k]
  | rule r => r.first
  | seq f g => if f.nullable then f.first ++ g.first else f.first
  | choice f g => f.first ++ g.first
  | optional f | many f => f.first

/-- No form of a rule starts with other kinds than the rule. -/
theorem first_form_subset (r : Rule) : r.form.first ⊆ r.first := by
  cases r <;> rw [Rule.form] <;> decide

theorem mem_first_of_derives {k : TokenKind} {u : List TokenKind} (h : Derives f (k :: u)) :
    k ∈ f.first := by
  generalize hw : k :: u = w at h
  induction h generalizing u with
  | token =>
    cases hw
    exact List.mem_singleton_self k
  | @rule r w _ ih => exact first_form_subset r (ih hw)
  | @seq f g u₁ v hf _ ihf ihg =>
    rw [first]
    rcases u₁ with _ | ⟨k', u'⟩
    · rw [if_pos (nullable_of_derives hf)]
      exact List.mem_append_right _ (ihg hw)
    · obtain ⟨rfl, -⟩ := List.cons.inj hw
      split
      · exact List.mem_append_left _ (ihf rfl)
      · exact ihf rfl
  | left _ ih => exact List.mem_append_left _ (ih hw)
  | right _ ih => exact List.mem_append_right _ (ih hw)
  | some _ ih => exact ih hw
  | @more f u₁ v _ _ ihf ihm =>
    rcases u₁ with _ | ⟨k', u'⟩
    · exact ihm hw
    · obtain ⟨rfl, -⟩ := List.cons.inj hw
      exact ihf rfl
  | none | done => cases hw

/-! ### Sequences that are derived -/

/-- A sequence that a form derives, given one for rules. -/
def sample? (ofRule : Rule → Option (List TokenKind)) : Form → Option (List TokenKind)
  | token k => some [k]
  | rule r => ofRule r
  | seq f g => do return (← f.sample? ofRule) ++ (← g.sample? ofRule)
  | choice f g => f.sample? ofRule <|> g.sample? ofRule
  | optional _ | many _ => some []

end Form

/-- A sequence that a rule derives, where going down so many rules is enough to find one. -/
def Rule.sample? : Nat → Rule → Option (List TokenKind)
  | 0, _ => none
  | n + 1, r => r.form.sample? (Rule.sample? n)

namespace Form

theorem derives_of_sample? {ofRule : Rule → Option (List TokenKind)}
    (hrule : ∀ r w, ofRule r = some w → Derives (rule r) w) {f : Form} {w : List TokenKind}
    (h : f.sample? ofRule = some w) : Derives f w := by
  induction f generalizing w with
  | token k =>
    obtain rfl := Option.some.inj h
    exact .token k
  | rule r => exact hrule r w h
  | seq f g ihf ihg =>
    rw [sample?] at h
    obtain ⟨u, hu, h⟩ := Option.bind_eq_some_iff.1 h
    obtain ⟨v, hv, h⟩ := Option.bind_eq_some_iff.1 h
    obtain rfl := Option.some.inj h
    exact .seq (ihf hu) (ihg hv)
  | choice f g ihf ihg =>
    rcases (Option.orElse_eq_some _ _ _).1 h with h | ⟨-, h⟩
    · exact .left (ihf h)
    · exact .right (ihg h)
  | optional f =>
    obtain rfl := Option.some.inj h
    exact .none
  | many f =>
    obtain rfl := Option.some.inj h
    exact .done

theorem derives_of_ruleSample? {n : Nat} {r : Rule} {w : List TokenKind}
    (h : r.sample? n = some w) : Derives (rule r) w := by
  induction n generalizing r w with
  | zero => cases h
  | succ n ih => exact .rule (derives_of_sample? (fun _ _ => ih) h)

/-- **Every form derives something.** -/
theorem exists_derives (f : Form) : ∃ w, Derives f w := by
  have hrule : ∀ r, ∃ w, Derives (rule r) w := by
    intro r
    have h : (r.sample? 16).isSome := by cases r <;> decide
    obtain ⟨w, hw⟩ := Option.isSome_iff_exists.1 h
    exact ⟨w, derives_of_ruleSample? hw⟩
  induction f with
  | token k => exact ⟨[k], .token k⟩
  | rule r => exact hrule r
  | seq f g ihf ihg =>
    obtain ⟨u, hu⟩ := ihf
    obtain ⟨v, hv⟩ := ihg
    exact ⟨u ++ v, .seq hu hv⟩
  | choice f g ihf _ =>
    obtain ⟨u, hu⟩ := ihf
    exact ⟨u, .left hu⟩
  | optional f => exact ⟨[], .none⟩
  | many f => exact ⟨[], .done⟩

end Form

end MessageBinder
