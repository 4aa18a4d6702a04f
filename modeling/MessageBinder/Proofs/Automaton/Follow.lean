import MessageBinder.Proofs.Automaton.Items

/-!
# What can stand first and what can follow

The productions are finitely many, and so are the places in them; what is to hold of all of them is
checked at each (`MessageBinder.Item.all`). The checks of this file are about one token: the kinds
that can stand first in what a symbol spells, and the kinds that can follow what a head stands for,
where `none` is the end of the input. What follows is told once for each head, whatever it stands
in. That is more than what follows at one place, and it is enough to tell the productions apart.
-/

namespace MessageBinder

open TokenKind

/-! ### The places in the productions -/

/-- The rules. -/
def Rule.all : List Rule :=
  [start, stmt, importStmt, importClause, namedImports, importSpec, exportStmt, namedExports,
    exportSpec, exportName, binding, moduleName, varDecl, varKind, declarator, functionDecl, params,
    block, returnStmt, ifStmt, exprStmt, expr, assignExpr, assignOp, arrowFunction, arrowParams,
    arrowBody, conditional, logicalOr, logicalAnd, equality, relational, additive, multiplicative,
    unary, equalityOp, relationalOp, additiveOp, multiplicativeOp, unaryOp, suffixed, arguments,
    primary, paren, array, object, property]

/-- The forms that the rules repeat. -/
def Form.repetitions : List Form :=
  [.rule .stmt, comma ++ Rule.importSpec, comma ++ Rule.exportSpec, comma ++ Rule.declarator,
    comma ++ Rule.binding, comma ++ Rule.assignExpr, comma ++ Rule.property]

/-- The heads of the productions. -/
def Nonterminal.all : List Nonterminal :=
  .root :: (Rule.all.map .rule ++ Form.repetitions.map .repeated)

/-- The places in a body, from one on. -/
def Item.places (n : Nonterminal) : List GrammarSymbol → List GrammarSymbol → List Item
  | α, [] => [⟨n, α, []⟩]
  | α, X :: β => ⟨n, α, X :: β⟩ :: places n (X :: α) β

/-- The places in all productions. -/
def Item.all : List Item :=
  Nonterminal.all.flatMap fun n => n.alternatives.flatMap (Item.places n [])

theorem Item.mem_places (n : Nonterminal) (γ δ β : List GrammarSymbol) :
    ⟨n, δ.reverse ++ γ, β⟩ ∈ places n γ (δ ++ β) := by
  induction δ generalizing γ with
  | nil => cases β <;> exact List.mem_cons_self
  | cons X δ ih =>
    rw [List.reverse_cons, List.append_assoc]
    exact List.mem_cons_of_mem _ (ih (X :: γ))

theorem Item.mem_all {i : Item} (hn : i.head ∈ Nonterminal.all)
    (hi : i.before.reverse ++ i.after ∈ i.head.alternatives) : i ∈ Item.all := by
  obtain ⟨n, α, β⟩ := i
  have hplace := Item.mem_places n [] α.reverse β
  rw [List.reverse_reverse, List.append_nil] at hplace
  exact List.mem_flatMap.2 ⟨n, hn, List.mem_flatMap.2 ⟨_, hi, hplace⟩⟩

/-! ### The start of a symbol -/

/-- The kinds that can stand first in what a symbol spells. -/
def GrammarSymbol.first (X : GrammarSymbol) : List TokenKind := X.form.first

theorem Spells.exists_cons {X : GrammarSymbol} {β : List GrammarSymbol} {w : List TokenKind}
    (h : Spells (X :: β) w) (hX : X.form.nullable = false) : ∃ k v, w = k :: v ∧ k ∈ X.first := by
  obtain ⟨u, v, rfl, hu, -⟩ := Spells.exists_of_append (α := [X]) h
  rw [spells_singleton_iff] at hu
  rcases u with _ | ⟨k, u⟩
  · rw [Form.nullable_of_derives hu] at hX
    cases hX
  · exact ⟨k, u ++ v, rfl, Form.mem_first_of_derives hu⟩

/-- Every sequence of symbols spells something. -/
theorem exists_spells (α : List GrammarSymbol) : ∃ w, Spells α w := by
  induction α with
  | nil => exact ⟨[], .nil⟩
  | cons X α ih =>
    obtain ⟨u, hu⟩ := X.form.exists_derives
    obtain ⟨v, hv⟩ := ih
    exact ⟨u ++ v, (spells_singleton_iff.2 hu).append hv⟩

/-! ### The end of a head -/

namespace Rule

/-- The kinds that end an expression. -/
def exprEnd : List TokenKind := [comma, colon, rightParen, rightBracket, rightBrace, terminator]

/-- The kinds that can follow one side of an assignment. -/
def assignFollow : List TokenKind := [assign, plusAssign, minusAssign] ++ exprEnd

/-- The kinds that can follow the operands of the loosest operator. -/
def logicalOrFollow : List TokenKind := [question, either] ++ assignFollow

/-- The kinds that can follow the operands of the next operator. -/
def logicalAndFollow : List TokenKind := both :: logicalOrFollow

/-- The kinds that can follow what is compared for equality. -/
def equalityFollow : List TokenKind := equalityOp.first ++ logicalAndFollow

/-- The kinds that can follow what is compared for size. -/
def relationalFollow : List TokenKind := relationalOp.first ++ equalityFollow

/-- The kinds that can follow a summand. -/
def additiveFollow : List TokenKind := additiveOp.first ++ relationalFollow

/-- The kinds that can follow a factor. -/
def unaryFollow : List TokenKind := multiplicativeOp.first ++ additiveFollow

/-- The kinds that can follow what takes suffixes. -/
def suffixedFollow : List TokenKind := [dot, leftBracket, leftParen] ++ unaryFollow

/-- What can follow a statement. -/
def stmtsFollow : List (Option TokenKind) := none :: some rightBrace :: stmtFirst.map some

/-- What can follow what a rule derives. -/
def follow : Rule → List (Option TokenKind)
  | start => [none]
  | stmt | importStmt | exportStmt | functionDecl | returnStmt | ifStmt | exprStmt =>
    some elseWord :: stmtsFollow
  | importClause | namedImports => [some fromWord]
  | importSpec | exportSpec | exportName | property => [some comma, some rightBrace]
  | namedExports => [some fromWord, some terminator]
  | moduleName => [some asWord, some comma, some rightBrace]
  | binding => (arrow :: asWord :: suffixedFollow).map some
  | varDecl => [some terminator]
  | varKind => [some name, some fromWord, some asWord]
  | declarator => [some comma, some terminator]
  | params | arguments => [some rightParen]
  | block => some elseWord :: stmtsFollow ++ assignFollow.map some
  | expr => [some rightParen, some rightBracket, some terminator]
  | assignExpr | arrowFunction | arrowBody | conditional => assignFollow.map some
  | arrowParams => [some arrow]
  | logicalOr => logicalOrFollow.map some
  | logicalAnd => logicalAndFollow.map some
  | equality => equalityFollow.map some
  | relational => relationalFollow.map some
  | additive => additiveFollow.map some
  | multiplicative | unary => unaryFollow.map some
  | assignOp | equalityOp | relationalOp | additiveOp | multiplicativeOp | unaryOp =>
    exprFirst.map some
  | suffixed | primary | array | object => suffixedFollow.map some
  | paren => (arrow :: suffixedFollow).map some

end Rule

/-- What can follow what a head stands for. What is repeated behind commas ends where one of it
ends; expressions can end in more places. -/
def Nonterminal.follow : Nonterminal → List (Option TokenKind)
  | root => [none]
  | rule r => r.follow
  | repeated (.seq _ (.rule .assignExpr)) => [some comma, some rightParen, some rightBracket]
  | repeated (.seq _ (.rule r)) => r.follow
  | repeated _ => Rule.stmtsFollow

/-- Whether something can follow what a head stands for. -/
def Nonterminal.canPrecede (n : Nonterminal) (a : Option TokenKind) : Bool := a ∈ n.follow

theorem Nonterminal.canPrecede_iff {n : Nonterminal} {a : Option TokenKind} :
    n.canPrecede a ↔ a ∈ n.follow := decide_eq_true_iff

namespace Item

/-- What is wanted at a place is a head of productions and not the whole input. -/
def wantsHead (i : Item) : Bool :=
  match i.after with
  | .nonterminal n :: _ => n ∈ Nonterminal.all && n ≠ .root
  | _ => true

/-- What is wanted at a place can be followed by what follows it there. -/
def isFollowed (i : Item) : Bool :=
  match i.after with
  | [.nonterminal n] => i.head.follow.all n.canPrecede
  | .nonterminal n :: X :: _ => !X.form.nullable && X.first.all (n.canPrecede <| some ·)
  | _ => true

/-- What a body begins with can stand first in what its head stands for. -/
def isStarted (i : Item) : Bool :=
  match i.before, i.after with
  | [], X :: _ => X.first.all (· ∈ (GrammarSymbol.nonterminal i.head).first)
  | _, _ => true

theorem wantsHead_of_mem : ∀ i ∈ all, i.wantsHead := by
  rw [← List.all_eq_true]
  decide +kernel

theorem wanted_of_mem {n m : Nonterminal} {α β : List GrammarSymbol}
    (h : ⟨m, α, .nonterminal n :: β⟩ ∈ all) : n ∈ Nonterminal.all ∧ n ≠ .root := by
  have hwants := wantsHead_of_mem _ h
  simpa only [wantsHead, Bool.and_eq_true, decide_eq_true_eq] using hwants

theorem isFollowed_of_mem : ∀ i ∈ all, i.isFollowed := by
  rw [← List.all_eq_true]
  decide +kernel

theorem isStarted_of_mem : ∀ i ∈ all, i.isStarted := by
  rw [← List.all_eq_true]
  decide +kernel

end Item

namespace Valid

variable {γ α β : List GrammarSymbol} {X : GrammarSymbol} {n m : Nonterminal} {i : Item}
  {v z : List TokenKind}

theorem mem_all (h : Valid γ i z) : i ∈ Item.all := by
  refine Item.mem_all ?_ h.mem_alternatives
  induction h with
  | initial => exact List.mem_cons_self
  | move _ ih => exact ih
  | @enter γ α β ω n m v z h _ hω ih =>
    exact (Item.wanted_of_mem (Item.mem_all ih h.mem_alternatives)).1

/-- What follows a head that is wanted can follow it. -/
theorem spells_cons (h : Valid γ ⟨m, α, .nonterminal n :: X :: β⟩ z) (hv : Spells (X :: β) v) :
    ∃ k w, v = k :: w ∧ k ∈ X.first ∧ some k ∈ n.follow := by
  have hfollowed := Item.isFollowed_of_mem _ h.mem_all
  simp only [Item.isFollowed, Bool.and_eq_true, Bool.not_eq_true', List.all_eq_true,
    Nonterminal.canPrecede_iff] at hfollowed
  obtain ⟨k, w, rfl, hk⟩ := hv.exists_cons hfollowed.1
  exact ⟨k, w, rfl, hk, hfollowed.2 k hk⟩

/-- **The input behind a head starts with what can follow it.** -/
theorem mem_follow (h : Valid γ i z) : z.head? ∈ i.head.follow := by
  induction h with
  | initial => exact List.mem_singleton_self _
  | move _ ih => exact ih
  | @enter γ α β ω n m v z h hv _ ih =>
    rcases β with _ | ⟨X, β⟩
    · cases hv
      have hfollowed := Item.isFollowed_of_mem _ h.mem_all
      simp only [Item.isFollowed, List.all_eq_true, Nonterminal.canPrecede_iff] at hfollowed
      exact hfollowed _ ih
    · obtain ⟨k, w, rfl, -, hk⟩ := h.spells_cons hv
      exact hk

/-- What an item goes on with stands also behind a place that is not the start of a body, unless
nothing has been read. -/
theorem exists_place {k : TokenKind} (h : Valid γ i z) (hγ : γ ≠ []) (hi : i.after = X :: β)
    (hk : k ∈ X.first) : ∃ m Y α Z δ z', Valid γ ⟨m, Y :: α, Z :: δ⟩ z' ∧ k ∈ Z.first := by
  induction h generalizing X β with
  | initial => exact absurd rfl hγ
  | move h =>
    subst hi
    exact ⟨_, _, _, _, _, _, h.move, hk⟩
  | @enter γ α δ ω n m v z h hv hω ih =>
    obtain rfl : ω = X :: β := hi
    have hstarted := Item.isStarted_of_mem _ (h.enter hv hω).mem_all
    simp only [Item.isStarted, List.all_eq_true, decide_eq_true_eq] at hstarted
    exact ih hγ rfl (hstarted k hk)

/-- Nothing stands below the whole input, and nothing follows it. -/
theorem of_root (h : Valid γ i z) (hi : i.head = .root) : γ = i.before ∧ z = [] := by
  induction h with
  | initial => exact ⟨rfl, rfl⟩
  | move _ ih => exact ⟨congrArg _ (ih hi).1, (ih hi).2⟩
  | enter h _ _ _ =>
    exact absurd hi (Item.wanted_of_mem h.mem_all).2

end Valid

end MessageBinder
