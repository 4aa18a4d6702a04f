import MessageBinder.Proofs.Automaton.Follow

/-!
# What can stand before

Two items can be valid for the same stack only if what they have before their places agrees, and if
where the body of one of them begins, its head can be wanted behind what the other still has before
its place. So the two can be told apart by going back over the stack, from a body to the bodies in
which its head is wanted (`MessageBinder.meets`). Going back through bodies that have just begun
leads in circles; it is left out with the heads that can begin what a head stands for
(`MessageBinder.Nonterminal.corners`).
-/

namespace MessageBinder

/-! ### The heads that can begin a head -/

namespace Rule

/-- The rules that can begin what takes suffixes. -/
def suffixedCorners : List Rule := [suffixed, primary, binding, array, object, paren]

/-- The rules that can begin a factor. -/
def unaryCorners : List Rule := [unary, unaryOp] ++ suffixedCorners

/-- The rules that can begin a summand. -/
def multiplicativeCorners : List Rule := multiplicative :: unaryCorners

/-- The rules that can begin what is compared for size. -/
def additiveCorners : List Rule := additive :: multiplicativeCorners

/-- The rules that can begin what is compared for equality. -/
def relationalCorners : List Rule := relational :: additiveCorners

/-- The rules that can begin an operand of the operators between truth values. -/
def equalityCorners : List Rule := equality :: relationalCorners

/-- The rules that can begin an operand of the loosest operator. -/
def logicalAndCorners : List Rule := logicalAnd :: equalityCorners

/-- The rules that can begin a condition. -/
def logicalOrCorners : List Rule := logicalOr :: logicalAndCorners

/-- The rules that can begin the left side of an assignment. -/
def conditionalCorners : List Rule := conditional :: logicalOrCorners

/-- The rules that can begin an expression. -/
def assignCorners : List Rule := [assignExpr, arrowFunction, arrowParams] ++ conditionalCorners

/-- The rules that can begin a statement. -/
def stmtCorners : List Rule :=
  [stmt, importStmt, exportStmt, varDecl, varKind, functionDecl, returnStmt, ifStmt, block,
    exprStmt, expr] ++ assignCorners

/-- The rules that can begin what a rule derives. -/
def corners : Rule → List Rule
  | start => start :: stmtCorners
  | stmt => stmtCorners
  | importClause => [importClause, namedImports]
  | importSpec => [importSpec, moduleName, binding]
  | exportSpec => [exportSpec, moduleName, binding]
  | exportName => [exportName, moduleName, binding]
  | moduleName => [moduleName, binding]
  | varDecl => [varDecl, varKind]
  | declarator => [declarator, binding]
  | params => [params, binding]
  | exprStmt => [exprStmt, expr] ++ assignCorners
  | expr => expr :: assignCorners
  | assignExpr => assignCorners
  | arrowFunction => [arrowFunction, arrowParams, binding, paren]
  | arrowParams => [arrowParams, binding, paren]
  | arrowBody => [arrowBody, block] ++ assignCorners
  | conditional => conditionalCorners
  | logicalOr => logicalOrCorners
  | logicalAnd => logicalAndCorners
  | equality => equalityCorners
  | relational => relationalCorners
  | additive => additiveCorners
  | multiplicative => multiplicativeCorners
  | unary => unaryCorners
  | suffixed => suffixedCorners
  | arguments => arguments :: assignCorners
  | primary => [primary, binding, array, object, paren]
  | property => [property, binding]
  | r => [r]

end Rule

namespace Nonterminal

/-- The heads that can begin what a head stands for. -/
def corners : Nonterminal → List Nonterminal
  | root => root :: repeated Rule.stmt :: Rule.start.corners.map rule
  | rule .start => repeated Rule.stmt :: Rule.start.corners.map rule
  | rule r => r.corners.map rule
  | repeated (.rule r) => repeated (.rule r) :: r.corners.map rule
  | repeated f => [repeated f]

/-- A head can begin itself, and whatever can begin one of the corners is a corner. -/
def cornersClosed (n : Nonterminal) : Bool :=
  n ∈ n.corners && n.corners.all fun m => m.alternatives.all fun ω => match ω with
    | .nonterminal c :: _ => c ∈ n.corners
    | _ => true

theorem cornersClosed_of_mem : ∀ n ∈ all, n.cornersClosed := by
  rw [← List.all_eq_true]
  decide +kernel

theorem mem_corners_self {n : Nonterminal} (hn : n ∈ all) : n ∈ n.corners := by
  have hclosed := cornersClosed_of_mem n hn
  simp only [cornersClosed, Bool.and_eq_true, decide_eq_true_eq] at hclosed
  exact hclosed.1

theorem mem_corners {n m c : Nonterminal} {β : List GrammarSymbol} (hn : n ∈ all)
    (hm : m ∈ n.corners) (hc : .nonterminal c :: β ∈ m.alternatives) : c ∈ n.corners := by
  have hclosed := cornersClosed_of_mem n hn
  simp only [cornersClosed, Bool.and_eq_true, List.all_eq_true] at hclosed
  have hbegun := hclosed.2 m hm _ hc
  simpa using hbegun

end Nonterminal

namespace Valid

variable {γ α α' β β' : List GrammarSymbol} {X : GrammarSymbol} {n m : Nonterminal} {i : Item}
  {z z' : List TokenKind}

theorem mem_nonterminals (h : Valid γ ⟨m, α, .nonterminal n :: β⟩ z) : n ∈ Nonterminal.all :=
  (Item.wanted_of_mem h.mem_all).1

/-- **Where a body begins**, either nothing has been read, or its head can begin what is wanted at a
place that is not the start of a body. -/
theorem corner (h : Valid γ i z) (hi : i.before = []) :
    (γ = [] ∧ i.head ∈ Nonterminal.root.corners) ∨ ∃ m X α c β z',
      Valid γ ⟨m, X :: α, .nonterminal c :: β⟩ z' ∧ i.head ∈ c.corners := by
  induction h with
  | initial => exact Or.inl ⟨rfl, List.mem_cons_self⟩
  | move => cases hi
  | @enter γ α β ω n m v z h _ _ ih =>
    rcases α with _ | ⟨X, α⟩
    · have hbegun := h.mem_alternatives
      rcases ih rfl with ⟨rfl, hm⟩ | ⟨m', X, α, c, β', z', hc, hm⟩
      · exact Or.inl ⟨rfl, Nonterminal.mem_corners List.mem_cons_self hm hbegun⟩
      · exact Or.inr ⟨m', X, α, c, β', z', hc,
          Nonterminal.mem_corners hc.mem_nonterminals hm hbegun⟩
    · exact Or.inr ⟨m, X, α, n, β, z, h, Nonterminal.mem_corners_self h.mem_nonterminals⟩

end Valid

/-! ### Going back -/

/-- The items whose place is not the start of a body, with a head wanted there. -/
def Item.wanting : List Item := all.filter fun i => match i.before, i.after with
  | _ :: _, .nonterminal _ :: _ => true
  | _, _ => false

/-- The places behind which a head can begin. -/
def Nonterminal.parents (n : Nonterminal) : List (Nonterminal × List GrammarSymbol) :=
  Item.wanting.filterMap fun i => match i.after with
    | .nonterminal m :: _ => if n ∈ m.corners then some (i.head, i.before) else none
    | _ => none

/-- Whether items with these heads, and with this before their places, could be valid for the same
stack, as far as so many steps back can tell. -/
def meets : Nat → Nonterminal → List GrammarSymbol → Nonterminal → List GrammarSymbol → Bool
  | 0, _, _, _, _ => true
  | b + 1, n, X :: α, m, Y :: β => X = Y && meets b n α m β
  | b + 1, n, [], m, Y :: β => n.parents.any fun p => meets b p.1 p.2 m (Y :: β)
  | b + 1, n, X :: α, m, [] => m.parents.any fun q => meets b n (X :: α) q.1 q.2
  | b + 1, n, [], m, [] => n = m ||
      (n ∈ Nonterminal.root.corners && m ∈ Nonterminal.root.corners ||
        n.parents.any fun p => m.parents.any fun q => meets b p.1 p.2 q.1 q.2)

namespace Valid

variable {γ α α' β β' : List GrammarSymbol} {X : GrammarSymbol} {n m c : Nonterminal}
  {z z' : List TokenKind}

theorem mem_parents (h : Valid γ ⟨m, X :: α, .nonterminal c :: β⟩ z) (hn : n ∈ c.corners) :
    (m, X :: α) ∈ n.parents := by
  have hwanting : ⟨m, X :: α, .nonterminal c :: β⟩ ∈ Item.wanting :=
    List.mem_filter.2 ⟨h.mem_all, rfl⟩
  exact List.mem_filterMap.2 ⟨_, hwanting, if_pos hn⟩

/-- **Items that are valid for the same stack are not told apart by going back.** -/
theorem meets {b : Nat} (hn : Valid γ ⟨n, α, β⟩ z) (hm : Valid γ ⟨m, α', β'⟩ z') :
    meets b n α m α' := by
  induction b generalizing γ n m α α' β β' z z' with
  | zero => rfl
  | succ b ih =>
    rcases α with _ | ⟨X, α⟩ <;> rcases α' with _ | ⟨Y, α'⟩
    · simp only [MessageBinder.meets, Bool.or_eq_true, Bool.and_eq_true, decide_eq_true_eq,
        List.any_eq_true]
      rcases hn.corner rfl with ⟨rfl, hn'⟩ | ⟨_, _, _, _, _, _, hp, hn'⟩ <;>
        rcases hm.corner rfl with ⟨hγ, hm'⟩ | ⟨_, _, _, _, _, _, hq, hm'⟩
      · exact Or.inr (Or.inl ⟨hn', hm'⟩)
      · cases hq
      · rw [hγ] at hp
        cases hp
      · exact Or.inr (Or.inr ⟨_, hp.mem_parents hn', _, hq.mem_parents hm', ih hp hq⟩)
    · simp only [MessageBinder.meets, List.any_eq_true]
      rcases hn.corner rfl with ⟨rfl, -⟩ | ⟨_, _, _, _, _, _, hp, hn'⟩
      · cases hm
      · exact ⟨_, hp.mem_parents hn', ih hp hm⟩
    · simp only [MessageBinder.meets, List.any_eq_true]
      rcases hm.corner rfl with ⟨rfl, -⟩ | ⟨_, _, _, _, _, _, hq, hm'⟩
      · cases hn
      · exact ⟨_, hq.mem_parents hm', ih hn hq⟩
    · simp only [MessageBinder.meets, Bool.and_eq_true, decide_eq_true_eq]
      obtain ⟨δ, rfl, hX⟩ := hn.of_move
      obtain ⟨δ', hδ, hY⟩ := hm.of_move
      obtain ⟨rfl, rfl⟩ := List.cons.inj hδ
      exact ⟨rfl, ih hX hY⟩

end Valid

end MessageBinder
