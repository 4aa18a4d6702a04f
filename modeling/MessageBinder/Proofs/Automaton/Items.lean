import MessageBinder.Proofs.Automaton.Productions

/-!
# Items

An item is a production with a place in its body. It is valid for a stack of symbols if the stack
can be what has been read when the body has been worked off up to that place, with some input to
come behind the head (`MessageBinder.Valid`). Stacks, and what an item has behind its place, are
written with the last symbol first.

An item can be taken back to the start of its body and another production for its head put in the
place of its own, and the input behind the head stays (`MessageBinder.Valid.rewind`,
`MessageBinder.Valid.change`, `MessageBinder.Valid.replay`). Only nothing has been lost: whatever
the stack spells, followed by what the rest of the body spells and by the input behind the head, is
an input (`MessageBinder.Valid.spells_root`).
-/

namespace MessageBinder

/-- A production and a place in its body. -/
structure Item where
  /-- The head of the production. -/
  head : Nonterminal
  /-- What the body has before the place, the last first. -/
  before : List GrammarSymbol
  /-- What the body has behind the place. -/
  after : List GrammarSymbol
deriving DecidableEq, Repr

/-- The item before everything. -/
def Item.initial : Item := ⟨.root, [], [.nonterminal (.rule .start)]⟩

/-- The item is valid for the stack, with this input behind its head. -/
inductive Valid : List GrammarSymbol → Item → List TokenKind → Prop
  /-- At the start nothing has been read, and nothing follows the input. -/
  | initial : Valid [] .initial []
  /-- A symbol of the body has been read. -/
  | move {γ α β : List GrammarSymbol} {X : GrammarSymbol} {n : Nonterminal} {z : List TokenKind}
      (h : Valid γ ⟨n, α, X :: β⟩ z) : Valid (X :: γ) ⟨n, X :: α, β⟩ z
  /-- The body of a production is begun where its head is wanted. -/
  | enter {γ α β ω : List GrammarSymbol} {n m : Nonterminal} {v z : List TokenKind}
      (h : Valid γ ⟨m, α, .nonterminal n :: β⟩ z) (hv : Spells β v) (hω : ω ∈ n.alternatives) :
      Valid γ ⟨n, [], ω⟩ (v ++ z)

namespace Valid

variable {γ δ α β ω : List GrammarSymbol} {X : GrammarSymbol} {n : Nonterminal} {i : Item}
  {u v z : List TokenKind}

theorem mem_alternatives (h : Valid γ i z) : i.before.reverse ++ i.after ∈ i.head.alternatives := by
  induction h with
  | initial => exact List.mem_singleton_self _
  | move _ ih => simpa using ih
  | enter _ _ hω => exact hω

theorem of_move (h : Valid γ ⟨n, X :: α, β⟩ z) : ∃ δ, γ = X :: δ ∧ Valid δ ⟨n, α, X :: β⟩ z := by
  cases h with
  | move h => exact ⟨_, rfl, h⟩

/-- The body can be taken back to its start. -/
theorem rewind (h : Valid γ ⟨n, α, β⟩ z) : ∃ δ, γ = α ++ δ ∧ Valid δ ⟨n, [], α.reverse ++ β⟩ z := by
  induction α generalizing γ β with
  | nil => exact ⟨γ, rfl, h⟩
  | cons X α ih =>
    obtain ⟨γ, rfl, hX⟩ := h.of_move
    obtain ⟨δ, rfl, hstart⟩ := ih hX
    exact ⟨δ, rfl, by simpa using hstart⟩

/-- Where nothing has been read, nothing of a body has. -/
theorem before_eq_nil (h : Valid [] ⟨n, α, β⟩ z) : α = [] := by
  obtain ⟨δ, hδ, -⟩ := h.rewind
  exact (List.append_eq_nil_iff.1 hδ.symm).1

/-- The body can be worked off from its start. -/
theorem replay (h : Valid δ ⟨n, [], α.reverse ++ β⟩ z) : Valid (α ++ δ) ⟨n, α, β⟩ z := by
  induction α generalizing β with
  | nil => exact h
  | cons X α ih =>
    rw [List.reverse_cons, List.append_assoc] at h
    exact (ih h).move

/-- Where a head is wanted, each of its productions can be begun. -/
theorem change (h : Valid γ ⟨n, [], β⟩ z) (hω : ω ∈ n.alternatives) : Valid γ ⟨n, [], ω⟩ z := by
  cases h with
  | initial =>
    obtain rfl := List.mem_singleton.1 hω
    exact .initial
  | enter h hv _ => exact h.enter hv hω

/-- A body is begun because its head is wanted. -/
theorem exists_parent (h : Valid γ ⟨n, [], ω⟩ z) (hn : n ≠ .root) :
    ∃ m α β v z', Valid γ ⟨m, α, .nonterminal n :: β⟩ z' ∧ Spells β v ∧ z = v ++ z' := by
  cases h with
  | initial => exact absurd rfl hn
  | enter h hv _ => exact ⟨_, _, _, _, _, h, hv, rfl⟩

/-- What is read can be completed to an input. -/
theorem spells_root (h : Valid γ i z) (hu : Spells γ.reverse u) (hv : Spells i.after v) :
    Spells [.nonterminal (.rule .start)] (u ++ (v ++ z)) := by
  induction h generalizing u v with
  | initial =>
    cases hu
    rwa [List.nil_append, List.append_nil]
  | @move γ α β X n z _ ih =>
    rw [List.reverse_cons] at hu
    obtain ⟨u, x, rfl, hu, hx⟩ := hu.exists_of_append
    rw [List.append_assoc, ← List.append_assoc x]
    exact ih hu (hx.append hv)
  | @enter γ α β ω n m v' z _ hv' hω ih =>
    rw [← List.append_assoc v]
    exact ih hu (.nonterminal hω hv hv')

end Valid

/-! ### What is left to do -/

/-- The input is one that the parser can still take with this stack. -/
def Completes (γ : List GrammarSymbol) (w : List TokenKind) : Prop :=
  ∃ i z v, Valid γ i z ∧ Spells i.after v ∧ w = v ++ z

/-- What can be done next with a stack and an input that it can still take. -/
inductive Next (γ : List GrammarSymbol) : List TokenKind → Prop
  /-- A body goes on with the next token. -/
  | token {k : TokenKind} {n : Nonterminal} {α β : List GrammarSymbol} {v z : List TokenKind}
      (h : Valid γ ⟨n, α, .token k :: β⟩ z) (hv : Spells β v) : Next γ (k :: (v ++ z))
  /-- A body is at its end. -/
  | complete {n : Nonterminal} {α : List GrammarSymbol} {z : List TokenKind}
      (h : Valid γ ⟨n, α, []⟩ z) : Next γ z

theorem Valid.next {γ : List GrammarSymbol} {i : Item} {v z : List TokenKind} (h : Valid γ i z)
    (hv : Spells i.after v) : Next γ (v ++ z) := by
  obtain ⟨n, α, β⟩ := i
  replace hv : Spells β v := hv
  induction hv generalizing n α z with
  | nil => exact .complete h
  | token hv _ => exact .token h hv
  | nonterminal hω _ hv ih _ =>
    rw [List.append_assoc]
    exact ih _ _ (h.enter hv hω)

theorem Completes.next {γ : List GrammarSymbol} {w : List TokenKind} (h : Completes γ w) :
    Next γ w := by
  obtain ⟨i, z, v, hi, hv, rfl⟩ := h
  exact hi.next hv

/-- Where a body is at its end, its head has been read. -/
theorem Valid.completes_head {γ ω : List GrammarSymbol} {n : Nonterminal} {z : List TokenKind}
    (h : Valid γ ⟨n, ω.reverse, []⟩ z) (hn : n ≠ .root) :
    ∃ δ, γ = ω.reverse ++ δ ∧ Completes (.nonterminal n :: δ) z := by
  obtain ⟨δ, rfl, hstart⟩ := h.rewind
  obtain ⟨m, α, β, v, z', hm, hv, rfl⟩ := hstart.exists_parent hn
  exact ⟨δ, rfl, _, _, _, hm.move, hv, rfl⟩

end MessageBinder
