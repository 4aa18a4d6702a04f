import MessageBinder.Proofs.Automaton.Conflicts

/-!
# Tables

What a parser does is decided by a table made from the productions. Here it is any table with the
properties that the LALR(1) construction has (`MessageBinder.ParseTable.IsLalr`). Its states hold
items: the first state those with which the input can begin, and a state that is reached over a
symbol those that have the symbol just before their places, each time with the productions of the
heads that are wanted. A token that an item of the state wants is shifted. Otherwise a production
that is at its end is reduced in front of a token if the token can follow its head behind one of the
stacks that lead to the state. So shifting is preferred to reducing, and the table could not be made
if two productions were to be reduced in front of one token.

The states of such a table hold exactly the items that are valid for the stacks that lead to them
(`MessageBinder.Automaton.Tracks.mem_iff`), so the last proviso is fulfilled
(`MessageBinder.Automaton.Tracks.reduce_unique`), and there is such a table
(`MessageBinder.isLalr_lalrTable`).
-/

namespace MessageBinder

/-! ### Sets of items -/

/-- The items of a set with the productions of the heads that they want. -/
inductive Closure (I : Set Item) : Item → Prop
  | base {i : Item} (h : i ∈ I) : Closure I i
  | enter {m n : Nonterminal} {α β ω : List GrammarSymbol}
      (h : Closure I ⟨m, α, .nonterminal n :: β⟩) (hω : ω ∈ n.alternatives) : Closure I ⟨n, [], ω⟩

/-- The items of a set that want a symbol, behind that symbol. -/
def advance (X : GrammarSymbol) (I : Set Item) : Set Item :=
  {i | ∃ n α β, ⟨n, α, X :: β⟩ ∈ I ∧ i = ⟨n, X :: α, β⟩}

theorem Closure.exists_valid {I : Set Item} {γ : List GrammarSymbol} {i : Item} (h : Closure I i)
    (hI : ∀ j ∈ I, ∃ z, Valid γ j z) : ∃ z, Valid γ i z := by
  induction h with
  | base h => exact hI _ h
  | @enter m n α β ω _ hω ih =>
    obtain ⟨z, hz⟩ := ih
    obtain ⟨v, hv⟩ := exists_spells β
    exact ⟨v ++ z, hz.enter hv hω⟩

/-! ### States -/

/-- States, and the ones that are reached from them over symbols. -/
structure Automaton where
  /-- The states. -/
  State : Type
  /-- The state in which nothing has been read. -/
  initial : State
  /-- The state that is reached over a symbol. -/
  next? : State → GrammarSymbol → Option State

namespace Automaton

/-- The state to which a stack of symbols leads. -/
def path? (A : Automaton) : List GrammarSymbol → Option A.State
  | [] => some A.initial
  | X :: γ => (A.path? γ).bind (A.next? · X)

/-- The states hold the items that they are to hold. -/
structure Tracks (A : Automaton) (items : A.State → Set Item) : Prop where
  items_initial : items A.initial = {i | Closure {Item.initial} i}
  items_next : ∀ q X q', A.next? q X = some q' → items q' = {i | Closure (advance X (items q)) i}
  next_isSome_iff : ∀ q X, (A.next? q X).isSome ↔ (advance X (items q)).Nonempty

/-- In the state, the token ahead, or the end of the input, can follow what the production stands
for, behind a stack that leads to the state. -/
def Lookahead (A : Automaton) (q : A.State) (n : Nonterminal) (ω : List GrammarSymbol)
    (a : Option TokenKind) : Prop :=
  ∃ γ z, A.path? γ = some q ∧ Valid γ ⟨n, ω.reverse, []⟩ z ∧ z.head? = a

theorem Lookahead.mem_follow {A : Automaton} {q : A.State} {n : Nonterminal}
    {ω : List GrammarSymbol} {a : Option TokenKind} (ha : A.Lookahead q n ω a) : a ∈ n.follow := by
  obtain ⟨γ, z, -, hz, rfl⟩ := ha
  exact hz.mem_follow

namespace Tracks

variable {A : Automaton} {items : A.State → Set Item} {γ α β ω : List GrammarSymbol}
  {X : GrammarSymbol} {q q' : A.State} {n m : Nonterminal} {i : Item} {a : Option TokenKind}
  {z : List TokenKind}

/-- The items of a state are a closure. -/
theorem exists_base (h : A.Tracks items) (hq : A.path? γ = some q) :
    ∃ I, items q = {i | Closure I i} := by
  rcases γ with _ | ⟨X, γ⟩
  · obtain rfl := Option.some.inj hq
    exact ⟨_, h.items_initial⟩
  · obtain ⟨p, -, hnext⟩ := Option.bind_eq_some_iff.1 hq
    exact ⟨_, h.items_next p X q hnext⟩

theorem mem_of_valid (h : A.Tracks items) (hq : A.path? γ = some q) (hi : Valid γ i z) :
    i ∈ items q := by
  induction hi generalizing q with
  | initial =>
    obtain rfl := Option.some.inj hq
    rw [h.items_initial]
    exact .base rfl
  | @move γ α β X n z _ ih =>
    obtain ⟨p, hp, hnext⟩ := Option.bind_eq_some_iff.1 hq
    rw [h.items_next p X q hnext]
    exact .base ⟨n, α, β, ih hp, rfl⟩
  | enter _ _ hω ih =>
    obtain ⟨I, hI⟩ := h.exists_base hq
    have hparent := ih hq
    rw [hI] at hparent ⊢
    exact hparent.enter hω

theorem exists_valid (h : A.Tracks items) (hq : A.path? γ = some q) (hi : i ∈ items q) :
    ∃ z, Valid γ i z := by
  induction γ generalizing q i with
  | nil =>
    obtain rfl := Option.some.inj hq
    rw [h.items_initial] at hi
    refine hi.exists_valid fun j hj => ⟨[], ?_⟩
    rw [Set.mem_singleton_iff] at hj
    exact hj ▸ .initial
  | cons X γ ih =>
    obtain ⟨p, hp, hnext⟩ := Option.bind_eq_some_iff.1 hq
    rw [h.items_next p X q hnext] at hi
    refine hi.exists_valid fun j hj => ?_
    obtain ⟨n, α, β, hmem, rfl⟩ := hj
    obtain ⟨z, hz⟩ := ih hp hmem
    exact ⟨z, hz.move⟩

/-- **A state holds the items that are valid for the stacks that lead to it.** -/
theorem mem_iff (h : A.Tracks items) (hq : A.path? γ = some q) :
    i ∈ items q ↔ ∃ z, Valid γ i z :=
  ⟨h.exists_valid hq, fun ⟨_, hz⟩ => h.mem_of_valid hq hz⟩

/-- What an item wants leads on. -/
theorem exists_next (h : A.Tracks items) (hq : A.path? γ = some q)
    (hi : Valid γ ⟨n, α, X :: β⟩ z) : ∃ q', A.next? q X = some q' :=
  Option.isSome_iff_exists.1
    ((h.next_isSome_iff q X).2 ⟨_, n, α, β, h.mem_of_valid hq hi, rfl⟩)

/-- What leads on is wanted by an item. -/
theorem exists_wanting (h : A.Tracks items) (hq : A.path? γ = some q)
    (hnext : A.next? q X = some q') : ∃ n α β z, Valid γ ⟨n, α, X :: β⟩ z := by
  obtain ⟨_, n, α, β, hmem, -⟩ := (h.next_isSome_iff q X).1 (by rw [hnext]; rfl)
  obtain ⟨z, hz⟩ := h.exists_valid hq hmem
  exact ⟨n, α, β, z, hz⟩

/-- Where a production can be reduced in one stack that leads to the state, it is at its end in all
of them. -/
theorem valid_of_lookahead (h : A.Tracks items) (hq : A.path? γ = some q)
    (ha : A.Lookahead q n ω a) : ∃ z, Valid γ ⟨n, ω.reverse, []⟩ z := by
  obtain ⟨γ', z, hq', hz, -⟩ := ha
  exact h.exists_valid hq (h.mem_of_valid hq' hz)

/-- **No two productions are to be reduced in front of the same token.** -/
theorem reduce_unique (h : A.Tracks items) {ω' : List GrammarSymbol} (ha : A.Lookahead q n ω a)
    (ha' : A.Lookahead q m ω' a) : m = n ∧ ω' = ω := by
  obtain ⟨γ, z, hq, hz, -⟩ := id ha
  obtain ⟨z', hz'⟩ := h.valid_of_lookahead hq ha'
  obtain ⟨rfl, hω⟩ := hz.complete_unique hz' ha.mem_follow ha'.mem_follow
  exact ⟨rfl, List.reverse_injective hω⟩

end Tracks

end Automaton

/-! ### Tables -/

/-- What a parser does next. -/
inductive Action (State : Type) where
  /-- It takes the token ahead. -/
  | shift (q : State)
  /-- It takes the body of a production for its head. -/
  | reduce (n : Nonterminal) (ω : List GrammarSymbol)

/-- A table tells what is done in a state, with a token ahead or at the end of the input. -/
structure ParseTable extends Automaton where
  /-- What is done, if anything can be done. -/
  action? : State → Option TokenKind → Option (Action State)

/-- The table is one that the LALR(1) construction makes from the productions, with shifting
preferred to reducing. -/
structure ParseTable.IsLalr (T : ParseTable) (items : T.State → Set Item) : Prop
    extends T.toAutomaton.Tracks items where
  shift_iff : ∀ q a q', T.action? q a = some (.shift q') ↔
    ∃ k, a = some k ∧ T.next? q (.token k) = some q'
  reduce_iff : ∀ q a n ω, T.action? q a = some (.reduce n ω) ↔
    (∀ k, a = some k → T.next? q (.token k) = none) ∧ T.Lookahead q n ω a

noncomputable section

open Classical in
/-- The sets of items themselves, for states. -/
def itemAutomaton : Automaton where
  State := Set Item
  initial := {i | Closure {Item.initial} i}
  next? q X := if (advance X q).Nonempty then some {i | Closure (advance X q) i} else none

open Classical in
/-- The table with the sets of items for states. -/
def lalrTable : ParseTable where
  toAutomaton := itemAutomaton
  action? q a :=
    match a.bind fun k => itemAutomaton.next? q (.token k) with
    | some q' => some (.shift q')
    | none =>
      if h : ∃ p : Nonterminal × List GrammarSymbol, itemAutomaton.Lookahead q p.1 p.2 a then
        some (.reduce h.choose.1 h.choose.2)
      else none

theorem tracks_itemAutomaton : itemAutomaton.Tracks id where
  items_initial := rfl
  items_next q X q' h := by
    simp only [itemAutomaton] at h
    split at h
    · exact (Option.some.inj h).symm
    · cases h
  next_isSome_iff q X := by
    simp only [itemAutomaton, id]
    split <;> simp_all

/-- **There is a table as the LALR(1) construction makes it.** -/
theorem isLalr_lalrTable : lalrTable.IsLalr id where
  toTracks := tracks_itemAutomaton
  shift_iff q a q' := by
    refine Iff.trans ?_ Option.bind_eq_some_iff
    simp only [lalrTable]
    cases a.bind fun k => itemAutomaton.next? q (.token k) with
    | some p => exact ⟨fun h => by cases h; rfl, fun h => by cases h; rfl⟩
    | none =>
      dsimp only
      split <;> exact iff_of_false (fun h => by cases h) fun h => by cases h
  reduce_iff q a n ω := by
    refine Iff.trans ?_ (and_congr_left' Option.bind_eq_none_iff)
    simp only [lalrTable]
    cases a.bind fun k => itemAutomaton.next? q (.token k) with
    | some p => exact iff_of_false (fun h => by cases h) fun h => by cases h.1
    | none =>
      rw [and_iff_right rfl]
      dsimp only
      split
      · rename_i hexists
        have hchosen := hexists.choose_spec
        constructor
        · rintro ⟨rfl, rfl⟩
          exact hchosen
        · intro h
          obtain ⟨hn, hω⟩ := tracks_itemAutomaton.reduce_unique h hchosen
          rw [hn, hω]
      · rename_i hnone
        exact iff_of_false (fun h => by cases h) fun h => hnone ⟨(n, ω), h⟩

end

end MessageBinder
