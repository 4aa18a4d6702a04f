import MessageBinder.Proofs.Automaton.Contexts

/-!
# Conflicts

A conflict arises where a body is at its end and another item that is valid for the same stack could
go on with the token ahead, or is at its end as well. In this grammar it arises twice, and each time
between a production and a longer one with the same head (`MessageBinder.Valid.rival`): behind the
first statement of a condition an `else` can stand, and behind the left side of an assignment the
operator. Two bodies are never at their ends in front of the same token.

Going on loses nothing. If the token ahead can follow the head of the shorter production, then there
is one around it whose longer form takes the token, and that one can as well be the shorter and
leave the token to the inner one (`MessageBinder.Valid.yield`).
-/

namespace MessageBinder

open TokenKind

/-! ### The two conflicts -/

/-- A production that has a longer one with the same head beside it. -/
structure Extension where
  /-- The head of the two. -/
  head : Nonterminal
  /-- What the longer one has more. -/
  tail : List GrammarSymbol
  /-- The heads that can end with the head of the two. -/
  ends : List Nonterminal

namespace Extension

/-- The second branch of a condition. -/
def elseBranch : Extension where
  head := .rule .ifStmt
  tail := [.token elseWord, .nonterminal (.rule .stmt)]
  ends := [.rule .stmt, .rule .ifStmt]

/-- The right side of an assignment. -/
def assignment : Extension where
  head := .rule .assignExpr
  tail := [.nonterminal (.rule .assignOp), .nonterminal (.rule .assignExpr)]
  ends := [.rule .assignExpr, .rule .arrowFunction, .rule .arrowBody, .rule .conditional]

/-- All of them. -/
def all : List Extension := [elseBranch, assignment]

/-- The kinds with which the longer production goes on. -/
def first (e : Extension) : List TokenKind := (e.tail.head?.map GrammarSymbol.first).getD []

end Extension

/-! ### Items that could be confused -/

/-- A number for a symbol. Items are sorted by what they have last before their places, so that only
those are compared that have the same there. -/
def GrammarSymbol.number : GrammarSymbol → Nat
  | token k => k.ctorIdx
  | nonterminal .root => 64
  | nonterminal (.rule r) => 65 + r.ctorIdx
  | nonterminal (.repeated (.seq _ (.rule r))) => 128 + r.ctorIdx
  | nonterminal (.repeated _) => 128

namespace Item

/-- What can be ahead when the item is worked on. -/
def ahead (i : Item) : List (Option TokenKind) :=
  match i.after with
  | [] => i.head.follow
  | X :: _ => X.first.map some

/-- The number of what stands last before the place. -/
def last (i : Item) : Nat := (i.before.head?.map GrammarSymbol.number).getD 0

/-- Whether two items could be valid for the same stack, the first at its end in front of a token
that the second can go on with. -/
def rivals (i j : Item) : Bool :=
  j.ahead.any i.head.canPrecede && MessageBinder.meets 8 i.head i.before j.head j.before

/-- Whether the second item belongs to the same production as the first, which is at its end, or to
a longer one. -/
def extends? (i j : Item) : Bool :=
  j.head = i.head && j.before = i.before &&
    (j.after = [] || Extension.all.any fun e => e.head = i.head && e.tail = j.after)

/-- Whether the second item, if it is a rival of the first one, only goes on where that one ends. -/
def yields (i j : Item) : Bool := i.extends? j || !i.rivals j

/-- Whether the items of a list that are at their ends yield to all of them. -/
def allYield (is : List Item) : Bool :=
  is.all fun i => match i.after with
    | [] => is.all i.yields
    | _ :: _ => true

/-- Whether this holds of the items of a list, taken apart by some bits of the numbers for what
stands last before their places. -/
def allParts (check : List Item → Bool) : List Nat → List Item → Bool
  | [], is => check is
  | b :: bs, is => allParts check bs (is.filter (·.last.testBit b)) &&
      allParts check bs (is.filter (!·.last.testBit b))

theorem exists_part {check : List Item → Bool} {bs : List Nat} {is : List Item} {i j : Item}
    (h : allParts check bs is) (hi : i ∈ is) (hj : j ∈ is) (hlast : i.last = j.last) :
    ∃ js, i ∈ js ∧ j ∈ js ∧ check js := by
  induction bs generalizing is with
  | nil => exact ⟨is, hi, hj, h⟩
  | cons b bs ih =>
    rw [allParts, Bool.and_eq_true] at h
    cases hbit : i.last.testBit b
    · exact ih h.2 (List.mem_filter.2 ⟨hi, by simp [hbit]⟩)
        (List.mem_filter.2 ⟨hj, by simp [← hlast, hbit]⟩)
    · exact ih h.1 (List.mem_filter.2 ⟨hi, hbit⟩) (List.mem_filter.2 ⟨hj, hlast ▸ hbit⟩)

theorem allParts_allYield :
    allParts allYield [2, 3, 0, 1, 4, 5, 6, 7] (all.filter (·.before ≠ [])) := by
  -- the parts are checked one by one, which takes less memory than all at once
  refine Bool.and_eq_true_iff.2 ⟨Bool.and_eq_true_iff.2 ⟨?_, ?_⟩,
    Bool.and_eq_true_iff.2 ⟨?_, ?_⟩⟩ <;> decide +kernel

end Item

namespace Valid

variable {γ α α' β : List GrammarSymbol} {n m : Nonterminal} {a : Option TokenKind}
  {z z' : List TokenKind}

/-- Only the whole input can be empty. -/
theorem of_empty (h : Valid γ ⟨n, [], []⟩ z) : γ = [] ∧ n = .rule .start := by
  have hstart : ∀ i ∈ Item.all, i.before = [] → i.after = [] → i.head = .rule .start := by
    decide +kernel
  obtain rfl : n = .rule .start := hstart _ h.mem_all rfl rfl
  rcases h.corner rfl with ⟨hγ, -⟩ | ⟨m, X, α, c, β, z', hc, hn⟩
  · exact ⟨hγ, rfl⟩
  · have hnone : (Nonterminal.rule .start).parents = [] := by decide +kernel
    have hmem := hc.mem_parents hn
    rw [hnone] at hmem
    cases hmem

/-- **Where a body is at its end and another item could take the token ahead**, the other item goes
on where the body ends. -/
theorem rival (hi : Valid γ ⟨n, α, []⟩ z) (hj : Valid γ ⟨m, α', β⟩ z') (hα' : α' ≠ [])
    (ha : a ∈ n.follow) (ha' : a ∈ (Item.mk m α' β).ahead) :
    m = n ∧ α' = α ∧ (β = [] ∨ ∃ e ∈ Extension.all, e.head = n ∧ e.tail = β) := by
  obtain ⟨X, α', rfl⟩ := List.exists_cons_of_ne_nil hα'
  obtain ⟨δ, rfl, -⟩ := hj.of_move
  rcases α with _ | ⟨Y, α⟩
  · cases hi.of_empty.1
  obtain ⟨δ', hδ, -⟩ := hi.of_move
  obtain ⟨rfl, rfl⟩ := List.cons.inj hδ
  obtain ⟨is, hi', hj', hall⟩ := Item.exists_part Item.allParts_allYield
    (List.mem_filter.2 ⟨hi.mem_all, by simp⟩) (List.mem_filter.2 ⟨hj.mem_all, by simp⟩) rfl
  have hyields := List.all_eq_true.1 (List.all_eq_true.1 hall _ hi') _ hj'
  rw [Item.yields, Bool.or_eq_true] at hyields
  rcases hyields with hyields | hyields
  · simp only [Item.extends?, Bool.and_eq_true, Bool.or_eq_true, decide_eq_true_eq,
      List.any_eq_true] at hyields
    exact ⟨hyields.1.1, hyields.1.2, hyields.2⟩
  · have hrivals : Item.rivals ⟨n, X :: α, []⟩ ⟨m, X :: α', β⟩ := by
      rw [Item.rivals, Bool.and_eq_true, List.any_eq_true]
      exact ⟨⟨a, ha', Nonterminal.canPrecede_iff.2 ha⟩, hi.meets hj⟩
    rw [hrivals] at hyields
    cases hyields

/-- **Two bodies are not at their ends in front of the same token.** -/
theorem complete_unique (hi : Valid γ ⟨n, α, []⟩ z) (hj : Valid γ ⟨m, α', []⟩ z')
    (ha : a ∈ n.follow) (ha' : a ∈ m.follow) : m = n ∧ α' = α := by
  rcases α' with _ | ⟨X, α'⟩
  · obtain ⟨rfl, rfl⟩ := hj.of_empty
    obtain rfl := hi.before_eq_nil
    exact ⟨hi.of_empty.2.symm, rfl⟩
  · obtain ⟨hm, hα, -⟩ := hi.rival hj (List.cons_ne_nil _ _) ha ha'
    exact ⟨hm, hα⟩

end Valid

/-! ### Going on loses nothing -/

/-- Whether what ends with one of the heads of an extension is one of them itself, is not followed
by what the extension goes on with, or is its shorter production with the longer one beside it. -/
def Item.isExtended (e : Extension) (i : Item) : Bool :=
  match i.after with
  | .nonterminal n :: X :: β => n ∉ e.ends || e.first.all (· ∉ X.first) ||
      X :: β = e.tail && i.before.reverse ++ [.nonterminal n] ∈ i.head.alternatives
  | [.nonterminal n] => n ∉ e.ends || i.head ∈ e.ends ||
      e.first.all fun k => !i.head.canPrecede (some k)
  | _ => true

theorem Item.isExtended_of_mem : ∀ e ∈ Extension.all, ∀ i ∈ all, i.isExtended e := by
  simp only [← List.all_eq_true]
  decide +kernel

namespace Valid

variable {γ : List GrammarSymbol} {i : Item} {e : Extension} {k : TokenKind}
  {r : List TokenKind}

/-- **A token that the longer production takes can be left to the innermost.** Where one of its
heads would be followed by the token, an outer production takes the token and what belongs to it.
That one can do without, and the head can be followed by what is left. -/
theorem yield (he : e ∈ Extension.all) (hk : k ∈ e.first) (h : Valid γ i (k :: r))
    (hi : i.head ∈ e.ends) : ∃ s r', r = s ++ r' ∧ Spells e.tail (k :: s) ∧
      ∀ δ ω, γ = i.before ++ δ → ω ∈ i.head.alternatives → Valid δ ⟨i.head, [], ω⟩ r' := by
  generalize hz : k :: r = z at h
  induction h generalizing r with
  | initial => cases hz
  | @move γ α β X n z _ ih =>
    obtain ⟨s, r', hr, hs, hvalid⟩ := ih hi hz
    exact ⟨s, r', hr, hs, fun δ ω hγ hω => hvalid δ ω (List.cons.inj hγ).2 hω⟩
  | @enter γ α β ω n m v z h hv hω ih =>
    have hextended := Item.isExtended_of_mem e he _ h.mem_all
    rcases β with _ | ⟨X, β⟩
    · cases hv
      replace hz : k :: r = z := hz
      simp only [Item.isExtended, Bool.or_eq_true, decide_eq_true_eq, Bool.not_eq_true',
        List.all_eq_true] at hextended
      rcases hextended with (hn | hm) | hm
      · exact absurd hi hn
      · -- the outer body ends here too
        obtain ⟨s, r', hr, hs, hvalid⟩ := ih hm hz
        refine ⟨s, r', hr, hs, fun δ ω' hδ hω' => ?_⟩
        obtain rfl : γ = δ := hδ
        obtain ⟨ε, rfl, -⟩ := h.rewind
        exact (hvalid ε _ rfl h.mem_alternatives).replay.enter .nil hω'
      · have hfollow := h.mem_follow
        rw [← hz, ← Nonterminal.canPrecede_iff] at hfollow
        cases hfollow.symm.trans (hm k hk)
    · obtain ⟨k', w, rfl, hk', -⟩ := h.spells_cons hv
      obtain ⟨rfl, rfl⟩ := List.cons.inj hz
      simp only [Item.isExtended, Bool.or_eq_true, Bool.and_eq_true, decide_eq_true_eq,
        List.all_eq_true] at hextended
      rcases hextended with (hn | hX) | ⟨htail, hshort⟩
      · exact absurd hi hn
      · exact absurd hk' (hX k hk)
      · -- the outer body takes the token and can do without
        refine ⟨w, z, rfl, htail ▸ hv, fun δ ω' hδ hω' => ?_⟩
        obtain rfl : γ = δ := hδ
        obtain ⟨ε, rfl, hstart⟩ := h.rewind
        exact (hstart.change hshort).replay.enter .nil hω'

end Valid

/-- What an extension goes on with starts with a token. -/
theorem Extension.completes {e : Extension} (he : e ∈ all) {γ α : List GrammarSymbol}
    {n : Nonterminal} {k : TokenKind} {s z : List TokenKind} (h : Valid γ ⟨n, α, e.tail⟩ z)
    (hs : Spells e.tail (k :: s)) : Completes (.token k :: γ) (s ++ z) := by
  simp only [all, List.mem_cons, List.not_mem_nil, or_false] at he
  rcases he with rfl | rfl
  · cases hs with
    | token hs => exact ⟨_, _, _, h.move, hs, rfl⟩
  · generalize hw : k :: s = w at hs
    cases hs with
    | @nonterminal _ ω _ u v hω hu hv =>
      have htoken : ∃ k', ω = [.token k'] := by
        have hall : ∀ ω ∈ (Nonterminal.rule .assignOp).alternatives,
            ω ∈ [.assign, .plusAssign, .minusAssign].map fun k' => [GrammarSymbol.token k'] := by
          decide
        obtain ⟨k', -, rfl⟩ := List.mem_map.1 (hall ω hω)
        exact ⟨k', rfl⟩
      obtain ⟨k', rfl⟩ := htoken
      cases hu with
      | token hnil =>
        cases hnil
        obtain ⟨rfl, rfl⟩ := List.cons.inj hw
        exact ⟨_, _, [], (h.enter hv hω).move, .nil, rfl⟩

/-- **Going on with the token ahead loses nothing.** -/
theorem Completes.shift {γ α β : List GrammarSymbol} {n : Nonterminal} {k : TokenKind}
    {w z : List TokenKind} (h : Completes γ (k :: w)) (hj : Valid γ ⟨n, α, .token k :: β⟩ z) :
    Completes (.token k :: γ) w := by
  generalize hw : k :: w = w' at h
  cases h.next with
  | token hi hv =>
    obtain ⟨rfl, rfl⟩ := List.cons.inj hw
    exact ⟨_, _, _, hi.move, hv, rfl⟩
  | @complete m α' _ hi =>
    subst hw
    have hfollow : some k ∈ m.follow := hi.mem_follow
    have hγ : γ ≠ [] := by
      rintro rfl
      obtain rfl := hi.before_eq_nil
      obtain rfl := hi.of_empty.2
      cases hfollow with
      | tail _ hnil => cases hnil
    obtain ⟨m', Y, δ, Z, ε, z', hplace, hk⟩ :=
      hj.exists_place hγ rfl (List.mem_singleton_self k : k ∈ (GrammarSymbol.token k).first)
    obtain ⟨rfl, rfl, hε | ⟨e, he, rfl, htail⟩⟩ := hi.rival hplace (List.cons_ne_nil _ _) hfollow
      (List.mem_map_of_mem hk)
    · cases hε
    · -- the longer production takes the token, and what was to take it does without
      have hfirst : k ∈ e.first := by
        rw [Extension.first, htail]
        exact hk
      have hends : ∀ e ∈ Extension.all, e.head ∈ e.ends := by decide
      obtain ⟨s, r, rfl, hs, hvalid⟩ := hi.yield he hfirst (hends e he)
      obtain ⟨δ', rfl, -⟩ := hi.rewind
      have hlong := (hvalid δ' _ rfl hplace.mem_alternatives).replay
      rw [← htail] at hlong
      exact Extension.completes he hlong hs

end MessageBinder
