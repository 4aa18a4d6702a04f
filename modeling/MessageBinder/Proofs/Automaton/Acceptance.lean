import MessageBinder.Proofs.Automaton.Table
import MessageBinder.Proofs.Grammar.FirstFault

/-!
# What a table-driven parser accepts

A parser with an LALR(1) table comes to an end on every sequence of tokens. It accepts what the
grammar derives and nothing else, and otherwise stops in front of the first token with which the
tokens up to it begin nothing that the grammar derives.

Three things are kept by every step. The states on the stack are those to which a stack of symbols
leads, an item is valid for it, and it spells what has been taken
(`MessageBinder.ParseTable.Reached`); from this it follows that what is taken always begins
something derivable. What could be completed before the step still can, also where shifting was
preferred (`MessageBinder.Completes.shift`); so nothing derivable is refused. And a reduction lets
the stack weigh less (`MessageBinder.weight`), so there are only finitely many between two tokens.

The readers of this library read the same texts as such a parser and blame the same tokens
(`MessageBinder.Module.parse_of_table`).
-/

namespace MessageBinder

open Token (kinds ahead)

theorem ahead_eq_head? (ts : List Token) : ahead ts = (kinds ts).head? := List.head?_map.symm

/-! ### Runs -/

/-- How a run ends. -/
inductive Verdict where
  /-- The input is accepted. -/
  | accepted
  /-- The first of these tokens cannot stand here, or the end cannot if there is none. -/
  | refused (rest : List Token)

/-- The error that reports a verdict on tokens. -/
def Verdict.error? (ts : Tokens) : Verdict → Option ModuleError
  | accepted => none
  | refused rest => some (Stop.error ts (.unexpected rest))

namespace ParseTable

/-- The state on top of a stack of states. -/
def top (T : ParseTable) (s : List T.State) : T.State := s.headD T.initial

/-- The run of a parser from a stack of states on: it does what the table tells, and stops where the
table tells nothing. To reduce to the whole input at its end is to accept. -/
inductive Runs (T : ParseTable) : List T.State → List Token → Verdict → Prop
  | shift {s : List T.State} {t : Token} {ts : List Token} {q : T.State} {v : Verdict}
      (ha : T.action? (T.top s) (some t.kind) = some (.shift q)) (h : T.Runs (q :: s) ts v) :
      T.Runs s (t :: ts) v
  | reduce {s : List T.State} {ts : List Token} {n : Nonterminal} {ω : List GrammarSymbol}
      {q : T.State} {v : Verdict} (ha : T.action? (T.top s) (ahead ts) = some (.reduce n ω))
      (hn : n ≠ .root) (hq : T.next? (T.top (s.drop ω.length)) (.nonterminal n) = some q)
      (h : T.Runs (q :: s.drop ω.length) ts v) : T.Runs s ts v
  | accept {s : List T.State} {ω : List GrammarSymbol}
      (ha : T.action? (T.top s) none = some (.reduce .root ω)) : T.Runs s [] .accepted
  | refuse {s : List T.State} {ts : List Token} (ha : T.action? (T.top s) (ahead ts) = none) :
      T.Runs s ts (.refused ts)

variable {T : ParseTable} {items : T.State → Set Item}

/-- A stack of symbols leads to a stack of states. -/
inductive Leads (T : ParseTable) : List GrammarSymbol → List T.State → Prop
  | nil : T.Leads [] []
  | cons {γ : List GrammarSymbol} {s : List T.State} {X : GrammarSymbol} {q : T.State}
      (h : T.Leads γ s) (hq : T.next? (T.top s) X = some q) : T.Leads (X :: γ) (q :: s)

namespace Leads

variable {γ δ α ω : List GrammarSymbol} {s : List T.State}

theorem path? (h : T.Leads γ s) : T.path? γ = some (T.top s) := by
  induction h with
  | nil => rfl
  | cons _ hq ih => exact Option.bind_eq_some_iff.2 ⟨_, ih, hq⟩

theorem drop (h : T.Leads (α ++ δ) s) : T.Leads δ (s.drop α.length) := by
  induction α generalizing s with
  | nil => exact h
  | cons X α ih =>
    cases h with
    | cons h _ => exact ih h

/-- Taking a body off the stack. -/
theorem drop_body (h : T.Leads (ω.reverse ++ δ) s) : T.Leads δ (s.drop ω.length) :=
  ω.length_reverse ▸ h.drop

end Leads

/-- Where something is to be done next, the table tells it. -/
theorem IsLalr.action_ne_none (hT : T.IsLalr items) {γ : List GrammarSymbol} {q : T.State}
    {w : List TokenKind} (hq : T.path? γ = some q) (h : Next γ w) : T.action? q w.head? ≠ none := by
  intro hnone
  have hshift : ∀ k, w.head? = some k → T.next? q (.token k) = none := by
    intro k hk
    rw [Option.eq_none_iff_forall_ne_some]
    intro p hp
    cases hnone.symm.trans ((hT.shift_iff _ _ p).2 ⟨k, hk, hp⟩)
  cases h with
  | token hi _ =>
    obtain ⟨p, hp⟩ := hT.exists_next hq hi
    cases (hshift _ rfl).symm.trans hp
  | @complete n α _ hi =>
    have hla : T.Lookahead q n α.reverse w.head? :=
      ⟨γ, w, hq, by rwa [List.reverse_reverse], rfl⟩
    cases hnone.symm.trans ((hT.reduce_iff _ _ _ _).2 ⟨hshift, hla⟩)

/-! ### What the stack stands for -/

/-- The stack of states is one to which a stack of symbols leads for which an item is valid, and
that stack spells what has been taken. -/
structure Reached (T : ParseTable) (γ : List GrammarSymbol) (s : List T.State)
    (u : List TokenKind) : Prop where
  leads : T.Leads γ s
  exists_valid : ∃ i z, Valid γ i z
  spells : Spells γ.reverse u

namespace Reached

variable {γ ω : List GrammarSymbol} {s : List T.State} {u : List TokenKind} {k : TokenKind}
  {q : T.State} {n : Nonterminal} {a : Option TokenKind}

theorem initial : T.Reached [] [] [] := ⟨.nil, ⟨_, _, .initial⟩, .nil⟩

theorem shift (hT : T.IsLalr items) (h : T.Reached γ s u)
    (ha : T.action? (T.top s) (some k) = some (.shift q)) :
    T.Reached (.token k :: γ) (q :: s) (u ++ [k]) := by
  obtain ⟨k', hk, hq⟩ := (hT.shift_iff _ _ _).1 ha
  obtain rfl := Option.some.inj hk
  obtain ⟨n, α, β, z, hi⟩ := hT.exists_wanting h.leads.path? hq
  refine ⟨h.leads.cons hq, ⟨_, _, hi.move⟩, ?_⟩
  rw [List.reverse_cons]
  exact h.spells.append (.token .nil)

/-- Where a production is reduced, its body is on top of the stack. -/
theorem valid_of_reduce (hT : T.IsLalr items) (h : T.Reached γ s u)
    (ha : T.action? (T.top s) a = some (.reduce n ω)) : ∃ z, Valid γ ⟨n, ω.reverse, []⟩ z :=
  hT.valid_of_lookahead h.leads.path? ((hT.reduce_iff _ _ _ _).1 ha).2

theorem reduce (hT : T.IsLalr items) (h : T.Reached γ s u)
    (ha : T.action? (T.top s) a = some (.reduce n ω)) (hn : n ≠ .root) :
    ∃ δ q, γ = ω.reverse ++ δ ∧ T.next? (T.top (s.drop ω.length)) (.nonterminal n) = some q ∧
      T.Reached (.nonterminal n :: δ) (q :: s.drop ω.length) u := by
  obtain ⟨z, hz⟩ := h.valid_of_reduce hT ha
  obtain ⟨δ, rfl, hstart⟩ := hz.rewind
  obtain ⟨m, α, β, v, z', hwant, -, -⟩ := hstart.exists_parent hn
  have hleads := h.leads.drop_body
  obtain ⟨q, hq⟩ := hT.exists_next hleads.path? hwant
  refine ⟨δ, q, rfl, hq, hleads.cons hq, ⟨_, _, hwant.move⟩, ?_⟩
  have hspells := h.spells
  rw [List.reverse_append, List.reverse_reverse] at hspells
  obtain ⟨u, v, rfl, hu, hv⟩ := hspells.exists_of_append
  rw [List.reverse_cons, ← List.append_nil v]
  exact hu.append (.nonterminal (by simpa using hz.mem_alternatives) hv .nil)

/-- What has been taken begins something derivable. -/
theorem exists_derives (h : T.Reached γ s u) : ∃ w, Form.Derives Rule.start (u ++ w) := by
  obtain ⟨i, z, hi⟩ := h.exists_valid
  obtain ⟨v, hv⟩ := exists_spells i.after
  exact ⟨v ++ z, spells_singleton_iff.1 (hi.spells_root h.spells hv)⟩

/-- The whole input is reduced only at its end, and then it is derivable. -/
theorem derives_of_root (hT : T.IsLalr items) (h : T.Reached γ s u)
    (ha : T.action? (T.top s) a = some (.reduce .root ω)) :
    a = none ∧ Form.Derives Rule.start u := by
  obtain ⟨-, γ', z', -, hz', rfl⟩ := (hT.reduce_iff _ _ _ _).1 ha
  obtain ⟨z, hz⟩ := h.valid_of_reduce hT ha
  obtain rfl := (hz.of_root rfl).2
  obtain rfl := (hz'.of_root rfl).2
  have hspells := hz.spells_root h.spells .nil
  rw [List.append_nil, List.append_nil] at hspells
  exact ⟨rfl, spells_singleton_iff.1 hspells⟩

end Reached

/-! ### Whole runs -/

section Runs

variable {γ : List GrammarSymbol} {s : List T.State} {u : List TokenKind} {ts : List Token}
  {v v' : Verdict}

/-- **Nothing derivable is refused.** -/
theorem Runs.accepted_of_completes (hT : T.IsLalr items) (h : T.Runs s ts v) (hs : T.Leads γ s)
    (hγ : Completes γ (kinds ts)) : v = .accepted := by
  induction h generalizing γ with
  | @shift s t ts q v ha _ ih =>
    obtain ⟨k, hk, hq⟩ := (hT.shift_iff _ _ _).1 ha
    obtain rfl := Option.some.inj hk
    obtain ⟨n, α, β, z, hi⟩ := hT.exists_wanting hs.path? hq
    exact ih (hs.cons hq) (Completes.shift hγ hi)
  | @reduce s ts n ω q v ha hn hq _ ih =>
    obtain ⟨hnone, hla⟩ := (hT.reduce_iff _ _ _ _).1 ha
    obtain ⟨z, hz⟩ := hT.valid_of_lookahead hs.path? hla
    have hfollow := hla.mem_follow
    rw [ahead_eq_head?] at hnone hfollow
    generalize kinds ts = w at hγ hnone hfollow ih
    cases hγ.next with
    | token hi _ =>
      obtain ⟨p, hp⟩ := hT.exists_next hs.path? hi
      rw [hnone _ rfl] at hp
      cases hp
    | complete hi =>
      obtain ⟨rfl, rfl⟩ := hz.complete_unique hi hfollow hi.mem_follow
      obtain ⟨δ, rfl, hδ⟩ := hi.completes_head hn
      exact ih (hs.drop_body.cons hq) hδ
  | accept => rfl
  | refuse ha =>
    rw [ahead_eq_head?] at ha
    exact absurd ha (hT.action_ne_none hs.path? hγ.next)

/-- **What is taken begins something derivable**, and if it is refused, so it would be in front of
anything else that starts with the same token. -/
theorem Runs.cases_end (hT : T.IsLalr items) (h : T.Runs s ts v) (hr : T.Reached γ s u) :
    (v = .accepted ∧ Form.Derives Rule.start (u ++ kinds ts)) ∨ ∃ mid rest, ts = mid ++ rest ∧
      v = .refused rest ∧ (∃ w, Form.Derives Rule.start (u ++ kinds mid ++ w)) ∧
      ∀ rest', ahead rest' = ahead rest → T.Runs s (mid ++ rest') (.refused rest') := by
  induction h generalizing γ u with
  | @shift s t ts q v ha _ ih =>
    rcases ih (hr.shift hT ha) with ⟨rfl, hw⟩ | ⟨mid, rest, rfl, rfl, hw, hsame⟩
    · rw [List.append_assoc] at hw
      exact Or.inl ⟨rfl, hw⟩
    · refine Or.inr ⟨t :: mid, rest, rfl, rfl, ?_, fun rest' hrest => .shift ha (hsame rest' hrest)⟩
      simpa [kinds] using hw
  | @reduce s ts n ω q v ha hn hq _ ih =>
    obtain ⟨δ, q', rfl, hq', hδ⟩ := hr.reduce hT ha hn
    obtain rfl := Option.some.inj (hq.symm.trans hq')
    rcases ih hδ with hw | ⟨mid, rest, rfl, rfl, hw, hsame⟩
    · exact Or.inl hw
    · refine Or.inr ⟨mid, rest, rfl, rfl, hw, fun rest' hrest =>
        .reduce ?_ hn hq (hsame rest' hrest)⟩
      rcases mid with _ | ⟨t, mid⟩
      · exact (congrArg _ hrest).trans ha
      · exact ha
  | accept ha =>
    rw [kinds, List.map_nil, List.append_nil]
    exact Or.inl ⟨rfl, (hr.derives_of_root hT ha).2⟩
  | @refuse s ts ha =>
    refine Or.inr ⟨[], ts, rfl, rfl, ?_, fun rest' hrest => .refuse ((congrArg _ hrest).trans ha)⟩
    simpa [kinds] using hr.exists_derives

/-- A run has one end. -/
theorem Runs.unique (h : T.Runs s ts v) (h' : T.Runs s ts v') : v = v' := by
  induction h generalizing v' with
  | shift ha _ ih =>
    cases h' with
    | shift ha' h' =>
      cases ha.symm.trans ha'
      exact ih h'
    | reduce ha' => cases ha.symm.trans ha'
    | refuse ha' => cases ha.symm.trans ha'
  | reduce ha hn hq _ ih =>
    cases h' with
    | shift ha' => cases ha.symm.trans ha'
    | reduce ha' _ hq' h' =>
      cases ha.symm.trans ha'
      cases hq.symm.trans hq'
      exact ih h'
    | accept ha' =>
      cases ha.symm.trans ha'
      exact absurd rfl hn
    | refuse ha' => cases ha.symm.trans ha'
  | accept ha =>
    cases h' with
    | reduce ha' hn' =>
      cases ha.symm.trans ha'
      exact absurd rfl hn'
    | accept => rfl
    | refuse ha' => cases ha.symm.trans ha'
  | refuse ha =>
    cases h' with
    | shift ha' => cases ha.symm.trans ha'
    | reduce ha' => cases ha.symm.trans ha'
    | accept ha' => cases ha.symm.trans ha'
    | refuse => rfl

end Runs

end ParseTable

/-! ### Every run ends -/

/-- How many heads can begin what a symbol stands for. -/
def GrammarSymbol.height : GrammarSymbol → Nat
  | token _ => 0
  | nonterminal n => n.corners.length

theorem GrammarSymbol.height_lt (X : GrammarSymbol) : X.height < 40 := by
  rcases X with k | _ | r | f
  · exact Nat.zero_lt_succ 39
  · decide
  · cases r <;> decide
  · cases f with
    | rule r => cases r <;> decide
    | _ => exact Nat.lt_of_sub_eq_succ rfl

/-- What a stack weighs: the symbols, and on top the less the more heads could begin there. -/
def weight : List GrammarSymbol → Nat
  | [] => 80
  | X :: γ => 40 * (γ.length + 1) - X.height

/-- A production with one symbol goes up. -/
def Item.isUnitHigher (i : Item) : Bool :=
  match i.before, i.after with
  | [X], [] => X.height < (GrammarSymbol.nonterminal i.head).height
  | _, _ => true

theorem Item.isUnitHigher_of_mem : ∀ i ∈ all, i.isUnitHigher := by
  rw [← List.all_eq_true]
  decide +kernel

/-- **A reduction makes the stack lighter.** -/
theorem Valid.weight_lt {δ α : List GrammarSymbol} {n : Nonterminal} {z : List TokenKind}
    (h : Valid (α ++ δ) ⟨n, α, []⟩ z) : weight (.nonterminal n :: δ) < weight (α ++ δ) := by
  rcases α with _ | ⟨X, _ | ⟨Y, α⟩⟩
  · obtain rfl := h.of_empty.1
    simp only [weight, List.nil_append, List.length_nil]
    omega
  · have hhigher := Item.isUnitHigher_of_mem _ h.mem_all
    simp only [Item.isUnitHigher, decide_eq_true_eq] at hhigher
    have hlt := GrammarSymbol.height_lt (.nonterminal n)
    simp only [weight, List.singleton_append]
    omega
  · have hlt := X.height_lt
    simp only [weight, List.cons_append, List.length_cons, List.length_append]
    omega

namespace ParseTable

variable {T : ParseTable} {items : T.State → Set Item}

/-- **Every run comes to an end.** Tokens are taken, and between two of them the stack gets lighter
with every reduction. -/
theorem Reached.exists_runs (hT : T.IsLalr items) {γ : List GrammarSymbol} {s : List T.State}
    {u : List TokenKind} (hr : T.Reached γ s u) (ts : List Token) : ∃ v, T.Runs s ts v := by
  cases ha : T.action? (T.top s) (ahead ts) with
  | none => exact ⟨_, .refuse ha⟩
  | some action =>
    cases action with
    | shift q =>
      rcases ts with _ | ⟨t, ts⟩
      · obtain ⟨k, hk, -⟩ := (hT.shift_iff _ _ _).1 ha
        cases hk
      · obtain ⟨v, hv⟩ := (hr.shift hT ha).exists_runs hT ts
        exact ⟨v, .shift ha hv⟩
    | reduce n ω =>
      by_cases hn : n = .root
      · subst hn
        rcases ts with _ | ⟨t, ts⟩
        · exact ⟨_, .accept ha⟩
        · cases (hr.derives_of_root hT ha).1
      · obtain ⟨z, hz⟩ := hr.valid_of_reduce hT ha
        obtain ⟨δ, q, rfl, hq, hδ⟩ := hr.reduce hT ha hn
        have hlt := hz.weight_lt
        obtain ⟨v, hv⟩ := hδ.exists_runs hT ts
        exact ⟨v, .reduce ha hn hq hv⟩
termination_by (ts.length, weight γ)

/-- **A run accepts what the grammar derives and nothing else**, and otherwise it stops in front of
the first token with which the tokens up to it begin nothing derivable, or at the end of what only
begins something derivable. -/
theorem Runs.accepted_or_refused (hT : T.IsLalr items) {ts : List Token} {v : Verdict}
    (h : T.Runs [] ts v) : (v = .accepted ∧ Derivable ts) ∨ ∃ mid rest, ts = mid ++ rest ∧
      v = .refused rest ∧ ¬ Derivable ts ∧ Viable mid ∧
        ∀ t ∈ rest.head?, ¬ Viable (mid ++ [t]) := by
  have hcompletes : ∀ w, Form.Derives Rule.start w → Completes [] w := fun w hw =>
    ⟨.initial, [], w, .initial, spells_singleton_iff.2 hw, (List.append_nil w).symm⟩
  rcases h.cases_end hT .initial with ⟨rfl, hw⟩ | ⟨mid, rest, rfl, rfl, hviable, hsame⟩
  · exact Or.inl ⟨rfl, hw⟩
  · refine Or.inr ⟨mid, rest, rfl, rfl, fun hderivable => ?_, hviable, ?_⟩
    · cases h.accepted_of_completes hT .nil (hcompletes _ hderivable)
    · rintro t ht ⟨w, hw⟩
      obtain ⟨rest, rfl⟩ := List.head?_eq_some_iff.1 ht
      -- tokens that would make something derivable
      have hrun := hsame (t :: w.map fun k => ⟨k, "", default⟩) rfl
      have hkinds : kinds (mid ++ t :: w.map fun k => ⟨k, "", default⟩) =
          kinds (mid ++ [t]) ++ w := by
        simp [kinds, Function.comp_def]
      cases hrun.accepted_of_completes hT .nil (hcompletes _ (hkinds ▸ hw))

end ParseTable

/-! ### Texts -/

namespace Module

/-- **A table-driven parser accepts what the grammar derives and blames the first token that cannot
stand**, and the readers of this library agree with it. Where every character of a text belongs to a
token, the run of a parser with an LALR(1) table on the tokens with the ends of the statements
settled has exactly one verdict. It is acceptance if and only if the first rule of the grammar
derives the tokens; and what is reported otherwise is the first token with which they begin nothing
derivable, or the end if they all begin something derivable. -/
theorem parse_of_table [CharacterNames] (T : ParseTable) (items : T.State → Set Item)
    (hT : T.IsLalr items) (text : String) (filename : Option String) (base : Nat)
    (hstop : (Tokens.ofText text base).stop = none) :
    ∃ v, (∀ v', T.Runs [] (Tokens.ofText text base).terminate.tokens v' ↔ v' = v) ∧
      (v = .accepted ↔ Derivable (Tokens.ofText text base).terminate.tokens) ∧
      (∀ e, v.error? (Tokens.ofText text base).terminate = some e ↔
        FirstFault (Tokens.ofText text base).terminate.tokens e) ∧
      ∀ e, (parse text filename base = .error e ∧ e.isUnexpected) ↔
        v.error? (Tokens.ofText text base).terminate = some e := by
  obtain ⟨v, hv⟩ := ParseTable.Reached.initial.exists_runs hT
    (Tokens.ofText text base).terminate.tokens
  have hends := hv.accepted_or_refused hT
  have hnone : (Tokens.ofText text base).terminate.stop = none := hstop
  have herror : ∀ e, v.error? (Tokens.ofText text base).terminate = some e ↔
      FirstFault (Tokens.ofText text base).terminate.tokens e := by
    intro e
    rcases hends with ⟨rfl, hderivable⟩ | ⟨mid, rest, hts, rfl, hnot, hviable, hrest⟩
    · exact iff_of_false (fun h => by cases h) fun h => h.not_derivable hderivable
    · have hfault := FirstFault.of_rest hnone hts hnot hviable hrest
      exact ⟨fun h => Option.some.inj h ▸ hfault, fun h => congrArg some (hfault.unique h)⟩
  refine ⟨v, fun v' => ⟨fun h => h.unique hv, fun h => h ▸ hv⟩, ?_, herror, fun e => ?_⟩
  · rcases hends with ⟨rfl, hderivable⟩ | ⟨mid, rest, -, rfl, hnot, -⟩
    · exact iff_of_true rfl hderivable
    · exact iff_of_false (fun h => by cases h) hnot
  · rw [herror]
    exact (parse_firstFault text filename base hstop).2 e

section

attribute [local instance] CharacterNames.nameless

/-- A call cannot be the parameters of an arrow, and the arrow is blamed. The inner of two
conditions takes the `else`, and the last operand of a choice the assignment. -/
theorem parse_of_lalrTable :
    lalrTable.IsLalr id ∧ (Tokens.ofText "f(a) => b" 0).stop = none ∧
      (∃ v, (∀ v', lalrTable.Runs [] (Tokens.ofText "f(a) => b" 0).terminate.tokens v' ↔ v' = v) ∧
        v.error? (Tokens.ofText "f(a) => b" 0).terminate =
          some (.fault (.unexpectedToken .arrow "=>") 1 6)) ∧
      (Tokens.ofText "if (a) if (b) c ? d : e = f; else g" 0).stop = none ∧
      lalrTable.Runs [] (Tokens.ofText "if (a) if (b) c ? d : e = f; else g" 0).terminate.tokens
        .accepted := by
  have hstop : (Tokens.ofText "f(a) => b" 0).stop = none := by decide +kernel
  have hstop' : (Tokens.ofText "if (a) if (b) c ? d : e = f; else g" 0).stop = none := by
    decide +kernel
  have herror : (match parse "f(a) => b" none 0 with
      | .error e => some e
      | .ok _ => none) = some (.fault (.unexpectedToken .arrow "=>") 1 6) := by decide +kernel
  have hparse : parse "f(a) => b" none 0 = .error (.fault (.unexpectedToken .arrow "=>") 1 6) := by
    cases hp : parse "f(a) => b" none 0 with
    | error e =>
      rw [hp] at herror
      rw [Option.some.inj herror]
    | ok m =>
      rw [hp] at herror
      cases herror
  have hok : (parse "if (a) if (b) c ? d : e = f; else g" none 0).isOk := by decide +kernel
  obtain ⟨v, hv, -, -, hreport⟩ := parse_of_table lalrTable id isLalr_lalrTable _ none 0 hstop
  obtain ⟨v', hv', -, -, hreport'⟩ := parse_of_table lalrTable id isLalr_lalrTable _ none 0 hstop'
  have haccepted : v' = .accepted := by
    cases v' with
    | accepted => rfl
    | refused rest =>
      rw [((hreport' _).2 rfl).1] at hok
      cases hok
  exact ⟨isLalr_lalrTable, hstop, ⟨v, hv, (hreport _).1 ⟨hparse, rfl⟩⟩, hstop',
    (hv' _).2 haccepted.symm⟩

end

end Module

end MessageBinder
