import Mathlib.Computability.Language
import Mathlib.Order.CompletePartialOrder
import MessageBinder.Proofs.Grammar.Rules

/-!
# Productions

Tables for a parser are made of productions, and a production is a head and a sequence of symbols:
it knows of no options and of no repetitions. So the rules of the grammar are written out. Every
choice and every option makes as many alternatives as there are ways to decide it, and what may be
repeated gets a head of its own, which stands for one or more of it and is recursive on the left.

Nothing is derived by this that was not derived before: a symbol spells what its form derives
(`MessageBinder.spells_singleton_iff`).
-/

namespace MessageBinder

/-- The heads of productions. -/
inductive Nonterminal where
  /-- The whole input. -/
  | root
  /-- What a rule derives. -/
  | rule (r : Rule)
  /-- What a form derives, once or more times. -/
  | repeated (f : Form)
deriving DecidableEq, Repr

/-- What stands in the bodies of productions. -/
inductive GrammarSymbol where
  | token (k : TokenKind)
  | nonterminal (n : Nonterminal)
deriving DecidableEq, Repr

namespace Form

/-- The ways of deciding the choices and options of a form. -/
def alternatives : Form → List (List GrammarSymbol)
  | token k => [[.token k]]
  | rule r => [[.nonterminal (.rule r)]]
  | seq f g => f.alternatives.flatMap fun α => g.alternatives.map (α ++ ·)
  | choice f g => f.alternatives ++ g.alternatives
  | optional f => [] :: f.alternatives
  | many f => [[], [.nonterminal (.repeated f)]]

end Form

/-- The bodies of the productions with this head. -/
def Nonterminal.alternatives : Nonterminal → List (List GrammarSymbol)
  | root => [[.nonterminal (.rule .start)]]
  | rule r => r.form.alternatives
  | repeated f => f.alternatives ++ f.alternatives.map (.nonterminal (.repeated f) :: ·)

/-- The symbols spell the kinds. -/
inductive Spells : List GrammarSymbol → List TokenKind → Prop
  | nil : Spells [] []
  | token {k : TokenKind} {β : List GrammarSymbol} {w : List TokenKind} (h : Spells β w) :
      Spells (.token k :: β) (k :: w)
  | nonterminal {n : Nonterminal} {ω β : List GrammarSymbol} {u v : List TokenKind}
      (hω : ω ∈ n.alternatives) (hu : Spells ω u) (hv : Spells β v) :
      Spells (.nonterminal n :: β) (u ++ v)

namespace Spells

variable {X : GrammarSymbol} {α β : List GrammarSymbol} {u v w : List TokenKind}

theorem append (hα : Spells α u) (hβ : Spells β v) : Spells (α ++ β) (u ++ v) := by
  induction hα with
  | nil => exact hβ
  | token _ ih => exact .token ih
  | nonterminal hω hu _ _ ih =>
    rw [List.append_assoc]
    exact .nonterminal hω hu ih

theorem exists_of_append (h : Spells (α ++ β) w) :
    ∃ u v, w = u ++ v ∧ Spells α u ∧ Spells β v := by
  induction α generalizing w with
  | nil => exact ⟨[], w, rfl, .nil, h⟩
  | cons X α ih =>
    cases h with
    | token h =>
      obtain ⟨u, v, rfl, hu, hv⟩ := ih h
      exact ⟨_, v, rfl, .token hu, hv⟩
    | nonterminal hω hx h =>
      obtain ⟨u, v, rfl, hu, hv⟩ := ih h
      exact ⟨_, v, (List.append_assoc ..).symm, .nonterminal hω hx hu, hv⟩

/-- What is repeated may stand once more in front. -/
theorem cons_repeated {f : Form} (hα : α ∈ f.alternatives) (hu : Spells α u)
    (h : Spells (.nonterminal (.repeated f) :: β) w) :
    Spells (.nonterminal (.repeated f) :: β) (u ++ w) := by
  generalize hγ : GrammarSymbol.nonterminal (.repeated f) :: β = γ at h
  induction h generalizing β with
  | nil | token => cases hγ
  | @nonterminal n ω _ u' v hω hu' hv ih =>
    cases hγ
    rw [← List.append_assoc]
    rcases List.mem_append.1 hω with hmem | hmem
    · have honce : Spells (.nonterminal (.repeated f) :: ω) (u ++ u') :=
        .nonterminal (List.mem_append_left _ hα) hu hu'
      exact .nonterminal (List.mem_append_right _ (List.mem_map_of_mem hmem)) honce hv
    · obtain ⟨α', -, rfl⟩ := List.mem_map.1 hmem
      exact .nonterminal hω (ih rfl) hv

theorem repeated {f : Form} (hα : α ∈ f.alternatives) (hu : Spells α u)
    (hβ : β ∈ (Form.many f).alternatives) (hv : Spells β v) :
    Spells [.nonterminal (.repeated f)] (u ++ v) := by
  rcases List.mem_cons.1 hβ with rfl | hβ
  · cases hv
    exact .nonterminal (List.mem_append_left _ hα) hu .nil
  · obtain rfl := List.mem_singleton.1 hβ
    exact .cons_repeated hα hu hv

end Spells

/-! ### What symbols spell -/

/-- The form that derives what a symbol spells. -/
def GrammarSymbol.form : GrammarSymbol → Form
  | token k => .token k
  | nonterminal .root => .rule .start
  | nonterminal (.rule r) => .rule r
  | nonterminal (.repeated f) => .seq f (.many f)

/-- What the forms of a sequence of symbols derive, one after the other. -/
def spelled (α : List GrammarSymbol) : Language TokenKind :=
  (α.map fun X => X.form.language).prod

namespace Form

theorem spelled_le {f : Form} {α : List GrammarSymbol} (h : α ∈ f.alternatives) :
    spelled α ≤ f.language := by
  induction f generalizing α with
  | token k =>
    obtain rfl := List.mem_singleton.1 h
    simp [spelled, GrammarSymbol.form]
  | rule r =>
    obtain rfl := List.mem_singleton.1 h
    simp [spelled, GrammarSymbol.form]
  | seq f g ihf ihg =>
    obtain ⟨β, hβ, h⟩ := List.mem_flatMap.1 h
    obtain ⟨γ, hγ, rfl⟩ := List.mem_map.1 h
    rw [spelled, List.map_append, List.prod_append]
    exact (mul_le_mul' (ihf hβ) (ihg hγ)).trans_eq (language_append f g).symm
  | choice f g ihf ihg =>
    refine le_trans ?_ (language_or f g).ge
    rcases List.mem_append.1 h with h | h
    · exact (ihf h).trans le_self_add
    · exact (ihg h).trans le_add_self
  | optional f ih =>
    rw [language_optional]
    rcases List.mem_cons.1 h with rfl | h
    · exact le_self_add
    · exact (ih h).trans le_add_self
  | many f =>
    rw [language_many]
    rcases List.mem_cons.1 h with rfl | h
    · exact one_le_kstar
    · obtain rfl := List.mem_singleton.1 h
      have hseq : (seq f (many f)).language = f.language * (many f).language := language_append _ _
      simp only [spelled, GrammarSymbol.form, List.map_cons, List.map_nil, List.prod_singleton,
        hseq, language_many]
      exact mul_kstar_le_kstar

end Form

open Form (language_many language_append) in
theorem Nonterminal.spelled_le {n : Nonterminal} {ω : List GrammarSymbol}
    (h : ω ∈ n.alternatives) : spelled ω ≤ (GrammarSymbol.nonterminal n).form.language := by
  cases n with
  | root =>
    obtain rfl := List.mem_singleton.1 h
    simp [spelled, GrammarSymbol.form]
  | rule r => exact (Form.spelled_le h).trans_eq (Form.language_rule r).symm
  | repeated f =>
    have hseq : (Form.seq f (.many f)).language = f.language * (Form.many f).language :=
      language_append _ _
    rw [GrammarSymbol.form, hseq, language_many]
    rcases List.mem_append.1 h with h | h
    · calc spelled ω ≤ f.language := Form.spelled_le h
        _ = f.language * 1 := (mul_one _).symm
        _ ≤ f.language * KStar.kstar f.language := mul_le_mul_right one_le_kstar _
    · obtain ⟨α, hα, rfl⟩ := List.mem_map.1 h
      have hα := Form.spelled_le hα
      rw [spelled, List.map_cons, List.prod_cons, GrammarSymbol.form, hseq, language_many,
        mul_assoc]
      refine mul_le_mul_right ?_ _
      exact (mul_le_mul_right hα _).trans kstar_mul_le_kstar

theorem Spells.mem_spelled {α : List GrammarSymbol} {w : List TokenKind} (h : Spells α w) :
    w ∈ spelled α := by
  induction h with
  | nil => exact Language.nil_mem_one
  | @token k β w _ ih =>
    rw [spelled, List.map_cons, List.prod_cons, ← List.singleton_append]
    exact Language.append_mem_mul (Form.mem_language_token.2 rfl) ih
  | nonterminal hω _ _ ihu ihv =>
    rw [spelled, List.map_cons, List.prod_cons]
    exact Language.append_mem_mul (Nonterminal.spelled_le hω ihu) ihv

namespace Form

/-- What a form derives is spelled by one of its alternatives. -/
theorem exists_spells {f : Form} {w : List TokenKind} (h : Derives f w) :
    ∃ α ∈ f.alternatives, Spells α w := by
  induction h with
  | token k => exact ⟨_, List.mem_singleton_self _, .token .nil⟩
  | @rule r w _ ih =>
    obtain ⟨α, hα, hw⟩ := ih
    refine ⟨_, List.mem_singleton_self _, ?_⟩
    rw [← List.append_nil w]
    exact .nonterminal hα hw .nil
  | seq _ _ ihf ihg =>
    obtain ⟨α, hα, hu⟩ := ihf
    obtain ⟨β, hβ, hv⟩ := ihg
    exact ⟨_, List.mem_flatMap.2 ⟨α, hα, List.mem_map_of_mem hβ⟩, hu.append hv⟩
  | left _ ih =>
    obtain ⟨α, hα, hw⟩ := ih
    exact ⟨α, List.mem_append_left _ hα, hw⟩
  | right _ ih =>
    obtain ⟨α, hα, hw⟩ := ih
    exact ⟨α, List.mem_append_right _ hα, hw⟩
  | none | done => exact ⟨[], List.mem_cons_self, .nil⟩
  | some _ ih =>
    obtain ⟨α, hα, hw⟩ := ih
    exact ⟨α, List.mem_cons_of_mem _ hα, hw⟩
  | @more f u v _ _ ihf ihm =>
    obtain ⟨α, hα, hu⟩ := ihf
    obtain ⟨β, hβ, hv⟩ := ihm
    exact ⟨_, List.mem_cons_of_mem _ (List.mem_singleton_self _), .repeated hα hu hβ hv⟩

end Form

/-- **A symbol spells what its form derives.** -/
theorem spells_singleton_iff {X : GrammarSymbol} {w : List TokenKind} :
    Spells [X] w ↔ Form.Derives X.form w := by
  constructor
  · intro h
    have hmem := h.mem_spelled
    rwa [spelled, List.map_singleton, List.prod_singleton] at hmem
  · intro h
    rcases X with k | _ | r | f
    · cases h
      exact .token .nil
    · obtain ⟨α, hα, hw⟩ := Form.exists_spells h
      rw [← List.append_nil w]
      exact .nonterminal (List.mem_singleton_self _) (List.mem_singleton.1 hα ▸ hw) .nil
    · obtain ⟨α, hα, hw⟩ := Form.exists_spells h
      exact List.mem_singleton.1 hα ▸ hw
    · cases h with
      | seq hf hm =>
        obtain ⟨α, hα, hu⟩ := Form.exists_spells hf
        obtain ⟨β, hβ, hv⟩ := Form.exists_spells hm
        exact .repeated hα hu hβ hv

end MessageBinder
