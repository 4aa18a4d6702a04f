import MessageBinder.Proofs.Grammar.Bodies
import MessageBinder.Proofs.Grammar.Faults
import MessageBinder.Proofs.Grammar.Soundness

/-!
# What is accepted and which token is blamed

A text whose characters all make tokens has the form of a module if and only if its tokens, with the
ends of the statements settled, are derived by the first rule of the grammar. Otherwise reading
stops as early as it can: at the first token with which the tokens up to it begin nothing that the
grammar derives, or at the end if all the tokens do begin something. The end is blamed at the last
token.

The one token of look-ahead loses nothing, neither where the grammar could take an `else` or an
assignment in two ways nor where the parameters of an arrow look like a grouping: that is what
`MessageBinder.recognizes` says of every reader, whatever stands behind it.
-/

namespace MessageBinder

open Token (kinds ahead)
open Form (language_rule language_many)
open Rule
open Parse (Follows)

/-! ### Reading a whole text -/

theorem language_start : start.language = KStar.kstar stmt.language := by
  change start.form.language = _
  rw [Rule.form, language_many, language_rule]

/-- What is read follows the first rule of the grammar, and nothing stands behind it. -/
theorem follows_readStatements [CharacterNames] {n : Nat} {ts : List Token}
    (hn : 16 * ts.length + 12 < n) :
    Follows 0 (readStatements n) ts start.language fun _ => 1 := by
  induction n generalizing ts with
  | zero => omega
  | succ n ih =>
    have hend : EndsStmt (KStar.kstar stmt.language) := by
      have hstmts := EndsStmt.stmts possible_one (by rintro _ rfl; simp)
      rwa [mul_one] at hstmts
    rw [readStatements, language_start, ← Language.one_add_self_mul_kstar_eq_kstar]
    refine .peek ?_
    split
    · rename_i hnone
      rw [Option.isNone_iff_eq_none] at hnone
      exact .pure (hnone ▸ .left .refl (Rule.lacks rfl (by simp)))
    · rename_i hsome
      refine .narrow (.right ?_ .refl) ?_
      · rintro _ rfl hnil
        exact hsome (hnil ▸ rfl)
      · refine .bind (Nat.zero_le 1) ((recognizes n).stmt_follows (by omega) hend)
          fun _ rest hlen => ?_
        refine .bind le_rfl ?_ fun _ _ _ => .pure .refl
        have hrest : Follows 0 (readStatements n) rest start.language fun _ => 1 := ih (by omega)
        rwa [language_start] at hrest

/-! ### The first fault -/

/-- The grammar derives the kinds of these tokens. -/
def Derivable (ts : List Token) : Prop := Form.Derives start (kinds ts)

/-- Something that the grammar derives begins with the kinds of these tokens. -/
def Viable (ts : List Token) : Prop := ∃ w, Form.Derives start (kinds ts ++ w)

theorem derivable_iff {ts : List Token} : Derivable ts ↔ kinds ts ∈ start.language := by
  rw [← language_rule]
  rfl

theorem viable_iff {ts : List Token} : Viable ts ↔ ∃ w, kinds ts ++ w ∈ start.language := by
  rw [← language_rule]
  rfl

theorem Viable.of_append {ts ts' : List Token} (h : Viable (ts ++ ts')) : Viable ts := by
  obtain ⟨w, hw⟩ := h
  rw [Token.kinds_append, List.append_assoc] at hw
  exact ⟨_, hw⟩

theorem Derivable.viable {ts : List Token} (h : Derivable ts) : Viable ts :=
  ⟨[], by rwa [List.append_nil]⟩

/-- The error blames the first token with which nothing derivable begins any more, or the end of
what only begins something derivable. -/
inductive FirstFault (ts : List Token) : ModuleError → Prop
  /-- A token that cannot stand where it stands. -/
  | token {before rest : List Token} {t : Token} (hts : ts = before ++ t :: rest)
      (hbefore : Viable before) (ht : ¬ Viable (before ++ [t])) :
      FirstFault ts (.faultAt (.unexpectedToken t.kind t.text) t.origin)
  /-- The end, blamed at the last token. -/
  | atEnd {last : Token} (hlast : ts.getLast? = some last) (hviable : Viable ts)
      (hts : ¬ Derivable ts) : FirstFault ts (.faultAt .unexpectedEnd last.origin)

namespace FirstFault

variable {ts : List Token} {e e' : ModuleError}

theorem isUnexpected (h : FirstFault ts e) : e.isUnexpected := by
  cases h <;> rfl

theorem not_derivable (h : FirstFault ts e) : ¬ Derivable ts := by
  rcases h with @⟨before, rest, t, rfl, -, ht⟩ | ⟨-, -, hts⟩
  · intro hderivable
    rw [← List.singleton_append, ← List.append_assoc] at hderivable
    exact ht hderivable.viable.of_append
  · exact hts

/-- What begins something derivable ends before the first token that cannot stand. -/
theorem length_le_of_viable {u before rest : List Token} {t : Token} (hu : Viable u)
    (hfront : u <+: before ++ t :: rest) (ht : ¬ Viable (before ++ [t])) :
    u.length ≤ before.length := by
  by_contra hlt
  have hlonger : before ++ [t] <+: u := by
    have hwhole : before ++ [t] <+: before ++ t :: rest :=
      ⟨rest, by rw [List.append_assoc, List.singleton_append]⟩
    refine List.prefix_of_prefix_length_le hwhole hfront ?_
    rw [List.length_append, List.length_singleton]
    omega
  obtain ⟨v, rfl⟩ := hlonger
  exact ht hu.of_append

/-- **There is one first fault.** -/
theorem unique (h : FirstFault ts e) (h' : FirstFault ts e') : e = e' := by
  rcases h with @⟨before, rest, t, rfl, hbefore, ht⟩ | ⟨hlast, hviable, -⟩
  · rcases h' with @⟨before', rest', t', hts, hbefore', ht'⟩ | ⟨-, hviable, -⟩
    · have hle := length_le_of_viable hbefore (hts ▸ List.prefix_append before _) ht'
      have hle' := length_le_of_viable hbefore' (hts ▸ List.prefix_append before' _) ht
      obtain ⟨-, htail⟩ := List.append_inj hts (Nat.le_antisymm hle hle')
      obtain ⟨rfl, -⟩ := List.cons.inj htail
      rfl
    · have hle := length_le_of_viable hviable (List.prefix_refl _) ht
      rw [List.length_append, List.length_cons] at hle
      omega
  · rcases h' with @⟨before', rest', t', rfl, -, ht'⟩ | ⟨hlast', -, -⟩
    · have hle := length_le_of_viable hviable (List.prefix_refl _) ht'
      rw [List.length_append, List.length_cons] at hle
      omega
    · obtain rfl := Option.some.inj (hlast.symm.trans hlast')
      rfl

end FirstFault

/-- What is reported in front of a token that cannot stand, or at an end that cannot, is the first
fault. -/
theorem FirstFault.of_rest {ts : Tokens} {mid rest : List Token} (hstop : ts.stop = none)
    (hts : ts.tokens = mid ++ rest) (hnot : ¬ Derivable ts.tokens) (hviable : Viable mid)
    (hrest : ∀ t ∈ rest.head?, ¬ Viable (mid ++ [t])) :
    FirstFault ts.tokens (Stop.error ts (.unexpected rest)) := by
  rcases rest with _ | ⟨t, rest⟩
  · rw [List.append_nil] at hts
    cases hlast : ts.tokens.getLast? with
    | none =>
      rw [List.getLast?_eq_none_iff] at hlast
      exact absurd (hlast ▸ .rule .done) hnot
    | some last =>
      have herror : Stop.error ts (.unexpected []) = .faultAt .unexpectedEnd last.origin := by
        simp only [Stop.error, hstop, hlast]
      rw [herror]
      exact .atEnd hlast (hts ▸ hviable) hnot
  · exact .token hts hviable (hrest t rfl)

/-- **Tokens are read to their end if the grammar derives them, and otherwise up to the first
fault.** -/
theorem readTokens_cases [CharacterNames] {ts : Tokens} (hstop : ts.stop = none) :
    (Derivable ts.tokens ∧ Checked.Late (readTokens ts)) ∨
      ∃ e, readTokens ts = .error e ∧ e.isUnexpected ∧ FirstFault ts.tokens e := by
  have hfollows : Follows 0 (readStatements (maxDepth ts.tokens)) ts.tokens start.language
      fun _ => 1 := follows_readStatements (by unfold maxDepth; omega)
  rcases hfollows with @⟨rs, c, rest, hread, hts, -, hc⟩ | @⟨c, rest, hread, hts, hc, hviable⟩
  · -- everything was taken, and what was taken is complete
    obtain ⟨-, -, rfl, -⟩ := takes_readStatements _ _ _ _ hread
    rw [List.append_nil] at hts
    refine Or.inl ⟨derivable_iff.2 ?_, ?_⟩
    · have hnil := hc.sound [] Language.nil_mem_one
      rwa [List.append_nil, ← hts] at hnil
    · rw [readTokens, hread, hstop]
      obtain ⟨rs', -, hmends, -⟩ :=
        mends_readStatements ⟨.string, fun _ => True⟩ _ _ _ _ (fun _ _ => trivial) hread
      exact hmends.toLate
  · refine Or.inr ⟨Stop.error ts (.unexpected rest), ?_, ?_⟩
    · rw [readTokens, hread]
    · have hfault : FirstFault ts.tokens (Stop.error ts (.unexpected rest)) := by
        refine .of_rest hstop hts (fun hderivable => ?_) (viable_iff.2 hviable) ?_
        · rw [derivable_iff, hts, Token.kinds_append] at hderivable
          exact Language.notMem_zero _ (hc.complete _ List.head?_map hderivable)
        · rintro t ht hlonger
          obtain ⟨rest, rfl⟩ := List.head?_eq_some_iff.1 ht
          obtain ⟨w, hw⟩ := viable_iff.1 hlonger
          rw [Token.kinds_append, List.append_assoc] at hw
          exact Language.notMem_zero _ (hc.complete _ rfl hw)
      exact ⟨hfault.isUnexpected, hfault⟩

namespace Module

/-- **The parser accepts what the grammar derives and blames the first token that cannot stand.**
Where every character of a text belongs to a token, the tokens with the ends of the statements
settled are refused if and only if the first rule of the grammar does not derive them; and what is
reported is the first token with which they begin nothing derivable, or the end if they all begin
something derivable. Faults of what has been read, such as `1 = 2`, are no refusals. -/
theorem parse_firstFault [CharacterNames] (text : String) (filename : Option String) (base : Nat)
    (hstop : (Tokens.ofText text base).stop = none) :
    ((∃ e, parse text filename base = .error e ∧ e.isUnexpected) ↔
      ¬ Derivable (Tokens.ofText text base).terminate.tokens) ∧
    ∀ e, (parse text filename base = .error e ∧ e.isUnexpected) ↔
      FirstFault (Tokens.ofText text base).terminate.tokens e := by
  have herror : ∀ e, parse text filename base = .error e ↔
      readTokens (Tokens.ofText text base).terminate = .error e := by
    intro e
    rw [parse]
    cases readTokens (Tokens.ofText text base).terminate with
    | error e' => constructor <;> rintro ⟨⟩ <;> rfl
    | ok body => exact ⟨nofun, nofun⟩
  simp only [herror]
  have hcases := readTokens_cases (show (Tokens.ofText text base).terminate.stop = none from hstop)
  rcases hcases with
    ⟨hderivable, hlate⟩ | ⟨e, hread, hunexpected, hfault⟩
  · have hnone : ∀ e, ¬ (readTokens (Tokens.ofText text base).terminate = .error e ∧
        e.isUnexpected) := by
      rintro e ⟨hread, hunexpected⟩
      rw [hlate e hread] at hunexpected
      cases hunexpected
    exact ⟨iff_of_false (fun ⟨e, he⟩ => hnone e he) (not_not_intro hderivable),
      fun e => iff_of_false (hnone e) fun hfault => hfault.not_derivable hderivable⟩
  · refine ⟨iff_of_true ⟨e, hread, hunexpected⟩ hfault.not_derivable, fun e' => ?_⟩
    constructor
    · rintro ⟨hread', -⟩
      obtain rfl : e = e' := Except.error.inj (hread.symm.trans hread')
      exact hfault
    · intro hfault'
      obtain rfl := hfault.unique hfault'
      exact ⟨hread, hunexpected⟩

end Module

end MessageBinder
