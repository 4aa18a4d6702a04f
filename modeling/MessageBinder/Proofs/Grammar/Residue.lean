import MessageBinder.Proofs.Grammar.Rules
import MessageBinder.Proofs.Grammar.Lookahead

/-!
# What reading leaves of a language

A reader with one token of look-ahead is compared with a language that the tokens in front of it may
be a word of. While tokens are taken, the words of the language that begin otherwise drop out, and
what remains of the others is a language again; the next token alone may rule out more of them.
`MessageBinder.Leaves` is this relation between a language before and after some tokens, given the
kind that stands next. A reader *follows* a language if what it takes leaves, of that language, just
what its result announces, and if it stops exactly where nothing is left: then what it took was the
beginning of a word, and with the token that stands next it is none.

The rules of this file put readers together. What follows a reader is a parameter of its language:
a reader for `A` follows `A * K`, whatever may stand behind it in `K`, and leaves `K`.
-/

namespace MessageBinder

/-- The kinds of tokens. -/
def Token.kinds (ts : List Token) : List TokenKind := ts.map (·.kind)

/-- The kind of the next token. -/
abbrev Token.ahead (ts : List Token) : Option TokenKind := ts.head?.map (·.kind)

open Token (kinds ahead)

theorem Token.kinds_append (ts ts' : List Token) : kinds (ts ++ ts') = kinds ts ++ kinds ts' :=
  List.map_append

/-! ### Languages with a look-ahead -/

section Languages

variable {Λ K K' A B M : Language TokenKind} {h : Option TokenKind} {k : TokenKind}

/-- Some word is in the language. -/
def Possible (Λ : Language TokenKind) : Prop := ∃ w, w ∈ Λ

@[simp]
theorem possible_one : Possible 1 := ⟨[], Language.nil_mem_one⟩

@[simp]
theorem possible_mul : Possible (A * B) ↔ Possible A ∧ Possible B := by
  constructor
  · rintro ⟨w, hw⟩
    obtain ⟨u, hu, v, hv, -⟩ := Language.mem_mul.1 hw
    exact ⟨⟨u, hu⟩, v, hv⟩
  · rintro ⟨⟨u, hu⟩, v, hv⟩
    exact ⟨u ++ v, Language.append_mem_mul hu hv⟩

@[simp]
theorem possible_add : Possible (A + B) ↔ Possible A ∨ Possible B := by
  simp only [Possible, Language.mem_add, exists_or]

@[simp]
theorem possible_kstar : Possible (KStar.kstar A) := ⟨[], Language.nil_mem_kstar A⟩

@[simp]
theorem Rule.possible (r : Rule) : Possible r.language := r.form.exists_derives

/-- One token of an admitted kind. -/
def oneOf (admits : TokenKind → Bool) : Language TokenKind := {w | ∃ k, admits k ∧ w = [k]}

/-- One token of a kind. -/
abbrev one (k : TokenKind) : Language TokenKind := oneOf (· = k)

variable {admits : TokenKind → Bool}

theorem mem_oneOf_mul {w : List TokenKind} :
    w ∈ oneOf admits * K ↔ ∃ k u, admits k ∧ u ∈ K ∧ w = k :: u := by
  rw [Language.mem_mul]
  constructor
  · rintro ⟨_, ⟨k, hk, rfl⟩, u, hu, rfl⟩
    exact ⟨k, u, hk, hu, rfl⟩
  · rintro ⟨k, u, hk, hu, rfl⟩
    exact ⟨[k], ⟨k, hk, rfl⟩, u, hu, rfl⟩

theorem cons_mem_oneOf_mul {w : List TokenKind} : k :: w ∈ oneOf admits * K ↔ admits k ∧ w ∈ K := by
  rw [mem_oneOf_mul]
  constructor
  · rintro ⟨k', u, hk, hu, heq⟩
    obtain ⟨rfl, rfl⟩ := List.cons.inj heq
    exact ⟨hk, hu⟩
  · rintro ⟨hk, hw⟩
    exact ⟨k, w, hk, hw, rfl⟩

theorem Form.language_token (k : TokenKind) : (token k).language = one k := by
  ext w
  rw [mem_language_token]
  constructor
  · rintro rfl
    exact ⟨k, decide_eq_true rfl, rfl⟩
  · rintro ⟨k', hk, rfl⟩
    rw [of_decide_eq_true hk]

theorem oneOf_add (p q : TokenKind → Bool) : oneOf p + oneOf q = oneOf fun k => p k || q k := by
  ext w
  rw [Language.mem_add]
  constructor
  · rintro (⟨k, hk, rfl⟩ | ⟨k, hk, rfl⟩)
    · exact ⟨k, Bool.or_eq_true_iff.2 (Or.inl hk), rfl⟩
    · exact ⟨k, Bool.or_eq_true_iff.2 (Or.inr hk), rfl⟩
  · rintro ⟨k, hk, rfl⟩
    rcases Bool.or_eq_true_iff.1 hk with hk | hk
    · exact Or.inl ⟨k, hk, rfl⟩
    · exact Or.inr ⟨k, hk, rfl⟩

theorem possible_oneOf : Possible (oneOf admits) ↔ ∃ k, admits k := by
  constructor
  · rintro ⟨_, k, hk, rfl⟩
    exact ⟨k, hk⟩
  · rintro ⟨k, hk⟩
    exact ⟨[k], k, hk, rfl⟩

@[simp]
theorem possible_token : Possible (one k) := possible_oneOf.2 ⟨k, decide_eq_true rfl⟩

/-- No word of the language starts with what stands next. -/
def Lacks (h : Option TokenKind) (Λ : Language TokenKind) : Prop := ∀ w ∈ Λ, w.head? ≠ h

theorem lacks_zero : Lacks h 0 := fun w hw => absurd hw (Language.notMem_zero w)

theorem Lacks.add (hA : Lacks h A) (hB : Lacks h B) : Lacks h (A + B) := by
  rintro w (hw | hw)
  · exact hA w hw
  · exact hB w hw

theorem lacks_oneOf (hk : ∀ k, h = some k → ¬ admits k) : Lacks h (oneOf admits * K) := by
  intro w hw
  obtain ⟨k, u, hadm, -, rfl⟩ := mem_oneOf_mul.1 hw
  exact fun heq => hk k heq.symm hadm

theorem lacks_token (hk : h ≠ some k) : Lacks h (one k * K) :=
  lacks_oneOf fun k' hh => by
    rintro hk'
    obtain rfl : k' = k := of_decide_eq_true hk'
    exact hk hh

/-- What starts with a form starts with a kind that can stand first in it. -/
theorem Form.lacks {f : Form} (hf : f.nullable = false) (hh : ∀ k ∈ f.first, h ≠ some k) :
    Lacks h (f.language * K) := by
  intro w hw
  obtain ⟨u, hu, v, -, rfl⟩ := Language.mem_mul.1 hw
  cases u with
  | nil => exact absurd (nullable_of_derives hu) (by simp [hf])
  | cons k u => exact fun heq => hh k (mem_first_of_derives hu) heq.symm

theorem Rule.lacks {r : Rule} (hr : r.nullable = false) (hh : ∀ k ∈ r.first, h ≠ some k) :
    Lacks h (r.language * K) :=
  Form.language_rule r ▸ Form.lacks hr hh

/-- What is left of a language once some tokens have been taken from the front and a token of the
given kind, or the end, stands next. -/
structure Leaves (Λ : Language TokenKind) (c : List TokenKind) (h : Option TokenKind)
    (K : Language TokenKind) : Prop where
  /-- Whatever is left completes what was taken. -/
  sound : ∀ w ∈ K, c ++ w ∈ Λ
  /-- Whatever completes what was taken, and starts with what stands next, is left. -/
  complete : ∀ w, w.head? = h → c ++ w ∈ Λ → w ∈ K

/-- What is left of a language by a look ahead. -/
abbrev Narrows (h : Option TokenKind) (Λ K : Language TokenKind) : Prop := Leaves Λ [] h K

theorem Leaves.trans {c : List TokenKind} {d rest : List Token}
    (hc : Leaves Λ c (ahead (d ++ rest)) K) (hd : Leaves K (kinds d) (ahead rest) K') :
    Leaves Λ (c ++ kinds d) (ahead rest) K' where
  sound w hw := by
    rw [List.append_assoc]
    exact hc.sound _ (hd.sound w hw)
  complete w hw hΛ := by
    rw [List.append_assoc] at hΛ
    refine hd.complete w hw (hc.complete _ ?_ hΛ)
    cases d with
    | nil => exact hw
    | cons t d => rfl

namespace Narrows

theorem refl : Narrows h Λ Λ := ⟨fun _ hw => hw, fun _ _ hw => hw⟩

theorem trans (hK : Narrows h Λ K) (hK' : Narrows h K K') : Narrows h Λ K' :=
  ⟨fun w hw => hK.sound w (hK'.sound w hw),
    fun w hw hΛ => hK'.complete w hw (hK.complete w hw hΛ)⟩

theorem of_lacks (hΛ : Lacks h Λ) : Narrows h Λ 0 :=
  ⟨fun w hw => absurd hw (Language.notMem_zero w), fun w hw hmem => absurd hw (hΛ w hmem)⟩

/-- A summand that cannot start with what stands next drops out. -/
theorem left (hA : Narrows h A K) (hB : Lacks h B) : Narrows h (A + B) K where
  sound w hw := Or.inl (hA.sound w hw)
  complete w hw hΛ := by
    rcases hΛ with hΛ | hΛ
    · exact hA.complete w hw hΛ
    · exact absurd hw (hB w hΛ)

theorem right (hA : Lacks h A) (hB : Narrows h B K) : Narrows h (A + B) K :=
  (add_comm A B ▸ hB.left hA : Narrows h (A + B) K)

theorem add (hA : Narrows h A K) (hB : Narrows h B K') : Narrows h (A + B) (K + K') where
  sound w hw := by
    rcases hw with hw | hw
    · exact Or.inl (hA.sound w hw)
    · exact Or.inr (hB.sound w hw)
  complete w hw hΛ := by
    rcases hΛ with hΛ | hΛ
    · exact Or.inl (hA.complete w hw hΛ)
    · exact Or.inr (hB.complete w hw hΛ)

/-- Two summands of which one swallows the other for what stands next. -/
theorem absorb (hA : Narrows h A K) (hB : ∀ w ∈ B, w.head? = h → w ∈ K) : Narrows h (B + A) K where
  sound w hw := Or.inr (hA.sound w hw)
  complete w hw hΛ := by
    rcases hΛ with hΛ | hΛ
    · exact hB w hΛ hw
    · exact hA.complete w hw hΛ

end Narrows

/-! ### Prediction -/

/-- The alternatives of a form that can start with an admitted kind. -/
def Form.prune (admits : TokenKind → Bool) : Form → Form
  | choice f g =>
    if !f.first.any admits then g.prune admits
    else if !g.first.any admits then f.prune admits
    else choice (f.prune admits) (g.prune admits)
  | f => f

/-- **Prediction.** Of the alternatives of a form those stay that can start with what stands
next. -/
theorem Form.narrows_prune {f : Form} (hf : f.nullable = false) (hh : ∀ k, h = some k → admits k) :
    Narrows h (f.language * K) ((f.prune admits).language * K) := by
  -- an alternative that starts with no admitted kind
  have drop : ∀ {g : Form}, g.nullable = false → (!g.first.any admits) = true →
      Lacks h (g.language * K) := by
    intro g hg hany
    refine g.lacks hg fun k hk heq => ?_
    have hadm : g.first.any admits = true := List.any_eq_true.2 ⟨k, hk, hh k heq⟩
    rw [hadm] at hany
    exact absurd hany (by decide)
  induction f with
  | choice f g ihf ihg =>
    rw [nullable, Bool.or_eq_false_iff] at hf
    rw [show (choice f g).language = f.language + g.language from language_or f g, add_mul, prune]
    split
    · rename_i hany
      exact .right (drop hf.1 hany) (ihg hf.2)
    · split
      · rename_i _ hany
        exact .left (ihf hf.1) (drop hf.2 hany)
      · rw [show (choice (f.prune admits) (g.prune admits)).language =
          (f.prune admits).language + (g.prune admits).language from language_or _ _, add_mul]
        exact (ihf hf.1).add (ihg hf.2)
  | _ => exact .refl

end Languages

/-! ### Readers -/

namespace Parse

variable {α β : Type} {x : Parse α} {f : α → Parse β} {ts : List Token}
  {Λ Λ' K : Language TokenKind} {C : α → Language TokenKind} {D : β → Language TokenKind}
  {m : Nat} {k : TokenKind} {admits : TokenKind → Bool}

/-- The reader takes, of a word of the language, at least so many tokens and leaves what its result
announces; if it stops, it stops at the first token with which no word goes on. -/
inductive Follows (m : Nat) (x : Parse α) (ts : List Token) (Λ : Language TokenKind)
    (C : α → Language TokenKind) : Prop
  /-- Tokens are taken. -/
  | takes {a : α} {c rest : List Token} (hx : x ts = .ok (a, rest)) (hts : ts = c ++ rest)
      (hm : m ≤ c.length) (hc : Leaves Λ (kinds c) (ahead rest) (C a)) : Follows m x ts Λ C
  /-- Nothing is left. -/
  | stops {c rest : List Token} (hx : x ts = .error (.unexpected rest)) (hts : ts = c ++ rest)
      (hc : Leaves Λ (kinds c) (ahead rest) 0) (hw : ∃ w, kinds c ++ w ∈ Λ) : Follows m x ts Λ C

namespace Follows

theorem narrow (hΛ : Narrows (ahead ts) Λ Λ') (hx : Follows m x ts Λ' C) : Follows m x ts Λ C := by
  rcases hx with ⟨hx, rfl, hm, hc⟩ | ⟨hx, rfl, hc, w, hw⟩
  · exact .takes hx rfl hm (Leaves.trans hΛ hc)
  · exact .stops hx rfl (Leaves.trans hΛ hc) ⟨w, hΛ.sound _ hw⟩

theorem narrow_of_ahead {h : Option TokenKind} (hts : ahead ts = h) (hΛ : Narrows h Λ Λ')
    (hx : Follows m x ts Λ' C) : Follows m x ts Λ C := narrow (hts ▸ hΛ) hx

theorem congr {y : Parse α} (heq : x ts = y ts) (hy : Follows m y ts Λ C) : Follows m x ts Λ C := by
  rcases hy with ⟨hy, hts, hm, hc⟩ | ⟨hy, hts, hc, hw⟩
  · exact .takes (heq.trans hy) hts hm hc
  · exact .stops (heq.trans hy) hts hc hw

theorem mono {m' : Nat} (hm : m' ≤ m) (hx : Follows m x ts Λ C) : Follows m' x ts Λ C := by
  rcases hx with ⟨hx, hts, hm', hc⟩ | ⟨hx, hts, hc, hw⟩
  · exact .takes hx hts (hm.trans hm') hc
  · exact .stops hx hts hc hw

/-- **Readers one after the other.** -/
theorem bind {m' : Nat} (hm' : m' ≤ m) (hx : Follows m x ts Λ C)
    (hf : ∀ a rest, rest.length + m ≤ ts.length → Follows 0 (f a) rest (C a) D) :
    Follows m' (x >>= f) ts Λ D := by
  have hbind : (x >>= f) ts = (x ts >>= fun p => f p.1 p.2) := rfl
  rcases hx with @⟨a, c, rest, hx, rfl, hm, hc⟩ | ⟨hx, rfl, hc, hw⟩
  · rw [hx] at hbind
    rcases hf a rest (by rw [List.length_append]; omega) with
      @⟨b, d, rest, hfa, rfl, -, hd⟩ | @⟨d, rest, hfa, rfl, hd, w, hw⟩
    · refine .takes (hbind.trans hfa) (List.append_assoc c d rest).symm ?_ ?_
      · rw [List.length_append]
        omega
      · rw [Token.kinds_append]
        exact hc.trans hd
    · refine .stops (hbind.trans hfa) (List.append_assoc c d rest).symm ?_ ⟨w, ?_⟩
      · rw [Token.kinds_append]
        exact hc.trans hd
      · rw [Token.kinds_append, List.append_assoc]
        exact hc.sound _ hw
  · rw [hx] at hbind
    exact .stops hbind rfl hc hw

theorem pure {a : α} (hΛ : Narrows (ahead ts) Λ (C a)) :
    Follows 0 (Pure.pure a : Parse α) ts Λ C :=
  .takes rfl (List.nil_append ts).symm (Nat.zero_le _) hΛ

theorem peek {f : Option TokenKind → Parse β} (hf : Follows m (f (ahead ts)) ts Λ D) :
    Follows m (Parse.peek >>= f) ts Λ D := by
  rcases hf with ⟨hx, hts, hm, hc⟩ | ⟨hx, hts, hc, hw⟩
  · exact .takes hx hts hm hc
  · exact .stops hx hts hc hw

/-- A token is taken if it is admitted. -/
theorem accept (hadm : ∃ k, admits k) (hK : Possible K) :
    Follows 1 (Parse.accept admits) ts (oneOf admits * K) fun _ => K := by
  have hpossible : Possible (oneOf admits * K) := possible_mul.2 ⟨possible_oneOf.2 hadm, hK⟩
  rcases ts with _ | ⟨t, ts⟩
  · exact .stops rfl (List.nil_append []).symm (Narrows.of_lacks (lacks_oneOf nofun)) hpossible
  · by_cases ht : admits t.kind
    · refine .takes (accept_cons ht) (List.singleton_append).symm (Nat.le_refl 1) ?_
      exact ⟨fun w hw => cons_mem_oneOf_mul.2 ⟨ht, hw⟩, fun w _ hw => (cons_mem_oneOf_mul.1 hw).2⟩
    · refine .stops (if_neg ht) (List.nil_append _).symm ?_ hpossible
      refine Narrows.of_lacks (lacks_oneOf fun k hk => ?_)
      obtain rfl := Option.some.inj hk
      exact ht

theorem expect (hK : Possible K) : Follows 1 (Parse.expect k) ts (one k * K) fun _ => K :=
  accept ⟨k, decide_eq_true rfl⟩ hK

theorem accept_bind {f : Token → Parse β} (hm : m ≤ 1) (hadm : ∃ k, admits k) (hK : Possible K)
    (hf : ∀ t rest, rest.length + 1 ≤ ts.length → Follows 0 (f t) rest K D) :
    Follows m (Parse.accept admits >>= f) ts (oneOf admits * K) D :=
  bind hm (accept hadm hK) hf

theorem expect_bind {f : Token → Parse β} (hm : m ≤ 1) (hK : Possible K)
    (hf : ∀ t rest, rest.length + 1 ≤ ts.length → Follows 0 (f t) rest K D) :
    Follows m (Parse.expect k >>= f) ts (one k * K) D :=
  bind hm (expect hK) hf

/-- A token that may be skipped decides what is left. -/
theorem skip? {f : Bool → Parse β} (hm : m ≤ 1) (hK : Possible K)
    (hthere : ahead ts = some k → Narrows (some k) Λ (one k * K))
    (htrue : ∀ rest, rest.length + 1 ≤ ts.length → Follows 0 (f true) rest K D)
    (hfalse : ahead ts ≠ some k → Follows m (f false) ts Λ D) :
    Follows m (Parse.skip? k >>= f) ts Λ D := by
  by_cases hk : ahead ts = some k
  · have hskip : Follows m (Parse.skip? k >>= f) ts (one k * K) D := by
      refine congr ?_ (expect_bind (f := fun _ => f true) hm hK fun _ => htrue)
      rcases ts with _ | ⟨t, ts⟩
      · cases hk
      · have ht : t.kind = k := Option.some.inj hk
        rw [bind_of_eq_ok (skip?_cons ht), bind_of_eq_ok (expect_cons ht)]
    exact hskip.narrow (hk ▸ hthere hk)
  · refine congr (bind_of_eq_ok (skip?_of_ne fun t ht heq => hk ?_)) (hfalse hk)
    rw [Token.ahead, Option.mem_def.1 ht, Option.map_some, heq]

end Follows

end Parse

end MessageBinder
