import MessageBinder.Proofs.Grammar.Phrase

/-!
# Running readers

A reader takes tokens from the front. The lemmas of this file take a run of a reader apart: what a
sequence of readers took is what the first took and then what the others took, a look ahead takes
nothing, and a list is read item by item. Whether a reader succeeded on these tokens is all they
assume, so that they serve for every reader of the grammar.

`MessageBinder.Parse.Reads` says what a reader makes of the tokens that it takes. It has one rule
for each way in which readers are put together, and a proof about a reader goes along its text: each
rule adds what was taken to the front of what the rest of the reader takes.
-/

namespace MessageBinder

namespace Parse

variable {α β : Type} {ts rest : List Token}

/-- A sequence of readers: the first reads, and the next reads what is left. -/
theorem bind_eq_ok {x : Parse α} {f : α → Parse β} {b : β} :
    (x >>= f) ts = .ok (b, rest) ↔ ∃ a mid, x ts = .ok (a, mid) ∧ f a mid = .ok (b, rest) := by
  rw [show (x >>= f) ts = (x ts >>= fun p => f p.1 p.2) from rfl]
  cases x ts with
  | error e => simp [bind, Except.bind]
  | ok p => simp [bind, Except.bind, Prod.ext_iff, and_assoc]

theorem pure_eq_ok {a b : α} :
    (pure a : Parse α) ts = .ok (b, rest) ↔ b = a ∧ rest = ts := by
  rw [show (pure a : Parse α) ts = .ok (a, ts) from rfl, Except.ok.injEq, Prod.mk.injEq,
    eq_comm, eq_comm (a := ts)]

/-- A look ahead takes nothing. -/
theorem peek_bind (f : Option TokenKind → Parse α) :
    (peek >>= f) ts = f (ts.head?.map (·.kind)) ts := rfl

theorem accept_eq_ok {admits : TokenKind → Bool} {t : Token} :
    accept admits ts = .ok (t, rest) ↔ ts = t :: rest ∧ admits t.kind := by
  cases ts with
  | nil => simp [accept]
  | cons t' ts =>
    simp only [accept, List.cons.injEq]
    split
    · rename_i h
      constructor
      · intro heq
        obtain ⟨rfl, rfl⟩ := Prod.mk.inj (Except.ok.inj heq)
        exact ⟨⟨rfl, rfl⟩, h⟩
      · rintro ⟨⟨rfl, rfl⟩, -⟩
        rfl
    · rename_i h
      constructor
      · nofun
      · rintro ⟨⟨rfl, rfl⟩, h'⟩
        exact absurd h' h

theorem expect_eq_ok {kind : TokenKind} {t : Token} :
    expect kind ts = .ok (t, rest) ↔ ts = t :: rest ∧ t.kind = kind := by
  rw [expect, accept_eq_ok, decide_eq_true_iff]

theorem skip?_eq_ok {kind : TokenKind} {b : Bool} :
    skip? kind ts = .ok (b, rest) ↔
      (b = true ∧ ∃ t, ts = t :: rest ∧ t.kind = kind) ∨
        (b = false ∧ rest = ts ∧ ts.head?.map (·.kind) ≠ some kind) := by
  rw [skip?, peek_bind]
  split
  · rename_i h
    simp only [bind_eq_ok, expect_eq_ok, pure_eq_ok, h]
    constructor
    · rintro ⟨t, mid, ⟨hts, hk⟩, rfl, rfl⟩
      exact Or.inl ⟨rfl, t, hts, hk⟩
    · rintro (⟨rfl, t, hts, hk⟩ | ⟨-, -, hc⟩)
      · exact ⟨t, rest, ⟨hts, hk⟩, rfl, rfl⟩
      · exact absurd rfl hc
  · rename_i h
    rw [pure_eq_ok]
    constructor
    · rintro ⟨rfl, rfl⟩
      exact Or.inr ⟨rfl, rfl, h⟩
    · rintro (⟨rfl, t, rfl, hk⟩ | ⟨rfl, rfl, -⟩)
      · exact absurd (congrArg some hk) h
      · exact ⟨rfl, rfl⟩

theorem accept_bind_eq_ok {admits : TokenKind → Bool} {f : Token → Parse β} {b : β} :
    (accept admits >>= f) ts = .ok (b, rest) ↔
      ∃ t mid, ts = t :: mid ∧ admits t.kind ∧ f t mid = .ok (b, rest) := by
  simp only [bind_eq_ok, accept_eq_ok, and_assoc]

/-- A token that may be skipped is either there and taken or not there. -/
theorem skip?_bind_eq_ok {kind : TokenKind} {f : Bool → Parse β} {b : β} :
    (skip? kind >>= f) ts = .ok (b, rest) ↔
      (∃ t mid, ts = t :: mid ∧ t.kind = kind ∧ f true mid = .ok (b, rest)) ∨
        (ts.head?.map (·.kind) ≠ some kind ∧ f false ts = .ok (b, rest)) := by
  simp only [bind_eq_ok, skip?_eq_ok]
  constructor
  · rintro ⟨a, mid, ⟨rfl, t, hts, hk⟩ | ⟨rfl, rfl, hne⟩, h⟩
    · exact Or.inl ⟨t, mid, hts, hk, h⟩
    · exact Or.inr ⟨hne, h⟩
  · rintro (⟨t, mid, hts, hk, h⟩ | ⟨hne, h⟩)
    · exact ⟨true, mid, Or.inl ⟨rfl, t, hts, hk⟩, h⟩
    · exact ⟨false, ts, Or.inr ⟨rfl, rfl, hne⟩, h⟩

theorem not_tooDeep {a : α} : (tooDeep : Parse α) ts ≠ .ok (a, rest) := nofun

/-! ### What a reader reads -/

/-- Whatever the reader takes from the front has the given relation to what it makes of it and to
what is left. -/
def Reads (x : Parse α) (Q : α → List Token → List Token → Prop) : Prop :=
  ∀ ts a rest, x ts = .ok (a, rest) → ∃ c, ts = c ++ rest ∧ Q a c rest

/-- Whatever the reader takes from the front has the given relation to what it makes of it. -/
abbrev Takes (x : Parse α) (Q : α → List Token → Prop) : Prop := Reads x fun a c _ => Q a c

theorem takes_accept (admits : TokenKind → Bool) :
    Takes (accept admits) fun t c => c = [t] ∧ admits t.kind := by
  intro ts t rest h
  obtain ⟨rfl, hk⟩ := accept_eq_ok.1 h
  exact ⟨[t], rfl, rfl, hk⟩

namespace Reads

variable {x y : Parse β} {f : α → Parse β} {Q : β → List Token → List Token → Prop}

theorem mono (h : Reads x Q) {R : β → List Token → List Token → Prop}
    (hQR : ∀ b c rest, Q b c rest → R b c rest) : Reads x R := by
  intro ts b rest hx
  obtain ⟨c, hts, hq⟩ := h ts b rest hx
  exact ⟨c, hts, hQR b c rest hq⟩

theorem tooDeep : Reads Parse.tooDeep Q := fun _ _ _ h => absurd h not_tooDeep

theorem pure {b : β} (h : ∀ rest, Q b [] rest) : Reads (Pure.pure b) Q := by
  intro ts b' rest hb
  obtain ⟨rfl, rfl⟩ := pure_eq_ok.1 hb
  exact ⟨[], rfl, h rest⟩

/-- What is ahead is the first of what is read and what is left. -/
theorem peek_ahead {g : Option TokenKind → Parse β} (h : ∀ next, Reads (g next) fun b c rest =>
      (c ++ rest).head?.map (·.kind) = next → Q b c rest) :
    Reads (Parse.peek >>= g) Q := by
  intro ts b rest hb
  rw [peek_bind] at hb
  obtain ⟨c, rfl, hc⟩ := h _ _ _ _ hb
  exact ⟨c, rfl, hc rfl⟩

/-- What is ahead may be any token. -/
theorem peek {g : Option TokenKind → Parse β} (h : ∀ next, Reads (g next) Q) :
    Reads (Parse.peek >>= g) Q :=
  peek_ahead fun next => (h next).mono fun _ _ _ hq _ => hq

/-- A sequence reads what its first reader takes, and behind it what the others read. -/
theorem bind {z : Parse α} {P : α → List Token → Prop} (hz : Takes z P)
    (h : ∀ a c, P a c → Reads (f a) fun b c' rest => Q b (c ++ c') rest) :
    Reads (z >>= f) Q := by
  intro ts b rest hb
  obtain ⟨a, mid, ha, hf⟩ := bind_eq_ok.1 hb
  obtain ⟨c, rfl, hc⟩ := hz _ _ _ ha
  obtain ⟨c', rfl, hc'⟩ := h a c hc _ _ _ hf
  exact ⟨c ++ c', (List.append_assoc ..).symm, hc'⟩

/-- The same where what the first reader takes depends on what is behind it. -/
theorem bind_behind {z : Parse α} {P : α → List Token → List Token → Prop} (hz : Reads z P)
    (h : ∀ a c, Reads (f a) fun b c' rest => P a c (c' ++ rest) → Q b (c ++ c') rest) :
    Reads (z >>= f) Q := by
  intro ts b rest hb
  obtain ⟨a, mid, ha, hf⟩ := bind_eq_ok.1 hb
  obtain ⟨c, rfl, hc⟩ := hz _ _ _ ha
  obtain ⟨c', rfl, hc'⟩ := h a c _ _ _ hf
  exact ⟨c ++ c', (List.append_assoc ..).symm, hc' hc⟩

/-- The last reader of a sequence. -/
theorem last {z : Parse α} {g : α → β} {P : α → List Token → Prop} (hz : Takes z P)
    (h : ∀ a c, P a c → ∀ rest, Q (g a) c rest) :
    Reads (z >>= fun a => Pure.pure (g a)) Q :=
  bind hz fun a c hc => pure fun rest => (List.append_nil c).symm ▸ h a c hc rest

theorem accept {admits : TokenKind → Bool} {g : Token → Parse β}
    (h : ∀ t, admits t.kind → Reads (g t) fun b c rest => Q b (t :: c) rest) :
    Reads (Parse.accept admits >>= g) Q :=
  bind (takes_accept admits) fun t _ ⟨hc, ht⟩ => hc ▸ h t ht

theorem expect {kind : TokenKind} {g : Token → Parse β}
    (h : ∀ t, t.kind = kind → Reads (g t) fun b c rest => Q b (t :: c) rest) :
    Reads (Parse.expect kind >>= g) Q :=
  accept fun t ht => h t (of_decide_eq_true ht)

/-- A token that may be there is taken or not. -/
theorem skip? {kind : TokenKind}
    (hx : ∀ t, t.kind = kind → Reads x fun b c rest => Q b (t :: c) rest) (hy : Reads y Q) :
    Reads (Parse.skip? kind >>= fun there => if there then x else y) Q := by
  intro ts b rest hb
  rcases skip?_bind_eq_ok.1 hb with ⟨t, mid, rfl, ht, hx'⟩ | ⟨-, hy'⟩
  · obtain ⟨c, rfl, hc⟩ := hx t ht _ _ _ hx'
    exact ⟨t :: c, rfl, hc⟩
  · exact hy _ _ _ hy'

end Reads

/-- **Lists are read item by item.** -/
theorem Takes.moreItems {item : Parse α} {Q : α → List Token → Prop} (h : Takes item Q)
    (close : TokenKind) (trailing : Bool) (n : Nat) :
    Takes (moreItems item close trailing n) (Items Q close trailing) := by
  induction n with
  | zero => exact .tooDeep
  | succ n ih =>
    rw [Parse.moreItems]
    refine .bind h fun x c hc => .skip? (fun comma hcomma => .peek fun next => ?_) ?_
    · -- behind a comma stands the closing token or another item
      split
      · rename_i hclose
        rw [Bool.and_eq_true] at hclose
        exact .expect fun t ht => .pure fun _ => .trailed hc hcomma ht hclose.1
      · exact .last ih fun xs c' hc' _ => .more hc hcomma hc'
    · exact .expect fun t ht => .pure fun _ => .last hc ht

theorem Takes.items {item : Parse α} {Q : α → List Token → Prop} (h : Takes item Q)
    (close : TokenKind) (trailing : Bool) (n : Nat) :
    Takes (items item close trailing n) (Listed Q close trailing) := by
  rw [Parse.items]
  refine .skip? (fun t ht => .pure fun _ => Or.inl ⟨rfl, t, ht, rfl⟩) ?_
  exact (h.moreItems close trailing n).mono fun _ _ _ hc => Or.inr hc

end Parse

theorem Except.eq_ok_of_toOption {ε α : Type} {r : Except ε α} {a : α}
    (h : r.toOption = some a) : r = .ok a := by
  cases r with
  | error e => cases h
  | ok a' =>
    obtain rfl : a' = a := Option.some.inj h
    rfl

/-! ### Lists of checked items -/

section Checked

variable {α β : Type} {f : α → Checked β} {Q : α → List Token → Prop} {R : β → List Token → Prop}
  {close : TokenKind} {trailing : Bool}

theorem Checked.bind_eq_ok {x : Checked α} {g : α → Checked β} {b : β} :
    (x >>= g) = .ok b ↔ ∃ a, x = .ok a ∧ g a = .ok b := by
  cases x with
  | error e => simp [bind, Except.bind]
  | ok a => simp [bind, Except.bind]

theorem Checked.pure_eq_ok {a b : α} : (pure a : Checked α) = .ok b ↔ b = a := by
  rw [show (pure a : Checked α) = .ok a from rfl, Except.ok.injEq, eq_comm]

theorem Checked.map_eq_ok {x : Checked α} {g : α → β} {b : β} :
    x.map g = .ok b ↔ ∃ a, x = .ok a ∧ b = g a := by
  cases x with
  | error e => simp [Except.map]
  | ok a => simp [Except.map, eq_comm]

theorem Checked.mapM_cons_eq_ok {x : α} {xs : List α} {ys : List β} :
    (x :: xs).mapM f = .ok ys ↔ ∃ y ys', f x = .ok y ∧ xs.mapM f = .ok ys' ∧ ys = y :: ys' := by
  rw [List.mapM_cons]
  simp only [Checked.bind_eq_ok, Checked.pure_eq_ok]
  constructor
  · rintro ⟨y, hy, ys', hys', rfl⟩
    exact ⟨y, ys', hy, hys', rfl⟩
  · rintro ⟨y, ys', hy, hys', rfl⟩
    exact ⟨y, hy, ys', hys', rfl⟩

theorem Checked.mapM_nil_eq_ok {ys : List β} : ([] : List α).mapM f = .ok ys ↔ ys = [] := by
  rw [List.mapM_nil, Checked.pure_eq_ok]

/-- If each item without a fault is a good one, the list without a fault has good items only. -/
theorem Items.mapM {xs : List α} {c : List Token} (h : Items Q close trailing xs c)
    (hf : ∀ x c y, Q x c → f x = .ok y → R y c) {ys : List β} (hys : xs.mapM f = .ok ys) :
    Items R close trailing ys c := by
  induction h generalizing ys with
  | last hx ht =>
    obtain ⟨y, ys', hy, hys', rfl⟩ := Checked.mapM_cons_eq_ok.1 hys
    rw [Checked.mapM_nil_eq_ok.1 hys']
    exact .last (hf _ _ _ hx hy) ht
  | trailed hx hc ht htrailing =>
    obtain ⟨y, ys', hy, hys', rfl⟩ := Checked.mapM_cons_eq_ok.1 hys
    rw [Checked.mapM_nil_eq_ok.1 hys']
    exact .trailed (hf _ _ _ hx hy) hc ht htrailing
  | more hx hc _ ih =>
    obtain ⟨y, ys', hy, hys', rfl⟩ := Checked.mapM_cons_eq_ok.1 hys
    exact .more (hf _ _ _ hx hy) hc (ih hys')

theorem Listed.mapM {xs : List α} {c : List Token} (h : Listed Q close trailing xs c)
    (hf : ∀ x c y, Q x c → f x = .ok y → R y c) {ys : List β} (hys : xs.mapM f = .ok ys) :
    Listed R close trailing ys c := by
  rcases h with ⟨rfl, t, ht, rfl⟩ | h
  · exact Or.inl ⟨Checked.mapM_nil_eq_ok.1 hys, t, ht, rfl⟩
  · exact Or.inr (h.mapM hf hys)

end Checked

end MessageBinder
