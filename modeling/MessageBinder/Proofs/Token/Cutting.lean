import MessageBinder.Proofs.Token.Reading

/-!
# Texts cut between lexemes

A lexeme is as long as it can be, so what a text is read as may change with what is put behind it.
It does not change if the text is cut between two lexemes and what follows, before and after, starts
with a newline, a blank or a semicolon: these carry no lexeme on. `MessageBinder.Lexer.Cuts` says
that a text is cut so. Two cuts are no such cuts: inside a comment that is never closed, and right
behind a line comment, which would take in all that follows on its line.

A text that is cut so has tokens of its own, whatever follows it (`MessageBinder.Lexer.Cuts.scan`).
-/

namespace MessageBinder

namespace Lexer

/-- What follows is set apart: by a newline, a blank, a semicolon or the end. -/
def Parted (rest : List Char) : Prop := ∀ c ∈ rest.head?, c = '\n' ∨ c = ' ' ∨ c = ';'

/-- **A text is cut between lexemes** from what follows it: it is made of blanks, closed comments
and tokens of the whole text, and its last lexeme is no line comment. -/
inductive Cuts : List Char → List Char → Prop
  | nil {rest : List Char} : Cuts [] rest
  | blank {c : Char} {cs rest : List Char} (hc : isBlank c) (h : Cuts cs rest) : Cuts (c :: cs) rest
  | comment {w cs rest : List Char} (hgap : gap? '/' (w ++ (cs ++ rest)) = some w.length)
      (hline : w.head? = some '/' → cs ≠ []) (h : Cuts cs rest) : Cuts ('/' :: (w ++ cs)) rest
  | token {c : Char} {w cs rest : List Char} {k : TokenKind} (hblank : isBlank c = false)
      (hcomment : c = '/' → ∀ d ∈ (w ++ (cs ++ rest)).head?, d ≠ '/' ∧ d ≠ '*')
      (htoken : token? c (w ++ (cs ++ rest)) = some (k, w.length)) (h : Cuts cs rest) :
      Cuts (c :: (w ++ cs)) rest

/-! ### Extents behind which something is set apart -/

section Parted

variable {rest rest' : List Char}

theorem Parted.head?_eq_false (h : Parted rest) {p : Char → Bool}
    (hp : p '\n' = false ∧ p ' ' = false ∧ p ';' = false) : ∀ c ∈ rest.head?, p c = false := by
  intro c hc
  rcases h c hc with rfl | rfl | rfl
  · exact hp.1
  · exact hp.2.1
  · exact hp.2.2

theorem run_append_of_head? {p : Char → Bool} (h : ∀ c ∈ rest.head?, p c = false)
    (cs : List Char) : run p (cs ++ rest) = run p cs := by
  induction cs with
  | nil =>
    cases rest with
    | nil => rfl
    | cons c rest => simp [run, h c rfl]
  | cons c cs ih =>
    simp only [run, List.cons_append, List.takeWhile_cons] at ih ⊢
    split
    · rw [List.length_cons, List.length_cons, ih]
    · rfl

theorem Parted.run_digits (h : Parted rest) (cs : List Char) :
    run Text.isDecimalDigit (cs ++ rest) = run Text.isDecimalDigit cs :=
  run_append_of_head? (h.head?_eq_false ⟨rfl, rfl, rfl⟩) cs

theorem fractionExtent_le (cs : List Char) : fractionExtent cs ≤ cs.length := by
  unfold fractionExtent
  split
  · rename_i cs
    have hle := run_le Text.isDecimalDigit cs
    rw [List.length_cons]
    split <;> omega
  · exact Nat.zero_le _

theorem Parted.fractionExtent_append (h : Parted rest) (cs : List Char) :
    fractionExtent (cs ++ rest) = fractionExtent cs := by
  have hrun := h.run_digits
  cases cs with
  | nil =>
    cases rest with
    | nil => rfl
    | cons c rest => rcases h c rfl with rfl | rfl | rfl <;> rfl
  | cons c cs =>
    by_cases hc : c = '.'
    · subst hc
      simp only [List.cons_append, fractionExtent, hrun]
    · simp only [List.cons_append]
      unfold fractionExtent
      split
      · rename_i heq
        exact absurd (List.cons.inj heq).1 hc
      · split
        · rename_i heq
          exact absurd (List.cons.inj heq).1 hc
        · rfl

theorem Parted.exponentExtent_append (h : Parted rest) (cs : List Char) :
    exponentExtent (cs ++ rest) = exponentExtent cs := by
  have hrun := h.run_digits
  match cs with
  | [] =>
    cases rest with
    | nil => rfl
    | cons c rest => rcases h c rfl with rfl | rfl | rfl <;> rfl
  | [mark] =>
    -- the mark is the last character, so no digit follows
    have hnone : run Text.isDecimalDigit rest = 0 := hrun []
    cases rest with
    | nil => rfl
    | cons c rest =>
      have hc : c ≠ '+' ∧ c ≠ '-' := by rcases h c rfl with rfl | rfl | rfl <;> decide
      simp only [List.singleton_append, exponentExtent]
      split
      · split
        · rename_i heq
          exact absurd (List.cons.inj heq).1 hc.1
        · rename_i heq
          exact absurd (List.cons.inj heq).1 hc.2
        · rw [List.drop_zero, if_pos hnone]
          rfl
      · rfl
  | mark :: sign :: cs =>
    have hrun' := hrun (sign :: cs)
    simp only [List.cons_append] at hrun' ⊢
    by_cases hplus : sign = '+'
    · subst hplus
      simp only [exponentExtent, List.drop_one, List.tail_cons, hrun]
    · by_cases hminus : sign = '-'
      · subst hminus
        simp only [exponentExtent, List.drop_one, List.tail_cons, hrun]
      · simp only [exponentExtent]
        split
        · split
          all_goals
            split
            all_goals simp_all
        · rfl

theorem Parted.numberExtent_append (h : Parted rest) (cs : List Char) :
    numberExtent (cs ++ rest) = numberExtent cs := by
  have hwhole := run_le Text.isDecimalDigit cs
  have hfraction := fractionExtent_le (cs.drop (run Text.isDecimalDigit cs))
  rw [List.length_drop] at hfraction
  simp only [numberExtent, h.run_digits]
  rw [List.drop_append_of_le_length hwhole, h.fractionExtent_append,
    List.drop_append_of_le_length (by omega), h.exponentExtent_append]

/-- Two further characters tell an operator. -/
theorem operator?_pair (c d e : Char) (cs cs' : List Char) :
    operator? c (d :: e :: cs) = operator? c (d :: e :: cs') := by
  by_cases he : e = '='
  · subst he
    unfold operator?
    split <;> simp_all
    all_goals
      rename_i hne heq
      exact hne _ heq.2.symm
  · unfold operator?
    split <;> simp_all

theorem Parted.operator?_append (h : Parted rest) (c : Char) (cs : List Char) :
    operator? c (cs ++ rest) = operator? c cs := by
  match cs, rest with
  | cs, [] => rw [List.append_nil]
  | [], x :: rest =>
    have hx := h x rfl
    rw [List.nil_append]
    unfold operator?
    split <;> simp_all
  | [d], x :: rest =>
    have hx : x ≠ '=' := by rcases h x rfl with rfl | rfl | rfl <;> decide
    rw [List.singleton_append]
    unfold operator?
    split <;> simp_all
  | d :: e :: cs, x :: rest => exact operator?_pair c d e _ _

theorem eq_cons_of_take {α : Type} {x : α} {xs ys : List α} {n : Nat}
    (h : ys.take (n + 1) = (x :: xs).take (n + 1)) :
    ∃ zs, ys = x :: zs ∧ zs.take n = xs.take n := by
  cases ys with
  | nil => cases h
  | cons y ys =>
    rw [List.take_succ_cons, List.take_succ_cons] at h
    obtain ⟨hy, hys⟩ := List.cons.inj h
    exact ⟨ys, by rw [hy], hys⟩

/-- How far a string goes is told by its own characters. -/
theorem stringExtent_of_take {quote : Char} {cs cs' : List Char} {n : Nat}
    (h : stringExtent quote cs = some n) (hcs : cs'.take n = cs.take n) :
    stringExtent quote cs' = some n := by
  fun_induction stringExtent quote cs generalizing n cs' with
  | case1 | case2 | case4 | case5 => cases h
  | case3 cs hline =>
    obtain ⟨cs', rfl, -⟩ := eq_cons_of_take (Option.some.inj h ▸ hcs)
    rw [stringExtent.eq_def]
    simp only [if_neg hline, if_pos, h]
  | case6 d ds hd hline hquote ih =>
    obtain ⟨m, hm, rfl⟩ := Option.map_eq_some_iff.1 h
    obtain ⟨cs', rfl, hcs'⟩ := eq_cons_of_take hcs
    obtain ⟨ds', rfl, hds'⟩ := eq_cons_of_take hcs'
    rw [stringExtent.eq_def]
    simp only [if_neg hquote, if_neg hline, if_neg hd, if_pos, ih hm hds', Option.map_some]
  | case7 c cs hline hquote hbackslash ih =>
    obtain ⟨m, hm, rfl⟩ := Option.map_eq_some_iff.1 h
    obtain ⟨cs', rfl, hcs'⟩ := eq_cons_of_take hcs
    rw [stringExtent.eq_def]
    simp only [if_neg hline, if_neg hquote, if_neg hbackslash, ih hm hcs', Option.map_some]

theorem commentExtent_ne_zero (cs : List Char) : commentExtent cs ≠ some 0 := by
  fun_cases commentExtent cs with
  | case1 | case2 => nofun
  | case3 => simp

/-- How far a comment goes is told by its own characters. -/
theorem commentExtent_of_take {cs cs' : List Char} {n : Nat}
    (h : commentExtent cs = some n) (hcs : cs'.take n = cs.take n) :
    commentExtent cs' = some n := by
  fun_induction commentExtent cs generalizing n cs' with
  | case1 => cases h
  | case2 cs =>
    obtain rfl := Option.some.inj h
    obtain ⟨cs', rfl, hcs'⟩ := eq_cons_of_take hcs
    obtain ⟨cs', rfl, -⟩ := eq_cons_of_take hcs'
    rfl
  | case3 c cs hne ih =>
    obtain ⟨m, hm, rfl⟩ := Option.map_eq_some_iff.1 h
    obtain ⟨cs', rfl, hcs'⟩ := eq_cons_of_take hcs
    rw [commentExtent, ih hm hcs', Option.map_some]
    -- the comment is not closed here, for at least one more character is told
    rintro ds rfl rfl
    obtain ⟨m, rfl⟩ := Nat.exists_eq_succ_of_ne_zero fun hm' => commentExtent_ne_zero cs (hm' ▸ hm)
    obtain ⟨es, rfl, -⟩ := eq_cons_of_take hcs'.symm
    exact hne _ rfl rfl

/-- **What is set apart does not change the token in front of it.** -/
theorem Parted.token?_append (h : Parted rest) (h' : Parted rest') {c : Char} {cs : List Char}
    {k : TokenKind} {n : Nat} (htoken : token? c (cs ++ rest) = some (k, n)) (hn : n ≤ cs.length) :
    token? c (cs ++ rest') = some (k, n) := by
  have hname : ∀ {rest : List Char}, Parted rest →
      run isNameChar (cs ++ rest) = run isNameChar cs := fun h =>
    run_append_of_head? (h.head?_eq_false ⟨rfl, rfl, rfl⟩) cs
  unfold token? at htoken ⊢
  by_cases hline : c = '\n'
  · rw [if_pos hline] at htoken ⊢
    exact htoken
  rw [if_neg hline] at htoken ⊢
  by_cases hstart : isNameStart c
  · rw [if_pos hstart] at htoken ⊢
    simp only [hname h, hname h', List.take_append_of_le_length (run_le _ _)] at htoken ⊢
    exact htoken
  rw [if_neg hstart] at htoken ⊢
  by_cases hdigit : Text.isDecimalDigit c
  · rw [if_pos hdigit, h.numberExtent_append] at htoken
    rw [if_pos hdigit, h'.numberExtent_append]
    exact htoken
  rw [if_neg hdigit] at htoken ⊢
  by_cases hquote : c = '"' ∨ c = '\''
  · rw [if_pos hquote] at htoken ⊢
    obtain ⟨m, hm, heq⟩ := Option.map_eq_some_iff.1 htoken
    obtain ⟨rfl, rfl⟩ := Prod.mk.inj heq
    rw [stringExtent_of_take hm
      (by rw [List.take_append_of_le_length hn, List.take_append_of_le_length hn])]
    rfl
  · rw [if_neg hquote, h.operator?_append] at htoken
    rw [if_neg hquote, h'.operator?_append]
    exact htoken

/-- What is set apart starts no comment behind a slash. -/
theorem Parted.head?_append (h' : Parted rest') {cs : List Char}
    (hcs : ∀ d ∈ (cs ++ rest).head?, d ≠ '/' ∧ d ≠ '*') :
    ∀ d ∈ (cs ++ rest').head?, d ≠ '/' ∧ d ≠ '*' := by
  cases cs with
  | nil =>
    intro d hd
    rcases h' d hd with rfl | rfl | rfl <;> decide
  | cons c cs => exact hcs

/-- What follows does not change a comment, unless it is a line comment and nothing is between. -/
theorem gap?_append {w cs : List Char}
    (hgap : gap? '/' (w ++ (cs ++ rest)) = some w.length) (hline : w.head? = some '/' → cs ≠ []) :
    gap? '/' (w ++ (cs ++ rest')) = some w.length := by
  cases w with
  | nil =>
    -- a comment is more than its slash
    unfold gap? at hgap
    rw [if_neg (by decide), if_pos rfl] at hgap
    split at hgap
    · exact absurd (Option.some.inj hgap) (by simp)
    · obtain ⟨m, -, hm⟩ := Option.map_eq_some_iff.1 hgap
      exact absurd hm (by simp)
    · cases hgap
  | cons d w =>
    unfold gap? at hgap ⊢
    rw [if_neg (by decide), if_pos rfl] at hgap ⊢
    simp only [List.cons_append, List.length_cons] at hgap ⊢
    by_cases hslash : d = '/'
    · subst hslash
      obtain ⟨e, cs, rfl⟩ := List.exists_cons_of_ne_nil (hline rfl)
      have hrun : run (· ≠ '\n') (w ++ e :: (cs ++ rest)) = w.length := by simpa using hgap
      have hw : ∀ c ∈ w, decide (c ≠ '\n') = true := by
        intro c hc
        have hmem : c ∈ (w ++ e :: (cs ++ rest)).take
            (run (· ≠ '\n') (w ++ e :: (cs ++ rest))) := by
          rw [hrun, List.take_left]
          exact hc
        exact mem_take_run hmem
      have he : decide (e ≠ '\n') = false := by
        rw [Bool.eq_false_iff]
        intro he
        have hmore : run (· ≠ '\n') (w ++ e :: (cs ++ rest))
            = w.length + (run (· ≠ '\n') (cs ++ rest) + 1) := by
          rw [run, List.takeWhile_append_of_pos hw, List.takeWhile_cons, if_pos he]
          simp [run]
        omega
      have hrun' : run (· ≠ '\n') (w ++ e :: (cs ++ rest')) = w.length := by
        refine run_append hw ?_
        rintro c ⟨⟩
        exact he
      simpa using hrun'
    · by_cases hstar : d = '*'
      · subst hstar
        obtain ⟨m, hm, heq⟩ := Option.map_eq_some_iff.1 hgap
        obtain rfl : m = w.length := by omega
        have hm' : commentExtent (w ++ (cs ++ rest')) = some w.length :=
          commentExtent_of_take hm (by rw [List.take_left, List.take_left])
        exact congrArg (Option.map (· + 1)) hm'
      · split at hgap
        · rename_i heq
          exact absurd (List.cons.inj heq).1 hslash
        · rename_i heq
          exact absurd (List.cons.inj heq).1 hstar
        · cases hgap

end Parted

/-! ### Reading a text that is cut -/

variable {pre rest : List Char}

/-- Blanks are read one by one. -/
theorem scan_blank {c : Char} (hc : isBlank c) (o : Origin) (cs : List Char) :
    scan o (c :: cs) = scan (o.next c) cs := by
  have hgap : ∀ ds, gap? c ds = some (run isBlank ds) := fun ds => by
    unfold gap?
    rw [if_pos hc]
  rw [scan, hgap]
  dsimp only
  cases cs with
  | nil => rfl
  | cons d cs =>
    cases hd : isBlank d with
    | false => simp [run, hd, Origin.advance]
    | true =>
      have hgap' : gap? d cs = some (run isBlank cs) := by
        unfold gap?
        rw [if_pos hd]
      rw [scan, hgap']
      simp [run, hd, Origin.advance]

/-- A lexeme is read as its token. -/
theorem scan_front {k : TokenKind} {w rest : List Char} (h : Front k w rest) (o : Origin) :
    scan o (w ++ rest) = (scan (o.advance w) rest).behind [⟨k, String.ofList w, o⟩] := by
  obtain ⟨c, cs, rfl, hgap, htoken⟩ := h
  rw [List.cons_append, scan, hgap]
  simp only [htoken]
  rw [List.take_left, List.drop_left]
  rfl

theorem gap?_of_head? {c : Char} {cs : List Char} (hblank : isBlank c = false)
    (h : c = '/' → ∀ d ∈ cs.head?, d ≠ '/' ∧ d ≠ '*') : gap? c cs = none := by
  by_cases hc : c = '/'
  · subst hc
    have hhead := h rfl
    unfold gap?
    rw [if_neg (by decide), if_pos rfl]
    split
    · exact absurd rfl (hhead _ rfl).1
    · exact absurd rfl (hhead _ rfl).2
    · rfl
  · exact gap?_eq_none hblank hc cs

/-- **A text that is cut has tokens of its own**, whatever is set apart behind it. -/
theorem Cuts.scan (h : Cuts pre rest) (hrest : Parted rest) (o : Origin) :
    ∃ ts, ∀ rest', Parted rest' →
      Lexer.scan o (pre ++ rest') = (Lexer.scan (o.advance pre) rest').behind ts := by
  induction h generalizing o with
  | nil => exact ⟨[], fun rest' _ => rfl⟩
  | @blank c cs rest hc _ ih =>
    obtain ⟨ts, hts⟩ := ih hrest (o.next c)
    refine ⟨ts, fun rest' hrest' => ?_⟩
    rw [List.cons_append, scan_blank hc, hts rest' hrest']
    rfl
  | @comment w cs rest hgap hline _ ih =>
    obtain ⟨ts, hts⟩ := ih hrest (o.advance ('/' :: w))
    refine ⟨ts, fun rest' hrest' => ?_⟩
    rw [List.cons_append, List.append_assoc, Lexer.scan, gap?_append hgap hline]
    dsimp only
    rw [List.take_left, List.drop_left, hts rest' hrest']
    simp [Origin.advance]
  | @token c w cs rest k hblank hcomment htoken h ih =>
    obtain ⟨ts, hts⟩ := ih hrest (o.advance (c :: w))
    refine ⟨⟨k, String.ofList (c :: w), o⟩ :: ts, fun rest' hrest' => ?_⟩
    rw [← List.append_assoc] at hcomment htoken
    have htoken' := hrest.token?_append hrest' htoken (by simp)
    have hgap := gap?_of_head? hblank fun hc => hrest'.head?_append (hcomment hc)
    rw [List.append_assoc] at htoken' hgap
    rw [List.cons_append, List.append_assoc, Lexer.scan, hgap]
    simp only [htoken']
    rw [List.take_left, List.drop_left, hts rest' hrest']
    simp [Origin.advance, Tokens.behind]

end Lexer

end MessageBinder
