import MessageBinder.Proofs.Token.Settled

/-!
# Reading a text piece by piece

The lexer takes a whole text and the ends of the statements are settled over a whole list of tokens,
while a printed text is put together from pieces. Here both go along the text at once
(`MessageBinder.StatementScan.read`), and `MessageBinder.Writes` says what one piece contributes:
read behind a token of a given kind and with nothing waiting, whatever is open, it emits tokens with
a given property and leaves open what was open. Pieces are put together by
`MessageBinder.Writes.append`; each token and each kind of bracket has one rule.

Two things are not told piece by piece, as they depend on more than the token in front: whether a
newline ends a statement, and whether the closing brace of a block does. Either way it is a
terminator more or less, and the grammar does not mind one where a statement can start.
-/

namespace MessageBinder

/-! ### Reading and settling at once -/

/-- Tokens behind others. -/
def Tokens.behind (out : List Token) (ts : Tokens) : Tokens :=
  { ts with tokens := out ++ ts.tokens }

@[simp] theorem Tokens.behind_nil (ts : Tokens) : ts.behind [] = ts := rfl

@[simp] theorem Tokens.behind_behind (out out' : List Token) (ts : Tokens) :
    (ts.behind out').behind out = ts.behind (out ++ out') := by
  simp [Tokens.behind]

/-- The tokens with the ends of the statements settled, from a state on. -/
def Tokens.terminateFrom (s : StatementScan) (ts : Tokens) : Tokens :=
  let (out, s) := s.steps ts.tokens
  { ts with tokens := if ts.stop.isNone then out ++ s.finish else out }

/-- A token in front is settled first. -/
theorem Tokens.terminateFrom_cons (s : StatementScan) (ts : Tokens) (t : Token) :
    ({ ts with tokens := t :: ts.tokens } : Tokens).terminateFrom s
      = (ts.terminateFrom (s.step t).2).behind (s.step t).1 := by
  simp only [terminateFrom, StatementScan.steps, behind]
  split <;> simp only [List.append_assoc]

/-! ### The first character of a statement -/

namespace Lexer

/-- Whether a statement or an expression can start with a character. -/
def opensStatement (c : Char) : Bool :=
  isNameStart c || Text.isDecimalDigit c ||
    ['"', '(', '[', '\x7b', '-', '+', '!'].contains c

variable {c : Char}

theorem gap?_of_opensStatement (h : opensStatement c) (cs : List Char) : gap? c cs = none := by
  have hne : ∀ d, opensStatement d = false → c ≠ d := by
    rintro d hd rfl
    rw [h] at hd
    cases hd
  refine gap?_eq_none ?_ (hne '/' (by decide)) cs
  simp [isBlank, hne ' ' (by decide), hne '\t' (by decide), hne '\x0c' (by decide),
    hne '\r' (by decide)]

/-- A token with such a character ends no line and no statement. -/
theorem token?_of_opensStatement (h : opensStatement c) {cs : List Char} {k : TokenKind} {n : Nat}
    (htoken : token? c cs = some (k, n)) : k ≠ .newline ∧ k ≠ .semicolon := by
  have hne : ∀ d, opensStatement d = false → c ≠ d := by
    rintro d hd rfl
    rw [h] at hd
    cases hd
  refine ⟨?_, ?_⟩
  · rintro rfl
    unfold token? at htoken
    split at htoken
    · exact hne '\n' (by decide) ‹_›
    split at htoken
    · have hname := (Prod.mk.inj (Option.some.inj htoken)).1
      have hword := (TokenKind.eq_spelling_of_ofWord (by rw [hname]; exact nofun)).1
      rw [hname] at hword
      cases hword
    split at htoken
    · cases (Prod.mk.inj (Option.some.inj htoken)).1
    split at htoken
    · obtain ⟨m, -, hm⟩ := Option.map_eq_some_iff.1 htoken
      cases (Prod.mk.inj hm).1
    · cases (operator?_spec htoken).1
  · rintro rfl
    exact hne ';' (by decide) (List.cons.inj (token?_writes htoken)).1

end Lexer

/-! ### Terminators -/

/-- Only terminators. -/
def AreTerminators (ts : List Token) : Prop := ∀ t ∈ ts, t.kind = .terminator

theorem areTerminators_nil : AreTerminators [] := nofun

theorem areTerminators_singleton {t : Token} (h : t.kind = .terminator) : AreTerminators [t] := by
  rintro t (_ | _)
  · exact h
  · contradiction

/-- Behind terminators a statement can start if it could before. -/
theorem AreTerminators.precedesBlock {ts : List Token} (h : AreTerminators ts)
    {last : Option TokenKind} (hlast : last.all TokenKind.precedesBlock) :
    (lastKind last ts).all TokenKind.precedesBlock := by
  induction ts generalizing last with
  | nil => exact hlast
  | cons t ts ih =>
    rw [lastKind_cons]
    refine ih (fun t ht => h t (List.mem_cons_of_mem _ ht)) ?_
    rw [h t (List.mem_cons_self ..)]
    rfl

theorem AreTerminators.ne_dot {ts : List Token} (h : AreTerminators ts) {last : Option TokenKind}
    (hlast : last ≠ some .dot) : lastKind last ts ≠ some .dot := by
  induction ts generalizing last with
  | nil => exact hlast
  | cons t ts ih =>
    rw [lastKind_cons]
    refine ih (fun t ht => h t (List.mem_cons_of_mem _ ht)) ?_
    rw [h t (List.mem_cons_self ..)]
    exact nofun

/-- In the place of a statement no dot is in front. -/
theorem ne_dot_of_precedesBlock {last : Option TokenKind} (h : last.all TokenKind.precedesBlock) :
    last ≠ some .dot := by
  rintro rfl
  cases h

namespace StatementScan

/-- What a text is read as, at a place and from a state on. -/
def read (s : StatementScan) (o : Origin) (cs : List Char) : Tokens :=
  (Lexer.scan o cs).terminateFrom s

variable {s : StatementScan} {o : Origin}

theorem read_nil : s.read o [] = ⟨s.finish, none⟩ := by
  simp [read, Lexer.scan, Tokens.terminateFrom, steps]

theorem read_gap {c : Char} {cs : List Char} {n : Nat} (h : Lexer.gap? c cs = some n) :
    s.read o (c :: cs) = s.read (o.advance (c :: cs.take n)) (cs.drop n) := by
  rw [read, Lexer.scan, h, read]

theorem read_token {c : Char} {cs : List Char} {k : TokenKind} {n : Nat}
    (hgap : Lexer.gap? c cs = none) (h : Lexer.token? c cs = some (k, n)) :
    s.read o (c :: cs)
      = ((s.step ⟨k, String.ofList (c :: cs.take n), o⟩).2.read (o.advance (c :: cs.take n))
          (cs.drop n)).behind (s.step ⟨k, String.ofList (c :: cs.take n), o⟩).1 := by
  rw [read, Lexer.scan, hgap]
  simp only [h]
  exact Tokens.terminateFrom_cons ..

theorem read_stop {c : Char} {cs : List Char} (hgap : Lexer.gap? c cs = none)
    (h : Lexer.token? c cs = none) : s.read o (c :: cs) = ⟨[], some (c, o)⟩ := by
  rw [read, Lexer.scan, hgap]
  simp [h, Tokens.terminateFrom, steps]

/-- A lexeme is read as its token. -/
theorem read_front {k : TokenKind} {w rest : List Char} (h : Lexer.Front k w rest) :
    s.read o (w ++ rest)
      = ((s.step ⟨k, String.ofList w, o⟩).2.read (o.advance w) rest).behind
          (s.step ⟨k, String.ofList w, o⟩).1 := by
  obtain ⟨c, cs, rfl, hgap, htoken⟩ := h
  rw [List.cons_append, read_token hgap htoken, List.take_left, List.drop_left]

/-- Blanks are read one by one. -/
theorem read_blank (cs : List Char) : s.read o (' ' :: cs) = s.read (o.next ' ') cs := by
  have hfirst : Lexer.gap? ' ' cs = some (Lexer.run Lexer.isBlank cs) := rfl
  rw [read_gap hfirst]
  cases cs with
  | nil => rfl
  | cons c cs =>
    cases hc : Lexer.isBlank c with
    | false => rw [Lexer.run, List.takeWhile_cons, hc]; rfl
    | true =>
      have hnext : Lexer.gap? c cs = some (Lexer.run Lexer.isBlank cs) := by
        simp only [Lexer.gap?, hc, if_true]
      rw [read_gap hnext, Lexer.run, List.takeWhile_cons, hc]
      rfl

theorem read_blanks (n : Nat) (cs : List Char) :
    ∃ o', s.read o (List.replicate n ' ' ++ cs) = s.read o' cs := by
  induction n generalizing o with
  | zero => exact ⟨o, rfl⟩
  | succ n ih =>
    rw [List.replicate_succ, List.cons_append, read_blank]
    exact ih

/-- A newline waits for the token behind it. -/
theorem read_newline (cs : List Char) :
    ∃ o' t, s.read o ('\n' :: cs) = StatementScan.read { s with newline := some t } o' cs := by
  have htoken : Lexer.token? '\n' cs = some (.newline, 0) := rfl
  rw [read_token rfl htoken]
  cases hs : s.newline with
  | none => exact ⟨o.advance ['\n'], ⟨.newline, String.ofList ['\n'], o⟩, by simp [step, hs]⟩
  | some t => exact ⟨o.advance ['\n'], t, by simp [step, hs]⟩

/-! ### One token -/

/-- What a state is behind emitted tokens that leave open what was open. -/
structure Passes (s : StatementScan) (out : List Token) (s' : StatementScan) : Prop where
  stack : s'.stack = s.stack
  last : s'.last = lastKind s.last out
  newline : s'.newline = none

namespace Passes

variable {s' s'' : StatementScan} {out out' : List Token}

theorem refl (h : s.newline = none) : s.Passes [] s := ⟨rfl, rfl, h⟩

theorem trans (h : s.Passes out s') (h' : s'.Passes out' s'') : s.Passes (out ++ out') s'' :=
  ⟨h'.stack.trans h.stack, by rw [lastKind_append, ← h.last, h'.last], h'.newline⟩

end Passes

/-- With nothing waiting and no block to close, a token is emitted as it is or as another one. -/
theorem step_eq {t : Token} (hnewline : s.newline = none) (hline : t.kind ≠ .newline)
    (hsemicolon : t.kind ≠ .semicolon)
    (hclose : t.kind = .rightBrace → s.stack.head? ≠ some .block) :
    s.step t = ([s.asBlock (s.asMember t)],
      { s.shift (s.asBlock (s.asMember t)).kind with
        lastToken := some (s.asBlock (s.asMember t)) }) := by
  have hmember : (s.asMember t).kind = .rightBrace → t.kind = .rightBrace := by
    unfold asMember
    split
    · exact nofun
    · exact id
  have hbrace : s.settleBrace (s.asMember t) = ([], s) := by
    rw [settleBrace, if_neg]
    simp only [Bool.and_eq_true, decide_eq_true_eq]
    rintro ⟨⟨hkind, hstack⟩, -⟩
    exact hclose (hmember hkind) hstack
  unfold step
  split
  · exact absurd ‹_› hline
  · exact absurd ‹_› hsemicolon
  · simp only [settleNewline, hnewline, hbrace, List.nil_append]

end StatementScan

/-- A kind that opens and closes nothing and ends nothing. -/
def TokenKind.isNeutral : TokenKind → Bool
  | .leftParen | .rightParen | .leftBracket | .rightBracket | .leftBrace | .rightBrace
  | .blockBrace | .newline | .semicolon => false
  | _ => true

theorem TokenKind.isNeutral_of_isWord {k : TokenKind} (h : k.isWord) : k.isNeutral := by
  cases k <;> first | rfl | cases h

namespace StatementScan

variable {s : StatementScan} {t : Token}

theorem asMember_eq (h : t.kind.isWord → s.last ≠ some .dot) : s.asMember t = t := by
  unfold asMember
  split
  · rename_i hmember
    simp only [Bool.and_eq_true, decide_eq_true_eq] at hmember
    exact absurd hmember.2 (h hmember.1)
  · rfl

theorem asBlock_eq (h : t.kind = .leftBrace → s.last.all TokenKind.precedesBlock = false) :
    s.asBlock t = t := by
  unfold asBlock
  split
  · rename_i hblock
    simp only [Bool.and_eq_true, decide_eq_true_eq] at hblock
    rw [h hblock.1] at hblock
    cases hblock.2
  · rfl

theorem passes_shift (hnewline : s.newline = none) (hk : t.kind.isNeutral) :
    s.Passes [t] { s.shift t.kind with lastToken := some t } := by
  refine ⟨?_, rfl, hnewline⟩
  cases hkind : t.kind <;> rw [hkind] at hk <;> first | rfl | cases hk

/-- A token that stays as it is and opens and closes nothing. -/
theorem step_neutral (hnewline : s.newline = none) (hk : t.kind.isNeutral)
    (hdot : t.kind.isWord → s.last ≠ some .dot) :
    ∃ s', s.step t = ([t], s') ∧ s.Passes [t] s' := by
  have hne : ∀ k : TokenKind, k.isNeutral = false → t.kind ≠ k := by
    rintro k hk' rfl
    rw [hk] at hk'
    cases hk'
  have hstep := step_eq hnewline (hne .newline rfl) (hne .semicolon rfl)
    fun h => absurd h (hne .rightBrace rfl)
  rw [asMember_eq hdot, asBlock_eq fun h => absurd h (hne .leftBrace rfl)] at hstep
  exact ⟨_, hstep, passes_shift hnewline hk⟩

/-- Behind a dot a word of the language is a name. -/
theorem step_member (hnewline : s.newline = none) (hlast : s.last = some .dot)
    (hk : t.kind.isWord ∨ t.kind = .name) :
    ∃ s', s.step t = ([t.as .name], s') ∧ s.Passes [t.as .name] s' := by
  have hne : ∀ k : TokenKind, k.isWord = false → k ≠ .name → t.kind ≠ k := by
    rintro k hword hname rfl
    rw [hword] at hk
    exact hk.elim nofun hname
  have hmember : s.asMember t = t.as .name := by
    unfold asMember
    split
    · rfl
    · rename_i hno
      rcases hk with hk | hk
      · simp [hk, hlast] at hno
      · rw [Token.as, ← hk]
  have hstep := step_eq hnewline (hne .newline rfl nofun) (hne .semicolon rfl nofun)
    fun h => absurd h (hne .rightBrace rfl nofun)
  rw [hmember, asBlock_eq (t := t.as .name) nofun] at hstep
  exact ⟨_, hstep, passes_shift hnewline rfl⟩

/-- A semicolon is a terminator, whatever waits. -/
theorem step_semicolon (hk : t.kind = .semicolon) :
    ∃ s', s.step t = ([t.as .terminator], s') ∧ s.Passes [t.as .terminator] s' := by
  unfold step
  split
  · rename_i h
    rw [hk] at h
    cases h
  · exact ⟨_, rfl, rfl, rfl, rfl⟩
  · contradiction

/-- A token that opens a bracket, the brace of a block among them. -/
theorem step_opening {b : Bracket} (hnewline : s.newline = none)
    (hk : t.kind = .leftParen ∨ t.kind = .leftBracket ∨ t.kind = .leftBrace)
    (hb : s.opened (s.asBlock t).kind = some b) :
    ∃ s', s.step t = ([s.asBlock t], s') ∧ s'.stack = b :: s.stack ∧
      s'.last = some (s.asBlock t).kind ∧ s'.newline = none := by
  have hne : ∀ k : TokenKind, k ≠ .leftParen ∧ k ≠ .leftBracket ∧ k ≠ .leftBrace →
      t.kind ≠ k := by
    rintro k ⟨h₁, h₂, h₃⟩ rfl
    rcases hk with h | h | h <;> contradiction
  have hword : t.kind.isWord = false := by
    rcases hk with h | h | h <;> rw [h] <;> rfl
  have hstep := step_eq hnewline (hne .newline (by decide)) (hne .semicolon (by decide))
    fun h => absurd h (hne .rightBrace (by decide))
  rw [asMember_eq (by simp [hword])] at hstep
  exact ⟨_, hstep, by simp only [shift, hb], rfl, hnewline⟩

theorem stack_shift_of_closes {k : TokenKind} (hk : k.closesBracket) :
    (s.shift k).stack = s.stack.tail := by
  cases k <;> first | rfl | cases hk

/-- A token that closes a bracket around anything but statements. -/
theorem step_closing {b : Bracket} {stack : List Bracket} (hnewline : s.newline = none)
    (hk : t.kind.closesBracket) (hstack : s.stack = b :: stack) (hb : b ≠ .block) :
    ∃ s', s.step t = ([t], s') ∧ s'.stack = stack ∧ s'.last = some t.kind ∧ s'.newline = none := by
  have hne : ∀ k : TokenKind, k.closesBracket = false → t.kind ≠ k := by
    rintro k hk' rfl
    rw [hk] at hk'
    cases hk'
  have hword : t.kind.isWord = false := by
    cases hkind : t.kind <;> rw [hkind] at hk <;> first | rfl | cases hk
  have hstep := step_eq hnewline (hne .newline rfl) (hne .semicolon rfl) fun _ => by
    rw [hstack]
    exact fun h => hb (Option.some.inj h)
  rw [asMember_eq (by simp [hword]), asBlock_eq fun h => absurd h (hne .leftBrace rfl)] at hstep
  exact ⟨_, hstep, (stack_shift_of_closes hk).trans (by rw [hstack]; rfl), rfl, hnewline⟩

/-- The step of a token that stays what it is. -/
theorem step_of_asMember (hline : t.kind ≠ .newline) (hsemicolon : t.kind ≠ .semicolon)
    (hmember : s.asMember t = t) {out out' : List Token} {s' s'' : StatementScan}
    (hnewline : s.settleNewline t.kind = (out, s')) (hbrace : s'.settleBrace t = (out', s'')) :
    s.step t = (out ++ out' ++ [s''.asBlock t],
      { s''.shift (s''.asBlock t).kind with lastToken := some (s''.asBlock t) }) := by
  unfold step
  split
  · exact absurd ‹_› hline
  · exact absurd ‹_› hsemicolon
  · simp only [hmember, hnewline, hbrace]

/-- What waits becomes a terminator or nothing. -/
theorem exists_settleNewline (s : StatementScan) (k : TokenKind) :
    ∃ out s', s.settleNewline k = (out, s') ∧ AreTerminators out ∧ s.Passes out s' := by
  unfold settleNewline
  split
  · rename_i hnone
    exact ⟨[], s, rfl, areTerminators_nil, .refl hnone⟩
  split
  · refine ⟨_, _, rfl, ?_, ?_⟩
    · exact areTerminators_singleton rfl
    · exact ⟨rfl, rfl, rfl⟩
  · refine ⟨_, _, rfl, areTerminators_nil, ?_⟩
    exact ⟨rfl, rfl, rfl⟩

/-- The last statement of a block gets a terminator or nothing. -/
theorem exists_settleBrace (hnewline : s.newline = none) (t : Token) :
    ∃ out s', s.settleBrace t = (out, s') ∧ AreTerminators out ∧ s.Passes out s' := by
  unfold settleBrace
  split
  · refine ⟨_, _, rfl, ?_, ?_⟩
    · exact areTerminators_singleton rfl
    · exact ⟨rfl, rfl, hnewline⟩
  · exact ⟨_, _, rfl, areTerminators_nil, .refl hnewline⟩

/-- What waits is settled before a token that ends no line and no statement. -/
theorem step_settled (hline : t.kind ≠ .newline) (hsemicolon : t.kind ≠ .semicolon)
    (hdot : s.last ≠ some .dot) : ∃ out s', AreTerminators out ∧ s.Passes out s' ∧
      s.step t = (out ++ (s'.step t).1, (s'.step t).2) := by
  obtain ⟨out, s', hsettle, hout, hpasses⟩ := exists_settleNewline s t.kind
  have hdot' : s'.last ≠ some .dot := hpasses.last ▸ hout.ne_dot hdot
  have hnone : s'.settleNewline t.kind = ([], s') := by rw [settleNewline, hpasses.newline]
  refine ⟨out, s', hout, hpasses, ?_⟩
  rw [step_of_asMember hline hsemicolon (asMember_eq fun _ => hdot) hsettle rfl,
    step_of_asMember hline hsemicolon (asMember_eq fun _ => hdot') hnone rfl]
  simp only [List.nil_append, List.append_assoc]

/-- What waits is settled before the first character of a statement. -/
theorem read_settled {c : Char} (hc : Lexer.opensStatement c) (hdot : s.last ≠ some .dot)
    (o : Origin) (cs : List Char) : ∃ out s', AreTerminators out ∧ s.Passes out s' ∧
      s.read o (c :: cs) = (s'.read o (c :: cs)).behind out := by
  have hgap := Lexer.gap?_of_opensStatement hc cs
  cases htoken : Lexer.token? c cs with
  | none =>
    refine ⟨[], { s with newline := none }, areTerminators_nil, ⟨rfl, rfl, rfl⟩, ?_⟩
    rw [read_stop hgap htoken, read_stop hgap htoken, Tokens.behind_nil]
  | some found =>
    obtain ⟨k, n⟩ := found
    have hk := Lexer.token?_of_opensStatement hc htoken
    obtain ⟨out, s', hout, hpasses, hstep⟩ :=
      step_settled (t := ⟨k, String.ofList (c :: cs.take n), o⟩) hk.1 hk.2 hdot
    refine ⟨out, s', hout, hpasses, ?_⟩
    rw [read_token hgap htoken, read_token hgap htoken, hstep, Tokens.behind_behind]

/-- The brace that closes a block, perhaps with a terminator in front. -/
theorem step_closeBlock {stack : List Bracket} (hk : t.kind = .rightBrace)
    (hstack : s.stack = .block :: stack) :
    ∃ out s', s.step t = (out ++ [t], s') ∧ AreTerminators out ∧ s'.stack = stack ∧
      s'.last = some .rightBrace ∧ s'.newline = none := by
  obtain ⟨out, s', hsettle, hout, hpasses⟩ := exists_settleNewline s t.kind
  obtain ⟨out', s'', hsettle', hout', hpasses'⟩ := exists_settleBrace hpasses.newline t
  have hstep := step_of_asMember (by rw [hk]; exact nofun) (by rw [hk]; exact nofun)
    (asMember_eq fun hword => by rw [hk] at hword; cases hword) hsettle hsettle'
  rw [asBlock_eq fun h => by rw [hk] at h; cases h] at hstep
  refine ⟨out ++ out', _, hstep, ?_, ?_, congrArg some hk, hpasses'.newline⟩
  · exact fun x hx => (List.mem_append.1 hx).elim (hout x) (hout' x)
  · refine (stack_shift_of_closes (by rw [hk]; rfl)).trans ?_
    rw [hpasses'.stack, hpasses.stack, hstack]
    rfl

theorem read_closeBlock {stack : List Bracket} (hstack : s.stack = .block :: stack) (o : Origin)
    (rest : List Char) :
    ∃ (o' : Origin) (s' : StatementScan) (out : List Token) (t : Token), AreTerminators out ∧
      t.kind = .rightBrace ∧ s'.stack = stack ∧ s'.last = some .rightBrace ∧ s'.newline = none ∧
      s.read o ('\x7d' :: rest) = (s'.read o' rest).behind (out ++ [t]) := by
  have htoken : Lexer.token? '\x7d' rest = some (.rightBrace, 0) := rfl
  obtain ⟨out, s', hstep, hout, hstack', hlast, hnewline⟩ :=
    step_closeBlock (t := ⟨.rightBrace, String.ofList ['\x7d'], o⟩) rfl hstack
  refine ⟨o.advance ['\x7d'], s', out, ⟨.rightBrace, String.ofList ['\x7d'], o⟩, hout, rfl, hstack',
    hlast, hnewline, ?_⟩
  rw [read_token rfl htoken, List.take_zero, hstep, List.drop_zero]

end StatementScan

/-! ### Pieces of a text -/

/-- **A piece of a text writes tokens** with a property, behind a token of the given kind and in
front of `rest`. -/
def Writes (last : Option TokenKind) (cs rest : List Char) (Q : List Token → Prop) : Prop :=
  ∀ (o : Origin) (s : StatementScan), s.last = last → s.newline = none →
    ∃ (o' : Origin) (s' : StatementScan) (out : List Token), s.Passes out s' ∧ Q out ∧
      s.read o (cs ++ rest) = (s'.read o' rest).behind out

section Pieces

variable {last : Option TokenKind} {cs cs' rest w : List Char} {P Q : List Token → Prop}

namespace Writes

theorem nil (h : Q []) : Writes last [] rest Q :=
  fun o s _ hnewline => ⟨o, s, [], .refl hnewline, h, rfl⟩

theorem mono (h : Writes last cs rest P) (hPQ : ∀ c, P c → Q c) : Writes last cs rest Q := by
  intro o s hlast hnewline
  obtain ⟨o', s', out, hpasses, hP, hread⟩ := h o s hlast hnewline
  exact ⟨o', s', out, hpasses, hPQ _ hP, hread⟩

/-- One piece behind another. -/
theorem append (h : Writes last cs (cs' ++ rest) P)
    (h' : ∀ c, P c → Writes (lastKind last c) cs' rest fun c' => Q (c ++ c')) :
    Writes last (cs ++ cs') rest Q := by
  intro o s hlast hnewline
  obtain ⟨o', s', out, hpasses, hP, hread⟩ := h o s hlast hnewline
  obtain ⟨o'', s'', out', hpasses', hQ, hread'⟩ :=
    h' out hP o' s' (by rw [hpasses.last, hlast]) hpasses.newline
  refine ⟨o'', s'', out ++ out', hpasses.trans hpasses', hQ, ?_⟩
  rw [List.append_assoc, hread, hread', Tokens.behind_behind]

theorem blank (h : Writes last cs rest Q) : Writes last (' ' :: cs) rest Q := by
  intro o s hlast hnewline
  rw [List.cons_append, StatementScan.read_blank]
  exact h _ s hlast hnewline

/-- A lexeme by what its token does. -/
theorem of_step {k : TokenKind} (hfront : Lexer.Front k w rest)
    (h : ∀ (s : StatementScan) (t : Token), s.last = last → s.newline = none → t.kind = k →
      t.text = String.ofList w →
      ∃ (s' : StatementScan) (out : List Token), s.step t = (out, s') ∧ s.Passes out s' ∧ Q out) :
    Writes last w rest Q := by
  intro o s hlast hnewline
  obtain ⟨s', out, hstep, hpasses, hQ⟩ := h s ⟨k, String.ofList w, o⟩ hlast hnewline rfl rfl
  refine ⟨o.advance w, s', out, hpasses, hQ, ?_⟩
  rw [StatementScan.read_front hfront, hstep]

/-- A lexeme that opens and closes nothing. -/
theorem lexeme {k : TokenKind} (hfront : Lexer.Front k w rest) (hk : k.isNeutral)
    (hdot : k.isWord → last ≠ some .dot)
    (hQ : ∀ t : Token, t.kind = k → t.text = String.ofList w → Q [t]) : Writes last w rest Q := by
  refine of_step hfront fun s t hlast hnewline hkind htext => ?_
  obtain ⟨s', hstep, hpasses⟩ :=
    StatementScan.step_neutral (t := t) hnewline (by rwa [hkind]) (by rwa [hkind, hlast])
  exact ⟨s', _, hstep, hpasses, hQ t hkind htext⟩

/-- A token that opens and closes nothing, and what follows. -/
theorem token {k : TokenKind} (hfront : Lexer.Front k w (cs ++ rest)) (hk : k.isNeutral)
    (hdot : k.isWord → last ≠ some .dot)
    (h : ∀ t : Token, t.kind = k → t.text = String.ofList w →
      Writes (some k) cs rest fun c => Q (t :: c)) : Writes last (w ++ cs) rest Q := by
  refine append (P := fun c => ∃ t : Token, t.kind = k ∧ t.text = String.ofList w ∧ c = [t])
    (lexeme hfront hk hdot fun t hk htext => ⟨t, hk, htext, rfl⟩) ?_
  rintro _ ⟨t, rfl, htext, rfl⟩
  exact h t rfl htext

/-- A word of the language, and what follows. -/
theorem word {k : TokenKind} (hk : k.isWord) (hdot : last ≠ some .dot)
    (hrest : Lexer.Apart (cs ++ rest))
    (h : ∀ t : Token, t.kind = k → Writes (some k) cs rest fun c => Q (t :: c)) :
    Writes last (k.spelling.toList ++ cs) rest Q :=
  token (Lexer.front_word hk hrest) (TokenKind.isNeutral_of_isWord hk) (fun _ => hdot)
    fun t ht _ => h t ht

/-- A symbol before a blank, and what follows. -/
theorem symbol {k : TokenKind} (hk : k.isSymbol) (hneutral : k.isNeutral)
    (h : ∀ t : Token, t.kind = k → t.text = k.spelling →
      Writes (some k) cs rest fun c => Q (t :: c)) :
    Writes last (k.spelling.toList ++ ' ' :: cs) rest Q := by
  refine token (Lexer.front_symbol_blank hk (cs ++ rest)) hneutral
    (by simp [TokenKind.isWord_of_isSymbol hk]) fun t ht htext => ?_
  exact (h t ht (htext.trans String.ofList_toList)).blank

/-- A symbol that is a lexeme before anything, and what follows. -/
theorem closed {k : TokenKind} (hk : k.isClosed) (hneutral : k.isNeutral)
    (h : ∀ t : Token, t.kind = k → Writes (some k) cs rest fun c => Q (t :: c)) :
    Writes last (k.spelling.toList ++ cs) rest Q :=
  token (Lexer.front_closed hk (cs ++ rest)) hneutral
    (by simp [TokenKind.isWord_of_isSymbol (TokenKind.isSymbol_of_isClosed hk)])
    fun t ht _ => h t ht

/-- A name behind a dot, a word of the language among them. -/
theorem memberName (hw : IsName w) (hrest : Lexer.Apart rest)
    (hQ : ∀ t : Token, t.kind = .name → t.text = String.ofList w → Q [t]) :
    Writes (some .dot) w rest Q := by
  refine of_step (Lexer.front_of_isName hw hrest) fun s t hlast hnewline hkind htext => ?_
  obtain ⟨s', hstep, hpasses⟩ := StatementScan.step_member hnewline hlast
    (t := t) (by rw [hkind]; exact TokenKind.isWord_ofWord _)
  exact ⟨s', _, hstep, hpasses, hQ (t.as .name) rfl htext⟩

/-- A semicolon ends the statement. -/
theorem semicolon (h : ∀ t : Token, t.kind = .terminator → Q [t]) : Writes last [';'] rest Q := by
  refine of_step (Lexer.front_closed (k := .semicolon) rfl rest) fun s t hlast hnewline hk _ => ?_
  obtain ⟨s', hstep, hpasses⟩ := StatementScan.step_semicolon (s := s) hk
  exact ⟨s', _, hstep, hpasses, h _ rfl⟩

end Writes

/-! ### Brackets -/

/-- The bracket that closes what another one opens. -/
def TokenKind.closing? : TokenKind → Option TokenKind
  | .leftParen => some .rightParen
  | .leftBracket => some .rightBracket
  | .leftBrace => some .rightBrace
  | _ => none

/-- An opening bracket is on the stack, and it is not the brace of a block. -/
theorem StatementScan.exists_opened (s : StatementScan) {k k' : TokenKind}
    (hk : k.closing? = some k') : ∃ b, s.opened k = some b ∧ b ≠ .block := by
  cases k <;> cases hk
  · refine ⟨_, rfl, ?_⟩
    split <;> exact nofun
  · exact ⟨_, rfl, nofun⟩
  · exact ⟨_, rfl, nofun⟩

namespace Writes

/-- What stands in brackets, but for statements. -/
theorem enclosed {k k' : TokenKind} (hk : k.closing? = some k')
    (hbrace : k = .leftBrace → last.all TokenKind.precedesBlock = false)
    (h : Writes (some k) cs (k'.spelling.toList ++ rest) P)
    (hQ : ∀ (t t' : Token) (c : List Token), t.kind = k → t'.kind = k' → P c →
      Q (t :: (c ++ [t']))) :
    Writes last (k.spelling.toList ++ (cs ++ k'.spelling.toList)) rest Q := by
  have hclosed : k.isClosed ∧ k'.isClosed ∧ k'.closesBracket ∧
      (k = .leftParen ∨ k = .leftBracket ∨ k = .leftBrace) := by
    cases k <;> cases hk <;> exact ⟨rfl, rfl, rfl, by decide⟩
  intro o s hlast hnewline
  obtain ⟨b, hopened, hb⟩ := s.exists_opened hk
  have hasBlock : s.asBlock ⟨k, String.ofList k.spelling.toList, o⟩
      = ⟨k, String.ofList k.spelling.toList, o⟩ := StatementScan.asBlock_eq (by rwa [hlast])
  obtain ⟨s₁, hstep₁, hstack₁, hlast₁, hnewline₁⟩ :=
    StatementScan.step_opening (t := ⟨k, String.ofList k.spelling.toList, o⟩) hnewline hclosed.2.2.2
      (by rw [hasBlock]; exact hopened)
  rw [hasBlock] at hstep₁ hlast₁
  obtain ⟨o₂, s₂, out, hpasses, hP, hread⟩ :=
    h (o.advance k.spelling.toList) s₁ hlast₁ hnewline₁
  obtain ⟨s₃, hstep₃, hstack₃, hlast₃, hnewline₃⟩ :=
    StatementScan.step_closing (t := ⟨k', String.ofList k'.spelling.toList, o₂⟩) hpasses.newline
      hclosed.2.2.1 (hpasses.stack.trans hstack₁) hb
  refine ⟨o₂.advance k'.spelling.toList, s₃, _, ⟨hstack₃, ?_, hnewline₃⟩,
    hQ ⟨k, String.ofList k.spelling.toList, o⟩ ⟨k', String.ofList k'.spelling.toList, o₂⟩ out
      rfl rfl hP, ?_⟩
  · rw [hlast₃]
    simp
  · rw [List.append_assoc, List.append_assoc,
      StatementScan.read_front (Lexer.front_closed hclosed.1 _), hstep₁, hread,
      StatementScan.read_front (Lexer.front_closed hclosed.2.1 _), hstep₃]
    simp

/-- Statements between the braces of a block, however they end. -/
theorem block (hlast : last.all TokenKind.precedesBlock)
    (h : ∀ (o : Origin) (s : StatementScan), s.last = some .blockBrace →
      ∃ (o' : Origin) (s' : StatementScan) (out : List Token), s'.stack = s.stack ∧ P out ∧
        s.read o (cs ++ ('\x7d' :: rest)) = (s'.read o' ('\x7d' :: rest)).behind out)
    (hQ : ∀ (t t' : Token) (c c' : List Token), t.kind = .blockBrace → t'.kind = .rightBrace →
      P c → AreTerminators c' → Q (t :: (c ++ (c' ++ [t'])))) :
    Writes last ('\x7b' :: (cs ++ ['\x7d'])) rest Q := by
  intro o s hlast' hnewline
  have htoken : Lexer.token? '\x7b' (cs ++ ('\x7d' :: rest)) = some (.leftBrace, 0) := rfl
  have hasBlock : s.asBlock ⟨.leftBrace, String.ofList ['\x7b'], o⟩
      = ⟨.blockBrace, String.ofList ['\x7b'], o⟩ := by
    rw [StatementScan.asBlock, hlast', hlast]
    rfl
  obtain ⟨s₁, hstep₁, hstack₁, hlast₁, -⟩ :=
    StatementScan.step_opening (b := .block) (t := ⟨.leftBrace, String.ofList ['\x7b'], o⟩) hnewline
      (Or.inr (Or.inr rfl)) (by rw [hasBlock]; rfl)
  rw [hasBlock] at hstep₁ hlast₁
  obtain ⟨o₂, s₂, out, hstack₂, hP, hread⟩ := h (o.advance ['\x7b']) s₁ hlast₁
  obtain ⟨o₃, s₃, out', t, hout', hk, hstack₃, hlast₃, hnewline₃, hread₃⟩ :=
    StatementScan.read_closeBlock (hstack₂.trans hstack₁) o₂ rest
  refine ⟨o₃, s₃, _, ⟨hstack₃, ?_, hnewline₃⟩,
    hQ ⟨.blockBrace, String.ofList ['\x7b'], o⟩ t out out' rfl hk hP hout', ?_⟩
  · rw [hlast₃]
    simp [hk]
  · rw [List.cons_append, List.append_assoc, List.singleton_append,
      StatementScan.read_token rfl htoken, List.take_zero, List.drop_zero, hstep₁, hread, hread₃]
    simp

end Writes

end Pieces

end MessageBinder
