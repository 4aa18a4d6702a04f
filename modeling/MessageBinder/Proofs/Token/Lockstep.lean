import Mathlib.Logic.Relation
import MessageBinder.Token.Terminator

/-!
# Line breaks that cannot matter

Settling the ends of the statements keeps little from one token to the next, and of a newline only
that there was one. Two states that differ in nothing that counts *agree*
(`MessageBinder.StatementScan.Agrees`), for an observer that sees of tokens their kinds at least.
States that agree emit from the same tokens the same, and agree again
(`MessageBinder.StatementScan.Agrees.steps`).

So a newline is idle (`MessageBinder.IdleBreak`) inside brackets other than those of blocks, behind
a token that can be the last of no statement, behind another newline and in front of a semicolon.
Idle newlines may come and go (`MessageBinder.Tokens.terminate_of_rebroken`).
-/

namespace MessageBinder

namespace Token

/-- What an observer sees of tokens: their kinds at least, and no less of a token that is taken for
another kind. -/
structure View (α : Type) where
  see : Token → α
  kind {t t' : Token} (h : see t' = see t) : t'.kind = t.kind
  ends {t t' : Token} (h : see t' = see t) : see (t'.as .terminator) = see (t.as .terminator)
  as {t t' : Token} (h : see t' = see t) (hkind : t.kind ≠ .terminator ∧ t.kind ≠ .newline)
    (k : TokenKind) : see (t'.as k) = see (t.as k)

/-- The observer who sees everything. -/
def View.whole : View Token where
  see t := t
  kind h := congrArg Token.kind h
  ends h := congrArg (Token.as · .terminator) h
  as h _ k := congrArg (Token.as · k) h

/-- What a token says wherever it stands: its kind, and its text unless it only ends a line or a
statement. -/
def shown (t : Token) : TokenKind × Option String :=
  (t.kind, if t.kind = .terminator ∨ t.kind = .newline then none else some t.text)

variable {t t' : Token}

theorem kind_of_shown (h : t'.shown = t.shown) : t'.kind = t.kind := congrArg Prod.fst h

theorem text_of_shown (h : t'.shown = t.shown) (hk : t.kind ≠ .terminator ∧ t.kind ≠ .newline) :
    t'.text = t.text := by
  have htext := congrArg Prod.snd h
  simp only [shown, kind_of_shown h, hk.1, hk.2, or_self, if_false] at htext
  exact Option.some.inj htext

/-- The observer who does not see where tokens stand. -/
def View.placeless : View (TokenKind × Option String) where
  see := shown
  kind := kind_of_shown
  ends _ := rfl
  as h hk k := by
    unfold shown Token.as
    rw [text_of_shown h hk]

end Token

namespace StatementScan

variable {α : Type}

/-- **Two states agree** if they go on alike: they may differ in what is not seen of tokens, and in
a newline that waits where no statement can end. -/
structure Agrees (V : Token.View α) (s s' : StatementScan) : Prop where
  stack : s'.stack = s.stack
  canEnd : s'.canEnd = s.canEnd
  last : s'.last = s.last
  /-- Of the kind before the last only this counts, for the head of a function. -/
  naming : s'.previous = some .functionWord ↔ s.previous = some .functionWord
  newline : s.canEnd → s.atStatementLevel →
    s'.newline.map (fun t => V.see (t.as .terminator))
      = s.newline.map (fun t => V.see (t.as .terminator))
  lastToken : s'.lastToken.map (fun t => V.see (t.as .terminator))
    = s.lastToken.map (fun t => V.see (t.as .terminator))

/-- What has been emitted is seen alike, and the states agree. -/
structure AgreeAfter (V : Token.View α) (r r' : List Token × StatementScan) : Prop where
  seen : r'.1.map V.see = r.1.map V.see
  agrees : r.2.Agrees V r'.2

variable {V : Token.View α} {s s' : StatementScan} {t t' : Token}

/-- A newline ends a statement only where one can end. -/
theorem ends_of_breaksBefore {k : TokenKind} (h : s.breaksBefore k) :
    s.canEnd ∧ s.atStatementLevel := by
  unfold breaksBefore at h
  split at h
  · cases h
  · rename_i hends
    simpa using hends

theorem settleNewline_eq (s : StatementScan) (k : TokenKind) :
    s.settleNewline k = if s.newline.isSome && s.breaksBefore k
      then ([(s.newline.getD default).as .terminator], { s.terminated with newline := none })
      else ([], { s with newline := none }) := by
  unfold settleNewline
  cases hnewline : s.newline with
  | none =>
    obtain ⟨⟩ := s
    cases hnewline
    rfl
  | some t => simp only [Option.isSome_some, Bool.true_and, Option.getD_some]

@[simp] theorem newline_settleNewline (s : StatementScan) (k : TokenKind) :
    (s.settleNewline k).2.newline = none := by
  rw [settleNewline_eq]
  split <;> rfl

@[simp] theorem newline_settleBrace (s : StatementScan) (t : Token) :
    (s.settleBrace t).2.newline = s.newline := by
  unfold settleBrace
  split <;> rfl

namespace Agrees

theorem refl (V : Token.View α) (s : StatementScan) : s.Agrees V s :=
  ⟨rfl, rfl, rfl, Iff.rfl, fun _ _ => rfl, rfl⟩

theorem atStatementLevel (h : s.Agrees V s') : s'.atStatementLevel = s.atStatementLevel := by
  simp only [StatementScan.atStatementLevel, h.stack]

theorem breaksBefore (h : s.Agrees V s') (k : TokenKind) :
    s'.breaksBefore k = s.breaksBefore k := by
  simp only [StatementScan.breaksBefore, h.canEnd, h.atStatementLevel, h.last]

theorem opensHead (h : s.Agrees V s') : s'.opensHead = s.opensHead := by
  simp only [StatementScan.opensHead, h.last, h.naming]

theorem terminated (h : s.Agrees V s') : s.terminated.Agrees V s'.terminated :=
  ⟨h.stack, rfl, rfl, by simp [StatementScan.terminated, h.last], nofun, h.lastToken⟩

theorem shift (h : s.Agrees V s') (hnewline : s.newline = none) (hnewline' : s'.newline = none)
    (k : TokenKind) : (s.shift k).Agrees V (s'.shift k) where
  stack := by
    have hopened : s'.opened k = s.opened k := by
      cases k <;> simp only [StatementScan.opened, h.opensHead]
    simp only [StatementScan.shift, hopened, h.stack]
  canEnd := by simp only [StatementScan.shift, h.stack]
  last := rfl
  naming := by simp [StatementScan.shift, h.last]
  newline _ _ := by simp [StatementScan.shift, hnewline, hnewline']
  lastToken := h.lastToken

theorem asMember (h : s.Agrees V s') (ht : V.see t' = V.see t) :
    V.see (s'.asMember t') = V.see (s.asMember t) := by
  unfold StatementScan.asMember
  rw [V.kind ht, h.last]
  split
  · rename_i hword
    refine V.as ht ?_ _
    rw [Bool.and_eq_true] at hword
    constructor <;> intro heq <;> rw [heq] at hword <;> exact absurd hword.1 (by decide)
  · exact ht

theorem asBlock (h : s.Agrees V s') (ht : V.see t' = V.see t) :
    V.see (s'.asBlock t') = V.see (s.asBlock t) := by
  unfold StatementScan.asBlock
  rw [V.kind ht, h.last]
  split
  · rename_i hbrace
    simp only [Bool.and_eq_true, decide_eq_true_eq] at hbrace
    exact V.as ht (by rw [hbrace.1]; exact ⟨nofun, nofun⟩) _
  · exact ht

/-- What waits is settled alike, and nothing waits any more. -/
theorem settleNewline (h : s.Agrees V s') (k : TokenKind) :
    AgreeAfter V (s.settleNewline k) (s'.settleNewline k) := by
  have hidle : AgreeAfter V ([], { s with newline := none }) ([], { s' with newline := none }) :=
    ⟨rfl, { h with newline := fun _ _ => rfl }⟩
  rw [settleNewline_eq, settleNewline_eq, h.breaksBefore]
  cases hbreaks : s.breaksBefore k with
  | false => simpa using hidle
  | true =>
    obtain ⟨hends, hlevel⟩ := ends_of_breaksBefore hbreaks
    have hnewline := h.newline hends hlevel
    cases hs : s.newline with
    | none =>
      rw [hs] at hnewline
      rw [Option.map_eq_none_iff.1 hnewline]
      exact hidle
    | some t =>
      rw [hs] at hnewline
      obtain ⟨t', hs', ht⟩ := Option.map_eq_some_iff.1 hnewline
      rw [hs']
      exact ⟨congrArg (fun x => [x]) ht, { h.terminated with newline := fun _ _ => rfl }⟩

theorem settleBrace (h : s.Agrees V s') (ht : V.see t' = V.see t) :
    AgreeAfter V (s.settleBrace t) (s'.settleBrace t') := by
  unfold StatementScan.settleBrace
  rw [V.kind ht, h.stack, h.canEnd]
  split
  · exact ⟨congrArg (fun x => [x]) (V.ends ht), h.terminated⟩
  · exact ⟨rfl, h⟩

/-- **States that agree take a token alike.** -/
theorem step (h : s.Agrees V s') (ht : V.see t' = V.see t) :
    AgreeAfter V (s.step t) (s'.step t') := by
  unfold StatementScan.step
  rw [V.kind ht]
  split
  · refine ⟨rfl, { h with newline := fun hends hlevel => ?_ }⟩
    have hnewline := h.newline hends hlevel
    cases hs : s.newline with
    | none =>
      rw [hs] at hnewline
      rw [Option.map_eq_none_iff.1 hnewline]
      exact congrArg some (V.ends ht)
    | some t =>
      rw [hs] at hnewline
      obtain ⟨t', hs', ht⟩ := Option.map_eq_some_iff.1 hnewline
      rw [hs']
      exact congrArg some ht
  · exact ⟨congrArg (fun x => [x]) (V.ends ht),
      { h.terminated with newline := fun _ _ => rfl, lastToken := congrArg some (V.ends ht) }⟩
  · have hmember := h.asMember ht
    have hline := h.settleNewline (s.asMember t).kind
    have hbrace := hline.agrees.settleBrace hmember
    have hblock := hbrace.agrees.asBlock hmember
    simp only [V.kind hmember] at hline hbrace hblock ⊢
    refine ⟨?_, ?_⟩
    · simp only [List.map_append, hline.seen, hbrace.seen, List.map_cons, List.map_nil, hblock]
    · rw [V.kind hblock]
      exact { hbrace.agrees.shift (by simp) (by simp) _ with
        lastToken := congrArg some (V.ends hblock) }

/-- **States that agree take tokens alike.** -/
theorem steps {ts ts' : List Token} (h : s.Agrees V s') (hts : ts'.map V.see = ts.map V.see) :
    AgreeAfter V (s.steps ts) (s'.steps ts') := by
  induction ts generalizing s s' ts' with
  | nil =>
    obtain rfl := List.map_eq_nil_iff.1 hts
    exact ⟨rfl, h⟩
  | cons t ts ih =>
    obtain ⟨t', ts', rfl, ht, hts⟩ := List.map_eq_cons_iff.1 hts
    have hstep := h.step ht
    have hrest := ih hstep.agrees hts
    refine ⟨?_, hrest.agrees⟩
    simp only [StatementScan.steps, List.map_append, hstep.seen, hrest.seen]

theorem finish (h : s.Agrees V s') : s'.finish.map V.see = s.finish.map V.see := by
  have hlast := h.lastToken
  unfold StatementScan.finish
  rw [h.canEnd, h.atStatementLevel]
  cases hs : s.lastToken with
  | none =>
    rw [hs] at hlast
    rw [Option.map_eq_none_iff.1 hlast]
  | some t =>
    rw [hs] at hlast
    obtain ⟨t', hs', ht⟩ := Option.map_eq_some_iff.1 hlast
    rw [hs']
    dsimp only
    split
    · exact congrArg (fun x => [x]) ht
    · rfl

end Agrees

theorem steps_cons (s : StatementScan) (t : Token) (ts : List Token) :
    s.steps (t :: ts)
      = ((s.step t).1 ++ ((s.step t).2.steps ts).1, ((s.step t).2.steps ts).2) := rfl

theorem steps_append (s : StatementScan) (ts ts' : List Token) :
    s.steps (ts ++ ts')
      = ((s.steps ts).1 ++ ((s.steps ts).2.steps ts').1, ((s.steps ts).2.steps ts').2) := by
  induction ts generalizing s with
  | nil => rfl
  | cons t ts ih => simp only [List.cons_append, steps, ih, List.append_assoc]

theorem step_of_newline (ht : t.kind = .newline) :
    s.step t = ([], { s with newline := s.newline <|> some t }) := by
  unfold step
  rw [ht]

theorem step_of_semicolon (ht : t.kind = .semicolon) :
    s.step t = ([t.as .terminator],
      { s.terminated with newline := none, lastToken := some t }) := by
  unfold step
  rw [ht]

/-- A newline that was read last waits. -/
theorem newline_steps {ts : List Token} (h : ts.getLast?.any (·.kind = .newline)) :
    (s.steps ts).2.newline.isSome := by
  obtain ⟨t, ht, hk⟩ := (Option.any_eq_true _ _).1 h
  obtain ⟨ts, rfl⟩ := List.getLast?_eq_some_iff.1 ht
  rw [steps_append]
  simp [steps, step_of_newline (of_decide_eq_true hk)]

end StatementScan

/-- States that agree behind two texts settle them alike. -/
theorem StatementScan.AgreeAfter.terminate_tokens {α : Type} {V : Token.View α}
    {ts ts' : List Token} (h : AgreeAfter V (steps {} ts) (steps {} ts'))
    (stop : Option (Char × Origin)) :
    (Tokens.terminate ⟨ts', stop⟩).tokens.map V.see
      = (Tokens.terminate ⟨ts, stop⟩).tokens.map V.see := by
  unfold Tokens.terminate
  dsimp only
  split
  · rw [List.map_append, List.map_append, h.seen, h.agrees.finish]
  · exact h.seen

/-! ### Idle newlines -/

/-- **A newline is idle** between these tokens: the innermost open bracket is none of a block, or
the last token emitted can end no statement, or a newline is in front, or a semicolon follows. -/
def IdleBreak (before after : List Token) : Prop :=
  (StatementScan.steps {} before).2.stack.head?.any (· ≠ .block) ∨
    (StatementScan.steps {} before).2.canEnd = false ∨
    before.getLast?.any (·.kind = .newline) ∨ after.head?.any (·.kind = .semicolon)

instance (before after : List Token) : Decidable (IdleBreak before after) :=
  inferInstanceAs (Decidable (_ ∨ _ ∨ _ ∨ _))

/-- One idle newline more. -/
inductive Rebroken : List Token → List Token → Prop
  | insert {before after : List Token} {t : Token} (ht : t.kind = .newline)
      (h : IdleBreak before after) : Rebroken (before ++ after) (before ++ t :: after)

namespace StatementScan

/-- Behind a newline the states agree if the brackets, the token in front or a newline in front make
it idle. -/
theorem agrees_newline {s : StatementScan} {t : Token} (ht : t.kind = .newline)
    (h : s.stack.head?.any (· ≠ .block) ∨ s.canEnd = false ∨ s.newline.isSome) :
    s.Agrees .whole (s.step t).2 := by
  rw [step_of_newline ht]
  refine { Agrees.refl .whole s with newline := fun hends hlevel => ?_ }
  rcases h with h | h | h
  · obtain ⟨b, hb, hne⟩ := (Option.any_eq_true _ _).1 h
    unfold atStatementLevel at hlevel
    rw [hb] at hlevel
    cases b
    case block => exact absurd hne (by decide)
    all_goals cases hlevel
  · rw [h] at hends
    cases hends
  · obtain ⟨first, hfirst⟩ := Option.isSome_iff_exists.1 h
    rw [hfirst]
    rfl

/-- One idle newline changes nothing of what is emitted. -/
theorem agreeAfter_of_rebroken {ts ts' : List Token} (h : Rebroken ts ts') :
    AgreeAfter .whole (steps {} ts) (steps {} ts') := by
  obtain @⟨before, after, t, ht, hidle⟩ := h
  unfold IdleBreak at hidle
  have hwaits : before.getLast?.any (·.kind = .newline) → (steps {} before).2.newline.isSome :=
    newline_steps
  rw [steps_append, steps_append, steps_cons]
  generalize (steps {} before).1 = out at *
  generalize (steps {} before).2 = s at *
  suffices hrest : AgreeAfter .whole (s.steps after) ((s.step t).2.steps after) by
    have hnothing : (s.step t).1 = [] := by rw [step_of_newline ht]
    exact ⟨by simp only [hnothing, List.nil_append, List.map_append, hrest.seen], hrest.agrees⟩
  rcases hidle with hidle | hidle | hidle | hidle
  · exact (agrees_newline ht (.inl hidle)).steps rfl
  · exact (agrees_newline ht (.inr (.inl hidle))).steps rfl
  · exact (agrees_newline ht (.inr (.inr (hwaits hidle)))).steps rfl
  · -- the semicolon takes the newline with it
    obtain ⟨semicolon, hhead, hk⟩ := (Option.any_eq_true _ _).1 hidle
    obtain ⟨rest, rfl⟩ := List.head?_eq_some_iff.1 hhead
    have hsemicolon := of_decide_eq_true hk
    have hstep : (s.step t).2.step semicolon = s.step semicolon := by
      rw [step_of_newline ht, step_of_semicolon hsemicolon, step_of_semicolon hsemicolon]
      rfl
    rw [steps_cons, steps_cons, hstep]
    exact ⟨rfl, .refl _ _⟩

end StatementScan

/-- **Idle newlines may come and go**, any number of them: the tokens that are emitted stay the
same. -/
theorem Tokens.terminate_of_rebroken {ts ts' : List Token}
    (h : Relation.EqvGen Rebroken ts ts') (stop : Option (Char × Origin)) :
    (Tokens.terminate ⟨ts', stop⟩).tokens = (Tokens.terminate ⟨ts, stop⟩).tokens := by
  induction h with
  | rel ts ts' h =>
    have hwhole : ∀ ts : Tokens, ts.tokens.map Token.View.whole.see = ts.tokens := fun ts =>
      List.map_id ts.tokens
    have hseen := (StatementScan.agreeAfter_of_rebroken h).terminate_tokens stop
    rwa [hwhole, hwhole] at hseen
  | refl => rfl
  | symm _ _ _ ih => exact ih.symm
  | trans _ _ _ _ _ ih ih' => exact ih'.trans ih

/-- The tokens of a call, with a newline behind its opening bracket and one in front of its
semicolon, and without. -/
theorem Tokens.terminate_of_rebroken_call :
    let name (text : String) : Token := ⟨.name, text, default⟩
    let mark (kind : TokenKind) : Token := ⟨kind, "", default⟩
    let joined := [name "f", mark .leftParen, name "a", mark .rightParen, mark .semicolon]
    let broken := [name "f", mark .leftParen, mark .newline, name "a", mark .rightParen,
      mark .newline, mark .semicolon]
    Relation.EqvGen Rebroken joined broken ∧
      (Tokens.terminate ⟨broken, none⟩).tokens = (Tokens.terminate ⟨joined, none⟩).tokens := by
  intro name mark joined broken
  have hbracket : Rebroken joined
      ([name "f", mark .leftParen] ++ mark .newline
        :: [name "a", mark .rightParen, mark .semicolon]) := by
    change Rebroken ([name "f", mark .leftParen]
      ++ [name "a", mark .rightParen, mark .semicolon]) _
    exact .insert rfl (by decide +kernel)
  have hsemicolon : Rebroken ([name "f", mark .leftParen, mark .newline, name "a", mark .rightParen]
      ++ [mark .semicolon]) broken := .insert rfl (by decide +kernel)
  have hboth : Relation.EqvGen Rebroken joined broken :=
    (Relation.EqvGen.rel _ _ hbracket).trans _ _ _ (.rel _ _ hsemicolon)
  exact ⟨hboth, Tokens.terminate_of_rebroken hboth none⟩

end MessageBinder
