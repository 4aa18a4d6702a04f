import MessageBinder.Proofs.Grammar.Joints

/-!
# Line breaks between and within statements

A newline need not end a statement: behind it the statement may go on. Whether it does is settled
from the next token alone, and two tokens that can go on a statement are taken for the beginning of
another: the parenthesis of a call and the square bracket of an index. There the newline splits a
statement (`MessageBinder.Splits`).

Nowhere else does it matter whether a newline or a blank stands between two tokens, as long as the
text can be read with either (`MessageBinder.Module.unplaced_eq_iff_not_splits`). Behind `return` it
always matters.
-/

namespace MessageBinder

open StatementScan (steps flow)

/-- **A newline splits a statement**: one can end in front of it, where there is no other newline
and no block has been closed, and a parenthesis or a square bracket follows. -/
def Splits (before after : List Token) : Prop :=
  (steps {} before).2.canEnd ∧ (steps {} before).2.atStatementLevel ∧
    (steps {} before).2.newline.isNone ∧ endsBlock before = false ∧
    after.head?.any fun t => t.kind = .leftParen || t.kind = .leftBracket

instance (before after : List Token) : Decidable (Splits before after) :=
  inferInstanceAs (Decidable (_ ∧ _ ∧ _ ∧ _ ∧ _))

/-- The last token is `return`. -/
def FollowsReturn (before : List Token) : Prop :=
  (steps {} before).2.last = some .returnWord ∧ (steps {} before).2.newline.isNone

instance (before : List Token) : Decidable (FollowsReturn before) :=
  inferInstanceAs (Decidable (_ ∧ _))

namespace StatementScan

variable {s : StatementScan} {nl n : Token} {ts : List Token}

theorem closed_eq (h : s.newline = none) : s.closed = s.terminated := by
  unfold closed terminated
  rw [h]

/-- A real break: nothing waits, and a token follows that the newline ends a statement in front of,
while nothing else would. -/
structure BreaksAt (s : StatementScan) (n : Token) : Prop where
  newline : s.newline = none
  breaks : s.breaksBefore n.kind
  line : n.kind ≠ .newline
  semicolon : n.kind ≠ .semicolon
  brace : n.kind = .rightBrace → s.stack.head? ≠ some .block

theorem breaksBefore_of_opens {k : TokenKind} (hk : k = .leftParen ∨ k = .leftBracket)
    (hends : s.canEnd) (hlevel : s.atStatementLevel) : s.breaksBefore k := by
  unfold breaksBefore
  rcases hk with rfl | rfl <;> simp [hends, hlevel, TokenKind.continuesStatement]

/-- The brace of a block ends a statement as the newline in front of it does. -/
theorem told_of_block (hnewline : s.newline = none) (hbrace : n.kind = .rightBrace)
    (hstack : s.stack.head? = some .block) (hends : s.canEnd) {t : Token}
    (ht : t.kind = .terminator) (ts : List Token) :
    Told (s.flow (n :: ts)) (t :: s.terminated.flow (n :: ts)) := by
  have hline : n.kind ≠ .newline := by rw [hbrace]; nofun
  have hsemicolon : n.kind ≠ .semicolon := by rw [hbrace]; nofun
  have hmember (s : StatementScan) : s.asMember n = n := asMember_eq fun h => by
    rw [hbrace] at h
    cases h
  have hstep : s.step n
      = (n.as .terminator :: (s.terminated.step n).1, (s.terminated.step n).2) := by
    rw [step_eq_place hline hsemicolon, step_eq_place hline hsemicolon, hmember, hmember]
    have hsettle : s.settleNewline n.kind = ([], s) := by
      unfold settleNewline
      rw [hnewline]
    have hsettle' : s.terminated.settleNewline n.kind = ([], s.terminated) := by
      unfold settleNewline
      rw [show s.terminated.newline = none from hnewline]
    have hplace : s.settleBrace n = ([n.as .terminator], s.terminated) := by
      simp [settleBrace, hbrace, hstack, hends]
    have hplace' : s.terminated.settleBrace n = ([], s.terminated) := by
      simp [settleBrace, terminated]
    rw [hsettle, hsettle']
    simp only [place, hplace, hplace']
    rfl
  rw [flow_cons, flow_cons, hstep]
  exact congrArg (· :: _) (by simp [Token.shown, Token.as, ht])

/-- **A newline changes nothing, or it breaks at the next token.** -/
theorem told_or_breaksAt (hnl : nl.kind = .newline) (s : StatementScan)
    (hends : s.canEnd → s.last.any TokenKind.endsStatement) (ts : List Token) :
    Told (s.flow ts) (s.flow (nl :: ts)) ∧ ¬ (s.canEnd ∧ s.atStatementLevel ∧ s.newline.isNone ∧
        ts.head?.any fun t => t.kind = .leftParen || t.kind = .leftBracket) ∨
      ∃ n ts', ts = n :: ts' ∧ s.BreaksAt n := by
  cases ts with
  | nil => exact .inl ⟨congrArg _ (flow_newline_nil hnl s), by simp⟩
  | cons n ts =>
    by_cases hline : n.kind = .newline
    · have htold : Told (n :: ts) (nl :: ts) :=
        congrArg (· :: _) (by simp [Token.shown, hnl, hline])
      exact .inl ⟨flow_newline_newline hnl s hline ts ▸ flow_told s htold, by simp [hline]⟩
    by_cases hsemicolon : n.kind = .semicolon
    · exact .inl ⟨congrArg _ (flow_newline_semicolon hnl s hsemicolon ts), by simp [hsemicolon]⟩
    cases hbreaks : s.breaksBefore (s.asMember n).kind with
    | false =>
      refine .inl ⟨congrArg _ (flow_newline_of_not_breaks hnl hbreaks hline hsemicolon ts), ?_⟩
      -- in front of a parenthesis or a bracket the scan would have broken
      rintro ⟨hend, hlevel, -, hopens⟩
      have hk : n.kind = .leftParen ∨ n.kind = .leftBracket := by simpa using hopens
      have hmember : s.asMember n = n := asMember_eq fun hword => by
        rcases hk with hk | hk <;> rw [hk] at hword <;> cases hword
      rw [hmember, breaksBefore_of_opens hk hend hlevel] at hbreaks
      cases hbreaks
    | true =>
      have hend := (ends_of_breaksBefore hbreaks).1
      have hmember : s.asMember n = n :=
        asMember_eq fun _ => ne_of_endsStatement (k := .dot) rfl (hends hend)
      rw [hmember] at hbreaks
      cases hnewline : s.newline with
      | some first =>
        have hidle := flow_newline_of_idle hnl (.inr (.inr (by rw [hnewline]; rfl))) (n :: ts)
        exact .inl ⟨congrArg _ hidle, by simp⟩
      | none =>
        by_cases hbrace : n.kind = .rightBrace ∧ s.stack.head? = some .block
        · -- in front of the brace of a block a statement ends anyway
          obtain ⟨t, ht, hflow⟩ :=
            flow_newline_of_breaks hnl hbreaks (hends hend) hline hsemicolon ts
          rw [hflow, closed_eq hnewline]
          exact .inl ⟨told_of_block hnewline hbrace.1 hbrace.2 hend ht ts, by simp [hbrace.1]⟩
        · exact .inr ⟨n, ts, rfl, hnewline, hbreaks, hline, hsemicolon,
            fun hk hstack => hbrace ⟨hk, hstack⟩⟩

section BreaksAt

variable (h : s.BreaksAt n) (hlast : s.last.any TokenKind.endsStatement)
include h hlast

/-- The next token, without a newline in front of it. -/
theorem BreaksAt.step_eq : s.step n = ([s.asBlock n],
    { s.shift (s.asBlock n).kind with lastToken := some (s.asBlock n) }) := by
  have hmember : s.asMember n = n := asMember_eq fun _ => ne_of_endsStatement (k := .dot) rfl hlast
  have hstep := StatementScan.step_eq h.newline h.line h.semicolon h.brace
  rwa [hmember] at hstep

/-- Behind a terminator all goes on as it would without, where neither is in front of a head and
both are in front of a block if one is. -/
theorem BreaksAt.flow_terminated (hopens : s.opensHead = false)
    (hblock : n.kind = .leftBrace → s.last.all TokenKind.precedesBlock) (ts : List Token) :
    s.terminated.flow (n :: ts) = s.flow (n :: ts) := by
  have hmember : s.terminated.asMember n = n := asMember_eq fun _ => nofun
  have hsame : s.terminated.asBlock n = s.asBlock n := by
    unfold asBlock
    by_cases hbrace : n.kind = .leftBrace
    · rw [hblock hbrace]
      rfl
    · simp [hbrace]
  have hagrees : AgreeAfter .whole (s.step n) (s.terminated.step n) := by
    rw [h.step_eq hlast, StatementScan.step_eq (s := s.terminated) h.newline h.line h.semicolon
      h.brace, hmember, hsame]
    refine ⟨rfl, ?_⟩
    have hopened : s.terminated.opened (s.asBlock n).kind = s.opened (s.asBlock n).kind := by
      have hopens' : s.terminated.opensHead = false := rfl
      cases (s.asBlock n).kind <;> simp only [opened, hopens, hopens']
    exact {
      stack := by simp only [shift, hopened]; rfl
      canEnd := rfl
      last := rfl
      naming := by
        have hne : s.last ≠ some .functionWord := ne_of_endsStatement rfl hlast
        simp [shift, terminated, hne]
      newline := fun _ _ => rfl
      lastToken := rfl }
  have hout : (s.terminated.step n).1 = (s.step n).1 :=
    (List.map_id _).symm.trans (hagrees.seen.trans (List.map_id _))
  rw [flow_cons, flow_cons, hout, hagrees.agrees.flow_eq]

end BreaksAt

end StatementScan

/-! ### The two courses -/

namespace Spot

variable {σ σ' : Spot} {c c' : List Token}

/-- What has been counted before does not matter. -/
theorem next_add (d : Nat) {k : TokenKind} (h : σ.next k = some σ') :
    Spot.next ⟨σ.opened, σ.behind, σ.statements + d⟩ k
      = some ⟨σ'.opened, σ'.behind, σ'.statements + d⟩ := by
  obtain ⟨o, b, n⟩ := σ
  unfold Spot.next at h ⊢
  dsimp only at h ⊢
  rw [Nat.add_right_comm]
  split at h
  all_goals
    first
    | obtain rfl := Option.some.inj h
      rfl
    | cases h

theorem walk_add (d : Nat) (h : σ.walk c = some σ') :
    Spot.walk ⟨σ.opened, σ.behind, σ.statements + d⟩ c
      = some ⟨σ'.opened, σ'.behind, σ'.statements + d⟩ := by
  induction c generalizing σ with
  | nil =>
    obtain rfl := Option.some.inj h
    rfl
  | cons t c ih =>
    obtain ⟨σ₁, hnext, hrest⟩ := Option.bind_eq_some_iff.1 h
    rw [walk, next_add d hnext, Option.bind_some]
    exact ih hrest

end Spot

namespace Behind

variable {b : Behind} {k : TokenKind} {m : Move}

/-- Where a terminator can come. -/
theorem move_terminator (h : b.move .terminator = some m) :
    b = .opening ∨ b = .branch ∨ b = .returning ∨
      (b = .operand ∨ b = .closure) ∧ m = .to .opening := by
  revert h
  cases b <;> rintro ⟨⟩ <;> decide

/-- What can go on an operand but is not taken for it begins a statement with the same bracket. -/
theorem move_of_not_continues (hb : b = .operand ∨ b = .closure) (hk : k ≠ .terminator)
    (hcontinues : k.continuesStatement = false) (h : b.move k = some m) :
    b = .operand ∧ (k = .leftParen ∨ k = .leftBracket) ∧ opening.move k = some m ∧
      opening.begins k := by
  revert h
  rcases hb with rfl | rfl
  · cases k <;> first | contradiction | rintro ⟨⟩ <;> decide
  · cases k <;> first | contradiction | nofun

end Behind

section Break

variable {s : StatementScan} {n : Token} {σ σ₁ : Spot} {before ts : List Token} {ss ss' : List Stmt}

/-- Where a newline breaks, a statement can begin or an operand is behind. -/
theorem StatementScan.BreaksAt.behind (h : s.BreaksAt n) (htracks : Tracks s σ)
    (hreturn : s.last ≠ some .returnWord) (hnext : σ.next .terminator = some σ₁) :
    σ.behind = .opening ∨ (σ.behind = .operand ∨ σ.behind = .closure) ∧
      σ₁ = ⟨σ.opened, .opening, σ.statements⟩ := by
  obtain ⟨o, b, k⟩ := σ
  obtain ⟨m, hm⟩ : ∃ m, b.move .terminator = some m := by
    cases hm : b.move .terminator with
    | none =>
      unfold Spot.next at hnext
      rw [hm] at hnext
      cases hnext
    | some m => exact ⟨m, rfl⟩
  rcases Behind.move_terminator hm with hb | hb | hb | ⟨hb, rfl⟩
  · exact .inl hb
  · have hends := (StatementScan.ends_of_breaksBefore h.breaks).1
    rw [htracks.branch hb] at hends
    cases hends
  · exact absurd (htracks.returning hb) hreturn
  · refine .inr ⟨hb, ?_⟩
    unfold Spot.next at hnext
    rw [hm] at hnext
    have hbegins : b.begins .terminator = false := by rcases hb with rfl | rfl <;> rfl
    rw [hbegins] at hnext
    exact (Option.some.inj hnext).symm

/-- A bracket behind an operand, and the same one at the beginning of a statement. -/
theorem Spot.next_of_not_continues {k : TokenKind} (hσ : σ.behind = .operand ∨ σ.behind = .closure)
    (hk : k ≠ .terminator) (hcontinues : k.continuesStatement = false)
    (hnext : σ.next k = some σ₁) :
    σ.behind = .operand ∧ (k = .leftParen ∨ k = .leftBracket) ∧
      Spot.next ⟨σ.opened, .opening, σ.statements⟩ k
        = some ⟨σ₁.opened, σ₁.behind, σ₁.statements + 1⟩ := by
  have hmove : ∃ m, σ.behind.move k = some m := by
    cases hm : σ.behind.move k with
    | none =>
      unfold Spot.next at hnext
      rw [hm] at hnext
      cases hnext
    | some m => exact ⟨m, rfl⟩
  obtain ⟨m, hm⟩ := hmove
  obtain ⟨hoperand, hopens, hm', hbegins⟩ := Behind.move_of_not_continues hσ hk hcontinues hm
  refine ⟨hoperand, hopens, ?_⟩
  obtain ⟨o, b, c⟩ := σ
  obtain rfl : b = .operand := hoperand
  unfold Spot.next at hnext ⊢
  dsimp only at hnext ⊢
  rw [hm, Behind.Ends.begins (.inl rfl)] at hnext
  rw [hm', hbegins]
  rcases hopens with rfl | rfl
  all_goals
    obtain rfl := Option.some.inj hm
    obtain rfl := Option.some.inj hnext
    rfl

/-- What breaks at a newline goes on nothing. -/
theorem StatementScan.not_continues_of_breaksBefore {k : TokenKind} (h : s.breaksBefore k)
    (hreturn : s.last ≠ some .returnWord) : k.continuesStatement = false := by
  unfold breaksBefore at h
  rw [if_neg hreturn] at h
  split at h
  · cases h
  split at h
  · cases h
  split at h
  · cases h
  · rename_i hno
    exact Bool.eq_false_iff.2 hno

/-- Where an operand is behind the break, the next token is a bracket that goes it on, and with a
terminator in front one more statement begins. -/
theorem StatementScan.BreaksAt.statements (hb : s.BreaksAt n)
    (hlast : s.last.any TokenKind.endsStatement) (hreturn : s.last ≠ some .returnWord)
    (hopens : s.opensHead = false) (hn : n.kind ≠ .terminator)
    (hσ : σ.behind = .operand ∨ σ.behind = .closure) {τ τ' : Spot}
    (h : Spot.walk ⟨σ.opened, .opening, σ.statements⟩ (s.terminated.flow (n :: ts)) = some τ)
    (h' : σ.walk (s.flow (n :: ts)) = some τ') :
    σ.behind = .operand ∧ (n.kind = .leftParen ∨ n.kind = .leftBracket) ∧
      τ.statements = τ'.statements + 1 := by
  rw [flow_cons, hb.step_eq hlast, List.singleton_append] at h'
  obtain ⟨σ₂, hnext, h'⟩ := Option.bind_eq_some_iff.1 h'
  have hcontinues := not_continues_of_breaksBefore hb.breaks hreturn
  obtain ⟨hk, hcontinues⟩ : (s.asBlock n).kind ≠ .terminator ∧
      (s.asBlock n).kind.continuesStatement = false := by
    rcases kind_asBlock s n with hk | ⟨hk, -⟩ <;> rw [hk]
    · exact ⟨hn, hcontinues⟩
    · exact ⟨nofun, rfl⟩
  obtain ⟨hoperand, hbracket, hnext'⟩ := Spot.next_of_not_continues hσ hk hcontinues hnext
  have hn : n.kind = .leftParen ∨ n.kind = .leftBracket := by
    rcases kind_asBlock s n with hk | ⟨hk, -⟩
    · rwa [← hk]
    · rw [hk] at hbracket
      rcases hbracket with hk | hk <;> cases hk
  have hbrace : n.kind ≠ .leftBrace := by rcases hn with hn | hn <;> rw [hn] <;> nofun
  rw [hb.flow_terminated hlast hopens fun hk => absurd hk hbrace, flow_cons, hb.step_eq hlast,
    List.singleton_append, Spot.walk, hnext', Option.bind_some, Spot.walk_add 1 h'] at h
  exact ⟨hoperand, hn, (congrArg Spot.statements (Option.some.inj h)).symm⟩

/-- **Tokens tell the same with a newline at the joint and without**, if they tell anything with and
without, unless the newline splits a statement. -/
theorem tells_eq_iff_not_splits [CharacterNames] {nl : Token} {after : List Token}
    (hnl : nl.kind = .newline) (hafter : ∀ t ∈ after, t.kind ≠ .terminator)
    (hreturn : ¬ FollowsReturn before) (h : Tells (flow {} (before ++ nl :: after)) ss)
    (h' : Tells (flow {} (before ++ after)) ss') :
    ss' = ss ↔ ¬ Splits before after := by
  rw [StatementScan.flow_append] at h h'
  have hends : (steps {} before).2.canEnd → _ := StatementScan.endsStatement_of_canEnd
  rcases StatementScan.told_or_breaksAt hnl (steps {} before).2 hends after with
    ⟨htold, hno⟩ | ⟨n, ts, rfl, hb⟩
  · exact iff_of_true (h.unique (h'.told (Told.join rfl htold))) fun hs =>
      hno ⟨hs.1, hs.2.1, hs.2.2.1, hs.2.2.2.2⟩
  · have hend := (StatementScan.ends_of_breaksBefore hb.breaks).1
    have hlast := hends hend
    have hword : (steps {} before).2.last ≠ some .returnWord := fun hlast =>
      hreturn ⟨hlast, by rw [hb.newline]; rfl⟩
    obtain ⟨t, ht, hflow⟩ :=
      StatementScan.flow_newline_of_breaks hnl hb.breaks hlast hb.line hb.semicolon ts
    rw [hflow, StatementScan.closed_eq hb.newline] at h
    have hwalk := h.walk
    have hwalk' := h'.walk
    rw [Spot.walk_append] at hwalk hwalk'
    obtain ⟨σ, hbefore, hwalk⟩ := Option.bind_eq_some_iff.1 hwalk
    obtain ⟨σ₁, hnext, hwalk⟩ := Option.bind_eq_some_iff.1 hwalk
    rw [hbefore, Option.bind_some] at hwalk'
    rw [ht] at hnext
    have htracks := (Tracks.start {} rfl).steps hbefore
    have hbehind := hb.behind htracks hword hnext
    have hopens : (steps {} before).2.opensHead = false := by
      rw [Bool.eq_false_iff, Ne, htracks.head]
      rcases hbehind with hσ | ⟨hσ | hσ, -⟩ <;> rw [hσ] <;> decide
    rcases hbehind with hσ | ⟨hσ, rfl⟩
    · -- the newline is a spare terminator
      have hbrace := htracks.opening hσ hend
      have hspare := h.spare hbefore hσ ht
      rw [hb.flow_terminated hlast hopens (fun _ => by rw [hbrace]; rfl)] at hspare
      have hblock := endsBlock_of_opening hbefore hend hb.newline hσ
      exact iff_of_true (hspare.unique h') fun hs => by
        rw [hs.2.2.2.1] at hblock
        cases hblock
    · -- the newline ends a statement that the next token goes on
      obtain ⟨hoperand, hn, hcount⟩ := hb.statements hlast hword hopens
        (hafter n (List.mem_cons_self ..)) hσ hwalk hwalk'
      have hblock : endsBlock before = false := Bool.eq_false_iff.2 fun h =>
        behind_ne_operand_of_endsBlock h hbefore hoperand
      refine iff_of_false (fun hss => ?_) (not_not_intro
        ⟨hend, (StatementScan.ends_of_breaksBefore hb.breaks).2, by rw [hb.newline]; rfl, hblock,
          by simpa using hn⟩)
      rw [hss] at hcount
      exact absurd hcount (Nat.succ_ne_self _).symm

end Break

namespace Module

/-- **It does not matter whether a newline or a blank stands between two tokens**, for a text that
can be read with either and places aside, unless the newline splits a statement. The newline is no
part of a comment and ends none, and it is not behind `return`. -/
theorem unplaced_eq_iff_not_splits [CharacterNames] {before after : String}
    {filename : Option String} {base : Nat} {m m' : Module}
    (hcut : Lexer.Cuts before.toList ('\n' :: after.toList))
    (hreturn : ¬ FollowsReturn (Tokens.ofText before base).tokens)
    (h : parse (before ++ "\n" ++ after) filename base = .ok m)
    (h' : parse (before ++ " " ++ after) filename base = .ok m') :
    m'.unplaced = m.unplaced ↔
      ¬ Splits (Tokens.ofText before base).tokens (Tokens.ofText after base).tokens := by
  have hrest : Lexer.Parted ('\n' :: after.toList) := joins_newline.parted _
  have htells := ((exists_parse_iff hcut hrest joins_newline).1 ⟨m, h, rfl⟩).2
  have htells' := ((exists_parse_iff hcut hrest joins_blank).1 ⟨m', h', rfl⟩).2
  rw [unplaced_eq_iff h h']
  exact tells_eq_iff_not_splits rfl (fun t ht => (Lexer.scan_unsettled _ _ t ht).1) hreturn htells
    htells'

section

attribute [local instance] CharacterNames.nameless

/-- In front of a sign the statement goes on. -/
theorem unplaced_eq_iff_not_splits_sum : ∃ m m',
    parse ("a" ++ "\n" ++ "+ b") none 0 = .ok m ∧ parse ("a" ++ " " ++ "+ b") none 0 = .ok m' ∧
      m.body.length = 1 ∧ m'.unplaced = m.unplaced := by
  have hcut : Lexer.Cuts "a".toList ('\n' :: "+ b".toList) :=
    @Lexer.Cuts.token 'a' [] [] _ .name rfl nofun (by decide) .nil
  have hparses : ((parse ("a" ++ "\n" ++ "+ b") none 0).toOption.filter fun m =>
      m.body.length = 1).isSome ∧ (parse ("a" ++ " " ++ "+ b") none 0).toOption.isSome := by
    decide +kernel
  obtain ⟨m, hm⟩ := Option.isSome_iff_exists.1 hparses.1
  obtain ⟨m', hm'⟩ := Option.isSome_iff_exists.1 hparses.2
  obtain ⟨hm, hlength⟩ := Option.filter_eq_some_iff.1 hm
  have hparse := Except.eq_ok_of_toOption hm
  have hparse' := Except.eq_ok_of_toOption hm'
  exact ⟨m, m', hparse, hparse', of_decide_eq_true hlength,
    (unplaced_eq_iff_not_splits hcut (by decide +kernel) hparse hparse').2 (by decide +kernel)⟩

/-- In front of a parenthesis the statement should go on, but another begins. -/
theorem parse_call_split : ∃ m m',
    parse "a\n(b)" none 0 = .ok m ∧ parse "a (b)" none 0 = .ok m' ∧
      m'.unplaced ≠ m.unplaced := by
  have hparses : ((parse "a\n(b)" none 0).toOption.filter fun m =>
      m.unplaced.body.length = 2).isSome ∧ ((parse "a (b)" none 0).toOption.filter fun m =>
        m.unplaced.body.length = 1).isSome := by
    decide +kernel
  obtain ⟨m, hm⟩ := Option.isSome_iff_exists.1 hparses.1
  obtain ⟨m', hm'⟩ := Option.isSome_iff_exists.1 hparses.2
  obtain ⟨hm, hlength⟩ := Option.filter_eq_some_iff.1 hm
  obtain ⟨hm', hlength'⟩ := Option.filter_eq_some_iff.1 hm'
  refine ⟨m, m', Except.eq_ok_of_toOption hm, Except.eq_ok_of_toOption hm', fun heq => ?_⟩
  have htwo := of_decide_eq_true hlength
  rw [← heq, of_decide_eq_true hlength'] at htwo
  cases htwo

end

end Module

end MessageBinder
