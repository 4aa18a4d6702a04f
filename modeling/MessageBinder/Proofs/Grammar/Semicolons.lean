import MessageBinder.Proofs.Grammar.Joints

/-!
# Semicolons at the ends of lines

A semicolon in front of a newline can be left out: the newline ends the statement as well. But a
newline does not end a statement in front of a token that continues it, and this is told from the
token alone. A statement can start with a sign or with the name `from`, which might continue another
one; `else` behind a brace might follow a block, and a string behind `from` might be a source. In
front of these (`MessageBinder.Rejoins`) the newline is taken for a blank.

So a semicolon whose statement does not go on behind a blank can be left out in front of a newline
if and only if none of these follows (`MessageBinder.Module.exists_parse_iff_not_rejoins`).
-/

namespace MessageBinder

open StatementScan (steps flow)

/-- **The next line is taken for the rest of the statement**: it starts with the name `from` or a
sign, with `else` behind a brace, or with a string behind `from`. Nothing behind `return` is. -/
def Rejoins (before after : List Token) : Prop :=
  (steps {} before).2.last ≠ some .returnWord ∧
    (after.dropWhile (·.kind = .newline)).head?.any fun t =>
      t.kind = .fromWord || t.kind = .plus || t.kind = .minus ||
        (t.kind = .elseWord && (steps {} before).2.last = some .rightBrace) ||
        (t.kind = .string && (steps {} before).2.last = some .fromWord)

instance (before after : List Token) : Decidable (Rejoins before after) :=
  inferInstanceAs (Decidable (_ ∧ _))

namespace StatementScan

variable {s : StatementScan} {t nl n : Token} {ts : List Token}

/-- Of newlines one behind the other only the first counts. -/
theorem flow_newline_dropWhile (hnl : nl.kind = .newline) (s : StatementScan) (ts : List Token) :
    s.flow (nl :: ts) = s.flow (nl :: ts.dropWhile (·.kind = .newline)) := by
  induction ts with
  | nil => rfl
  | cons n ts ih =>
    rw [List.dropWhile_cons]
    split
    · rename_i hn
      rw [flow_newline_newline hnl s (of_decide_eq_true hn) ts, ih]
    · rfl

/-- In front of tokens newlines are nothing where no statement can end. -/
theorem flow_dropWhile_of_not_canEnd (h : s.canEnd = false) (ts : List Token) :
    s.flow ts = s.flow (ts.dropWhile (·.kind = .newline)) := by
  induction ts with
  | nil => rfl
  | cons n ts ih =>
    rw [List.dropWhile_cons]
    split
    · rename_i hn
      rw [flow_newline_of_idle (of_decide_eq_true hn) (.inr (.inl h)), ih]
    · rfl

/-- A semicolon with a newline ends a statement. -/
theorem told_semicolon_newline {semi : Token} (hsemi : semi.kind = .semicolon)
    (hnl : nl.kind = .newline) (hlast : s.lastToken.isSome) (ts : List Token) :
    Told (semi.as .terminator :: s.closed.flow ts)
      (s.flow (semi :: nl :: ts)) := by
  rw [flow_cons, step_of_semicolon hsemi, flow_newline_of_idle hnl (.inr (.inl rfl))]
  refine Told.join (c := [semi.as .terminator]) rfl (Agrees.told ?_ ts)
  refine ⟨rfl, rfl, rfl, Iff.rfl, fun _ _ => rfl, ?_⟩
  obtain ⟨last, hlast⟩ := Option.isSome_iff_exists.1 hlast
  simp only [closed, terminated, hlast]
  rfl

/-- The first token behind a terminator. -/
theorem step_closed (hline : n.kind ≠ .newline) (hsemicolon : n.kind ≠ .semicolon) :
    (s.closed.step n).1 = [s.closed.asBlock n] := by
  have hmember : s.closed.asMember n = n := asMember_eq fun _ => nofun
  have hsettle : s.closed.settleNewline n.kind = ([], s.closed) := rfl
  have hbrace : s.closed.settleBrace n = ([], s.closed) := by
    simp [settleBrace, closed, terminated]
  rw [step_eq_place hline hsemicolon, hmember, hsettle]
  simp only [place, hbrace]
  rfl

end StatementScan

/-! ### What can follow a semicolon -/

namespace Spot

variable {σ σ₁ : Spot} {k : TokenKind}

theorem move_of_next (h : σ.next k = some σ₁) : ∃ m, σ.behind.move k = some m := by
  cases hm : σ.behind.move k with
  | none =>
    unfold Spot.next at h
    rw [hm] at h
    cases h
  | some m => exact ⟨m, rfl⟩

/-- Behind a terminator a statement can begin. -/
theorem behind_of_next_terminator (h : σ.next .terminator = some σ₁) :
    σ₁.behind = .opening ∧ σ.behind ≠ .inside := by
  obtain ⟨o, b, n⟩ := σ
  obtain ⟨m, hm⟩ := move_of_next h
  have hmove : (m = .to .opening ∨ m = .stay ∧ b = .opening) ∧ b ≠ .inside := by
    revert hm
    cases b <;> rintro ⟨⟩ <;> decide
  unfold Spot.next at h
  rw [hm] at h
  rcases hmove with ⟨rfl | ⟨rfl, rfl⟩, hinside⟩
  · obtain rfl := Option.some.inj h
    exact ⟨rfl, hinside⟩
  · obtain rfl := Option.some.inj h
    exact ⟨rfl, hinside⟩

end Spot

/-- What can begin a statement and continue one. -/
theorem Behind.continues_of_move_opening {k : TokenKind} {m : Move}
    (h : Behind.opening.move k = some m) (hk : k.continuesStatement) :
    k = .fromWord ∨ k = .plus ∨ k = .minus := by
  revert h hk
  cases k <;> first | (intro _ _; decide) | nofun

section Semicolon

variable {before after : List Token} {ss : List Stmt}

/-- A newline breaks in front of what begins a statement, unless it is taken for the rest of
another. -/
theorem breaksBefore_of_not_rejoins {n : Token} {ts : List Token}
    (hends : (steps {} before).2.canEnd) (hlevel : (steps {} before).2.atStatementLevel)
    (hafter : after.dropWhile (·.kind = .newline) = n :: ts)
    (hcontinues : n.kind.continuesStatement →
      n.kind = .fromWord ∨ n.kind = .plus ∨ n.kind = .minus) (h : ¬ Rejoins before after) :
    (steps {} before).2.breaksBefore n.kind := by
  unfold Rejoins at h
  rw [hafter] at h
  unfold StatementScan.breaksBefore
  by_cases hreturn : (steps {} before).2.last = some .returnWord
  · simp [hends, hlevel, hreturn]
  simp only [ne_eq, hreturn, not_false_eq_true, List.head?_cons, Option.any_some, Bool.or_eq_true,
    Bool.and_eq_true, decide_eq_true_eq, true_and, not_or, not_and] at h
  obtain ⟨⟨⟨⟨hfrom, hplus⟩, hminus⟩, helse⟩, hstring⟩ := h
  have hno : n.kind.continuesStatement = false := Bool.eq_false_iff.2 fun hk =>
    (hcontinues hk).elim hfrom fun hk => hk.elim hplus hminus
  have hsource : (steps {} before).2.last ≠ some .fromWord ∨ n.kind ≠ .string :=
    Decidable.not_or_of_imp fun hlast hk => hstring hk hlast
  simp only [hends, hlevel, hreturn, hno, Bool.not_true, Bool.or_self, Bool.false_eq_true, if_false]
  by_cases hk : n.kind = .elseWord
  · simp [hk, helse hk]
  · simpa [hk] using hsource

/-- A newline breaks nothing in front of what is taken for the rest of a statement. -/
theorem not_breaksBefore_of_rejoins (h : Rejoins before after) :
    ∃ n ts, after.dropWhile (·.kind = .newline) = n :: ts ∧ n.kind ≠ .newline ∧
      n.kind ≠ .semicolon ∧ (steps {} before).2.breaksBefore n.kind = false := by
  obtain ⟨hreturn, hany⟩ := h
  obtain ⟨n, hn, hk⟩ := (Option.any_eq_true _ _).1 hany
  obtain ⟨ts, hts⟩ := List.head?_eq_some_iff.1 hn
  refine ⟨n, ts, hts, ?_⟩
  simp only [Bool.or_eq_true, Bool.and_eq_true, decide_eq_true_eq] at hk
  unfold StatementScan.breaksBefore
  rw [if_neg hreturn]
  rcases hk with (((hk | hk) | hk) | ⟨hk, hlast⟩) | ⟨hk, hlast⟩
  all_goals
    rw [hk]
    simp [TokenKind.continuesStatement, *]

/-- In front of what is taken for the rest of a statement a newline is nothing. -/
theorem told_of_rejoins {nl : Token} (hnl : nl.kind = .newline)
    (hends : (steps {} before).2.canEnd) (h : Rejoins before after) :
    Told (flow (steps {} before).2 after) (flow (steps {} before).2 (nl :: after)) := by
  obtain ⟨n, ts, hts, hline, hsemicolon, hbreaks⟩ := not_breaksBefore_of_rejoins h
  cases after with
  | nil => cases hts
  | cons first after =>
    by_cases hfirst : first.kind = .newline
    · have hshown : Told (first :: after) (nl :: after) :=
        congrArg (· :: _) (by simp [Token.shown, hnl, hfirst])
      rw [StatementScan.flow_newline_newline hnl _ hfirst]
      exact StatementScan.flow_told _ hshown
    · rw [List.dropWhile_cons_of_neg (by simpa using hfirst)] at hts
      obtain ⟨rfl, rfl⟩ := List.cons.inj hts
      have hmember : (steps {} before).2.asMember first = first :=
        StatementScan.asMember_eq fun _ => StatementScan.ne_of_endsStatement (k := .dot) rfl
          (StatementScan.endsStatement_of_canEnd hends)
      rw [StatementScan.flow_newline_of_not_breaks hnl (by rw [hmember]; exact hbreaks) hline
        hsemicolon]
      exact rfl

/-- At the end of the tokens a terminator stands for the one that is put there. -/
theorem told_finish {t : Token} (ht : t.kind = .terminator) (hends : (steps {} before).2.canEnd)
    (hlevel : (steps {} before).2.atStatementLevel) :
    Told (t :: (steps {} before).2.closed.flow [])
      (flow (steps {} before).2 []) := by
  obtain ⟨last, hlast⟩ := Option.isSome_iff_exists.1 (StatementScan.lastToken_of_canEnd hends)
  simp [Told, flow, steps, StatementScan.finish, StatementScan.closed, StatementScan.terminated,
    hlast, hends, hlevel, Token.shown, Token.as, ht]

/-- In front of a semicolon a terminator stands for the semicolon. -/
theorem told_semicolon {semi t : Token} (hsemi : semi.kind = .semicolon)
    (ht : t.kind = .terminator) (hends : (steps {} before).2.canEnd) (ts : List Token) :
    ∃ rest, (steps {} before).2.closed.flow (semi :: ts)
        = semi.as .terminator :: rest ∧
      Told (t :: rest) (flow (steps {} before).2 (semi :: ts)) := by
  rw [StatementScan.flow_cons, StatementScan.flow_cons, StatementScan.step_of_semicolon hsemi,
    StatementScan.step_of_semicolon hsemi]
  refine ⟨_, rfl, Told.join (c := [t]) ?_ (StatementScan.Agrees.told ?_ ts)⟩
  · exact congrArg (· :: _) (by simp [Token.shown, Token.as, ht])
  · have hne : (steps {} before).2.last ≠ some .functionWord :=
      StatementScan.ne_of_endsStatement rfl (StatementScan.endsStatement_of_canEnd hends)
    exact ⟨rfl, rfl, rfl, by simp [StatementScan.closed, StatementScan.terminated, hne],
      fun _ _ => rfl, rfl⟩

/-- **With a semicolon in front of a newline and without tokens tell the same**, if it ends a
statement and tokens tell something else with neither, unless the next line is taken for the rest of
the statement. -/
theorem tells_iff_not_rejoins [CharacterNames] {semi nl : Token} (hsemi : semi.kind = .semicolon)
    (hnl : nl.kind = .newline) (hends : (steps {} before).2.canEnd)
    (h : Tells (flow {} (before ++ semi :: nl :: after)) ss)
    (hno : ¬ Tells (flow {} (before ++ after)) ss) :
    Tells (flow {} (before ++ nl :: after)) ss ↔ ¬ Rejoins before after := by
  rw [StatementScan.flow_append] at h hno ⊢
  refine ⟨fun hnewline hrejoins => hno (hnewline.told
    (Told.join rfl (told_of_rejoins hnl hends hrejoins)).symm), fun hrejoins => ?_⟩
  have htold := StatementScan.told_semicolon_newline hsemi hnl
    (StatementScan.lastToken_of_canEnd hends) after
  replace h := h.told (Told.join rfl htold).symm
  rw [StatementScan.flow_dropWhile_of_not_canEnd rfl] at h
  rw [StatementScan.flow_newline_dropWhile hnl]
  have hwalk := h.walk
  rw [Spot.walk_append] at hwalk
  obtain ⟨σ, hbefore, hwalk⟩ := Option.bind_eq_some_iff.1 hwalk
  obtain ⟨σ₁, hnext, hwalk⟩ := Option.bind_eq_some_iff.1 hwalk
  obtain ⟨hσ₁, hinside⟩ := Spot.behind_of_next_terminator hnext
  have htracks := (Tracks.start {} rfl).steps hbefore
  have hlevel : (steps {} before).2.atStatementLevel := htracks.atStatementLevel hinside
  have hlast := StatementScan.endsStatement_of_canEnd hends
  cases hafter : after.dropWhile (·.kind = .newline) with
  | nil =>
    rw [hafter] at h
    rw [StatementScan.flow_newline_nil hnl]
    exact h.told (Told.join rfl (told_finish rfl hends hlevel))
  | cons n ts =>
    rw [hafter] at h hwalk
    have hline : n.kind ≠ .newline := by
      have hhead := List.head?_dropWhile_not (fun t : Token => decide (t.kind = .newline)) after
      rw [hafter] at hhead
      simpa using hhead
    by_cases hsemicolon : n.kind = .semicolon
    · -- of two semicolons one is enough
      obtain ⟨rest, hrest, htold⟩ :=
        told_semicolon (t := semi.as .terminator) hsemicolon rfl hends ts
      rw [hrest, List.append_cons] at h
      have hwalk₁ : Spot.walk ⟨[], .opening, 0⟩ ((steps {} before).1 ++ [semi.as .terminator])
          = some σ₁ := by
        rw [Spot.walk_append, hbefore, Option.bind_some, Spot.walk, hnext]
        rfl
      have hspare := h.spare hwalk₁ hσ₁ rfl
      rw [StatementScan.flow_newline_semicolon hnl _ hsemicolon]
      rw [List.append_assoc] at hspare
      exact hspare.told (Told.join rfl htold)
    · -- the newline is the terminator
      rw [StatementScan.flow_cons, StatementScan.step_closed hline hsemicolon] at hwalk
      obtain ⟨σ₂, hnext', -⟩ := Option.bind_eq_some_iff.1 hwalk
      obtain ⟨m, hm⟩ := Spot.move_of_next hnext'
      rw [hσ₁] at hm
      have hbreaks := breaksBefore_of_not_rejoins hends hlevel hafter (fun hk => by
        rcases StatementScan.kind_asBlock (steps {} before).2.closed n with hn | ⟨-, hn⟩
        · rw [hn] at hm
          exact Behind.continues_of_move_opening hm hk
        · rw [hn] at hk
          cases hk) hrejoins
      obtain ⟨t, ht, hflow⟩ :=
        StatementScan.flow_newline_of_breaks hnl hbreaks hlast hline hsemicolon ts
      have hfirst : Told [semi.as .terminator] [t] :=
        congrArg (· :: _) (by simp [Token.shown, Token.as, ht])
      rw [hflow]
      exact h.told (Told.join rfl (hfirst.join rfl))

end Semicolon

namespace Module

/-- **A semicolon in front of a newline can be left out**, places aside, if a statement can end in
front of it and does not go on behind a blank, unless the next line is taken for the rest of the
statement. -/
theorem exists_parse_iff_not_rejoins [CharacterNames] {before after : String}
    {filename : Option String} {base : Nat} {m : Module}
    (hcut : Lexer.Cuts before.toList (';' :: '\n' :: after.toList))
    (hends : (steps {} (Tokens.ofText before base).tokens).2.canEnd)
    (h : parse (before ++ ";\n" ++ after) filename base = .ok m)
    (hno : ∀ m', parse (before ++ " " ++ after) filename base ≠ .ok m') :
    (∃ m', parse (before ++ "\n" ++ after) filename base = .ok m' ∧ m'.unplaced = m.unplaced) ↔
      ¬ Rejoins (Tokens.ofText before base).tokens (Tokens.ofText after base).tokens := by
  have hrest : Lexer.Parted (';' :: '\n' :: after.toList) := joins_semicolon_newline.parted _
  obtain ⟨hstop, htells⟩ := (exists_parse_iff hcut hrest joins_semicolon_newline).1 ⟨m, h, rfl⟩
  have hnothing : ¬ Tells (flow {} ((Tokens.ofText before base).tokens
      ++ (Tokens.ofText after base).tokens)) (Stmt.unplacedList m.body) := fun htells => by
    obtain ⟨m', h', -⟩ : ∃ m', parse (before ++ " " ++ after) filename base = .ok m' ∧ _ :=
      (exists_parse_iff hcut hrest joins_blank).2 ⟨hstop, htells⟩
    exact hno m' h'
  have htokens : Tells (flow {} ((Tokens.ofText before base).tokens
      ++ newlineToken :: (Tokens.ofText after base).tokens)) (Stmt.unplacedList m.body) ↔ _ :=
    tells_iff_not_rejoins rfl rfl hends htells hnothing
  have hjoint : (∃ m', parse (before ++ "\n" ++ after) filename base = .ok m' ∧
      Stmt.unplacedList m'.body = Stmt.unplacedList m.body) ↔ _ :=
    exists_parse_iff hcut hrest joins_newline
  rw [← htokens]
  refine Iff.trans (exists_congr fun m' => and_congr_right fun h' => unplaced_eq_iff h h') ?_
  exact hjoint.trans (and_iff_right hstop)

section

attribute [local instance] CharacterNames.nameless

/-- Between two names a newline does for a semicolon. -/
theorem exists_parse_iff_not_rejoins_names : ∃ m, parse ("a" ++ ";\n" ++ "b") none 0 = .ok m ∧
    ∃ m', parse ("a" ++ "\n" ++ "b") none 0 = .ok m' ∧ m'.unplaced = m.unplaced := by
  have hcut : Lexer.Cuts "a".toList (';' :: '\n' :: "b".toList) :=
    @Lexer.Cuts.token 'a' [] [] _ .name rfl nofun (by decide) .nil
  have hparses : (parse ("a" ++ ";\n" ++ "b") none 0).toOption.isSome ∧
      (parse ("a" ++ " " ++ "b") none 0).toOption = none := by
    decide +kernel
  obtain ⟨m, hm⟩ := Option.isSome_iff_exists.1 hparses.1
  have hparse := Except.eq_ok_of_toOption hm
  have hno : ∀ m', parse ("a" ++ " " ++ "b") none 0 ≠ .ok m' := fun m' h' => by
    have hnone := hparses.2
    rw [h'] at hnone
    cases hnone
  exact ⟨m, hparse, (exists_parse_iff_not_rejoins hcut (by decide +kernel) hparse hno).2
    (by decide +kernel)⟩

/-- In front of a call of the function `from` the newline alone does not end the statement. -/
theorem parse_from_rejoined : ∃ m, parse "a;\nfrom()" none 0 = .ok m ∧
    (∀ m', parse "a from()" none 0 ≠ .ok m') ∧ ∀ m', parse "a\nfrom()" none 0 ≠ .ok m' := by
  have hparses : (parse "a;\nfrom()" none 0).toOption.isSome ∧
      (parse "a from()" none 0).toOption = none ∧ (parse "a\nfrom()" none 0).toOption = none := by
    decide +kernel
  obtain ⟨m, hm⟩ := Option.isSome_iff_exists.1 hparses.1
  have hrejected : ∀ {text : String}, (parse text none 0).toOption = none →
      ∀ m', parse text none 0 ≠ .ok m' := fun hnone m' h' => by
    rw [h'] at hnone
    cases hnone
  exact ⟨m, Except.eq_ok_of_toOption hm, hrejected hparses.2.1, hrejected hparses.2.2⟩

end

end Module

end MessageBinder
