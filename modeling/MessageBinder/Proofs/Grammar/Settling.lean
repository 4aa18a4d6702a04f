import MessageBinder.Proofs.Grammar.Keeping
import MessageBinder.Proofs.Token.Lockstep
import MessageBinder.Proofs.Token.Reading

/-!
# Settling along the course

Settling the ends of the statements looks at a stack of brackets and at two kinds of tokens; the
course of a text knows what these stand for. The two go together (`MessageBinder.Tracks`): as long
as the tokens that are emitted keep to the course, the open brackets are the same, and where the
state says that a statement can end, the course says which one.
-/

namespace MessageBinder

namespace StatementScan

/-- The state behind a token that has been emitted. -/
def emit (s : StatementScan) (k : TokenKind) : StatementScan :=
  if k = .terminator then s.terminated else s.shift k

/-- The state behind tokens that have been emitted. -/
def emits (s : StatementScan) (out : List Token) : StatementScan :=
  out.foldl (fun s t => s.emit t.kind) s

/-- The states differ in nothing but what has been read of the text. -/
def Alike (s s' : StatementScan) : Prop :=
  s'.stack = s.stack ∧ s'.canEnd = s.canEnd ∧ s'.last = s.last ∧ s'.previous = s.previous

variable {s s' : StatementScan} {t : Token} {k : TokenKind}

theorem Alike.refl (s : StatementScan) : s.Alike s := ⟨rfl, rfl, rfl, rfl⟩

theorem Alike.trans {s'' : StatementScan} (h : s.Alike s') (h' : s'.Alike s'') : s.Alike s'' :=
  ⟨h'.1.trans h.1, h'.2.1.trans h.2.1, h'.2.2.1.trans h.2.2.1, h'.2.2.2.trans h.2.2.2⟩

theorem Alike.opensHead (h : s.Alike s') : s'.opensHead = s.opensHead := by
  unfold StatementScan.opensHead
  rw [h.2.2.1, h.2.2.2]

theorem Alike.emit (h : s.Alike s') (k : TokenKind) : (s.emit k).Alike (s'.emit k) := by
  have hopened : s'.opened k = s.opened k := by
    cases k <;> simp only [StatementScan.opened, h.opensHead]
  unfold StatementScan.emit
  split
  · exact ⟨h.1, rfl, rfl, h.2.2.1⟩
  · refine ⟨?_, ?_, rfl, h.2.2.1⟩
    · simp only [StatementScan.shift, hopened, h.1]
    · simp only [StatementScan.shift, h.1]

theorem Alike.emits (h : s.Alike s') (out : List Token) : (s.emits out).Alike (s'.emits out) := by
  induction out generalizing s s' with
  | nil => exact h
  | cons t out ih => exact ih (h.emit t.kind)

theorem emits_append (s : StatementScan) (out out' : List Token) :
    s.emits (out ++ out') = (s.emits out).emits out' := List.foldl_append

/-- A token that is emitted as it is, whatever its kind. -/
theorem alike_shift (s : StatementScan) (k : TokenKind) : (s.emit k).Alike (s.shift k) := by
  unfold emit
  split
  · rename_i hk
    rw [hk]
    exact .refl _
  · exact .refl _

theorem alike_settleNewline (s : StatementScan) (k : TokenKind) :
    (s.emits (s.settleNewline k).1).Alike (s.settleNewline k).2 := by
  rw [settleNewline_eq]
  split <;> exact ⟨rfl, rfl, rfl, rfl⟩

theorem alike_settleBrace (s : StatementScan) (t : Token) :
    (s.emits (s.settleBrace t).1).Alike (s.settleBrace t).2 := by
  unfold settleBrace
  split <;> exact ⟨rfl, rfl, rfl, rfl⟩

/-- **What has been emitted tells the state.** -/
theorem alike_step (s : StatementScan) (t : Token) : (s.emits (s.step t).1).Alike (s.step t).2 := by
  unfold step
  split
  · exact ⟨rfl, rfl, rfl, rfl⟩
  · exact ⟨rfl, rfl, rfl, rfl⟩
  · rw [emits_append, emits_append]
    have hline := alike_settleNewline s (s.asMember t).kind
    have hbrace := (hline.emits ((s.settleNewline (s.asMember t).kind).2.settleBrace
      (s.asMember t)).1).trans (alike_settleBrace _ _)
    exact (hbrace.emit _).trans (alike_shift _ _)

/-- **What has been emitted tells the state.** -/
theorem alike_steps (s : StatementScan) (ts : List Token) :
    (s.emits (s.steps ts).1).Alike (s.steps ts).2 := by
  induction ts generalizing s with
  | nil => exact .refl _
  | cons t ts ih =>
    rw [steps_cons, emits_append]
    exact ((alike_step s t).emits _).trans (ih _)

end StatementScan

/-! ### What the moves of the course come from -/

namespace Behind

variable {b b' : Behind} {k : TokenKind} {e : Enclosure}

/-- A token that is behind the next one opens and closes no bracket, and it is told by where it
leads whether it is `function`, `if`, the name of a function or `return`. -/
theorem move_to (h : b.move k = some (.to b')) :
    k.isNeutral ∧ b ≠ .inside ∧ b' ≠ .inside ∧ (k = .functionWord ↔ b' = .naming) ∧
      (k = .ifWord ∨ (k.isBindingName ∧ b = .naming) ↔ b' = .condition ∨ b' = .named) ∧
      (b' = .returning → k = .returnWord) ∧ (b' = .branch → k.endsStatement = false) ∧
      (b' = .opening → k.endsStatement = false) := by
  revert h
  cases b <;> cases k <;> rintro ⟨⟩ <;> decide

/-- A token that changes nothing is none of those. -/
theorem move_stay (h : b.move k = some .stay) :
    k.isNeutral ∧ k ≠ .functionWord ∧ k ≠ .ifWord ∧
      (b = .opening ∧ k.endsStatement = false ∨ b = .clause ∨ b = .inside) := by
  revert h
  cases b <;> cases k <;> rintro ⟨⟩ <;> decide

theorem move_enter (h : b.move k = some (.enter e)) :
    (k = .leftParen ∧ (e.bracket = .head ↔ b = .condition ∨ b = .named) ∧
        (e.bracket = .head ∨ e.bracket = .paren)) ∨
      (k = .leftBracket ∧ e.bracket = .square) ∨ (k = .leftBrace ∧ e.bracket = .brace) ∨
      (k = .blockBrace ∧ e.bracket = .block) := by
  revert h
  cases b <;> cases k <;> rintro ⟨⟩ <;> decide

theorem move_leave (h : b.move k = some .leave) :
    k.closesBracket ∧ (b = .opening ∧ k = .rightBrace ∨ b = .inside) := by
  revert h
  cases b <;> cases k <;> rintro ⟨⟩ <;> decide

end Behind

/-! ### The state and the spot -/

/-- **The state of the brackets goes with the course.** -/
structure Tracks (s : StatementScan) (σ : Spot) : Prop where
  stack : s.stack = σ.opened.map Enclosure.bracket
  inside : isInside σ.opened ↔ σ.behind = .inside
  naming : s.last = some .functionWord ↔ σ.behind = .naming
  head : s.opensHead ↔ σ.behind = .condition ∨ σ.behind = .named
  returning : σ.behind = .returning → s.last = some .returnWord
  /-- What a branch follows can end no statement. -/
  branch : σ.behind = .branch → s.canEnd = false
  /-- Where a statement can begin, one can end only behind the brace of a block. -/
  opening : σ.behind = .opening → s.canEnd → s.last = some .rightBrace

namespace StatementScan

variable {s : StatementScan} {k : TokenKind}

@[simp] theorem last_emit (s : StatementScan) (k : TokenKind) : (s.emit k).last = some k := by
  unfold emit
  split
  · rename_i hk
    rw [hk]
    rfl
  · rfl

@[simp] theorem previous_emit (s : StatementScan) (k : TokenKind) :
    (s.emit k).previous = s.last := by
  unfold emit
  split <;> rfl

theorem opensHead_emit (s : StatementScan) (k : TokenKind) :
    (s.emit k).opensHead ↔ k = .ifWord ∨ (k.isBindingName ∧ s.last = some .functionWord) := by
  simp [opensHead]

theorem canEnd_emit_of_not (h : k.endsStatement = false) : (s.emit k).canEnd = false := by
  unfold emit
  split
  · rfl
  · simp [shift, h]

theorem stack_emit_of_isNeutral (h : k.isNeutral) : (s.emit k).stack = s.stack := by
  unfold emit
  split
  · rfl
  · cases k <;> first | rfl | cases h

theorem stack_emit_of_closesBracket (h : k.closesBracket) : (s.emit k).stack = s.stack.tail := by
  cases k <;> first | rfl | cases h

end StatementScan

namespace Tracks

variable {s s' : StatementScan} {σ σ' : Spot} {k : TokenKind}

theorem start (s : StatementScan) (h : s = {}) : Tracks s ⟨[], .opening, 0⟩ := by
  subst h
  exact ⟨rfl, by decide, by decide, by decide, nofun, nofun, fun _ h => by cases h⟩

/-- Where no bracket is around but those of blocks a statement can end. -/
theorem atStatementLevel (h : Tracks s σ) (hσ : σ.behind ≠ .inside) : s.atStatementLevel := by
  have hinside : isInside σ.opened = false := by
    rw [Bool.eq_false_iff, Ne, h.inside]
    exact hσ
  unfold StatementScan.atStatementLevel
  rw [h.stack]
  cases hopened : σ.opened with
  | nil => rfl
  | cons e o =>
    rw [hopened, isInside_cons] at hinside
    have hblock : e.bracket = .block := by simpa [Enclosure.isBlock] using hinside
    rw [List.map_cons, List.head?_cons, hblock]

theorem of_alike (h : Tracks s σ) (hs : s.Alike s') : Tracks s' σ where
  stack := hs.1.trans h.stack
  inside := h.inside
  naming := by rw [hs.2.2.1]; exact h.naming
  head := by rw [hs.opensHead]; exact h.head
  returning hb := hs.2.2.1.trans (h.returning hb)
  branch hb := hs.2.1.trans (h.branch hb)
  opening hb hends := hs.2.2.1.trans (h.opening hb (hs.2.1 ▸ hends))

/-- What is behind a bracket that has been closed. -/
theorem resume_cases (e : Enclosure) : e.resume ≠ .naming ∧ e.resume ≠ .condition ∧
    e.resume ≠ .named ∧ e.resume ≠ .returning ∧ e.resume ≠ .inside ∧
    (e.resume = .opening → e.isBlock) ∧ (e.resume = .branch → e.bracket = .head) := by
  cases e <;> decide

/-- What is behind a bracket is what would be, unless another bracket makes it the inside. -/
theorem of_within {o : List Enclosure} {b b' : Behind} (hb' : b' ≠ .inside)
    (h : (if isInside o then Behind.inside else b) = b') : b = b' := by
  split at h
  · exact absurd h.symm hb'
  · exact h

theorem emit_stay (h : Tracks s σ) (hm : σ.behind.move k = some .stay)
    (hopened : σ'.opened = σ.opened) (hbehind : σ'.behind = σ.behind) :
    Tracks (s.emit k) σ' := by
  obtain ⟨hneutral, hfunction, hif, hb⟩ := Behind.move_stay hm
  have hhere : σ.behind ≠ .naming ∧ σ.behind ≠ .condition ∧ σ.behind ≠ .named ∧
      σ.behind ≠ .returning ∧ σ.behind ≠ .branch := by
    rcases hb with ⟨hb, -⟩ | hb | hb <;> rw [hb] <;> decide
  rw [← hbehind] at hhere
  refine ⟨?_, by rw [hopened, hbehind]; exact h.inside, ?_, ?_, ?_, ?_, ?_⟩
  · rw [StatementScan.stack_emit_of_isNeutral hneutral, h.stack, hopened]
  · simpa [hhere.1] using hfunction
  · rw [StatementScan.opensHead_emit, h.naming, ← hbehind]
    simp [hif, hhere.1, hhere.2.1, hhere.2.2.1]
  · exact fun hret => absurd hret hhere.2.2.2.1
  · exact fun hbranch => absurd hbranch hhere.2.2.2.2
  · intro hopening hends
    rw [hbehind] at hopening
    rcases hb with ⟨-, hk⟩ | hb | hb
    · rw [StatementScan.canEnd_emit_of_not hk] at hends
      cases hends
    · rw [hb] at hopening
      cases hopening
    · rw [hb] at hopening
      cases hopening

theorem emit_to (h : Tracks s σ) (hm : σ.behind.move k = some (.to σ'.behind))
    (hopened : σ'.opened = σ.opened) : Tracks (s.emit k) σ' := by
  obtain ⟨hneutral, hb, hb', hfunction, hhead, hret, hbranch, hopening⟩ := Behind.move_to hm
  refine ⟨?_, ?_, ?_, ?_, ?_, ?_, ?_⟩
  · rw [StatementScan.stack_emit_of_isNeutral hneutral, h.stack, hopened]
  · have hinside := h.inside
    simpa [hopened, hb, hb'] using hinside
  · simpa using hfunction
  · rw [StatementScan.opensHead_emit, h.naming]
    exact hhead
  · intro hreturning
    rw [StatementScan.last_emit, hret hreturning]
  · exact fun h => StatementScan.canEnd_emit_of_not (hbranch h)
  · intro h hends
    rw [StatementScan.canEnd_emit_of_not (hopening h)] at hends
    cases hends

theorem emit_enter {e : Enclosure} (h : Tracks s σ) (hm : σ.behind.move k = some (.enter e))
    (hopened : σ'.opened = e :: σ.opened)
    (hbehind : σ'.behind = if isInside σ'.opened then .inside else .opening) :
    Tracks (s.emit k) σ' := by
  have hk := Behind.move_enter hm
  have hword : k.endsStatement = false ∧ k ≠ .functionWord ∧ k ≠ .ifWord ∧
      k.isBindingName = false := by
    rcases hk with ⟨rfl, -⟩ | ⟨rfl, -⟩ | ⟨rfl, -⟩ | ⟨rfl, -⟩ <;> decide
  have hne : ∀ b, b ≠ .opening → b ≠ .inside → σ'.behind ≠ b := by
    intro b hopening hinside hb
    exact hopening (of_within hinside (hbehind.symm.trans hb)).symm
  refine ⟨?_, ?_, ?_, ?_, ?_, ?_, ?_⟩
  · rw [hopened, List.map_cons, ← h.stack]
    -- only a parenthesis is told apart by what is in front of it
    rcases hk with ⟨rfl, hhead, hbracket⟩ | ⟨rfl, he⟩ | ⟨rfl, he⟩ | ⟨rfl, he⟩
    · show (if s.opensHead then Bracket.head else .paren) :: s.stack = _
      rw [← h.head] at hhead
      split
      · rename_i hopens
        rw [hhead.2 hopens]
      · rename_i hopens
        rw [hbracket.resolve_left fun h => hopens (hhead.1 h)]
    all_goals
      rw [he]
      rfl
  · rw [hbehind]
    cases isInside σ'.opened <;> simp
  · simpa [hword.2.1] using hne .naming (by decide) (by decide)
  · rw [StatementScan.opensHead_emit]
    simp [hword.2.2.1, hword.2.2.2, hne .condition (by decide) (by decide),
      hne .named (by decide) (by decide)]
  · exact fun h => absurd h (hne .returning (by decide) (by decide))
  · exact fun h => absurd h (hne .branch (by decide) (by decide))
  · intro _ hends
    rw [StatementScan.canEnd_emit_of_not hword.1] at hends
    cases hends

theorem emit_leave {e : Enclosure} (h : Tracks s σ) (hm : σ.behind.move k = some .leave)
    (hopened : σ.opened = e :: σ'.opened)
    (hbehind : σ'.behind = if isInside σ'.opened then .inside else e.resume) :
    Tracks (s.emit k) σ' := by
  obtain ⟨hcloses, hb⟩ := Behind.move_leave hm
  have hk : k ≠ .functionWord ∧ k ≠ .ifWord ∧ k.isBindingName = false ∧ k ≠ .terminator := by
    revert hcloses
    cases k <;> decide
  obtain ⟨hnaming, hcondition, hnamed, hret, hinside, hopening, hbranch⟩ := resume_cases e
  have hof : ∀ b, b ≠ .inside → σ'.behind = b → e.resume = b := fun b hb h =>
    of_within hb (hbehind.symm.trans h)
  have hstack : s.stack = e.bracket :: σ'.opened.map Enclosure.bracket := by
    rw [h.stack, hopened, List.map_cons]
  refine ⟨?_, ?_, ?_, ?_, ?_, ?_, ?_⟩
  · rw [StatementScan.stack_emit_of_closesBracket hcloses, hstack, List.tail_cons]
  · rw [hbehind]
    cases isInside σ'.opened <;> simp [hinside]
  · have hne : σ'.behind ≠ .naming := fun h => hnaming (hof _ (by decide) h)
    simpa [hne] using hk.1
  · have hne : σ'.behind ≠ .condition ∧ σ'.behind ≠ .named :=
      ⟨fun h => hcondition (hof _ (by decide) h), fun h => hnamed (hof _ (by decide) h)⟩
    rw [StatementScan.opensHead_emit]
    simp [hk.2.1, hk.2.2.1, hne]
  · exact fun h => absurd (hof _ (by decide) h) hret
  · -- a head that is closed can end no statement
    intro h'
    have hhead := hbranch (hof _ (by decide) h')
    unfold StatementScan.emit
    rw [if_neg hk.2.2.2]
    simp [StatementScan.shift, hcloses, hstack, hhead]
  · intro h' _
    have hblock := hopening (hof _ (by decide) h')
    rcases hb with ⟨-, rfl⟩ | hb
    · exact StatementScan.last_emit _ _
    · have hwithin : isInside σ.opened := h.inside.2 hb
      rw [hopened, isInside_cons, hblock] at hwithin
      cases hwithin

/-- **A token that keeps to the course.** -/
theorem emit (h : Tracks s σ) (hnext : σ.next k = some σ') : Tracks (s.emit k) σ' := by
  obtain ⟨o, b, n⟩ := σ
  unfold Spot.next at hnext
  dsimp only at hnext
  split at hnext
  · rename_i hm
    obtain rfl := Option.some.inj hnext
    exact h.emit_stay hm rfl rfl
  · rename_i hm
    obtain rfl := Option.some.inj hnext
    exact h.emit_to hm rfl
  · rename_i hm
    obtain rfl := Option.some.inj hnext
    exact h.emit_enter hm rfl rfl
  · rename_i hm
    obtain rfl := Option.some.inj hnext
    exact h.emit_leave hm rfl rfl
  · cases hnext
  · cases hnext

/-- Tokens that keep to the course. -/
theorem emits {out : List Token} (h : Tracks s σ) (hwalk : σ.walk out = some σ') :
    Tracks (s.emits out) σ' := by
  induction out generalizing s σ with
  | nil =>
    obtain rfl := Option.some.inj hwalk
    exact h
  | cons t out ih =>
    obtain ⟨σ₁, ht, hrest⟩ := Option.bind_eq_some_iff.1 hwalk
    exact ih (h.emit ht) hrest

/-- **Tokens whose settled ends keep to the course.** -/
theorem steps {ts : List Token} (h : Tracks s σ) (hwalk : σ.walk (s.steps ts).1 = some σ') :
    Tracks (s.steps ts).2 σ' :=
  (h.emits hwalk).of_alike (StatementScan.alike_steps s ts)

end Tracks

/-! ### Behind the brace of a block -/

/-- Whether raw tokens end with the brace that closes a block. -/
def endsBlock (ts : List Token) : Bool :=
  ts.getLast?.any (·.kind = .rightBrace) &&
    (StatementScan.steps {} ts.dropLast).2.stack.head? = some .block

/-- A closing brace closes a bracket. -/
theorem Spot.next_rightBrace {σ σ' : Spot} (h : σ.next .rightBrace = some σ') :
    ∃ e, σ.opened = e :: σ'.opened ∧
      σ'.behind = if isInside σ'.opened then .inside else e.resume := by
  obtain ⟨o, b, n⟩ := σ
  have hmove : b.move .rightBrace = some .leave ∨ b.move .rightBrace = none := by
    cases b <;> decide
  unfold Spot.next at h
  dsimp only at h
  rcases hmove with hm | hm
  · rw [hm] at h
    cases o with
    | nil => cases h
    | cons e o =>
      obtain rfl := Option.some.inj h
      exact ⟨e, rfl, rfl⟩
  · rw [hm] at h
    cases h

theorem StatementScan.emits_terminators {s : StatementScan} {out : List Token}
    (h : AreTerminators out) : (s.emits out).stack = s.stack := by
  induction out generalizing s with
  | nil => rfl
  | cons t out ih =>
    have ht : t.kind = .terminator := h t (List.mem_cons_self ..)
    have hstack := ih (s := s.emit t.kind) fun t' ht' => h t' (List.mem_cons_of_mem _ ht')
    exact hstack.trans (stack_emit_of_isNeutral (by rw [ht]; rfl))

/-- A token that ends no line and no statement is emitted behind terminators. -/
theorem StatementScan.exists_step_eq (s : StatementScan) {t : Token} (hline : t.kind ≠ .newline)
    (hsemicolon : t.kind ≠ .semicolon) : ∃ out t', AreTerminators out ∧
      (s.step t).1 = out ++ [t'] ∧ (t'.kind = .rightBrace ↔ t.kind = .rightBrace) ∧
      (s.step t).2.last = some t'.kind := by
  unfold step
  split
  · contradiction
  · contradiction
  · refine ⟨_, _, ?_, rfl, ?_, rfl⟩
    · intro x hx
      rcases List.mem_append.1 hx with hx | hx
      · rw [settleNewline_eq] at hx
        split at hx
        · obtain rfl := List.mem_singleton.1 hx
          rfl
        · cases hx
      · unfold settleBrace at hx
        split at hx
        · obtain rfl := List.mem_singleton.1 hx
          rfl
        · cases hx
    · have hmember : ((s.asMember t).kind = .rightBrace ↔ t.kind = .rightBrace) := by
        unfold asMember
        split
        · rename_i hword
          have hne : t.kind ≠ .rightBrace := by
            intro hk
            rw [hk] at hword
            exact absurd hword (by simp [TokenKind.isWord, TokenKind.words])
          simp [Token.as, hne]
        · rfl
      rw [← hmember]
      unfold asBlock
      split
      · rename_i hbrace
        simp only [Bool.and_eq_true, decide_eq_true_eq] at hbrace
        simp [Token.as, hbrace.1]
      · rfl

section EndsBlock

variable {ts : List Token} {σ : Spot}

/-- The brackets at a closing brace that was read last. -/
theorem exists_enclosure (h : ts.getLast?.any (·.kind = .rightBrace))
    (hwalk : Spot.walk ⟨[], .opening, 0⟩ (StatementScan.steps {} ts).1 = some σ) :
    ∃ e : Enclosure, (endsBlock ts ↔ e.isBlock) ∧
      σ.behind = if isInside σ.opened then .inside else e.resume := by
  obtain ⟨t, ht, hk⟩ := (Option.any_eq_true _ _).1 h
  have hbrace : t.kind = .rightBrace := of_decide_eq_true hk
  obtain ⟨pre, rfl⟩ := List.getLast?_eq_some_iff.1 ht
  rw [StatementScan.steps_append, Spot.walk_append] at hwalk
  obtain ⟨σ₁, hpre, hwalk⟩ := Option.bind_eq_some_iff.1 hwalk
  have htracks := (Tracks.start {} rfl).steps hpre
  obtain ⟨out, t', hout, hstep, hkind, -⟩ := (StatementScan.steps {} pre).2.exists_step_eq
    (t := t) (by rw [hbrace]; nofun) (by rw [hbrace]; nofun)
  rw [StatementScan.steps_cons, hstep, StatementScan.steps, List.append_nil,
    Spot.walk_append] at hwalk
  obtain ⟨σ₂, hout', hwalk⟩ := Option.bind_eq_some_iff.1 hwalk
  have htracks' := htracks.emits hout'
  rw [Spot.walk, hkind.2 hbrace] at hwalk
  obtain ⟨σ₃, hnext, hwalk⟩ := Option.bind_eq_some_iff.1 hwalk
  obtain rfl := Option.some.inj hwalk
  obtain ⟨e, hopened, hbehind⟩ := Spot.next_rightBrace hnext
  refine ⟨e, ?_, hbehind⟩
  have hstack := htracks'.stack
  rw [StatementScan.emits_terminators hout, hopened] at hstack
  simp [endsBlock, hbrace, hstack, Enclosure.isBlock]

/-- Where a statement can begin and one can end, a block has been closed. -/
theorem endsBlock_of_opening
    (hwalk : Spot.walk ⟨[], .opening, 0⟩ (StatementScan.steps {} ts).1 = some σ)
    (hends : (StatementScan.steps {} ts).2.canEnd)
    (hnewline : (StatementScan.steps {} ts).2.newline = none) (hσ : σ.behind = .opening) :
    endsBlock ts := by
  have hlast := ((Tracks.start {} rfl).steps hwalk).opening hσ hends
  have hbrace : ts.getLast?.any (·.kind = .rightBrace) := by
    rcases List.eq_nil_or_concat ts with rfl | ⟨pre, t, rfl⟩
    · cases hends
    · rw [List.concat_eq_append] at *
      rw [StatementScan.steps_append, StatementScan.steps_cons] at hends hnewline hlast
      simp only [StatementScan.steps] at hends hnewline hlast
      have hline : t.kind ≠ .newline := by
        intro hk
        rw [StatementScan.step_of_newline hk] at hnewline
        simp at hnewline
      have hsemicolon : t.kind ≠ .semicolon := by
        intro hk
        rw [StatementScan.step_of_semicolon hk] at hends
        cases hends
      obtain ⟨-, t', -, -, hkind, hlast'⟩ :=
        (StatementScan.steps {} pre).2.exists_step_eq hline hsemicolon
      rw [hlast'] at hlast
      simp [hkind.1 (Option.some.inj hlast)]
  obtain ⟨e, hblock, hbehind⟩ := exists_enclosure hbrace hwalk
  exact hblock.2 ((Tracks.resume_cases e).2.2.2.2.2.1
    (Tracks.of_within (by decide) (hbehind.symm.trans hσ)))

/-- A block that has been closed is no operand. -/
theorem behind_ne_operand_of_endsBlock (h : endsBlock ts)
    (hwalk : Spot.walk ⟨[], .opening, 0⟩ (StatementScan.steps {} ts).1 = some σ) :
    σ.behind ≠ .operand := by
  intro hσ
  obtain ⟨e, hblock, hbehind⟩ := exists_enclosure (by
    unfold endsBlock at h
    exact (Bool.and_eq_true_iff.1 h).1) hwalk
  have hresume := Tracks.of_within (by decide) (hbehind.symm.trans hσ)
  have he := hblock.1 h
  revert hresume he
  cases e <;> decide

end EndsBlock

end MessageBinder
