import MessageBinder.Proofs.Token.Lexeme

/-!
# Settled tokens

What is known of the tokens of a text once the ends of its statements are settled
(`MessageBinder.Tokens.settled_ofText`). Each is written as its kind says; a word of the language
counts as a name behind a dot only; and a brace that opens an object stands nowhere where a block
could.
-/

namespace MessageBinder

/-- The kind of the last token, or the kind before them if there is none. -/
def lastKind (previous : Option TokenKind) (ts : List Token) : Option TokenKind :=
  ts.foldl (fun _ t => some t.kind) previous

@[simp] theorem lastKind_nil (previous : Option TokenKind) : lastKind previous [] = previous := rfl

@[simp] theorem lastKind_cons (previous : Option TokenKind) (t : Token) (ts : List Token) :
    lastKind previous (t :: ts) = lastKind (some t.kind) ts := rfl

@[simp] theorem lastKind_append (previous : Option TokenKind) (ts ts' : List Token) :
    lastKind previous (ts ++ ts') = lastKind (lastKind previous ts) ts' :=
  List.foldl_append

/-- Whether a token can be what it is behind one of the given kind. -/
def Token.Fits (previous : Option TokenKind) (t : Token) : Prop :=
  match t.kind with
  | .name => IsName t.text.toList ∧
      (TokenKind.ofWord t.text = .name ∨ previous = some .dot)
  | .leftBrace => previous.all TokenKind.precedesBlock = false
  | k => k.Writes t.text.toList

/-- **Tokens are settled** behind a token of the given kind: each fits the one before it. -/
def Settled : Option TokenKind → List Token → Prop
  | _, [] => True
  | previous, t :: ts => t.Fits previous ∧ Settled (some t.kind) ts

@[simp] theorem settled_nil (previous : Option TokenKind) : Settled previous [] := trivial

@[simp] theorem settled_cons {previous : Option TokenKind} {t : Token} {ts : List Token} :
    Settled previous (t :: ts) ↔ t.Fits previous ∧ Settled (some t.kind) ts := Iff.rfl

@[simp] theorem settled_append {previous : Option TokenKind} {ts ts' : List Token} :
    Settled previous (ts ++ ts') ↔ Settled previous ts ∧ Settled (lastKind previous ts) ts' := by
  induction ts generalizing previous with
  | nil => simp
  | cons t ts ih => simp [ih, and_assoc]

namespace Token.Fits

variable {previous : Option TokenKind} {t : Token}

theorem terminator (h : t.kind = .terminator) : t.Fits previous := by
  unfold Token.Fits
  rw [h]
  trivial

/-- A name that can be bound stands behind no dot. -/
theorem isBindingName (h : t.Fits previous) (hk : t.kind.isBindingName)
    (hdot : previous ≠ some .dot) :
    IsName t.text.toList ∧ TokenKind.ofWord t.text = t.kind := by
  unfold Token.Fits at h
  cases hkind : t.kind <;> rw [hkind] at hk h
  case name => exact ⟨h.1, h.2.resolve_right hdot⟩
  case fromWord =>
    have htext : t.text = "from" := String.toList_inj.1 h
    exact ⟨h ▸ Lexer.isName_spelling (k := .fromWord) rfl, by rw [htext]; rfl⟩
  case asWord =>
    have htext : t.text = "as" := String.toList_inj.1 h
    exact ⟨h ▸ Lexer.isName_spelling (k := .asWord) rfl, by rw [htext]; rfl⟩
  all_goals cases hk

end Token.Fits

/-- Each token that the lexer reads is written as its kind says. -/
theorem Lexer.scan_writes (o : Origin) (cs : List Char) :
    ∀ t ∈ (scan o cs).tokens, t.kind.Writes t.text.toList := by
  fun_induction scan o cs with
  | case1 => exact nofun
  | case2 o c cs n hgap ih => exact ih
  | case3 o c cs hgap kind n htoken text rest ih =>
    intro t ht
    rcases List.mem_cons.1 ht with rfl | ht
    · rw [String.toList_ofList]
      exact token?_writes htoken
    · exact ih t ht
  | case4 => exact nofun

/-- No token that is read is a terminator or the brace of a block; they come later. -/
theorem Lexer.token?_unsettled {c : Char} {cs : List Char} {k : TokenKind} {n : Nat}
    (h : token? c cs = some (k, n)) : k ≠ .terminator ∧ k ≠ .blockBrace := by
  have hword : ∀ s k, TokenKind.ofWord s = k → k ≠ .name → k.isWord := by
    rintro s _ rfl hne
    exact (TokenKind.eq_spelling_of_ofWord hne).1
  unfold token? at h
  split at h
  · obtain ⟨rfl, -⟩ := Prod.mk.inj (Option.some.inj h)
    exact ⟨nofun, nofun⟩
  split at h
  · obtain ⟨hkind, -⟩ := Prod.mk.inj (Option.some.inj h)
    constructor <;> rintro rfl <;> exact absurd (hword _ _ hkind nofun) (by decide)
  split at h
  · obtain ⟨rfl, -⟩ := Prod.mk.inj (Option.some.inj h)
    exact ⟨nofun, nofun⟩
  split at h
  · obtain ⟨m, -, hm⟩ := Option.map_eq_some_iff.1 h
    obtain ⟨rfl, -⟩ := Prod.mk.inj hm
    exact ⟨nofun, nofun⟩
  · have hsymbol := (operator?_spec h).1
    constructor <;> rintro rfl <;> cases hsymbol

theorem Lexer.scan_unsettled (o : Origin) (cs : List Char) :
    ∀ t ∈ (scan o cs).tokens, t.kind ≠ .terminator ∧ t.kind ≠ .blockBrace := by
  fun_induction scan o cs with
  | case1 => exact nofun
  | case2 o c cs n hgap ih => exact ih
  | case3 o c cs hgap kind n htoken text rest ih =>
    intro t ht
    rcases List.mem_cons.1 ht with rfl | ht
    · exact token?_unsettled htoken
    · exact ih t ht
  | case4 => exact nofun

theorem Origin.advance_id (o : Origin) (text : List Char) :
    (o.advance text).id = o.id + text.length := by
  induction text generalizing o with
  | nil => rfl
  | cons c text ih =>
    rw [Origin.advance, List.foldl_cons]
    refine (ih (o.next c)).trans ?_
    have hnext : (o.next c).id = o.id + 1 := by
      rw [Origin.next]
      split <;> rfl
    rw [hnext, List.length_cons]
    omega

/-- **The lexer numbers tokens by their places**, which lie in the text and grow. -/
theorem Lexer.scan_numbers (o : Origin) (cs : List Char) :
    ((scan o cs).tokens.map (·.origin.id)).Pairwise (· < ·) ∧
      ∀ t ∈ (scan o cs).tokens, o.id ≤ t.origin.id ∧ t.origin.id < o.id + cs.length := by
  have hlength : ∀ (c : Char) (cs : List Char) (n : Nat),
      (c :: cs.take n).length + (cs.drop n).length = (c :: cs).length := by
    intro c cs n
    simp only [List.length_cons, List.length_take, List.length_drop]
    omega
  fun_induction scan o cs with
  | case1 o => simp
  | case2 o c cs n hgap ih =>
    rw [Origin.advance_id] at ih
    refine ⟨ih.1, fun t ht => ?_⟩
    have hbound := ih.2 t ht
    have hlen := hlength c cs n
    omega
  | case3 o c cs hgap kind n htoken text rest ih =>
    rw [Origin.advance_id] at ih
    have hlen := hlength c cs n
    have htext : text.length = (c :: cs.take n).length := rfl
    refine ⟨List.pairwise_cons.2 ⟨fun m hm => ?_, ih.1⟩, fun t ht => ?_⟩
    · obtain ⟨t, ht, rfl⟩ := List.mem_map.1 hm
      have hbound := ih.2 t ht
      simp only [List.length_cons] at htext ⊢
      omega
    · rcases List.mem_cons.1 ht with rfl | ht
      · simp only [List.length_cons]
        omega
      · have hbound := ih.2 t ht
        omega
  | case4 o c cs hgap htoken => simp

namespace StatementScan

/-- What has been emitted is settled, and the state remembers its last kind. -/
structure Emits (s : StatementScan) (out : List Token) (s' : StatementScan) : Prop where
  settled : Settled s.last out
  last : s'.last = lastKind s.last out
  /-- A dot ends no statement. -/
  dot : s'.last = some .dot → s'.canEnd = false

namespace Emits

variable {s s' s'' : StatementScan} {out out' : List Token}

theorem refl (h : s.last = some .dot → s.canEnd = false) : s.Emits [] s := ⟨trivial, rfl, h⟩

theorem trans (h : s.Emits out s') (h' : s'.Emits out' s'') : s.Emits (out ++ out') s'' := by
  refine ⟨settled_append.2 ⟨h.settled, h.last ▸ h'.settled⟩, ?_, h'.dot⟩
  rw [lastKind_append, ← h.last]
  exact h'.last

theorem terminated {t : Token} (ht : t.kind = .terminator) (hlast : s'.last = some .terminator) :
    s.Emits [t] s' :=
  ⟨⟨Token.Fits.terminator ht, trivial⟩, by rw [hlast, lastKind_cons, ht, lastKind_nil],
    fun h => by rw [hlast] at h; cases h⟩

end Emits

variable {s : StatementScan} {t : Token}

theorem emits_settleNewline (h : s.last = some .dot → s.canEnd = false) (k : TokenKind) :
    s.Emits (s.settleNewline k).1 (s.settleNewline k).2 := by
  unfold settleNewline
  split
  · exact .refl h
  · split
    · exact .terminated rfl rfl
    · exact ⟨trivial, rfl, h⟩

theorem emits_settleBrace (h : s.last = some .dot → s.canEnd = false) (t : Token) :
    s.Emits (s.settleBrace t).1 (s.settleBrace t).2 := by
  unfold settleBrace
  split
  · exact .terminated rfl rfl
  · exact .refl h

/-- Behind a dot no newline and no brace ends the statement. -/
theorem last_settle_of_dot (h : s.last = some .dot → s.canEnd = false)
    (hdot : s.last = some .dot) (hk : t.kind ≠ .rightBrace) :
    ((s.settleNewline t.kind).2.settleBrace t).2.last = some .dot := by
  have hnewline : (s.settleNewline t.kind).2.last = some .dot := by
    unfold settleNewline
    split
    · exact hdot
    · rw [if_neg (by simp [breaksBefore, h hdot])]
      exact hdot
  unfold settleBrace
  rw [if_neg (by simp [hk])]
  exact hnewline

/-- A token is emitted last, as the brace of a block in the place of a statement. -/
theorem emits_shift (h : t.kind ≠ .leftBrace → t.Fits s.last) :
    s.Emits [s.asBlock t]
      { s.shift (s.asBlock t).kind with lastToken := some (s.asBlock t) } := by
  refine ⟨⟨?_, trivial⟩, rfl, fun hdot => ?_⟩
  · unfold asBlock
    split
    · trivial
    · rename_i hblock
      by_cases hk : t.kind = .leftBrace
      · unfold Token.Fits
        rw [hk]
        simpa [hk] using hblock
      · exact h hk
  · have hkind : (s.asBlock t).kind = .dot := Option.some.inj hdot
    simp only [shift, hkind, TokenKind.endsStatement, Bool.false_and]

theorem emits_step (h : s.last = some .dot → s.canEnd = false)
    (ht : t.kind.Writes t.text.toList) : s.Emits (s.step t).1 (s.step t).2 := by
  unfold step
  split
  · exact ⟨trivial, rfl, h⟩
  · exact .terminated rfl rfl
  · rename_i hline hsemicolon
    have hnewline := emits_settleNewline h (s.asMember t).kind
    have hbrace := emits_settleBrace hnewline.dot (s.asMember t)
    refine (hnewline.trans hbrace).trans (emits_shift fun hne => ?_)
    unfold asMember at hne ⊢
    split
    · -- a word of the language behind a dot
      rename_i hmember
      simp only [Bool.and_eq_true, decide_eq_true_eq] at hmember
      obtain ⟨hword, hdot⟩ := hmember
      refine ⟨?_, Or.inr (last_settle_of_dot h hdot nofun)⟩
      rw [TokenKind.writes_iff_of_isWord hword] at ht
      exact ht ▸ Lexer.isName_spelling hword
    · rename_i hmember
      rw [if_neg hmember] at hne
      unfold Token.Fits
      cases hk : t.kind <;> rw [hk] at ht
      case name => exact ⟨ht.1, Or.inl (by simpa using ht.2)⟩
      case leftBrace => exact absurd hk hne
      all_goals exact ht

theorem emits_steps {ts : List Token} (h : s.last = some .dot → s.canEnd = false)
    (hts : ∀ t ∈ ts, t.kind.Writes t.text.toList) : s.Emits (s.steps ts).1 (s.steps ts).2 := by
  induction ts generalizing s with
  | nil => exact .refl h
  | cons t ts ih =>
    have hstep := emits_step h (hts t (List.mem_cons_self ..))
    exact hstep.trans (ih hstep.dot fun t ht => hts t (List.mem_cons_of_mem _ ht))

theorem settled_finish (previous : Option TokenKind) : Settled previous s.finish := by
  unfold finish
  split
  · split
    · exact ⟨Token.Fits.terminator rfl, trivial⟩
    · trivial
  · trivial

end StatementScan

/-- **The tokens of a text are settled** once the ends of its statements are. -/
theorem Tokens.settled_ofText (text : String) (base : Nat) :
    Settled none (Tokens.ofText text base).terminate.tokens := by
  have hsteps := StatementScan.emits_steps (s := {}) nofun
    (Lexer.scan_writes ⟨base, 1, 1⟩ text.toList)
  unfold Tokens.terminate
  simp only
  split
  · exact settled_append.2 ⟨hsteps.settled, StatementScan.settled_finish _⟩
  · exact hsteps.settled

end MessageBinder
