import MessageBinder.Proofs.Token.Lockstep
import MessageBinder.Proofs.Token.Settled

/-!
# Nothing is lost where statements end

Settling the ends of the statements takes newlines and semicolons out of a sequence of tokens, puts
terminators in and reads two kinds of tokens anew; everything else stays, in its order and at its
place. `MessageBinder.Account` is the account of it: the tokens that were read are cut into pieces,
one for each token and one for each run of newlines, and with each piece stands what it yields.
There are four things a terminator can come from, and three of them yield one only where a statement
can end (`MessageBinder.CanEnd`), which is told by the tokens in front.

Newlines wait, so a piece is settled later than it is read. What the state remembers
(`MessageBinder.StatementScan.Remembers`) is therefore told of the tokens that were emitted, and
independently of the newlines that wait.
-/

namespace MessageBinder

/-! ### The tokens as they were read -/

/-- A token as it was read, behind a token of the given kind: the brace of a block is a brace, and a
name behind a dot may be a word of the language. -/
def Token.restored (previous : Option TokenKind) (t : Token) : Token :=
  match t.kind with
  | .blockBrace => t.as .leftBrace
  | .name => if previous = some .dot then t.as (.ofWord t.text) else t
  | _ => t

/-- Tokens as they were read, behind a token of the given kind. -/
def Token.restoredList : Option TokenKind → List Token → List Token
  | _, [] => []
  | previous, t :: ts => t.restored previous :: restoredList (some t.kind) ts

/-- Whether a token of this kind only separates others. -/
def TokenKind.isBreak (k : TokenKind) : Bool := k = .newline || k = .semicolon

/-- A token as the lexer reads it. -/
structure Token.IsRaw (t : Token) : Prop where
  writes : t.kind.Writes t.text.toList
  unsettled : t.kind ≠ .terminator ∧ t.kind ≠ .blockBrace

theorem Lexer.scan_isRaw (o : Origin) (cs : List Char) : ∀ t ∈ (scan o cs).tokens, t.IsRaw :=
  fun t ht => ⟨scan_writes o cs t ht, scan_unsettled o cs t ht⟩

theorem Token.restored_terminator {t : Token} (h : t.kind = .terminator)
    (previous : Option TokenKind) : t.restored previous = t := by
  unfold restored
  rw [h]

@[simp] theorem Token.origin_restored (t : Token) (previous : Option TokenKind) :
    (t.restored previous).origin = t.origin := by
  unfold restored
  split
  · rfl
  · split <;> rfl
  · rfl

theorem Token.restoredList_append (previous : Option TokenKind) (ts ts' : List Token) :
    restoredList previous (ts ++ ts')
      = restoredList previous ts ++ restoredList (lastKind previous ts) ts' := by
  induction ts generalizing previous with
  | nil => rfl
  | cons t ts ih => rw [List.cons_append, restoredList, restoredList, ih]; rfl

/-- A token that only stood for itself is restored. -/
theorem Token.IsRaw.restored {t : Token} (h : t.IsRaw) (previous : Option TokenKind) :
    t.restored previous = t := by
  unfold Token.restored
  cases hk : t.kind with
  | blockBrace => exact absurd hk h.unsettled.2
  | name =>
    have hname := h.writes
    rw [hk] at hname
    have hword : TokenKind.ofWord t.text = t.kind := by simpa [hk] using hname.2
    dsimp only
    rw [hword]
    exact ite_self t
  | _ => rfl

theorem TokenKind.ofWord_ne_terminator (text : String) : ofWord text ≠ .terminator := by
  intro h
  have hkind := isWord_ofWord text
  rw [h] at hkind
  exact absurd hkind (by decide)

theorem Token.kind_restored_ne_terminator {t : Token} (h : t.kind ≠ .terminator)
    (previous : Option TokenKind) : (t.restored previous).kind ≠ .terminator := by
  unfold restored
  split
  · exact nofun
  · split
    · exact TokenKind.ofWord_ne_terminator t.text
    · exact h
  · exact h

/-! ### Where a statement can end -/

/-- Whether a token of this kind opens a bracket. -/
def TokenKind.opensBracket : TokenKind → Bool
  | leftParen | leftBracket | leftBrace | blockBrace => true
  | _ => false

/-- The open brackets behind a token, innermost first. A closing bracket closes the innermost one,
of whatever sort it is. -/
def TokenKind.leaves (k : TokenKind) (brackets : List TokenKind) : List TokenKind :=
  if k.opensBracket then k :: brackets
  else if k.closesBracket then brackets.tail
  else brackets

/-- The brackets that tokens leave open, innermost first. -/
def openBrackets (ts : List Token) : List TokenKind :=
  ts.foldl (fun brackets t => t.kind.leaves brackets) []

theorem openBrackets_concat (ts : List Token) (t : Token) :
    openBrackets (ts ++ [t]) = t.kind.leaves (openBrackets ts) := by
  simp [openBrackets]

/-- **A statement can end behind these tokens**: the last can be the last of a statement, and the
innermost open bracket, if there is one, is the brace of a block. -/
structure CanEnd (front : List Token) : Prop where
  last : (lastKind none front).any TokenKind.endsStatement
  level : (openBrackets front).head?.all (· = .blockBrace)

/-! ### The account -/

/-- **What a piece of the tokens that were read yields** behind what has been emitted. -/
inductive Yields (front : List Token) : List Token → List Token → Prop
  /-- A run of newlines yields nothing. -/
  | newlines {run : List Token} (hrun : ∀ t ∈ run, t.kind = .newline) (hne : run ≠ []) :
      Yields front run []
  /-- A run of newlines ends a statement, at the first of them. -/
  | newlineEnd {run : List Token} {t : Token} (hrun : ∀ u ∈ t :: run, u.kind = .newline)
      (hends : CanEnd front) : Yields front (t :: run) [t.as .terminator]
  /-- A semicolon ends a statement, were it an empty one. -/
  | semicolon {t : Token} (ht : t.kind = .semicolon) : Yields front [t] [t.as .terminator]
  /-- A closing brace ends the last statement of a block. -/
  | braceEnd {t : Token} (ht : t.kind = .rightBrace) (hends : CanEnd front) :
      Yields front [t] [t.as .terminator, t]
  /-- Any other token yields itself, perhaps as one of another kind. -/
  | token {t t' : Token} (ht : t.kind.isBreak = false) (ht' : t'.kind ≠ .terminator)
      (hrestored : t'.restored (lastKind none front) = t) : Yields front [t] [t']

/-- **What the tokens that were read yield**, piece by piece, behind what has been emitted; `whole`
says whether they go to the end of the text. -/
inductive Account (whole : Prop) : List Token → List Token → List Token → Prop
  /-- Nothing is left. -/
  | nothing (front : List Token) : Account whole front [] []
  /-- The end of the text ends the last statement, at its last token. -/
  | atEnd {front : List Token} {t : Token} (hwhole : whole) (hlast : front.getLast? = some t)
      (hends : CanEnd front) : Account whole front [] [t.as .terminator]
  /-- A piece is accounted for before what follows; a run of newlines is not cut. -/
  | piece {front raw out ts us : List Token} (hyields : Yields front ts us)
      (hmaximal : ∀ t ∈ ts, t.kind = .newline → raw.head?.all (·.kind ≠ .newline))
      (hrest : Account whole (front ++ us) raw out) : Account whole front (ts ++ raw) (us ++ out)

namespace Yields

variable {front ts us : List Token}

/-- What a piece yields is the piece, but for what separates and for terminators. -/
theorem restored_filter (h : Yields front ts us) :
    (Token.restoredList (lastKind none front) us).filter (·.kind ≠ .terminator)
      = ts.filter (!·.kind.isBreak) := by
  have hnewlines : ∀ run : List Token, (∀ t ∈ run, t.kind = .newline) →
      run.filter (!·.kind.isBreak) = [] := by
    intro run hrun
    rw [List.filter_eq_nil_iff]
    intro t ht
    simp [hrun t ht, TokenKind.isBreak]
  cases h with
  | newlines hrun => exact (hnewlines _ hrun).symm
  | newlineEnd hrun =>
    rw [hnewlines _ hrun, Token.restoredList, Token.restored_terminator rfl]
    rfl
  | @semicolon t ht =>
    rw [Token.restoredList, Token.restored_terminator rfl]
    simp [Token.restoredList, Token.as, ht, TokenKind.isBreak]
  | @braceEnd t ht =>
    have hrestored : t.restored (some .terminator) = t := by
      rw [Token.restored, ht]
    rw [Token.restoredList, Token.restored_terminator rfl]
    simp [Token.restoredList, Token.as, hrestored, ht, TokenKind.isBreak]
  | token ht ht' hrestored =>
    have hkind := Token.kind_restored_ne_terminator ht' (lastKind none front)
    rw [Token.restoredList, Token.restoredList, hrestored]
    rw [hrestored] at hkind
    simp [hkind, ht]

/-- What a piece yields stands where the piece does. -/
theorem origin_mem (h : Yields front ts us) {u : Token} (hu : u ∈ us) :
    u.origin ∈ ts.map Token.origin := by
  cases h with
  | newlines => cases hu
  | newlineEnd =>
    rw [List.mem_singleton.1 hu]
    exact List.mem_cons_self ..
  | semicolon =>
    rw [List.mem_singleton.1 hu]
    exact List.mem_cons_self ..
  | braceEnd =>
    obtain rfl | hu := List.mem_cons.1 hu
    · exact List.mem_cons_self ..
    · rw [List.mem_singleton.1 hu]
      exact List.mem_cons_self ..
  | token _ _ hrestored =>
    rw [List.mem_singleton.1 hu, ← hrestored, List.map_singleton, Token.origin_restored]
    exact List.mem_cons_self ..

/-- A semicolon is a piece of its own. -/
theorem of_semicolon (h : Yields front ts us) {t : Token} (ht : t ∈ ts) (hk : t.kind = .semicolon) :
    ts = [t] ∧ us = [t.as .terminator] := by
  have hne : ∀ {t' : Token} {k : TokenKind}, t ∈ [t'] → t'.kind = k → k = .semicolon := by
    rintro t' k ht rfl
    rw [← List.mem_singleton.1 ht, hk]
  cases h with
  | newlines hrun => cases hk.symm.trans (hrun t ht)
  | newlineEnd hrun => cases hk.symm.trans (hrun t ht)
  | semicolon =>
    obtain rfl := List.mem_singleton.1 ht
    exact ⟨rfl, rfl⟩
  | braceEnd ht' => cases hne ht ht'
  | @token t' _ ht' =>
    rw [hne ht rfl] at ht'
    cases ht'

end Yields

namespace Account

variable {whole : Prop} {front run raw out : List Token}

/-- Newlines in front that yield nothing, if there are any. -/
theorem skip (hrun : ∀ t ∈ run, t.kind = .newline) (hmaximal : raw.head?.all (·.kind ≠ .newline))
    (h : Account whole front raw out) : Account whole front (run ++ raw) out := by
  by_cases hne : run = []
  · rw [hne]
    exact h
  · have hfront : Account whole (front ++ []) raw out := by rwa [List.append_nil]
    exact .piece (.newlines hrun hne) (fun _ _ _ => hmaximal) hfront

/-- **Nothing is lost and nothing changes its order**: without the terminators, the tokens as they
were read are those that do more than separate others. -/
theorem restored_filter (h : Account whole front raw out) :
    (Token.restoredList (lastKind none front) out).filter (·.kind ≠ .terminator)
      = raw.filter (!·.kind.isBreak) := by
  induction h with
  | nothing => rfl
  | atEnd =>
    rw [Token.restoredList, Token.restored_terminator rfl]
    rfl
  | piece hyields _ _ ih =>
    rw [Token.restoredList_append, List.filter_append, List.filter_append, hyields.restored_filter,
      ← lastKind_append, ih]

/-- What is emitted stands at the place of a token that was read; only the end of the text ends a
statement at the last token in front. -/
theorem origin_mem (h : Account whole front raw out) {u : Token} (hu : u ∈ out) :
    u.origin ∈ raw.map Token.origin ∨
      ∃ t, front.getLast? = some t ∧ t.kind ≠ .terminator ∧ u.origin = t.origin := by
  induction h with
  | nothing => cases hu
  | @atEnd front t _ hlast hends =>
    obtain rfl := List.mem_singleton.1 hu
    refine Or.inr ⟨t, hlast, fun hk => ?_, rfl⟩
    obtain ⟨front, rfl⟩ := List.getLast?_eq_some_iff.1 hlast
    have hkind := hends.last
    rw [lastKind_append, lastKind_cons, lastKind_nil, hk] at hkind
    cases hkind
  | @piece front raw out ts us hyields _ _ ih =>
    rw [List.map_append, List.mem_append, or_assoc]
    obtain hu | hu := List.mem_append.1 hu
    · exact Or.inl (hyields.origin_mem hu)
    obtain hmem | ⟨t, hlast, hne, horigin⟩ := ih hu
    · exact Or.inr (Or.inl hmem)
    · rw [List.getLast?_append] at hlast
      cases hus : us.getLast? with
      | none => exact Or.inr (Or.inr ⟨t, by simpa [hus] using hlast, hne, horigin⟩)
      | some t' =>
        obtain rfl : t' = t := by simpa [hus] using hlast
        exact Or.inl (horigin ▸ hyields.origin_mem (List.mem_of_getLast? hus))

/-- **A semicolon yields one terminator**, and nothing else is emitted at its place. -/
theorem filter_semicolon (h : Account whole front raw out) (hnodup : (raw.map Token.origin).Nodup)
    {t : Token} (ht : t ∈ raw) (hk : t.kind = .semicolon) :
    out.filter (·.origin = t.origin) = [t.as .terminator] := by
  induction h with
  | nothing => cases ht
  | atEnd => cases ht
  | @piece front raw out ts us hyields _ hrest ih =>
    rw [List.map_append, List.nodup_append] at hnodup
    obtain ⟨-, hnodup, hdisjoint⟩ := hnodup
    rw [List.filter_append]
    obtain ht | ht := List.mem_append.1 ht
    · obtain ⟨rfl, rfl⟩ := hyields.of_semicolon ht hk
      have hrest : out.filter (·.origin = t.origin) = [] := by
        rw [List.filter_eq_nil_iff]
        intro u hu
        rw [decide_eq_true_eq]
        obtain hmem | ⟨t', hlast, hne, -⟩ := hrest.origin_mem hu
        · exact fun horigin => hdisjoint _ (List.mem_cons_self ..) _ hmem horigin.symm
        · obtain rfl : t.as .terminator = t' := by simpa using hlast
          exact absurd rfl hne
      rw [hrest, List.append_nil]
      exact List.filter_cons_of_pos (decide_eq_true rfl)
    · have hfirst : us.filter (·.origin = t.origin) = [] := by
        rw [List.filter_eq_nil_iff]
        intro u hu
        rw [decide_eq_true_eq]
        exact hdisjoint _ (hyields.origin_mem hu) _ (List.mem_map_of_mem ht)
      rw [hfirst, List.nil_append]
      exact ih hnodup ht

end Account

/-! ### What the state remembers -/

/-- The kind of the token that opens a bracket. -/
def Bracket.opener : Bracket → TokenKind
  | .head | .paren => .leftParen
  | .square => .leftBracket
  | .brace => .leftBrace
  | .block => .blockBrace

namespace StatementScan

/-- **What the state remembers of the tokens that were emitted.** -/
structure Remembers (s : StatementScan) (front : List Token) : Prop where
  last : s.last = lastKind none front
  brackets : openBrackets front = s.stack.map Bracket.opener
  /-- A statement ends only behind a token that can be its last, which is the last of all. -/
  ends : s.canEnd → s.last.any TokenKind.endsStatement ∧ s.lastToken = front.getLast?

variable {s s' : StatementScan} {front run ts : List Token} {t : Token}

/-- The bracket that a token opens is told by the token. -/
theorem opener_of_opened {k : TokenKind} {b : Bracket} (h : s.opened k = some b) :
    k.opensBracket ∧ b.opener = k := by
  cases k <;> cases h <;> refine ⟨rfl, ?_⟩
  -- a parenthesis opens one of two brackets
  case leftParen => split <;> rfl
  all_goals rfl

theorem opensBracket_of_opened {k : TokenKind} (h : s.opened k = none) :
    k.opensBracket = false := by
  cases k <;> first | rfl | cases h

namespace Remembers

theorem congr (h : s.Remembers front) (hlast : s'.last = s.last) (hstack : s'.stack = s.stack)
    (hends : s'.canEnd → s.canEnd ∧ s'.lastToken = s.lastToken) : s'.Remembers front := by
  refine ⟨hlast.trans h.last, by rw [hstack, h.brackets], fun hs' => ?_⟩
  obtain ⟨hs, htoken⟩ := hends hs'
  rw [hlast, htoken]
  exact h.ends hs

/-- Where the state says that a statement can end, one can. -/
theorem canEnd (h : s.Remembers front) (hends : s.canEnd) (hlevel : s.atStatementLevel) :
    CanEnd front := by
  refine ⟨h.last ▸ (h.ends hends).1, ?_⟩
  rw [h.brackets]
  unfold atStatementLevel at hlevel
  cases hs : s.stack with
  | nil => rfl
  | cons b bs =>
    rw [hs] at hlevel
    cases b <;> first | rfl | cases hlevel

/-- Behind a dot no statement can end. -/
theorem of_dot (h : s.Remembers front) (hdot : s.last = some .dot) : s.canEnd = false := by
  rw [Bool.eq_false_iff]
  intro hends
  have hlast := (h.ends hends).1
  rw [hdot] at hlast
  cases hlast

/-- A terminator has been emitted. -/
theorem terminated (h : s.Remembers front) (ht : t.kind = .terminator)
    (hlast : s'.last = some .terminator) (hstack : s'.stack = s.stack) (hends : s'.canEnd = false) :
    s'.Remembers (front ++ [t]) := by
  refine ⟨by rw [hlast, lastKind_append, lastKind_cons, ht, lastKind_nil], ?_, ?_⟩
  · rw [openBrackets_concat, ht, hstack]
    exact h.brackets
  · rw [hends]
    exact nofun

/-- Any other token has been emitted. -/
theorem shift (h : s.Remembers front) (t : Token) :
    Remembers { s.shift t.kind with lastToken := some t } (front ++ [t]) := by
  refine ⟨by rw [lastKind_append]; rfl, ?_, fun hends => ⟨?_, by simp⟩⟩
  · rw [openBrackets_concat, h.brackets]
    unfold TokenKind.leaves StatementScan.shift
    cases hopened : s.opened t.kind with
    | some b =>
      obtain ⟨hopens, hopener⟩ := opener_of_opened hopened
      simp only [hopens, if_true, List.map_cons, hopener]
    | none =>
      simp only [opensBracket_of_opened hopened, Bool.false_eq_true, if_false]
      split
      · exact List.map_tail.symm
      · rfl
  · simp only [StatementScan.shift, Bool.and_eq_true] at hends
    simpa [StatementScan.shift] using hends.1

end Remembers

/-! ### The account of a step -/

/-- What a token is taken for behind a dot or elsewhere. -/
def Takes (s : StatementScan) (t t' : Token) : Prop :=
  t' = t ∨ t.kind.isWord ∧ t' = t.as .name ∧ s.last = some .dot

theorem takes_asMember (s : StatementScan) (t : Token) : s.Takes t (s.asMember t) := by
  unfold asMember
  split
  · rename_i hmember
    simp only [Bool.and_eq_true, decide_eq_true_eq] at hmember
    exact Or.inr ⟨hmember.1, rfl, hmember.2⟩
  · exact Or.inl rfl

variable {t' : Token}

/-- A token is emitted as one that can be restored. -/
theorem Takes.restored (h : s.Takes t t') (ht : t.IsRaw) :
    (s.asBlock t').restored s.last = t ∧ (s.asBlock t').kind ≠ .terminator := by
  obtain rfl | ⟨hword, rfl, hdot⟩ := h
  · unfold asBlock
    split
    · rename_i hblock
      simp only [Bool.and_eq_true, decide_eq_true_eq] at hblock
      refine ⟨?_, nofun⟩
      rw [Token.restored, Token.as, Token.as, ← hblock.1]
    · exact ⟨ht.restored s.last, ht.unsettled.1⟩
  · have htext : TokenKind.ofWord t.text = t.kind := by
      have hwrites := (TokenKind.writes_iff_of_isWord hword).1 ht.writes
      rw [String.toList_inj.1 hwrites, TokenKind.ofWord_spelling hword]
    refine ⟨?_, nofun⟩
    rw [hdot]
    simp [asBlock, Token.restored, Token.as, htext]

theorem Takes.settleNewline (h : s.Takes t t') (hs : s.Remembers front) (k : TokenKind) :
    (s.settleNewline k).2.Takes t t' := by
  refine h.imp_right fun ⟨hword, ht', hdot⟩ => ⟨hword, ht', ?_⟩
  have hbreaks : s.breaksBefore k = false := by simp [breaksBefore, hs.of_dot hdot]
  simp [settleNewline_eq, hbreaks, hdot]

variable {whole : Prop} {raw out : List Token}

theorem step_of_not_isBreak (ht : t.kind.isBreak = false) :
    s.step t =
      let m := s.asMember t
      let r := (s.settleNewline m.kind).2.settleBrace m
      ((s.settleNewline m.kind).1 ++ (r.1 ++ [r.2.asBlock m]),
        { r.2.shift (r.2.asBlock m).kind with lastToken := some (r.2.asBlock m) }) := by
  unfold step
  split
  · rename_i hk
    rw [hk] at ht
    cases ht
  · rename_i hk
    rw [hk] at ht
    cases ht
  · simp only [List.append_assoc]

/-- The newlines that wait are accounted for when the token behind them is known. -/
theorem account_settleNewline (hs : s.Remembers front) (hnewline : s.newline = run.head?)
    (hrun : ∀ t ∈ run, t.kind = .newline) (hmaximal : raw.head?.all (·.kind ≠ .newline))
    (k : TokenKind)
    (hrest : ∀ front', (s.settleNewline k).2.Remembers front' → Account whole front' raw out) :
    Account whole front (run ++ raw) ((s.settleNewline k).1 ++ out) := by
  rw [settleNewline_eq] at hrest ⊢
  by_cases hbreaks : s.newline.isSome && s.breaksBefore k
  · simp only [hbreaks, if_true] at hrest ⊢
    rw [Bool.and_eq_true] at hbreaks
    cases run with
    | nil =>
      rw [hnewline] at hbreaks
      cases hbreaks.1
    | cons n run =>
      rw [hnewline, List.head?_cons, Option.getD_some]
      obtain ⟨hends, hlevel⟩ := ends_of_breaksBefore hbreaks.2
      exact .piece (.newlineEnd hrun (hs.canEnd hends hlevel)) (fun _ _ _ => hmaximal)
        (hrest _ (hs.terminated rfl rfl rfl rfl))
  · simp only [hbreaks, Bool.false_eq_true, if_false] at hrest ⊢
    exact (hrest _ (hs.congr rfl rfl fun hends => ⟨hends, rfl⟩)).skip hrun hmaximal

/-- A token that is no newline and no semicolon is accounted for. -/
theorem account_token (hs : s.Remembers front) (ht : t.IsRaw) (hbreak : t.kind.isBreak = false)
    (htakes : s.Takes t t')
    (hrest : ∀ front' t'', (s.settleBrace t').2.asBlock t' = t'' →
      Remembers { (s.settleBrace t').2.shift t''.kind with lastToken := some t'' } front' →
      Account whole front' raw out) :
    Account whole front (t :: raw)
      ((s.settleBrace t').1 ++ [(s.settleBrace t').2.asBlock t'] ++ out) := by
  unfold settleBrace at hrest ⊢
  split at hrest
  · rename_i hbrace
    simp only [Bool.and_eq_true, decide_eq_true_eq] at hbrace
    obtain ⟨⟨hkind, hblock⟩, hends⟩ := hbrace
    obtain rfl | ⟨-, rfl, -⟩ := htakes
    · -- the statement ends in front of the brace that closes its block
      have heq : s.terminated.asBlock t' = t' := by
        rw [asBlock, hkind]
        rfl
      have hlevel : s.atStatementLevel := by
        rw [atStatementLevel, hblock]
      have hterminated : s.terminated.Remembers (front ++ [t'.as .terminator]) :=
        hs.terminated rfl rfl rfl rfl
      have hfront := hterminated.shift t'
      simp only [hkind, hblock, hends, decide_true, Bool.and_true, if_true, heq,
        List.cons_append, List.nil_append]
      refine .piece (.braceEnd hkind (hs.canEnd hends hlevel))
        (by simp [hkind]) (hrest _ t' heq ?_)
      simpa using hfront
    · cases hkind
  · rename_i hbrace
    rw [if_neg hbrace]
    obtain ⟨hrestored, hne⟩ := htakes.restored ht
    rw [hs.last] at hrestored
    have hline : t.kind ≠ .newline := by
      intro hk
      rw [hk] at hbreak
      cases hbreak
    exact .piece (.token hbreak hne hrestored) (by simp [hline])
      (hrest _ _ rfl (hs.shift _))

/-! ### The account of a run -/

/-- Where the text ends, its last statement does. -/
theorem account_finish (hs : s.Remembers front) (hwhole : whole) :
    Account whole front [] s.finish := by
  unfold finish
  split
  · rename_i t hlast
    split
    · rename_i hends
      rw [Bool.and_eq_true] at hends
      exact .atEnd hwhole ((hs.ends hends.1).2 ▸ hlast) (hs.canEnd hends.1 hends.2)
    · exact .nothing front
  · exact .nothing front

/-- **A run is accounted for**, and with it the newlines that wait in front of it. -/
theorem account_steps (run : List Token) (hs : s.Remembers front) (hnewline : s.newline = run.head?)
    (hrun : ∀ t ∈ run, t.kind = .newline) (hts : ∀ t ∈ ts, t.IsRaw)
    (hrest : ∀ front', (s.steps ts).2.Remembers front' → Account whole front' [] out) :
    Account whole front (run ++ ts) ((s.steps ts).1 ++ out) := by
  induction ts generalizing s front run with
  | nil => exact (hrest front hs).skip hrun rfl
  | cons t ts ih =>
    obtain ⟨ht, hts⟩ := List.forall_mem_cons.1 hts
    rw [steps_cons] at hrest ⊢
    cases hbreak : t.kind.isBreak with
    | true =>
      simp only [TokenKind.isBreak, Bool.or_eq_true, decide_eq_true_eq] at hbreak
      obtain hk | hk := hbreak
      · -- one more newline waits
        rw [step_of_newline hk] at hrest ⊢
        rw [List.append_cons run t ts]
        refine ih _ (hs.congr rfl rfl fun hends => ⟨hends, rfl⟩) ?_ ?_ hts hrest
        · rw [hnewline]
          cases run <;> rfl
        · simpa [or_imp, forall_and, hk] using hrun
      · rw [step_of_semicolon hk] at hrest ⊢
        refine Account.skip hrun (by simp [hk]) ?_
        refine .piece (.semicolon hk) (by simp [hk]) ?_
        exact ih [] (hs.terminated rfl rfl rfl rfl) rfl nofun hts hrest
    | false =>
      have hne : t.kind ≠ .newline := by
        intro hk
        rw [hk] at hbreak
        cases hbreak
      have htakes := (s.takes_asMember t).settleNewline hs (s.asMember t).kind
      rw [step_of_not_isBreak hbreak] at hrest ⊢
      simp only [List.append_assoc]
      refine account_settleNewline hs hnewline hrun (by simpa using hne) _ fun front hs => ?_
      rw [← List.append_assoc]
      refine account_token hs ht hbreak htakes fun front t' ht' hs => ?_
      subst ht'
      exact ih [] hs (by simp [shift]) nofun hts hrest

end StatementScan

/-! ### Texts -/

/-- **Nothing is lost and nothing changes its order** when tokens that were read become others;
`whole` says whether they go to the end of the text. -/
structure Conserved (whole : Prop) (raw out : List Token) : Prop where
  /-- Each terminator comes from somewhere, and comes from it where a statement can end. -/
  account : Account whole [] raw out
  /-- All that does more than separate is kept. -/
  kept : (Token.restoredList none out).filter (·.kind ≠ .terminator) = raw.filter (!·.kind.isBreak)
  /-- In the place of a semicolon stands one terminator. -/
  semicolon : ∀ t ∈ raw, t.kind = .semicolon →
    out.filter (·.origin = t.origin) = [t.as .terminator]

theorem Lexer.scan_nodup (o : Origin) (cs : List Char) :
    ((scan o cs).tokens.map Token.origin).Nodup := by
  refine List.pairwise_map.2 ((List.pairwise_map.1 (scan_numbers o cs).1).imp fun hlt heq => ?_)
  exact Nat.ne_of_lt hlt (congrArg Origin.id heq)

theorem Tokens.account_ofText (text : String) (base : Nat) :
    Account ((ofText text base).stop = none) [] (ofText text base).tokens
      (ofText text base).terminate.tokens := by
  have hremembers : StatementScan.Remembers {} [] := ⟨rfl, rfl, nofun⟩
  have hraw := Lexer.scan_isRaw ⟨base, 1, 1⟩ text.toList
  unfold terminate
  dsimp only
  split
  · rename_i hstop
    exact StatementScan.account_steps [] hremembers rfl nofun hraw
      fun front hs => StatementScan.account_finish hs (Option.isNone_iff_eq_none.1 hstop)
  · rw [← List.append_nil (StatementScan.steps _ _).1]
    exact StatementScan.account_steps [] hremembers rfl nofun hraw
      fun front _ => .nothing front

/-- **Settling the ends of the statements of a text loses nothing.** -/
theorem Tokens.conserved_ofText (text : String) (base : Nat) :
    Conserved ((ofText text base).stop = none) (ofText text base).tokens
      (ofText text base).terminate.tokens :=
  ⟨account_ofText text base, (account_ofText text base).restored_filter,
    fun _ => (account_ofText text base).filter_semicolon (Lexer.scan_nodup _ _)⟩

end MessageBinder
