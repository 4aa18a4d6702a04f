import MessageBinder.Proofs.Grammar.Parts
import MessageBinder.Proofs.Grammar.Settling
import MessageBinder.Proofs.Token.Places

/-!
# The places of a module that was read

Diagnostics, references and renaming go by the places of parts, and those come from tokens. Three
things lie between a text and a part of its tree: the lexer gives tokens their places, settling the
ends of the statements puts terminators among them and reads some of them anew, and the grammar says
which tokens write which part. `MessageBinder.Module.Placed` tells what comes of it, and it holds of
every module that is read (`MessageBinder.Module.placed_of_parse`).

The one part that has only a terminator to stand at is a branch without a statement. Terminators are
put in where a statement can end, and none can end behind the condition of a choice or behind
`else`; so the terminator there is the semicolon of the text
(`MessageBinder.LoneBranches.of_walk`).
-/

namespace MessageBinder

/-! ### Terminators that end nothing -/

namespace StatementScan

/-- `Lone` holds of the terminators among tokens that are emitted where no statement can end. -/
def Idle (Lone : Token → Prop) : StatementScan → List Token → Prop
  | _, [] => True
  | s, t :: out =>
    (t.kind = .terminator → s.canEnd = false → Lone t) ∧ Idle Lone (s.emit t.kind) out

variable {Lone : Token → Prop} {s s' : StatementScan} {out out' ts : List Token} {t : Token}

theorem idle_append :
    Idle Lone s (out ++ out') ↔ Idle Lone s out ∧ Idle Lone (s.emits out) out' := by
  induction out generalizing s with
  | nil => exact ⟨fun h => ⟨trivial, h⟩, And.right⟩
  | cons t out ih =>
    rw [List.cons_append, Idle, Idle, ih, and_assoc]
    rfl

theorem Idle.of_alike (h : Idle Lone s' out) (hs : s.Alike s') : Idle Lone s out := by
  induction out generalizing s s' with
  | nil => trivial
  | cons t out ih => exact ⟨fun ht hends => h.1 ht (hs.2.1.trans hends), ih h.2 (hs.emit _)⟩

theorem idle_of_canEnd (h : s.canEnd) : Idle Lone s [t] :=
  ⟨fun _ hends => absurd (hends.symm.trans h) nofun, trivial⟩

theorem idle_settleNewline (s : StatementScan) (k : TokenKind) :
    Idle Lone s (s.settleNewline k).1 := by
  rw [settleNewline_eq]
  split
  · rename_i hbreaks
    rw [Bool.and_eq_true] at hbreaks
    exact idle_of_canEnd (ends_of_breaksBefore hbreaks.2).1
  · trivial

theorem idle_settleBrace (s : StatementScan) (t : Token) : Idle Lone s (s.settleBrace t).1 := by
  unfold settleBrace
  split
  · rename_i hbrace
    rw [Bool.and_eq_true] at hbrace
    exact idle_of_canEnd hbrace.2
  · trivial

/-- One step puts a terminator where no statement can end for a semicolon only. -/
theorem idle_step (hraw : t.IsRaw) (ht : t.kind = .semicolon → Lone (t.as .terminator)) :
    Idle Lone s (s.step t).1 := by
  cases hbreak : t.kind.isBreak with
  | true =>
    simp only [TokenKind.isBreak, Bool.or_eq_true, decide_eq_true_eq] at hbreak
    obtain hk | hk := hbreak
    · rw [step_of_newline hk]
      trivial
    · rw [step_of_semicolon hk]
      exact ⟨fun _ _ => ht hk, trivial⟩
  | false =>
    have hmember : (s.asMember t).kind ≠ .terminator := by
      unfold asMember
      split
      · intro hk
        cases hk
      · exact hraw.unsettled.1
    have hkind : ∀ s' : StatementScan, (s'.asBlock (s.asMember t)).kind ≠ .terminator := by
      intro s'
      unfold asBlock
      split
      · intro hk
        cases hk
      · exact hmember
    rw [step_of_not_isBreak hbreak]
    refine idle_append.2 ⟨idle_settleNewline _ _, Idle.of_alike ?_ (alike_settleNewline _ _)⟩
    exact idle_append.2 ⟨idle_settleBrace _ _, fun hk => absurd hk (hkind _), trivial⟩

theorem idle_steps
    (hts : ∀ t ∈ ts, t.IsRaw ∧ (t.kind = .semicolon → Lone (t.as .terminator))) :
    Idle Lone s (s.steps ts).1 := by
  induction ts generalizing s with
  | nil => trivial
  | cons t ts ih =>
    obtain ⟨⟨hraw, ht⟩, hts⟩ := List.forall_mem_cons.1 hts
    rw [steps_cons]
    exact idle_append.2 ⟨idle_step hraw ht, (ih hts).of_alike (alike_step s t)⟩

theorem idle_finish (s : StatementScan) : Idle Lone s s.finish := by
  unfold finish
  split
  · split
    · rename_i hends
      rw [Bool.and_eq_true] at hends
      exact idle_of_canEnd hends.1
    · trivial
  · trivial

end StatementScan

/-- A terminator in the place of a semicolon of the text. -/
def Tokens.EndedBySemicolon (ts : Tokens) (t : Token) : Prop :=
  ∃ r ∈ ts.tokens, r.kind = .semicolon ∧ t = r.as .terminator

theorem Tokens.idle_ofText (text : String) (base : Nat) :
    StatementScan.Idle (ofText text base).EndedBySemicolon {}
      (ofText text base).terminate.tokens := by
  have hsteps : StatementScan.Idle (ofText text base).EndedBySemicolon {}
      (StatementScan.steps {} (ofText text base).tokens).1 :=
    StatementScan.idle_steps fun t ht =>
      ⟨Lexer.scan_isRaw _ _ t ht, fun hk => ⟨t, ht, hk, rfl⟩⟩
  unfold terminate
  dsimp only
  split
  · exact StatementScan.idle_append.2
      ⟨hsteps, (StatementScan.idle_finish _).of_alike (StatementScan.alike_steps _ _)⟩
  · exact hsteps

/-! ### Branches without a statement -/

namespace Spot

variable {σ σ' : Spot} {b' : Behind} {k : TokenKind}

/-- A token that leads to one thing only, wherever it can come. -/
theorem behind_of_next (hmove : ∀ b : Behind, b.move k = some (.to b') ∨ b.move k = none)
    (h : σ.next k = some σ') : σ'.behind = b' := by
  unfold Spot.next at h
  obtain hm | hm := hmove σ.behind
  · rw [hm] at h
    obtain rfl := Option.some.inj h
    rfl
  · rw [hm] at h
    cases h

/-- Behind `else` stands a branch. -/
theorem behind_of_elseWord (h : σ.next .elseWord = some σ') : σ'.behind = .branch :=
  behind_of_next (fun b => by cases b <;> decide) h

/-- Behind the condition of a choice stands a branch. -/
theorem behind_of_condition [CharacterNames] {s : StatementScan} {t paren close : Token} {e : Expr}
    {c : List Token} (hs : Tracks s σ) (ht : t.kind = .ifWord) (hparen : paren.kind = .leftParen)
    (h : Derives (.expr e) c) (hclose : close.kind = .rightParen)
    (hwalk : σ.walk (t :: paren :: (c ++ [close])) = some σ') : σ'.behind = .branch := by
  obtain ⟨⟨o, b, n⟩, hif, hwalk⟩ := Option.bind_eq_some_iff.1 hwalk
  obtain ⟨σ₂, hopen, hwalk⟩ := Option.bind_eq_some_iff.1 hwalk
  rw [ht] at hif
  obtain rfl : b = .condition := behind_of_next (fun b => by cases b <;> decide) hif
  -- no bracket but those of blocks is around a choice
  have hinside : isInside o = false := by
    rw [Bool.eq_false_iff, Ne, (hs.emit hif).inside]
    exact nofun
  rw [hparen] at hopen
  obtain rfl : spot (.ifHead :: o) .expecting n = σ₂ := Option.some.inj hopen
  obtain ⟨b', -, hexpr⟩ := h.keeps (.ifHead :: o) .expecting n Behind.awaits_expecting
  rw [walk_append, hexpr.walk, Option.bind_some, walk, hclose, next_leave rfl rfl] at hwalk
  obtain rfl := Option.some.inj hwalk
  rw [spot_of_not_inside hinside]
  rfl

end Spot

section LoneBranches

variable {Lone : Token → Prop} {ts c : List Token} {σ : Spot} {fin : Token}

/-- **A terminator in the place of a branch** ends no statement. -/
theorem lone_of_branch (hidle : StatementScan.Idle Lone {} ts)
    (hwalk : Spot.walk ⟨[], .opening, 0⟩ ts = some σ) (hc : c ++ [fin] <:+: ts)
    (hbranch : ∀ s σ σ', Tracks s σ → σ.walk c = some σ' → σ'.behind = .branch)
    (hfin : fin.kind = .terminator) : Lone fin := by
  obtain ⟨front, back, rfl⟩ := hc
  rw [← List.append_assoc, List.append_assoc _ [fin]] at hidle hwalk
  rw [Spot.walk_append, Option.bind_eq_some_iff] at hwalk
  obtain ⟨σ₁, hwalk, -⟩ := hwalk
  have htracks := (Tracks.start {} rfl).emits hwalk
  rw [Spot.walk_append, Option.bind_eq_some_iff] at hwalk
  obtain ⟨σ₀, hfront, hwalk⟩ := hwalk
  have hσ₁ := hbranch _ σ₀ σ₁ ((Tracks.start {} rfl).emits hfront) hwalk
  exact (StatementScan.idle_append.1 hidle).2.1 hfin (htracks.branch hσ₁)

theorem LoneBranches.of_walk [CharacterNames] (hidle : StatementScan.Idle Lone {} ts)
    (hwalk : Spot.walk ⟨[], .opening, 0⟩ ts = some σ) : LoneBranches Lone ts where
  condition {t paren close fin e c} ht hparen h hclose hfin hc := by
    have hshape : t :: paren :: (c ++ close :: [fin])
        = (t :: paren :: (c ++ [close])) ++ [fin] := by simp
    exact lone_of_branch hidle hwalk (hshape ▸ hc)
      (fun _ _ _ hs => Spot.behind_of_condition hs ht hparen h hclose) hfin
  otherwise {other fin} hother hfin hc := by
    refine lone_of_branch (c := [other]) hidle hwalk hc (fun _ σ₀ σ₁ _ hwalk => ?_) hfin
    obtain ⟨σ₂, hnext, hend⟩ := Option.bind_eq_some_iff.1 hwalk
    obtain rfl := Option.some.inj hend
    exact Spot.behind_of_elseWord (hother ▸ hnext)

end LoneBranches

/-! ### Modules -/

/-- **The places of a module are those of its text**, from which numbers count from `base`. -/
structure Module.Placed [CharacterNames] (text : String) (base : Nat) (m : Module) : Prop where
  /-- Every part is written by tokens in a row and stands at the line and column of the first of
  them, unless it takes all exports of a module as one value, and then it does not. A branch without
  a statement is written by its semicolon. -/
  parts : ∀ n ∈ m.parts, ∃ own, own <:+: (Tokens.ofText text base).terminate.tokens ∧
    n.Spelled (Tokens.ofText text base).EndedBySemicolon own ∧
    (own.head?.map (·.origin.position) = some n.origin.position ↔ n.isNamespace = false)
  /-- Tokens that are read anew keep their texts and their places. -/
  retyped : List.Forall₂ Token.Retyped
    ((Tokens.ofText text base).tokens.filter (!·.kind.isBreak))
    ((Tokens.ofText text base).terminate.tokens.filter (·.kind ≠ .terminator))
  /-- The text of a token stands at its line and column. -/
  tokens : ∀ t ∈ (Tokens.ofText text base).tokens, t.origin.Marks text t.text
  /-- The name of an identifier stands at its line and column. -/
  names : ∀ id ∈ m.identifiers, id.origin.Marks text id.name
  /-- A walk through the parts meets the identifiers in their order. -/
  walk : Part.identifiers m.parts = m.identifiers
  /-- The identifiers come in the order of their lines and columns. -/
  increasing : m.identifiers.Pairwise fun id id' => id.origin.Before id'.origin
  /-- No two identifiers have the same line and column. -/
  distinct : (m.identifiers.map (·.origin.position)).Nodup

section Placed

variable {text : String} {base : Nat} {t t' : Token} {ts : List Token}

/-- Of two settled tokens the one with the smaller number comes before the other. -/
theorem Tokens.before_terminate (ht : t ∈ (ofText text base).terminate.tokens)
    (ht' : t' ∈ (ofText text base).terminate.tokens) (hk : t.kind ≠ .terminator)
    (hk' : t'.kind ≠ .terminator) (hlt : t.origin.id < t'.origin.id) :
    t.origin.Before t'.origin := by
  obtain ⟨r, hr, hretyped⟩ := exists_retyped ht hk
  obtain ⟨r', hr', hretyped'⟩ := exists_retyped ht' hk'
  rw [hretyped.keeps.2, hretyped'.keeps.2] at hlt ⊢
  exact before_ofText hr hr' hlt

/-- The numbers of settled tokens grow. -/
theorem Tokens.pairwise_numbers (text : String) (base : Nat) :
    (Token.numbers (ofText text base).terminate.tokens).Pairwise (· < ·) :=
  (Lexer.scan_numbers _ _).1.sublist (numbers_terminate _)

namespace Part

/-- A part that is written among the tokens of a text stands at the first of its own, but for the
specifier of all exports, which comes later. -/
theorem Spelled.position_first [CharacterNames] {Lone : Token → Prop} {n : Part} {own : List Token}
    (h : n.Spelled Lone own) (hown : own <:+: (Tokens.ofText text base).terminate.tokens) :
    own.head?.map (·.origin.position) = some n.origin.position ↔ n.isNamespace = false := by
  cases hn : n.isNamespace with
  | false =>
    obtain ⟨t, c, rfl, hto⟩ := h.first hn
    exact iff_of_true (by rw [← hto]; rfl) rfl
  | true =>
    obtain ⟨star, as, t, rfl, hstar, has, ht, hto⟩ := h.last_of_isNamespace hn
    have hnumbers := (Tokens.pairwise_numbers text base).sublist
      (Token.numbers_sublist hown.sublist)
    have hlt : star.origin.id < t.origin.id := by
      have hfirst : Token.numbers [star, as, t] = [star.origin.id, as.origin.id, t.origin.id] := by
        simp [Token.numbers, hstar, has, ht]
      rw [hfirst] at hnumbers
      exact List.rel_of_pairwise_cons hnumbers (by simp)
    have hbefore := Tokens.before_terminate (hown.subset (by simp)) (hown.subset (by simp))
      (by simp [hstar]) (by simp [ht]) hlt
    refine iff_of_false (fun heq => hbefore.position_ne ?_) Bool.noConfusion
    rw [hto]
    exact Option.some.inj heq

/-- What an identifier is written by was read at its place. -/
theorem exists_read [CharacterNames] {Lone : Token → Prop} {id : Identifier}
    (h : (identifier id).Written Lone (Tokens.ofText text base).terminate.tokens) :
    ∃ r ∈ (Tokens.ofText text base).tokens, r.text = id.name ∧ r.origin = id.origin := by
  obtain ⟨own, hown, hspelled⟩ := h
  obtain ⟨t, rfl, rfl, hk⟩ := hspelled.token_of_identifier
  obtain ⟨r, hr, hretyped⟩ := Tokens.exists_retyped (hown.subset (List.mem_singleton_self t)) hk
  exact ⟨r, hr, hretyped.keeps.1.symm, hretyped.keeps.2.symm⟩

end Part

namespace Module

/-- **The places of a module that was read are those of its text.** -/
theorem placed_of_parse [CharacterNames] {filename : Option String} {m : Module}
    (h : parse text filename base = .ok m) : m.Placed text base := by
  rw [parse] at h
  obtain ⟨body, hbody, h⟩ := Checked.bind_eq_ok.1 h
  obtain rfl := Checked.pure_eq_ok.1 h
  obtain ⟨-, hd⟩ := readTokens_derives hbody
  have hlone := LoneBranches.of_walk (Tokens.idle_ofText text base) hd.leads.walk
  have hwritten := hd.written hlone List.infix_rfl trivial
  have hread : ∀ id ∈ Stmt.identifiersList body, ∃ r ∈ (Tokens.ofText text base).tokens,
      r.text = id.name ∧ r.origin = id.origin := fun id hid =>
    Part.exists_read (hwritten _ (mem_parts_of_mem_identifiers (m := ⟨body, filename, base⟩) hid))
  have hnumbers : (Identifier.numbers (Stmt.identifiersList body)).Pairwise (· < ·) :=
    (Tokens.pairwise_numbers text base).sublist hd.identifiers_sublist
  have hincreasing : (Stmt.identifiersList body).Pairwise
      fun id id' => id.origin.Before id'.origin := by
    refine (List.pairwise_map.1 hnumbers).imp_of_mem fun {id id'} hid hid' hlt => ?_
    obtain ⟨r, hr, -, horigin⟩ := hread id hid
    obtain ⟨r', hr', -, horigin'⟩ := hread id' hid'
    rw [← horigin, ← horigin'] at hlt ⊢
    exact Tokens.before_ofText hr hr' hlt
  exact {
    parts := fun n hn => by
      obtain ⟨own, hown, hspelled⟩ := hwritten n hn
      exact ⟨own, hown, hspelled, hspelled.position_first hown⟩
    retyped := Tokens.retyped_ofText text base
    tokens := fun t ht => Tokens.marks_ofText ht
    names := fun id hid => by
      obtain ⟨r, hr, hname, horigin⟩ := hread id hid
      rw [← hname, ← horigin]
      exact Tokens.marks_ofText hr
    walk := identifiers_parts _
    increasing := hincreasing
    distinct := List.pairwise_map.2 (hincreasing.imp Origin.Before.position_ne) }

section

attribute [local instance] CharacterNames.nameless

/-- A branch without a statement stands at its semicolon. -/
theorem placed_of_parse_branch : ∃ m, parse "if (x);\nb.default" none 0 = .ok m ∧
    m.Placed "if (x);\nb.default" 0 ∧
    m.parts.map (·.origin.position) = [(1, 1), (1, 5), (1, 7), (2, 1), (2, 1), (2, 1)] := by
  have hparts : (parse "if (x);\nb.default" none 0).toOption.map
      (·.parts.map (·.origin.position))
        = some [(1, 1), (1, 5), (1, 7), (2, 1), (2, 1), (2, 1)] := by
    decide +kernel
  obtain ⟨m, hm, hpositions⟩ := Option.map_eq_some_iff.1 hparts
  have hparse := Except.eq_ok_of_toOption hm
  exact ⟨m, hparse, placed_of_parse hparse, hpositions⟩

/-- The specifier of all exports is written from the star at column 8 on and stands at column 13. -/
theorem parse_namespace_misplaced :
    ∃ m, parse "import * as ns from \"m\"" none 0 = .ok m ∧
      ∃ n ∈ m.parts, n.origin.position = (1, 13) ∧
        ∀ Lone own, own <:+: (Tokens.ofText "import * as ns from \"m\"" 0).terminate.tokens →
          n.Spelled Lone own → own.head?.map (·.origin.position) = some (1, 8) := by
  have hparts : (parse "import * as ns from \"m\"" none 0).toOption.map
      (·.parts.map fun n => (n.isNamespace, n.origin.position))
        = some [(false, (1, 1)), (true, (1, 13)), (false, (1, 13))] := by
    decide +kernel
  have hstars : ∀ t ∈ (Tokens.ofText "import * as ns from \"m\"" 0).terminate.tokens,
      t.kind = .star → t.origin.position = (1, 8) := by
    decide +kernel
  obtain ⟨m, hm, hpositions⟩ := Option.map_eq_some_iff.1 hparts
  have hmem : (true, (1, 13)) ∈ m.parts.map fun n => (n.isNamespace, n.origin.position) := by
    rw [hpositions]
    decide
  obtain ⟨n, hn, heq⟩ := List.mem_map.1 hmem
  obtain ⟨hnamespace, hposition⟩ := Prod.mk.inj heq
  refine ⟨m, Except.eq_ok_of_toOption hm, n, hn, hposition, fun Lone own hown hspelled => ?_⟩
  obtain ⟨star, as, t, rfl, hstar, -⟩ := hspelled.last_of_isNamespace hnamespace
  exact congrArg some (hstars star (hown.subset (List.mem_cons_self ..)) hstar)

end

end Module

end Placed

end MessageBinder
