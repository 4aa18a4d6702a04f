import Mathlib.Data.List.Induction
import MessageBinder.Proofs.Grammar.Completeness
import MessageBinder.Proofs.Grammar.Settling
import MessageBinder.Proofs.Grammar.Unplaced
import MessageBinder.Proofs.Token.Cutting

/-!
# The joint of a text

A text is cut into two parts, and between them stands a newline, a blank, or a semicolon with a
newline. What it writes is told by three lists of tokens (`MessageBinder.exists_parse_iff`): those
of the two parts, each read on its own, and what stands at the joint. Places do not count.

Behind the first part settling the ends of the statements is in one state, and the rest flows from
there (`MessageBinder.StatementScan.flow`). A newline at the joint either changes nothing of the
flow or puts one terminator in front of it.
-/

namespace MessageBinder

namespace StatementScan

/-- What tokens flow into from a state on, to the end of the text. -/
def flow (s : StatementScan) (ts : List Token) : List Token :=
  (s.steps ts).1 ++ (s.steps ts).2.finish

variable {s s' : StatementScan} {t n : Token} {ts : List Token}

theorem flow_cons (s : StatementScan) (t : Token) (ts : List Token) :
    s.flow (t :: ts) = (s.step t).1 ++ (s.step t).2.flow ts := by
  simp only [flow, steps_cons, List.append_assoc]

theorem flow_append (s : StatementScan) (ts ts' : List Token) :
    s.flow (ts ++ ts') = (s.steps ts).1 ++ (s.steps ts).2.flow ts' := by
  simp only [flow, steps_append, List.append_assoc]

/-- States that agree flow alike. -/
theorem Agrees.flow {α : Type} {V : Token.View α} {ts' : List Token} (h : s.Agrees V s')
    (hts : ts'.map V.see = ts.map V.see) : (s'.flow ts').map V.see = (s.flow ts).map V.see := by
  have hsteps := h.steps hts
  simp only [StatementScan.flow, List.map_append, hsteps.seen, hsteps.agrees.finish]

/-- Tokens that show the same flow into such. -/
theorem flow_told {ts' : List Token} (s : StatementScan) (h : Told ts ts') :
    Told (s.flow ts) (s.flow ts') := (Agrees.refl .placeless s).flow h

/-- States that agree flow into tokens that show the same. -/
theorem Agrees.told (h : s.Agrees .placeless s') (ts : List Token) :
    Told (s.flow ts) (s'.flow ts) := h.flow rfl

/-- States that agree in everything that is seen flow into the same. -/
theorem Agrees.flow_eq (h : s.Agrees .whole s') (ts : List Token) : s'.flow ts = s.flow ts := by
  have hflow : (s'.flow ts).map Token.View.whole.see = (s.flow ts).map _ := h.flow rfl
  exact (List.map_id _).symm.trans (hflow.trans (List.map_id _))

/-! ### Behind a text -/

theorem endsStatement_of_canEnd_emits (s : StatementScan) {out : List Token} (hout : out ≠ [])
    (h : (s.emits out).canEnd) : (s.emits out).last.any TokenKind.endsStatement := by
  obtain ⟨pre, t, rfl⟩ := (List.eq_nil_or_concat out).resolve_left hout
  have hemits : s.emits (pre.concat t) = (s.emits pre).emit t.kind := by
    rw [List.concat_eq_append]
    exact emits_append s pre [t]
  rw [hemits] at h ⊢
  rw [last_emit, Option.any_some]
  cases hends : t.kind.endsStatement with
  | true => rfl
  | false =>
    rw [canEnd_emit_of_not hends] at h
    cases h

/-- Where a statement can end, one ends with the kind emitted last. -/
theorem endsStatement_of_canEnd (h : (steps {} ts).2.canEnd) :
    (steps {} ts).2.last.any TokenKind.endsStatement := by
  obtain ⟨-, hends, hlast, -⟩ := alike_steps {} ts
  rw [hlast]
  rw [hends] at h
  refine endsStatement_of_canEnd_emits {} (fun hnil => ?_) h
  rw [hnil] at h
  cases h

/-- Where a statement can end, there is a token that it ends with. -/
theorem lastToken_of_canEnd (h : (steps {} ts).2.canEnd) : (steps {} ts).2.lastToken.isSome := by
  induction ts using List.reverseRecOn with
  | nil => cases h
  | append_singleton ts t ih =>
    rw [steps_append] at h ⊢
    simp only [steps] at h ⊢
    by_cases hk : t.kind = .newline
    · rw [step_of_newline hk] at h ⊢
      exact ih h
    · unfold step
      split
      · contradiction
      · rfl
      · rfl

theorem ne_of_endsStatement {k : TokenKind} (hk : k.endsStatement = false)
    (h : s.last.any TokenKind.endsStatement) : s.last ≠ some k := by
  intro hlast
  rw [hlast, Option.any_some, hk] at h
  cases h

/-! ### A newline at the joint -/

/-- The state behind a terminator, when nothing waits any more. -/
def closed (s : StatementScan) : StatementScan := { s.terminated with newline := none }

/-- Takes a token that ends no line and no statement, when no newline waits. -/
def place (s : StatementScan) (t : Token) : List Token × StatementScan :=
  let t' := (s.settleBrace t).2.asBlock t
  ((s.settleBrace t).1 ++ [t'], { (s.settleBrace t).2.shift t'.kind with lastToken := some t' })

theorem kind_asBlock (s : StatementScan) (t : Token) :
    (s.asBlock t).kind = t.kind ∨ (s.asBlock t).kind = .blockBrace ∧ t.kind = .leftBrace := by
  unfold asBlock
  split
  · rename_i hbrace
    simp only [Bool.and_eq_true, decide_eq_true_eq] at hbrace
    exact .inr ⟨rfl, hbrace.1⟩
  · exact .inl rfl

/-- A token is placed when what waits has been settled. -/
theorem step_eq_place (hline : n.kind ≠ .newline) (hsemicolon : n.kind ≠ .semicolon) :
    s.step n = ((s.settleNewline (s.asMember n).kind).1
        ++ ((s.settleNewline (s.asMember n).kind).2.place (s.asMember n)).1,
      ((s.settleNewline (s.asMember n).kind).2.place (s.asMember n)).2) := by
  unfold step
  split
  · contradiction
  · contradiction
  · exact Prod.ext (List.append_assoc ..) rfl

section Newline

variable {nl : Token} (hnl : nl.kind = .newline)
include hnl

/-- A newline is nothing inside brackets, where no statement can end, and behind another one. -/
theorem flow_newline_of_idle
    (h : s.stack.head?.any (· ≠ .block) ∨ s.canEnd = false ∨ s.newline.isSome) (ts : List Token) :
    s.flow (nl :: ts) = s.flow ts := by
  rw [flow_cons, (agrees_newline hnl h).flow_eq, step_of_newline hnl]
  rfl

theorem flow_newline_nil (s : StatementScan) : s.flow [nl] = s.flow [] := by
  rw [flow_cons, step_of_newline hnl]
  rfl

theorem flow_newline_newline (s : StatementScan) (hn : n.kind = .newline) (ts : List Token) :
    s.flow (nl :: n :: ts) = s.flow (nl :: ts) := by
  rw [flow_cons, flow_cons, flow_cons, step_of_newline hnl, step_of_newline hn]
  cases s.newline <;> rfl

theorem flow_newline_semicolon (s : StatementScan) (hn : n.kind = .semicolon) (ts : List Token) :
    s.flow (nl :: n :: ts) = s.flow (n :: ts) := by
  rw [flow_cons, flow_cons, flow_cons, step_of_newline hnl, step_of_semicolon hn,
    step_of_semicolon hn]
  rfl

/-- A newline that breaks nothing changes nothing. -/
theorem flow_newline_of_not_breaks (hn : s.breaksBefore (s.asMember n).kind = false)
    (hline : n.kind ≠ .newline) (hsemicolon : n.kind ≠ .semicolon) (ts : List Token) :
    s.flow (nl :: n :: ts) = s.flow (n :: ts) := by
  have hstep : StatementScan.step { s with newline := s.newline <|> some nl } n = s.step n := by
    have hn' : StatementScan.breaksBefore { s with newline := s.newline <|> some nl }
        (s.asMember n).kind = false := hn
    have hmember : StatementScan.asMember { s with newline := s.newline <|> some nl } n
        = s.asMember n := rfl
    rw [step_eq_place hline hsemicolon, step_eq_place hline hsemicolon, hmember,
      settleNewline_eq, settleNewline_eq, hn, hn', Bool.and_false, Bool.and_false]
    rfl
  rw [flow_cons, step_of_newline hnl, List.nil_append, flow_cons, hstep, flow_cons]

/-- A newline that breaks a statement is a terminator. -/
theorem flow_newline_of_breaks (hn : s.breaksBefore n.kind)
    (hlast : s.last.any TokenKind.endsStatement) (hline : n.kind ≠ .newline)
    (hsemicolon : n.kind ≠ .semicolon) (ts : List Token) :
    ∃ t, t.kind = .terminator ∧ s.flow (nl :: n :: ts)
      = t :: s.closed.flow (n :: ts) := by
  refine ⟨((s.newline <|> some nl).getD default).as .terminator, rfl, ?_⟩
  have hstep : StatementScan.step { s with newline := s.newline <|> some nl } n
      = (((s.newline <|> some nl).getD default).as .terminator
          :: (s.closed.step n).1,
        (s.closed.step n).2) := by
    have hn' : StatementScan.breaksBefore { s with newline := s.newline <|> some nl } n.kind := hn
    have hsome : (s.newline <|> some nl).isSome := by cases s.newline <;> rfl
    have hmember : StatementScan.asMember { s with newline := s.newline <|> some nl } n = n :=
      asMember_eq fun _ => ne_of_endsStatement (k := .dot) rfl hlast
    have hmember' : s.closed.asMember n = n :=
      asMember_eq fun _ => nofun
    rw [step_eq_place hline hsemicolon, step_eq_place hline hsemicolon, hmember, hmember',
      settleNewline_eq, settleNewline_eq, hn']
    simp only [hsome, Bool.and_true, if_true]
    rfl
  rw [flow_cons, step_of_newline hnl, List.nil_append, flow_cons, hstep, flow_cons]
  rfl

end Newline

end StatementScan

/-! ### What tokens write, but for places -/

/-- **Tokens tell statements**, of which the places are left out. -/
def Tells [CharacterNames] (c : List Token) (ss : List Stmt) : Prop :=
  ∃ ss', Derives (.body ss') c ∧ Stmt.unplacedList ss' = ss

namespace Tells

variable {c c' : List Token} {ss ss' : List Stmt}

theorem told [CharacterNames] (h : Tells c ss) (hc : Told c c') : Tells c' ss := by
  obtain ⟨ss', h, rfl⟩ := h
  obtain ⟨ss'', hss, h'⟩ := h.retold _ hc
  exact ⟨ss'', h', hss⟩

theorem told_iff [CharacterNames] (hc : Told c c') : Tells c' ss ↔ Tells c ss :=
  ⟨fun h => h.told hc.symm, fun h => h.told hc⟩

/-- Tokens tell one thing only. -/
theorem unique [CharacterNames] (h : Tells c ss) (h' : Tells c ss') : ss' = ss := by
  obtain ⟨tree, h, rfl⟩ := h
  obtain ⟨tree', h', rfl⟩ := h'
  have hread : readTokens ⟨c, none⟩ = .ok tree := readTokens_eq_ok_iff.2 ⟨rfl, h⟩
  have hread' : readTokens ⟨c, none⟩ = .ok tree' := readTokens_eq_ok_iff.2 ⟨rfl, h'⟩
  rw [Except.ok.inj (hread.symm.trans hread')]

end Tells

mutual

theorem Expr.statements_unplaced : ∀ e : Expr, e.unplaced.statements = e.statements
  | .name _ | .literal .. | .verbatim .. => rfl
  | .array es _ => Expr.statementsList_unplacedList es
  | .object ps _ => Property.statementsList_unplacedList ps
  | .member e _ _ | .unary _ e _ | .group e _ | .arrow _ e _ => by
    simp only [Expr.unplaced, Expr.statements, Expr.statements_unplaced e]
  | .index e i _ => by
    simp only [Expr.unplaced, Expr.statements, Expr.statements_unplaced e,
      Expr.statements_unplaced i]
  | .call f as _ => by
    simp only [Expr.unplaced, Expr.statements, Expr.statements_unplaced f,
      Expr.statementsList_unplacedList as]
  | .binary _ l r _ => by
    simp only [Expr.unplaced, Expr.statements, Expr.statements_unplaced l,
      Expr.statements_unplaced r]
  | .conditional t c a _ => by
    simp only [Expr.unplaced, Expr.statements, Expr.statements_unplaced t,
      Expr.statements_unplaced c, Expr.statements_unplaced a]
  | .assign _ t v _ => by
    simp only [Expr.unplaced, Expr.statements, Expr.statements_unplaced t,
      Expr.statements_unplaced v]
  | .arrowBlock _ b _ => by
    simp only [Expr.unplaced, Expr.statements, Block.statements_unplaced b]

theorem Expr.statementsList_unplacedList :
    ∀ es, Expr.statementsList (Expr.unplacedList es) = Expr.statementsList es
  | [] => rfl
  | e :: es => by
    simp only [Expr.unplacedList, Expr.statementsList, Expr.statements_unplaced e,
      Expr.statementsList_unplacedList es]

theorem Property.statements_unplaced : ∀ p : Property, p.unplaced.statements = p.statements
  | ⟨_, value, _, _, _⟩ => by
    simp only [Property.unplaced, Property.statements, Expr.statements_unplaced value]

theorem Property.statementsList_unplacedList :
    ∀ ps, Property.statementsList (Property.unplacedList ps) = Property.statementsList ps
  | [] => rfl
  | p :: ps => by
    simp only [Property.unplacedList, Property.statementsList, Property.statements_unplaced p,
      Property.statementsList_unplacedList ps]

theorem Declarator.statements_unplaced : ∀ d : Declarator, d.unplaced.statements = d.statements
  | ⟨_, none, _⟩ => rfl
  | ⟨_, some e, _⟩ => by
    simp only [Declarator.unplaced, Declarator.statements, Expr.statements_unplaced e]

theorem Declarator.statementsList_unplacedList :
    ∀ ds, Declarator.statementsList (Declarator.unplacedList ds) = Declarator.statementsList ds
  | [] => rfl
  | d :: ds => by
    simp only [Declarator.unplacedList, Declarator.statementsList, Declarator.statements_unplaced d,
      Declarator.statementsList_unplacedList ds]

theorem Block.statements_unplaced : ∀ b : Block, b.unplaced.statements = b.statements
  | ⟨body, _⟩ => Stmt.statementsList_unplacedList body

theorem Declaration.statements_unplaced : ∀ d : Declaration, d.unplaced.statements = d.statements
  | .variables _ ds _ => Declarator.statementsList_unplacedList ds
  | .function _ _ b _ => Block.statements_unplaced b

theorem Stmt.statements_unplaced : ∀ s : Stmt, s.unplaced.statements = s.statements
  | .importDecl .. | .exportNamed .. | .exportAll .. | .returnValue none _ => rfl
  | .exportDecl d _ | .declaration d => by
    simp only [Stmt.unplaced, Stmt.statements, Declaration.statements_unplaced d]
  | .exportDefault e _ | .returnValue (some e) _ | .expr e _ => by
    simp only [Stmt.unplaced, Stmt.statements, Expr.statements_unplaced e]
  | .block b => by simp only [Stmt.unplaced, Stmt.statements, Block.statements_unplaced b]
  | .ifThen t c none _ => by
    simp only [Stmt.unplaced, Stmt.statements, Expr.statements_unplaced t,
      Stmt.statements_unplaced c]
  | .ifThen t c (some a) _ => by
    simp only [Stmt.unplaced, Stmt.statements, Expr.statements_unplaced t,
      Stmt.statements_unplaced c, Stmt.statements_unplaced a]

/-- Leaving out the places leaves the statements. -/
theorem Stmt.statementsList_unplacedList :
    ∀ ss, Stmt.statementsList (Stmt.unplacedList ss) = Stmt.statementsList ss
  | [] => rfl
  | s :: ss => by
    simp only [Stmt.unplacedList, Stmt.statementsList, Stmt.statements_unplaced s,
      Stmt.statementsList_unplacedList ss]

end

/-- The course leads to the end of what is written, through all its statements. -/
theorem Tells.walk [CharacterNames] {c : List Token} {ss : List Stmt} (h : Tells c ss) :
    Spot.walk ⟨[], .opening, 0⟩ c = some ⟨[], .opening, Stmt.statementsList ss⟩ := by
  obtain ⟨ss', h, rfl⟩ := h
  rw [Stmt.statementsList_unplacedList]
  exact h.leads.walk

/-- **A spare terminator can be left out.** -/
theorem Tells.spare [CharacterNames] {c d : List Token} {t : Token} {ss : List Stmt} {σ : Spot}
    (h : Tells (c ++ t :: d) ss) (hc : Spot.walk ⟨[], .opening, 0⟩ c = some σ)
    (hσ : σ.behind = .opening) (ht : t.kind = .terminator) : Tells (c ++ d) ss := by
  obtain ⟨ss', h, rfl⟩ := h
  refine ⟨ss', h.leads.spares _ ?_, rfl⟩
  have hwalk := h.leads.walk
  rw [Spot.walk_append, hc, Option.bind_some, Spot.walk, Spot.next_spare hσ ht,
    Option.bind_some] at hwalk
  exact .prepend hc (.drop hσ ht (.of_walk hwalk))

/-! ### The tokens of the parts -/

namespace Lexer

/-- What is read does not depend on the place, but for places. -/
theorem scan_told (o o' : Origin) (cs : List Char) :
    Told (scan o cs).tokens (scan o' cs).tokens ∧
      ((scan o' cs).stop = none ↔ (scan o cs).stop = none) := by
  fun_induction scan o cs generalizing o' with
  | case1 => simp [scan, Told]
  | case2 o c cs n hgap ih =>
    rw [scan, hgap]
    exact ih _
  | case3 o c cs hgap kind n htoken text rest ih =>
    obtain ⟨htold, hstop⟩ := ih (o'.advance text)
    rw [scan, hgap]
    simp only [htoken]
    exact ⟨congrArg (List.cons _) htold, hstop⟩
  | case4 o c cs hgap htoken =>
    rw [scan, hgap]
    simp [htoken, Told]

end Lexer

/-- **What stands at a joint** is set apart from what is in front and read as tokens of its own. -/
structure Joins (x : String) (mid : List Token) : Prop where
  parted (cs : List Char) : Lexer.Parted (x.toList ++ cs)
  scan (o : Origin) (cs : List Char) : ∃ o' mid', Told mid mid' ∧
    Lexer.scan o (x.toList ++ cs) = (Lexer.scan o' cs).behind mid'

/-- A newline without a place. -/
def newlineToken : Token := ⟨.newline, "\n", default⟩

/-- A semicolon without a place. -/
def semicolonToken : Token := ⟨.semicolon, ";", default⟩

theorem scan_newline (o : Origin) (cs : List Char) :
    Lexer.scan o ('\n' :: cs)
      = (Lexer.scan (o.next '\n') cs).behind [⟨.newline, "\n", o⟩] :=
  Lexer.scan_front ⟨'\n', [], rfl, rfl, rfl⟩ o

theorem scan_semicolon (o : Origin) (cs : List Char) :
    Lexer.scan o (';' :: cs)
      = (Lexer.scan (o.next ';') cs).behind [⟨.semicolon, ";", o⟩] :=
  Lexer.scan_front ⟨';', [], rfl, rfl, rfl⟩ o

theorem joins_blank : Joins " " [] where
  parted _ := by
    rintro c ⟨⟩
    exact .inr (.inl rfl)
  scan o cs := ⟨o.next ' ', [], rfl, Lexer.scan_blank rfl o cs⟩

theorem joins_newline : Joins "\n" [newlineToken] where
  parted _ := by
    rintro c ⟨⟩
    exact .inl rfl
  scan o cs := ⟨o.next '\n', [⟨.newline, "\n", o⟩], rfl, scan_newline o cs⟩

theorem joins_semicolon_newline : Joins ";\n" [semicolonToken, newlineToken] where
  parted _ := by
    rintro c ⟨⟩
    exact .inr (.inr rfl)
  scan o cs := by
    refine ⟨(o.next ';').next '\n', [⟨.semicolon, ";", o⟩, ⟨.newline, "\n", o.next ';'⟩], rfl, ?_⟩
    have htext : ";\n".toList ++ cs = ';' :: '\n' :: cs := rfl
    rw [htext, scan_semicolon, scan_newline, Tokens.behind_behind]
    rfl

theorem Tokens.terminate_of_stop {ts : Tokens} (h : ts.stop = none) :
    ts.terminate = ⟨StatementScan.flow {} ts.tokens, none⟩ := by
  unfold Tokens.terminate StatementScan.flow
  simp [h]

section Parse

variable {text before after x : String} {filename : Option String} {base : Nat} {ss : List Stmt}

/-- What a text is parsed as is what its tokens tell. -/
theorem exists_parse_iff_tells [CharacterNames] :
    (∃ m, Module.parse text filename base = .ok m ∧ Stmt.unplacedList m.body = ss) ↔
      (Tokens.ofText text base).stop = none ∧
        Tells (StatementScan.flow {} (Tokens.ofText text base).tokens) ss := by
  have hstop : (Tokens.ofText text base).terminate.stop = (Tokens.ofText text base).stop := rfl
  constructor
  · rintro ⟨m, hm, hss⟩
    rw [Module.parse] at hm
    obtain ⟨body, hbody, hm⟩ := Checked.bind_eq_ok.1 hm
    obtain rfl := Checked.pure_eq_ok.1 hm
    obtain ⟨hnone, hderives⟩ := readTokens_eq_ok_iff.1 hbody
    rw [hstop] at hnone
    rw [Tokens.terminate_of_stop hnone] at hderives
    exact ⟨hnone, body, hderives, hss⟩
  · rintro ⟨hnone, body, hderives, rfl⟩
    have hread : readTokens (Tokens.ofText text base).terminate = .ok body := by
      rw [Tokens.terminate_of_stop hnone]
      exact readTokens_eq_ok_iff.2 ⟨rfl, hderives⟩
    exact ⟨⟨body, filename, base + text.length + 1⟩, by rw [Module.parse, hread]; rfl, rfl⟩

/-- Modules with the same file name are compared by their statements. -/
theorem Module.unplaced_eq_iff [CharacterNames] {text' : String} {base' : Nat} {m m' : Module}
    (h : Module.parse text filename base = .ok m)
    (h' : Module.parse text' filename base' = .ok m') :
    m'.unplaced = m.unplaced ↔ Stmt.unplacedList m'.body = Stmt.unplacedList m.body := by
  obtain ⟨body, -, hm⟩ := Checked.bind_eq_ok.1 h
  obtain rfl := Checked.pure_eq_ok.1 hm
  obtain ⟨body', -, hm'⟩ := Checked.bind_eq_ok.1 h'
  obtain rfl := Checked.pure_eq_ok.1 hm'
  exact ⟨congrArg Module.body, fun hbody => congrArg (Module.mk · filename 0) hbody⟩

/-- **A text with a joint tells what its parts tell** with what stands at the joint between. -/
theorem exists_parse_iff [CharacterNames] {rest : List Char} {mid : List Token}
    (hcut : Lexer.Cuts before.toList rest) (hrest : Lexer.Parted rest)
    (hx : Joins x mid) :
    (∃ m, Module.parse (before ++ x ++ after) filename base = .ok m ∧
        Stmt.unplacedList m.body = ss) ↔
      (Tokens.ofText after base).stop = none ∧
        Tells (StatementScan.flow {} ((Tokens.ofText before base).tokens
          ++ (mid ++ (Tokens.ofText after base).tokens))) ss := by
  rw [exists_parse_iff_tells]
  obtain ⟨ts, hts⟩ := hcut.scan hrest ⟨base, 1, 1⟩
  have hbefore : (Tokens.ofText before base).tokens = ts := by
    have hall := hts [] nofun
    rw [List.append_nil] at hall
    rw [Tokens.ofText, hall]
    simp [Tokens.behind, Lexer.scan]
  obtain ⟨o', mid', hmid, hscan⟩ := hx.scan (Origin.advance ⟨base, 1, 1⟩ before.toList) after.toList
  have htext : Tokens.ofText (before ++ x ++ after) base
      = ((Lexer.scan o' after.toList).behind mid').behind ts := by
    rw [Tokens.ofText, String.toList_append, String.toList_append, List.append_assoc,
      hts _ (hx.parted _), hscan]
  obtain ⟨htold, hstop⟩ := Lexer.scan_told ⟨base, 1, 1⟩ o' after.toList
  have hflow : Told
      (StatementScan.flow {} (ts ++ (mid ++ (Lexer.scan ⟨base, 1, 1⟩ after.toList).tokens)))
      (StatementScan.flow {} (ts ++ (mid' ++ (Lexer.scan o' after.toList).tokens))) :=
    StatementScan.flow_told _ (Told.join rfl (hmid.join htold))
  rw [htext, hbefore]
  exact and_congr hstop (Tells.told_iff hflow)

end Parse

end MessageBinder
