import MessageBinder.Proofs.Grammar.FirstFault
import MessageBinder.Proofs.Token.Conservation

/-!
# What parsing comes to

A text is a module, or it has a fault at a place, or a literal in it has no value and is reported
without a place: a string that cannot be read, or an integer with too many digits. The last is told
by the tokens alone, for each of the two kinds (`MessageBinder.Module.parse_outcome`): it happens if
and only if the text has the form of a module and would be read otherwise if the literals of the
kind without a value had one. So a text whose literals have values comes to a module or to a fault
at a place; and one that is a module but for its literals of a kind comes to a module only if they
have.

Which strings have values depends on the names that characters go by, whatever they are.
-/

namespace MessageBinder

section

variable [CharacterNames]

/-! ### Places -/

/-- Whether an origin is a place of a text. Lines and columns count from one. -/
structure Origin.IsPlace (o : Origin) : Prop where
  line : 1 ≤ o.line
  column : 1 ≤ o.column

omit [CharacterNames] in
theorem Origin.IsPlace.advance {o : Origin} (h : o.IsPlace) (text : List Char) :
    (o.advance text).IsPlace := by
  induction text generalizing o with
  | nil => exact h
  | cons c text ih =>
    refine ih ?_
    unfold Origin.next
    split
    · exact ⟨Nat.le_succ_of_le h.line, Nat.le_refl 1⟩
    · exact ⟨h.line, Nat.le_succ_of_le h.column⟩

omit [CharacterNames] in
/-- Tokens and the character that stops the lexer stand at places of the text. -/
theorem Lexer.scan_isPlace {o : Origin} (ho : o.IsPlace) (cs : List Char) :
    (∀ t ∈ (scan o cs).tokens, t.origin.IsPlace) ∧
      ∀ p ∈ (scan o cs).stop, p.2.IsPlace := by
  fun_induction scan o cs with
  | case1 => constructor <;> rintro _ ⟨⟩
  | case2 o c cs n hgap ih => exact ih (ho.advance _)
  | case3 o c cs hgap kind n htoken text rest ih =>
    obtain ⟨htokens, hstop⟩ := ih (ho.advance text)
    exact ⟨List.forall_mem_cons.2 ⟨ho, htokens⟩, hstop⟩
  | case4 o c cs hgap htoken =>
    constructor <;> rintro _ ⟨⟩
    exact ho

omit [CharacterNames] in
theorem Tokens.isPlace_terminate (text : String) (base : Nat) :
    (∀ t ∈ (ofText text base).terminate.tokens, t.origin.IsPlace) ∧
      ∀ p ∈ (ofText text base).terminate.stop, p.2.IsPlace := by
  obtain ⟨htokens, hstop⟩ := Lexer.scan_isPlace (o := ⟨base, 1, 1⟩) ⟨Nat.le_refl 1, Nat.le_refl 1⟩
    text.toList
  refine ⟨fun t ht => ?_, hstop⟩
  obtain hmem | ⟨t', hlast, -⟩ := (account_ofText text base).origin_mem ht
  · obtain ⟨t', ht', horigin⟩ := List.mem_map.1 hmem
    exact horigin ▸ htokens t' ht'
  · cases hlast

/-! ### Literals without a value -/

/-- The tokens, with readable literals in the stead of those of the kind without a value. -/
def Tokens.mended (k : TokenKind) (ts : Tokens) : Tokens :=
  { ts with tokens := ts.tokens.map (Token.mended k) }

omit [CharacterNames] in
theorem Stop.isUnexpected_error (ts : Tokens) (s : Stop) : (s.error ts).isUnexpected := by
  unfold Stop.error
  split
  · rfl
  · split <;> rfl

section Mended

variable {ts : Tokens} {k : TokenKind}

/-- Tokens that the grammar derives are read as they are when they are mended, but for literals
without a value. -/
theorem mends_readTokens {mend : Mending} (hplace : ∀ t ∈ ts.tokens, mend.place t.origin)
    (hstop : ts.stop = none) (hderivable : Derivable ts.tokens) :
    Checked.Mends mend (readTokens ts) (readTokens (ts.mended mend.kind)) := by
  have hlate : Checked.Late (readTokens ts) := by
    obtain ⟨-, hlate⟩ | ⟨e, -, -, hfault⟩ := readTokens_cases hstop
    · exact hlate
    · exact absurd hderivable hfault.not_derivable
  have hdepth : maxDepth (ts.tokens.map (Token.mended mend.kind)) = maxDepth ts.tokens := by
    rw [maxDepth, maxDepth, List.length_map]
  cases hread : readStatements (maxDepth ts.tokens) ts.tokens with
  | error s =>
    have herror : readTokens ts = .error (s.error ts) := by rw [readTokens, hread]
    have hunexpected := hlate _ herror
    rw [Stop.isUnexpected_error] at hunexpected
    cases hunexpected
  | ok r =>
    obtain ⟨rs, rest⟩ := r
    obtain ⟨rs', hread', hmends, -⟩ := mends_readStatements mend _ _ _ _ hplace hread
    rw [← hdepth] at hread'
    simp only [readTokens, Tokens.mended, hread, hread', hstop]
    exact hmends

/-- Where a character stopped the lexer, reading stops at a place of the text as well. -/
theorem readTokens_of_stop {c : Char} {o : Origin} (hstop : ts.stop = some (c, o)) :
    ∃ f o', readTokens ts = .error (.faultAt f o') ∧ (o' = o ∨ ∃ t ∈ ts.tokens, o' = t.origin) := by
  have hfollows : Parse.Follows 0 (readStatements (maxDepth ts.tokens)) ts.tokens
      Rule.start.language fun _ => 1 := follows_readStatements (by unfold maxDepth; omega)
  obtain ⟨hread, -, -, -⟩ | ⟨hread, hts, -, -⟩ := hfollows
  · rw [readTokens, hread, hstop]
    exact ⟨_, o, rfl, Or.inl rfl⟩
  · rename_i rest
    rw [readTokens, hread]
    cases rest with
    | nil =>
      simp only [Stop.error, hstop]
      exact ⟨_, o, rfl, Or.inl rfl⟩
    | cons t rest => exact ⟨_, t.origin, rfl, Or.inr ⟨t, by simp [hts], rfl⟩⟩

/-- **A literal of a kind without a value is reported** if and only if the tokens have the form of a
module and are read otherwise when they are mended. -/
theorem readTokens_literal_iff :
    (∃ e, readTokens ts = .error e ∧ e.literal? = some k) ↔
      ts.stop = none ∧ Derivable ts.tokens ∧ readTokens (ts.mended k) ≠ readTokens ts := by
  constructor
  · rintro ⟨e, he, hkind⟩
    have hstop : ts.stop = none := by
      cases hstop : ts.stop with
      | none => rfl
      | some p =>
        obtain ⟨_, _, herror, -⟩ := readTokens_of_stop hstop
        rw [Except.error.inj (he.symm.trans herror)] at hkind
        cases hkind
    obtain ⟨hderivable, -⟩ | ⟨e', herror, hunexpected, -⟩ := readTokens_cases hstop
    · refine ⟨hstop, hderivable, fun heq => ?_⟩
      have hmends : Checked.Mends ⟨k, fun _ => True⟩ (readTokens ts) (readTokens (ts.mended k)) :=
        mends_readTokens (fun _ _ => trivial) hstop hderivable
      obtain ⟨f, o, rfl, -⟩ | ⟨k', hk', hne⟩ := hmends.late _ (heq.trans he)
      · cases hkind
      · exact hne (Option.some.inj (hk'.symm.trans hkind))
    · obtain rfl := Except.error.inj (he.symm.trans herror)
      rw [e.isUnexpected_of_literal? hkind] at hunexpected
      cases hunexpected
  · rintro ⟨hstop, hderivable, hne⟩
    have hmends : Checked.Mends ⟨k, fun _ => True⟩ (readTokens ts) (readTokens (ts.mended k)) :=
      mends_readTokens (fun _ _ => trivial) hstop hderivable
    exact hmends.eq.resolve_left hne

/-- A fault is at a place where a token stands or where the lexer stopped. -/
theorem isPlace_of_readTokens (htokens : ∀ t ∈ ts.tokens, t.origin.IsPlace)
    (hplace : ∀ p ∈ ts.stop, p.2.IsPlace) {f : SyntaxFault} {line column : Nat}
    (h : readTokens ts = .error (.fault f line column)) : 1 ≤ line ∧ 1 ≤ column := by
  have hat : ∀ {f' : SyntaxFault} {o : Origin}, o.IsPlace →
      ModuleError.fault f line column = .faultAt f' o → 1 ≤ line ∧ 1 ≤ column := by
    rintro f' o ho ⟨⟩
    exact ⟨ho.line, ho.column⟩
  cases hstop : ts.stop with
  | some p =>
    obtain ⟨f', o, herror, hplaces⟩ := readTokens_of_stop hstop
    refine hat (o := o) ?_ (Except.error.inj (h.symm.trans herror))
    obtain rfl | ⟨t, ht, rfl⟩ := hplaces
    · exact hplace _ hstop
    · exact htokens t ht
  | none =>
    obtain ⟨hderivable, -⟩ | ⟨e, herror, -, hfault⟩ := readTokens_cases hstop
    · have hmends : Checked.Mends ⟨.string, Origin.IsPlace⟩ (readTokens ts)
          (readTokens (ts.mended .string)) := mends_readTokens htokens hstop hderivable
      obtain heq | ⟨e, he, hkind⟩ := hmends.eq
      · obtain ⟨f', o, hf, -, ho⟩ | ⟨k, hk, -⟩ := hmends.late _ (heq.trans h)
        · exact hat ho hf
        · cases hk
      · rw [← Except.error.inj (h.symm.trans he)] at hkind
        cases hkind
    · have he := Except.error.inj (h.symm.trans herror)
      cases hfault with
      | token hts =>
        refine hat ?_ he
        exact htokens _ (by simp [hts])
      | atEnd hlast => exact hat (htokens _ (List.mem_of_getLast? hlast)) he

end Mended

/-! ### Literals with a value -/

/-- Tokens whose literals have values. -/
def Readable (c : List Token) : Prop := ∀ t ∈ c, t.isReadable

theorem Readable.nil : Readable [] := nofun

theorem Readable.append {c c' : List Token} (h : Readable c) (h' : Readable c') :
    Readable (c ++ c') := List.forall_mem_append.2 ⟨h, h'⟩

theorem Readable.cons {t : Token} {c : List Token} (ht : t.isReadable) (h : Readable c) :
    Readable (t :: c) := List.forall_mem_cons.2 ⟨ht, h⟩

theorem Token.isReadable_of_kind {t : Token} {k : TokenKind} (h : t.kind = k)
    (hk : k.mayFail = false) : t.isReadable :=
  Token.isReadable_of_mayFail (h ▸ hk)

theorem StringToken.isReadable {s : CodeText} {t : Token} (h : StringToken s t) :
    t.isReadable := by
  rw [Token.isReadable, h.1]
  simp only [Token.stringValue, h.2]
  rfl

theorem NumberToken.isReadable {v : LiteralValue} {t : Token} (h : NumberToken v t) :
    t.isReadable := by
  rw [Token.isReadable, h.1]
  simp only [Token.numberValue, h.2]
  rfl

section Readable

variable {close : TokenKind} {trailing : Bool} {c : List Token}

theorem Items.readable {α : Type} {Q : α → List Token → Prop} (hQ : ∀ x c, Q x c → Readable c)
    {xs : List α} (h : Items Q close trailing xs c) (hclose : close.mayFail = false) :
    Readable c := by
  induction h with
  | last hx ht =>
    exact (hQ _ _ hx).append (.cons (Token.isReadable_of_kind ht hclose) .nil)
  | trailed hx hc ht =>
    exact (hQ _ _ hx).append (.cons (Token.isReadable_of_kind hc rfl)
      (.cons (Token.isReadable_of_kind ht hclose) .nil))
  | more hx hc _ ih =>
    exact (hQ _ _ hx).append (.cons (Token.isReadable_of_kind hc rfl) ih)

theorem Listed.readable {α : Type} {Q : α → List Token → Prop} (hQ : ∀ x c, Q x c → Readable c)
    {xs : List α} (h : Listed Q close trailing xs c) (hclose : close.mayFail = false) :
    Readable c := by
  obtain ⟨-, t, ht, rfl⟩ | h := h
  · exact .cons (Token.isReadable_of_kind ht hclose) .nil
  · exact h.readable hQ hclose

theorem BindingToken.readable (id : Identifier) (c : List Token) (h : BindingToken id c) :
    Readable c := by
  obtain ⟨t, ht, -, rfl⟩ := h
  exact .cons (Token.isReadable_of_test ht rfl) .nil

theorem ArrowParams.readable {ids : List Identifier} (h : ArrowParams ids c) : Readable c := by
  cases h with
  | name h => exact BindingToken.readable _ _ h
  | group ht h =>
    exact .cons (Token.isReadable_of_kind ht rfl) (h.readable BindingToken.readable rfl)

theorem AliasTokens.readable {admits : TokenKind → Bool} {t second : Token}
    (h : AliasTokens admits t second c) (hadmits : (admits .string || admits .number) = false) :
    Readable c := by
  obtain ⟨ht, ⟨rfl, rfl⟩ | ⟨as, has, hsecond, rfl⟩⟩ := h
  · exact .cons (Token.isReadable_of_test ht rfl) .nil
  · exact .cons (Token.isReadable_of_test ht rfl) (.cons (Token.isReadable_of_kind has rfl)
      (.cons (Token.isReadable_of_test hsecond hadmits) .nil))

theorem ImportTokens.readable (s : ImportSpecifier) (c : List Token) (h : ImportTokens s c) :
    Readable c := by
  obtain ⟨_, _, h, -⟩ := h
  exact h.readable rfl

theorem ExportTokens.readable {isLocal : Bool} (s : ExportSpecifier) (c : List Token)
    (h : ExportTokens isLocal s c) : Readable c := by
  obtain ⟨_, _, h, -⟩ := h
  exact h.readable rfl

theorem ImportRest.readable {ss : List ImportSpecifier} (h : ImportRest ss c) : Readable c := by
  cases h with
  | all hstar has ht =>
    exact .cons (Token.isReadable_of_kind hstar rfl) (.cons (Token.isReadable_of_kind has rfl)
      (.cons (Token.isReadable_of_kind ht rfl) .nil))
  | list ht h =>
    exact .cons (Token.isReadable_of_kind ht rfl) (h.readable ImportTokens.readable rfl)

theorem ImportClause.readable {ss : List ImportSpecifier} (h : ImportClause ss c) :
    Readable c := by
  cases h with
  | default ht => exact .cons (Token.isReadable_of_kind ht rfl) .nil
  | both ht hcomma h =>
    exact .cons (Token.isReadable_of_kind ht rfl)
      (.cons (Token.isReadable_of_kind hcomma rfl) h.readable)
  | rest h => exact h.readable

/-- No list of the phrase ends with a literal. -/
def Phrase.NotClosedByLiteral : Phrase → Prop
  | .exprs close .. | .someExprs close .. => close.mayFail = false
  | _ => True

/-- **The grammar derives no literal without a value.** -/
theorem Derives.readable {p : Phrase} (h : Derives p c) (hp : p.NotClosedByLiteral) :
    Readable c := by
  -- each rule tells the kinds of its own tokens, and the others are told by its parts
  have kind : ∀ {t : Token} {k : TokenKind}, t.kind = k → k.mayFail = false → t.isReadable :=
    Token.isReadable_of_kind
  have test : ∀ {t : Token} {q : TokenKind → Bool}, q t.kind → (q .string || q .number) = false →
      t.isReadable := Token.isReadable_of_test
  induction h with
  | exprChoice _ ih | choiceOperation _ ih | operationOperand _ ih | operationTighter _ ih
  | operandSuffixed _ ih | suffixedPrimary _ ih | propertiesSome _ ih | lastDeclarator _ ih
  | declaration _ ih | blockStatement _ ih | branchStmt _ ih => exact ih trivial
  | exprsSome _ ih => exact ih hp
  | arrow hids _ ht _ ih | arrowBlock hids _ ht _ ih =>
    exact hids.readable.append (.cons (kind ht rfl) (ih trivial))
  | assign hop _ _ _ ih ih' => exact (ih trivial).append (.cons (test hop rfl) (ih' trivial))
  | conditional hquestion hcolon _ _ _ iht ihc iha =>
    exact (iht trivial).append (.cons (kind hquestion rfl)
      ((ihc trivial).append (.cons (kind hcolon rfl) (iha trivial))))
  | binary hop _ _ ih ih' =>
    have hop' : Token.isReadable _ := Token.isReadable_of_test (q := (·.looseness?.isSome))
      (by rw [hop]; rfl) rfl
    exact (ih trivial).append (.cons hop' (ih' trivial))
  | unary hop _ ih => exact .cons (test hop rfl) (ih trivial)
  | member hdot ht _ ih =>
    exact (ih trivial).append (.cons (kind hdot rfl) (.cons (kind ht rfl) .nil))
  | index ht ht' _ _ ih ih' =>
    exact (ih trivial).append (.cons (kind ht rfl)
      ((ih' trivial).append (.cons (kind ht' rfl) .nil)))
  | call ht _ _ ih ih' => exact (ih trivial).append (.cons (kind ht rfl) (ih' rfl))
  | string ht => exact .cons ht.isReadable .nil
  | number ht => exact .cons ht.isReadable .nil
  | null ht | noProperties ht | brace ht | branchNothing ht =>
    exact .cons (kind ht rfl) .nil
  | @truth _ b ht => exact .cons (kind ht (by cases b <;> rfl)) .nil
  | name ht | shortProperty ht | declarator ht => exact .cons (test ht rfl) .nil
  | array ht _ ih => exact .cons (kind ht rfl) (ih rfl)
  | object ht _ ih | block ht _ ih | blockNothing ht _ ih | nothing ht _ ih | exportDecl ht _ ih =>
    exact .cons (kind ht rfl) (ih trivial)
  | group ht ht' _ ih =>
    exact .cons (kind ht rfl) ((ih trivial).append (.cons (kind ht' rfl) .nil))
  | noExprs ht => exact .cons (kind ht hp) .nil
  | lastExpr ht _ ih => exact (ih trivial).append (.cons (kind ht hp) .nil)
  | trailedExpr hcomma ht _ ih =>
    exact (ih trivial).append (.cons (kind hcomma rfl) (.cons (kind ht hp) .nil))
  | moreExprs hcomma _ _ ih ih' => exact (ih trivial).append (.cons (kind hcomma rfl) (ih' hp))
  | quotedProperty ht hcolon _ ih =>
    exact .cons ht.isReadable (.cons (kind hcolon rfl) (ih trivial))
  | property ht hcolon _ ih | declaratorInit ht hcolon _ ih =>
    exact .cons (test ht rfl) (.cons (kind hcolon rfl) (ih trivial))
  | lastProperty ht _ ih | exprStatement ht _ ih =>
    exact (ih trivial).append (.cons (kind ht rfl) .nil)
  | trailedProperty hcomma ht _ ih =>
    exact (ih trivial).append (.cons (kind hcomma rfl) (.cons (kind ht rfl) .nil))
  | moreProperties hcomma _ _ ih ih' | moreDeclarators hcomma _ _ ih ih' =>
    exact (ih trivial).append (.cons (kind hcomma rfl) (ih' trivial))
  | blockStmt _ _ ih ih' | stmts _ _ ih ih' => exact (ih trivial).append (ih' trivial)
  | variableDecl ht hfin _ ih =>
    have ht' : Token.isReadable _ := Token.isReadable_of_test (q := (·.variableKind?.isSome))
      (by rw [ht]; rfl) rfl
    exact .cons ht' ((ih trivial).append (.cons (kind hfin rfl) .nil))
  | functionDecl ht hf hparen hids _ ih =>
    exact .cons (kind ht rfl) (.cons (test hf rfl) (.cons (kind hparen rfl)
      ((hids.readable BindingToken.readable rfl).append (ih trivial))))
  | importBare ht hsource hfin =>
    exact .cons (kind ht rfl) (.cons hsource.isReadable (.cons (kind hfin rfl) .nil))
  | importNames ht hclause hfrom hsource hfin =>
    exact .cons (kind ht rfl) (hclause.readable.append (.cons (kind hfrom rfl)
      (.cons hsource.isReadable (.cons (kind hfin rfl) .nil))))
  | exportLocal ht hbrace hss hfin =>
    exact .cons (kind ht rfl) (.cons (kind hbrace rfl)
      ((hss.readable ExportTokens.readable rfl).append (.cons (kind hfin rfl) .nil)))
  | exportFrom ht hbrace hss hfrom hsource hfin =>
    exact .cons (kind ht rfl) (.cons (kind hbrace rfl)
      ((hss.readable ExportTokens.readable rfl).append (.cons (kind hfrom rfl)
        (.cons hsource.isReadable (.cons (kind hfin rfl) .nil)))))
  | exportAll ht hstar hfrom hsource hfin =>
    exact .cons (kind ht rfl) (.cons (kind hstar rfl) (.cons (kind hfrom rfl)
      (.cons hsource.isReadable (.cons (kind hfin rfl) .nil))))
  | exportDefault ht hdefault hfin _ ih =>
    exact .cons (kind ht rfl) (.cons (kind hdefault rfl)
      ((ih trivial).append (.cons (kind hfin rfl) .nil)))
  | returnNothing ht hfin => exact .cons (kind ht rfl) (.cons (kind hfin rfl) .nil)
  | returnValue ht hfin _ ih =>
    exact .cons (kind ht rfl) ((ih trivial).append (.cons (kind hfin rfl) .nil))
  | ifThen ht hparen hclose _ _ ih ihs =>
    exact .cons (kind ht rfl) (.cons (kind hparen rfl)
      ((ih trivial).append (.cons (kind hclose rfl) (ihs trivial))))
  | ifElse ht hparen hclose hother _ _ _ _ ih ihs iha =>
    exact .cons (kind ht rfl) (.cons (kind hparen rfl)
      ((ih trivial).append (.cons (kind hclose rfl)
        ((ihs trivial).append (.cons (kind hother rfl) (iha trivial))))))
  | noStmts => exact .nil

end Readable

theorem Tokens.mended_of_readable {ts : Tokens} {k : TokenKind}
    (h : ∀ t ∈ ts.tokens, t.kind = k → t.isReadable) : ts.mended k = ts := by
  have hmended : ∀ t ∈ ts.tokens, t.mended k = t := by
    intro t ht
    by_cases hk : t.kind = k
    · exact Token.mended_of_isReadable (h t ht hk)
    · exact Token.mended_of_ne hk
  rw [Tokens.mended, (List.map_congr_left hmended).trans (List.map_id _)]

theorem derivable_mended {ts : Tokens} {k : TokenKind} :
    Derivable (ts.mended k).tokens ↔ Derivable ts.tokens := by
  have hkinds : Token.kinds (ts.mended k).tokens = Token.kinds ts.tokens := by
    simp [Token.kinds, Tokens.mended]
  rw [Derivable, Derivable, hkinds]

/-- Tokens that are a module but for their literals of a kind are none if and only if one of these
has no value. -/
theorem readTokens_literal_iff_of_mended {ts : Tokens} {k : TokenKind} {ss : List Stmt}
    (h : readTokens (ts.mended k) = .ok ss) :
    (∃ e, readTokens ts = .error e ∧ e.literal? = some k) ↔
      ¬ ∀ t ∈ ts.tokens, t.kind = k → t.isReadable := by
  constructor
  · rintro ⟨e, he, -⟩ hreadable
    rw [Tokens.mended_of_readable hreadable, he] at h
    cases h
  · intro hreadable
    obtain ⟨hstop, -⟩ := readTokens_derives h
    refine readTokens_literal_iff.2 ⟨hstop, (derivable_mended (k := k)).1 ?_, fun heq => ?_⟩
    · obtain ⟨hderivable, -⟩ | ⟨e, herror, -⟩ := readTokens_cases hstop
      · exact hderivable
      · cases h.symm.trans herror
    · obtain ⟨-, hderives⟩ := readTokens_derives (heq ▸ h)
      exact hreadable fun t ht _ => hderives.readable trivial t ht

namespace Module

/-- **What parsing comes to**: a module, a fault at a place, or a literal without a value, which is
a string or an integer. One of a kind is reported if and only if the text has the form of a module
and would be read otherwise had the literals of the kind values. So it is reported only if one of
them has none; and where the text is a module but for the values of these, it is reported if one has
none. -/
theorem parse_outcome (text : String) (filename : Option String) (base : Nat) :
    ((∃ m, parse text filename base = .ok m) ∨
      (∃ f line column, parse text filename base = .error (.fault f line column) ∧
        1 ≤ line ∧ 1 ≤ column) ∨
      (∃ f, parse text filename base = .error (.unreadableString f)) ∨
      ∃ n, parse text filename base = .error (.longInteger n)) ∧
    ∀ k, ((∃ e, parse text filename base = .error e ∧ e.literal? = some k) ↔
        (Tokens.ofText text base).stop = none ∧
          Derivable (Tokens.ofText text base).terminate.tokens ∧
          readTokens ((Tokens.ofText text base).terminate.mended k)
            ≠ readTokens (Tokens.ofText text base).terminate) ∧
      ((∀ t ∈ (Tokens.ofText text base).terminate.tokens, t.kind = k → t.isReadable) →
        ¬ ∃ e, parse text filename base = .error e ∧ e.literal? = some k) ∧
      ((∃ ss, readTokens ((Tokens.ofText text base).terminate.mended k) = .ok ss) →
        (¬ ∀ t ∈ (Tokens.ofText text base).terminate.tokens, t.kind = k → t.isReadable) →
        ∃ e, parse text filename base = .error e ∧ e.literal? = some k) := by
  have herror : ∀ e, parse text filename base = .error e ↔
      readTokens (Tokens.ofText text base).terminate = .error e := by
    intro e
    rw [parse]
    cases readTokens (Tokens.ofText text base).terminate with
    | error e' => constructor <;> rintro ⟨⟩ <;> rfl
    | ok body => constructor <;> rintro ⟨⟩
  obtain ⟨htokens, hplace⟩ := Tokens.isPlace_terminate text base
  refine ⟨?_, fun k => ⟨?_, ?_, ?_⟩⟩
  · cases hparse : parse text filename base with
    | ok m => exact Or.inl ⟨m, rfl⟩
    | error e =>
      cases e with
      | fault f line column =>
        have hread := (herror _).1 hparse
        exact Or.inr (Or.inl ⟨f, line, column, rfl, isPlace_of_readTokens htokens hplace hread⟩)
      | unreadableString f => exact Or.inr (Or.inr (Or.inl ⟨f, rfl⟩))
      | longInteger n => exact Or.inr (Or.inr (Or.inr ⟨n, rfl⟩))
  · simp only [herror]
    exact readTokens_literal_iff
  · simp only [herror]
    intro hreadable h
    exact (readTokens_literal_iff.1 h).2.2 (by rw [Tokens.mended_of_readable hreadable])
  · simp only [herror]
    rintro ⟨ss, hss⟩ hreadable
    exact (readTokens_literal_iff_of_mended hss).2 hreadable

end Module

end

section

attribute [local instance] CharacterNames.nameless

/-- An escape that cannot be read. -/
theorem Module.parse_unreadableString :
    parse "\"\\x\"" none 0 = .error (.unreadableString .malformed) := by
  have herror : (match parse "\"\\x\"" none 0 with
      | .error e => some e
      | .ok _ => none) = some (.unreadableString .malformed) := by decide +kernel
  cases hparse : parse "\"\\x\"" none 0 with
  | error e =>
    rw [hparse] at herror
    rw [Option.some.inj herror]
  | ok m =>
    rw [hparse] at herror
    cases herror

end

end MessageBinder
