import MessageBinder.Proofs.Printing.Printable
import MessageBinder.Proofs.Token.Reading

/-!
# Writing expressions

A phrase is *writable* (`MessageBinder.Phrase.Writable`) if its printed text, read behind a token
behind which the phrase may stand, emits tokens that derive a phrase with the same plain tree. This
file shows it for the expressions that can be printed, one form after the other; all lists go
through one lemma, `MessageBinder.WritesItems.separated`.
-/

namespace MessageBinder

/-! ### The first character -/

/-- A text starts like a statement or an expression. -/
def Opens (cs : List Char) : Prop := ∃ c cs', cs = c :: cs' ∧ Lexer.opensStatement c

theorem Opens.append {cs : List Char} (h : Opens cs) (cs' : List Char) : Opens (cs ++ cs') := by
  obtain ⟨c, cs, rfl, hc⟩ := h
  exact ⟨c, cs ++ cs', rfl, hc⟩

theorem IsName.opens {w : List Char} (h : IsName w) : Opens w := by
  obtain ⟨c, cs, rfl, hc, -⟩ := h
  exact ⟨c, cs, rfl, by simp [Lexer.opensStatement, hc]⟩

theorem IsNumeral.opens {w : List Char} (h : IsNumeral w) : Opens w := by
  obtain ⟨c, ds, fraction, exponent, rfl, hc, -⟩ := h
  exact ⟨c, _, rfl, by simp [Lexer.opensStatement, hc]⟩

theorem opens_quotedString (s : CodeText) : Opens (quotedString s).written :=
  ⟨'"', _, Text.written_quoted _ s, by decide⟩

theorem opens_spelling {k : TokenKind} (h : k.isWord ∨ k.isUnary) : Opens k.spelling.toList := by
  rcases h with h | h
  · exact (Lexer.isName_spelling h).opens
  · cases k <;> cases h <;> exact ⟨_, _, rfl, by decide⟩

/-- The text of a phrase. -/
@[simp] def Phrase.text (depth : Nat) : Phrase → CodeText
  | .expr e | .choice e | .operation _ e | .operand e | .suffixed e | .primary e => e.text depth
  | .property p => p.text depth
  | .block b => b.text depth
  | .declarator d => d.text depth
  | .declaration d => d.text depth
  | .stmt s => s.text depth
  | _ => ""

theorem Block.opens_text (b : Block) (depth : Nat) : Opens (b.text depth).written := by
  obtain ⟨ss, o⟩ := b
  cases ss with
  | nil => exact ⟨_, _, by rw [Block.text]; rfl, by decide⟩
  | cons s ss =>
    simp only [Block.text, CodeText.written_append, List.append_assoc]
    exact Opens.append ⟨_, _, rfl, by decide⟩ _

theorem Declaration.opens_text (d : Declaration) (depth : Nat) :
    Opens (d.text depth).written := by
  cases d with
  | «variables» kind ds o =>
    simp only [Declaration.text, CodeText.written_append, List.append_assoc]
    cases kind <;> exact Opens.append ⟨_, _, rfl, by decide⟩ _
  | function f ids b o =>
    simp only [Declaration.text, CodeText.written_append, List.append_assoc]
    exact Opens.append ⟨_, _, rfl, by decide⟩ _

/-- A number is an integer or has a point or an exponent. -/
theorem NumberLiteral.value_cases {raw : String} {v : LiteralValue} (h : value raw = .ok v) :
    (∃ n, v = .integer n) ∨ ∃ x, v = .float x := by
  unfold value at h
  dsimp only at h
  split at h
  · exact .inr ⟨_, (Except.ok.inj h).symm⟩
  · split at h
    · cases h
    · exact .inl ⟨_, (Except.ok.inj h).symm⟩

theorem Expr.text_number {v : LiteralValue} {raw : String} (h : NumberLiteral.value raw = .ok v)
    (o : Origin) (depth : Nat) : (Expr.literal v raw o).text depth = raw := by
  obtain ⟨n, rfl⟩ | ⟨x, rfl⟩ := NumberLiteral.value_cases h <;> rw [Expr.text] <;> exact nofun

/-- Whether a phrase starts like a statement or an expression. -/
def Phrase.isOpening : Phrase → Bool
  | .property _ | .declarator _ => false
  | _ => true

/-- **Expressions and statements start with a character of one.** -/
theorem Printable.opens {marks texts : Bool} {p : Phrase} (h : Printable marks texts p)
    (depth : Nat) :
    p.isOpening → Opens (p.text depth).written := by
  induction h with
  | exprChoice _ ih | choiceOperation _ ih | operationOperand _ ih | operationTighter _ ih
  | operandSuffixed _ ih | suffixedPrimary _ ih => exact ih
  | arrow | arrowBlock | array | group | exportAll | exportDecl | exportDefault | returnValue =>
    intro _
    simp only [Phrase.text, Expr.text, Stmt.text, CodeText.written_append, List.append_assoc]
    exact Opens.append ⟨_, _, rfl, by decide⟩ _
  | assign _ _ _ _ ih _ | conditional _ _ _ ih _ _ | binary _ _ _ ih _ | member _ _ ih
  | index _ _ ih _ | call _ _ ih _ =>
    intro _
    simp only [Phrase.text, Expr.text, CodeText.written_append, List.append_assoc]
    exact (ih rfl).append _
  | unary hk _ _ =>
    intro _
    simp only [Phrase.text, Expr.text, CodeText.written_append, CodeText.written_ofString,
      List.append_assoc]
    exact (opens_spelling (Or.inr hk)).append _
  | string =>
    intro _
    simp only [Phrase.text, Expr.text]
    exact opens_quotedString _
  | number h hv =>
    intro _
    simp only [Phrase.text, Expr.text_number hv, CodeText.written_ofString]
    exact h.opens
  | @truth b o =>
    intro _
    simp only [Phrase.text, Expr.text, CodeText.written_ofString]
    exact opens_spelling (Or.inl (by cases b <;> rfl))
  | null =>
    intro _
    simp only [Phrase.text, Expr.text, CodeText.written_ofString]
    exact opens_spelling (Or.inl rfl)
  | name h =>
    intro _
    simp only [Phrase.text, Expr.text, CodeText.written_ofString]
    exact h.1.opens
  | @object ps o h ih =>
    intro _
    simp only [Phrase.text, Expr.text, inBraces]
    split
    · exact ⟨_, _, rfl, by decide⟩
    · simp only [braced, CodeText.written_append, List.append_assoc]
      exact Opens.append ⟨_, _, rfl, by decide⟩ _
  | block => exact fun _ => Block.opens_text _ depth
  | variableDecl | functionDecl => exact fun _ => Declaration.opens_text _ depth
  | importDecl =>
    intro _
    simp only [Phrase.text, Stmt.text, importText]
    split
    all_goals
      simp only [CodeText.written_append, List.append_assoc]
      exact Opens.append ⟨_, _, rfl, by decide⟩ _
  | exportNamed =>
    intro _
    simp only [Phrase.text, Stmt.text, exportText, CodeText.written_append, List.append_assoc]
    exact Opens.append ⟨_, _, rfl, by decide⟩ _
  | declaration _ ih =>
    intro _
    simp only [Phrase.text, Stmt.text]
    exact Declaration.opens_text _ depth
  | blockStatement _ ih =>
    intro _
    simp only [Phrase.text, Stmt.text]
    exact Block.opens_text _ depth
  | returnNothing =>
    intro _
    simp only [Phrase.text, Stmt.text]
    exact ⟨_, _, rfl, by decide⟩
  | ifThen | ifElse =>
    intro _
    simp only [Phrase.text, Stmt.text, CodeText.written_append, List.append_assoc]
    exact Opens.append ⟨_, _, rfl, by decide⟩ _
  | exprStatement _ _ ih =>
    intro _
    simp only [Phrase.text, Stmt.text, CodeText.written_append]
    exact (ih rfl).append _
  | property | declarator | declaratorInit =>
    intro h
    cases h

/-! ### Texts of lists -/

attribute [local simp] TokenKind.spelling

section ListTexts

variable {α : Type} {text : α → CodeText}

theorem written_commaSeparated_cons (x y : α) (ys : List α) :
    (commaSeparated ((x :: y :: ys).map text)).written
      = (text x).written ++
        (",".toList ++ ' ' :: (commaSeparated ((y :: ys).map text)).written) := by
  rw [List.map_cons, List.map_cons, commaSeparated, CodeText.intercalate_cons_cons]
  simp [commaSeparated]

theorem written_inBraces_nil : (inBraces (([] : List α).map text)).written
    = TokenKind.leftBrace.spelling.toList ++ ((commaSeparated (([] : List α).map text)).written ++
      TokenKind.rightBrace.spelling.toList) := by
  simp [inBraces, commaSeparated]

theorem written_inBraces_cons (x : α) (xs : List α) : (inBraces ((x :: xs).map text)).written
    = TokenKind.leftBrace.spelling.toList ++
      (' ' :: ((commaSeparated ((x :: xs).map text)).written ++ [' ']) ++
        TokenKind.rightBrace.spelling.toList) := by
  simp [inBraces, braced]

end ListTexts

/-! ### Texts of expressions -/

section Texts

variable (ids : List Identifier) (e f i l r t c a : Expr) (es : List Expr) (b : Block) (o : Origin)
  (depth : Nat)

theorem Expr.written_text_arrow : ((Expr.arrow ids e o).text depth).written
    = (TokenKind.leftParen.spelling.toList ++
        ((paramsText ids).written ++ TokenKind.rightParen.spelling.toList)) ++
      (' ' :: (TokenKind.arrow.spelling.toList ++ ' ' :: (e.text depth).written)) := by
  simp [Expr.text]

theorem Expr.written_text_arrowBlock : ((Expr.arrowBlock ids b o).text depth).written
    = (TokenKind.leftParen.spelling.toList ++
        ((paramsText ids).written ++ TokenKind.rightParen.spelling.toList)) ++
      (' ' :: (TokenKind.arrow.spelling.toList ++ ' ' :: (b.text depth).written)) := by
  simp [Expr.text]

theorem Expr.written_text_assign (op : String) : ((Expr.assign op l r o).text depth).written
    = (l.text depth).written ++ (' ' :: (op.toList ++ ' ' :: (r.text depth).written)) := by
  simp [Expr.text]

theorem Expr.written_text_conditional : ((Expr.conditional t c a o).text depth).written
    = (t.text depth).written ++ (' ' :: (TokenKind.question.spelling.toList ++
      ' ' :: ((c.text depth).written ++ (' ' :: (TokenKind.colon.spelling.toList ++
        ' ' :: (a.text depth).written))))) := by
  simp [Expr.text]

theorem Expr.written_text_binary (op : String) : ((Expr.binary op l r o).text depth).written
    = (l.text depth).written ++ (' ' :: (op.toList ++ ' ' :: (r.text depth).written)) := by
  simp [Expr.text]

/-- A blank parts an operator that is a word from its operand. -/
theorem Expr.written_text_unaryWord {op : String} (h : isWordOperator op) :
    ((Expr.unary op e o).text depth).written = op.toList ++ (' ' :: (e.text depth).written) := by
  simp [Expr.text, h]

/-- Nothing parts a sign from its operand. -/
theorem Expr.written_text_unarySign {op : String} (h : isWordOperator op = false) :
    ((Expr.unary op e o).text depth).written = op.toList ++ (e.text depth).written := by
  simp [Expr.text, h]

theorem Expr.written_text_member (property : String) :
    ((Expr.member e property o).text depth).written
      = (e.text depth).written ++ (TokenKind.dot.spelling.toList ++ property.toList) := by
  simp [Expr.text]

theorem Expr.written_text_index : ((Expr.index e i o).text depth).written
    = (e.text depth).written ++ (TokenKind.leftBracket.spelling.toList ++
      ((i.text depth).written ++ TokenKind.rightBracket.spelling.toList)) := by
  simp [Expr.text]

theorem Expr.written_text_call : ((Expr.call f es o).text depth).written
    = (f.text depth).written ++ (TokenKind.leftParen.spelling.toList ++
      ((commaSeparated (es.map (Expr.text depth))).written ++
        TokenKind.rightParen.spelling.toList)) := by
  simp [Expr.text, Expr.texts_eq_map]

theorem Expr.written_text_array : ((Expr.array es o).text depth).written
    = TokenKind.leftBracket.spelling.toList ++
      ((commaSeparated (es.map (Expr.text depth))).written ++
        TokenKind.rightBracket.spelling.toList) := by
  simp [Expr.text, Expr.texts_eq_map]

theorem Expr.written_text_group : ((Expr.group e o).text depth).written
    = TokenKind.leftParen.spelling.toList ++
      ((e.text depth).written ++ TokenKind.rightParen.spelling.toList) := by
  simp [Expr.text]

theorem Expr.text_object (ps : List Property) :
    (Expr.object ps o).text depth = inBraces (ps.map (Property.text depth)) := by
  simp only [Expr.text, Property.texts_eq_map]

/-- A property that is not printed by its key alone. -/
theorem Property.written_text_long {key : CodeText} {shorthand quoted : Bool}
    (h : Property.isShort ⟨key, e, shorthand, quoted, o⟩ = false) :
    (Property.text depth ⟨key, e, shorthand, quoted, o⟩).written
      = (if quoted then quotedString key else key).written ++ (TokenKind.colon.spelling.toList ++
        ' ' :: (e.text depth).written) := by
  simp [Property.text, h]

end Texts

/-! ### Names -/

namespace Lexer

theorem apart_cons {c : Char} (hname : isNameChar c = false)
    (hdigit : Text.isDecimalDigit c = false) (hdot : c ≠ '.') (cs : List Char) :
    Apart (c :: cs) := by
  rintro _ ⟨⟩
  exact ⟨hname, hdigit, fun h => absurd h hdot⟩

theorem apart_blank (cs : List Char) : Apart (' ' :: cs) := apart_cons rfl rfl (by decide) cs

theorem apart_closing {k k' : TokenKind} (hk : k.closing? = some k') (cs : List Char) :
    Apart (k'.spelling.toList ++ cs) := by
  cases k <;> cases hk <;> exact apart_cons rfl rfl (by decide) cs

/-- A name behind a dot does not belong to a number in front of it. -/
theorem apart_dot {w : List Char} (hw : IsName w) (cs : List Char) : Apart ('.' :: (w ++ cs)) := by
  obtain ⟨c, w, rfl, hc, -⟩ := hw
  rintro _ ⟨⟩
  refine ⟨rfl, rfl, fun _ d hd => ?_⟩
  obtain rfl : c = d := Option.some.inj hd
  rw [Bool.eq_false_iff]
  intro hdigit
  rw [isNameStart_of_isDecimalDigit hdigit] at hc
  cases hc

end Lexer

theorem TokenKind.isNeutral_ofWord (s : String) : (TokenKind.ofWord s).isNeutral := by
  rcases TokenKind.isWord_ofWord s with h | h
  · exact TokenKind.isNeutral_of_isWord h
  · rw [h]
    rfl

theorem TokenKind.ofWord_ne_dot (s : String) : some (TokenKind.ofWord s) ≠ some .dot := by
  intro h
  have hneutral := TokenKind.isWord_ofWord s
  rw [Option.some.inj h] at hneutral
  exact hneutral.elim nofun nofun

section Names

variable {last : Option TokenKind} {cs rest : List Char} {Q : List Token → Prop} {s : String}

theorem writes_name (h : IsName s.toList) (hdot : last ≠ some .dot) (hrest : Lexer.Apart rest)
    (hQ : ∀ t : Token, t.kind = .ofWord s → t.text = s → Q [t]) : Writes last s.toList rest Q := by
  have hfront := Lexer.front_of_isName h hrest
  rw [String.ofList_toList] at hfront
  exact .lexeme hfront (TokenKind.isNeutral_ofWord s) (fun _ => hdot) fun t ht htext =>
    hQ t ht (htext.trans String.ofList_toList)

/-- A name, and what follows. -/
theorem writes_name_append (h : IsName s.toList) (hdot : last ≠ some .dot)
    (hrest : Lexer.Apart (cs ++ rest))
    (hQ : ∀ t : Token, t.kind = .ofWord s → t.text = s →
      Writes (some (.ofWord s)) cs rest fun c => Q (t :: c)) :
      Writes last (s.toList ++ cs) rest Q := by
  refine (writes_name h (Q := fun c => ∃ t : Token, t.kind = .ofWord s ∧ t.text = s ∧ c = [t]) hdot
    hrest fun t ht htext => ⟨t, ht, htext, rfl⟩).append ?_
  rintro _ ⟨t, ht, htext, rfl⟩
  rw [lastKind_cons, ht]
  exact hQ t ht htext

end Names

/-! ### Lists -/

/-- Items with commas between them. -/
inductive Separated {α : Type} (item : α → List Token → Prop) : List α → List Token → Prop
  /-- One item. -/
  | one {x : α} {c : List Token} (hx : item x c) : Separated item [x] c
  /-- An item with others after it. -/
  | more {x : α} {xs : List α} {c c' : List Token} {comma : Token} (hx : item x c)
      (hcomma : comma.kind = .comma) (hxs : Separated item xs c') :
      Separated item (x :: xs) (c ++ comma :: c')

theorem Separated.items {α : Type} {item : α → List Token → Prop} {close : TokenKind}
    {trailing : Bool} {xs : List α} {c : List Token} {t : Token} (h : Separated item xs c)
    (ht : t.kind = close) : Items item close trailing xs (c ++ [t]) := by
  induction h with
  | one hx => exact .last hx ht
  | more hx hcomma _ ih =>
    rw [List.append_assoc, List.cons_append]
    exact .more hx hcomma ih

theorem Separated.declarators [CharacterNames] {ds : List Declarator} {c : List Token}
    (h : Separated (fun d => Derives (.declarator d)) ds c) : Derives (.declarators ds) c := by
  induction h with
  | one hx => exact .lastDeclarator hx
  | more hx hcomma _ ih => exact .moreDeclarators hcomma hx ih

theorem Items.exprs [CharacterNames] {close : TokenKind} {es : List Expr} {c : List Token}
    {trailing : Bool} (h : Items (fun e => Derives (.expr e)) close trailing es c) :
    Derives (.someExprs close trailing es) c := by
  induction h with
  | last hx ht => exact .lastExpr ht hx
  | trailed hx hc ht htrailing =>
    rw [htrailing]
    exact .trailedExpr hc ht hx
  | more hx hc _ ih => exact .moreExprs hc hx ih

theorem Listed.exprs [CharacterNames] {close : TokenKind} {es : List Expr} {c : List Token}
    {trailing : Bool} (h : Listed (fun e => Derives (.expr e)) close trailing es c) :
    Derives (.exprs close trailing es) c := by
  obtain ⟨rfl, t, ht, rfl⟩ | h := h
  · exact .noExprs ht
  · exact .exprsSome h.exprs

theorem Items.properties [CharacterNames] {ps : List Property} {c : List Token}
    (h : Items (fun p => Derives (.property p)) .rightBrace true ps c) :
    Derives (.someProperties ps) c := by
  induction h with
  | last hx ht => exact .lastProperty ht hx
  | trailed hx hc ht _ => exact .trailedProperty hc ht hx
  | more hx hc _ ih => exact .moreProperties hc hx ih

theorem Listed.properties [CharacterNames] {ps : List Property} {c : List Token}
    (h : Listed (fun p => Derives (.property p)) .rightBrace true ps c) :
    Derives (.properties ps) c := by
  obtain ⟨rfl, t, ht, rfl⟩ | h := h
  · exact .noProperties ht
  · exact .propertiesSome h.properties

section Lists

variable {α β : Type} {item : α → List Token → Prop} {text : α → CodeText} {f : α → β}
  {xs : List α}

/-- Items written behind a token or a comma give an item each that looks the same. -/
def WritesItems (item : α → List Token → Prop) (text : α → CodeText) (f : α → β) (xs : List α)
    (last : Option TokenKind) : Prop :=
  ∀ x ∈ xs, ∀ (last' : Option TokenKind) (rest : List Char), last' = last ∨ last' = some .comma →
    Lexer.Apart rest → Writes last' (text x).written rest fun c => ∃ x', item x' c ∧ f x' = f x

theorem WritesItems.separated (hne : xs ≠ []) :
    ∀ {last : Option TokenKind}, WritesItems item text f xs last → ∀ {rest : List Char},
      Lexer.Apart rest → Writes last (commaSeparated (xs.map text)).written rest fun c =>
        ∃ xs', Separated item xs' c ∧ xs'.map f = xs.map f := by
  induction xs with
  | nil => exact absurd rfl hne
  | cons x xs ih =>
    intro last h rest hrest
    have hx := h x (List.mem_cons_self ..) last
    cases xs with
    | nil =>
      rw [List.map_singleton, commaSeparated, CodeText.intercalate_singleton]
      refine (hx rest (Or.inl rfl) hrest).mono ?_
      rintro c ⟨x', hx', hf⟩
      exact ⟨[x'], .one hx', by rw [List.map_singleton, List.map_singleton, hf]⟩
    | cons y ys =>
      have hmore : WritesItems item text f (y :: ys) (some .comma) := fun z hz last' rest' hlast' =>
        h z (List.mem_cons_of_mem _ hz) last' rest' (Or.inr (hlast'.elim id id))
      rw [written_commaSeparated_cons]
      refine (hx _ (Or.inl rfl) (Lexer.apart_cons rfl rfl (by decide) _)).append ?_
      rintro c ⟨x', hx', hf⟩
      refine .symbol (k := .comma) rfl rfl fun t ht _ =>
        (ih (List.cons_ne_nil y ys) hmore hrest).mono ?_
      rintro c' ⟨ys', hys', hfs⟩
      exact ⟨x' :: ys', .more hx' ht hys', by simp only [List.map_cons, hf, hfs]⟩

/-- A list in brackets without blanks inside. -/
theorem WritesItems.listed {k k' : TokenKind} {last : Option TokenKind} {rest : List Char}
    (h : WritesItems item text f xs (some k)) (trailing : Bool) (hk : k.closing? = some k')
    (hbrace : k = .leftBrace → last.all TokenKind.precedesBlock = false) :
    Writes last (k.spelling.toList ++
        ((commaSeparated (xs.map text)).written ++ k'.spelling.toList)) rest fun c =>
      ∃ t c' xs', t.kind = k ∧ Listed item k' trailing xs' c' ∧ xs'.map f = xs.map f ∧
        c = t :: c' := by
  refine .enclosed hk hbrace (P := fun c => ∃ xs', (xs' = [] ∧ c = [] ∨ Separated item xs' c) ∧
    xs'.map f = xs.map f) ?_ ?_
  · cases xs with
    | nil => exact .nil ⟨[], Or.inl ⟨rfl, rfl⟩, rfl⟩
    | cons x xs =>
      refine (h.separated (List.cons_ne_nil x xs) (Lexer.apart_closing hk _)).mono ?_
      rintro c ⟨xs', hxs', hf⟩
      exact ⟨xs', Or.inr hxs', hf⟩
  · rintro t t' c ht ht' ⟨xs', ⟨rfl, rfl⟩ | hxs', hf⟩
    · exact ⟨t, [t'], [], ht, Or.inl ⟨rfl, t', ht', rfl⟩, hf, rfl⟩
    · exact ⟨t, c ++ [t'], xs', ht, Or.inr (hxs'.items ht'), hf, rfl⟩

/-- A list in braces, with blanks inside unless it is empty. -/
theorem WritesItems.inBraces {last : Option TokenKind} {rest : List Char}
    (h : WritesItems item text f xs (some .leftBrace)) (trailing : Bool)
    (hbrace : last.all TokenKind.precedesBlock = false) :
    Writes last (inBraces (xs.map text)).written rest fun c =>
      ∃ t c' xs', t.kind = .leftBrace ∧ Listed item .rightBrace trailing xs' c' ∧
        xs'.map f = xs.map f ∧ c = t :: c' := by
  cases xs with
  | nil =>
    rw [written_inBraces_nil]
    exact h.listed trailing rfl fun _ => hbrace
  | cons x xs =>
    rw [written_inBraces_cons]
    refine .enclosed rfl (fun _ => hbrace) (P := fun c => ∃ xs',
      Separated item xs' c ∧ xs'.map f = (x :: xs).map f) (.blank ?_) ?_
    · refine (h.separated (List.cons_ne_nil x xs) (Lexer.apart_blank _)).append ?_
      rintro c ⟨xs', hxs', hf⟩
      exact .blank (.nil ⟨xs', by rwa [List.append_nil], hf⟩)
    · rintro t t' c ht ht' ⟨xs', hxs', hf⟩
      exact ⟨t, c ++ [t'], xs', ht, Or.inr (hxs'.items ht'), hf, rfl⟩

end Lists

/-! ### Expressions -/

/-- Behind which kinds of token a phrase can be printed. -/
def Phrase.StandsBehind (last : Option TokenKind) : Phrase → Prop
  | .expr e | .choice e | .operation _ e | .operand e | .suffixed e | .primary e =>
    last ≠ some .dot ∧ (e.opensBrace → last.all TokenKind.precedesBlock = false)
  | .block _ | .stmt _ => last.all TokenKind.precedesBlock
  | _ => last ≠ some .dot

/-- The tokens derive a phrase with the same plain tree. -/
def Phrase.Rewritten [CharacterNames] (marks : Bool) : Phrase → List Token → Prop
  | .expr e, c => ∃ e', Derives (.expr e') c ∧ e'.plain marks = e.plain marks
  | .choice e, c => ∃ e', Derives (.choice e') c ∧ e'.plain marks = e.plain marks
  | .operation n e, c => ∃ e', Derives (.operation n e') c ∧ e'.plain marks = e.plain marks
  | .operand e, c => ∃ e', Derives (.operand e') c ∧ e'.plain marks = e.plain marks
  | .suffixed e, c => ∃ e', Derives (.suffixed e') c ∧ e'.plain marks = e.plain marks
  | .primary e, c => ∃ e', Derives (.primary e') c ∧ e'.plain marks = e.plain marks
  | .property p, c => ∃ p', Derives (.property p') c ∧ p'.plain marks = p.plain marks
  | .block b, c => ∃ b', Derives (.block b') c ∧ b'.plain marks = b.plain marks
  | .declarator d, c => ∃ d', Derives (.declarator d') c ∧ d'.plain marks = d.plain marks
  | .declaration d, c => ∃ d', Derives (.declaration d') c ∧ d'.plain marks = d.plain marks
  | .stmt s, c => ∃ s', Derives (.stmt s') c ∧ s'.plain marks = s.plain marks
  | _, _ => True

/-- **The text of a phrase writes it**: wherever the phrase stands and whatever follows that does
not belong to its last word. -/
def Phrase.Writable [CharacterNames] (marks : Bool) (p : Phrase) : Prop :=
  ∀ (depth : Nat) (last : Option TokenKind) (rest : List Char), p.StandsBehind last →
    Lexer.Apart rest → Writes last (p.text depth).written rest (p.Rewritten marks)

/-- Whether an object and a word can stand behind a token. -/
def TokenKind.leads (k : TokenKind) : Bool := k ≠ .dot && !k.precedesBlock

theorem Phrase.standsBehind_of_leads {k : TokenKind} (h : k.leads) (e : Expr) :
    (Phrase.expr e).StandsBehind (some k) := by
  simp only [TokenKind.leads, Bool.and_eq_true, decide_eq_true_eq, Bool.not_eq_true'] at h
  exact ⟨fun heq => h.1 (Option.some.inj heq), fun _ => h.2⟩

section Expressions

variable {marks : Bool} {ids : List Identifier} {e e' : Expr} {o : Origin}
  {last : Option TokenKind} {rest : List Char}

/-- Parameters in parentheses. -/
theorem writes_params (h : AreBindingNames ids) :
    Writes last (TokenKind.leftParen.spelling.toList ++
        ((paramsText ids).written ++ TokenKind.rightParen.spelling.toList)) rest fun c =>
      ∃ t c' ids', t.kind = .leftParen ∧ Listed BindingToken .rightParen false ids' c' ∧
        ids'.map Identifier.plain = ids.map Identifier.plain ∧ c = t :: c' := by
  refine WritesItems.listed (k := .leftParen) (fun id hid last' rest' hlast hrest => ?_) false
    rfl nofun
  have hdot : last' ≠ some .dot := by rcases hlast with rfl | rfl <;> exact nofun
  rw [CodeText.written_ofString]
  refine writes_name (h id hid).1 hdot hrest fun t ht htext => ?_
  refine ⟨t.identifier, ⟨t, ht ▸ (h id hid).2, rfl, rfl⟩, ?_⟩
  rw [Identifier.plain, Token.identifier, htext]
  rfl

/-- Expressions with commas between them. -/
theorem writesItems_exprs [CharacterNames] {es : List Expr} {k : TokenKind} (hk : k.leads)
    (h : ∀ e ∈ es, (Phrase.expr e).Writable marks) (depth : Nat) :
    WritesItems (fun e => Derives (.expr e)) (Expr.text depth) (Expr.plain marks) es (some k) := by
  intro e he last' rest' hlast hrest
  have hstands : (Phrase.expr e).StandsBehind last' := by
    rcases hlast with rfl | rfl
    · exact Phrase.standsBehind_of_leads hk e
    · exact Phrase.standsBehind_of_leads rfl e
  exact h e he depth last' rest' hstands hrest

namespace Phrase.Writable

variable [CharacterNames]

/-- A phrase of another kind with the same text. -/
theorem lift {p q : Phrase} (h : p.Writable marks) (htext : ∀ depth, q.text depth = p.text depth)
    (hstands : ∀ last, q.StandsBehind last → p.StandsBehind last)
    (hre : ∀ c, p.Rewritten marks c → q.Rewritten marks c) : q.Writable marks := by
  intro depth last rest hq hrest
  rw [htext]
  exact (h depth last rest (hstands last hq) hrest).mono hre

theorem arrow (hids : AreBindingNames ids) (hbrace : e.opensBrace = false)
    (h : (Phrase.expr e).Writable marks) : (Phrase.expr (.arrow ids e o)).Writable marks := by
  intro depth last rest _ hrest
  simp only [Phrase.text, Expr.written_text_arrow]
  refine (writes_params hids).append ?_
  rintro _ ⟨t, c, ids', ht, hids', hp, rfl⟩
  refine .blank (.symbol rfl rfl fun t' ht' _ => ?_)
  refine (h depth (some .arrow) rest ⟨nofun, by simp [hbrace]⟩ hrest).mono ?_
  rintro c' ⟨e', he', hpe⟩
  exact ⟨.arrow ids' e' t.origin, .arrow (.group ht hids') rfl ht' he', by
    simp only [Expr.plain, hp, hpe]⟩

theorem arrowBlock {b : Block} (hids : AreBindingNames ids) (h : (Phrase.block b).Writable marks) :
    (Phrase.expr (.arrowBlock ids b o)).Writable marks := by
  intro depth last rest _ hrest
  simp only [Phrase.text, Expr.written_text_arrowBlock]
  refine (writes_params hids).append ?_
  rintro _ ⟨t, c, ids', ht, hids', hp, rfl⟩
  refine .blank (.symbol rfl rfl fun t' ht' _ => ?_)
  refine (h depth (some .arrow) rest rfl hrest).mono ?_
  rintro c' ⟨b', hb', hpb⟩
  exact ⟨.arrowBlock ids' b' t.origin, .arrowBlock (.group ht hids') rfl ht' hb', by
    simp only [Expr.plain, hp, hpb]⟩

/-- An operator between its operands, by what becomes of them. -/
theorem operands {p l r : Phrase} {k : TokenKind} (hk : k.isSymbol) (hneutral : k.isNeutral)
    (hl : l.Writable marks) (hr : r.Writable marks)
    (htext : ∀ depth, (p.text depth).written
      = (l.text depth).written ++ (' ' :: (k.spelling.toList ++ ' ' :: (r.text depth).written)))
    (hstands : ∀ last, p.StandsBehind last → l.StandsBehind last)
    (hstands' : r.StandsBehind (some k))
    (hre : ∀ (c c' : List Token) (t : Token), t.kind = k → t.text = k.spelling →
      l.Rewritten marks c → r.Rewritten marks c' → p.Rewritten marks (c ++ t :: c')) :
    p.Writable marks := by
  intro depth last rest hp hrest
  rw [htext]
  refine (hl depth last _ (hstands last hp) (Lexer.apart_blank _)).append fun c hc => ?_
  refine .blank (.symbol hk hneutral fun t ht htext => ?_)
  exact (hr depth (some k) rest hstands' hrest).mono fun c' hc' => hre c c' t ht htext hc hc'

theorem assign {k : TokenKind} {target value : Expr} (hk : k.isAssignment)
    (htarget : target.isTarget) (h : (Phrase.choice target).Writable marks)
    (h' : (Phrase.expr value).Writable marks) :
    (Phrase.expr (.assign k.spelling target value o)).Writable marks := by
  have hkind : k.isSymbol ∧ k.isNeutral ∧ k.leads := by
    revert hk
    cases k <;> decide
  refine operands hkind.1 hkind.2.1 h h' (Expr.written_text_assign _ _ o · _) (fun _ h => h)
    (standsBehind_of_leads hkind.2.2 value) ?_
  rintro c c' t rfl htext ⟨target', ht, hpt⟩ ⟨value', hv, hpv⟩
  refine ⟨_, .assign hk (by rwa [Expr.isTarget_of_plain_eq hpt]) ht hv, ?_⟩
  simp only [Expr.plain, htext, hpt, hpv]

theorem binary {k : TokenKind} {n : Nat} {l r : Expr} (hk : k.looseness? = some (n + 1))
    (h : (Phrase.operation (n + 1) l).Writable marks)
    (h' : (Phrase.operation n r).Writable marks) :
    (Phrase.operation (n + 1) (.binary k.spelling l r o)).Writable marks := by
  have hkind : k.isSymbol ∧ k.isNeutral ∧ k.leads := by
    revert hk
    cases k <;> first | exact fun _ => by decide | nofun
  refine operands hkind.1 hkind.2.1 h h' (Expr.written_text_binary _ _ o · _) (fun _ h => h)
    (standsBehind_of_leads hkind.2.2 r) ?_
  rintro c c' t rfl htext ⟨l', hl, hpl⟩ ⟨r', hr, hpr⟩
  refine ⟨_, .binary hk hl hr, ?_⟩
  simp only [Expr.plain, htext, hpl, hpr]

theorem conditional {t c a : Expr} (ht : (Phrase.operation loosest t).Writable marks)
    (hc : (Phrase.expr c).Writable marks) (ha : (Phrase.expr a).Writable marks) :
    (Phrase.choice (.conditional t c a o)).Writable marks := by
  intro depth last rest hp hrest
  simp only [Phrase.text, Expr.written_text_conditional]
  refine (ht depth last _ hp (Lexer.apart_blank _)).append ?_
  rintro ct ⟨t', ht', hpt⟩
  refine .blank (.symbol rfl rfl fun q hq _ => ?_)
  refine (hc depth (some .question) _ (standsBehind_of_leads rfl c)
    (Lexer.apart_blank _)).append ?_
  rintro cc ⟨c', hc', hpc⟩
  refine .blank (.symbol rfl rfl fun q' hq' _ => ?_)
  refine (ha depth (some .colon) rest (standsBehind_of_leads rfl a) hrest).mono ?_
  rintro ca ⟨a', ha', hpa⟩
  exact ⟨_, .conditional hq hq' ht' hc' ha', by simp only [Expr.plain, hpt, hpc, hpa]⟩

/-- An operator that is a word. -/
theorem unaryWord {k : TokenKind} (hk : k.isUnary) (hword : k.isWord)
    (h : (Phrase.operand e).Writable marks) :
    (Phrase.operand (.unary k.spelling e o)).Writable marks := by
  intro depth last rest hp hrest
  have hkind : isWordOperator k.spelling ∧ k.leads := by
    cases k <;> cases hk <;> cases hword <;> exact ⟨rfl, rfl⟩
  simp only [Phrase.text, Expr.written_text_unaryWord _ _ _ hkind.1]
  refine .token (Lexer.front_word hword (Lexer.apart_blank _))
    (TokenKind.isNeutral_of_isWord hword) (fun _ => hp.1) fun t ht htext => .blank ?_
  refine (h depth (some k) rest (standsBehind_of_leads hkind.2 e) hrest).mono ?_
  rintro c ⟨e', he', hpe⟩
  rw [String.ofList_toList] at htext
  exact ⟨_, .unary (ht ▸ hk) he', by simp only [Expr.plain, htext, hpe]⟩

/-- An operator that is a sign. -/
theorem unarySign {k : TokenKind} (hk : k = .bang ∨ k = .minus ∨ k = .plus)
    (hopens : ∀ depth, Opens (e.text depth).written) (h : (Phrase.operand e).Writable marks) :
    (Phrase.operand (.unary k.spelling e o)).Writable marks := by
  intro depth last rest hp hrest
  have hkind : isWordOperator k.spelling = false ∧ k.leads ∧ k.isUnary ∧ k.isNeutral ∧
      k.isWord = false := by
    rcases hk with rfl | rfl | rfl <;> exact ⟨rfl, rfl, rfl, rfl, rfl⟩
  obtain ⟨hnoword, hleads, hunary, hneutral, hword⟩ := hkind
  obtain ⟨c, cs, hcs, hc⟩ := hopens depth
  have hne : c ≠ '=' := by
    rintro rfl
    exact absurd hc (by decide)
  simp only [Phrase.text, Expr.written_text_unarySign _ _ _ hnoword]
  refine .token ?_ hneutral (by simp [hword]) fun t ht htext => ?_
  · rw [hcs]
    exact Lexer.front_sign hk hne _
  refine (h depth (some k) rest (standsBehind_of_leads hleads e) hrest).mono ?_
  rintro c ⟨e', he', hpe⟩
  rw [String.ofList_toList] at htext
  exact ⟨_, .unary (ht ▸ hunary) he', by simp only [Expr.plain, htext, hpe]⟩

theorem unary {k : TokenKind} (hk : k.isUnary) (hopens : ∀ depth, Opens (e.text depth).written)
    (h : (Phrase.operand e).Writable marks) :
    (Phrase.operand (.unary k.spelling e o)).Writable marks := by
  cases hword : k.isWord with
  | true => exact unaryWord hk hword h
  | false =>
    refine unarySign ?_ hopens h
    revert hk hword
    cases k <;> decide

theorem member {property : String} (hname : IsName property.toList)
    (h : (Phrase.suffixed e).Writable marks) :
    (Phrase.suffixed (.member e property o)).Writable marks := by
  intro depth last rest hp hrest
  simp only [Phrase.text, Expr.written_text_member]
  refine (h depth last _ hp (Lexer.apart_dot hname rest)).append ?_
  rintro c ⟨e', he', hpe⟩
  refine .closed rfl rfl fun dot hdot => .memberName hname hrest fun t ht htext => ?_
  rw [String.ofList_toList] at htext
  exact ⟨_, .member hdot ht he', by simp only [Expr.plain, htext, hpe]⟩

theorem index {i : Expr} (h : (Phrase.suffixed e).Writable marks)
    (h' : (Phrase.expr i).Writable marks) : (Phrase.suffixed (.index e i o)).Writable marks := by
  intro depth last rest hp hrest
  simp only [Phrase.text, Expr.written_text_index]
  refine (h depth last _ hp (Lexer.apart_cons rfl rfl (by decide) _)).append ?_
  rintro c ⟨e', he', hpe⟩
  refine .enclosed rfl nofun (h' depth _ _ (standsBehind_of_leads rfl i)
    (Lexer.apart_closing (k := .leftBracket) rfl _)) ?_
  rintro t t' c' ht ht' ⟨i', hi', hpi⟩
  exact ⟨_, .index ht ht' he' hi', by simp only [Expr.plain, hpe, hpi]⟩

theorem call {f : Expr} {as : List Expr} (h : (Phrase.suffixed f).Writable marks)
    (h' : ∀ a ∈ as, (Phrase.expr a).Writable marks) :
    (Phrase.suffixed (.call f as o)).Writable marks := by
  intro depth last rest hp hrest
  simp only [Phrase.text, Expr.written_text_call]
  refine (h depth last _ hp (Lexer.apart_cons rfl rfl (by decide) _)).append ?_
  rintro c ⟨f', hf', hpf⟩
  have hargs := writesItems_exprs (k := .leftParen) rfl h' depth
  refine (hargs.listed false rfl nofun).mono ?_
  rintro c' ⟨t, c', as', ht, has', hpas, rfl⟩
  exact ⟨_, .call ht hf' has'.exprs, by simp only [Expr.plain, Expr.plainList_eq_map, hpf, hpas]⟩

theorem array {es : List Expr} (h : ∀ e ∈ es, (Phrase.expr e).Writable marks) :
    (Phrase.primary (.array es o)).Writable marks := by
  intro depth last rest hp hrest
  simp only [Phrase.text, Expr.written_text_array]
  have hes := writesItems_exprs (k := .leftBracket) rfl h depth
  refine (hes.listed true rfl nofun).mono ?_
  rintro c' ⟨t, c', es', ht, hes', hpes, rfl⟩
  exact ⟨_, .array ht hes'.exprs, by simp only [Expr.plain, Expr.plainList_eq_map, hpes]⟩

theorem group (h : (Phrase.expr e).Writable marks) :
    (Phrase.primary (.group e o)).Writable marks := by
  intro depth last rest hp hrest
  simp only [Phrase.text, Expr.written_text_group]
  refine .enclosed rfl nofun (h depth _ _ (standsBehind_of_leads rfl e)
    (Lexer.apart_closing (k := .leftParen) rfl _)) ?_
  rintro t t' c ht ht' ⟨e', he', hpe⟩
  exact ⟨_, .group ht ht' he', by simp only [Expr.plain, hpe]⟩

theorem string {s : CodeText} {raw : String} :
    (Phrase.primary (.literal (.text s) raw o)).Writable marks := by
  intro depth last rest hp hrest
  simp only [Phrase.text, Expr.text]
  refine .lexeme (Lexer.front_quoted s rest) rfl nofun fun t ht htext => ?_
  refine ⟨_, .string ⟨ht, ?_⟩, rfl⟩
  rw [htext]
  exact StringLiteral.value?_quoted s

theorem number {v : LiteralValue} {raw : String} (h : IsNumeral raw.toList)
    (hv : NumberLiteral.value raw = .ok v) :
    (Phrase.primary (.literal v raw o)).Writable marks := by
  intro depth last rest hp hrest
  simp only [Phrase.text, Expr.text_number hv, CodeText.written_ofString]
  refine .lexeme (Lexer.front_number h hrest) rfl nofun fun t ht htext => ?_
  rw [String.ofList_toList] at htext
  exact ⟨_, .number ⟨ht, htext ▸ hv⟩, by simp only [htext]; rfl⟩

theorem truth {b : Bool} : (Phrase.primary (.literal (.truth b)
    (if b then TokenKind.trueWord else TokenKind.falseWord).spelling o)).Writable marks := by
  intro depth last rest hp hrest
  simp only [Phrase.text, Expr.text, CodeText.written_ofString]
  have hword : (if b then TokenKind.trueWord else TokenKind.falseWord).isWord := by
    cases b <;> rfl
  refine .lexeme (Lexer.front_word hword hrest) (TokenKind.isNeutral_of_isWord hword)
    (fun _ => hp.1) fun t ht htext => ?_
  rw [String.ofList_toList] at htext
  exact ⟨_, .truth ht, by rw [htext]; rfl⟩

theorem null :
    (Phrase.primary (.literal .null TokenKind.nullWord.spelling o)).Writable marks := by
  intro depth last rest hp hrest
  simp only [Phrase.text, Expr.text, CodeText.written_ofString]
  refine .lexeme (Lexer.front_word rfl hrest) rfl (fun _ => hp.1) fun t ht htext => ?_
  rw [String.ofList_toList] at htext
  exact ⟨_, .null ht, by rw [htext]; rfl⟩

theorem name {id : Identifier} (h : IsBindingName id.name) :
    (Phrase.primary (.name id)).Writable marks := by
  intro depth last rest hp hrest
  simp only [Phrase.text, Expr.text, CodeText.written_ofString]
  refine writes_name h.1 hp.1 hrest fun t ht htext => ⟨_, .name (ht ▸ h.2), ?_⟩
  simp only [Expr.plain, Identifier.plain, Token.identifier, htext]

/-- A property by its key alone. -/
theorem shortProperty {p : Property} (hp : p.isShort) (hkey : IsBindingKey p.key) :
    (Phrase.property p).Writable marks := by
  obtain ⟨key, value, shorthand, quoted, o⟩ := p
  obtain ⟨name, rfl, hname⟩ := hkey
  intro depth last rest hlast hrest
  simp only [Phrase.text, Property.text, hp, if_true]
  rw [CodeText.written_ofString]
  refine writes_name hname.1 hlast hrest fun t ht htext => ⟨_, .shortProperty (ht ▸ hname.2), ?_⟩
  cases value <;> simp only [Property.isShort, Bool.false_eq_true] at hp
  simp only [Bool.and_eq_true, decide_eq_true_eq, Bool.not_eq_true'] at hp
  obtain ⟨hp, rfl⟩ := hp
  obtain rfl := CodeText.ofString_inj.1 hp
  simp [Property.plain, Expr.plain, Property.isShort, Token.identifier, Identifier.plain, htext]

omit [CharacterNames] in
/-- Only the key and the plain value say whether a property is printed by its key alone. -/
theorem isShort_of_plain_eq {key : CodeText} {v v' : Expr} {quoted : Bool}
    (h : v'.plain marks = v.plain marks) (shorthand shorthand' : Bool) (o o' : Origin) :
    Property.isShort ⟨key, v', shorthand', quoted, o'⟩
      = Property.isShort ⟨key, v, shorthand, quoted, o⟩ := by
  have hplain : ∀ (v : Expr) (shorthand : Bool) (o : Origin),
      Property.isShort ⟨key, v, shorthand, quoted, o⟩
        = Property.isShort ⟨key, v.plain marks, false, quoted, nowhere⟩ := by
    intro v _ _
    cases v <;> rfl
  rw [hplain v', h, ← hplain v]

/-- A property with its key and its value. -/
theorem longProperty {key : CodeText} {v : Expr} {shorthand quoted : Bool}
    (hshort : Property.isShort ⟨key, v, shorthand, quoted, o⟩ = false)
    (hkey : quoted = false → IsBindingKey key)
    (hmark : marks → shorthand → Property.isShort ⟨key, v, shorthand, quoted, o⟩)
    (h : (Phrase.expr v).Writable marks) :
    (Phrase.property ⟨key, v, shorthand, quoted, o⟩).Writable marks := by
  intro depth last rest hlast hrest
  -- the property is not short, so that its mark is not told
  have hplain : ∀ (v' : Expr) (o' : Origin), v'.plain marks = v.plain marks →
      Property.plain marks ⟨key, v', false, quoted, o'⟩
        = Property.plain marks ⟨key, v, shorthand, quoted, o⟩ := by
    intro v' o' hpv
    have hnomark : (marks && shorthand) = false := by
      rw [Bool.eq_false_iff]
      intro hboth
      rw [Bool.and_eq_true] at hboth
      rw [hmark hboth.1 hboth.2] at hshort
      cases hshort
    simp only [Property.plain, hpv, hnomark, Bool.and_false,
      isShort_of_plain_eq hpv shorthand false o o']
  have hvalue := h depth (some .colon) rest (standsBehind_of_leads rfl v) hrest
  simp only [Phrase.text, Property.written_text_long _ _ _ hshort]
  cases quoted with
  | true =>
    refine .token (Lexer.front_quoted key _) rfl nofun fun t ht htext => ?_
    refine .symbol rfl rfl fun colon hcolon _ => hvalue.mono ?_
    rintro c ⟨v', hv', hpv⟩
    have hkey' : StringLiteral.value? t.text = some key := by
      rw [htext]
      exact StringLiteral.value?_quoted key
    exact ⟨_, .quotedProperty ⟨ht, hkey'⟩ hcolon hv', hplain v' t.origin hpv⟩
  | false =>
    obtain ⟨name, rfl, hname⟩ := hkey rfl
    simp only [Bool.false_eq_true, if_false, CodeText.written_ofString]
    refine writes_name_append hname.1 hlast (Lexer.apart_cons rfl rfl (by decide) _)
      fun t ht htext => ?_
    refine .symbol rfl rfl fun colon hcolon _ => hvalue.mono ?_
    rintro c ⟨v', hv', hpv⟩
    subst htext
    exact ⟨_, .property (ht ▸ hname.2) hcolon hv', hplain v' t.origin hpv⟩

theorem property {key : CodeText} {v : Expr} {shorthand quoted : Bool}
    (hkey : quoted = false → IsBindingKey key)
    (hmark : marks → shorthand → Property.isShort ⟨key, v, shorthand, quoted, o⟩)
    (h : (Phrase.expr v).Writable marks) :
    (Phrase.property ⟨key, v, shorthand, quoted, o⟩).Writable marks := by
  cases hshort : Property.isShort ⟨key, v, shorthand, quoted, o⟩ with
  | false => exact longProperty hshort hkey hmark h
  | true =>
    refine shortProperty hshort (hkey ?_)
    cases v <;> simp_all [Property.isShort]

theorem object {ps : List Property} (h : ∀ p ∈ ps, (Phrase.property p).Writable marks) :
    (Phrase.primary (.object ps o)).Writable marks := by
  intro depth last rest hp hrest
  have hitems : WritesItems (fun p => Derives (.property p)) (Property.text depth)
      (Property.plain marks) ps (some .leftBrace) := by
    intro p hmem last' rest' hlast hrest
    have hdot : last' ≠ some .dot := by rcases hlast with rfl | rfl <;> exact nofun
    exact h p hmem depth last' rest' hdot hrest
  simp only [Phrase.text, Expr.text_object]
  refine (hitems.inBraces true (hp.2 rfl)).mono ?_
  rintro c' ⟨t, c', ps', ht, hps', hpps, rfl⟩
  exact ⟨_, .object ht hps'.properties, by
    simp only [Expr.plain, Property.plainList_eq_map, hpps]⟩

end Phrase.Writable

end Expressions

end MessageBinder
