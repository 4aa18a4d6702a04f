import Mathlib.Data.List.Flatten
import MessageBinder.Proofs.Grammar.Soundness
import MessageBinder.Proofs.Scope.Upkeep
import MessageBinder.Proofs.Token.Settled

/-!
# The numbers of a module that was read

Nodes are told apart by the number of the place where they start. That this works is a matter of the
grammar: every identifier, every frame and every statement of a module starts with a token of its
own (`MessageBinder.Derives.identifiers_sublist`, `MessageBinder.Derives.frames_sublist`), and the
lexer gives every token a number of its own. Terminators are the exception, for several of them can
stand at one place; but nothing that is told apart starts with a terminator. The empty block that
stands for a lone semicolon does, and it is a frame in which nothing happens.
-/

namespace MessageBinder

/-- The numbers of tokens, without the terminators. -/
def Token.numbers (ts : List Token) : List Nat :=
  (ts.filter (·.kind ≠ .terminator)).map (·.origin.id)

namespace Token

@[simp] theorem numbers_append (ts ts' : List Token) :
    numbers (ts ++ ts') = numbers ts ++ numbers ts' := by
  simp [numbers]

theorem numbers_cons_of_ne {t : Token} (h : t.kind ≠ .terminator) (ts : List Token) :
    numbers (t :: ts) = t.origin.id :: numbers ts := by
  simp [numbers, h]

theorem numbers_sublist {ts ts' : List Token} (h : ts.Sublist ts') :
    (numbers ts).Sublist (numbers ts') :=
  (h.filter _).map _

theorem numbers_one {ns : List Nat} {ts ts' : List Token} (h : ns.Sublist (numbers ts))
    (hts : ts.Sublist ts') : ns.Sublist (numbers ts') :=
  h.trans (numbers_sublist hts)

theorem numbers_two {ns ns' : List Nat} {ts ts' ts'' : List Token} (h : ns.Sublist (numbers ts))
    (h' : ns'.Sublist (numbers ts')) (hts : (ts ++ ts').Sublist ts'') :
    (ns ++ ns').Sublist (numbers ts'') := by
  refine (h.append h').trans ?_
  rw [← numbers_append]
  exact numbers_sublist hts

theorem numbers_first {ns : List Nat} {t : Token} {ts ts' : List Token}
    (ht : t.kind ≠ .terminator) (h : ns.Sublist (numbers ts)) (hts : (t :: ts).Sublist ts') :
    (t.origin.id :: ns).Sublist (numbers ts') := by
  refine (h.cons_cons _).trans ?_
  rw [← numbers_cons_of_ne ht]
  exact numbers_sublist hts

theorem numbers_alone {t : Token} {ts : List Token} (ht : t.kind ≠ .terminator)
    (hts : [t].Sublist ts) : [t.origin.id].Sublist (numbers ts) :=
  numbers_first ht (List.nil_sublist (numbers [])) hts

theorem ne_terminator_of_isBindingName {t : Token} (h : t.kind.isBindingName) :
    t.kind ≠ .terminator := by
  intro hc
  rw [hc] at h
  exact absurd h nofun

end Token

/-! ### Identifiers -/

namespace Phrase

/-- The identifiers of the tree of a phrase. -/
def identifiers : Phrase → List Identifier
  | expr e | choice e | operation _ e | operand e | suffixed e | primary e => e.identifiers
  | exprs _ _ es | someExprs _ _ es => Expr.identifiersList es
  | property p => p.value.identifiers
  | properties ps | someProperties ps => Property.identifiersList ps
  | block b => b.identifiers
  | untilBrace ss | body ss => Stmt.identifiersList ss
  | declarator d => Declarator.identifiersList [d]
  | declarators ds => Declarator.identifiersList ds
  | declaration d => d.identifiers
  | stmt s | branch s => s.identifiers

/-- The frames of the tree of a phrase. -/
def frames : Phrase → List Frame
  | expr e | choice e | operation _ e | operand e | suffixed e | primary e => e.frames
  | exprs _ _ es | someExprs _ _ es => Expr.framesList es
  | property p => p.value.frames
  | properties ps | someProperties ps => Property.framesList ps
  | block b => b.frames
  | untilBrace ss | body ss => Stmt.framesList ss
  | declarator d => Declarator.framesList [d]
  | declarators ds => Declarator.framesList ds
  | declaration d => d.frames
  | stmt s | branch s => s.frames

end Phrase

section Lists

variable {close : TokenKind} {trailing : Bool} {c : List Token}

/-- The items of a list with numbers in their tokens have them in the tokens of the list. -/
theorem Items.numbers_sublist {α : Type} {Q : α → List Token → Prop} {f : α → List Nat}
    (hf : ∀ x c, Q x c → (f x).Sublist (Token.numbers c)) {xs : List α}
    (h : Items Q close trailing xs c) : (xs.flatMap f).Sublist (Token.numbers c) := by
  induction h with
  | last hx ht =>
    rw [List.flatMap_cons, List.flatMap_nil, List.append_nil]
    exact Token.numbers_one (hf _ _ hx) (by simp)
  | trailed hx hc ht _ =>
    rw [List.flatMap_cons, List.flatMap_nil, List.append_nil]
    exact Token.numbers_one (hf _ _ hx) (by simp)
  | more hx hc _ ih =>
    rw [List.flatMap_cons]
    exact Token.numbers_two (hf _ _ hx) ih (by simp)

theorem Listed.numbers_sublist {α : Type} {Q : α → List Token → Prop} {f : α → List Nat}
    (hf : ∀ x c, Q x c → (f x).Sublist (Token.numbers c)) {xs : List α}
    (h : Listed Q close trailing xs c) : (xs.flatMap f).Sublist (Token.numbers c) := by
  rcases h with ⟨rfl, -⟩ | h
  · exact List.nil_sublist _
  · exact h.numbers_sublist hf

theorem BindingToken.number_sublist {id : Identifier} (h : BindingToken id c) :
    [id.origin.id].Sublist (Token.numbers c) := by
  obtain ⟨t, ht, rfl, rfl⟩ := h
  rw [Token.numbers_cons_of_ne (Token.ne_terminator_of_isBindingName ht)]
  exact List.Sublist.refl _

theorem Listed.bindings_sublist {ids : List Identifier}
    (h : Listed BindingToken close trailing ids c) :
    (Identifier.numbers ids).Sublist (Token.numbers c) := by
  rw [Identifier.numbers, List.map_eq_flatMap]
  exact h.numbers_sublist fun _ _ hid => hid.number_sublist

theorem ArrowParams.sublist {ids : List Identifier} (h : ArrowParams ids c) :
    (Identifier.numbers ids).Sublist (Token.numbers c) := by
  cases h with
  | name h => exact h.number_sublist
  | group ht h => exact Token.numbers_one h.bindings_sublist (by simp)

end Lists

section Lists

variable {c : List Token}

theorem AliasTokens.sublist {admits : TokenKind → Bool} {t second : Token}
    (h : AliasTokens admits t second c) :
    [t].Sublist c ∧ [second].Sublist c := by
  obtain ⟨-, ⟨rfl, rfl⟩ | ⟨as, -, -, rfl⟩⟩ := h
  · exact ⟨List.Sublist.refl _, List.Sublist.refl _⟩
  · exact ⟨by simp, by simp⟩

theorem ImportTokens.number_sublist {s : ImportSpecifier} (h : ImportTokens s c) :
    [s.binding.origin.id].Sublist (Token.numbers c) := by
  obtain ⟨t, second, hsecond, hkind, rfl⟩ := h
  have hne : second.kind ≠ .terminator := by
    obtain ⟨ht, ⟨rfl, -⟩ | ⟨-, -, hadmits, -⟩⟩ := hsecond
    · intro hc
      rw [hc] at ht
      exact absurd ht nofun
    · exact Token.ne_terminator_of_isBindingName hadmits
  exact Token.numbers_alone hne hsecond.sublist.2

theorem ExportTokens.number_sublist {isLocal : Bool} {s : ExportSpecifier}
    (h : ExportTokens isLocal s c) : [s.source.origin.id].Sublist (Token.numbers c) := by
  obtain ⟨t, second, hsecond, -, rfl⟩ := h
  have hne : t.kind ≠ .terminator := by
    intro hc
    have ht := hsecond.1
    rw [hc] at ht
    exact absurd ht nofun
  exact Token.numbers_alone hne hsecond.sublist.1

theorem ImportRest.sublist {ss : List ImportSpecifier} (h : ImportRest ss c) :
    (Identifier.numbers (ss.map ImportSpecifier.binding)).Sublist (Token.numbers c) := by
  cases h with
  | @all star as t _ _ ht =>
    exact Token.numbers_alone (by simp [ht]) (by simp)
  | list ht h =>
    rw [Identifier.numbers, List.map_map, List.map_eq_flatMap]
    exact Token.numbers_one (h.numbers_sublist fun _ _ hs => hs.number_sublist) (by simp)

theorem ImportClause.sublist {ss : List ImportSpecifier} (h : ImportClause ss c) :
    (Identifier.numbers (ss.map ImportSpecifier.binding)).Sublist (Token.numbers c) := by
  cases h with
  | default ht => exact Token.numbers_alone (by simp [ht]) (List.Sublist.refl _)
  | both ht hcomma h => exact Token.numbers_first (by simp [ht]) h.sublist (by simp)
  | rest h => exact h.sublist

theorem exports_sublist {isLocal trailing : Bool} {close : TokenKind} {ss : List ExportSpecifier}
    (h : Listed (ExportTokens isLocal) close trailing ss c) :
    (Identifier.numbers (ss.map ExportSpecifier.source)).Sublist (Token.numbers c) := by
  rw [Identifier.numbers, List.map_map, List.map_eq_flatMap]
  exact h.numbers_sublist fun _ _ hs => hs.number_sublist

end Lists

theorem Identifier.numbers_append (ids ids' : List Identifier) :
    numbers (ids ++ ids') = numbers ids ++ numbers ids' :=
  List.map_append

/-- **Every identifier is a token of its own**, in the order of the text. -/
theorem Derives.identifiers_sublist [CharacterNames] {p : Phrase} {c : List Token}
    (h : Derives p c) :
    (Identifier.numbers p.identifiers).Sublist (Token.numbers c) := by
  -- the parts come one after the other, and so do their identifiers
  induction h with
  | exprChoice _ ih | choiceOperation _ ih | operationOperand _ ih | operationTighter _ ih
  | operandSuffixed _ ih | suffixedPrimary _ ih | exprsSome _ ih | propertiesSome _ ih
  | declaration _ ih | blockStatement _ ih | branchStmt _ ih => exact ih
  | lastDeclarator _ ih => exact ih
  | arrow hids hfirst ht _ ih =>
    simp only [Phrase.identifiers, Expr.identifiers, Identifier.numbers_append]
    exact Token.numbers_two hids.sublist ih (by simp)
  | arrowBlock hids hfirst ht _ ih =>
    simp only [Phrase.identifiers, Expr.identifiers, Identifier.numbers_append]
    exact Token.numbers_two hids.sublist ih (by simp)
  | assign _ _ _ _ ih ih' | binary _ _ _ ih ih' | index _ _ _ _ ih ih' | call _ _ _ ih ih' =>
    simp only [Phrase.identifiers, Expr.identifiers, Identifier.numbers_append]
    exact Token.numbers_two ih ih' (by simp)
  | conditional _ _ _ _ _ iht ihc iha =>
    simp only [Phrase.identifiers, Expr.identifiers, Identifier.numbers_append]
    rw [List.append_assoc]
    exact Token.numbers_two iht (Token.numbers_two ihc iha (List.Sublist.refl _)) (by simp)
  | unary hop _ ih => exact Token.numbers_one ih (by simp)
  | member _ _ _ ih => exact Token.numbers_one ih (by simp)
  | string _ | number _ | truth _ | null _ => exact List.nil_sublist _
  | name ht =>
    exact Token.numbers_alone (Token.ne_terminator_of_isBindingName ht) (List.Sublist.refl _)
  | array _ _ ih | object _ _ ih => exact Token.numbers_one ih (by simp)
  | group _ _ _ ih => exact Token.numbers_one ih (by simp)
  | noExprs _ | noProperties _ | brace _ | noStmts => exact List.nil_sublist _
  | lastExpr _ _ ih | trailedExpr _ _ _ ih =>
    simp only [Phrase.identifiers, Expr.identifiersList, List.append_nil]
    exact Token.numbers_one ih (by simp)
  | moreExprs _ _ _ ih ih' =>
    simp only [Phrase.identifiers, Expr.identifiersList, Identifier.numbers_append]
    exact Token.numbers_two ih ih' (by simp)
  | quotedProperty _ _ _ ih | property _ _ _ ih => exact Token.numbers_one ih (by simp)
  | shortProperty ht =>
    exact Token.numbers_alone (Token.ne_terminator_of_isBindingName ht) (List.Sublist.refl _)
  | @lastProperty p _ _ _ _ ih | @trailedProperty p _ _ _ _ _ _ ih =>
    obtain ⟨_, v, _, _, _⟩ := p
    simp only [Phrase.identifiers, Property.identifiersList, List.append_nil]
    exact Token.numbers_one ih (by simp)
  | @moreProperties p _ _ _ _ _ _ _ ih ih' =>
    obtain ⟨_, v, _, _, _⟩ := p
    simp only [Phrase.identifiers, Property.identifiersList, Identifier.numbers_append]
    exact Token.numbers_two ih ih' (by simp)
  | block _ _ ih => exact Token.numbers_one ih (by simp)
  | blockNothing _ _ ih | nothing _ _ ih => exact Token.numbers_one ih (by simp)
  | blockStmt _ _ ih ih' | stmts _ _ ih ih' =>
    simp only [Phrase.identifiers, Stmt.identifiersList, Identifier.numbers_append]
    exact Token.numbers_two ih ih' (List.Sublist.refl _)
  | declarator ht =>
    exact Token.numbers_alone (Token.ne_terminator_of_isBindingName ht) (List.Sublist.refl _)
  | declaratorInit ht _ _ ih =>
    simp only [Phrase.identifiers, Declarator.identifiersList, List.append_nil]
    exact Token.numbers_first (Token.ne_terminator_of_isBindingName ht) ih (by simp)
  | @moreDeclarators d ds _ _ _ _ _ _ ih ih' =>
    have hids : (Phrase.declarators (d :: ds)).identifiers
        = (Phrase.declarator d).identifiers ++ (Phrase.declarators ds).identifiers := by
      obtain ⟨id, init, o⟩ := d
      cases init <;> simp [Phrase.identifiers, Declarator.identifiersList]
    rw [hids, Identifier.numbers_append]
    exact Token.numbers_two ih ih' (by simp)
  | variableDecl _ _ _ ih => exact Token.numbers_one ih (by simp)
  | functionDecl ht hf _ hids _ ih =>
    simp only [Phrase.identifiers, Declaration.identifiers, Identifier.numbers_append]
    have hrest := Token.numbers_two hids.bindings_sublist ih (List.Sublist.refl _)
    exact Token.numbers_first (Token.ne_terminator_of_isBindingName hf) hrest (by simp)
  | importBare => exact List.nil_sublist _
  | importNames _ hclause =>
    exact Token.numbers_one hclause.sublist ((List.sublist_append_left _ _).cons _)
  | exportLocal _ _ hss | exportFrom _ _ hss =>
    exact Token.numbers_one (exports_sublist hss) (((List.sublist_append_left _ _).cons _).cons _)
  | exportAll => exact List.nil_sublist _
  | exportDecl _ _ ih => exact Token.numbers_one ih (List.sublist_cons_self _ _)
  | exportDefault _ _ _ _ ih =>
    exact Token.numbers_one ih (((List.sublist_append_left _ _).cons _).cons _)
  | returnNothing => exact List.nil_sublist _
  | returnValue _ _ _ ih => exact Token.numbers_one ih ((List.sublist_append_left _ _).cons _)
  | ifThen _ _ _ _ _ ih ihs =>
    simp only [Phrase.identifiers, Stmt.identifiers, Identifier.numbers_append]
    exact Token.numbers_two ih ihs
      (((List.sublist_cons_self _ _).append_left _).cons _ |>.cons _)
  | ifElse _ _ _ _ _ _ _ _ ih ihs iha =>
    simp only [Phrase.identifiers, Stmt.identifiers, Identifier.numbers_append]
    rw [List.append_assoc]
    refine Token.numbers_two ih (Token.numbers_two ihs iha (List.Sublist.refl _)) ?_
    exact ((((List.sublist_cons_self _ _).append_left _).cons _).append_left _).cons _ |>.cons _
  | exprStatement _ _ ih => exact Token.numbers_one ih (by simp)
  | branchNothing _ => exact List.nil_sublist _

/-! ### Frames -/

/-- The number of a function or a block. -/
def Frame.number : Frame → Nat
  | module => 0
  | function id | block id => id

/-- The numbers of frames. -/
def Frame.numbers (fs : List Frame) : List Nat := fs.map number

theorem Frame.numbers_append (fs fs' : List Frame) :
    numbers (fs ++ fs') = numbers fs ++ numbers fs' :=
  List.map_append

theorem Block.innerFrames_sublist (b : Block) : b.innerFrames.Sublist b.frames := by
  obtain ⟨body, o⟩ := b
  cases body with
  | nil => exact List.Sublist.refl _
  | cons => exact List.sublist_cons_self _ _

/-- An arrow starts with a token of its own. -/
theorem ArrowParams.first_ne_terminator {ids : List Identifier} {c : List Token} {first : Token}
    (h : ArrowParams ids c) (hfirst : c.head? = some first) :
    first.kind ≠ .terminator ∧ [first].Sublist c := by
  cases h with
  | name h =>
    obtain ⟨t, ht, -, rfl⟩ := h
    obtain rfl : t = first := Option.some.inj hfirst
    exact ⟨Token.ne_terminator_of_isBindingName ht, List.Sublist.refl _⟩
  | group ht h =>
    obtain rfl : _ = first := Option.some.inj hfirst
    exact ⟨by simp [ht], by simp⟩

/-- **Every frame starts with a token of its own**, in the order of the text. -/
theorem Derives.frames_sublist [CharacterNames] {p : Phrase} {c : List Token} (h : Derives p c) :
    (Frame.numbers p.frames).Sublist (Token.numbers c) := by
  induction h with
  | exprChoice _ ih | choiceOperation _ ih | operationOperand _ ih | operationTighter _ ih
  | operandSuffixed _ ih | suffixedPrimary _ ih | exprsSome _ ih | propertiesSome _ ih
  | declaration _ ih | blockStatement _ ih | branchStmt _ ih => exact ih
  | lastDeclarator _ ih => exact ih
  | arrow hids hfirst ht _ ih =>
    -- the frame of the function starts with the first token of its parameters
    obtain ⟨hne, hsub⟩ := hids.first_ne_terminator hfirst
    exact Token.numbers_first hne ih (hsub.append (List.sublist_cons_self _ _))
  | @arrowBlock _ b _ _ _ _ hids hfirst ht _ ih =>
    -- the body of a function opens no frame of its own
    obtain ⟨hne, hsub⟩ := hids.first_ne_terminator hfirst
    exact Token.numbers_first hne ((b.innerFrames_sublist.map _).trans ih)
      (hsub.append (List.sublist_cons_self _ _))
  | assign _ _ _ _ ih ih' | binary _ _ _ ih ih' | index _ _ _ _ ih ih' | call _ _ _ ih ih' =>
    simp only [Phrase.frames, Expr.frames, Frame.numbers_append]
    exact Token.numbers_two ih ih' (by simp)
  | conditional _ _ _ _ _ iht ihc iha =>
    simp only [Phrase.frames, Expr.frames, Frame.numbers_append]
    rw [List.append_assoc]
    exact Token.numbers_two iht (Token.numbers_two ihc iha (List.Sublist.refl _)) (by simp)
  | unary hop _ ih => exact Token.numbers_one ih (by simp)
  | member _ _ _ ih => exact Token.numbers_one ih (by simp)
  | string _ | number _ | truth _ | null _ | name _ => exact List.nil_sublist _
  | array _ _ ih | object _ _ ih => exact Token.numbers_one ih (by simp)
  | group _ _ _ ih => exact Token.numbers_one ih (by simp)
  | noExprs _ | noProperties _ | brace _ | noStmts => exact List.nil_sublist _
  | lastExpr _ _ ih | trailedExpr _ _ _ ih =>
    simp only [Phrase.frames, Expr.framesList, List.append_nil]
    exact Token.numbers_one ih (by simp)
  | moreExprs _ _ _ ih ih' =>
    simp only [Phrase.frames, Expr.framesList, Frame.numbers_append]
    exact Token.numbers_two ih ih' (by simp)
  | quotedProperty _ _ _ ih | property _ _ _ ih => exact Token.numbers_one ih (by simp)
  | shortProperty _ => exact List.nil_sublist _
  | @lastProperty p _ _ _ _ ih | @trailedProperty p _ _ _ _ _ _ ih =>
    obtain ⟨_, v, _, _, _⟩ := p
    simp only [Phrase.frames, Property.framesList, List.append_nil]
    exact Token.numbers_one ih (by simp)
  | @moreProperties p _ _ _ _ _ _ _ ih ih' =>
    obtain ⟨_, v, _, _, _⟩ := p
    simp only [Phrase.frames, Property.framesList, Frame.numbers_append]
    exact Token.numbers_two ih ih' (by simp)
  | @block ss _ t ht _ ih =>
    cases ss with
    | nil => exact List.nil_sublist _
    | cons s ss => exact Token.numbers_first (by simp [ht]) ih (List.Sublist.refl _)
  | blockNothing _ _ ih | nothing _ _ ih => exact Token.numbers_one ih (by simp)
  | blockStmt _ _ ih ih' | stmts _ _ ih ih' =>
    simp only [Phrase.frames, Stmt.framesList, Frame.numbers_append]
    exact Token.numbers_two ih ih' (List.Sublist.refl _)
  | declarator _ => exact List.nil_sublist _
  | declaratorInit _ _ _ ih =>
    simp only [Phrase.frames, Declarator.framesList, List.append_nil]
    exact Token.numbers_one ih (by simp)
  | @moreDeclarators d ds _ _ _ _ _ _ ih ih' =>
    have hframes : (Phrase.declarators (d :: ds)).frames
        = (Phrase.declarator d).frames ++ (Phrase.declarators ds).frames := by
      obtain ⟨id, init, o⟩ := d
      cases init <;> simp [Phrase.frames, Declarator.framesList]
    rw [hframes, Frame.numbers_append]
    exact Token.numbers_two ih ih' (by simp)
  | variableDecl _ _ _ ih => exact Token.numbers_one ih (by simp)
  | @functionDecl _ b ci _ t f paren ht _ _ _ _ ih =>
    refine Token.numbers_first (by simp [ht]) ((b.innerFrames_sublist.map _).trans ih)
      (List.Sublist.cons_cons _ ?_)
    exact ((List.sublist_append_right ci _).cons _).cons _
  | importBare | importNames | exportLocal | exportFrom | exportAll | returnNothing =>
    exact List.nil_sublist _
  | exportDecl _ _ ih => exact Token.numbers_one ih (List.sublist_cons_self _ _)
  | exportDefault _ _ _ _ ih =>
    exact Token.numbers_one ih (((List.sublist_append_left _ _).cons _).cons _)
  | returnValue _ _ _ ih => exact Token.numbers_one ih ((List.sublist_append_left _ _).cons _)
  | ifThen _ _ _ _ _ ih ihs =>
    simp only [Phrase.frames, Stmt.frames, Frame.numbers_append]
    exact Token.numbers_two ih ihs
      (((List.sublist_cons_self _ _).append_left _).cons _ |>.cons _)
  | ifElse _ _ _ _ _ _ _ _ ih ihs iha =>
    simp only [Phrase.frames, Stmt.frames, Frame.numbers_append]
    rw [List.append_assoc]
    refine Token.numbers_two ih (Token.numbers_two ihs iha (List.Sublist.refl _)) ?_
    exact ((((List.sublist_cons_self _ _).append_left _).cons _).append_left _).cons _ |>.cons _
  | exprStatement _ _ ih => exact Token.numbers_one ih (by simp)
  | branchNothing _ => exact List.nil_sublist _

/-! ### Statements -/

/-- What a phrase of statements or below starts with, if it starts with a token of its own. -/
def Phrase.origin? : Phrase → Option Origin
  | expr e | choice e | operation _ e | operand e | suffixed e | primary e => some e.origin
  | block b => some b.origin
  | declaration d => some d.origin
  | stmt s => some s.origin
  | _ => none

/-- **A phrase starts with its first token**, which is no terminator. -/
theorem Derives.first_token [CharacterNames] {p : Phrase} {c : List Token} (h : Derives p c)
    {o : Origin} (ho : p.origin? = some o) : ∃ t c', c = t :: c' ∧ t.origin = o ∧
    t.kind ≠ .terminator := by
  have hbehind : ∀ {c c' : List Token},
      (∃ t d, c = t :: d ∧ t.origin = o ∧ t.kind ≠ .terminator) →
        ∃ t d, c ++ c' = t :: d ∧ t.origin = o ∧ t.kind ≠ .terminator := by
    rintro _ c' ⟨t, d, rfl, hto, ht⟩
    exact ⟨t, d ++ c', rfl, hto, ht⟩
  -- a phrase starts with its first part, or with a token of its own
  induction h with
  | exprChoice _ ih | choiceOperation _ ih | operationOperand _ ih | operationTighter _ ih
  | operandSuffixed _ ih | suffixedPrimary _ ih | declaration _ ih | blockStatement _ ih =>
    exact ih ho
  | arrow hids hfirst _ _ _ | arrowBlock hids hfirst _ _ _ =>
    obtain ⟨hne, -⟩ := hids.first_ne_terminator hfirst
    obtain rfl := Option.some.inj ho
    obtain ⟨c', rfl⟩ := List.head?_eq_some_iff.1 hfirst
    exact ⟨_, _, rfl, rfl, hne⟩
  | assign _ _ _ _ ih _ | conditional _ _ _ _ _ ih _ _ | binary _ _ _ ih _ | member _ _ _ ih
  | index _ _ _ _ ih _ | call _ _ _ ih _ | exprStatement _ _ ih => exact hbehind (ih ho)
  | unary hop _ _ =>
    obtain rfl := Option.some.inj ho
    exact ⟨_, _, rfl, rfl, fun hc => absurd (hc ▸ hop) nofun⟩
  | string ht | number ht =>
    obtain rfl := Option.some.inj ho
    exact ⟨_, _, rfl, rfl, by simp [ht.1]⟩
  | @truth t b ht =>
    obtain rfl := Option.some.inj ho
    exact ⟨_, _, rfl, rfl, by cases b <;> simp [ht]⟩
  | name ht =>
    obtain rfl := Option.some.inj ho
    exact ⟨_, _, rfl, rfl, Token.ne_terminator_of_isBindingName ht⟩
  | variableDecl ht _ _ _ =>
    obtain rfl := Option.some.inj ho
    exact ⟨_, _, rfl, rfl, fun hc => absurd (hc ▸ ht) nofun⟩
  | null ht | array ht _ _ | object ht _ _ | group ht _ _ _ | block ht _ _
  | functionDecl ht _ _ _ _ _ | importBare ht _ _ | importNames ht _ _ _ _
  | exportLocal ht _ _ _ | exportFrom ht _ _ _ _ _ | exportAll ht _ _ _ _ | exportDecl ht _ _
  | exportDefault ht _ _ _ _ | returnNothing ht _ | returnValue ht _ _ _ | ifThen ht _ _ _ _ _ _
  | ifElse ht _ _ _ _ _ _ _ _ _ _ =>
    obtain rfl := Option.some.inj ho
    exact ⟨_, _, rfl, rfl, by simp [ht]⟩
  | _ => exact absurd ho nofun

/-- **Every statement of a module starts with a token of its own.** -/
theorem Derives.origins_sublist [CharacterNames] {ss : List Stmt} {c : List Token}
    (h : Derives (.body ss) c) :
    (ss.map (·.origin.id)).Sublist (Token.numbers c) := by
  generalize hp : Phrase.body ss = p at h
  induction h generalizing ss with
  | noStmts =>
    obtain rfl := Phrase.body.inj hp
    exact List.nil_sublist _
  | nothing _ _ ih => exact Token.numbers_one (ih hp) (List.sublist_cons_self _ _)
  | stmts h _ _ ih' =>
    obtain rfl := Phrase.body.inj hp
    obtain ⟨t, d, rfl, hto, ht⟩ := h.first_token rfl
    rw [List.map_cons, ← hto]
    exact Token.numbers_first ht (ih' rfl) ((List.sublist_append_right d _).cons_cons t)
  | _ => exact absurd hp nofun

/-! ### Tokens -/

/-- One step emits the token it takes and terminators. -/
theorem StatementScan.numbers_step (s : StatementScan) (t : Token) :
    (Token.numbers (s.step t).1).Sublist [t.origin.id] := by
  have hends : ∀ (s : StatementScan) (k : TokenKind), Token.numbers (s.settleNewline k).1 = [] := by
    intro s k
    rw [settleNewline]
    split
    · rfl
    · split <;> rfl
  have hcloses : ∀ (s : StatementScan) (t : Token), Token.numbers (s.settleBrace t).1 = [] := by
    intro s t
    rw [settleBrace]
    split <;> rfl
  have hone : ∀ t' : Token, t'.origin = t.origin →
      (Token.numbers [t']).Sublist [t.origin.id] := by
    intro t' ht'
    by_cases hk : t'.kind = .terminator
    · simp [Token.numbers, hk]
    · simp [Token.numbers, hk, ht']
  rw [step]
  split
  · exact List.nil_sublist _
  · exact List.nil_sublist _
  · simp only [Token.numbers_append, hends, hcloses, List.nil_append]
    refine hone _ ?_
    rw [asBlock, asMember]
    split <;> split <;> rfl

theorem StatementScan.numbers_steps (s : StatementScan) (ts : List Token) :
    (Token.numbers (s.steps ts).1).Sublist (ts.map (·.origin.id)) := by
  induction ts generalizing s with
  | nil => exact List.nil_sublist _
  | cons t ts ih =>
    rw [steps, Token.numbers_append]
    exact (s.numbers_step t).append (ih _)

/-- **Settling the ends of statements adds terminators only.** -/
theorem Tokens.numbers_terminate (ts : Tokens) :
    (Token.numbers ts.terminate.tokens).Sublist (ts.tokens.map (·.origin.id)) := by
  have hsteps := StatementScan.numbers_steps {} ts.tokens
  have hfinish : ∀ s : StatementScan, Token.numbers s.finish = [] := by
    intro s
    rw [StatementScan.finish]
    split
    · split <;> rfl
    · rfl
  rw [terminate]
  split
  · rename_i out s hs
    rw [hs] at hsteps
    split
    · simpa [hfinish] using hsteps
    · exact hsteps

/-! ### Modules -/

/-- **A module is numbered** if its identifiers, its frames and its statements are told apart by
their numbers, all of which are below its own. -/
structure Module.Numbered (m : Module) : Prop where
  /-- No two identifiers and no two frames have the same number. -/
  distinct : Stmt.Distinct m.body
  /-- No two statements have the same number. -/
  statements : (m.body.map (·.origin.id)).Nodup
  /-- The numbers of identifiers are below that of the module. -/
  identifier_lt : ∀ id ∈ m.identifiers, id.origin.id < m.next
  /-- The numbers of frames are below that of the module. -/
  frame_lt : ∀ f ∈ Stmt.framesList m.body, f.number < m.next
  /-- The numbers of statements are below that of the module. -/
  statement_lt : ∀ s ∈ m.body, s.origin.id < m.next

/-- The numbers of the settled tokens of a text. -/
theorem Tokens.numbers_ofText (text : String) (base : Nat) :
    (Token.numbers (Tokens.ofText text base).terminate.tokens).Nodup ∧
      ∀ n ∈ Token.numbers (Tokens.ofText text base).terminate.tokens,
        n < base + text.length + 1 := by
  have hsub := Tokens.numbers_terminate (Tokens.ofText text base)
  obtain ⟨hlt, hbound⟩ := Lexer.scan_numbers ⟨base, 1, 1⟩ text.toList
  refine ⟨(hlt.imp Nat.ne_of_lt).sublist hsub, fun n hn => ?_⟩
  obtain ⟨t, ht, rfl⟩ := List.mem_map.1 (hsub.subset hn)
  have hlast := (hbound t ht).2
  rw [String.length_toList] at hlast
  exact Nat.lt_succ_of_lt hlast

/-- **A module that was read is numbered.** -/
theorem Module.numbered_of_parse [CharacterNames] {text : String} {filename : Option String}
    {base : Nat} {m : Module} (h : Module.parse text filename base = .ok m) : m.Numbered := by
  rw [Module.parse] at h
  obtain ⟨body, hbody, h⟩ := Checked.bind_eq_ok.1 h
  obtain rfl := Checked.pure_eq_ok.1 h
  obtain ⟨-, hd⟩ := readTokens_derives hbody
  obtain ⟨hnodup, hlt⟩ := Tokens.numbers_ofText text base
  have hids := hd.identifiers_sublist
  have hframes := hd.frames_sublist
  have horigins := hd.origins_sublist
  exact {
    distinct := ⟨hnodup.sublist hids, (hnodup.sublist hframes).of_map _⟩
    statements := hnodup.sublist horigins
    identifier_lt := fun id hid => hlt _ (hids.subset (List.mem_map_of_mem hid))
    frame_lt := fun f hf => hlt _ (hframes.subset (List.mem_map_of_mem hf))
    statement_lt := fun s hs => hlt _ (horigins.subset
      (List.mem_map_of_mem (f := fun s : Stmt => s.origin.id) hs)) }

end MessageBinder
