import MessageBinder.Tree.Parser

/-!
# The grammar

What the tokens of a module write, as rules that know nothing of reading: of look-ahead, of a bound
on the descent, of faults. A *phrase* is a kind of text together with the tree that it stands for,
and `MessageBinder.Derives` says which tokens derive which phrase. Expressions come in the usual
layers, from the loosest to the tightest binding; the six layers of operators are one phrase with a
number.

Two rules look at more than the tokens they put together. The consequent of a choice with an
alternative must not itself end in a choice without one, or the alternative would be its own. And
what is assigned to must be a name, a member or an element.
-/

namespace MessageBinder

/-- A kind of text with the tree that it stands for. -/
inductive Phrase where
  /-- Any expression. -/
  | expr (e : Expr)
  /-- An expression without arrow and assignment outside brackets and branches. -/
  | choice (e : Expr)
  /-- Operands and operators that bind as loosely as given, or more tightly. -/
  | operation (looseness : Nat) (e : Expr)
  /-- Operators before an operand. -/
  | operand (e : Expr)
  /-- An expression with members, elements and calls after it. -/
  | suffixed (e : Expr)
  /-- An expression that starts with no operator and ends with no suffix. -/
  | primary (e : Expr)
  /-- Expressions with commas between them and a closing token. -/
  | exprs (close : TokenKind) (trailing : Bool) (es : List Expr)
  /-- At least one expression, with commas and a closing token. -/
  | someExprs (close : TokenKind) (trailing : Bool) (es : List Expr)
  /-- A property. -/
  | property (p : Property)
  /-- Properties with commas between them and the closing brace. -/
  | properties (ps : List Property)
  /-- At least one property, with commas and the closing brace. -/
  | someProperties (ps : List Property)
  /-- A block. -/
  | block (b : Block)
  /-- Statements with the closing brace. -/
  | untilBrace (ss : List Stmt)
  /-- A variable of a declaration. -/
  | declarator (d : Declarator)
  /-- Variables with commas between them. -/
  | declarators (ds : List Declarator)
  /-- A declaration with its end. -/
  | declaration (d : Declaration)
  /-- A statement with its end. -/
  | stmt (s : Stmt)
  /-- A statement as the branch of a choice. -/
  | branch (s : Stmt)
  /-- The statements of a module. -/
  | body (ss : List Stmt)

/-- Items with commas between them and a closing token, at least one. -/
inductive Items {α : Type} (item : α → List Token → Prop) (close : TokenKind) (trailing : Bool) :
    List α → List Token → Prop
  /-- The last item. -/
  | last {x : α} {c : List Token} {t : Token} (hx : item x c) (ht : t.kind = close) :
      Items item close trailing [x] (c ++ [t])
  /-- The last item with a comma after it. -/
  | trailed {x : α} {c : List Token} {comma t : Token} (hx : item x c) (hc : comma.kind = .comma)
      (ht : t.kind = close) (htrailing : trailing) :
      Items item close trailing [x] (c ++ [comma, t])
  /-- An item with others after it. -/
  | more {x : α} {xs : List α} {c c' : List Token} {comma : Token} (hx : item x c)
      (hc : comma.kind = .comma) (hxs : Items item close trailing xs c') :
      Items item close trailing (x :: xs) (c ++ comma :: c')

/-- Items with a closing token, perhaps none. -/
def Listed {α : Type} (item : α → List Token → Prop) (close : TokenKind) (trailing : Bool)
    (xs : List α) (c : List Token) : Prop :=
  (xs = [] ∧ ∃ t, t.kind = close ∧ c = [t]) ∨ Items item close trailing xs c

/-- The token of a name that can be bound. -/
def BindingToken (id : Identifier) (c : List Token) : Prop :=
  ∃ t : Token, t.kind.isBindingName ∧ id = t.identifier ∧ c = [t]

/-- The parameters before an arrow: a name, or names in parentheses. -/
inductive ArrowParams : List Identifier → List Token → Prop
  /-- One name. -/
  | name {id : Identifier} {c : List Token} (h : BindingToken id c) : ArrowParams [id] c
  /-- Names in parentheses. -/
  | group {ids : List Identifier} {c : List Token} {t : Token} (ht : t.kind = .leftParen)
      (h : Listed BindingToken .rightParen false ids c) : ArrowParams ids (t :: c)

/-- The tokens of a string with a value. -/
def StringToken [CharacterNames] (s : CodeText) (t : Token) : Prop :=
  t.kind = .string ∧ StringLiteral.value? t.text = some s

/-- The tokens of a number with a value. -/
def NumberToken (v : LiteralValue) (t : Token) : Prop :=
  t.kind = .number ∧ NumberLiteral.value t.text = .ok v

/-- A name of an import or export list, and the name behind `as`, if there is one. -/
def AliasTokens (admits : TokenKind → Bool) (t second : Token) (c : List Token) : Prop :=
  t.kind.isExportName ∧
    ((second = t ∧ c = [t]) ∨
      ∃ as : Token, as.kind = .asWord ∧ admits second.kind ∧ c = [t, as, second])

/-- A name of an import list. -/
def ImportTokens (s : ImportSpecifier) (c : List Token) : Prop :=
  ∃ t second, AliasTokens TokenKind.isBindingName t second c ∧ second.kind ≠ .defaultWord ∧
    s = .named t.text second.identifier t.origin

/-- A name of an export list; a local list does not name `default`. -/
def ExportTokens (isLocal : Bool) (s : ExportSpecifier) (c : List Token) : Prop :=
  ∃ t second, AliasTokens TokenKind.isExportName t second c ∧
    (isLocal → t.kind ≠ .defaultWord) ∧ s = ⟨t.identifier, second.text, t.origin⟩

/-- What an import binds besides its default export. -/
inductive ImportRest : List ImportSpecifier → List Token → Prop
  /-- All exports as one value. -/
  | all {star as t : Token} (hstar : star.kind = .star) (has : as.kind = .asWord)
      (ht : t.kind = .name) : ImportRest [.all t.identifier t.origin] [star, as, t]
  /-- A list. -/
  | list {ss : List ImportSpecifier} {c : List Token} {t : Token} (ht : t.kind = .leftBrace)
      (h : Listed ImportTokens .rightBrace true ss c) : ImportRest ss (t :: c)

/-- What an import binds. -/
inductive ImportClause : List ImportSpecifier → List Token → Prop
  /-- The default export. -/
  | default {t : Token} (ht : t.kind = .name) :
      ImportClause [.default t.identifier t.origin] [t]
  /-- The default export and others. -/
  | both {t comma : Token} {ss : List ImportSpecifier} {c : List Token} (ht : t.kind = .name)
      (hcomma : comma.kind = .comma) (h : ImportRest ss c) :
      ImportClause (.default t.identifier t.origin :: ss) (t :: comma :: c)
  /-- Others. -/
  | rest {ss : List ImportSpecifier} {c : List Token} (h : ImportRest ss c) : ImportClause ss c

/-- Whether an expression can be assigned to. -/
def Expr.isTarget : Expr → Bool
  | .name _ | .member .. | .index .. => true
  | _ => false

/-- Whether a statement ends in a choice without an alternative. -/
def Stmt.isOpen : Stmt → Bool
  | .ifThen _ _ none _ => true
  | .ifThen _ _ (some a) _ => a.isOpen
  | _ => false

/-- **The grammar**: which tokens derive which phrase. -/
inductive Derives [CharacterNames] : Phrase → List Token → Prop
  -- expressions
  | exprChoice {e : Expr} {c : List Token} (h : Derives (.choice e) c) : Derives (.expr e) c
  | arrow {ids : List Identifier} {e : Expr} {c c' : List Token} {first t : Token}
      (hids : ArrowParams ids c) (hfirst : c.head? = some first) (ht : t.kind = .arrow)
      (h : Derives (.expr e) c') : Derives (.expr (.arrow ids e first.origin)) (c ++ t :: c')
  | arrowBlock {ids : List Identifier} {b : Block} {c c' : List Token} {first t : Token}
      (hids : ArrowParams ids c) (hfirst : c.head? = some first) (ht : t.kind = .arrow)
      (h : Derives (.block b) c') : Derives (.expr (.arrowBlock ids b first.origin)) (c ++ t :: c')
  | assign {target value : Expr} {c c' : List Token} {op : Token} (hop : op.kind.isAssignment)
      (htarget : target.isTarget) (h : Derives (.choice target) c) (h' : Derives (.expr value) c') :
      Derives (.expr (.assign op.text target value target.origin)) (c ++ op :: c')
  | choiceOperation {e : Expr} {c : List Token} (h : Derives (.operation loosest e) c) :
      Derives (.choice e) c
  | conditional {t c a : Expr} {ct cc ca : List Token} {question colon : Token}
      (hquestion : question.kind = .question) (hcolon : colon.kind = .colon)
      (ht : Derives (.operation loosest t) ct) (hc : Derives (.expr c) cc)
      (ha : Derives (.expr a) ca) :
      Derives (.choice (.conditional t c a t.origin)) (ct ++ question :: (cc ++ colon :: ca))
  | operationOperand {e : Expr} {c : List Token} (h : Derives (.operand e) c) :
      Derives (.operation 0 e) c
  | operationTighter {n : Nat} {e : Expr} {c : List Token} (h : Derives (.operation n e) c) :
      Derives (.operation (n + 1) e) c
  | binary {n : Nat} {l r : Expr} {c c' : List Token} {op : Token}
      (hop : op.kind.looseness? = some (n + 1)) (h : Derives (.operation (n + 1) l) c)
      (h' : Derives (.operation n r) c') :
      Derives (.operation (n + 1) (.binary op.text l r l.origin)) (c ++ op :: c')
  | operandSuffixed {e : Expr} {c : List Token} (h : Derives (.suffixed e) c) :
      Derives (.operand e) c
  | unary {e : Expr} {c : List Token} {op : Token} (hop : op.kind.isUnary)
      (h : Derives (.operand e) c) : Derives (.operand (.unary op.text e op.origin)) (op :: c)
  | suffixedPrimary {e : Expr} {c : List Token} (h : Derives (.primary e) c) :
      Derives (.suffixed e) c
  | member {e : Expr} {c : List Token} {dot t : Token} (hdot : dot.kind = .dot)
      (ht : t.kind = .name) (h : Derives (.suffixed e) c) :
      Derives (.suffixed (.member e t.text e.origin)) (c ++ [dot, t])
  | index {e i : Expr} {c c' : List Token} {t t' : Token} (ht : t.kind = .leftBracket)
      (ht' : t'.kind = .rightBracket) (h : Derives (.suffixed e) c) (h' : Derives (.expr i) c') :
      Derives (.suffixed (.index e i e.origin)) (c ++ t :: (c' ++ [t']))
  | call {f : Expr} {as : List Expr} {c c' : List Token} {t : Token} (ht : t.kind = .leftParen)
      (h : Derives (.suffixed f) c) (h' : Derives (.exprs .rightParen false as) c') :
      Derives (.suffixed (.call f as f.origin)) (c ++ t :: c')
  | string {s : CodeText} {t : Token} (ht : StringToken s t) :
      Derives (.primary (.literal (.text s) t.text t.origin)) [t]
  | number {v : LiteralValue} {t : Token} (ht : NumberToken v t) :
      Derives (.primary (.literal v t.text t.origin)) [t]
  | truth {t : Token} {b : Bool} (ht : t.kind = if b then .trueWord else .falseWord) :
      Derives (.primary (.literal (.truth b) t.text t.origin)) [t]
  | null {t : Token} (ht : t.kind = .nullWord) :
      Derives (.primary (.literal .null t.text t.origin)) [t]
  | name {t : Token} (ht : t.kind.isBindingName) : Derives (.primary (.name t.identifier)) [t]
  | array {es : List Expr} {c : List Token} {t : Token} (ht : t.kind = .leftBracket)
      (h : Derives (.exprs .rightBracket true es) c) :
      Derives (.primary (.array es t.origin)) (t :: c)
  | object {ps : List Property} {c : List Token} {t : Token} (ht : t.kind = .leftBrace)
      (h : Derives (.properties ps) c) : Derives (.primary (.object ps t.origin)) (t :: c)
  | group {e : Expr} {c : List Token} {t t' : Token} (ht : t.kind = .leftParen)
      (ht' : t'.kind = .rightParen) (h : Derives (.expr e) c) :
      Derives (.primary (.group e t.origin)) (t :: (c ++ [t']))
  -- lists of expressions
  | noExprs {close : TokenKind} {trailing : Bool} {t : Token} (ht : t.kind = close) :
      Derives (.exprs close trailing []) [t]
  | exprsSome {close : TokenKind} {trailing : Bool} {es : List Expr} {c : List Token}
      (h : Derives (.someExprs close trailing es) c) : Derives (.exprs close trailing es) c
  | lastExpr {close : TokenKind} {trailing : Bool} {e : Expr} {c : List Token} {t : Token}
      (ht : t.kind = close) (h : Derives (.expr e) c) :
      Derives (.someExprs close trailing [e]) (c ++ [t])
  | trailedExpr {close : TokenKind} {e : Expr} {c : List Token} {comma t : Token}
      (hcomma : comma.kind = .comma) (ht : t.kind = close) (h : Derives (.expr e) c) :
      Derives (.someExprs close true [e]) (c ++ [comma, t])
  | moreExprs {close : TokenKind} {trailing : Bool} {e : Expr} {es : List Expr}
      {c c' : List Token} {comma : Token} (hcomma : comma.kind = .comma) (h : Derives (.expr e) c)
      (h' : Derives (.someExprs close trailing es) c') :
      Derives (.someExprs close trailing (e :: es)) (c ++ comma :: c')
  -- properties
  | quotedProperty {key : CodeText} {v : Expr} {c : List Token} {t colon : Token}
      (ht : StringToken key t) (hcolon : colon.kind = .colon) (h : Derives (.expr v) c) :
      Derives (.property ⟨key, v, false, true, t.origin⟩) (t :: colon :: c)
  | property {v : Expr} {c : List Token} {t colon : Token} (ht : t.kind.isBindingName)
      (hcolon : colon.kind = .colon) (h : Derives (.expr v) c) :
      Derives (.property ⟨t.text, v, false, false, t.origin⟩) (t :: colon :: c)
  | shortProperty {t : Token} (ht : t.kind.isBindingName) :
      Derives (.property ⟨t.text, .name t.identifier, true, false, t.origin⟩) [t]
  | noProperties {t : Token} (ht : t.kind = .rightBrace) : Derives (.properties []) [t]
  | propertiesSome {ps : List Property} {c : List Token} (h : Derives (.someProperties ps) c) :
      Derives (.properties ps) c
  | lastProperty {p : Property} {c : List Token} {t : Token} (ht : t.kind = .rightBrace)
      (h : Derives (.property p) c) : Derives (.someProperties [p]) (c ++ [t])
  | trailedProperty {p : Property} {c : List Token} {comma t : Token}
      (hcomma : comma.kind = .comma) (ht : t.kind = .rightBrace) (h : Derives (.property p) c) :
      Derives (.someProperties [p]) (c ++ [comma, t])
  | moreProperties {p : Property} {ps : List Property} {c c' : List Token} {comma : Token}
      (hcomma : comma.kind = .comma) (h : Derives (.property p) c)
      (h' : Derives (.someProperties ps) c') :
      Derives (.someProperties (p :: ps)) (c ++ comma :: c')
  -- blocks
  | block {ss : List Stmt} {c : List Token} {t : Token} (ht : t.kind = .blockBrace)
      (h : Derives (.untilBrace ss) c) : Derives (.block ⟨ss, t.origin⟩) (t :: c)
  | brace {t : Token} (ht : t.kind = .rightBrace) : Derives (.untilBrace []) [t]
  | blockNothing {ss : List Stmt} {c : List Token} {t : Token} (ht : t.kind = .terminator)
      (h : Derives (.untilBrace ss) c) : Derives (.untilBrace ss) (t :: c)
  | blockStmt {s : Stmt} {ss : List Stmt} {c c' : List Token} (h : Derives (.stmt s) c)
      (h' : Derives (.untilBrace ss) c') : Derives (.untilBrace (s :: ss)) (c ++ c')
  -- declarations
  | declarator {t : Token} (ht : t.kind.isBindingName) :
      Derives (.declarator ⟨t.identifier, none, t.origin⟩) [t]
  | declaratorInit {e : Expr} {c : List Token} {t assign : Token} (ht : t.kind.isBindingName)
      (hassign : assign.kind = .assign) (h : Derives (.expr e) c) :
      Derives (.declarator ⟨t.identifier, some e, t.origin⟩) (t :: assign :: c)
  | lastDeclarator {d : Declarator} {c : List Token} (h : Derives (.declarator d) c) :
      Derives (.declarators [d]) c
  | moreDeclarators {d : Declarator} {ds : List Declarator} {c c' : List Token} {comma : Token}
      (hcomma : comma.kind = .comma) (h : Derives (.declarator d) c)
      (h' : Derives (.declarators ds) c') : Derives (.declarators (d :: ds)) (c ++ comma :: c')
  | variableDecl {kind : VariableKind} {ds : List Declarator} {c : List Token} {t fin : Token}
      (ht : t.kind.variableKind? = some kind) (hfin : fin.kind = .terminator)
      (h : Derives (.declarators ds) c) :
      Derives (.declaration (.variables kind ds t.origin)) (t :: (c ++ [fin]))
  | functionDecl {ids : List Identifier} {b : Block} {ci c : List Token} {t f paren : Token}
      (ht : t.kind = .functionWord) (hf : f.kind.isBindingName) (hparen : paren.kind = .leftParen)
      (hids : Listed BindingToken .rightParen false ids ci) (h : Derives (.block b) c) :
      Derives (.declaration (.function f.identifier ids b t.origin))
        (t :: f :: paren :: (ci ++ c))
  -- statements
  | importBare {s : CodeText} {t source fin : Token} (ht : t.kind = .importWord)
      (hsource : StringToken s source) (hfin : fin.kind = .terminator) :
      Derives (.stmt (.importDecl [] s t.origin)) [t, source, fin]
  | importNames {ss : List ImportSpecifier} {s : CodeText} {c : List Token}
      {t source fin from' : Token} (ht : t.kind = .importWord) (hclause : ImportClause ss c)
      (hfrom : from'.kind = .fromWord) (hsource : StringToken s source)
      (hfin : fin.kind = .terminator) :
      Derives (.stmt (.importDecl ss s t.origin)) (t :: (c ++ [from', source, fin]))
  | exportLocal {ss : List ExportSpecifier} {c : List Token} {t brace fin : Token}
      (ht : t.kind = .exportWord) (hbrace : brace.kind = .leftBrace)
      (hss : Listed (ExportTokens true) .rightBrace true ss c) (hfin : fin.kind = .terminator) :
      Derives (.stmt (.exportNamed ss none t.origin)) (t :: brace :: (c ++ [fin]))
  | exportFrom {ss : List ExportSpecifier} {s : CodeText} {c : List Token}
      {t brace from' source fin : Token} (ht : t.kind = .exportWord)
      (hbrace : brace.kind = .leftBrace) (hss : Listed (ExportTokens false) .rightBrace true ss c)
      (hfrom : from'.kind = .fromWord) (hsource : StringToken s source)
      (hfin : fin.kind = .terminator) :
      Derives (.stmt (.exportNamed ss (some s) t.origin))
        (t :: brace :: (c ++ [from', source, fin]))
  | exportAll {s : CodeText} {t star from' source fin : Token} (ht : t.kind = .exportWord)
      (hstar : star.kind = .star) (hfrom : from'.kind = .fromWord) (hsource : StringToken s source)
      (hfin : fin.kind = .terminator) :
      Derives (.stmt (.exportAll s t.origin)) [t, star, from', source, fin]
  | exportDecl {d : Declaration} {c : List Token} {t : Token} (ht : t.kind = .exportWord)
      (h : Derives (.declaration d) c) : Derives (.stmt (.exportDecl d t.origin)) (t :: c)
  | exportDefault {e : Expr} {c : List Token} {t default fin : Token} (ht : t.kind = .exportWord)
      (hdefault : default.kind = .defaultWord) (hfin : fin.kind = .terminator)
      (h : Derives (.expr e) c) :
      Derives (.stmt (.exportDefault e t.origin)) (t :: default :: (c ++ [fin]))
  | declaration {d : Declaration} {c : List Token} (h : Derives (.declaration d) c) :
      Derives (.stmt (.declaration d)) c
  | blockStatement {b : Block} {c : List Token} (h : Derives (.block b) c) :
      Derives (.stmt (.block b)) c
  | returnNothing {t fin : Token} (ht : t.kind = .returnWord) (hfin : fin.kind = .terminator) :
      Derives (.stmt (.returnValue none t.origin)) [t, fin]
  | returnValue {e : Expr} {c : List Token} {t fin : Token} (ht : t.kind = .returnWord)
      (hfin : fin.kind = .terminator) (h : Derives (.expr e) c) :
      Derives (.stmt (.returnValue (some e) t.origin)) (t :: (c ++ [fin]))
  | ifThen {e : Expr} {s : Stmt} {c cs : List Token} {t paren close : Token}
      (ht : t.kind = .ifWord) (hparen : paren.kind = .leftParen) (hclose : close.kind = .rightParen)
      (h : Derives (.expr e) c) (hs : Derives (.branch s) cs) :
      Derives (.stmt (.ifThen e s none t.origin)) (t :: paren :: (c ++ close :: cs))
  | ifElse {e : Expr} {s a : Stmt} {c cs ca : List Token} {t paren close other : Token}
      (ht : t.kind = .ifWord) (hparen : paren.kind = .leftParen) (hclose : close.kind = .rightParen)
      (hother : other.kind = .elseWord) (hopen : s.isOpen = false) (h : Derives (.expr e) c)
      (hs : Derives (.branch s) cs) (ha : Derives (.branch a) ca) :
      Derives (.stmt (.ifThen e s (some a) t.origin))
        (t :: paren :: (c ++ close :: (cs ++ other :: ca)))
  | exprStatement {e : Expr} {c : List Token} {fin : Token} (hfin : fin.kind = .terminator)
      (h : Derives (.expr e) c) : Derives (.stmt (.expr e e.origin)) (c ++ [fin])
  | branchStmt {s : Stmt} {c : List Token} (h : Derives (.stmt s) c) : Derives (.branch s) c
  | branchNothing {t : Token} (ht : t.kind = .terminator) :
      Derives (.branch (.block ⟨[], t.origin⟩)) [t]
  -- modules
  | noStmts : Derives (.body []) []
  | nothing {ss : List Stmt} {c : List Token} {t : Token} (ht : t.kind = .terminator)
      (h : Derives (.body ss) c) : Derives (.body ss) (t :: c)
  | stmts {s : Stmt} {ss : List Stmt} {c c' : List Token} (h : Derives (.stmt s) c)
      (h' : Derives (.body ss) c') : Derives (.body (s :: ss)) (c ++ c')

/-- A primary expression is an expression of every other level. -/
theorem Derives.ofPrimary [CharacterNames] {e : Expr} {c : List Token}
    (h : Derives (.primary e) c) : Derives (.expr e) c :=
  .exprChoice (.choiceOperation (.operationTighter (.operationTighter (.operationTighter
    (.operationTighter (.operationTighter (.operationTighter (.operationOperand
      (.operandSuffixed (.suffixedPrimary h))))))))))

end MessageBinder
