import MessageBinder.Token.Terminator
import MessageBinder.Tree.Error
import MessageBinder.Tree.Literal

/-!
# Reading modules

The grammar is read by descent over the tokens whose statement ends are settled. One token of
look-ahead decides everywhere but for arrow functions: their parameters look like a name or a
grouping until the arrow comes, so an expression is read together with its *shape*, which says
whether it could be the parameters of an arrow that follows. Reading stops at the first token that
no module can have there.

Some texts have the form of a module and are none, such as `1 = 2`. What is read is therefore a
*checked* tree: a tree, or the fault that a walk through it in order meets first. The fault counts
only when the whole text has been read.

The functions take a bound on the depth of the descent, `maxDepth`, which is proportional to the
number of tokens and never reached.
-/

namespace MessageBinder

/-- Why reading stopped: at the tokens left, whose first cannot stand here, or at the bound. -/
inductive Stop where
  /-- The first of these tokens, or the end if there is none, cannot stand here. -/
  | unexpected (rest : List Token)
  /-- The descent is too deep. -/
  | tooDeep

/-- A reader of tokens. -/
abbrev Parse := StateT (List Token) (Except Stop)

/-- A part of the tree, or the fault that a walk through it in order meets first. -/
abbrev Checked := Except ModuleError

namespace Parse

/-! ### Single tokens -/

/-- The kind of the next token. -/
def peek : Parse (Option TokenKind) := return (← get).head?.map (·.kind)

/-- Gives up at the bound. -/
def tooDeep {α : Type} : Parse α := fun _ => .error .tooDeep

/-- Takes the next token if its kind is admitted. -/
def accept (admits : TokenKind → Bool) : Parse Token
  | t :: rest => if admits t.kind then .ok (t, rest) else .error (.unexpected (t :: rest))
  | [] => .error (.unexpected [])

/-- Takes a token of the given kind. -/
def expect (kind : TokenKind) : Parse Token := accept (· = kind)

/-- Takes the next token if it is of the given kind, and says whether it was. -/
def skip? (kind : TokenKind) : Parse Bool := do
  if (← peek) = some kind then
    let _ ← expect kind
    return true
  else return false

/-! ### Lists -/

/-- Reads items with commas between them up to a closing token. A comma may stand before the closing
token if `trailing` says so. -/
def moreItems {α : Type} (item : Parse α) (close : TokenKind) (trailing : Bool) :
    Nat → Parse (List α)
  | 0 => tooDeep
  | n + 1 => do
    let x ← item
    if ← skip? .comma then
      if trailing && (← peek) = some close then
        let _ ← expect close
        return [x]
      else return x :: (← moreItems item close trailing n)
    else
      let _ ← expect close
      return [x]

/-- Reads the items of a list, perhaps none, up to its closing token. -/
def items {α : Type} (item : Parse α) (close : TokenKind) (trailing : Bool) (n : Nat) :
    Parse (List α) := do
  if ← skip? close then return [] else moreItems item close trailing n

end Parse

open Parse

namespace TokenKind

/-- Whether a token of this kind assigns. -/
def isAssignment : TokenKind → Bool
  | assign | plusAssign | minusAssign => true
  | _ => false

/-- Whether a token of this kind stands before its operand. -/
def isUnary : TokenKind → Bool
  | bang | minus | plus | typeofWord | newWord => true
  | _ => false

/-- How loosely an operator between two operands binds. -/
def looseness? : TokenKind → Option Nat
  | star | slash | percent => some 1
  | plus | minus => some 2
  | atMost | atLeast | less | greater => some 3
  | strictEqual | strictUnequal | equal | unequal => some 4
  | both => some 5
  | either => some 6
  | _ => none

/-- The kind of variable that a word declares. -/
def variableKind? : TokenKind → Option VariableKind
  | constWord => some .const
  | letWord => some .let
  | varWord => some .var
  | _ => none

end TokenKind

/-- The loosest binding between two operands. -/
def loosest : Nat := 6

/-- The identifier that a token writes. -/
def Token.identifier (t : Token) : Identifier := ⟨t.text, t.origin⟩

variable [CharacterNames]

/-- The value of a string token. -/
def Token.stringValue (t : Token) : Checked CodeText :=
  match StringLiteral.value? t.text with
  | some s => .ok s
  | none =>
    .error (.unreadableString
      (if t.text.toList.contains '\x00' then .nullCharacter else .malformed))

/-- The value of a number token. -/
def Token.numberValue (t : Token) : Checked LiteralValue :=
  (NumberLiteral.value t.text).mapError .longInteger

/-! ### Expressions -/

/-- What an expression looks like to an arrow that follows it. -/
inductive Shape where
  /-- A name alone. -/
  | name (id : Identifier)
  /-- A grouping, its items by their origins and, where they are names alone, their identifiers. -/
  | group (items : List (Origin × Option Identifier))
  /-- Anything else. -/
  | other

/-- An expression as it is read. -/
structure Reading where
  /-- Where it starts. -/
  origin : Origin
  /-- What it looks like to an arrow. -/
  shape : Shape
  /-- The expression. -/
  expr : Checked Expr

namespace Reading

/-- The identifier of a name alone. -/
def identifier? (r : Reading) : Option Identifier :=
  match r.shape with
  | .name id => some id
  | _ => none

/-- The use of a name. -/
def name (t : Token) : Reading :=
  ⟨t.origin, .name t.identifier, .ok (.name t.identifier)⟩

/-- A literal. -/
def literal (t : Token) (value : Checked LiteralValue) : Reading :=
  ⟨t.origin, .other, value.map (Expr.literal · t.text t.origin)⟩

/-- A grouping: one expression between parentheses, unless an arrow follows. -/
def group (o : Origin) (items : List Reading) : Reading where
  origin := o
  shape := .group (items.map fun r => (r.origin, r.identifier?))
  expr :=
    match items with
    | [r] => r.expr.map (Expr.group · o)
    | _ => .error (.faultAt .groupSize o)

/-- An array. -/
def array (o : Origin) (items : List Reading) : Reading :=
  ⟨o, .other, return .array (← items.mapM (·.expr)) o⟩

/-- An object. -/
def object (o : Origin) (properties : List (Checked Property)) : Reading :=
  ⟨o, .other, return .object (← properties.mapM id) o⟩

/-- A member by its name. -/
def member (r : Reading) (property : Token) : Reading :=
  ⟨r.origin, .other, return .member (← r.expr) property.text r.origin⟩

/-- An element by its index. -/
def index (r i : Reading) : Reading :=
  ⟨r.origin, .other, return .index (← r.expr) (← i.expr) r.origin⟩

/-- A call. -/
def call (r : Reading) (args : List Reading) : Reading :=
  ⟨r.origin, .other, return .call (← r.expr) (← args.mapM (·.expr)) r.origin⟩

/-- An operator before its operand. -/
def unary (op : Token) (r : Reading) : Reading :=
  ⟨op.origin, .other, return .unary op.text (← r.expr) op.origin⟩

/-- An operator between its operands. -/
def binary (l : Reading) (op : Token) (r : Reading) : Reading :=
  ⟨l.origin, .other, return .binary op.text (← l.expr) (← r.expr) l.origin⟩

/-- A choice by a condition. -/
def conditional (test consequent alternate : Reading) : Reading :=
  ⟨test.origin, .other,
    return .conditional (← test.expr) (← consequent.expr) (← alternate.expr) test.origin⟩

/-- An assignment; its target is looked at before its value. -/
def assign (target : Reading) (op : Token) (value : Reading) : Reading where
  origin := target.origin
  shape := .other
  expr := do
    let t ← target.expr
    match t with
    | .name _ | .member .. | .index .. =>
      return .assign op.text t (← value.expr) target.origin
    | _ => throw (.faultAt .assignmentTarget target.origin)

end Reading

/-- The parameters that a shape gives to an arrow, if it can stand before one. -/
def Shape.params? : Shape → Option (Checked (List Identifier))
  | .name id => some (.ok [id])
  | .group items => some (items.mapM fun (o, id?) =>
      match id? with
      | some id => .ok id
      | none => .error (.faultAt .arrowParameter o))
  | .other => none

/-- An arrow function with its parameters before the arrow; they are looked at before the body. -/
def Reading.arrow (o : Origin) (params : Checked (List Identifier))
    (body : Checked Expr ⊕ Checked Block) : Reading :=
  ⟨o, .other, do
    let ids ← params
    match body with
    | .inl e => return .arrow ids (← e) o
    | .inr b => return .arrowBlock ids (← b) o⟩

/-! ### Imports and exports -/

/-- Reads a name of an import or export list with the name behind `as`, if there is one. -/
def readAlias (admits : TokenKind → Bool) : Parse (Token × Option Token) := do
  let t ← accept TokenKind.isExportName
  if ← skip? .asWord then return (t, some (← accept admits)) else return (t, none)

/-- Reads one name of an import list. -/
def readImportSpecifier : Parse (Checked ImportSpecifier) := do
  let (t, alias?) ← readAlias TokenKind.isBindingName
  let binding := alias?.getD t
  if binding.kind = .defaultWord then return .error (.faultAt .importedDefault t.origin)
  else return .ok (.named t.text binding.identifier t.origin)

/-- Reads one name of an export list. -/
def readExportSpecifier : Parse (Token × ExportSpecifier) := do
  let (t, alias?) ← readAlias TokenKind.isExportName
  return (t, ⟨t.identifier, (alias?.getD t).text, t.origin⟩)

/-- A list of local exports names bindings, and `default` is none. -/
def localExport : Token × ExportSpecifier → Checked ExportSpecifier
  | (t, s) => if t.kind = .defaultWord then .error (.faultAt .exportedDefault t.origin) else .ok s

/-- Reads what an import binds, after its default export if that is bound. -/
def readImportRest (n : Nat) : Parse (Checked (List ImportSpecifier)) := do
  if ← skip? .star then
    let _ ← expect .asWord
    let t ← expect .name
    return .ok [.all t.identifier t.origin]
  else
    let _ ← expect .leftBrace
    return (← items readImportSpecifier .rightBrace true n).mapM id

/-- Reads what an import binds. -/
def readImportClause (n : Nat) : Parse (Checked (List ImportSpecifier)) := do
  if (← peek) = some .name then
    let t ← expect .name
    let first := ImportSpecifier.default t.identifier t.origin
    if ← skip? .comma then
      let rest ← readImportRest n
      return return first :: (← rest)
    else return .ok [first]
  else readImportRest n

/-- Reads a string and the end of the statement. -/
def readSource : Parse Token := do
  let t ← expect .string
  let _ ← expect .terminator
  return t

/-- Reads an import after its first word; its source is looked at first. -/
def readImport (o : Origin) (n : Nat) : Parse (Checked Stmt) := do
  if (← peek) = some .string then
    let source ← readSource
    return return .importDecl [] (← source.stringValue) o
  else
    let specifiers ← readImportClause n
    let _ ← expect .fromWord
    let source ← readSource
    return do
      let s ← source.stringValue
      return .importDecl (← specifiers) s o

/-- Reads an export list after its opening brace, and the source of a re-export. -/
def readExportList (o : Origin) (n : Nat) : Parse (Checked Stmt) := do
  let specifiers ← items readExportSpecifier .rightBrace true n
  if ← skip? .fromWord then
    let source ← readSource
    return return .exportNamed (specifiers.map (·.2)) (some (← source.stringValue)) o
  else
    let _ ← expect .terminator
    return return .exportNamed (← specifiers.mapM localExport) none o

/-- Reads a re-export of everything after its star. -/
def readExportAll (o : Origin) : Parse (Checked Stmt) := do
  let _ ← expect .fromWord
  let source ← readSource
  return return .exportAll (← source.stringValue) o

/-! ### The descent -/

/-- A statement as it is read. -/
inductive ReadStmt where
  /-- A terminator alone, by its place. -/
  | nothing (o : Origin)
  /-- A statement. -/
  | stmt (s : Checked Stmt)

namespace ReadStmt

/-- The statement, if there is one. -/
def stmt? : ReadStmt → Option (Checked Stmt)
  | nothing _ => none
  | stmt s => some s

/-- The statement as a branch of a choice, where nothing is an empty block. -/
def branch : ReadStmt → Checked Stmt
  | nothing o => .ok (.block ⟨[], o⟩)
  | stmt s => s

/-- The statements of a sequence. -/
def body (rs : List ReadStmt) : Checked (List Stmt) := (rs.filterMap stmt?).mapM id

end ReadStmt

/-- A choice between statements. -/
def readChoice (o : Origin) (test : Reading) (consequent : ReadStmt)
    (alternate : Option ReadStmt) : Checked Stmt := do
  let t ← test.expr
  let c ← consequent.branch
  match alternate with
  | some a => return .ifThen t c (some (← a.branch)) o
  | none => return .ifThen t c none o

mutual

/-- Reads an expression. -/
def readExpr : Nat → Parse Reading
  | 0 => tooDeep
  | n + 1 => do
    let left ← readConditional n
    match ← peek with
    | some .arrow =>
      match left.shape.params? with
      | some params =>
        let _ ← expect .arrow
        return .arrow left.origin params (← readArrowBody n)
      | none => return left
    | some kind =>
      if kind.isAssignment then
        let op ← accept TokenKind.isAssignment
        return left.assign op (← readExpr n)
      else return left
    | none => return left

/-- Reads the body of an arrow function. -/
def readArrowBody : Nat → Parse (Checked Expr ⊕ Checked Block)
  | 0 => tooDeep
  | n + 1 => do
    if (← peek) = some .blockBrace then return .inr (← readBlock n)
    else return .inl (← readExpr n).expr

/-- Reads an expression without arrow and assignment outside brackets and branches. -/
def readConditional : Nat → Parse Reading
  | 0 => tooDeep
  | n + 1 => do
    let test ← readBinary n loosest
    if ← skip? .question then
      let consequent ← readExpr n
      let _ ← expect .colon
      return .conditional test consequent (← readExpr n)
    else return test

/-- Reads operands and operators that bind as given or more tightly. -/
def readBinary : Nat → Nat → Parse Reading
  | 0, _ => tooDeep
  | n + 1, 0 => readUnary n
  | n + 1, looseness + 1 => do
    readOperators n looseness (← readBinary n looseness)

/-- Reads further operators that bind just more loosely than given, each with its right operand. -/
def readOperators : Nat → Nat → Reading → Parse Reading
  | 0, _, _ => tooDeep
  | n + 1, looseness, left => do
    if (← peek).bind TokenKind.looseness? = some (looseness + 1) then
      let op ← accept fun k => k.looseness? = some (looseness + 1)
      let right ← readBinary n looseness
      readOperators n looseness (left.binary op right)
    else return left

/-- Reads operators before an operand and the operand. -/
def readUnary : Nat → Parse Reading
  | 0 => tooDeep
  | n + 1 => do
    if (← peek).any TokenKind.isUnary then
      let op ← accept TokenKind.isUnary
      return .unary op (← readUnary n)
    else
      readSuffixes n (← readPrimary n)

/-- Reads members, elements and calls after an expression. -/
def readSuffixes : Nat → Reading → Parse Reading
  | 0, _ => tooDeep
  | n + 1, left => do
    match ← peek with
    | some .dot =>
      let _ ← expect .dot
      readSuffixes n (left.member (← expect .name))
    | some .leftBracket =>
      let _ ← expect .leftBracket
      let i ← readExpr n
      let _ ← expect .rightBracket
      readSuffixes n (left.index i)
    | some .leftParen =>
      let _ ← expect .leftParen
      readSuffixes n (left.call (← items (readExpr n) .rightParen false n))
    | _ => return left

/-- Reads an expression that starts with no operator and ends with no suffix. -/
def readPrimary : Nat → Parse Reading
  | 0 => tooDeep
  | n + 1 => do
    match ← peek with
    | some .string =>
      let t ← expect .string
      return .literal t (t.stringValue.map .text)
    | some .number =>
      let t ← expect .number
      return .literal t t.numberValue
    | some .trueWord => return .literal (← expect .trueWord) (.ok (.truth true))
    | some .falseWord => return .literal (← expect .falseWord) (.ok (.truth false))
    | some .nullWord => return .literal (← expect .nullWord) (.ok .null)
    | some .leftBracket =>
      let t ← expect .leftBracket
      return .array t.origin (← items (readExpr n) .rightBracket true n)
    | some .leftBrace =>
      let t ← expect .leftBrace
      return .object t.origin (← items (readProperty n) .rightBrace true n)
    | some .leftParen =>
      let t ← expect .leftParen
      return .group t.origin (← items (readExpr n) .rightParen false n)
    | _ => return .name (← accept TokenKind.isBindingName)

/-- Reads a property; its value is looked at before its key. -/
def readProperty : Nat → Parse (Checked Property)
  | 0 => tooDeep
  | n + 1 => do
    if (← peek) = some .string then
      let t ← expect .string
      let _ ← expect .colon
      let value ← readExpr n
      return do
        let v ← value.expr
        return ⟨← t.stringValue, v, false, true, t.origin⟩
    else
      let t ← accept TokenKind.isBindingName
      if ← skip? .colon then
        let value ← readExpr n
        return return ⟨t.text, ← value.expr, false, false, t.origin⟩
      else return .ok ⟨t.text, .name t.identifier, true, false, t.origin⟩

/-- Reads a block. -/
def readBlock : Nat → Parse (Checked Block)
  | 0 => tooDeep
  | n + 1 => do
    let t ← expect .blockBrace
    let stmts ← readUntilBrace n
    return return ⟨← ReadStmt.body stmts, t.origin⟩

/-- Reads statements up to a closing brace. -/
def readUntilBrace : Nat → Parse (List ReadStmt)
  | 0 => tooDeep
  | n + 1 => do
    if ← skip? .rightBrace then return []
    else
      let stmt ← readStmt n
      return stmt :: (← readUntilBrace n)

/-- Reads one variable of a declaration. -/
def readDeclarator : Nat → Parse (Checked Declarator)
  | 0 => tooDeep
  | n + 1 => do
    let t ← accept TokenKind.isBindingName
    if ← skip? .assign then
      let init ← readExpr n
      return return ⟨t.identifier, some (← init.expr), t.origin⟩
    else return .ok ⟨t.identifier, none, t.origin⟩

/-- Reads the variables of a declaration. -/
def readDeclarators : Nat → Parse (List (Checked Declarator))
  | 0 => tooDeep
  | n + 1 => do
    let declarator ← readDeclarator n
    if ← skip? .comma then return declarator :: (← readDeclarators n)
    else return [declarator]

/-- Reads a declaration of variables with its end. -/
def readVariables : Nat → Parse (Checked Declaration)
  | 0 => tooDeep
  | n + 1 => do
    let t ← accept (·.variableKind?.isSome)
    let kind := t.kind.variableKind?.getD .const
    let declarators ← readDeclarators n
    let _ ← expect .terminator
    return return .variables kind (← declarators.mapM id) t.origin

/-- Reads the declaration of a function. -/
def readFunction : Nat → Parse (Checked Declaration)
  | 0 => tooDeep
  | n + 1 => do
    let t ← expect .functionWord
    let name ← accept TokenKind.isBindingName
    let _ ← expect .leftParen
    let params ← items (accept TokenKind.isBindingName) .rightParen false n
    let body ← readBlock n
    return return .function name.identifier (params.map Token.identifier) (← body) t.origin

/-- Reads an export after its first word. -/
def readExport : Nat → Origin → Parse (Checked Stmt)
  | 0, _ => tooDeep
  | n + 1, o => do
    match ← peek with
    | some .leftBrace =>
      let _ ← expect .leftBrace
      readExportList o n
    | some .star =>
      let _ ← expect .star
      readExportAll o
    | some .functionWord =>
      let d ← readFunction n
      return return .exportDecl (← d) o
    | some .defaultWord =>
      let _ ← expect .defaultWord
      let value ← readExpr n
      let _ ← expect .terminator
      return return .exportDefault (← value.expr) o
    | _ =>
      let d ← readVariables n
      return return .exportDecl (← d) o

/-- Reads the other branch of a choice, if there is one. -/
def readElse : Nat → Parse (Option ReadStmt)
  | 0 => tooDeep
  | n + 1 => do
    if ← skip? .elseWord then return some (← readStmt n) else return none

/-- Reads a statement. -/
def readStmt : Nat → Parse ReadStmt
  | 0 => tooDeep
  | n + 1 => do
    match ← peek with
    | some .terminator => return .nothing (← expect .terminator).origin
    | some .importWord =>
      let t ← expect .importWord
      return .stmt (← readImport t.origin n)
    | some .exportWord =>
      let t ← expect .exportWord
      return .stmt (← readExport n t.origin)
    | some .functionWord =>
      let d ← readFunction n
      return .stmt (d.map .declaration)
    | some .constWord | some .letWord | some .varWord =>
      let d ← readVariables n
      return .stmt (d.map .declaration)
    | some .blockBrace =>
      let b ← readBlock n
      return .stmt (b.map .block)
    | some .returnWord =>
      let t ← expect .returnWord
      if ← skip? .terminator then return .stmt (.ok (.returnValue none t.origin))
      else
        let value ← readExpr n
        let _ ← expect .terminator
        return .stmt (value.expr.map fun e => .returnValue (some e) t.origin)
    | some .ifWord =>
      let t ← expect .ifWord
      let _ ← expect .leftParen
      let test ← readExpr n
      let _ ← expect .rightParen
      let consequent ← readStmt n
      return .stmt (readChoice t.origin test consequent (← readElse n))
    | _ =>
      let value ← readExpr n
      let _ ← expect .terminator
      return .stmt (value.expr.map (.expr · value.origin))

end

/-! ### Modules -/

/-- Reads statements up to the end. -/
def readStatements : Nat → Parse (List ReadStmt)
  | 0 => tooDeep
  | n + 1 => do
    if (← peek).isNone then return []
    else
      let stmt ← readStmt n
      return stmt :: (← readStatements n)

/-- A bound on the descent. Between two tokens it goes at most a fixed number of steps down. -/
def maxDepth (tokens : List Token) : Nat := 16 * (tokens.length + 2)

/-- The fault of reading that stopped, given what the lexer left and the last token. The end of the
tokens is the end of the text unless a character stopped the lexer. -/
def Stop.error (ts : Tokens) : Stop → ModuleError
  | .unexpected (t :: _) => .faultAt (.unexpectedToken t.kind t.text) t.origin
  | _ =>
    match ts.stop, ts.tokens.getLast? with
    | some (c, o), _ => .faultAt (.unexpectedCharacter c) o
    | none, some t => .faultAt .unexpectedEnd t.origin
    | none, none => .fault .unexpectedEnd 1 1

/-- The statements that tokens with settled ends write. -/
def readTokens (ts : Tokens) : Except ModuleError (List Stmt) :=
  match readStatements (maxDepth ts.tokens) ts.tokens, ts.stop with
  | .ok (stmts, _), none => ReadStmt.body stmts
  | .ok _, some (c, o) => .error (.faultAt (.unexpectedCharacter c) o)
  | .error stop, _ => .error (stop.error ts)

/-- The module that a text writes. The numbers of its origins count from `base`. -/
def Module.parse (text : String) (filename : Option String) (base : Nat) :
    Except ModuleError Module := do
  let body ← readTokens (Tokens.ofText text base).terminate
  return ⟨body, filename, base + text.length + 1⟩

end MessageBinder
