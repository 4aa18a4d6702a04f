import MessageBinder.Text.CodeText
import MessageBinder.Token.Basic

/-!
# The tree of a module

A module is a list of statements over expressions. Every node keeps the origin of its first token,
and an identifier is a name together with its origin, so that two uses of one name stay apart when
one of them is renamed. Groupings in parentheses are nodes of their own: the printer writes them
back where they were and adds none.

Identifiers are the names that can refer to a binding or declare one. Property keys, member names
and the names under which a module exports are plain texts. What a string of the module can write is
a text of code points: literals, keys and the sources of imports and exports.
-/

namespace MessageBinder

/-- A name at its place: the unit of renaming. -/
structure Identifier where
  /-- The name. -/
  name : String
  /-- Where it stands. -/
  origin : Origin
deriving DecidableEq, Repr, Inhabited

/-- The value of a literal. -/
inductive LiteralValue where
  /-- A text. -/
  | text (s : CodeText)
  /-- A number written without point and exponent. -/
  | integer (n : Nat)
  /-- Any other number. -/
  | float (x : Float)
  /-- A truth value. -/
  | truth (b : Bool)
  /-- The null value. -/
  | null
deriving Inhabited

/-- The words that declare variables. -/
inductive VariableKind where
  | const | let | var
deriving DecidableEq, Repr, Inhabited

/-- The word of a kind of variable. -/
def VariableKind.word : VariableKind → String
  | .const => "const"
  | .let => "let"
  | .var => "var"

/-- One binding that an import makes. -/
inductive ImportSpecifier where
  /-- The export of the given name. -/
  | named (exported : String) (binding : Identifier) (origin : Origin)
  /-- The default export. -/
  | default (binding : Identifier) (origin : Origin)
  /-- All exports as one value. -/
  | all (binding : Identifier) (origin : Origin)
deriving DecidableEq, Repr, Inhabited

/-- The identifier that an import binds. -/
def ImportSpecifier.binding : ImportSpecifier → Identifier
  | .named _ binding _ | .default binding _ | .all binding _ => binding

/-- One name in an export list. -/
structure ExportSpecifier where
  /-- The binding exported, or the export of the other module in a re-export. -/
  source : Identifier
  /-- The name under which it is exported. -/
  exported : String
  /-- Where it stands. -/
  origin : Origin
deriving DecidableEq, Repr, Inhabited

mutual

/-- An expression. -/
inductive Expr where
  /-- The use of a name. -/
  | name (id : Identifier)
  /-- A literal with the text it was written as. -/
  | literal (value : LiteralValue) (raw : String) (origin : Origin)
  /-- A text printed as it is. -/
  | verbatim (text : CodeText) (origin : Origin)
  /-- An array. -/
  | array (elements : List Expr) (origin : Origin)
  /-- An object. -/
  | object (properties : List Property) (origin : Origin)
  /-- A member by its name. -/
  | member (object : Expr) (property : String) (origin : Origin)
  /-- An element by its index. -/
  | index (object : Expr) (index : Expr) (origin : Origin)
  /-- A call. -/
  | call (callee : Expr) (args : List Expr) (origin : Origin)
  /-- An operator before its operand. -/
  | unary (op : String) (operand : Expr) (origin : Origin)
  /-- An operator between its operands. -/
  | binary (op : String) (left : Expr) (right : Expr) (origin : Origin)
  /-- A choice by a condition. -/
  | conditional (test : Expr) (consequent : Expr) (alternate : Expr) (origin : Origin)
  /-- An assignment. -/
  | assign (op : String) (target : Expr) (value : Expr) (origin : Origin)
  /-- A grouping in parentheses. -/
  | group (inner : Expr) (origin : Origin)
  /-- A function whose body is an expression. -/
  | arrow (params : List Identifier) (body : Expr) (origin : Origin)
  /-- A function whose body is a block. -/
  | arrowBlock (params : List Identifier) (body : Block) (origin : Origin)

/-- A property of an object. -/
structure Property where
  /-- The key. -/
  key : CodeText
  /-- The value. -/
  value : Expr
  /-- Whether the key was written alone, as the name of its own value. -/
  shorthand : Bool
  /-- Whether the key was written as a string. -/
  quoted : Bool
  /-- Where it stands. -/
  origin : Origin

/-- One variable of a declaration. -/
structure Declarator where
  /-- The name declared. -/
  id : Identifier
  /-- Its first value. -/
  init : Option Expr
  /-- Where it stands. -/
  origin : Origin

/-- Statements between braces. -/
structure Block where
  /-- The statements. -/
  body : List Stmt
  /-- Where it stands. -/
  origin : Origin

/-- A declaration that can be exported. -/
inductive Declaration where
  /-- Variables. -/
  | variables (kind : VariableKind) (declarators : List Declarator) (origin : Origin)
  /-- A function. -/
  | function (name : Identifier) (params : List Identifier) (body : Block) (origin : Origin)

/-- A statement. -/
inductive Stmt where
  /-- An import. -/
  | importDecl (specifiers : List ImportSpecifier) (source : CodeText) (origin : Origin)
  /-- A list of exports, of this module or of the source if one is given. -/
  | exportNamed (specifiers : List ExportSpecifier) (source : Option CodeText) (origin : Origin)
  /-- A re-export of everything. -/
  | exportAll (source : CodeText) (origin : Origin)
  /-- An exported declaration. -/
  | exportDecl (declaration : Declaration) (origin : Origin)
  /-- The default export. -/
  | exportDefault (value : Expr) (origin : Origin)
  /-- A declaration. -/
  | declaration (d : Declaration)
  /-- A block. -/
  | block (b : Block)
  /-- A return. -/
  | returnValue (value : Option Expr) (origin : Origin)
  /-- A choice by a condition. -/
  | ifThen (test : Expr) (consequent : Stmt) (alternate : Option Stmt) (origin : Origin)
  /-- An expression for its effect. -/
  | expr (value : Expr) (origin : Origin)

end

instance : Inhabited Expr := ⟨.name default⟩

instance : Inhabited Block := ⟨⟨[], default⟩⟩

instance : Inhabited Stmt := ⟨.block default⟩

instance : Inhabited Property := ⟨⟨default, default, false, false, default⟩⟩

instance : Inhabited Declarator := ⟨⟨default, none, default⟩⟩

instance : Inhabited Declaration := ⟨.variables default [] default⟩

/-- The origin of a declaration. -/
def Declaration.origin : Declaration → Origin
  | .variables _ _ o | .function _ _ _ o => o

/-- The origin of a statement. -/
def Stmt.origin : Stmt → Origin
  | .importDecl _ _ o | .exportNamed _ _ o | .exportAll _ o | .exportDecl _ o | .exportDefault _ o
  | .returnValue _ o | .ifThen _ _ _ o | .expr _ o => o
  | .declaration d => d.origin
  | .block b => b.origin

/-- The origin of an expression. -/
def Expr.origin : Expr → Origin
  | .name id => id.origin
  | .literal _ _ o | .verbatim _ o | .array _ o | .object _ o | .member _ _ o | .index _ _ o
  | .call _ _ o | .unary _ _ o | .binary _ _ _ o | .conditional _ _ _ o | .assign _ _ _ o
  | .group _ o | .arrow _ _ o | .arrowBlock _ _ o => o

/-- A module: its statements, the file it was read from, and a number beyond every origin in it. -/
structure Module where
  /-- The statements. -/
  body : List Stmt
  /-- The file, if it is known. -/
  filename : Option String
  /-- A number beyond those of the module's origins. -/
  next : Nat

end MessageBinder
