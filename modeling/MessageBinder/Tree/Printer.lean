import MessageBinder.Text.Quoted
import MessageBinder.Tree.Basic

/-!
# Printing modules

One layout for every module: a statement per line, ended by a semicolon, two blanks per level inside
blocks, strings between double quotes, and parentheses only where the tree has a grouping. The text
of a statement starts without its indentation; whoever places it on a line puts that in front. The
level matters for the lines inside it.
-/

namespace MessageBinder

/-- The indentation of a level. -/
def indentation (depth : Nat) : String := String.ofList (List.replicate (2 * depth) ' ')

/-- Texts with a comma and a blank between them. -/
def commaSeparated (texts : List CodeText) : CodeText := CodeText.intercalate ", " texts

/-- A text in braces, on one line. -/
def braced (inner : CodeText) : CodeText := "\x7b " ++ inner ++ " \x7d"

/-- Texts in braces, on one line. -/
def inBraces (texts : List CodeText) : CodeText :=
  if texts.isEmpty then "\x7b\x7d" else braced (commaSeparated texts)

/-- A text without the blanks at its front. -/
def trimLeft (text : CodeText) : CodeText := ⟨text.codes.dropWhile (· = .char ' ')⟩

/-- Whether an operator is a word, which a blank parts from its operand. -/
def isWordOperator (op : String) : Bool := !op.isEmpty && op.toList.all Char.isAlpha

/-- The parameters of a function, without parentheses. -/
def paramsText (params : List Identifier) : CodeText :=
  commaSeparated (params.map fun id => id.name)

/-- A string as it is printed. -/
def quotedString (s : CodeText) : CodeText := Text.quoted .unicode s

/-- The text of a name in an import list, or of what stands before the list. -/
def ImportSpecifier.text : ImportSpecifier → String
  | .named exported binding _ =>
    if exported = binding.name then exported else exported ++ " as " ++ binding.name
  | .default binding _ => binding.name
  | .all binding _ => "* as " ++ binding.name

/-- Whether a specifier stands in the braces of an import. -/
def ImportSpecifier.isNamed : ImportSpecifier → Bool
  | .named .. => true
  | _ => false

/-- The text of a name in an export list. -/
def ExportSpecifier.text (s : ExportSpecifier) : String :=
  if s.source.name = s.exported then s.exported else s.source.name ++ " as " ++ s.exported

/-- The text of what an import binds: the default export and the whole first, then the list. -/
def importClause (specifiers : List ImportSpecifier) : CodeText :=
  let first := (specifiers.filter (!·.isNamed)).map fun s => (s.text : CodeText)
  let named := (specifiers.filter (·.isNamed)).map fun s => (s.text : CodeText)
  commaSeparated (first ++ if named.isEmpty then [] else [inBraces named])

/-- The text of an import. -/
def importText (specifiers : List ImportSpecifier) (source : CodeText) : CodeText :=
  if specifiers.isEmpty then "import " ++ quotedString source ++ ";"
  else "import " ++ importClause specifiers ++ " from " ++ quotedString source ++ ";"

/-- The text of an export list. -/
def exportText (specifiers : List ExportSpecifier) (source : Option CodeText) : CodeText :=
  let names := commaSeparated (specifiers.map fun s => s.text)
  let origin : CodeText :=
    match source with
    | some s => " from " ++ quotedString s
    | none => ""
  "export " ++ (if names.isEmpty then "\x7b\x7d" else braced names : CodeText) ++ origin ++ ";"

/-- Whether a property is printed by its key alone: its value is the name of its key. -/
def Property.isShort : Property → Bool
  | ⟨key, .name id, _, quoted, _⟩ => (id.name : CodeText) = key && !quoted
  | _ => false

/-- The text of a branch, made of that of its statement: a block stays as it is, another statement
loses the blanks at its front. -/
def Stmt.branch : Stmt → CodeText → CodeText
  | .block _, text => text
  | _, text => trimLeft text

mutual

/-- The text of an expression. -/
def Expr.text (depth : Nat) : Expr → CodeText
  | .name id => id.name
  | .literal (.text s) _ _ => quotedString s
  | .literal _ raw _ => raw
  | .verbatim text _ => text
  | .array elements _ => "[" ++ commaSeparated (Expr.texts depth elements) ++ "]"
  | .object properties _ => inBraces (Property.texts depth properties)
  | .member object property _ => object.text depth ++ "." ++ property
  | .index object index _ => object.text depth ++ "[" ++ index.text depth ++ "]"
  | .call callee args _ =>
    callee.text depth ++ "(" ++ commaSeparated (Expr.texts depth args) ++ ")"
  | .unary op operand _ => op ++ (if isWordOperator op then " " else "") ++ operand.text depth
  | .binary op left right _ => left.text depth ++ " " ++ op ++ " " ++ right.text depth
  | .conditional test consequent alternate _ =>
    test.text depth ++ " ? " ++ consequent.text depth ++ " : " ++ alternate.text depth
  | .assign op target value _ => target.text depth ++ " " ++ op ++ " " ++ value.text depth
  | .group inner _ => "(" ++ inner.text depth ++ ")"
  | .arrow params body _ => "(" ++ paramsText params ++ ") => " ++ body.text depth
  | .arrowBlock params body _ => "(" ++ paramsText params ++ ") => " ++ body.text depth

/-- The texts of expressions. -/
def Expr.texts (depth : Nat) : List Expr → List CodeText
  | [] => []
  | e :: es => e.text depth :: Expr.texts depth es

/-- The texts of properties. -/
def Property.texts (depth : Nat) : List Property → List CodeText
  | [] => []
  | p :: ps => p.text depth :: Property.texts depth ps

/-- The text of a property. -/
def Property.text (depth : Nat) : Property → CodeText
  | ⟨key, value, shorthand, quoted, o⟩ =>
    if Property.isShort ⟨key, value, shorthand, quoted, o⟩ then key
    else (if quoted then quotedString key else key) ++ ": " ++ value.text depth

/-- The text of a variable with its first value. -/
def Declarator.text (depth : Nat) : Declarator → CodeText
  | ⟨id, none, _⟩ => id.name
  | ⟨id, some init, _⟩ => id.name ++ " = " ++ init.text depth

/-- The texts of variables. -/
def Declarator.texts (depth : Nat) : List Declarator → List CodeText
  | [] => []
  | d :: ds => d.text depth :: Declarator.texts depth ds

/-- The text of a block whose closing brace is indented as given. -/
def Block.text (depth : Nat) : Block → CodeText
  | ⟨[], _⟩ => "\x7b\x7d"
  | ⟨stmt :: stmts, _⟩ =>
    "\x7b\n" ++ CodeText.intercalate "\n" (Stmt.texts (depth + 1) (stmt :: stmts)) ++ "\n" ++
      indentation depth ++ "\x7d"

/-- The text of a declaration. -/
def Declaration.text (depth : Nat) : Declaration → CodeText
  | .variables kind declarators _ =>
    kind.word ++ " " ++ commaSeparated (Declarator.texts depth declarators) ++ ";"
  | .function name params body _ =>
    "function " ++ name.name ++ "(" ++ paramsText params ++ ") " ++ body.text depth

/-- The text of a statement without its indentation. -/
def Stmt.text (depth : Nat) : Stmt → CodeText
  | .importDecl specifiers source _ => importText specifiers source
  | .exportNamed specifiers source _ => exportText specifiers source
  | .exportAll source _ => "export * from " ++ quotedString source ++ ";"
  | .exportDecl declaration _ => "export " ++ declaration.text depth
  | .exportDefault value _ => "export default " ++ value.text depth ++ ";"
  | .declaration d => d.text depth
  | .block b => b.text depth
  | .returnValue none _ => "return;"
  | .returnValue (some value) _ => "return " ++ value.text depth ++ ";"
  | .ifThen test consequent none _ =>
    "if (" ++ test.text depth ++ ") " ++ consequent.branch (consequent.text depth)
  | .ifThen test consequent (some alternate) _ =>
    "if (" ++ test.text depth ++ ") " ++ consequent.branch (consequent.text depth) ++ " else " ++
      alternate.branch (alternate.text depth)
  | .expr value _ => value.text depth ++ ";"

/-- The texts of statements, each with its indentation. -/
def Stmt.texts (depth : Nat) : List Stmt → List CodeText
  | [] => []
  | stmt :: stmts => (indentation depth ++ stmt.text depth) :: Stmt.texts depth stmts

end

/-- Whether the text of a statement is one line whatever its names hold. -/
def Stmt.isSingleLine : Stmt → Bool
  | .importDecl .. | .exportNamed .. | .exportAll .. => true
  | _ => false

/-- The lines of a statement. -/
def Stmt.lines (depth : Nat) (stmt : Stmt) : List CodeText :=
  let text := indentation depth ++ stmt.text depth
  if stmt.isSingleLine then [text] else (text.codes.splitOn (.char '\n')).map CodeText.mk

/-- The text of a module. -/
def Module.text (m : Module) : CodeText :=
  CodeText.join ((Stmt.texts 0 m.body).map (· ++ "\n"))

end MessageBinder
