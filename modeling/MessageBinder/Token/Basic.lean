/-!
# Tokens

A token is a kind, the text it was read from and the place it was read at. Places carry a number
beside line and column: the count of characters before the token, which tells nodes of one kind
apart even when their texts agree. What the library adds to a module is numbered beyond every place
of its text and stands at line zero.
-/

namespace MessageBinder

/-- Where a token or a node comes from. -/
structure Origin where
  /-- The number that tells it from every other of its kind. -/
  id : Nat
  /-- The line, counted from one; zero for what has no place in a text. -/
  line : Nat
  /-- The column, counted from one in characters; zero for what has no place in a text. -/
  column : Nat
deriving DecidableEq, Repr, Inhabited

namespace Origin

/-- The origin of something that has no place in a text. -/
def synthetic (id : Nat) : Origin := ⟨id, 0, 0⟩

/-- The origin of the character after `c`. -/
def next (o : Origin) (c : Char) : Origin :=
  if c = '\n' then ⟨o.id + 1, o.line + 1, 1⟩ else ⟨o.id + 1, o.line, o.column + 1⟩

/-- The origin of what follows a text. -/
def advance (o : Origin) (text : List Char) : Origin := text.foldl next o

end Origin

/-- The kinds of tokens. A newline and a semicolon are tokens of the text; a terminator and a block
brace appear only once the ends of the statements are known. -/
inductive TokenKind where
  | importWord | exportWord | fromWord | asWord | defaultWord | constWord | letWord | varWord
  | functionWord | returnWord | ifWord | elseWord | trueWord | falseWord | nullWord | typeofWord
  | newWord
  | arrow | strictEqual | strictUnequal | equal | unequal | atMost | atLeast | less | greater
  | both | either | plusAssign | minusAssign | assign | plus | minus | star | slash | percent
  | bang | question | colon | comma | dot | semicolon
  | leftParen | rightParen | leftBracket | rightBracket | leftBrace | rightBrace
  | name | string | number | newline
  | terminator | blockBrace
deriving DecidableEq, Repr, Inhabited

namespace TokenKind

/-- The word that messages use for a kind. -/
def label : TokenKind → String
  | importWord => "IMPORT" | exportWord => "EXPORT" | fromWord => "FROM" | asWord => "AS"
  | defaultWord => "DEFAULT" | constWord => "CONST" | letWord => "LET" | varWord => "VAR"
  | functionWord => "FUNCTION" | returnWord => "RETURN" | ifWord => "IF" | elseWord => "ELSE"
  | trueWord => "TRUE" | falseWord => "FALSE" | nullWord => "NULL" | typeofWord => "TYPEOF"
  | newWord => "NEW"
  | arrow => "ARROW" | strictEqual => "STRICT_EQ" | strictUnequal => "STRICT_NE"
  | equal => "EQEQ" | unequal => "NOTEQ" | atMost => "LTE" | atLeast => "GTE"
  | less => "LT" | greater => "GT" | both => "ANDAND" | either => "OROR"
  | plusAssign => "PLUS_EQ" | minusAssign => "MINUS_EQ" | assign => "EQUAL"
  | plus => "PLUS" | minus => "MINUS" | star => "STAR" | slash => "SLASH" | percent => "PERCENT"
  | bang => "BANG" | question => "QMARK" | colon => "COLON" | comma => "COMMA" | dot => "DOT"
  | semicolon => "SEMI"
  | leftParen => "LPAR" | rightParen => "RPAR" | leftBracket => "LSQB" | rightBracket => "RSQB"
  | leftBrace => "LBRACE" | rightBrace => "RBRACE"
  | name => "NAME" | string => "STRING" | number => "NUMBER" | newline => "NEWLINE"
  | terminator => "TERMINATOR" | blockBrace => "BLOCK_LBRACE"

/-- The words of the language that are no names, with their kinds. -/
def words : List (String × TokenKind) :=
  [("import", importWord), ("export", exportWord), ("from", fromWord), ("as", asWord),
   ("default", defaultWord), ("const", constWord), ("let", letWord), ("var", varWord),
   ("function", functionWord), ("return", returnWord), ("if", ifWord), ("else", elseWord),
   ("true", trueWord), ("false", falseWord), ("null", nullWord), ("typeof", typeofWord),
   ("new", newWord)]

/-- Whether a kind is that of a word of the language. -/
def isWord (k : TokenKind) : Bool := words.any (·.2 = k)

/-- The kind of a name or a word of the language. -/
def ofWord (text : String) : TokenKind :=
  match words.find? (·.1 = text) with
  | some (_, kind) => kind
  | none => name

/-- Whether a token of this kind can name a binding. `from` and `as` are words of the language
inside the lists of imports and exports only. -/
def isBindingName : TokenKind → Bool
  | name | fromWord | asWord => true
  | _ => false

/-- Whether a token of this kind can name an export of a module. -/
def isExportName (k : TokenKind) : Bool := k.isBindingName || k = defaultWord

end TokenKind

/-- A token. -/
structure Token where
  /-- Its kind. -/
  kind : TokenKind
  /-- The text it was read from. -/
  text : String
  /-- The place it was read at. -/
  origin : Origin
deriving DecidableEq, Repr, Inhabited

/-- The token read as one of another kind, at its place and with its text. -/
def Token.as (t : Token) (kind : TokenKind) : Token := { t with kind }

end MessageBinder
