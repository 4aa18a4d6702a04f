import MessageBinder.Token.Lexer

/-!
# Where statements end

Statements end at a semicolon, at a newline that their next token cannot continue, at the closing
brace of a block, and at the end of the text. This file turns a sequence of raw tokens into one in
which every such end is a terminator and newlines are gone. Three more readings depend on what came
before and are settled here: a brace in the place of a statement opens a block and not an object,
and a word of the language after a dot is a name.

One step takes one raw token. Its state is the stack of open brackets, the last two kinds emitted,
and a newline that waits for the token after it.
-/

namespace MessageBinder

/-- What an open bracket encloses. -/
inductive Bracket where
  /-- The condition of an `if` or the parameters of a function declaration. -/
  | head
  /-- Anything else between parentheses. -/
  | paren
  /-- An index or an array. -/
  | square
  /-- The fields of an object, or a list of imports or exports. -/
  | brace
  /-- Statements. -/
  | block
deriving DecidableEq, Repr

namespace TokenKind

/-- Whether a token of this kind can be the last of a statement. -/
def endsStatement : TokenKind → Bool
  | name | fromWord | asWord | string | number | trueWord | falseWord | nullWord
  | rightParen | rightBracket | rightBrace | returnWord => true
  | _ => false

/-- Whether a token of this kind after a newline continues the statement before it. -/
def continuesStatement : TokenKind → Bool
  | dot | question | colon | comma | arrow | assign | plusAssign | minusAssign | either | both
  | strictEqual | strictUnequal | equal | unequal | atMost | atLeast | less | greater
  | plus | minus | star | slash | percent | rightParen | rightBracket | fromWord => true
  | _ => false

/-- Whether a brace after a token of this kind opens a block. -/
def precedesBlock : TokenKind → Bool
  | terminator | blockBrace | rightBrace | rightParen | elseWord | arrow => true
  | _ => false

/-- Whether a token of this kind closes a bracket. -/
def closesBracket : TokenKind → Bool
  | rightParen | rightBracket | rightBrace => true
  | _ => false

end TokenKind

/-- The state between two raw tokens. -/
structure StatementScan where
  /-- The open brackets, innermost first. -/
  stack : List Bracket := []
  /-- Whether a statement can end here. -/
  canEnd : Bool := false
  /-- The kind emitted last. -/
  last : Option TokenKind := none
  /-- The kind emitted before the last. -/
  previous : Option TokenKind := none
  /-- The first newline since the last token. -/
  newline : Option Token := none
  /-- The last token that was no newline. -/
  lastToken : Option Token := none

namespace StatementScan

/-- Whether the innermost open bracket, if there is one, encloses statements. -/
def atStatementLevel (s : StatementScan) : Bool :=
  match s.stack.head? with
  | none | some .block => true
  | _ => false

/-- The state after a terminator. -/
def terminated (s : StatementScan) : StatementScan :=
  { s with canEnd := false, previous := s.last, last := some .terminator }

/-- Whether an opening parenthesis here starts the head of an `if` or a function declaration. -/
def opensHead (s : StatementScan) : Bool :=
  s.last = some .ifWord ||
    (s.last.any TokenKind.isBindingName && s.previous = some .functionWord)

/-- The bracket that a token opens here. -/
def opened (s : StatementScan) : TokenKind → Option Bracket
  | .leftParen => some (if s.opensHead then .head else .paren)
  | .leftBracket => some .square
  | .leftBrace => some .brace
  | .blockBrace => some .block
  | _ => none

/-- The state after a token that is no terminator. A head that closes cannot end a statement: what
follows on the next line is its body. -/
def shift (s : StatementScan) (kind : TokenKind) : StatementScan :=
  let closed := if kind.closesBracket then s.stack.head? else none
  { s with
    stack := match s.opened kind with
      | some b => b :: s.stack
      | none => if kind.closesBracket then s.stack.tail else s.stack
    canEnd := kind.endsStatement && closed != some .head
    previous := s.last
    last := some kind }

/-- Whether a newline before a token of this kind ends the statement. -/
def breaksBefore (s : StatementScan) (next : TokenKind) : Bool :=
  if !s.canEnd || !s.atStatementLevel then false
  else if s.last = some .returnWord then true
  else if s.last = some .fromWord && next = .string then false
  else if next.continuesStatement then false
  else if next = .elseWord then s.last != some .rightBrace
  else true

/-- A word of the language after a dot is a name. -/
def asMember (s : StatementScan) (t : Token) : Token :=
  if t.kind.isWord && s.last = some .dot then t.as .name else t

/-- A brace in the place of a statement opens a block. -/
def asBlock (s : StatementScan) (t : Token) : Token :=
  if t.kind = .leftBrace && s.last.all TokenKind.precedesBlock then t.as .blockBrace else t

/-- Settles the waiting newline before a token of the given kind. -/
def settleNewline (s : StatementScan) (next : TokenKind) : List Token × StatementScan :=
  match s.newline with
  | none => ([], s)
  | some t =>
    if s.breaksBefore next then ([t.as .terminator], { s.terminated with newline := none })
    else ([], { s with newline := none })

/-- The last statement of a block ends at its brace. -/
def settleBrace (s : StatementScan) (t : Token) : List Token × StatementScan :=
  if t.kind = .rightBrace && s.stack.head? = some .block && s.canEnd then
    ([t.as .terminator], s.terminated)
  else ([], s)

/-- Takes one raw token: the tokens to emit, and the state after them. -/
def step (s : StatementScan) (t : Token) : List Token × StatementScan :=
  match t.kind with
  | .newline => ([], { s with newline := s.newline <|> some t })
  | .semicolon =>
    ([t.as .terminator], { s.terminated with newline := none, lastToken := some t })
  | _ =>
    let t := s.asMember t
    let (ends, s) := s.settleNewline t.kind
    let (closes, s) := s.settleBrace t
    let t := s.asBlock t
    (ends ++ closes ++ [t], { s.shift t.kind with lastToken := some t })

/-- The terminator of a last statement that nothing else has ended; it stands at the last token. -/
def finish (s : StatementScan) : List Token :=
  match s.lastToken with
  | some t => if s.canEnd && s.atStatementLevel then [t.as .terminator] else []
  | none => []

/-- Takes raw tokens one after the other. -/
def steps (s : StatementScan) : List Token → List Token × StatementScan
  | [] => ([], s)
  | t :: ts =>
    let (out, s) := s.step t
    let (rest, s) := s.steps ts
    (out ++ rest, s)

end StatementScan

/-- The tokens with the ends of the statements settled. Where reading stopped at a character, what
was still waiting is lost. -/
def Tokens.terminate (ts : Tokens) : Tokens :=
  let (out, s) := StatementScan.steps {} ts.tokens
  { ts with tokens := if ts.stop.isNone then out ++ s.finish else out }

end MessageBinder
