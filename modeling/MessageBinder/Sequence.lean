import MessageBinder.Tree.Basic

/-!
# Editing a sequence of statements

Statements are told apart by the number of their origin, so that two statements of the same form
stay different. Besides inserting behind a statement once, one can append to it: each further
statement then goes behind those appended before, even if the first one was removed since.
-/

namespace MessageBinder

/-- The word for the form of a statement. -/
def Stmt.word : Stmt → String
  | .importDecl .. => "ImportDecl"
  | .exportNamed .. => "ExportNamed"
  | .exportAll .. => "ExportAll"
  | .exportDecl .. => "ExportDecl"
  | .exportDefault .. => "ExportDefault"
  | .declaration (.variables ..) => "VarDecl"
  | .declaration (.function ..) => "FunctionDecl"
  | .block _ => "Block"
  | .returnValue .. => "Return"
  | .ifThen .. => "If"
  | .expr .. => "ExprStmt"

/-- A statement to which an edit refers is not in the sequence. -/
structure AbsentStmt where
  /-- The word for the form of the statement. -/
  word : String
deriving DecidableEq, Repr

/-- The wording of the failure. -/
def AbsentStmt.message (e : AbsentStmt) : String := "statement not in sequence: " ++ e.word

/-- Statements in order, and for each origin that was appended to, the last statement appended. -/
structure Sequence where
  /-- The statements. -/
  body : List Stmt
  /-- The last statement appended to each origin, the latest first. -/
  tails : List (Nat × Stmt) := []

namespace Sequence

/-- The position of a statement. -/
def indexOf (q : Sequence) (stmt : Stmt) : Except AbsentStmt Nat :=
  match q.body.findIdx? (·.origin.id = stmt.origin.id) with
  | some i => .ok i
  | none => .error ⟨stmt.word⟩

/-- The sequence with a statement right behind another one. -/
def insertAfter (q : Sequence) (anchor stmt : Stmt) : Except AbsentStmt Sequence := do
  let i ← q.indexOf anchor
  return { q with body := q.body.insertIdx (i + 1) stmt }

/-- The statement behind which the next one appended to an origin goes. -/
def tailOf (q : Sequence) (origin : Stmt) : Stmt :=
  ((q.tails.find? (·.1 = origin.origin.id)).map (·.2)).getD origin

/-- The sequence with a statement behind another one and all that was appended to it. -/
def appendAfter (q : Sequence) (origin stmt : Stmt) : Except AbsentStmt Sequence := do
  let q ← q.insertAfter (q.tailOf origin) stmt
  return { q with tails := (origin.origin.id, stmt) :: q.tails }

/-- The sequence with a statement in front. -/
def prepend (q : Sequence) (stmt : Stmt) : Sequence := { q with body := stmt :: q.body }

/-- The sequence without a statement, where it stands first. -/
def remove (q : Sequence) (stmt : Stmt) : Except AbsentStmt Sequence := do
  let i ← q.indexOf stmt
  return { q with body := q.body.eraseIdx i }

end Sequence

end MessageBinder
