import MessageBinder.Table

/-!
# JSON values

A JSON value keeps the order of an object's keys, tells integers from the numbers written with a
point or an exponent, and knows the three numbers that are not finite, which its readers and writers
accept. Its texts are texts of code points, since an escape may write a surrogate.
-/

namespace MessageBinder

/-- A JSON value. -/
inductive Json where
  /-- The null value. -/
  | null
  /-- A truth value. -/
  | bool (b : Bool)
  /-- A number written without point and exponent. -/
  | int (n : Int)
  /-- Any other number. -/
  | float (x : Float)
  /-- A text. -/
  | string (s : CodeText)
  /-- An array. -/
  | array (items : List Json)
  /-- An object, its keys in order of arrival. -/
  | object (fields : List (CodeText × Json))
deriving Inhabited

namespace Json

/-- The value of a text of characters. -/
def ofString (s : String) : Json := .string s

/-- The value of a key of an object. -/
def field? (key : CodeText) : Json → Option Json
  | .object fields => Table.find? key fields
  | _ => none

/-- The text of a string value. -/
def string? : Json → Option CodeText
  | .string s => some s
  | _ => none

/-- Whether a value counts as absent: null, false, zero, and whatever is empty. -/
def isBlank : Json → Bool
  | .null => true
  | .bool b => !b
  | .int n => n = 0
  | .float x => x == 0
  | .string s => s.isEmpty
  | .array items => items.isEmpty
  | .object fields => fields.isEmpty

end Json

end MessageBinder
