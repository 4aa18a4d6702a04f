import MessageBinder.Json.Writer

/-!
# Keys of a collection

The compiler files the messages of a source under texts. A collection that comes back as a list of
pairs may have other keys, as long as they are no arrays or objects. Two keys are the **same** if
they stand for the same value: numbers are compared as numbers, whatever way they are written, and
truth and falsehood count as one and zero. The key that came first is the one that is written; the
written forms of different keys may agree.
-/

namespace MessageBinder

/-- A key of a collection. -/
inductive Key where
  /-- A text. -/
  | text (s : CodeText)
  /-- The null value. -/
  | null
  /-- A truth value. -/
  | bool (b : Bool)
  /-- A number written without point and exponent. -/
  | int (n : Int)
  /-- Any other number. -/
  | float (x : Float)
deriving Inhabited

namespace Key

/-- The key that a value makes, unless it is an array or an object. -/
def ofJson? : Json → Option Key
  | .null => some .null
  | .bool b => some (.bool b)
  | .int n => some (.int n)
  | .float x => some (.float x)
  | .string s => some (.text s)
  | .array _ | .object _ => none

/-- The text that a key is written by. -/
def word : Key → CodeText
  | .text s => s
  | .null => Json.null.render .unicode
  | .bool b => (Json.bool b).render .unicode
  | .int n => (Json.int n).render .unicode
  | .float x => (Json.float x).render .unicode

/-- The integer that a key stands for where it is written as one. -/
def integer? : Key → Option Int
  | .bool b => some (if b then 1 else 0)
  | .int n => some n
  | _ => none

/-- Whether an integer and a binary64 value are the same number. -/
def sameNumber (n : Int) (x : Float) : Bool :=
  if x.isNaN || x.isInf then false
  else
    let b := Decimal.Binary.ofBits (x.toBits &&& 0x7FFFFFFFFFFFFFFF)
    Decimal.compareScaled n.natAbs 0 b.m b.q = .eq && (n = 0 || (n < 0) == (x < 0))

/-- Whether two keys are the same. What is no number is the same as itself here. -/
def same : Key → Key → Bool
  | .text s, .text t => s = t
  | .null, .null => true
  | .float x, .float y => x == y || (x.isNaN && y.isNaN)
  | .float x, k => k.integer?.any (sameNumber · x)
  | k, .float x => k.integer?.any (sameNumber · x)
  | k, l =>
    match k.integer?, l.integer? with
    | some m, some n => m = n
    | _, _ => false

end Key

/-- Messages by the keys of their locales, in the order in which the keys first arrived. -/
abbrev Collection := List (Key × Json)

namespace Collection

/-- The collection of messages that are kept under texts. -/
def ofTable (t : Table Json) : Collection := t.map fun e => (.text e.1, e.2)

/-- Writes a value to a key. A key that is the same stays as it is and where it is. -/
def insert (key : Key) (value : Json) : Collection → Collection
  | [] => [(key, value)]
  | e :: c => if e.1.same key then (e.1, value) :: c else e :: insert key value c

/-- The collection that entries write one after the other. -/
def ofEntries (entries : List (Key × Json)) : Collection :=
  entries.foldl (fun c e => insert e.1 e.2 c) []

/-- The value of a text among the keys. -/
def find? (text : CodeText) (c : Collection) : Option Json :=
  (List.find? (fun e => e.1.same (.text text)) c).map (·.2)

/-- The fields that a collection is written by. -/
def fields (c : Collection) : List (CodeText × Json) := c.map fun e => (e.1.word, e.2)

/-! ### Collections of texts -/

@[simp] theorem fields_ofTable (t : Table Json) : (ofTable t).fields = t := by
  simp [fields, ofTable, Key.word, Function.comp_def]

@[simp] theorem find?_ofTable (text : CodeText) (t : Table Json) :
    (ofTable t).find? text = Table.find? text t := by
  simp [find?, ofTable, Table.find?, List.find?_map, Function.comp_def, Key.same]

end Collection

end MessageBinder
