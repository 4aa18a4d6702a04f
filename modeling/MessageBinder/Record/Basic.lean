import MessageBinder.Catalogue.Basic
import MessageBinder.Json.Shown
import MessageBinder.Record.Key
import MessageBinder.Text.Lower

/-!
# Records of messages

A compiled module carries one record: a mark that it was injected, the path of its source, and the
messages of every locale. The bound accessor looks up the messages of a locale, whatever the case of
its letters; a locale without messages has none, and that is no failure. Without the mark the module
was never compiled, and the accessor refuses.

A record can come back as a JSON value. Its messages are then whatever the value holds, an object or
a list of pairs.
-/

namespace MessageBinder

/-- Why a value gives no messages. -/
inductive RecordError where
  /-- It is no injected record. -/
  | notConfigured
  /-- The messages are no entries: a number, or entries that are no pairs of a key and a value. -/
  | notEntries
  /-- An entry is no pair: its position and its length. -/
  | notPair (index length : Nat)
  /-- What should hold fields or messages is no object. -/
  | noLookup
deriving DecidableEq, Repr

/-- The wording of a failure, where it has one. -/
def RecordError.message? : RecordError → Option String
  | .notConfigured => some "a messages-module plugin must be configured"
  | .notPair index length =>
    some ("dictionary update sequence element #" ++ toString index ++ " has length " ++
      toString length ++ "; 2 is required")
  | .notEntries | .noLookup => none

/-- The messages of a source file. -/
structure Record where
  /-- The path of the source. -/
  source : CodeText
  /-- The messages by their locales. -/
  collection : Collection
  /-- Whether the record was injected. -/
  isInjected : Bool := true

namespace Record

/-- The record as a JSON object. -/
def toJson (r : Record) : Json :=
  .object
    [("isInjected", .bool r.isInjected), ("sourceFilePath", .string r.source),
     ("keyValueObjectCollection", .object r.collection.fields)]

/-- The literal that stands for the record in a module. -/
def literal (r : Record) : CodeText := r.toJson.render .unicode

/-- The items of a value that has items: those of an array, the keys of an object, the characters of
a text. -/
def itemsOf? : Json → Option (List Json)
  | .array items => some items
  | .object fields => some (fields.map fun e => .string e.1)
  | .string s => some (s.codes.map fun c => .string ⟨[c]⟩)
  | _ => none

/-- The entry that an item writes. -/
def entryOf (index : Nat) (item : Json) : Except RecordError (Key × Json) :=
  match itemsOf? item with
  | some [key, value] =>
    match Key.ofJson? key with
    | some key => .ok (key, value)
    | none => .error .notEntries
  | none => .error .notEntries
  | some items => .error (.notPair index items.length)

/-- The entries that items write. -/
def entriesOf (index : Nat) : List Json → Except RecordError (List (Key × Json))
  | [] => .ok []
  | item :: items => do
    let e ← entryOf index item
    return e :: (← entriesOf (index + 1) items)

/-- The messages by their locales that a value holds. -/
def collectionOf (j : Json) : Except RecordError Collection :=
  if j.isBlank then .ok []
  else
    match j with
    | .object fields => .ok (.ofTable fields)
    | _ =>
      match itemsOf? j with
      | some items => (entriesOf 0 items).map Collection.ofEntries
      | none => .error .notEntries

/-- Whether a value is the mark of an injected record. Nothing but truth is. -/
def isMark : Json → Bool
  | .bool b => b
  | _ => false

/-- The record that the fields of an object hold. -/
def ofFields (fields : List (CodeText × Json)) : Except RecordError Record := do
  if (Table.find? "isInjected" fields).any isMark then
    let collection ← collectionOf ((Table.find? "keyValueObjectCollection" fields).getD .null)
    return ⟨((Table.find? "sourceFilePath" fields).map Json.plain).getD "", collection, true⟩
  else throw .notConfigured

/-- The record that a JSON value holds. -/
def ofJson : Json → Except RecordError Record
  | .object fields => ofFields fields
  | _ => .error .noLookup

/-- The messages of a locale in a record. -/
def messages (r : Record) (locale : String) : Except RecordError Json :=
  if r.isInjected then
    match r.collection.find? (Text.lower locale) with
    | some m => .ok (if m.isBlank then .object [] else m)
    | none => .ok (.object [])
  else .error .notConfigured

end Record

/-- What an accessor can be bound to. -/
inductive Injected where
  /-- A JSON value. -/
  | value (j : Json)
  /-- A record built from its messages and its mark as they are. -/
  | record (collection mark : Json)

/-- The messages of a locale in what an accessor is bound to. -/
def Injected.messages (locale : String) : Injected → Except RecordError Json
  | .value (.object fields) => do (← Record.ofFields fields).messages locale
  | .value _ => .error .notConfigured
  | .record collection mark =>
    if Record.isMark mark then
      match collection with
      | .object entries => Record.messages ⟨"", .ofTable entries, true⟩ locale
      | _ => .error .noLookup
    else .error .notConfigured

/-- The accessor that is bound to what was injected: the locale is left to be given. -/
def Injected.bind (injected : Injected) : String → Except RecordError Json :=
  fun locale => injected.messages locale

end MessageBinder
