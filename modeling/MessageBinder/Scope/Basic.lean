import MessageBinder.Tree.Basic

/-!
# Scopes

Where a name may be bound, who binds it, and who uses it. A scope of the text is a *frame*: the
module, the body of a function with its parameters, or a block. The frames around a place form a
*chain*, innermost first; a name means the binding of the first frame of the chain that has one.
Within a frame the first declaration of a name counts and later ones are ignored.

A `Scope` is kept up to date while the module changes: an identifier that is renamed moves to what
its new name means at its place, and a new declaration of the module draws to itself the uses that
had no binding so far. Whatever name is or was in the module, declared or used, stays *taken*.
-/

namespace MessageBinder

/-- A part of the text in which names can be bound. Functions and blocks go by the number of their
origin. -/
inductive Frame where
  | module
  | function (id : Nat)
  | block (id : Nat)
deriving DecidableEq, Repr, Inhabited

namespace Frame

/-- The word for the kind of a frame. -/
def word : Frame → String
  | module => "module"
  | function _ => "function"
  | block _ => "block"

/-- Whether a frame is a block. -/
def isBlock : Frame → Bool
  | block _ => true
  | _ => false

end Frame

/-- The frames around a place, innermost first. -/
abbrev Chain := List Frame

/-- The chain of the innermost function or the module, where `var` declares. -/
def Chain.function (chain : Chain) : Chain := chain.dropWhile Frame.isBlock

/-- How a name is bound. -/
inductive BindingKind where
  | importName
  | declared (kind : VariableKind)
  | function
  | parameter
deriving DecidableEq, Repr, Inhabited

/-- The word for a kind of binding. -/
def BindingKind.word : BindingKind → String
  | importName => "import"
  | declared kind => kind.word
  | function => "function"
  | parameter => "param"

/-- What tells a binding from every other of a module: its frame and its name. -/
abbrev BindingKey := Frame × String

/-- A name with the identifiers that use it. -/
structure Binding where
  /-- The name. -/
  name : String
  /-- How it is bound. -/
  kind : BindingKind
  /-- The identifier that declares it. -/
  identifier : Identifier
  /-- Where its declaration stands: the statement, or the parameter itself. -/
  declaration : Origin
  /-- The frame that it belongs to. -/
  frame : Frame
  /-- The identifiers that use it, in the order in which they came to it. -/
  uses : List Identifier
deriving DecidableEq, Repr, Inhabited

/-- The frame and the name of a binding. -/
def Binding.key (b : Binding) : BindingKey := (b.frame, b.name)

/-- The bindings of a module and the uses of names in it. -/
structure Scope where
  /-- The bindings in order of declaration. -/
  bindings : List Binding := []
  /-- The uses without a binding, in the order in which they lost or lacked one. -/
  unresolved : List Identifier := []
  /-- The taken names in the order in which they were taken. -/
  names : List String := []
  /-- The chain around each identifier that the scope knows, the latest first. -/
  places : List (Nat × Chain) := []
  /-- The binding of each use that has one, the latest first. -/
  links : List (Nat × BindingKey) := []
deriving Repr, Inhabited

namespace Scope

/-! ### Looking up -/

/-- The binding of a name in one frame. -/
def inFrame? (s : Scope) (frame : Frame) (name : String) : Option Binding :=
  s.bindings.find? (·.key = (frame, name))

/-- The binding that a name means in a chain. -/
def lookup? (s : Scope) (chain : Chain) (name : String) : Option Binding :=
  chain.findSome? (s.inFrame? · name)

/-- The binding of a name in the module itself. -/
def moduleBinding? (s : Scope) (name : String) : Option Binding := s.inFrame? .module name

/-- The bindings of the module itself, in order of declaration. -/
def moduleBindings (s : Scope) : List Binding := s.bindings.filter (·.frame = .module)

/-- The key of the binding that an identifier uses. -/
def linkOf? (s : Scope) (id : Nat) : Option BindingKey :=
  (s.links.find? (·.1 = id)).map (·.2)

/-- The binding that an identifier uses. -/
def bindingOf? (s : Scope) (id : Nat) : Option Binding :=
  (s.linkOf? id).bind fun key => s.inFrame? key.1 key.2

/-- Whether a name is taken. -/
def hasName (s : Scope) (name : String) : Bool := s.names.contains name

/-- The chain around an identifier; the module if the scope does not know it. -/
def placeOf (s : Scope) (id : Nat) : Chain :=
  ((s.places.find? (·.1 = id)).map (·.2)).getD [.module]

/-! ### Single changes -/

/-- Takes a name without declaring it. -/
def reserve (s : Scope) (name : String) : Scope :=
  if s.hasName name then s else { s with names := s.names ++ [name] }

/-- Notes the chain around an identifier. -/
def place (s : Scope) (chain : Chain) (id : Identifier) : Scope :=
  { s with places := (id.origin.id, chain) :: s.places }

/-- Gives further uses to a binding. -/
def addUses (s : Scope) (key : BindingKey) (ids : List Identifier) : Scope :=
  { s with
    bindings := s.bindings.map fun b => if b.key = key then { b with uses := b.uses ++ ids } else b
    links := ids.map (fun id => (id.origin.id, key)) ++ s.links }

/-- Lets an identifier use what its name means in a chain. -/
def link (s : Scope) (chain : Chain) (id : Identifier) : Scope :=
  match s.lookup? chain id.name with
  | some b => s.addUses b.key [id]
  | none => { s with unresolved := s.unresolved ++ [id] }

/-- Declares an identifier in the innermost frame of a chain, unless its name is declared there. -/
def declare (s : Scope) (chain : Chain) (id : Identifier) (kind : BindingKind)
    (declaration : Origin) : Scope :=
  let s := (s.reserve id.name).place chain id
  let frame := chain.head?.getD .module
  if (s.inFrame? frame id.name).isSome then s
  else { s with bindings := s.bindings ++ [⟨id.name, kind, id, declaration, frame, []⟩] }

/-- Takes in the use of a name in a chain. -/
def addUse (s : Scope) (chain : Chain) (id : Identifier) : Scope :=
  ((s.reserve id.name).place chain id).link chain id

/-- Takes an identifier from the binding it uses, or from the uses without one. -/
def unlink (s : Scope) (id : Nat) : Scope :=
  match s.linkOf? id with
  | some key =>
    { s with
      bindings := s.bindings.map fun b =>
        if b.key = key then { b with uses := b.uses.filter (·.origin.id ≠ id) } else b
      links := s.links.filter (·.1 ≠ id) }
  | none => { s with unresolved := s.unresolved.filter (·.origin.id ≠ id) }

/-- Renames one identifier: it uses from now on what the new name means at its place. -/
def rename (s : Scope) (id : Identifier) (name : String) : Scope :=
  ((s.unlink id.origin.id).reserve name).link (s.placeOf id.origin.id) { id with name }

/-- Whether an identifier means the given binding at its place. -/
def means (s : Scope) (b : Binding) (id : Identifier) : Bool :=
  id.name = b.name &&
    (s.lookup? (s.placeOf id.origin.id) id.name).any fun c => c.key = b.key

/-- Gives to a binding the uses without one that mean it. -/
def adopt (s : Scope) (b : Binding) : Scope :=
  { s with unresolved := s.unresolved.filter (!s.means b ·) }.addUses b.key
    (s.unresolved.filter (s.means b))

end Scope

end MessageBinder
