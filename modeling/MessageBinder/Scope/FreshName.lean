import MessageBinder.Scope.Basic

/-!
# Fresh names

A new name is an underscore and a base made from a readable seed; a decimal counter follows, from
two on, while the name is taken. A base never ends in a digit, so that bases do not compete for a
name. Of the candidates up to the number of taken names one is free, and the search ends with it.
-/

namespace MessageBinder

namespace FreshName

/-- Whether a character can stand in a name. -/
def isNameChar (c : Char) : Bool := c.isAlphanum || c = '_' || c = '$'

/-- The runs of name characters in a text. -/
def words (cs : List Char) : List (List Char) :=
  (cs.splitOnP (!isNameChar ·)).filter (!·.isEmpty)

/-- A word with its first letter made a capital. -/
def capitalized : List Char → List Char
  | [] => []
  | c :: cs => c.toUpper :: cs

/-- The words in one, each but the first with a capital. -/
def joined : List (List Char) → List Char
  | [] => []
  | w :: ws => w ++ ws.flatMap capitalized

/-- A word without the underscores at its front and the digits at its end. -/
def trimmed (cs : List Char) : List Char :=
  ((cs.dropWhile (· = '_')).reverse.dropWhile Char.isDigit).reverse

/-- The base of a seed: never empty, and starting and ending with no digit. -/
def base (seed : String) : String :=
  let core := trimmed (joined (words seed.toList))
  String.ofList <|
    if core.isEmpty then "ref".toList
    else if core.head?.any Char.isDigit then "ref".toList ++ core
    else core

/-- The candidate of a base with the given count. -/
def candidate (base : String) (count : Nat) : String :=
  "_" ++ base ++ if count = 1 then "" else toString count

end FreshName

namespace Scope

/-- The first candidate of a base that is not taken. -/
def unusedName (s : Scope) (base : String) : String :=
  (((List.range (s.names.length + 1)).map fun n => FreshName.candidate base (n + 1)).find?
    (!s.hasName ·)).getD (FreshName.candidate base 1)

/-- A fresh name for a seed, and the scope in which it is taken. -/
def freshName (s : Scope) (seed : String) : String × Scope :=
  let name := s.unusedName (FreshName.base seed)
  (name, s.reserve name)

end Scope

end MessageBinder
