/-!
# Names of catalogue files

The catalogue of a locale for the source `Base.ts` is the file `Base.<locale>.<extension>` beside
it. A locale is a run of letters, digits, underscores and hyphens of ASCII, so that it holds no
point and the name can be split in one way only. One newline after the extension is let pass.
-/

namespace MessageBinder.Locale

/-- Whether a character can stand in a locale. -/
def isLocaleChar (c : Char) : Bool := c.isAlphanum || c = '_' || c = '-'

/-- What is left of a text behind another one at its front. -/
def after? : List Char → List Char → Option (List Char)
  | [], cs => some cs
  | _ :: _, [] => none
  | d :: ds, c :: cs => if d = c then after? ds cs else none

/-- Whether the text behind a locale is that of the extension. -/
def isExtension (extension cs : List Char) : Bool :=
  cs = '.' :: extension || cs = '.' :: (extension ++ ['\n'])

/-- The locale in the name of a catalogue file. -/
def ofFileName? (base extension name : String) : Option String := do
  let rest ← after? (base.toList ++ ['.']) name.toList
  let locale := rest.takeWhile isLocaleChar
  if !locale.isEmpty && isExtension extension.toList (rest.dropWhile isLocaleChar) then
    some (String.ofList locale)
  else none

end MessageBinder.Locale
