import MessageBinder.Json.Reader
import MessageBinder.Text.Shown

/-!
# Faults of a configuration

Everything that keeps a file from being compiled because of how the compiler was set up, with the
wording of each. A fault in a configuration names the origin of the configuration first.
-/

namespace MessageBinder

/-- What is wrong with a configuration. -/
inductive ConfigError where
  /-- The name of the file to compile is missing. -/
  | missingFilename
  /-- A text is no target. -/
  | invalidTarget (spec : String)
  /-- No catalogue format goes by the extension. -/
  | unknownExtension (extension : CodeText)
  /-- The configuration is no object. -/
  | notObject (origin : String)
  /-- The targets are no list, or an empty one. -/
  | targetsNotList (origin : String)
  /-- A target is no object. -/
  | targetNotObject (origin : String) (index : Nat)
  /-- A target has no name in the given field. -/
  | targetField (origin : String) (index : Nat) (field : String)
  /-- The extension is no text, or empty. -/
  | invalidExtension (origin : String)
  /-- The configuration asked for does not exist. -/
  | fileNotFound (path : String)
  /-- The configuration is no JSON. -/
  | invalidJson (path : String) (error : JsonError)
deriving DecidableEq, Repr

/-- The wording of a fault. -/
def ConfigError.message : ConfigError → String
  | .missingFilename => "error getting the name of the file during compilation"
  | .invalidTarget spec =>
    "invalid hijack target " ++ Text.shown spec ++ " (expected MODULE:FUNCTION)"
  | .unknownExtension extension =>
    "no messages loader for extension " ++ Text.shown extension ++ " (known: json, properties)"
  | .notObject origin => origin ++ ": configuration must be a JSON object"
  | .targetsNotList origin => origin ++ ": 'hijackTargets' must be a non-empty list"
  | .targetNotObject origin index =>
    origin ++ ": hijackTargets[" ++ toString index ++ "] must be an object"
  | .targetField origin index field =>
    origin ++ ": hijackTargets[" ++ toString index ++ "]." ++ field ++ " must be a non-empty string"
  | .invalidExtension origin => origin ++ ": 'messagesFileExtension' must be a non-empty string"
  | .fileNotFound path => "config file not found: " ++ path
  | .invalidJson path error =>
    path ++ ": invalid JSON: " ++ error.fault.message ++ " (line " ++ toString error.line ++ ")"

end MessageBinder
