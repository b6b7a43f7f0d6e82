/-!
# Errors

Why a request or a configuration is refused. A cause says what is wrong; the text a user is shown is made from it in one
place. Only a wildcard that stands alone is the fault of whoever typed the search.
-/

namespace SearchRules

/-- A literal refused for one of its tokens, which is made only of wildcards. -/
structure WildcardOnly where
  token : String
  value : String
  deriving DecidableEq, Repr

/-- Why a configuration is refused. -/
inductive ConfigError where
  | unreadable
  | blankIndex
  | zeroSize
  | blankGeoField
  | badDistance
  | blankPath
  | strayPath (child parent : String)
  deriving DecidableEq, Repr

/-- Why a document cannot be made. -/
inductive Error where
  | wildcardOnly (cause : WildcardOnly)
  | config (cause : ConfigError)
  | unreadableRequest
  deriving DecidableEq, Repr

/-- The text of an error, about a configuration. -/
def configMessage (text : String) : String :=
  "Configuration error: " ++ text

/-- The text of a refused literal. -/
def WildcardOnly.message (e : WildcardOnly) : String :=
  "Wildcard-only search term '" ++ e.token ++ "' in value '" ++ e.value ++ "'"

/-- What is wrong with a configuration. -/
def ConfigError.text : ConfigError → String
  | .unreadable => "Failed to parse configuration"
  | .blankIndex => "index must not be empty"
  | .zeroSize => "default_size must be greater than zero"
  | .blankGeoField => "geo_field must not be empty"
  | .badDistance => "geo_default_max_distance_km must be a non-negative number"
  | .blankPath => "mapping paths must not be empty"
  | .strayPath child parent => "mapping path '" ++ child ++ "' must be nested under '" ++ parent ++ "'"

namespace Error

/-- The text of an error. -/
def message : Error → String
  | .wildcardOnly cause => cause.message
  | .config cause => configMessage cause.text
  | .unreadableRequest => "Serialization error"

/-- Whether the search itself is at fault, so that whoever typed it should be told. -/
def isUserError : Error → Bool
  | .wildcardOnly _ => true
  | _ => false

end Error

end SearchRules
