import SearchRules.Config.Basic
import SearchRules.Toml.Printer
import SearchRules.Toml.Reader

/-!
# Configuration files

A configuration is kept as a TOML document. Reading one checks it as well, so that a configuration read from a file is one that
makes usable documents.
-/

namespace SearchRules.Config

/-- The configuration a TOML document stands for, or why it is refused. -/
def read (text : String) : Except ConfigError Config :=
  match (Toml.read? text).bind (ofData? .toml) with
  | none => .error .unreadable
  | some c => do
    c.validate
    .ok c

/-- A configuration as a TOML document. -/
def print (c : Config) : String :=
  Toml.print c.toData

end SearchRules.Config
