import SearchRules.Clause.Exclusive
import SearchRules.Clause.FreeText
import SearchRules.Mapping.Basic

/-!
# Configuration

The settings of a deployment. Every setting has a default, so a configuration may name only the settings it changes; a
configuration that would make unusable documents is refused.
-/

namespace SearchRules

/-- How the literals of a rule that names fields are searched for: as term objects, or as free text like those of any other
rule. -/
inductive ClauseStyle where
  | term | queryString
  deriving DecidableEq, Repr

/-- The names of the styles. -/
def ClauseStyle.constants : List (String × ClauseStyle) :=
  [("term", .term), ("query_string", .queryString)]

/-- A style as it is written. -/
def ClauseStyle.name : ClauseStyle → String
  | .term => "term"
  | .queryString => "query_string"

/-- An escape set as data. -/
def EscapeSet.toData : EscapeSet → Data
  | .broad => .string "broad"
  | .narrow => .string "narrow"
  | .custom cs => .record [("custom", .list (cs.map fun c => .string c.toString))]

/-- The escape set data stands for. -/
def EscapeSet.ofData? (convention : Data.Convention) : Data → Option EscapeSet
  | .record [("custom", d)] => (Data.list? Data.char? d).map .custom
  | d => Data.constant? convention [("broad", .broad), ("narrow", .narrow)] d

/-- The settings of a deployment. -/
structure Config where
  /-- The index a request is for unless it names one. -/
  index : String := "contacts"
  /-- The page size unless a request gives one. -/
  defaultSize : UInt64 := 20
  /-- The fields that rules without a field search; none means every field. -/
  defaultFields : List String := []
  /-- What addresses the exact-match part of a field. -/
  keywordSuffix : String := ".keyword"
  clauseStyle : ClauseStyle := .term
  termKey : TermKey := .term
  escape : EscapeSet := .broad
  xorStrategy : XorStrategy := .emulate
  /-- Whether free texts also match what begins with them. -/
  openEnded : Bool := false
  /-- The field a request is sorted on by distance. -/
  geoField : String := "pin.location"
  /-- The largest distance unless a request gives one, in kilometres. -/
  maxDistanceKm : Binary64 := Binary64.ofInt 20
  /-- Whether nested clauses ask for the highlights of their sub-documents. -/
  innerHits : Bool := true
  /-- The nested paths of the index. -/
  mapping : List PathNode := []
  highlight : HighlightConfig := {}
  deriving DecidableEq

namespace Config

/-- The fields that rules without a field search. -/
def freeTextFields (c : Config) : List String :=
  if c.defaultFields.isEmpty then ["*"] else c.defaultFields

/-- How literals become query texts. -/
def queryStyle (c : Config) : QueryStyle where
  escape := c.escape
  keywordSuffix := c.keywordSuffix
  openEnded := c.openEnded

/-- Whether each tree of a mapping hangs together. -/
def checkMapping : List PathNode → Except ConfigError Unit
  | [] => .ok ()
  | n :: ns => do
    n.check
    checkMapping ns

/-- A configuration that makes usable documents, or the first reason why it does not. -/
def validate (c : Config) : Except ConfigError Unit :=
  if isBlankText c.index then .error .blankIndex
  else if c.defaultSize = 0 then .error .zeroSize
  else if isBlankText c.geoField then .error .blankGeoField
  else if !c.maxDistanceKm.isFinite || c.maxDistanceKm.isBelowZero then .error .badDistance
  else checkMapping c.mapping

/-- The keys of the settings, in order. -/
def keys : List String :=
  ["index", "default_size", "default_fields", "keyword_suffix", "clause_style", "term_key", "escape", "xor_strategy",
    "prefix_free_text", "geo_field", "geo_default_max_distance_km", "inner_hits", "mapping", "highlight"]

/-- The settings as data. -/
def toData (c : Config) : Data :=
  .record [
    ("index", .string c.index),
    ("default_size", .int c.defaultSize.toNat),
    ("default_fields", Data.strings c.defaultFields),
    ("keyword_suffix", .string c.keywordSuffix),
    ("clause_style", .string c.clauseStyle.name),
    ("term_key", .string c.termKey.name),
    ("escape", c.escape.toData),
    ("xor_strategy", .string c.xorStrategy.name),
    ("prefix_free_text", .bool c.openEnded),
    ("geo_field", .string c.geoField),
    ("geo_default_max_distance_km", .float c.maxDistanceKm),
    ("inner_hits", .bool c.innerHits),
    ("mapping", .list (PathNode.forestData c.mapping)),
    ("highlight", c.highlight.toData)]

/-- What each setting is where data does not name it. -/
def fallback : Config where
  index := "contacts"
  defaultSize := 20
  defaultFields := []
  keywordSuffix := ".keyword"
  clauseStyle := .term
  termKey := .term
  escape := .broad
  xorStrategy := .emulate
  openEnded := false
  geoField := "pin.location"
  maxDistanceKm := Binary64.ofInt 20
  innerHits := true
  mapping := []
  highlight := {}

/-- The settings data stands for. -/
def ofData? (convention : Data.Convention) (d : Data) : Option Config := do
  let ms ← d.members? convention keys
  let dflt := fallback
  let index ← Data.field? "index" dflt.index Data.string? ms
  let defaultSize ← Data.field? "default_size" dflt.defaultSize Data.uint64? ms
  let defaultFields ← Data.field? "default_fields" dflt.defaultFields (Data.list? Data.string?) ms
  let keywordSuffix ← Data.field? "keyword_suffix" dflt.keywordSuffix Data.string? ms
  let clauseStyle ← Data.field? "clause_style" dflt.clauseStyle (Data.constant? convention ClauseStyle.constants) ms
  let termKey ← Data.field? "term_key" dflt.termKey (Data.constant? convention TermKey.constants) ms
  let escape ← Data.field? "escape" dflt.escape (EscapeSet.ofData? convention) ms
  let xorStrategy ← Data.field? "xor_strategy" dflt.xorStrategy (Data.constant? convention XorStrategy.constants) ms
  let openEnded ← Data.field? "prefix_free_text" dflt.openEnded Data.bool? ms
  let geoField ← Data.field? "geo_field" dflt.geoField Data.string? ms
  let maxDistanceKm ← Data.field? "geo_default_max_distance_km" dflt.maxDistanceKm Data.float? ms
  let innerHits ← Data.field? "inner_hits" dflt.innerHits Data.bool? ms
  let mapping ← Data.field? "mapping" dflt.mapping PathNode.ofField? ms
  let highlight ← Data.field? "highlight" dflt.highlight (HighlightConfig.ofData? convention) ms
  some {
    index, defaultSize, defaultFields, keywordSuffix, clauseStyle, termKey, escape, xorStrategy, openEnded, geoField,
    maxDistanceKm, innerHits, mapping, highlight }

end Config

end SearchRules
