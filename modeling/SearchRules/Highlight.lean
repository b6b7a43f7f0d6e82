import SearchRules.Data.Decode

/-!
# Highlighting

A highlight specification tells the engine how to mark what matched. A deployment picks one of two strategies: the template,
which marks every field under the pattern `*`, or one plain highlighter for each field the rules refer to, which falls back to
the template when they refer to none.
-/

namespace SearchRules

/-- How the highlight specification of a document is made. -/
inductive HighlightStrategy where
  | template | usedFields
  deriving DecidableEq, Repr

/-- The names of the strategies. -/
def HighlightStrategy.constants : List (String × HighlightStrategy) :=
  [("template", .template), ("used_fields", .usedFields)]

/-- A strategy as it is written. -/
def HighlightStrategy.name : HighlightStrategy → String
  | .template => "template"
  | .usedFields => "used_fields"

/-- The settings of highlighting. -/
structure HighlightConfig where
  strategy : HighlightStrategy := .template
  /-- What is put in front of a match. -/
  preTags : List String := ["<span class=\"highlighted\">"]
  /-- What is put behind a match. -/
  postTags : List String := ["</span>"]
  order : String := "score"
  /-- The length of a fragment, in characters. -/
  fragmentSize : UInt32 := 12
  /-- The largest number of fragments for a field. -/
  numberOfFragments : UInt32 := 3
  fragmenter : String := "span"
  deriving DecidableEq

/-- How one field is highlighted. -/
structure FieldHighlight where
  /-- The type of the highlighter, the engine's default when there is none. -/
  kind : Option String
  fragmentSize : UInt32
  numberOfFragments : UInt32
  fragmenter : String
  deriving DecidableEq

/-- A highlight specification. -/
structure HighlightSpec where
  preTags : List String
  postTags : List String
  order : String
  /-- Whether only fields the query names are marked, the engine's default when there is no value. -/
  requireFieldMatch : Option Bool
  /-- The field patterns and how each is highlighted, in order. -/
  fields : List (String × FieldHighlight)
  deriving DecidableEq

/-- How a field is highlighted, if the specification has it. -/
def HighlightSpec.field? (spec : HighlightSpec) (name : String) : Option FieldHighlight :=
  spec.fields.lookup name

namespace HighlightConfig

/-- How a field is highlighted under the settings, by a highlighter of a given type. -/
def fieldHighlight (c : HighlightConfig) (kind : Option String) : FieldHighlight where
  kind := kind
  fragmentSize := c.fragmentSize
  numberOfFragments := c.numberOfFragments
  fragmenter := c.fragmenter

/-- The specification with given fields. -/
def spec (c : HighlightConfig) (fields : List (String × FieldHighlight)) : HighlightSpec where
  preTags := c.preTags
  postTags := c.postTags
  order := c.order
  requireFieldMatch := none
  fields := fields

/-- The template: every field. -/
def template (c : HighlightConfig) : HighlightSpec :=
  c.spec [("*", c.fieldHighlight none)]

/-- The specification of a document whose rules refer to the given fields. -/
def build (c : HighlightConfig) (usedFields : List String) : HighlightSpec :=
  match c.strategy, usedFields with
  | .template, _ => c.template
  | .usedFields, [] => { c.template with requireFieldMatch := some false }
  | .usedFields, names => c.spec (names.map fun name => (name, c.fieldHighlight (some "plain")))

/-- The keys of the settings, in order. -/
def keys : List String :=
  ["strategy", "pre_tags", "post_tags", "order", "fragment_size", "number_of_fragments", "fragmenter"]

/-- The settings as data. -/
def toData (c : HighlightConfig) : Data :=
  .record [
    ("strategy", .string c.strategy.name),
    ("pre_tags", Data.strings c.preTags),
    ("post_tags", Data.strings c.postTags),
    ("order", .string c.order),
    ("fragment_size", .int c.fragmentSize.toNat),
    ("number_of_fragments", .int c.numberOfFragments.toNat),
    ("fragmenter", .string c.fragmenter)]

/-- What each setting is where data does not name it. -/
def fallback : HighlightConfig where
  strategy := .template
  preTags := ["<span class=\"highlighted\">"]
  postTags := ["</span>"]
  order := "score"
  fragmentSize := 12
  numberOfFragments := 3
  fragmenter := "span"

/-- The settings data stands for. -/
def ofData? (convention : Data.Convention) (d : Data) : Option HighlightConfig := do
  let ms ← d.members? convention keys
  let dflt := fallback
  let strategy ← Data.field? "strategy" dflt.strategy (Data.constant? convention HighlightStrategy.constants) ms
  let preTags ← Data.field? "pre_tags" dflt.preTags (Data.list? Data.string?) ms
  let postTags ← Data.field? "post_tags" dflt.postTags (Data.list? Data.string?) ms
  let order ← Data.field? "order" dflt.order Data.string? ms
  let fragmentSize ← Data.field? "fragment_size" dflt.fragmentSize Data.uint32? ms
  let numberOfFragments ← Data.field? "number_of_fragments" dflt.numberOfFragments Data.uint32? ms
  let fragmenter ← Data.field? "fragmenter" dflt.fragmenter Data.string? ms
  some { strategy, preTags, postTags, order, fragmentSize, numberOfFragments, fragmenter }

end HighlightConfig

/-- How one field is highlighted, as data. -/
def FieldHighlight.toData (h : FieldHighlight) : Data :=
  .record (Data.optional "type" .string h.kind ++ [
    ("fragment_size", .int h.fragmentSize.toNat),
    ("number_of_fragments", .int h.numberOfFragments.toNat),
    ("fragmenter", .string h.fragmenter)])

/-- A specification as data. -/
def HighlightSpec.toData (spec : HighlightSpec) : Data :=
  .record ([
    ("pre_tags", Data.strings spec.preTags),
    ("post_tags", Data.strings spec.postTags),
    ("order", .string spec.order)] ++
    Data.optional "require_field_match" .bool spec.requireFieldMatch ++
    [("fields", .record (spec.fields.map fun (name, h) => (name, h.toData)))])

end SearchRules
