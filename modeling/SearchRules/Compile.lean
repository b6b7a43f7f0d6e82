import SearchRules.Composition
import SearchRules.Document
import SearchRules.Json.Printer
import SearchRules.Json.Reader
import SearchRules.Mapping.Expansion

/-!
# Compiling requests

From a request to its query document: the rules are composed, the composed query is repeated over the nested paths if the
index has any, and paging, sort and highlight are put around it. The only way to fail is a literal that is refused.
-/

namespace SearchRules

/-- The clause of a composed query. An index without nested paths takes it as it is. -/
def Config.queryClause (c : Config) (query : BoolQuery) : Clause :=
  if c.mapping.isEmpty then .bool query
  else .bool (query.expand c.mapping (if c.innerHits then some c.highlight.template else none))

/-- The query document of a request. -/
def compile (c : Config) (r : SearchRequest) : Except WildcardOnly QueryDocument := do
  let composition ← (c.composer (r.params.usedFields.getD [])).compose r.rules
  .ok {
    paging := Paging.ofParams c r.params
    query := c.queryClause composition.query
    sorts := (r.query.geo.map (GeoSort.ofFilter c)).toList
    highlight := c.highlight.build composition.fields }

/-- The request a JSON text stands for. -/
def SearchRequest.read? (text : String) : Option SearchRequest :=
  (Json.read? text).bind SearchRequest.ofData?

/-- The query document of the request a JSON text stands for. -/
def compileText (c : Config) (text : String) : Except Error QueryDocument :=
  match SearchRequest.read? text with
  | none => .error .unreadableRequest
  | some r => (compile c r).mapError .wildcardOnly

/-- The query document of a JSON request, as data that has each key once. -/
def compileData (c : Config) (text : String) : Except Error Data :=
  (compileText c text).map fun d => d.toData.lastWins

/-- The query document of a JSON request, as pretty JSON. -/
def compilePretty (c : Config) (text : String) : Except Error String :=
  (compileText c text).map fun d => Json.pretty d.toData

end SearchRules
