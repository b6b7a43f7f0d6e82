import SearchRules.Clause.Basic

/-!
# Clauses as data

A clause is a record with one member, named for its kind. Empty scopes and options without a value are left out. A term
object moves its key to the wrapper and writes its entries alone.
-/

namespace SearchRules

/-- The entries of a term object. -/
def TermObject.entryData (t : TermObject) : Data :=
  .record (t.entries.map fun (field, value) => (field, .string value))

/-- A free-text clause without its wrapper. -/
def FreeText.toData (t : FreeText) : Data :=
  .record [("query", .string t.query), ("fields", Data.strings t.fields)]

mutual

/-- A clause as data. -/
def Clause.toData : Clause → Data
  | .bool query => .record [("bool", query.toData)]
  | .term object => .record [(object.key.name, object.entryData)]
  | .freeText text => .record [("query_string", text.toData)]
  | .nested path query innerHits =>
    .record [("nested", .record ([("path", .string path), ("query", query.toData)] ++
      Data.optional "inner_hits" (fun spec => .record [("highlight", spec.toData)]) innerHits))]

/-- A boolean clause without its wrapper. -/
def BoolQuery.toData : BoolQuery → Data
  | ⟨must, should, mustNot, minimumShouldMatch⟩ =>
    .record (Data.optionalList "must" (Clause.listData must) ++
      Data.optionalList "should" (Clause.listData should) ++
      Data.optionalList "must_not" (Clause.listData mustNot) ++
      Data.optional "minimum_should_match" .int minimumShouldMatch)

/-- The items of a list of clauses. -/
def Clause.listData : List Clause → List Data
  | [] => []
  | c :: cs => c.toData :: Clause.listData cs

end

end SearchRules
