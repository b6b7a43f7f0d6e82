import SearchRules.Rule.Data

/-!
# Requests

What a front end sends: which page of which index it wants, a point to sort around, and the rules to search by. Every part may
be missing. Requests are written and read as JSON data.
-/

namespace SearchRules

/-- The direction of a sort by distance: nearest first, or farthest first. -/
inductive SortOrder where
  | asc | desc
  deriving DecidableEq, Repr

/-- The names of the directions. -/
def SortOrder.constants : List (String × SortOrder) :=
  [("asc", .asc), ("desc", .desc)]

/-- A direction as it is written. -/
def SortOrder.name : SortOrder → String
  | .asc => "asc"
  | .desc => "desc"

/-- A point to sort around. -/
structure GeoFilter where
  longitude : Option Binary64 := none
  latitude : Option Binary64 := none
  order : Option SortOrder := none
  /-- The largest distance, in kilometres. -/
  maxDistanceKm : Option Binary64 := none
  deriving DecidableEq

/-- The parameters of a request. -/
structure RequestParams where
  index : Option String := none
  size : Option UInt64 := none
  /-- The page asked for, counted from zero in pages. -/
  page : Option UInt64 := none
  /-- The fields that rules without a field search. -/
  usedFields : Option (List String) := none
  deriving DecidableEq

/-- What a request searches by. -/
structure RequestQuery where
  rules : Option (List Rule) := none
  geo : Option GeoFilter := none

/-- A request. -/
structure SearchRequest where
  params : RequestParams := {}
  query : RequestQuery := {}

/-- The rules of a request, none when it has no list of rules. -/
def SearchRequest.rules (r : SearchRequest) : List Rule :=
  r.query.rules.getD []

namespace GeoFilter

/-- A point as data. -/
def toData (g : GeoFilter) : Data :=
  .record (Data.optional "longitude" .float g.longitude ++ Data.optional "latitude" .float g.latitude ++
    Data.optional "order" (fun o => .string o.name) g.order ++ Data.optional "maxDistanceKm" .float g.maxDistanceKm)

/-- The point data stands for. -/
def ofData? (d : Data) : Option GeoFilter := do
  let ms ← d.members? .json ["longitude", "latitude", "order", "maxDistanceKm"]
  let longitude ← Data.field? "longitude" none (Data.nullable? Data.float?) ms
  let latitude ← Data.field? "latitude" none (Data.nullable? Data.float?) ms
  let order ← Data.field? "order" none (Data.nullable? (Data.constant? .json SortOrder.constants)) ms
  let maxDistanceKm ← Data.field? "maxDistanceKm" none (Data.nullable? Data.float?) ms
  some { longitude, latitude, order, maxDistanceKm }

end GeoFilter

namespace RequestParams

/-- Parameters as data. -/
def toData (p : RequestParams) : Data :=
  .record (Data.optional "index" .string p.index ++
    Data.optional "size" (fun (n : UInt64) => .int n.toNat) p.size ++
    Data.optional "from" (fun (n : UInt64) => .int n.toNat) p.page ++ Data.optional "usedFields" Data.strings p.usedFields)

/-- The parameters data stands for. -/
def ofData? (d : Data) : Option RequestParams := do
  let ms ← d.members? .json ["index", "size", "from", "usedFields"]
  let index ← Data.field? "index" none (Data.nullable? Data.string?) ms
  let size ← Data.field? "size" none (Data.nullable? Data.uint64?) ms
  let page ← Data.field? "from" none (Data.nullable? Data.uint64?) ms
  let usedFields ← Data.field? "usedFields" none (Data.nullable? (Data.list? Data.string?)) ms
  some { index, size, page, usedFields }

end RequestParams

namespace RequestQuery

/-- What a request searches by, as data. -/
def toData (q : RequestQuery) : Data :=
  .record (Data.optional "rules" (fun rules => .list (Rule.listData rules)) q.rules ++
    Data.optional "geo" GeoFilter.toData q.geo)

/-- What a request searches by, from data. -/
def ofData? (d : Data) : Option RequestQuery := do
  let ms ← d.members? .json ["rules", "geo"]
  let rules ← Data.field? "rules" none (Data.nullable? (Data.list? Rule.ofData?)) ms
  let geo ← Data.field? "geo" none (Data.nullable? GeoFilter.ofData?) ms
  some { rules, geo }

end RequestQuery

namespace SearchRequest

/-- A request as data. -/
def toData (r : SearchRequest) : Data :=
  .record [("params", r.params.toData), ("query", r.query.toData)]

/-- The request data stands for. -/
def ofData? (d : Data) : Option SearchRequest := do
  let ms ← d.members? .json ["params", "query"]
  let params ← Data.field? "params" {} RequestParams.ofData? ms
  let query ← Data.field? "query" {} RequestQuery.ofData? ms
  some { params, query }

end SearchRequest

end SearchRules
