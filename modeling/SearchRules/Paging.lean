import SearchRules.Config.Basic
import SearchRules.Request

/-!
# Paging and distance sorts

A request counts in pages, the engine in documents. The offset of a page is its number times the page size, cut at the largest
64-bit number; the first page and no page at all have no offset, and the engine starts at its own default. A point to sort
around becomes one distance sort, whose missing parts have defaults.
-/

namespace SearchRules

/-- Which documents of which index are asked for. -/
structure Paging where
  index : String
  size : UInt64
  /-- How many documents are passed over. -/
  offset : Option UInt64
  deriving DecidableEq

/-- The offset of a page. -/
def Paging.offsetOf (page : Option UInt64) (size : UInt64) : Option UInt64 :=
  match page with
  | none => none
  | some p => if p = 0 then none else some (UInt64.ofNat (min (p.toNat * size.toNat) (UInt64.size - 1)))

/-- What the parameters of a request ask for. An empty index is no index. -/
def Paging.ofParams (c : Config) (p : RequestParams) : Paging :=
  let size := p.size.getD c.defaultSize
  { index := (p.index.filter (· ≠ "")).getD c.index, size, offset := offsetOf p.page size }

/-- A sort by the distance from a point. -/
structure GeoSort where
  /-- The field the distance is measured to. -/
  field : String
  longitude : Binary64
  latitude : Binary64
  order : SortOrder
  /-- The largest distance, in kilometres. -/
  distanceKm : Binary64
  deriving DecidableEq

/-- The sort around the point of a request. A missing coordinate is zero. -/
def GeoSort.ofFilter (c : Config) (g : GeoFilter) : GeoSort where
  field := c.geoField
  longitude := g.longitude.getD (Binary64.ofInt 0)
  latitude := g.latitude.getD (Binary64.ofInt 0)
  order := g.order.getD .asc
  distanceKm := g.maxDistanceKm.getD c.maxDistanceKm

/-- A sort as data: the point stands under the name of the field, in front of the options. -/
def GeoSort.toData (s : GeoSort) : Data :=
  .record [("_geo_distance", .record [
    (s.field, .list [.float s.longitude, .float s.latitude]),
    ("order", .string s.order.name),
    ("distance", .float s.distanceKm),
    ("unit", .string "km"),
    ("mode", .string "min"),
    ("distance_type", .string "arc"),
    ("ignore_unmapped", .bool true)])]

end SearchRules
