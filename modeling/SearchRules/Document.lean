import SearchRules.Clause.Data
import SearchRules.Paging

/-!
# Query documents

The document sent to the engine: the index and the page at the top, and in the body the query, the sorts and the highlight
specification. A page without an offset and an empty list of sorts are left out.
-/

namespace SearchRules

/-- A query document. -/
structure QueryDocument where
  paging : Paging
  query : Clause
  sorts : List GeoSort
  highlight : HighlightSpec

/-- A document as data. -/
def QueryDocument.toData (d : QueryDocument) : Data :=
  .record ([("index", .string d.paging.index), ("size", .int d.paging.size.toNat)] ++
    Data.optional "from" (fun (n : UInt64) => .int n.toNat) d.paging.offset ++
    [("body", .record ([("query", d.query.toData)] ++
      Data.optionalList "sort" (d.sorts.map GeoSort.toData) ++
      [("highlight", d.highlight.toData)]))])

end SearchRules
