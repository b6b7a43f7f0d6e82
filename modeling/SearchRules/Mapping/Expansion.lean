import SearchRules.Clause.Basic
import SearchRules.Mapping.Basic

/-!
# Expansion over nested paths

A plain clause does not see sub-documents. To match at the top level or at any depth the clause is repeated: as it is, and
once for each nested path, in a nested clause with that path. A branch repeats it again for each of its children, inside its
own nested clause. All repetitions stand in one disjunction.
-/

namespace SearchRules

namespace PathNode

mutual

/-- The nested clause that repeats `root` at a node and below it. -/
def fanOut (innerHits : Option HighlightSpec) (root : Clause) : PathNode → Clause
  | .leaf path => .nested path root innerHits
  | .branch path children => .nested path (.bool (.shouldOf (root :: fanOutAll innerHits root children))) innerHits

/-- The nested clauses of a forest. -/
def fanOutAll (innerHits : Option HighlightSpec) (root : Clause) : List PathNode → List Clause
  | [] => []
  | n :: ns => n.fanOut innerHits root :: fanOutAll innerHits root ns

end

end PathNode

/-- The query that matches where `root` does, at the top level or under any path of the mapping. An empty query matches
everywhere already and is not repeated. -/
def BoolQuery.expand (mapping : List PathNode) (innerHits : Option HighlightSpec) (root : BoolQuery) : BoolQuery :=
  if root.isEmpty then .shouldOf [.bool root]
  else .shouldOf (.bool root :: PathNode.fanOutAll innerHits (.bool root) mapping)

end SearchRules
