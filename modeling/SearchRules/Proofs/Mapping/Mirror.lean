import Mathlib.Algebra.GroupWithZero.Nat
import SearchRules.Proofs.Mapping.Nesting
import SearchRules.Proofs.Mapping.Reach

/-!
# An expanded query mirrors its mapping

The nested clauses of an expanded query stand in each other as the nodes of the mapping lie below each other. Two of them may be equal,
and so may two nodes, so which clause stands in which is told by a forest that has a node for each (`Clause.outline`), not by the
clauses: the outline of the expanded query is the mapping (`trimAll_outlineIn_fanOutAll`). Beside its nested clauses the query holds
nothing but the one that is repeated, once for each path and once more at the top: `occurrences_fanOutAll`.
-/

namespace SearchRules

mutual

/-- The forest of the nested clauses in a clause, the clause itself included: a node for each of them, with its path, above the nodes of
those that stand in it. -/
def Clause.outline : Clause → List PathNode
  | .bool q => q.outline
  | .term _ => []
  | .freeText _ => []
  | .nested path c _ => [.branch path c.outline]

/-- The forest of the nested clauses in a boolean query, scope by scope. -/
def BoolQuery.outline : BoolQuery → List PathNode
  | ⟨must, should, mustNot, _⟩ => Clause.outlineIn must ++ (Clause.outlineIn should ++ Clause.outlineIn mustNot)

/-- The forest of the nested clauses in some clauses. -/
def Clause.outlineIn : List Clause → List PathNode
  | [] => []
  | c :: cs => c.outline ++ Clause.outlineIn cs

end

/-- The path of a nested clause. -/
def Clause.path? : Clause → Option String
  | .nested path _ _ => some path
  | _ => none

/-! ## Forests without leaves -/

namespace PathNode

variable {ns ms : List PathNode}

theorem nodesIn_append (ns ms : List PathNode) : nodesIn (ns ++ ms) = nodesIn ns ++ nodesIn ms := by
  induction ns with
  | nil => rfl
  | cons n ns ih => rw [List.cons_append, nodesIn, nodesIn, ih, List.append_assoc]

theorem trimAll_append (ns ms : List PathNode) : trimAll (ns ++ ms) = trimAll ns ++ trimAll ms := by
  rw [trimAll_eq_map, trimAll_eq_map, trimAll_eq_map, List.map_append]

/-- A node is its path and what lies below it, but for how a node without children is written. -/
theorem trim_congr {n m : PathNode} (hpath : n.path = m.path) (hbelow : trimAll n.children = trimAll m.children) :
    n.trim = m.trim := by
  have htrim : ∀ n : PathNode, n.trim = (PathNode.branch n.path n.children).trim := by
    intro n
    cases n with
    | leaf path => rfl
    | branch path ns => rfl
  rw [htrim n, htrim m, trim, trim, hpath, hbelow]

/-- The paths of a forest do not depend on how its leaves are written. -/
theorem map_path_nodesIn_trimAll (ns : List PathNode) : (nodesIn (trimAll ns)).map path = (nodesIn ns).map path := by
  induction ns using forest_induction with
  | nil => rfl
  | cons n ns below behind =>
    rw [trimAll, nodesIn_cons, nodesIn_cons, List.map_cons, List.map_cons, List.map_append, List.map_append, path_trim, children_trim,
      below, behind]

theorem map_path_nodesIn_congr (h : trimAll ns = trimAll ms) : (nodesIn ns).map path = (nodesIn ms).map path := by
  rw [← map_path_nodesIn_trimAll ns, h, map_path_nodesIn_trimAll]

theorem forestCount_eq_sum (ns : List PathNode) : forestCount ns = (ns.map pathCount).sum := by
  induction ns with
  | nil => rfl
  | cons n ns ih => rw [forestCount, ih, List.map_cons, List.sum_cons]

theorem pathCount_eq (n : PathNode) : n.pathCount = 1 + forestCount n.children := by
  cases n with
  | leaf path => rfl
  | branch path ns => rw [pathCount, children]

end PathNode

/-! ## The outline of a clause -/

mutual

/-- The outline of a clause lists its nested clauses in the order in which they stand. -/
theorem Clause.map_path_outline : ∀ c : Clause, (PathNode.nodesIn c.outline).map PathNode.path = c.parts.filterMap Clause.path?
  | .term t => rfl
  | .freeText t => rfl
  | .nested path c hits => by
    rw [Clause.outline, PathNode.nodesIn_cons, PathNode.nodesIn, List.append_nil, Clause.parts, List.map_cons,
      List.filterMap_cons_some (Clause.path?.eq_1 path c hits), PathNode.children, Clause.map_path_outline c, PathNode.path]
  | .bool q => by
    rw [Clause.outline, Clause.parts, List.filterMap_cons_none rfl, BoolQuery.map_path_outline q]

theorem BoolQuery.map_path_outline :
    ∀ q : BoolQuery, (PathNode.nodesIn q.outline).map PathNode.path = q.parts.filterMap Clause.path?
  | ⟨must, should, mustNot, m⟩ => by
    rw [BoolQuery.outline, BoolQuery.parts, PathNode.nodesIn_append, PathNode.nodesIn_append, List.map_append, List.map_append,
      List.filterMap_append, List.filterMap_append, Clause.map_path_outlineIn must, Clause.map_path_outlineIn should,
      Clause.map_path_outlineIn mustNot]

theorem Clause.map_path_outlineIn :
    ∀ cs : List Clause, (PathNode.nodesIn (Clause.outlineIn cs)).map PathNode.path = (Clause.partsIn cs).filterMap Clause.path?
  | [] => rfl
  | c :: cs => by
    rw [Clause.outlineIn, Clause.partsIn, PathNode.nodesIn_append, List.map_append, List.filterMap_append,
      Clause.map_path_outline c, Clause.map_path_outlineIn cs]

end

/-- A clause without nested ones has an empty outline. -/
theorem Clause.outline_of_flat {c : Clause} (h : ∀ path x hits, .nested path x hits ∉ c.parts) : c.outline = [] := by
  have hpaths : c.parts.filterMap path? = [] := by
    rw [List.filterMap_eq_nil_iff]
    intro x hx
    cases x with
    | bool q => rfl
    | term t => rfl
    | freeText t => rfl
    | nested path y hits => exact absurd hx (h path y hits)
  rw [← map_path_outline, List.map_eq_nil_iff] at hpaths
  cases hc : c.outline with
  | nil => rfl
  | cons n ns =>
    rw [hc, PathNode.nodesIn_cons] at hpaths
    exact absurd hpaths (List.cons_ne_nil _ _)

theorem BoolQuery.outline_shouldOf (cs : List Clause) : (shouldOf cs).outline = Clause.outlineIn cs := by
  rw [shouldOf, outline, Clause.outlineIn, List.nil_append, List.append_nil]

/-! ## How often a clause occurs -/

namespace Clause

open Classical

/-- How often a clause occurs in some clauses, at any depth. -/
noncomputable def occurrences (x : Clause) (cs : List Clause) : Nat :=
  (partsIn cs).count x

theorem occurrences_cons (x c : Clause) (cs : List Clause) : occurrences x (c :: cs) = occurrences x [c] + occurrences x cs := by
  rw [occurrences, occurrences, occurrences, partsIn, partsIn, partsIn, List.append_nil, List.count_append]

variable (root : BoolQuery)

/-- A query occurs once in itself. -/
theorem occurrences_self : occurrences (.bool root) [.bool root] = 1 := by
  rw [occurrences, partsIn, partsIn, List.append_nil, parts, List.count_cons_self, List.count_eq_zero.2 root.bool_notMem_parts]

/-- A query occurs in a nested clause as often as in what that holds. -/
theorem occurrences_nested (path : String) (c : Clause) (hits : Option HighlightSpec) :
    occurrences (.bool root) [.nested path c hits] = occurrences (.bool root) [c] := by
  simp only [occurrences, partsIn, List.append_nil, parts]
  exact List.count_cons_of_ne Clause.noConfusion

/-- A disjunction that has a query among its clauses is not the query. -/
theorem occurrences_shouldOf (cs : List Clause) :
    occurrences (.bool root) [.bool (.shouldOf (.bool root :: cs))] = 1 + occurrences (.bool root) cs := by
  have hne : Clause.bool (.shouldOf (.bool root :: cs)) ≠ .bool root :=
    fun h => root.shouldOf_cons_ne cs (Clause.bool.inj h)
  have hparts : (BoolQuery.shouldOf (.bool root :: cs)).parts = partsIn (.bool root :: cs) := by
    rw [BoolQuery.shouldOf, BoolQuery.parts, partsIn, List.nil_append, List.append_nil]
  rw [← occurrences_self root, ← occurrences_cons, occurrences, occurrences, partsIn, partsIn, List.append_nil, parts,
    List.count_cons_of_ne hne, hparts]

end Clause

/-! ## Fanning out -/

namespace PathNode

variable (hits : Option HighlightSpec) {root : BoolQuery}

/-- The outline of what stands in the clause of a node, if that of the clauses of the nodes below is known. -/
theorem trimAll_outline_inner (hroot : (Clause.bool root).outline = []) {n : PathNode} {x : Clause}
    (hbelow : trimAll (Clause.outlineIn (fanOutAll hits (.bool root) n.children)) = trimAll n.children)
    (hx : x = .bool root ∧ n.children = [] ∨ x = .bool (.shouldOf (.bool root :: fanOutAll hits (.bool root) n.children))) :
    trimAll x.outline = trimAll n.children := by
  rcases hx with ⟨rfl, hnone⟩ | rfl
  · rw [hroot, hnone]
  · rw [Clause.outline, BoolQuery.outline_shouldOf, Clause.outlineIn, hroot, List.nil_append, hbelow]

/-- Over a query without nested clauses, the outline of the clauses of a forest is the forest. -/
theorem trimAll_outlineIn_fanOutAll (hroot : (Clause.bool root).outline = []) (ns : List PathNode) :
    trimAll (Clause.outlineIn (fanOutAll hits (.bool root) ns)) = trimAll ns := by
  induction ns using forest_induction with
  | nil => rfl
  | cons n ns below behind =>
    obtain ⟨x, hx, hform⟩ := fanOut_cases hits (.bool root) n
    have hinner := trimAll_outline_inner hits hroot below hform
    rw [fanOutAll, Clause.outlineIn, trimAll_append, behind, hx, Clause.outline, trimAll, trimAll, trimAll, List.singleton_append,
      trim_congr (n := .branch n.path x.outline) (m := n) rfl hinner]

/-- The clauses of a forest repeat the query once for each path. -/
theorem occurrences_fanOutAll (ns : List PathNode) :
    Clause.occurrences (.bool root) (fanOutAll hits (.bool root) ns) = forestCount ns := by
  induction ns using forest_induction with
  | nil => rfl
  | cons n ns below behind =>
    obtain ⟨x, hx, hform⟩ := fanOut_cases hits (.bool root) n
    have hinner : Clause.occurrences (.bool root) [x] = n.pathCount := by
      rw [pathCount_eq]
      rcases hform with ⟨rfl, hnone⟩ | rfl
      · rw [Clause.occurrences_self, hnone, forestCount]
      · rw [Clause.occurrences_shouldOf, below]
    rw [fanOutAll, Clause.occurrences_cons, behind, hx, Clause.occurrences_nested, hinner, forestCount]

theorem isNested_of_mem_fanOutAll {ns : List PathNode} {root c : Clause} (h : c ∈ fanOutAll hits root ns) : c.isNested = true := by
  induction ns with
  | nil => exact absurd h List.not_mem_nil
  | cons n ns ih =>
    rcases List.mem_cons.1 h with rfl | h
    · obtain ⟨x, hx, -⟩ := fanOut_cases hits root n
      rw [hx]
      rfl
    · exact ih h

/-- What the clause of a node is made of. -/
theorem fanOut_inner {hits : Option HighlightSpec} (hroot : (Clause.bool root).outline = []) {n : PathNode} {path : String}
    {x : Clause} {given : Option HighlightSpec} (h : n.fanOut hits (.bool root) = .nested path x given) :
    n.path = path ∧ trimAll n.children = trimAll x.outline ∧ given = hits ∧
      (x = .bool root ∨ ∃ cs, x = .bool (.shouldOf (.bool root :: cs)) ∧ ∀ c ∈ cs, c.isNested = true) := by
  obtain ⟨y, hy, hform⟩ := fanOut_cases hits (.bool root) n
  rw [hy, Clause.nested.injEq] at h
  obtain ⟨rfl, rfl, rfl⟩ := h
  have hbelow := trimAll_outline_inner hits hroot (trimAll_outlineIn_fanOutAll hits hroot n.children) hform
  refine ⟨rfl, hbelow.symm, rfl, ?_⟩
  rcases hform with ⟨rfl, -⟩ | rfl
  · exact Or.inl rfl
  · exact Or.inr ⟨_, rfl, fun c hc => isNested_of_mem_fanOutAll hits hc⟩

end PathNode

/-! ## The expanded query -/

/-- What it is for `q` to be `root` at the top level and under every path of a mapping. -/
structure BoolQuery.Mirrors (q root : BoolQuery) (mapping : List PathNode) (hits : Option HighlightSpec) : Prop where
  /-- Read in order, the nested clauses have the paths of the nodes. -/
  paths : q.parts.filterMap Clause.path? = (PathNode.nodesIn mapping).map PathNode.path
  /-- One nested clause stands in another exactly where the node of the one lies below that of the other. -/
  outline : PathNode.trimAll q.outline = PathNode.trimAll mapping
  /-- The query stands first at the top, beside nested clauses. -/
  top : ∃ cs, q = .shouldOf (.bool root :: cs) ∧ ∀ c ∈ cs, c.isNested = true
  /-- Each nested clause is that of a node: it has the path of the node and the inner hits, and below it stands what stands below the
  node. The query is all that it holds, or stands first in its disjunction beside nested clauses. -/
  inner : ∀ path x given, .nested path x given ∈ q.parts →
    (∃ n ∈ PathNode.nodesIn mapping, n.path = path ∧ PathNode.trimAll n.children = PathNode.trimAll x.outline) ∧ given = hits ∧
      (x = .bool root ∨ ∃ cs, x = .bool (.shouldOf (.bool root :: cs)) ∧ ∀ c ∈ cs, c.isNested = true)
  /-- The query occurs once at the top, once for each path, and nowhere else. -/
  copies : Clause.occurrences (.bool root) [.bool q] = 1 + (mapping.map PathNode.pathCount).sum

/-- Let a query hold clauses, none of them nested. Expanded over a mapping it is a copy of the mapping, with the query in each place: its
nested clauses are the nodes, in their order and one in another as the nodes lie below each other, and each holds the query once,
directly or first in its disjunction, as the expanded query itself does. All of them carry the inner hits, if there are any. -/
theorem BoolQuery.expand_mirrors {root : BoolQuery} (hne : root.isEmpty = false)
    (hflat : ∀ path x given, .nested path x given ∉ root.parts) (mapping : List PathNode) (hits : Option HighlightSpec) :
    (root.expand mapping hits).Mirrors root mapping hits := by
  rw [← Clause.forall_nested_bool_iff] at hflat
  have houtline := Clause.outline_of_flat hflat
  have hnested := (Clause.nestedIn_eq_nil_iff _).2 hflat
  have hexpand : root.expand mapping hits = .shouldOf (.bool root :: PathNode.fanOutAll hits (.bool root) mapping) := by
    rw [expand, hne, if_neg Bool.false_ne_true]
  have hmapping : PathNode.trimAll (root.expand mapping hits).outline = PathNode.trimAll mapping := by
    rw [hexpand, outline_shouldOf, Clause.outlineIn, houtline, List.nil_append, PathNode.trimAll_outlineIn_fanOutAll hits houtline]
  refine ⟨?_, hmapping, ?_, ?_, ?_⟩
  · rw [← map_path_outline, PathNode.map_path_nodesIn_congr hmapping]
  · exact ⟨_, hexpand, fun c hc => PathNode.isNested_of_mem_fanOutAll hits hc⟩
  · intro path x given hx
    have hclause : .nested path x given ∈ Clause.nestedIn (PathNode.fanOutAll hits (.bool root) mapping) := by
      rw [← List.nil_append (Clause.nestedIn _), ← hnested, ← Clause.nestedIn_cons, ← Clause.nestedIn_shouldOf,
        Clause.mem_nestedIn_singleton, ← hexpand]
      exact List.mem_cons_of_mem _ hx
    rw [PathNode.nestedIn_fanOutAll hits hnested] at hclause
    obtain ⟨n, hn, hnode⟩ := List.mem_map.1 hclause
    obtain ⟨hpath, hbelow, hgiven, hform⟩ := PathNode.fanOut_inner houtline hnode
    exact ⟨⟨n, hn, hpath, hbelow⟩, hgiven, hform⟩
  · rw [hexpand, Clause.occurrences_shouldOf, PathNode.occurrences_fanOutAll, PathNode.forestCount_eq_sum]

/-- Contacts stand in sites, notes in neither; the query is asked at the top and under each of the three. -/
theorem BoolQuery.expand_mirrors_contacts_of_sites :
    (expand [.branch "sites" [.leaf "sites.contacts"], .branch "notes" []] none
        { must := [.freeText ⟨"Paris", ["*"]⟩] }).parts.filterMap Clause.path? = ["sites", "sites.contacts", "notes"] ∧
    Clause.occurrences (.bool { must := [.freeText ⟨"Paris", ["*"]⟩] })
      [.bool (expand [.branch "sites" [.leaf "sites.contacts"], .branch "notes" []] none
        { must := [.freeText ⟨"Paris", ["*"]⟩] })] = 4 := by
  have hmirrors := @expand_mirrors { must := [.freeText ⟨"Paris", ["*"]⟩] } rfl
    (by simp [parts, Clause.partsIn, Clause.parts]) [.branch "sites" [.leaf "sites.contacts"], .branch "notes" []] none
  exact ⟨hmirrors.paths, hmirrors.copies⟩

end SearchRules
