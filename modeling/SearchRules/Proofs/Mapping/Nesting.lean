import SearchRules.Compile
import SearchRules.Proofs.Composition.Shape

/-!
# How nested clauses stand in each other

The nested clauses of an expanded query are those of the nodes of the mapping, from the top down (`nestedIn_fanOutAll`): each stands
inside those of the nodes above it and inside no other. So what a mapping says of paths that lie below each other, the query says of
nested clauses that stand in each other.

A configuration is checked for paths of parents and their children only. Since a path that goes on from one that goes on from a third
goes on from the third (`continues_trans`), that settles all paths below each other, and all nested clauses: `validate_nests_paths`.
-/

namespace SearchRules

/-! ## Paths that go on from each other -/

namespace PathNode

/-- What it is for a path to go on from another: a point and something more stand behind it. -/
theorem continuesChars_iff (parent child : List Char) :
    continuesChars parent child = true ↔ ∃ rest, rest ≠ [] ∧ child = parent ++ '.' :: rest := by
  induction parent generalizing child with
  | nil =>
    match child with
    | [] => simp [continuesChars]
    | [c] => simp [continuesChars]
    | c :: c' :: cs =>
      by_cases hc : c = '.'
      · rw [hc]
        simp [continuesChars]
      · simp [continuesChars, hc]
  | cons p ps ih =>
    cases child with
    | nil => simp [continuesChars]
    | cons c cs =>
      rw [continuesChars, Bool.and_eq_true, beq_iff_eq, ih]
      constructor
      · rintro ⟨rfl, rest, hne, rfl⟩
        exact ⟨rest, hne, rfl⟩
      · rintro ⟨rest, hne, h⟩
        rw [List.cons_append, List.cons.injEq] at h
        exact ⟨h.1.symm, rest, hne, h.2⟩

theorem continues_iff (parent child : String) :
    continues parent child = true ↔ ∃ rest, rest ≠ "" ∧ child = parent ++ "." ++ rest := by
  rw [continues, continuesChars_iff]
  constructor
  · rintro ⟨rest, hne, h⟩
    refine ⟨String.ofList rest, ?_, ?_⟩
    · intro hempty
      exact hne (by simpa using congrArg String.toList hempty)
    · rw [← String.toList_inj]
      simpa using h
  · rintro ⟨rest, hne, rfl⟩
    refine ⟨rest.toList, ?_, by simp⟩
    simpa using hne

/-- Going on from a path is going on from what that goes on from. -/
theorem continues_trans {a b c : String} (hab : continues a b = true) (hbc : continues b c = true) : continues a c = true := by
  rw [continues_iff] at hab hbc ⊢
  obtain ⟨rest, hne, rfl⟩ := hab
  obtain ⟨rest', -, rfl⟩ := hbc
  refine ⟨rest ++ "." ++ rest', ?_, by simp [String.append_assoc]⟩
  simp [hne]

/-- The point in it keeps a path that goes on from another from being blank, whatever that one is. -/
theorem isBlankText_of_continues {parent child : String} (h : continues parent child = true) : isBlankText child = false := by
  obtain ⟨rest, -, rfl⟩ := (continues_iff parent child).1 h
  have hpoint : isBlank '.' = false := by decide
  simp [isBlankText, hpoint]

/-! ## The nodes of a mapping -/

mutual

/-- The nodes of a tree, from the top down. -/
def nodes : PathNode → List PathNode
  | .leaf path => [.leaf path]
  | .branch path children => .branch path children :: nodesIn children

/-- The nodes of a forest, from the top down, tree by tree. -/
def nodesIn : List PathNode → List PathNode
  | [] => []
  | n :: ns => n.nodes ++ nodesIn ns

end

/-- Whether the paths of the children of some nodes go on from those of their parents. -/
def Linked (ns : List PathNode) : Prop :=
  ∀ n ∈ ns, ∀ m ∈ n.children, continues n.path m.path = true

variable {ns : List PathNode}

theorem nodes_eq (n : PathNode) : n.nodes = n :: nodesIn n.children := by
  cases n with
  | leaf path => simp [nodes, children, nodesIn]
  | branch path ns => simp [nodes, children]

theorem nodesIn_cons (n : PathNode) (ns : List PathNode) : nodesIn (n :: ns) = n :: (nodesIn n.children ++ nodesIn ns) := by
  rw [nodesIn, nodes_eq, List.cons_append]

/-- To prove something of every forest, prove it of the empty one, and of a forest in which it holds below the first node and behind
it. -/
@[elab_as_elim]
theorem forest_induction {motive : List PathNode → Prop} (nil : motive [])
    (cons : ∀ n ns, motive n.children → motive ns → motive (n :: ns)) : ∀ ns, motive ns
  | [] => nil
  | .leaf path :: ns => cons (.leaf path) ns nil (forest_induction nil cons ns)
  | .branch path children :: ns =>
    cons (.branch path children) ns (forest_induction nil cons children) (forest_induction nil cons ns)

theorem linked_nodesIn_cons (n : PathNode) (ns : List PathNode) : Linked (nodesIn (n :: ns)) ↔
    (∀ m ∈ n.children, continues n.path m.path = true) ∧ Linked (nodesIn n.children) ∧ Linked (nodesIn ns) := by
  rw [nodesIn_cons, Linked, List.forall_mem_cons, List.forall_mem_append]
  rfl

/-- What lies below a node of a forest is in the forest. -/
theorem nodesIn_children_subset {n : PathNode} (hn : n ∈ nodesIn ns) : nodesIn n.children ⊆ nodesIn ns := by
  induction ns using forest_induction with
  | nil => exact absurd hn List.not_mem_nil
  | cons top ns below behind =>
    rw [nodesIn_cons, List.mem_cons, List.mem_append] at hn
    rw [nodesIn_cons]
    apply List.subset_cons_of_subset
    rcases hn with rfl | hn | hn
    · exact List.subset_append_left _ _
    · exact List.subset_append_of_subset_left _ (below hn)
    · exact List.subset_append_of_subset_right _ (behind hn)

/-- If each node of a forest goes on from its parent, and those at the top from some path, all of them go on from that path. -/
theorem continues_of_mem_nodesIn {parent : String} (htop : ∀ n ∈ ns, continues parent n.path = true)
    (h : Linked (nodesIn ns)) : ∀ m ∈ nodesIn ns, continues parent m.path = true := by
  induction ns using forest_induction generalizing parent with
  | nil => exact fun m hm => absurd hm List.not_mem_nil
  | cons top ns below behind =>
    obtain ⟨hchildren, hbelow, hbehind⟩ := (linked_nodesIn_cons top ns).1 h
    obtain ⟨hfirst, hothers⟩ := List.forall_mem_cons.1 htop
    intro m hm
    rw [nodesIn_cons, List.mem_cons, List.mem_append] at hm
    rcases hm with rfl | hm | hm
    · exact hfirst
    · -- the nodes below go on from the first one, which goes on from the path
      exact continues_trans hfirst (below hchildren hbelow m hm)
    · exact behind hothers hbehind m hm

/-- In a forest where each node goes on from its parent, each goes on from every node it lies below. -/
theorem Linked.continues_of_below (h : Linked (nodesIn ns)) {n m : PathNode} (hn : n ∈ nodesIn ns)
    (hm : m ∈ nodesIn n.children) : continues n.path m.path = true :=
  continues_of_mem_nodesIn (h n hn) (fun p hp => h p (nodesIn_children_subset hn hp)) m hm

/-- A path that goes on from another is not blank, so none is if those at the top are not. -/
theorem Linked.isBlankText_eq_false (h : Linked (nodesIn ns)) (htop : ∀ n ∈ ns, isBlankText n.path = false) :
    ∀ n ∈ nodesIn ns, isBlankText n.path = false := by
  induction ns using forest_induction with
  | nil => exact fun n hn => absurd hn List.not_mem_nil
  | cons top ns below behind =>
    obtain ⟨hchildren, hbelow, hbehind⟩ := (linked_nodesIn_cons top ns).1 h
    obtain ⟨hfirst, hothers⟩ := List.forall_mem_cons.1 htop
    intro n hn
    rw [nodesIn_cons, List.mem_cons, List.mem_append] at hn
    rcases hn with rfl | hn | hn
    · exact hfirst
    · exact below hbelow (fun m hm => isBlankText_of_continues (hchildren m hm)) n hn
    · exact behind hbehind hothers n hn

/-! ## What the check asks for -/

theorem check_eq (n : PathNode) : n.check = if isBlankText n.path then .error .blankPath else checkBelow n.path n.children := by
  cases n with
  | leaf path => rw [check, PathNode.path, children, checkBelow]
  | branch path ns => rw [check, PathNode.path, children]

/-- What the nodes at the top of a forest have in common and the links below them, told of the first node and of the others. -/
theorem forall_and_linked_cons (p : PathNode → Prop) (n : PathNode) (ns : List PathNode) :
    (∀ m ∈ n :: ns, p m) ∧ Linked (nodesIn (n :: ns)) ↔
      (p n ∧ (∀ m ∈ n.children, continues n.path m.path = true) ∧ Linked (nodesIn n.children)) ∧
        (∀ m ∈ ns, p m) ∧ Linked (nodesIn ns) := by
  rw [linked_nodesIn_cons, List.forall_mem_cons]
  constructor
  · rintro ⟨⟨hfirst, hothers⟩, hchildren, hbelow, hbehind⟩
    exact ⟨⟨hfirst, hchildren, hbelow⟩, hothers, hbehind⟩
  · rintro ⟨⟨hfirst, hchildren, hbelow⟩, hothers, hbehind⟩
    exact ⟨⟨hfirst, hothers⟩, hchildren, hbelow, hbehind⟩

theorem checkBelow_eq_ok_iff (parent : String) (ns : List PathNode) :
    checkBelow parent ns = .ok () ↔ (∀ n ∈ ns, continues parent n.path = true) ∧ Linked (nodesIn ns) := by
  induction ns using forest_induction generalizing parent with
  | nil => simp [checkBelow, nodesIn, Linked]
  | cons n ns below behind =>
    rw [checkBelow, check_eq, forall_and_linked_cons fun m => continues parent m.path = true]
    cases hn : continues parent n.path with
    | false => simp
    | true =>
      rw [isBlankText_of_continues hn, if_pos rfl, if_neg Bool.false_ne_true, bind_eq_ok_unit, below, behind]
      simp only [true_and]

end PathNode

/-- A mapping passes its check if no path at the top is blank and each node below goes on from its parent. -/
theorem Config.checkMapping_eq_ok_iff (ns : List PathNode) :
    checkMapping ns = .ok () ↔ (∀ n ∈ ns, isBlankText n.path = false) ∧ PathNode.Linked (PathNode.nodesIn ns) := by
  induction ns with
  | nil => simp [checkMapping, PathNode.nodesIn, PathNode.Linked]
  | cons n ns ih =>
    rw [checkMapping, PathNode.check_eq, PathNode.forall_and_linked_cons fun m => isBlankText m.path = false, bind_eq_ok_unit, ih]
    cases hn : isBlankText n.path with
    | true => simp
    | false =>
      rw [if_neg Bool.false_ne_true, PathNode.checkBelow_eq_ok_iff]
      simp only [true_and]

/-! ## The nested clauses of an expanded query -/

namespace Clause

/-- Whether a clause is a nested one. -/
def isNested : Clause → Bool
  | .nested _ _ _ => true
  | _ => false

/-- The nested clauses in some clauses, from the outside in. -/
def nestedIn (cs : List Clause) : List Clause :=
  (partsIn cs).filter isNested

theorem nestedIn_cons (c : Clause) (cs : List Clause) : nestedIn (c :: cs) = nestedIn [c] ++ nestedIn cs := by
  simp [nestedIn, partsIn]

theorem nestedIn_nested (path : String) (x : Clause) (hits : Option HighlightSpec) :
    nestedIn [.nested path x hits] = .nested path x hits :: nestedIn [x] := by
  simp [nestedIn, partsIn, parts, List.filter_cons, isNested]

theorem nestedIn_shouldOf (cs : List Clause) : nestedIn [.bool (.shouldOf cs)] = nestedIn cs := by
  simp [nestedIn, partsIn, parts, BoolQuery.parts, BoolQuery.shouldOf, isNested]

theorem mem_nestedIn_singleton (path : String) (x : Clause) (hits : Option HighlightSpec) (c : Clause) :
    .nested path x hits ∈ nestedIn [c] ↔ .nested path x hits ∈ c.parts := by
  simp [nestedIn, partsIn, isNested]

/-- A clause is flat, without nested clauses, if none is among its parts. -/
theorem nestedIn_eq_nil_iff (c : Clause) : nestedIn [c] = [] ↔ ∀ path x hits, .nested path x hits ∉ c.parts := by
  constructor
  · intro h path x hits hx
    rw [← mem_nestedIn_singleton, h] at hx
    exact List.not_mem_nil hx
  · intro h
    rw [List.eq_nil_iff_forall_not_mem]
    intro x hx
    cases x with
    | nested path y hits => exact h path y hits ((mem_nestedIn_singleton path y hits c).1 hx)
    | _ => exact absurd (List.mem_filter.1 hx).2 Bool.false_ne_true

theorem forall_nested_bool_iff (q : BoolQuery) :
    (∀ path x hits, .nested path x hits ∉ (Clause.bool q).parts) ↔ ∀ path x hits, .nested path x hits ∉ q.parts := by
  simp [parts]

end Clause

namespace PathNode

/-- The clause of a node is a nested one with its path. In it stands what is repeated, at a node without children maybe by itself, or
else in a disjunction with the clauses of the nodes below. -/
theorem fanOut_cases (hits : Option HighlightSpec) (root : Clause) (n : PathNode) :
    ∃ x, n.fanOut hits root = .nested n.path x hits ∧
      (x = root ∧ n.children = [] ∨ x = .bool (.shouldOf (root :: fanOutAll hits root n.children))) := by
  cases n with
  | leaf path => exact ⟨root, by rw [fanOut, PathNode.path], Or.inl ⟨rfl, rfl⟩⟩
  | branch path ns => exact ⟨_, by rw [fanOut, PathNode.path, children], Or.inr rfl⟩

/-- The nested clauses in the clause of a node are those of the nodes below. -/
theorem fanOut_eq (hits : Option HighlightSpec) {root : Clause} (hroot : Clause.nestedIn [root] = []) (n : PathNode) :
    ∃ x, n.fanOut hits root = .nested n.path x hits ∧
      Clause.nestedIn [x] = Clause.nestedIn (fanOutAll hits root n.children) := by
  obtain ⟨x, hx, ⟨rfl, hnone⟩ | rfl⟩ := fanOut_cases hits root n
  · refine ⟨x, hx, ?_⟩
    rw [hroot, hnone, fanOutAll]
    rfl
  · refine ⟨_, hx, ?_⟩
    rw [Clause.nestedIn_shouldOf, Clause.nestedIn_cons, hroot, List.nil_append]

/-- The nested clauses of a forest are those of its nodes, in the same order. -/
theorem nestedIn_fanOutAll (hits : Option HighlightSpec) {root : Clause} (hroot : Clause.nestedIn [root] = [])
    (ns : List PathNode) : Clause.nestedIn (fanOutAll hits root ns) = (nodesIn ns).map (fanOut hits root) := by
  induction ns using forest_induction with
  | nil => rfl
  | cons n ns below behind =>
    obtain ⟨x, hx, hnested⟩ := fanOut_eq hits hroot n
    rw [fanOutAll, Clause.nestedIn_cons, behind, hx, Clause.nestedIn_nested, hnested, below, nodesIn_cons, List.map_cons,
      List.map_append, hx, List.cons_append]

/-- A nested clause of a forest has the path of a node, and those in it are the clauses of the nodes below. -/
theorem mem_nestedIn_fanOutAll {hits : Option HighlightSpec} {root : Clause} (hroot : Clause.nestedIn [root] = [])
    {path : String} {x : Clause} {given : Option HighlightSpec}
    (h : .nested path x given ∈ Clause.nestedIn (fanOutAll hits root ns)) :
    ∃ n ∈ nodesIn ns, path = n.path ∧ Clause.nestedIn [x] = (nodesIn n.children).map (fanOut hits root) := by
  rw [nestedIn_fanOutAll hits hroot] at h
  obtain ⟨n, hn, heq⟩ := List.mem_map.1 h
  obtain ⟨y, hy, hnested⟩ := fanOut_eq hits hroot n
  rw [hy, Clause.nested.injEq] at heq
  obtain ⟨rfl, rfl, -⟩ := heq
  exact ⟨n, hn, rfl, by rw [hnested, nestedIn_fanOutAll hits hroot]⟩

end PathNode

/-- The nested clauses of a query document stand in each other as paths lie below each other: none has a blank path, and the path of
one that stands in another is the path of that, a point and something more. -/
structure Clause.NestsPaths (c : Clause) : Prop where
  named : ∀ path x hits, .nested path x hits ∈ c.parts → isBlankText path = false
  inward : ∀ path x hits, .nested path x hits ∈ c.parts → ∀ path' x' hits', .nested path' x' hits' ∈ x.parts →
    ∃ rest, rest ≠ "" ∧ path' = path ++ "." ++ rest

/-- A clause without nested ones nests no paths. -/
theorem Clause.nestsPaths_of_flat {c : Clause} (h : Clause.nestedIn [c] = []) : c.NestsPaths := by
  have hnone := (nestedIn_eq_nil_iff c).1 h
  exact ⟨fun path x hits hx => absurd hx (hnone path x hits), fun path x hits hx => absurd hx (hnone path x hits)⟩

/-- A clause repeated over a forest in which each node goes on from its parent nests paths. -/
theorem PathNode.nestsPaths_shouldOf {ns : List PathNode} (htop : ∀ n ∈ ns, isBlankText n.path = false)
    (hlinked : Linked (nodesIn ns)) (hits : Option HighlightSpec) {root : Clause} (hroot : Clause.nestedIn [root] = []) :
    (Clause.bool (.shouldOf (root :: fanOutAll hits root ns))).NestsPaths := by
  have hnode : ∀ path x given, .nested path x given ∈ (Clause.bool (.shouldOf (root :: fanOutAll hits root ns))).parts →
      ∃ n ∈ nodesIn ns, path = n.path ∧ Clause.nestedIn [x] = (nodesIn n.children).map (fanOut hits root) := by
    intro path x given hx
    rw [← Clause.mem_nestedIn_singleton, Clause.nestedIn_shouldOf, Clause.nestedIn_cons, hroot, List.nil_append] at hx
    exact mem_nestedIn_fanOutAll hroot hx
  constructor
  · intro path x given hx
    obtain ⟨n, hn, rfl, -⟩ := hnode path x given hx
    exact hlinked.isBlankText_eq_false htop n hn
  · intro path x given hx path' x' given' hx'
    obtain ⟨n, hn, rfl, hbelow⟩ := hnode path x given hx
    rw [← Clause.mem_nestedIn_singleton, hbelow] at hx'
    obtain ⟨m, hm, heq⟩ := List.mem_map.1 hx'
    obtain ⟨y, hy, -⟩ := fanOut_eq hits hroot m
    rw [hy, Clause.nested.injEq] at heq
    rw [← heq.1]
    exact (continues_iff n.path m.path).1 (hlinked.continues_of_below hn hm)

namespace Config

/-- Over a mapping that passes its check, a query without nested clauses becomes a clause that nests paths. -/
theorem nestsPaths_queryClause {c : Config} (hcheck : checkMapping c.mapping = .ok ()) {q : BoolQuery}
    (hflat : Clause.nestedIn [.bool q] = []) : (c.queryClause q).NestsPaths := by
  obtain ⟨htop, hlinked⟩ := (checkMapping_eq_ok_iff c.mapping).1 hcheck
  unfold queryClause
  split
  · exact Clause.nestsPaths_of_flat hflat
  · unfold BoolQuery.expand
    split
    · refine Clause.nestsPaths_of_flat ?_
      rw [Clause.nestedIn_shouldOf, hflat]
    · exact PathNode.nestsPaths_shouldOf htop hlinked _ hflat

/-- Composed queries have no nested clauses. -/
theorem nestedIn_compose {c : Config} {override : List String} {rs : List Rule} {done : Composition}
    (h : (c.composer override).compose rs = .ok done) : Clause.nestedIn [.bool done.query] = [] := by
  have hfit := Composer.finished_compose (c.freeTextFields_composer_ne_nil override) h
  rw [Clause.nestedIn_eq_nil_iff, Clause.forall_nested_bool_iff]
  exact fun path x hits hx => hfit.fit_of_mem_parts hx

/-- A configuration is checked as it is without its mapping, and then the mapping is. -/
theorem validate_eq_bind (c : Config) :
    c.validate = { c with mapping := [] }.validate >>= fun _ => checkMapping c.mapping := by
  unfold validate
  split
  · rfl
  · split
    · rfl
    · split
      · rfl
      · split
        · rfl
        · rfl

/-- Under a configuration that passes its checks, the nested clauses of every compiled request stand in each other as paths lie below
each other. And where nothing else is wrong with a configuration, its checks refuse it exactly if a path at the top of the mapping is
blank or some child, at whatever depth, does not have the path of its parent, a point and something more. -/
theorem validate_nests_paths (c : Config) :
    (c.validate = .ok () → ∀ r doc, compile c r = .ok doc → doc.query.NestsPaths) ∧
    ({ c with mapping := [] }.validate = .ok () → ((∃ e, c.validate = .error e) ↔
      (∃ n ∈ c.mapping, isBlankText n.path = true) ∨
        ∃ n ∈ PathNode.nodesIn c.mapping, ∃ m ∈ n.children, ¬∃ rest, rest ≠ "" ∧ m.path = n.path ++ "." ++ rest)) := by
  constructor
  · intro hvalid r doc hdoc
    obtain ⟨done, hdone, hquery⟩ := bind_eq_ok.1 hdoc
    rw [Except.ok.injEq] at hquery
    rw [← hquery]
    rw [validate_eq_bind, bind_eq_ok_unit] at hvalid
    exact nestsPaths_queryClause hvalid.2 (nestedIn_compose hdone)
  · intro hothers
    have hrefused : (∃ e, c.validate = .error e) ↔ ¬checkMapping c.mapping = .ok () := by
      rw [validate_eq_bind, hothers]
      show (∃ e, checkMapping c.mapping = .error e) ↔ _
      cases checkMapping c.mapping with
      | ok u => simp
      | error e => simp
    rw [hrefused, checkMapping_eq_ok_iff, not_and_or]
    simp only [PathNode.Linked, ← PathNode.continues_iff, not_forall, Bool.not_eq_false, exists_prop]

/-- Contacts of a site are found in a nested clause that stands in that of sites, and in no other; a mapping in which their path does
not go on from `sites` is refused, though nothing else is wrong. -/
theorem validate_nests_paths_contacts :
    (∃ doc, compile { mapping := [.branch "sites" [.leaf "sites.contacts"], .leaf "notes"] } {
        query := { rules := some [⟨some (.one "city"), some .xor, [.literal "Paris", .literal "Rome"], false⟩] } } = .ok doc ∧
      doc.query.NestsPaths) ∧
    ∃ e, ({ mapping := [.branch "sites" [.branch "sites.contacts" [.leaf "sites.contactsphones"]]] } : Config).validate = .error e := by
  constructor
  · have hvalid : ({ mapping := [.branch "sites" [.leaf "sites.contacts"], .leaf "notes"] } : Config).validate = .ok () := by
      decide +kernel
    obtain ⟨doc, hdoc⟩ := exists_eq_ok_of_isOk (x := compile
      { mapping := [.branch "sites" [.leaf "sites.contacts"], .leaf "notes"] } {
        query := { rules := some [⟨some (.one "city"), some .xor, [.literal "Paris", .literal "Rome"], false⟩] } }) (by decide)
    exact ⟨doc, hdoc, (validate_nests_paths _).1 hvalid _ doc hdoc⟩
  · refine ((validate_nests_paths
      { mapping := [.branch "sites" [.branch "sites.contacts" [.leaf "sites.contactsphones"]]] }).2 (by decide +kernel)).2 (Or.inr ?_)
    refine ⟨.branch "sites.contacts" [.leaf "sites.contactsphones"], by simp [PathNode.nodesIn, PathNode.nodes],
      .leaf "sites.contactsphones", List.mem_cons_self, ?_⟩
    rw [← PathNode.continues_iff]
    decide

end Config

end SearchRules
