import SearchRules.Mapping.Expansion
import SearchRules.Proofs.Clause.Matching
import SearchRules.Proofs.Clause.Parts

/-!
# Where an expanded query matches

A query expanded over a mapping matches a document where the query matches the document itself or a sub-document reached from it by
going down the mapping: `expand_matches_iff`. What the query asks for plays no part, so that is proved for a query of which it is
only given in which documents it matches (`Clause.matchesGiven`).
-/

namespace SearchRules

namespace PathNode

/-- A sub-document is reached from a document by the paths of a chain of nodes: the first is one of the given nodes, and each of the
others is a child of the one before. -/
inductive Reaches : List PathNode → Document → Document → Prop where
  | stop {ns : List PathNode} {n : PathNode} {d s : Document} : n ∈ ns → s ∈ d.under n.path → Reaches ns d s
  | onward {ns : List PathNode} {n : PathNode} {d s t : Document} :
      n ∈ ns → s ∈ d.under n.path → Reaches n.children s t → Reaches ns d t

mutual

/-- A tree with every branch without children written as a leaf. -/
def trim : PathNode → PathNode
  | .leaf path => .leaf path
  | .branch path children =>
    match trimAll children with
    | [] => .leaf path
    | n :: ns => .branch path (n :: ns)

/-- A forest with every branch without children written as a leaf. -/
def trimAll : List PathNode → List PathNode
  | [] => []
  | n :: ns => n.trim :: trimAll ns

end

variable {ns : List PathNode} {d t : Document}

/-! ## Chains of nodes -/

theorem not_reaches_nil : ¬Reaches [] d t := by
  intro h
  cases h with
  | stop hn _ => exact List.not_mem_nil hn
  | onward hn _ _ => exact List.not_mem_nil hn

/-- A chain starts at the first of some nodes or at one of the others; its first step leads to a sub-document, where it ends or goes
on among the children of the node. -/
theorem reaches_cons (n : PathNode) (ns : List PathNode) (d t : Document) :
    Reaches (n :: ns) d t ↔ (∃ s ∈ d.under n.path, t = s ∨ Reaches n.children s t) ∨ Reaches ns d t := by
  constructor
  · intro h
    cases h with
    | stop hn hs =>
      rcases List.mem_cons.1 hn with rfl | hn
      · exact Or.inl ⟨t, hs, Or.inl rfl⟩
      · exact Or.inr (.stop hn hs)
    | onward hn hs ht =>
      rcases List.mem_cons.1 hn with rfl | hn
      · exact Or.inl ⟨_, hs, Or.inr ht⟩
      · exact Or.inr (.onward hn hs ht)
  · rintro (⟨s, hs, rfl | ht⟩ | h)
    · exact .stop List.mem_cons_self hs
    · exact .onward List.mem_cons_self hs ht
    · cases h with
      | stop hn hs => exact .stop (List.mem_cons_of_mem n hn) hs
      | onward hn hs ht => exact .onward (List.mem_cons_of_mem n hn) hs ht

theorem trimAll_eq_map (ns : List PathNode) : trimAll ns = ns.map trim := by
  induction ns with
  | nil => rfl
  | cons n ns ih => rw [trimAll, ih, List.map_cons]

@[simp]
theorem path_trim (n : PathNode) : n.trim.path = n.path := by
  cases n with
  | leaf path => rfl
  | branch path children =>
    rw [trim]
    cases trimAll children <;> rfl

@[simp]
theorem children_trim (n : PathNode) : n.trim.children = trimAll n.children := by
  cases n with
  | leaf path => rfl
  | branch path children =>
    rw [trim]
    show _ = trimAll children
    cases trimAll children <;> rfl

/-- How a node without children is written does not matter to where it leads. -/
theorem reaches_trimAll (ns : List PathNode) (d t : Document) : Reaches (trimAll ns) d t ↔ Reaches ns d t := by
  constructor
  · intro h
    generalize hms : trimAll ns = ms at h
    induction h generalizing ns with
    | stop hn hs =>
      rw [← hms, trimAll_eq_map] at hn
      obtain ⟨m, hm, rfl⟩ := List.mem_map.1 hn
      exact .stop hm (path_trim m ▸ hs)
    | onward hn hs _ ih =>
      rw [← hms, trimAll_eq_map] at hn
      obtain ⟨m, hm, rfl⟩ := List.mem_map.1 hn
      exact .onward hm (path_trim m ▸ hs) (ih m.children (children_trim m).symm)
  · intro h
    induction h with
    | stop hn hs =>
      rw [trimAll_eq_map]
      exact .stop (List.mem_map_of_mem hn) (by rwa [path_trim])
    | onward hn hs _ ih =>
      rw [trimAll_eq_map]
      exact .onward (List.mem_map_of_mem hn) (by rwa [path_trim]) (by rwa [children_trim])

end PathNode

/-! ## Clauses about a query that is given -/

/-- A query, and in which documents it is given to match. -/
structure Given where
  query : BoolQuery
  truth : Document → Bool

open Classical in
mutual

/-- Whether a clause matches a document, given in which documents one query does. -/
noncomputable def Clause.matchesGiven (g : Given) : Clause → Document → Bool
  | .bool q, d => q.matchesGiven g d
  | .term t, d => t.entries.all fun e => d.has e.1 e.2
  | .freeText t, d => d.answers t
  | .nested path c _, d => (d.under path).any fun s => c.matchesGiven g s

/-- Whether a boolean query matches a document, given in which documents one query does. -/
noncomputable def BoolQuery.matchesGiven (g : Given) : BoolQuery → Document → Bool
  | ⟨must, should, mustNot, m⟩, d =>
    if ⟨must, should, mustNot, m⟩ = g.query then g.truth d
    else (Clause.verdictsGiven g must d).all id && !(Clause.verdictsGiven g mustNot d).any id &&
      decide (BoolQuery.required ⟨must, should, mustNot, m⟩ ≤ (Clause.verdictsGiven g should d).countP id)

/-- For each clause of a list, whether it matches a document, given in which documents one query does. -/
noncomputable def Clause.verdictsGiven (g : Given) : List Clause → Document → List Bool
  | [], _ => []
  | c :: cs, d => c.matchesGiven g d :: Clause.verdictsGiven g cs d

end

section

variable {g : Given}

theorem Clause.verdictsGiven_eq_map (cs : List Clause) (d : Document) :
    verdictsGiven g cs d = cs.map (·.matchesGiven g d) := by
  induction cs with
  | nil => rw [verdictsGiven, List.map_nil]
  | cons c cs ih => rw [verdictsGiven, List.map_cons, ih]

namespace BoolQuery

/-- The query that is given matches where it is given to. -/
theorem matchesGiven_self (d : Document) : g.query.matchesGiven g d = g.truth d := by
  cases hq : g.query with
  | mk must should mustNot m => rw [matchesGiven, if_pos hq.symm]

/-- Any other query is read as the engine reads it. -/
theorem matchesGiven_of_ne {q : BoolQuery} (h : q ≠ g.query) (d : Document) : q.matchesGiven g d =
    (q.must.all (·.matchesGiven g d) && !q.mustNot.any (·.matchesGiven g d) &&
      decide (q.required ≤ q.should.countP (·.matchesGiven g d))) := by
  obtain ⟨must, should, mustNot, m⟩ := q
  rw [matchesGiven, if_neg h]
  simp only [Clause.verdictsGiven_eq_map, List.all_map, List.any_map, List.countP_map]
  rfl

/-- A disjunction that has the given query among its clauses matches where that or one of the others does. -/
theorem matchesGiven_shouldOf (cs : List Clause) (d : Document) :
    (shouldOf (.bool g.query :: cs)).matchesGiven g d = (g.truth d || cs.any (·.matchesGiven g d)) := by
  have hrequired : (shouldOf (.bool g.query :: cs)).required = 1 := rfl
  rw [matchesGiven_of_ne (g.query.shouldOf_cons_ne cs), hrequired, decide_one_le_countP]
  simp [shouldOf, Clause.matchesGiven, matchesGiven_self]

end BoolQuery

end

mutual

/-- A clause matches where it does if a query is given to match where it does. -/
theorem Clause.matchesGiven_matches (root : BoolQuery) :
    ∀ (c : Clause) (d : Document), c.matchesGiven ⟨root, root.matches⟩ d = c.matches d
  | .bool q, d => by rw [Clause.matchesGiven, BoolQuery.matchesGiven_matches root q d, Clause.matches]
  | .term t, d => by rw [Clause.matchesGiven, Clause.matches]
  | .freeText t, d => by rw [Clause.matchesGiven, Clause.matches]
  | .nested path c hits, d => by
    rw [Clause.matchesGiven, Clause.matches]
    exact congrArg _ (funext fun s => Clause.matchesGiven_matches root c s)

theorem BoolQuery.matchesGiven_matches (root : BoolQuery) :
    ∀ (q : BoolQuery) (d : Document), q.matchesGiven ⟨root, root.matches⟩ d = q.matches d
  | ⟨must, should, mustNot, m⟩, d => by
    by_cases h : ⟨must, should, mustNot, m⟩ = root
    · rw [h]
      exact BoolQuery.matchesGiven_self (g := ⟨root, root.matches⟩) d
    · rw [BoolQuery.matchesGiven, if_neg h, BoolQuery.matches, Clause.verdictsGiven_matches root must d,
        Clause.verdictsGiven_matches root should d, Clause.verdictsGiven_matches root mustNot d]

theorem Clause.verdictsGiven_matches (root : BoolQuery) :
    ∀ (cs : List Clause) (d : Document), Clause.verdictsGiven ⟨root, root.matches⟩ cs d = Clause.verdicts cs d
  | [], d => by rw [Clause.verdictsGiven, Clause.verdicts]
  | c :: cs, d => by
    rw [Clause.verdictsGiven, Clause.matchesGiven_matches root c d, Clause.verdictsGiven_matches root cs d, Clause.verdicts]

end

/-! ## Fanning out -/

namespace PathNode

variable {g : Given}

mutual

/-- The clause of a node matches where the query does in a sub-document under its path, or in one reached from there. -/
theorem matchesGiven_fanOut (hits : Option HighlightSpec) :
    ∀ (n : PathNode) (d : Document), (n.fanOut hits (.bool g.query)).matchesGiven g d = true ↔
      ∃ s ∈ d.under n.path, g.truth s = true ∨ ∃ t, Reaches n.children s t ∧ g.truth t = true
  | .leaf path, d => by
    rw [fanOut, Clause.matchesGiven, List.any_eq_true]
    refine exists_congr fun s => and_congr_right fun _ => ?_
    rw [Clause.matchesGiven, BoolQuery.matchesGiven_self]
    exact ⟨Or.inl, fun h => h.resolve_right fun ⟨_, ht, _⟩ => not_reaches_nil ht⟩
  | .branch path ns, d => by
    rw [fanOut, Clause.matchesGiven, List.any_eq_true]
    refine exists_congr fun s => and_congr_right fun _ => ?_
    rw [Clause.matchesGiven, BoolQuery.matchesGiven_shouldOf, Bool.or_eq_true, matchesGiven_fanOutAll hits ns s]
    rfl

/-- One of the clauses of a forest matches where the query does in a sub-document reached through the forest. -/
theorem matchesGiven_fanOutAll (hits : Option HighlightSpec) :
    ∀ (ns : List PathNode) (d : Document), (fanOutAll hits (.bool g.query) ns).any (·.matchesGiven g d) = true ↔
      ∃ t, Reaches ns d t ∧ g.truth t = true
  | [], d => by
    rw [fanOutAll, List.any_nil]
    exact ⟨nofun, fun ⟨_, ht, _⟩ => absurd ht not_reaches_nil⟩
  | n :: ns, d => by
    rw [fanOutAll, List.any_cons, Bool.or_eq_true, matchesGiven_fanOut hits n d, matchesGiven_fanOutAll hits ns d]
    simp only [reaches_cons]
    constructor
    · rintro (⟨s, hs, hself | ⟨t, ht, htruth⟩⟩ | ⟨t, ht, htruth⟩)
      · exact ⟨s, Or.inl ⟨s, hs, Or.inl rfl⟩, hself⟩
      · exact ⟨t, Or.inl ⟨s, hs, Or.inr ht⟩, htruth⟩
      · exact ⟨t, Or.inr ht, htruth⟩
    · rintro ⟨t, ⟨s, hs, rfl | ht⟩ | ht, htruth⟩
      · exact Or.inl ⟨t, hs, Or.inl htruth⟩
      · exact Or.inl ⟨s, hs, Or.inr ⟨t, ht, htruth⟩⟩
      · exact Or.inr ⟨t, ht, htruth⟩

end

end PathNode

namespace BoolQuery

variable {g : Given}

/-- The query repeated under every path of a mapping matches at the top level or where it does in a sub-document reached. -/
theorem matchesGiven_fanOut (mapping : List PathNode) (hits : Option HighlightSpec) (d : Document) :
    (shouldOf (.bool g.query :: PathNode.fanOutAll hits (.bool g.query) mapping)).matchesGiven g d = true ↔
      g.truth d = true ∨ ∃ s, PathNode.Reaches mapping d s ∧ g.truth s = true := by
  rw [matchesGiven_shouldOf, Bool.or_eq_true, PathNode.matchesGiven_fanOutAll]

/-- The expanded query does so too, though an empty query is not repeated: no sub-document tells anything new about it. -/
theorem matchesGiven_expand (hempty : g.query.isEmpty = true → ∀ d d', g.truth d = g.truth d') (mapping : List PathNode)
    (hits : Option HighlightSpec) (d : Document) :
    (g.query.expand mapping hits).matchesGiven g d = true ↔
      g.truth d = true ∨ ∃ s, PathNode.Reaches mapping d s ∧ g.truth s = true := by
  rw [expand]
  cases he : g.query.isEmpty with
  | false =>
    rw [if_neg Bool.false_ne_true]
    exact matchesGiven_fanOut mapping hits d
  | true =>
    rw [if_pos rfl, matchesGiven_shouldOf, List.any_nil, Bool.or_false]
    refine ⟨Or.inl, ?_⟩
    rintro (htop | ⟨s, -, hs⟩)
    · exact htop
    · rw [hempty he d s]
      exact hs

/-- A query without clauses matches in every document or in none. -/
theorem matches_const_of_isEmpty {q : BoolQuery} (h : q.isEmpty = true) (d d' : Document) : q.matches d = q.matches d' := by
  obtain ⟨must, should, mustNot, m⟩ := q
  simp only [isEmpty, Bool.and_eq_true, List.isEmpty_iff] at h
  obtain ⟨⟨rfl, rfl⟩, rfl⟩ := h
  rw [matches_eq, matches_eq]
  rfl

/-- Let it be given in which documents a query matches, in all or none if it is empty. Expanded over a mapping it matches a document
where it matches the document itself or a sub-document reached through the mapping. For an empty query that is not repeated this
makes no difference to repeating it, nor does it for a node without children whether it is written as a leaf or as a branch. In
particular it is so where the query matches as the engine reads it. -/
theorem expand_matches_iff (root : BoolQuery) (truth : Document → Bool)
    (hempty : root.isEmpty = true → ∀ d d', truth d = truth d') (mapping : List PathNode) (hits : Option HighlightSpec)
    (d : Document) :
    ((root.expand mapping hits).matchesGiven ⟨root, truth⟩ d = true ↔
        truth d = true ∨ ∃ s, PathNode.Reaches mapping d s ∧ truth s = true) ∧
      (shouldOf (.bool root :: PathNode.fanOutAll hits (.bool root) mapping)).matchesGiven ⟨root, truth⟩ d =
        (root.expand mapping hits).matchesGiven ⟨root, truth⟩ d ∧
      (∀ mapping', PathNode.trimAll mapping' = PathNode.trimAll mapping →
        (root.expand mapping' hits).matchesGiven ⟨root, truth⟩ d = (root.expand mapping hits).matchesGiven ⟨root, truth⟩ d) ∧
      ((root.expand mapping hits).matches d = true ↔
        root.matches d = true ∨ ∃ s, PathNode.Reaches mapping d s ∧ root.matches s = true) := by
  have hexpand := matchesGiven_expand (g := ⟨root, truth⟩) hempty
  refine ⟨hexpand mapping hits d, ?_, fun mapping' htrim => ?_, ?_⟩
  · rw [Bool.eq_iff_iff, hexpand]
    exact matchesGiven_fanOut (g := ⟨root, truth⟩) mapping hits d
  · rw [Bool.eq_iff_iff, hexpand, hexpand]
    have hreaches : ∀ s, PathNode.Reaches mapping' d s ↔ PathNode.Reaches mapping d s := by
      intro s
      rw [← PathNode.reaches_trimAll, htrim, PathNode.reaches_trimAll]
    simp only [hreaches]
  · rw [← matchesGiven_matches root]
    exact matchesGiven_expand (g := ⟨root, root.matches⟩) (fun he d d' => matches_const_of_isEmpty he d d') mapping hits d

end BoolQuery

/-- A document with one pair that holds some sub-documents under one path. -/
def Document.holding (pair : String × String) (path : String) (subs : List Document) : Document where
  has field value := field == pair.1 && value == pair.2
  answers _ := false
  under p := if p = path then subs else []

/-- A contact of a site is found, though neither the document nor the site matches; from the top the path of contacts leads
nowhere. -/
theorem BoolQuery.expand_matches_iff_contact_of_site :
    (expand [.branch "sites" [.leaf "sites.contacts"], .branch "notes" []] none
        { must := [.freeText ⟨"Paris", ["*"]⟩] }).matchesGiven
      ⟨{ must := [.freeText ⟨"Paris", ["*"]⟩] }, fun d => d.has "city" "Paris"⟩
      (.holding ("city", "Rome") "sites" [.holding ("city", "Lyon") "sites.contacts" [.holding ("city", "Paris") "" []]]) = true ∧
    (expand [.branch "sites" [.leaf "sites.contacts"], .branch "notes" []] none
        { must := [.freeText ⟨"Paris", ["*"]⟩] }).matchesGiven
      ⟨{ must := [.freeText ⟨"Paris", ["*"]⟩] }, fun d => d.has "city" "Paris"⟩
      (.holding ("city", "Rome") "sites.contacts" [.holding ("city", "Paris") "" []]) = false := by
  have hall := expand_matches_iff { must := [.freeText ⟨"Paris", ["*"]⟩] } (fun d => d.has "city" "Paris")
    (fun h => absurd h Bool.false_ne_true) [.branch "sites" [.leaf "sites.contacts"], .branch "notes" []] none
  constructor
  · refine (hall _).1.2 (Or.inr ⟨.holding ("city", "Paris") "" [], ?_, by decide⟩)
    exact .onward List.mem_cons_self List.mem_cons_self (.stop List.mem_cons_self List.mem_cons_self)
  · rw [← Bool.not_eq_true, (hall _).1]
    rintro (htop | ⟨s, hs, -⟩)
    · exact absurd htop (by decide)
    · -- there is nothing under the paths of the top-level nodes
      simp [PathNode.reaches_cons, PathNode.not_reaches_nil, PathNode.path, PathNode.children, Document.holding] at hs

end SearchRules
