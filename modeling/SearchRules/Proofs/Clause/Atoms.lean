import SearchRules.Clause.Exclusive
import SearchRules.Clause.Packing
import SearchRules.Mapping.Expansion
import SearchRules.Proofs.Clause.Parts

/-!
# What a clause is made of

The atoms of a clause are the pairs of its term objects and its free texts, at whatever depth they stand. Packing adds the pair it
places and loses none. The exclusive rewrite and the expansion over nested paths repeat atoms, and have the same ones otherwise:
`BoolQuery.mem_atoms_exclusive`, `BoolQuery.atoms_expand`.
-/

namespace SearchRules

/-- A part of a clause that is matched against fields: a value that a field has, or a free text. -/
inductive Atom where
  | pair (field value : String)
  | text (text : FreeText)
  deriving DecidableEq, Repr

/-- The query text of a free text. -/
def Atom.query? : Atom → Option String
  | .pair _ _ => none
  | .text t => some t.query

mutual

/-- The atoms of a clause. -/
def Clause.atoms : Clause → List Atom
  | .bool q => q.atoms
  | .term t => t.entries.map fun e => .pair e.1 e.2
  | .freeText t => [.text t]
  | .nested _ c _ => c.atoms

/-- The atoms of a boolean query, scope by scope. -/
def BoolQuery.atoms : BoolQuery → List Atom
  | ⟨must, should, mustNot, _⟩ => Clause.atomsIn must ++ (Clause.atomsIn should ++ Clause.atomsIn mustNot)

/-- The atoms of a list of clauses. -/
def Clause.atomsIn : List Clause → List Atom
  | [] => []
  | c :: cs => c.atoms ++ Clause.atomsIn cs

end

/-- The atoms a clause holds itself, not in a clause in it. -/
def Clause.ownAtoms : Clause → List Atom
  | .bool _ => []
  | .term t => t.entries.map fun e => .pair e.1 e.2
  | .freeText t => [.text t]
  | .nested _ _ _ => []

/-! ## Atoms and the clauses that hold them -/

mutual

/-- The atoms of a clause are those that the clauses in it hold, in order. -/
theorem Clause.atoms_eq_flatMap : ∀ c : Clause, c.atoms = c.parts.flatMap Clause.ownAtoms
  | .bool q => by
    rw [Clause.atoms, Clause.parts, List.flatMap_cons, BoolQuery.atoms_eq_flatMap q]
    rfl
  | .term t => by rw [Clause.atoms, Clause.parts, List.flatMap_singleton, Clause.ownAtoms]
  | .freeText t => by rw [Clause.atoms, Clause.parts, List.flatMap_singleton, Clause.ownAtoms]
  | .nested path c hits => by
    rw [Clause.atoms, Clause.parts, List.flatMap_cons, Clause.atoms_eq_flatMap c]
    rfl

theorem BoolQuery.atoms_eq_flatMap : ∀ q : BoolQuery, q.atoms = q.parts.flatMap Clause.ownAtoms
  | ⟨must, should, mustNot, m⟩ => by
    rw [BoolQuery.atoms, BoolQuery.parts, List.flatMap_append, List.flatMap_append, Clause.atomsIn_eq_flatMap must,
      Clause.atomsIn_eq_flatMap should, Clause.atomsIn_eq_flatMap mustNot]

theorem Clause.atomsIn_eq_flatMap : ∀ cs : List Clause, Clause.atomsIn cs = (Clause.partsIn cs).flatMap Clause.ownAtoms
  | [] => rfl
  | c :: cs => by
    rw [Clause.atomsIn, Clause.partsIn, List.flatMap_append, Clause.atoms_eq_flatMap c, Clause.atomsIn_eq_flatMap cs]

end

namespace BoolQuery

/-- The pairs of a query are those of the term objects in it. -/
theorem pair_mem_atoms_iff (q : BoolQuery) (field value : String) :
    .pair field value ∈ q.atoms ↔ ∃ t, .term t ∈ q.parts ∧ (field, value) ∈ t.entries := by
  rw [atoms_eq_flatMap, List.mem_flatMap]
  constructor
  · rintro ⟨x, hx, hown⟩
    cases x with
    | term t =>
      obtain ⟨⟨f, v⟩, he, heq⟩ := List.mem_map.1 hown
      cases heq
      exact ⟨t, hx, he⟩
    | freeText t => simp [Clause.ownAtoms] at hown
    | bool _ => exact absurd hown List.not_mem_nil
    | nested _ _ _ => exact absurd hown List.not_mem_nil
  · rintro ⟨t, ht, he⟩
    exact ⟨.term t, ht, List.mem_map.2 ⟨_, he, rfl⟩⟩

/-- The texts of a query are the free-text clauses in it. -/
theorem text_mem_atoms_iff (q : BoolQuery) (t : FreeText) : .text t ∈ q.atoms ↔ .freeText t ∈ q.parts := by
  rw [atoms_eq_flatMap, List.mem_flatMap]
  constructor
  · rintro ⟨x, hx, hown⟩
    cases x with
    | term t' => simp [Clause.ownAtoms] at hown
    | freeText t' =>
      cases List.mem_singleton.1 hown
      exact hx
    | bool _ => exact absurd hown List.not_mem_nil
    | nested _ _ _ => exact absurd hown List.not_mem_nil
  · intro ht
    exact ⟨.freeText t, ht, List.mem_singleton_self _⟩

end BoolQuery

/-! ## Lists and scopes -/

namespace Clause

theorem atomsIn_append (cs ds : List Clause) : atomsIn (cs ++ ds) = atomsIn cs ++ atomsIn ds := by
  induction cs with
  | nil => rfl
  | cons c cs ih => rw [List.cons_append, atomsIn, atomsIn, ih, List.append_assoc]

theorem atomsIn_singleton (c : Clause) : atomsIn [c] = c.atoms := by
  rw [atomsIn, atomsIn, List.append_nil]

theorem perm_atomsIn {cs ds : List Clause} (h : cs.Perm ds) : (atomsIn cs).Perm (atomsIn ds) := by
  induction h with
  | nil => exact List.Perm.refl _
  | cons c _ ih => exact List.Perm.append_left c.atoms ih
  | swap c d cs => exact List.perm_append_comm_assoc d.atoms c.atoms (Clause.atomsIn cs)
  | trans _ _ ih₁ ih₂ => exact ih₁.trans ih₂

end Clause

namespace BoolQuery

theorem atoms_eq (q : BoolQuery) :
    q.atoms = Clause.atomsIn q.must ++ (Clause.atomsIn q.should ++ Clause.atomsIn q.mustNot) := by
  obtain ⟨must, should, mustNot, m⟩ := q
  rw [atoms]

theorem atoms_shouldOf (cs : List Clause) : (shouldOf cs).atoms = Clause.atomsIn cs := by
  rw [atoms_eq]
  simp [shouldOf, Clause.atomsIn]

/-- A scope that gains atoms adds them to the query. -/
theorem atoms_modify_perm (q : BoolQuery) (s : Scope) {f : List Clause → List Clause} {as : List Atom}
    (h : (Clause.atomsIn (f (q.clauses s))).Perm (Clause.atomsIn (q.clauses s) ++ as)) :
    (q.modify s f).atoms.Perm (q.atoms ++ as) := by
  rw [atoms_eq, atoms_eq]
  cases s with
  | must =>
    refine (h.append_right _).trans ?_
    rw [List.append_assoc, List.append_assoc]
    exact List.Perm.append_left _ List.perm_append_comm
  | should =>
    refine (List.Perm.append_left _ (h.append_right _)).trans ?_
    rw [List.append_assoc, List.append_assoc, List.append_assoc]
    exact List.Perm.append_left _ (List.Perm.append_left _ List.perm_append_comm)
  | mustNot =>
    rw [List.append_assoc, List.append_assoc]
    exact List.Perm.append_left _ (List.Perm.append_left _ h)

/-- An empty query has no atoms. -/
theorem atoms_of_isEmpty {q : BoolQuery} (h : q.isEmpty = true) : q.atoms = [] := by
  obtain ⟨must, should, mustNot, m⟩ := q
  simp only [isEmpty, Bool.and_eq_true, List.isEmpty_iff] at h
  obtain ⟨⟨rfl, rfl⟩, rfl⟩ := h
  rfl

end BoolQuery

/-! ## Packing and disjunctions -/

namespace Clause

/-- Placing a pair adds that pair. -/
theorem atomsIn_place_perm (key : TermKey) (field value : String) (cs : List Clause) :
    (atomsIn (place key field value cs)).Perm (atomsIn cs ++ [.pair field value]) := by
  induction cs with
  | nil => exact List.Perm.refl _
  | cons c cs ih =>
    have hpast : (c.atoms ++ atomsIn (place key field value cs)).Perm (atomsIn (c :: cs) ++ [.pair field value]) := by
      rw [atomsIn, List.append_assoc]
      exact List.Perm.append_left c.atoms ih
    cases c with
    | term t =>
      rw [place, TermObject.insert?]
      by_cases h : t.has field = true
      · rw [if_pos h]
        exact hpast
      · rw [if_neg h, atomsIn, atomsIn, atoms, atoms, List.map_append, List.append_assoc, List.append_assoc]
        exact List.Perm.append_left _ List.perm_append_comm
    | bool q => exact hpast
    | freeText t => exact hpast
    | nested path q hits => exact hpast

/-- Placing values under fields adds each value under each field. -/
theorem atomsIn_placeAll_perm (key : TermKey) (fields values : List String) (cs : List Clause) :
    (atomsIn (placeAll key fields values cs)).Perm
      (atomsIn cs ++ values.flatMap fun value => fields.map fun field => .pair field value) := by
  have hunder : ∀ (fields : List String) (value : String) (cs : List Clause),
      (atomsIn (placeUnder key fields cs value)).Perm (atomsIn cs ++ fields.map fun field => .pair field value) := by
    intro fields value
    induction fields with
    | nil =>
      intro cs
      rw [List.map_nil, List.append_nil]
      exact List.Perm.refl _
    | cons field fields ih =>
      intro cs
      refine (ih (place key field value cs)).trans ?_
      rw [List.map_cons, ← List.singleton_append (l := fields.map _), ← List.append_assoc]
      exact List.Perm.append_right _ (atomsIn_place_perm key field value cs)
  induction values generalizing cs with
  | nil =>
    rw [List.flatMap_nil, List.append_nil]
    exact List.Perm.refl _
  | cons value values ih =>
    refine (ih (placeUnder key fields cs value)).trans ?_
    rw [List.flatMap_cons, ← List.append_assoc]
    exact List.Perm.append_right _ (hunder fields value cs)

/-- Any one of some clauses is made of what they are made of. -/
theorem atomsIn_anyOf (cs : List Clause) : atomsIn (anyOf cs).toList = atomsIn cs := by
  match cs with
  | [] => rfl
  | [c] => rfl
  | c₁ :: c₂ :: cs => exact (atomsIn_singleton _).trans (BoolQuery.atoms_shouldOf _)

end Clause

/-! ## Exclusive alternatives -/

namespace BoolQuery

theorem atoms_allOf (cs : List Clause) : (allOf cs).atoms = Clause.atomsIn cs := by
  rw [atoms_eq]
  simp [allOf, Clause.atomsIn]

/-- The query for some but not all of some clauses has each of their atoms twice. -/
theorem atoms_someNotAll (cs : List Clause) : (someNotAll cs).atoms = Clause.atomsIn cs ++ Clause.atomsIn cs := by
  cases cs with
  | nil => rfl
  | cons c cs =>
    rw [atoms_eq, someNotAll, Clause.atomsIn_singleton, Clause.atoms, atoms_allOf]
    · rfl
    · exact nofun

/-- The exclusive rewrite repeats atoms at most. -/
theorem mem_atoms_exclusive (q : BoolQuery) (strategy : XorStrategy) (a : Atom) :
    a ∈ (q.exclusive strategy).atoms ↔ a ∈ q.atoms := by
  obtain ⟨must, should, mustNot, m⟩ := q
  cases strategy with
  | minimumShouldMatch => exact Iff.rfl
  | emulate =>
    have hnot : ∀ a, a ∈ Clause.atomsIn (someNotAll should).mustNot ↔ a ∈ Clause.atomsIn should := by
      intro a
      cases should with
      | nil => exact Iff.rfl
      | cons c cs =>
        rw [someNotAll, Clause.atomsIn_singleton, Clause.atoms, atoms_allOf]
        exact nofun
    rw [exclusive, atoms_eq]
    by_cases hm : must.isEmpty = true
    · rw [if_pos hm, atoms_eq]
      simp only [Clause.atomsIn_append, List.mem_append, hnot]
      grind
    · rw [if_neg hm]
      by_cases hx : (someNotAll should).isEmpty = true
      · rw [if_pos hx, atoms_eq]
      · rw [if_neg hx, atoms_eq]
        simp only [Clause.atomsIn_append, Clause.atoms, atoms_someNotAll, Clause.atomsIn, List.mem_append]
        grind

end BoolQuery

/-! ## Expansion over nested paths -/

namespace PathNode

mutual

/-- A node repeats what is repeated at it once for each path of its tree. -/
theorem atoms_fanOut (hits : Option HighlightSpec) (root : Clause) :
    ∀ n : PathNode, (n.fanOut hits root).atoms = (List.replicate n.pathCount root.atoms).flatten
  | .leaf path => by
    rw [fanOut, Clause.atoms, pathCount]
    simp
  | .branch path children => by
    rw [fanOut, Clause.atoms, Clause.atoms, BoolQuery.atoms_shouldOf, Clause.atomsIn, atomsIn_fanOutAll hits root children,
      pathCount, Nat.add_comm, List.replicate_succ, List.flatten_cons]

/-- A forest repeats it once for each of its paths. -/
theorem atomsIn_fanOutAll (hits : Option HighlightSpec) (root : Clause) :
    ∀ ns : List PathNode, Clause.atomsIn (fanOutAll hits root ns) = (List.replicate (forestCount ns) root.atoms).flatten
  | [] => rfl
  | n :: ns => by
    rw [fanOutAll, Clause.atomsIn, atoms_fanOut hits root n, atomsIn_fanOutAll hits root ns, forestCount,
      ← List.flatten_append, List.replicate_append_replicate]

end

end PathNode

namespace BoolQuery

/-- Expansion repeats each atom of a query that is not empty once for each path of the mapping, besides the query itself. -/
theorem atoms_expand (mapping : List PathNode) (hits : Option HighlightSpec) (q : BoolQuery) :
    (q.expand mapping hits).atoms = (List.replicate (PathNode.forestCount mapping + 1) q.atoms).flatten := by
  rw [expand]
  cases h : q.isEmpty with
  | true =>
    rw [if_pos rfl, atoms_shouldOf, Clause.atomsIn_singleton, Clause.atoms, atoms_of_isEmpty h]
    simp
  | false =>
    rw [if_neg Bool.false_ne_true, atoms_shouldOf, Clause.atomsIn, PathNode.atomsIn_fanOutAll, Clause.atoms, List.replicate_succ,
      List.flatten_cons]

end BoolQuery

end SearchRules
