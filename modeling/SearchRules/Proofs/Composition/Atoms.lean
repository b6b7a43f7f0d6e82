import SearchRules.Compile
import SearchRules.Proofs.Clause.Atoms
import SearchRules.Proofs.Composition.Pieces
import SearchRules.Proofs.Composition.Run

/-!
# What a composed query is made of

Each literal of a rule gives atoms: a pair under each field name, or one free text. A query document is made of the atoms of the
literals of its request, at any depth of groups, and of nothing else: `mem_atoms_compile`.
-/

namespace SearchRules

/-- The atoms of a literal. -/
def LiteralForm.atoms (style : QueryStyle) (literal : String) : LiteralForm → List Atom
  | .terms names => names.map fun field => .pair field literal
  | .freeText fields => [.text ⟨String.ofList (style.queryChars literal.toList), fields⟩]

/-- The field names of literals that become pairs. -/
def LiteralForm.names : LiteralForm → List String
  | .terms names => names
  | .freeText _ => []

namespace Composer

mutual

/-- The atoms of a value. -/
def valueAtoms (c : Composer) (form : LiteralForm) : Value → List Atom
  | .literal text => form.atoms c.config.queryStyle text
  | .group rs => c.ruleAtomsIn rs

/-- The atoms of values. -/
def valueAtomsIn (c : Composer) (form : LiteralForm) : List Value → List Atom
  | [] => []
  | v :: vs => c.valueAtoms form v ++ c.valueAtomsIn form vs

/-- The atoms of a rule. -/
def ruleAtoms (c : Composer) : Rule → List Atom
  | ⟨field, operator, values, isKeyword⟩ =>
    c.valueAtomsIn (c.literalForm ⟨field, operator, values, isKeyword⟩) values

/-- The atoms of a list of rules. -/
def ruleAtomsIn (c : Composer) : List Rule → List Atom
  | [] => []
  | r :: rs => c.ruleAtoms r ++ c.ruleAtomsIn rs

end

theorem ruleAtoms_eq (c : Composer) (r : Rule) : c.ruleAtoms r = c.valueAtomsIn (c.literalForm r) r.values := by
  obtain ⟨field, operator, values, isKeyword⟩ := r
  rw [ruleAtoms]

end Composer

namespace Piece

/-- The atoms of a piece, a term under each of the given fields. -/
def atoms (names : List String) : Piece → List Atom
  | .term literal => names.map fun field => .pair field literal
  | .freeText c => c.atoms
  | .group q => q.atoms

/-- Folding a piece in adds its atoms. -/
theorem atomsIn_land_perm (key : TermKey) (names : List String) (cs : List Clause) (p : Piece) :
    (Clause.atomsIn (land key names cs p)).Perm (Clause.atomsIn cs ++ p.atoms names) := by
  cases p with
  | term literal =>
    refine (Clause.atomsIn_placeAll_perm key names [literal] cs).trans ?_
    rw [List.flatMap_singleton]
    exact List.Perm.refl _
  | freeText c =>
    rw [land, Clause.atomsIn_append, Clause.atomsIn_singleton]
    exact List.Perm.refl _
  | group q =>
    rw [land, Clause.atomsIn_append, groupClause?, atoms]
    cases h : q.isEmpty with
    | true =>
      rw [if_pos rfl, BoolQuery.atoms_of_isEmpty h]
      exact List.Perm.refl _
    | false =>
      rw [if_neg Bool.false_ne_true, Option.toList_some, Clause.atomsIn_singleton, Clause.atoms]

theorem atomsIn_foldl_land_perm (key : TermKey) (names : List String) (pieces : List Piece) (cs : List Clause) :
    (Clause.atomsIn (pieces.foldl (land key names) cs)).Perm (Clause.atomsIn cs ++ pieces.flatMap (atoms names)) := by
  induction pieces generalizing cs with
  | nil => simp
  | cons p pieces ih =>
    rw [List.foldl_cons, List.flatMap_cons, ← List.append_assoc]
    exact (ih (land key names cs p)).trans (List.Perm.append_right _ (atomsIn_land_perm key names cs p))

/-- A disjunction of texts among groups has the atoms of the texts and of the groups. -/
theorem atomsIn_disjunction_perm (key : TermKey) (pieces : List Piece) :
    (Clause.atomsIn (disjunction pieces)).Perm (pieces.flatMap (atoms [])) := by
  have hland := Clause.perm_atomsIn (foldl_land_perm key pieces [])
  have hdisj := Clause.perm_atomsIn (disjunction_perm pieces)
  rw [Clause.atomsIn_append, Clause.atomsIn_anyOf, ← Clause.atomsIn_append] at hdisj
  rw [List.nil_append] at hland
  exact hdisj.trans (hland.symm.trans (atomsIn_foldl_land_perm key [] pieces []))

end Piece

namespace Composer

variable {c : Composer}

/-- Folding in the pieces of a rule adds their atoms. -/
theorem atomsIn_landAll_perm (c : Composer) (r : Rule) (pieces : List Piece) (cs : List Clause) :
    (Clause.atomsIn (c.landAll r pieces cs)).Perm
      (Clause.atomsIn cs ++ pieces.flatMap (Piece.atoms (c.literalForm r).names)) := by
  rw [landAll]
  cases c.literalForm r with
  | terms names => exact Piece.atomsIn_foldl_land_perm _ names pieces cs
  | freeText fields =>
    cases r.operator with
    | some op => exact Piece.atomsIn_foldl_land_perm _ [] pieces cs
    | none =>
      simp only [Clause.atomsIn_append]
      exact List.Perm.append_left _ (Piece.atomsIn_disjunction_perm c.config.termKey pieces)

/-- A literal becomes a piece with its atoms. -/
theorem atoms_of_literalPiece {form : LiteralForm} {literal : String} {piece : Piece}
    (h : c.literalPiece form literal = .ok piece) : piece.atoms form.names = form.atoms c.config.queryStyle literal := by
  cases form with
  | terms names =>
    rw [literalPiece, Except.ok.injEq] at h
    subst h
    rfl
  | freeText fields =>
    obtain ⟨-, rfl⟩ := literalPiece_freeText_eq_ok.1 h
    rfl

/-- The exclusive rewrite of a finished draft loses no atom and adds none. -/
theorem mem_atoms_finish (strategy : XorStrategy) (d : Draft) (a : Atom) :
    a ∈ (d.finish strategy).query.atoms ↔ a ∈ d.query.atoms := by
  rw [Draft.finish]
  cases d.exclusive with
  | true => exact BoolQuery.mem_atoms_exclusive d.query strategy a
  | false => exact Iff.rfl

/-- Every step of a composition adds the atoms of what it folds in. -/
theorem mem_atoms_invariant (c : Composer) :
    c.Invariant (fun d rs d' => ∀ a, a ∈ d'.query.atoms ↔ a ∈ d.query.atoms ∨ a ∈ c.ruleAtomsIn rs)
      fun form _ vs pieces _ => ∀ a, a ∈ pieces.flatMap (Piece.atoms form.names) ↔ a ∈ c.valueAtomsIn form vs where
  nil d a := by simp [ruleAtomsIn]
  skip d d' r rs hv ih a := by
    rw [ih a, ruleAtomsIn, ruleAtoms_eq, hv, valueAtomsIn, List.nil_append]
  fold d d' r rs pieces fields _ hpieces ih a := by
    have hadd := BoolQuery.atoms_modify_perm d.query r.scope (c.atomsIn_landAll_perm r pieces (d.query.clauses r.scope))
    rw [ih a, ruleAtomsIn, ruleAtoms_eq, List.mem_append, addRule, hadd.mem_iff, List.mem_append, hpieces a, or_assoc]
  none form fields a := Iff.rfl
  literal form text vs piece pieces fields fields' hp ih a := by
    rw [List.flatMap_cons, List.mem_append, atoms_of_literalPiece hp, ih a, valueAtomsIn, valueAtoms, List.mem_append]
  group form rs vs d pieces fields fields' hd ih a := by
    rw [List.flatMap_cons, List.mem_append, Piece.atoms, mem_atoms_finish, hd a, ih a, valueAtomsIn, valueAtoms,
      List.mem_append]
    simp [BoolQuery.atoms, Clause.atomsIn]

/-- A composed query has the atoms of its rules and no others. -/
theorem mem_atoms_compose {rs : List Rule} {done : Composition} (h : c.compose rs = .ok done) (a : Atom) :
    a ∈ done.query.atoms ↔ a ∈ c.ruleAtomsIn rs := by
  obtain ⟨d, hd, rfl⟩ := (mem_atoms_invariant c).compose h
  rw [mem_atoms_finish, hd a]
  simp [BoolQuery.atoms, Clause.atomsIn]

end Composer

/-- The clause of a composed query repeats its atoms once for each nested path of the mapping, besides the query itself. -/
theorem Config.atoms_queryClause (c : Config) (q : BoolQuery) :
    (c.queryClause q).atoms = (List.replicate (PathNode.forestCount c.mapping + 1) q.atoms).flatten := by
  rw [queryClause]
  cases hm : c.mapping with
  | nil =>
    rw [List.isEmpty_nil, if_pos rfl, Clause.atoms, PathNode.forestCount]
    simp
  | cons n ns => rw [List.isEmpty_cons, if_neg Bool.false_ne_true, Clause.atoms, BoolQuery.atoms_expand]

/-- A query document has the atoms of the rules of its request and no others. -/
theorem mem_atoms_compile {c : Config} {r : SearchRequest} {doc : QueryDocument} (h : compile c r = .ok doc) (a : Atom) :
    a ∈ doc.query.atoms ↔ a ∈ (c.composer (r.params.usedFields.getD [])).ruleAtomsIn r.rules := by
  obtain ⟨done, hdone, hdoc⟩ := bind_eq_ok.1 h
  rw [Except.ok.injEq] at hdoc
  rw [← hdoc, ← Composer.mem_atoms_compose hdone a, Config.atoms_queryClause, List.mem_flatten]
  constructor
  · rintro ⟨as, has, ha⟩
    rwa [List.eq_of_mem_replicate has] at ha
  · intro ha
    exact ⟨done.query.atoms, List.mem_replicate.2 ⟨Nat.succ_ne_zero _, rfl⟩, ha⟩

end SearchRules
