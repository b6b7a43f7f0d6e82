import SearchRules.Proofs.Composition.Atoms

/-!
# No atom is lost or repeated

Emulating an exclusive or writes its alternatives twice. Where that does not happen, because no rule at any depth is one or because
the other strategy is in use, a composed query has each atom as often as its rules have it, and a query document has it once more
for each nested path: `atoms_once`.
-/

namespace SearchRules

mutual

/-- Whether there is an exclusive or among the rules of a value. -/
def Value.anyXor : Value → Bool
  | .literal _ => false
  | .group rs => Rule.anyXorIn rs

/-- Whether there is an exclusive or among the rules of some values. -/
def Value.anyXorIn : List Value → Bool
  | [] => false
  | v :: vs => v.anyXor || Value.anyXorIn vs

/-- Whether a rule is an exclusive or, or has one in it. -/
def Rule.anyXor : Rule → Bool
  | ⟨_, operator, values, _⟩ => operator == some .xor || Value.anyXorIn values

/-- Whether there is an exclusive or among rules, at any depth. -/
def Rule.anyXorIn : List Rule → Bool
  | [] => false
  | r :: rs => r.anyXor || Rule.anyXorIn rs

end

theorem Rule.anyXor_eq (r : Rule) : r.anyXor = (r.operator == some .xor || Value.anyXorIn r.values) := by
  obtain ⟨field, operator, values, isKeyword⟩ := r
  rw [Rule.anyXor]

namespace Composer

/-- Whether a composer writes every atom once, given whether there is an exclusive or. -/
def WritesOnce (c : Composer) (anyXor : Bool) : Prop :=
  c.config.xorStrategy = .minimumShouldMatch ∨ anyXor = false

variable {c : Composer}

theorem writesOnce_or (a b : Bool) : c.WritesOnce (a || b) ↔ c.WritesOnce a ∧ c.WritesOnce b := by
  rw [WritesOnce, WritesOnce, WritesOnce, Bool.or_eq_false_iff, or_and_left]

/-- A draft that is finished without emulating alternatives keeps its atoms. -/
theorem atoms_finish {d : Draft} (h : c.WritesOnce d.exclusive) :
    (d.finish c.config.xorStrategy).query.atoms = d.query.atoms := by
  rw [Draft.finish]
  rcases h with hstrategy | hexclusive
  · rw [hstrategy]
    cases d.exclusive with
    | true => rw [if_pos rfl, BoolQuery.atoms_eq, BoolQuery.atoms_eq, BoolQuery.exclusive]
    | false => rfl
  · rw [hexclusive]
    rfl

/-- Every step of a composition adds the atoms of what it folds in, each as often as it comes. -/
theorem atoms_once_invariant (c : Composer) :
    c.Invariant (fun d rs d' => c.WritesOnce (Rule.anyXorIn rs) →
        d'.query.atoms.Perm (d.query.atoms ++ c.ruleAtomsIn rs) ∧ (c.WritesOnce d.exclusive → c.WritesOnce d'.exclusive))
      fun form _ vs pieces _ => c.WritesOnce (Value.anyXorIn vs) →
        (pieces.flatMap (Piece.atoms form.names)).Perm (c.valueAtomsIn form vs) where
  nil d _ := by
    rw [ruleAtomsIn, List.append_nil]
    exact ⟨List.Perm.refl _, id⟩
  skip d d' r rs hv ih hxor := by
    rw [Rule.anyXorIn, writesOnce_or] at hxor
    rw [ruleAtomsIn, ruleAtoms_eq, hv, valueAtomsIn, List.nil_append]
    exact ih hxor.2
  fold d d' r rs pieces fields _ hpieces ih hxor := by
    rw [Rule.anyXorIn, writesOnce_or, Rule.anyXor_eq, writesOnce_or] at hxor
    obtain ⟨⟨hop, hvalues⟩, hrules⟩ := hxor
    obtain ⟨hrest, hkeep⟩ := ih hrules
    have hadd := BoolQuery.atoms_modify_perm d.query r.scope (c.atomsIn_landAll_perm r pieces (d.query.clauses r.scope))
    refine ⟨?_, fun hd => hkeep ((writesOnce_or _ _).2 ⟨hd, hop⟩)⟩
    refine hrest.trans ?_
    rw [ruleAtomsIn, ruleAtoms_eq, ← List.append_assoc]
    refine List.Perm.append_right _ (hadd.trans ?_)
    exact List.Perm.append_left _ (hpieces hvalues)
  none form fields _ := List.Perm.refl _
  literal form text vs piece pieces fields fields' hp ih hxor := by
    rw [Value.anyXorIn, writesOnce_or] at hxor
    rw [List.flatMap_cons, atoms_of_literalPiece hp, valueAtomsIn, valueAtoms]
    exact List.Perm.append_left _ (ih hxor.2)
  group form rs vs d pieces fields fields' hd ih hxor := by
    rw [Value.anyXorIn, Value.anyXor, writesOnce_or] at hxor
    obtain ⟨hgroup, hkeep⟩ := hd hxor.1
    rw [List.flatMap_cons, Piece.atoms, atoms_finish (hkeep (Or.inr rfl)), valueAtomsIn, valueAtoms]
    exact hgroup.append (ih hxor.2)

/-- A composed query has each atom as often as its rules have it. -/
theorem atoms_compose_perm {rs : List Rule} {done : Composition} (hxor : c.WritesOnce (Rule.anyXorIn rs))
    (h : c.compose rs = .ok done) : done.query.atoms.Perm (c.ruleAtomsIn rs) := by
  obtain ⟨d, hd, rfl⟩ := (atoms_once_invariant c).compose h
  obtain ⟨hperm, hkeep⟩ := hd hxor
  rw [atoms_finish (hkeep (Or.inr rfl))]
  exact hperm

end Composer

theorem count_flatten_replicate {α : Type} [BEq α] (n : Nat) (as : List α) (a : α) :
    (List.replicate n as).flatten.count a = n * as.count a := by
  rw [List.count_flatten, List.map_replicate, List.sum_replicate_nat]

/-- Unless alternatives are written twice to make them exclusive, composition loses no atom and repeats none: a composed query has
each as often as its rules have it at any depth, and a query document has it that often for the top level and for each nested
path of the mapping. -/
theorem atoms_once (c : Config) :
    (∀ (override : List String) (rs : List Rule) (done : Composition),
      (c.xorStrategy = .minimumShouldMatch ∨ Rule.anyXorIn rs = false) → (c.composer override).compose rs = .ok done →
        done.query.atoms.Perm ((c.composer override).ruleAtomsIn rs)) ∧
    ∀ (r : SearchRequest) (doc : QueryDocument),
      (c.xorStrategy = .minimumShouldMatch ∨ Rule.anyXorIn r.rules = false) → compile c r = .ok doc →
        ∀ a, doc.query.atoms.count a = (PathNode.forestCount c.mapping + 1) *
          ((c.composer (r.params.usedFields.getD [])).ruleAtomsIn r.rules).count a := by
  refine ⟨fun override rs done hxor h => Composer.atoms_compose_perm hxor h, fun r doc hxor h a => ?_⟩
  obtain ⟨done, hdone, hdoc⟩ := bind_eq_ok.1 h
  rw [Except.ok.injEq] at hdoc
  have hperm := Composer.atoms_compose_perm (c := c.composer (r.params.usedFields.getD [])) hxor hdone
  rw [← hdoc, Config.atoms_queryClause, count_flatten_replicate, hperm.count_eq]

/-- A pair that comes twice, once among exclusive alternatives and once in a group, is found eight times under three nested
paths, and either of two texts four times. -/
theorem atoms_once_three_paths :
    ∃ doc, compile {
        xorStrategy := .minimumShouldMatch
        mapping := [.branch "sites" [.leaf "sites.contacts"], .branch "notes" []] } {
        query := { rules := some [
          ⟨some (.many ["city", "zip"]), some .xor, [.literal "Paris",
            .group [⟨some (.one "city"), some .not, [.literal "Paris"], false⟩,
              ⟨none, none, [.group [], .literal "x", .literal "y"], false⟩]], false⟩] } } = .ok doc ∧
      doc.query.atoms.count (.pair "city" "Paris") = 8 ∧ doc.query.atoms.count (.text ⟨"y", ["*"]⟩) = 4 := by
  obtain ⟨doc, hdoc⟩ := exists_eq_ok_of_isOk (x := compile {
    xorStrategy := .minimumShouldMatch
    mapping := [.branch "sites" [.leaf "sites.contacts"], .branch "notes" []] } {
    query := { rules := some [
      ⟨some (.many ["city", "zip"]), some .xor, [.literal "Paris",
        .group [⟨some (.one "city"), some .not, [.literal "Paris"], false⟩,
          ⟨none, none, [.group [], .literal "x", .literal "y"], false⟩]], false⟩] } }) (by decide)
  have hcount := (atoms_once _).2 _ doc (Or.inl rfl) hdoc
  refine ⟨doc, hdoc, ?_, ?_⟩
  · rw [hcount]
    decide
  · rw [hcount]
    decide

end SearchRules
