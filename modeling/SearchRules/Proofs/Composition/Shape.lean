import SearchRules.Proofs.Clause.Exclusive
import SearchRules.Proofs.Clause.Packing
import SearchRules.Proofs.Clause.Parts
import SearchRules.Proofs.Composition.Pieces
import SearchRules.Proofs.Composition.Run

/-!
# The shape of composed queries

Every clause in a composed query is well formed, at whatever depth it stands: `compose_wellFormed`.

What is asked of a clause is split in two. `Composer.Fit` asks of a clause what can be read off it and the clauses directly in it.
`BoolQuery.Settled` asks of a boolean query that it may stand anywhere: it has no number of its own, or one that means the same
everywhere. The query that denies that all alternatives match has a number and is not settled; it is made when the rules of a list
are all folded in, beside the alternatives that it counts.
-/

namespace SearchRules

/-- A query may stand in any scope: it asks for no number of `should`, unless every exclusive query does. -/
def BoolQuery.Settled (strategy : XorStrategy) (q : BoolQuery) : Prop :=
  q.minimumShouldMatch = none ∨ strategy = .minimumShouldMatch ∧ q.minimumShouldMatch = some (-1)

/-- Where alternatives are emulated, a settled query has no number. -/
theorem BoolQuery.Settled.unset {strategy : XorStrategy} {q : BoolQuery} (h : q.Settled strategy) (hs : strategy = .emulate) :
    q.minimumShouldMatch = none := by
  rcases h with hunset | ⟨hother, -⟩
  · exact hunset
  · exact absurd (hs.symm.trans hother) nofun

/-- The number of a settled query, if it has one, asks for all but one. -/
theorem BoolQuery.Settled.eq_of_number {strategy : XorStrategy} {q : BoolQuery} {m : Int} (h : q.Settled strategy)
    (hm : q.minimumShouldMatch = some m) : m = -1 := by
  rcases h with hunset | ⟨-, hnumber⟩
  · exact absurd (hunset.symm.trans hm) nofun
  · exact Option.some.inj (hm.symm.trans hnumber)

/-- The queries directly in a query may stand where they do: they are settled, or deny that all of its `should` match. -/
def BoolQuery.Tallied (strategy : XorStrategy) (q : BoolQuery) : Prop :=
  ∀ s inner, .bool inner ∈ q.clauses s →
    inner.Settled strategy ∨ strategy = .emulate ∧ s = .mustNot ∧ inner = .allOf q.should

/-- A clause that is a boolean query is settled. -/
def Clause.Settled (strategy : XorStrategy) (x : Clause) : Prop :=
  ∀ q, x = .bool q → q.Settled strategy

/-- Rules without a field search some field, whatever is given. -/
theorem Config.freeTextFields_composer_ne_nil (c : Config) (override : List String) :
    (c.composer override).freeTextFields ≠ [] := by
  rw [composer]
  cases override with
  | cons name names => exact List.cons_ne_nil name names
  | nil =>
    show c.freeTextFields ≠ []
    rw [freeTextFields]
    cases h : c.defaultFields with
    | nil => exact List.cons_ne_nil _ _
    | cons name names => exact List.cons_ne_nil name names

namespace Composer

/-- What a composer makes sure of in each clause. -/
def Fit (c : Composer) : Clause → Prop
  | .bool q => q.isEmpty = false ∧ q.Tallied c.config.xorStrategy
  | .term t => t.entries ≠ [] ∧ (t.entries.map Prod.fst).Nodup ∧ t.key = c.config.termKey
  | .freeText t => t.fields ≠ [] ∧ (c.config.clauseStyle = .term → t.fields = c.freeTextFields)
  | .nested _ _ _ => False

/-- A clause that may be folded into a scope: it and every clause in it is fit, and it may stand in any scope. -/
structure Sound (c : Composer) (x : Clause) : Prop where
  fit : x.Everywhere c.Fit
  settled : x.Settled c.config.xorStrategy

/-- The clause of a piece, if it has one, may be folded into a scope. -/
def SoundPiece (c : Composer) : Piece → Prop
  | .term _ => True
  | .freeText x => c.Sound x
  | .group q => q.isEmpty = false → c.Sound (.bool q)

/-- The free texts of literals are fit. -/
def SoundForm (c : Composer) : LiteralForm → Prop
  | .terms _ => True
  | .freeText fields => fields ≠ [] ∧ (c.config.clauseStyle = .term → fields = c.freeTextFields)

/-- A query whose scopes hold sound clauses, and that asks for no number of `should`. -/
structure SoundQuery (c : Composer) (q : BoolQuery) : Prop where
  unset : q.minimumShouldMatch = none
  clauses (s : Scope) : ∀ x ∈ q.clauses s, c.Sound x

variable {c : Composer}

/-! ## One clause -/

theorem sound_term {t : TermObject} (h : c.Fit (.term t)) : c.Sound (.term t) :=
  ⟨(Clause.everywhere_term t).2 h, fun _ hq => nomatch hq⟩

theorem sound_freeText {t : FreeText} (h : c.Fit (.freeText t)) : c.Sound (.freeText t) :=
  ⟨(Clause.everywhere_freeText t).2 h, fun _ hq => nomatch hq⟩

/-- Sound clauses may stand in any query. -/
theorem tallied_of_sound {q : BoolQuery} (h : ∀ s, ∀ x ∈ q.clauses s, c.Sound x) : q.Tallied c.config.xorStrategy := by
  intro s inner hinner
  exact Or.inl ((h s _ hinner).settled inner rfl)

/-- A query of sound clauses that is not empty is fit, and so is every clause in it. -/
theorem fit_bool {q : BoolQuery} (hne : q.isEmpty = false) (h : ∀ s, ∀ x ∈ q.clauses s, c.Sound x) :
    (Clause.bool q).Everywhere c.Fit := by
  rw [Clause.everywhere_bool]
  exact ⟨⟨hne, tallied_of_sound h⟩, fun s x hx => (h s x hx).fit⟩

/-- A query with nothing but sound clauses in `should` holds sound clauses. -/
theorem sound_of_should {cs : List Clause} (m : Option Int) (h : ∀ x ∈ cs, c.Sound x) (s : Scope) :
    ∀ x ∈ ({ should := cs, minimumShouldMatch := m } : BoolQuery).clauses s, c.Sound x := by
  intro x hx
  cases s with
  | must => exact absurd hx List.not_mem_nil
  | should => exact h x hx
  | mustNot => exact absurd hx List.not_mem_nil

theorem isEmpty_of_should {cs : List Clause} (hne : cs ≠ []) (mustNot : List Clause) (m : Option Int) :
    ({ should := cs, mustNot, minimumShouldMatch := m } : BoolQuery).isEmpty = false := by
  simp [BoolQuery.isEmpty, hne]

/-- Any one of some sound clauses is sound. -/
theorem sound_anyOf {cs : List Clause} (h : ∀ x ∈ cs, c.Sound x) : ∀ x ∈ (Clause.anyOf cs).toList, c.Sound x := by
  match cs with
  | [] => exact fun x hx => absurd hx List.not_mem_nil
  | [y] => exact h
  | y₁ :: y₂ :: cs =>
    have hne := isEmpty_of_should (List.cons_ne_nil y₁ (y₂ :: cs)) [] none
    refine List.forall_mem_singleton.2 ⟨fit_bool hne (sound_of_should none h), fun q hq => ?_⟩
    cases hq
    exact Or.inl rfl

/-! ## Scopes -/

/-- Placing pairs keeps the clauses of a scope sound: a new object has one pair, and an object takes only fields it lacks. -/
theorem sound_placeAll {fields values : List String} {cs : List Clause} (h : ∀ x ∈ cs, c.Sound x) :
    ∀ x ∈ Clause.placeAll c.config.termKey fields values cs, c.Sound x := by
  have hplace : ∀ (field value : String) (cs : List Clause), (∀ x ∈ cs, c.Sound x) →
      ∀ x ∈ Clause.place c.config.termKey field value cs, c.Sound x := by
    intro field value cs hcs
    refine Clause.forall_mem_place (sound_term ?_) (fun t ht hlacks => sound_term ?_) hcs
    · exact ⟨List.cons_ne_nil _ _, List.nodup_singleton field, rfl⟩
    · obtain ⟨-, hnodup, hkey⟩ := (Clause.everywhere_term t).1 ht.fit
      have hfields := Clause.nodup_fields_append_of_not_has hlacks value hnodup
      exact ⟨List.append_ne_nil_of_right_ne_nil _ (List.cons_ne_nil _ _), hfields, hkey⟩
  rw [Clause.placeAll_eq_foldl]
  exact List.foldlRecOn (motive := fun cs => ∀ x ∈ cs, c.Sound x) _ _ h fun cs hcs e _ => hplace e.1 e.2 cs hcs

/-- The clause of a sound group that has one. -/
theorem sound_groupClause? {p : Piece} (h : c.SoundPiece p) {x : Clause} (hx : p.groupClause? = some x) : c.Sound x := by
  obtain ⟨q, rfl, hne, rfl⟩ := Piece.groupClause?_eq_some_iff.1 hx
  exact h hne

theorem sound_land {names : List String} {cs : List Clause} {p : Piece} (hp : c.SoundPiece p) (h : ∀ x ∈ cs, c.Sound x) :
    ∀ x ∈ Piece.land c.config.termKey names cs p, c.Sound x := by
  cases p with
  | term literal => exact sound_placeAll h
  | freeText y => exact List.forall_mem_append.2 ⟨h, List.forall_mem_singleton.2 hp⟩
  | group q =>
    refine List.forall_mem_append.2 ⟨h, fun x hx => ?_⟩
    exact sound_groupClause? hp (Option.mem_toList.1 hx)

theorem sound_disjunction {pieces : List Piece} (h : ∀ p ∈ pieces, c.SoundPiece p) :
    ∀ x ∈ Piece.disjunction pieces, c.Sound x := by
  have hgroups : ∀ ps : List Piece, ps ⊆ pieces → ∀ x ∈ ps.filterMap Piece.groupClause?, c.Sound x := by
    intro ps hps x hx
    obtain ⟨p, hp, hpx⟩ := List.mem_filterMap.1 hx
    exact sound_groupClause? (h p (hps hp)) hpx
  have htexts : ∀ x ∈ (pieces.dropWhile Piece.isGroup).filterMap Piece.textClause?, c.Sound x := by
    intro x hx
    obtain ⟨p, hp, hpx⟩ := List.mem_filterMap.1 hx
    have hsound := h p ((List.dropWhile_sublist _).subset hp)
    rw [Piece.textClause?_eq_some_iff.1 hpx] at hsound
    exact hsound
  refine List.forall_mem_append.2 ⟨List.forall_mem_append.2 ⟨?_, sound_anyOf htexts⟩, ?_⟩
  · exact hgroups _ (List.takeWhile_sublist _).subset
  · exact hgroups _ (List.dropWhile_sublist _).subset

/-- Folding in the pieces of a rule keeps the clauses of its scope sound. -/
theorem sound_landAll (r : Rule) {pieces : List Piece} {cs : List Clause} (hpieces : ∀ p ∈ pieces, c.SoundPiece p)
    (h : ∀ x ∈ cs, c.Sound x) : ∀ x ∈ c.landAll r pieces cs, c.Sound x := by
  have hfold : ∀ names, ∀ x ∈ pieces.foldl (Piece.land c.config.termKey names) cs, c.Sound x := fun names =>
    List.foldlRecOn (motive := fun cs => ∀ x ∈ cs, c.Sound x) pieces _ h fun cs hcs p hp => sound_land (hpieces p hp) hcs
  rw [landAll]
  cases c.literalForm r with
  | terms names => exact hfold names
  | freeText fields =>
    cases r.operator with
    | some op => exact hfold []
    | none => exact List.forall_mem_append.2 ⟨h, sound_disjunction hpieces⟩

/-! ## Finished queries -/

/-- What is known of a query once its alternatives are made exclusive: it may stand anywhere unless it is empty, but not all that
is directly in it may. -/
structure Finished (c : Composer) (q : BoolQuery) : Prop where
  settled : q.Settled c.config.xorStrategy
  tallied : q.Tallied c.config.xorStrategy
  fit (s : Scope) : ∀ x ∈ q.clauses s, x.Everywhere c.Fit

theorem SoundQuery.finished {q : BoolQuery} (h : c.SoundQuery q) : c.Finished q where
  settled := Or.inl h.unset
  tallied := tallied_of_sound h.clauses
  fit s x hx := (h.clauses s x hx).fit

theorem Finished.sound {q : BoolQuery} (h : c.Finished q) (hne : q.isEmpty = false) : c.Sound (.bool q) where
  fit := (Clause.everywhere_bool q).2 ⟨⟨hne, h.tallied⟩, h.fit⟩
  settled q' hq' := by
    cases hq'
    exact h.settled

/-- Denying beside some alternatives that all of them match finishes a sound query. -/
theorem finished_deny {q : BoolQuery} (hstrategy : c.config.xorStrategy = .emulate) (h : c.SoundQuery q) (hne : q.should ≠ []) :
    c.Finished (q.push .mustNot (.bool (.allOf q.should))) := by
  have hall : (Clause.bool (.allOf q.should)).Everywhere c.Fit :=
    fit_bool (isEmpty_of_should hne [] _) (sound_of_should _ (h.clauses .should))
  refine ⟨Or.inl h.unset, fun s inner hinner => ?_, fun s x hx => ?_⟩
  · rcases (BoolQuery.mem_clauses_push q _ _ _ _).1 hinner with hinner | ⟨rfl, heq⟩
    · exact tallied_of_sound h.clauses s inner hinner
    · cases heq
      exact Or.inr ⟨hstrategy, rfl, rfl⟩
  · rcases (BoolQuery.mem_clauses_push q _ _ _ _).1 hx with hx | ⟨-, rfl⟩
    · exact (h.clauses s x hx).fit
    · exact hall

/-- The query that asks for some, but not all, of at least one sound alternative is sound. -/
theorem sound_deny {cs : List Clause} (hstrategy : c.config.xorStrategy = .emulate) (hne : cs ≠ []) (h : ∀ x ∈ cs, c.Sound x) :
    c.Sound (.bool { should := cs, mustNot := [.bool (.allOf cs)] }) := by
  have hq : c.SoundQuery { should := cs } := ⟨rfl, sound_of_should none h⟩
  exact (finished_deny hstrategy hq hne).sound (isEmpty_of_should hne _ none)

theorem soundQuery_empty : c.SoundQuery {} :=
  ⟨rfl, sound_of_should none fun _ hx => absurd hx List.not_mem_nil⟩

/-- A query stays sound when a scope changes to sound clauses. -/
theorem SoundQuery.modify {q : BoolQuery} (h : c.SoundQuery q) (s : Scope) {f : List Clause → List Clause}
    (hf : ∀ x ∈ f (q.clauses s), c.Sound x) : c.SoundQuery (q.modify s f) := by
  refine ⟨?_, fun s' => ?_⟩
  · rw [BoolQuery.minimumShouldMatch_modify]
    exact h.unset
  · rw [BoolQuery.clauses_modify]
    by_cases hs : s = s'
    · rw [if_pos hs]
      exact hs ▸ hf
    · rw [if_neg hs]
      exact h.clauses s'

/-- Making the alternatives of a sound query exclusive finishes it, in whichever of its shapes. -/
theorem finished_exclusive {q : BoolQuery} (h : c.SoundQuery q) : c.Finished (q.exclusive c.config.xorStrategy) := by
  cases hstrategy : c.config.xorStrategy with
  | minimumShouldMatch =>
    have hclauses : ∀ s, (q.exclusive .minimumShouldMatch).clauses s = q.clauses s := fun s => by cases s <;> rfl
    refine ⟨Or.inr ⟨hstrategy, rfl⟩, tallied_of_sound fun s x hx => ?_, fun s x hx => ?_⟩
    · exact h.clauses s x (hclauses s ▸ hx)
    · exact (h.clauses s x (hclauses s ▸ hx)).fit
  | emulate =>
    rw [BoolQuery.exclusive_emulate]
    by_cases hshould : q.should = []
    · rw [if_pos hshould]
      exact h.finished
    · rw [if_neg hshould]
      by_cases hmust : q.must = []
      · rw [if_pos hmust]
        exact finished_deny hstrategy h hshould
      · rw [if_neg hmust]
        -- the alternatives leave `should` and come back, denied, as one clause of `must`
        have hdeny := sound_deny hstrategy hshould (h.clauses .should)
        have hadded := h.modify .must (f := (· ++ [.bool { should := q.should, mustNot := [.bool (.allOf q.should)] }]))
          (List.forall_mem_append.2 ⟨h.clauses .must, List.forall_mem_singleton.2 hdeny⟩)
        exact (hadded.modify .should (f := fun _ => []) fun x hx => absurd hx List.not_mem_nil).finished

theorem finished_finish {d : Draft} (h : c.SoundQuery d.query) : c.Finished (d.finish c.config.xorStrategy).query := by
  rw [Draft.finish]
  cases d.exclusive with
  | true => exact finished_exclusive h
  | false => exact h.finished

/-! ## Every rule -/

/-- The literals of any rule are searched for in fields that are fit. -/
theorem soundForm_literalForm (hfields : c.freeTextFields ≠ []) (r : Rule) : c.SoundForm (c.literalForm r) := by
  rw [literalForm]
  cases r.names c.config.keywordSuffix with
  | nil => exact ⟨hfields, fun _ => rfl⟩
  | cons name names =>
    cases hstyle : c.config.clauseStyle with
    | term => trivial
    | queryString =>
      refine ⟨?_, fun h => absurd (hstyle.symm.trans h) nofun⟩
      rw [QueryStyle.patterns]
      cases (r.field.map FieldRef.names).getD [] with
      | nil => exact List.cons_ne_nil _ _
      | cons name names => exact List.cons_ne_nil _ _

theorem soundPiece_literalPiece {form : LiteralForm} (hform : c.SoundForm form) {literal : String} {p : Piece}
    (h : c.literalPiece form literal = .ok p) : c.SoundPiece p := by
  cases form with
  | terms names =>
    rw [literalPiece, Except.ok.injEq] at h
    exact h ▸ trivial
  | freeText fields =>
    obtain ⟨-, rfl⟩ := literalPiece_freeText_eq_ok.1 h
    exact sound_freeText hform

/-- Every step of a composition keeps queries sound. -/
theorem sound_invariant (hfields : c.freeTextFields ≠ []) :
    c.Invariant (fun d _ d' => c.SoundQuery d.query → c.SoundQuery d'.query)
      fun form _ _ pieces _ => c.SoundForm form → ∀ p ∈ pieces, c.SoundPiece p where
  nil d := id
  skip d d' r rs _ ih := ih
  fold d d' r rs pieces fields _ hpieces ih h := by
    have hlanded := sound_landAll r (hpieces (soundForm_literalForm hfields r)) (h.clauses r.scope)
    exact ih (h.modify r.scope hlanded)
  none form fields _ p hp := absurd hp List.not_mem_nil
  literal form text vs p pieces fields fields' hp ih hform :=
    List.forall_mem_cons.2 ⟨soundPiece_literalPiece hform hp, ih hform⟩
  group form rs vs d pieces fields fields' hd ih hform :=
    List.forall_mem_cons.2 ⟨(finished_finish (hd soundQuery_empty)).sound, ih hform⟩

/-- A composed query is finished. -/
theorem finished_compose (hfields : c.freeTextFields ≠ []) {rs : List Rule} {done : Composition}
    (h : c.compose rs = .ok done) : c.Finished done.query := by
  obtain ⟨d, hd, rfl⟩ := (sound_invariant hfields).compose h
  exact finished_finish (hd soundQuery_empty)

/-! ## What is finished is well formed -/

variable {q : BoolQuery}

/-- Every clause in a finished query is fit. -/
theorem Finished.fit_of_mem_parts (h : c.Finished q) {x : Clause} (hx : x ∈ q.parts) : c.Fit x := by
  obtain ⟨s, y, hy, hxy⟩ := (BoolQuery.mem_parts x q).1 hx
  exact h.fit s y hy x hxy

/-- The queries directly in a finished query, or in one that is in it, may stand where they do. -/
theorem Finished.tallied_of_mem_parts (h : c.Finished q) {p : BoolQuery} (hp : .bool p ∈ (Clause.bool q).parts) :
    p.Tallied c.config.xorStrategy := by
  rcases List.mem_cons.1 hp with hp | hp
  · cases hp
    exact h.tallied
  · exact (h.fit_of_mem_parts hp).2

/-- A query in a finished one stands in a scope of that or of another query in it. -/
theorem Finished.exists_scope (h : c.Finished q) {inner : BoolQuery} (hinner : .bool inner ∈ q.parts) :
    ∃ p s, .bool p ∈ (Clause.bool q).parts ∧ .bool inner ∈ p.clauses s := by
  obtain ⟨x, hx, hchild⟩ := BoolQuery.exists_parent hinner
  cases x with
  | bool p =>
    obtain ⟨s, hs⟩ := (Clause.mem_children_bool _ p).1 hchild
    exact ⟨p, s, hx, hs⟩
  | term t => exact absurd hchild List.not_mem_nil
  | freeText t => exact absurd hchild List.not_mem_nil
  | nested path y hits =>
    rcases List.mem_cons.1 hx with hx | hx
    · cases hx
    · exact absurd (h.fit_of_mem_parts hx) id

/-- Where alternatives are emulated, a number stands only in the denial that all of some alternatives match. -/
theorem Finished.eq_allOf (h : c.Finished q) (hstrategy : c.config.xorStrategy = .emulate) {p inner : BoolQuery} {s : Scope}
    (hp : .bool p ∈ (Clause.bool q).parts) (hinner : .bool inner ∈ p.clauses s) (hset : inner.minimumShouldMatch ≠ none) :
    s = .mustNot ∧ inner = .allOf p.should := by
  rcases h.tallied_of_mem_parts hp s inner hinner with hsettled | ⟨-, hs, heq⟩
  · exact absurd (hsettled.unset hstrategy) hset
  · exact ⟨hs, heq⟩

/-- Where alternatives are not emulated, every query is settled. -/
theorem Finished.settled_of_mem_parts (h : c.Finished q) (hstrategy : c.config.xorStrategy = .minimumShouldMatch)
    {inner : BoolQuery} (hinner : .bool inner ∈ (Clause.bool q).parts) : inner.Settled c.config.xorStrategy := by
  rcases List.mem_cons.1 hinner with hself | hinner
  · cases hself
    exact h.settled
  · obtain ⟨p, s, hp, hs⟩ := h.exists_scope hinner
    rcases h.tallied_of_mem_parts hp s inner hs with hsettled | ⟨hother, -⟩
    · exact hsettled
    · exact absurd (hstrategy.symm.trans hother) nofun

end Composer

/-- What holds of every clause in the query that a configuration composes, where rules without a field search `fields`. -/
structure BoolQuery.WellFormed (config : Config) (fields : List String) (q : BoolQuery) : Prop where
  /-- A term object holds something, no field twice, and is written under the configured key. -/
  objects : ∀ t, .term t ∈ q.parts → t.entries ≠ [] ∧ (t.entries.map Prod.fst).Nodup ∧ t.key = config.termKey
  /-- A free text is searched in some field, in the given ones if named fields make term objects. -/
  texts : ∀ t, .freeText t ∈ q.parts → t.fields ≠ [] ∧ (config.clauseStyle = .term → t.fields = fields)
  /-- A boolean clause holds a clause. -/
  bools : ∀ inner, .bool inner ∈ q.parts → inner.isEmpty = false
  /-- No clause is nested. -/
  flat : ∀ path x hits, .nested path x hits ∉ q.parts
  /-- Where alternatives are emulated, a query with a number asks for all of its `should` and for nothing else. -/
  counts : config.xorStrategy = .emulate → q.minimumShouldMatch = none ∧ ∀ inner m, .bool inner ∈ q.parts →
    inner.minimumShouldMatch = some m → inner.must = [] ∧ inner.mustNot = [] ∧ m = inner.should.length
  /-- Where alternatives are emulated, a query with a number stands only in `mustNot`, beside the same `should`. -/
  denials : config.xorStrategy = .emulate → ∀ p, .bool p ∈ (Clause.bool q).parts → ∀ s inner, .bool inner ∈ p.clauses s →
    inner.minimumShouldMatch ≠ none → s = .mustNot ∧ inner.should = p.should
  /-- Where alternatives are not emulated, a number is `-1`. -/
  numbers : config.xorStrategy = .minimumShouldMatch → ∀ inner m, .bool inner ∈ (Clause.bool q).parts →
    inner.minimumShouldMatch = some m → m = -1

/-- Every clause in a composed query is well formed, at whatever depth it stands; rules without a field search the fields given for
the request, those of the configuration if none are given, and every field if that has none either. -/
theorem compose_wellFormed (config : Config) (override : List String) (rs : List Rule) (done : Composition)
    (h : (config.composer override).compose rs = .ok done) :
    done.query.WellFormed config
      (if override ≠ [] then override else if config.defaultFields ≠ [] then config.defaultFields else ["*"]) := by
  have hfields : (config.composer override).freeTextFields =
      if override ≠ [] then override else if config.defaultFields ≠ [] then config.defaultFields else ["*"] := by
    rw [Config.composer, Config.freeTextFields]
    cases override <;> cases config.defaultFields <;> rfl
  have hne : (config.composer override).freeTextFields ≠ [] := by
    rw [hfields]
    split
    · assumption
    · split
      · assumption
      · exact List.cons_ne_nil _ _
  have hdone := Composer.finished_compose hne h
  constructor
  case objects =>
    intro t ht
    exact hdone.fit_of_mem_parts ht
  case texts =>
    intro t ht
    rw [← hfields]
    exact hdone.fit_of_mem_parts ht
  case bools =>
    intro inner hinner
    exact (hdone.fit_of_mem_parts hinner).1
  case flat =>
    intro path x hits hx
    exact hdone.fit_of_mem_parts hx
  case counts =>
    intro hstrategy
    constructor
    · exact hdone.settled.unset hstrategy
    · intro inner m hinner hm
      obtain ⟨p, s, hp, hs⟩ := hdone.exists_scope hinner
      obtain ⟨-, rfl⟩ := hdone.eq_allOf hstrategy hp hs (by rw [hm]; exact Option.some_ne_none m)
      exact ⟨rfl, rfl, (Option.some.inj hm).symm⟩
  case denials =>
    intro hstrategy p hp s inner hinner hset
    obtain ⟨hs, rfl⟩ := hdone.eq_allOf hstrategy hp hinner hset
    exact ⟨hs, rfl⟩
  case numbers =>
    intro hstrategy inner m hinner hm
    exact (hdone.settled_of_mem_parts hstrategy hinner).eq_of_number hm

/-- Exclusive alternatives in a group among exclusive alternatives: the group stands in the denial of the whole once more, with its
own denial. -/
theorem compose_wellFormed_xor_in_xor :
    ∃ done, (({ termKey := .terms } : Config).composer ["title"]).compose [
        ⟨none, some .xor, [.literal "a", .group [⟨some (.one "kind"), some .and, [.literal "post"], false⟩,
          ⟨some (.one "city"), some .xor, [.literal "Paris", .literal "Rome"], false⟩]], false⟩] = .ok done ∧
      done.query.WellFormed { termKey := .terms } ["title"] ∧
      done.query.should = [.freeText ⟨"a", ["title"]⟩, .bool { must := [.term ⟨.terms, [("kind", "post")]⟩,
        .bool (.someNotAll [.term ⟨.terms, [("city", "Paris")]⟩, .term ⟨.terms, [("city", "Rome")]⟩])] }] ∧
      done.query.mustNot = [.bool (.allOf done.query.should)] := by
  have h : (({ termKey := .terms } : Config).composer ["title"]).compose [
      ⟨none, some .xor, [.literal "a", .group [⟨some (.one "kind"), some .and, [.literal "post"], false⟩,
        ⟨some (.one "city"), some .xor, [.literal "Paris", .literal "Rome"], false⟩]], false⟩] = .ok _ := rfl
  exact ⟨_, h, compose_wellFormed _ ["title"] _ _ h, rfl, rfl⟩

end SearchRules
