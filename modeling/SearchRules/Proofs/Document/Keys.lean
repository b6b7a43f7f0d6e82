import SearchRules.Compile
import SearchRules.Proofs.Composition.FieldNames
import SearchRules.Proofs.Composition.Shape
import SearchRules.Proofs.Data.Keys

/-!
# Keys of query documents

The keys of a query document are names of this format, but for three places that take theirs from rules and settings: a term object,
the fields of a highlight specification, and a sort by distance, where the field stands among the names of the options. In the first
two no key is repeated. A sort repeats one when its field has the name of an option, and nothing keeps a configuration from naming
such a field: `compile_keysOnce_iff`.
-/

namespace SearchRules

/-! ## Highlight specifications -/

theorem HighlightSpec.keysOnce_toData {spec : HighlightSpec} (h : (spec.fields.map Prod.fst).Nodup) : spec.toData.KeysOnce := by
  have hfield : ∀ field : FieldHighlight, field.toData.KeysOnce := by
    intro field
    rw [FieldHighlight.toData, Data.KeysOnce]
    constructor
    · cases field.kind <;> simp [Data.optional]
    · simp [Data.keysOnceMembers_append, Data.keysOnceMembers_optional, Data.KeysOnceMembers, Data.KeysOnce]
  have hfields : (Data.record (spec.fields.map fun f => (f.1, f.2.toData))).KeysOnce := by
    rw [Data.keysOnce_record, List.map_map]
    refine ⟨h, fun m hm => ?_⟩
    obtain ⟨f, -, rfl⟩ := List.mem_map.1 hm
    exact hfield f.2
  rw [toData, Data.KeysOnce]
  constructor
  · cases spec.requireFieldMatch <;> simp [Data.optional]
  · simp only [Data.keysOnceMembers_append, Data.keysOnceMembers_optional, Data.KeysOnceMembers]
    simpa [Data.KeysOnce] using hfields

namespace HighlightConfig

theorem nodup_fields_template (c : HighlightConfig) : (c.template.fields.map Prod.fst).Nodup :=
  List.nodup_singleton "*"

/-- A specification has each field once if the rules' fields are given once each. -/
theorem nodup_fields_build (c : HighlightConfig) {names : List String} (h : names.Nodup) :
    ((c.build names).fields.map Prod.fst).Nodup := by
  unfold build
  split
  · exact c.nodup_fields_template
  · exact c.nodup_fields_template
  · simpa [spec, Function.comp_def] using h

end HighlightConfig

/-! ## Clauses -/

namespace Clause

/-- A clause does not give the engine one field twice. -/
def Distinct : Clause → Prop
  | .term t => (t.entries.map Prod.fst).Nodup
  | .nested _ _ hits => ∀ spec, hits = some spec → (spec.fields.map Prod.fst).Nodup
  | _ => True

theorem everywhere_nested {P : Clause → Prop} (path : String) (c : Clause) (hits : Option HighlightSpec) :
    (Clause.nested path c hits).Everywhere P ↔ P (.nested path c hits) ∧ c.Everywhere P := by
  rw [Everywhere, parts, List.forall_mem_cons]
  rfl

mutual

/-- A clause that gives no field twice, at whatever depth, is written without repeating a key. -/
theorem keysOnce_toData : ∀ c : Clause, c.Everywhere Distinct → c.toData.KeysOnce
  | .term t, h => by
    have hfields : (t.entries.map Prod.fst).Nodup := (everywhere_term t).1 h
    have hentries : t.entryData.KeysOnce := by
      rw [TermObject.entryData, Data.keysOnce_record, List.map_map]
      refine ⟨hfields, fun m hm => ?_⟩
      obtain ⟨e, -, rfl⟩ := List.mem_map.1 hm
      trivial
    simpa [toData, Data.KeysOnce, Data.KeysOnceMembers] using hentries
  | .freeText t, _ => by simp [toData, FreeText.toData, Data.KeysOnce, Data.KeysOnceMembers]
  | .nested path c hits, h => by
    obtain ⟨hhits, hc⟩ := (everywhere_nested path c hits).1 h
    have hquery := keysOnce_toData c hc
    have hspec : ∀ spec, hits = some spec → (Data.record [("highlight", spec.toData)]).KeysOnce := by
      intro spec hs
      simpa [Data.KeysOnce, Data.KeysOnceMembers] using HighlightSpec.keysOnce_toData (hhits spec hs)
    have hkeys : (([("path", Data.string path), ("query", c.toData)] ++
        Data.optional "inner_hits" (fun spec => Data.record [("highlight", spec.toData)]) hits).map Prod.fst).Nodup := by
      cases hits <;> simp [Data.optional]
    rw [toData, Data.KeysOnce, Data.KeysOnceMembers, Data.KeysOnce, Data.keysOnceMembers_append, Data.keysOnceMembers_optional]
    exact ⟨List.nodup_singleton _, ⟨hkeys, ⟨trivial, hquery, trivial⟩, hspec⟩, trivial⟩
  | .bool ⟨must, should, mustNot, m⟩, h => by
    obtain ⟨-, hscope⟩ := (everywhere_bool _).1 h
    have hmust := keysOnce_listData must (hscope .must)
    have hshould := keysOnce_listData should (hscope .should)
    have hmustNot := keysOnce_listData mustNot (hscope .mustNot)
    have hnames : ["must", "should", "must_not", "minimum_should_match"].Nodup := by decide
    have hkeys := hnames.sublist (((((Data.keys_optionalList_sublist "must" (listData must)).append
      (Data.keys_optionalList_sublist "should" (listData should))).append
      (Data.keys_optionalList_sublist "must_not" (listData mustNot))).append
      (Data.keys_optional_sublist "minimum_should_match" Data.int m)))
    rw [toData, Data.KeysOnce, Data.KeysOnceMembers, BoolQuery.toData, Data.KeysOnce]
    simp only [List.map_append, Data.keysOnceMembers_append, Data.keysOnceMembers_optional, Data.keysOnceMembers_optionalList]
    exact ⟨List.nodup_singleton _, ⟨hkeys, ⟨⟨hmust, hshould⟩, hmustNot⟩, fun _ _ => trivial⟩, trivial⟩

theorem keysOnce_listData : ∀ cs : List Clause, (∀ c ∈ cs, c.Everywhere Distinct) → ∀ d ∈ listData cs, d.KeysOnce
  | [], _ => by simp [listData]
  | c :: cs, h => by
    rw [List.forall_mem_cons] at h
    rw [listData, List.forall_mem_cons]
    exact ⟨keysOnce_toData c h.1, keysOnce_listData cs h.2⟩

end

end Clause

/-! ## Expanded queries -/

/-- A disjunction gives no field twice if its clauses do not. -/
theorem BoolQuery.distinct_shouldOf {cs : List Clause} (h : ∀ c ∈ cs, c.Everywhere Clause.Distinct) :
    (Clause.bool (.shouldOf cs)).Everywhere Clause.Distinct := by
  rw [Clause.everywhere_bool]
  refine ⟨trivial, fun s c hc => ?_⟩
  cases s with
  | must => exact absurd hc List.not_mem_nil
  | should => exact h c hc
  | mustNot => exact absurd hc List.not_mem_nil

namespace PathNode

variable {hits : Option HighlightSpec} {root : Clause}

mutual

/-- Repeating a query at a node and below it gives no field twice. -/
theorem distinct_fanOut (hhits : ∀ spec, hits = some spec → (spec.fields.map Prod.fst).Nodup)
    (hroot : root.Everywhere Clause.Distinct) : ∀ n : PathNode, (n.fanOut hits root).Everywhere Clause.Distinct
  | .leaf path => (Clause.everywhere_nested _ _ _).2 ⟨hhits, hroot⟩
  | .branch path ns => by
    have hbelow := distinct_fanOutAll hhits hroot ns
    rw [fanOut, Clause.everywhere_nested]
    exact ⟨hhits, BoolQuery.distinct_shouldOf (List.forall_mem_cons.2 ⟨hroot, hbelow⟩)⟩

theorem distinct_fanOutAll (hhits : ∀ spec, hits = some spec → (spec.fields.map Prod.fst).Nodup)
    (hroot : root.Everywhere Clause.Distinct) :
    ∀ ns : List PathNode, ∀ c ∈ fanOutAll hits root ns, c.Everywhere Clause.Distinct
  | [] => by simp [fanOutAll]
  | n :: ns => by
    rw [fanOutAll, List.forall_mem_cons]
    exact ⟨distinct_fanOut hhits hroot n, distinct_fanOutAll hhits hroot ns⟩

end

end PathNode

theorem Config.distinct_queryClause (c : Config) {q : BoolQuery} (h : (Clause.bool q).Everywhere Clause.Distinct) :
    (c.queryClause q).Everywhere Clause.Distinct := by
  have hhits : ∀ spec, (if c.innerHits then some c.highlight.template else none) = some spec →
      (spec.fields.map Prod.fst).Nodup := by
    intro spec hspec
    split at hspec
    · cases hspec
      exact c.highlight.nodup_fields_template
    · cases hspec
  rw [queryClause]
  split
  · exact h
  · rw [BoolQuery.expand]
    split
    · exact BoolQuery.distinct_shouldOf (List.forall_mem_singleton.2 h)
    · exact BoolQuery.distinct_shouldOf (List.forall_mem_cons.2 ⟨h, PathNode.distinct_fanOutAll hhits h c.mapping⟩)

/-! ## Composed queries -/

namespace Composer

/-- A composed query gives no field twice. -/
theorem distinct_compose {c : Composer} (hfields : c.freeTextFields ≠ []) {rs : List Rule} {done : Composition}
    (h : c.compose rs = .ok done) : (Clause.bool done.query).Everywhere Clause.Distinct := by
  have hdone := finished_compose hfields h
  intro x hx
  rcases List.mem_cons.1 hx with rfl | hx
  · trivial
  · have hfit := hdone.fit_of_mem_parts hx
    cases x with
    | bool q => trivial
    | term t => exact hfit.2.1
    | freeText t => trivial
    | nested path y hits => exact absurd hfit id

end Composer

/-! ## Documents -/

namespace GeoSort

/-- The names that stand beside the field in a sort by distance. -/
def optionNames : List String :=
  ["order", "distance", "unit", "mode", "distance_type", "ignore_unmapped"]

/-- A sort repeats a key exactly when its field has the name of an option. -/
theorem keysOnce_toData_iff (s : GeoSort) : s.toData.KeysOnce ↔ s.field ∉ optionNames := by
  have hoptions : optionNames.Nodup := by decide
  have hnodup : (s.field :: optionNames).Nodup ↔ s.field ∉ optionNames := by
    rw [List.nodup_cons, and_iff_left hoptions]
  rw [← hnodup, toData]
  simp [Data.KeysOnce, Data.KeysOnceMembers, Data.KeysOnceItems, optionNames]

end GeoSort

/-- The keys of a document apart from those of its query, of its sorts and of its highlight specification are all different. -/
theorem QueryDocument.keysOnce_toData (d : QueryDocument) : d.toData.KeysOnce ↔
    d.query.toData.KeysOnce ∧ (∀ s ∈ d.sorts, s.toData.KeysOnce) ∧ d.highlight.toData.KeysOnce := by
  have hnames : ["query", "sort", "highlight"].Nodup := by decide
  have hbody := hnames.sublist (((List.Sublist.refl ["query"]).append
    (Data.keys_optionalList_sublist "sort" (d.sorts.map GeoSort.toData))).append (List.Sublist.refl ["highlight"]))
  have hnames : ["index", "size", "from", "body"].Nodup := by decide
  have htop := hnames.sublist (((List.Sublist.refl ["index", "size"]).append
    (Data.keys_optional_sublist "from" (fun (n : UInt64) => Data.int n.toNat) d.paging.offset)).append
    (List.Sublist.refl ["body"]))
  rw [toData, Data.KeysOnce]
  simp only [List.map_append, List.map_cons, List.map_nil, htop, hbody, Data.KeysOnce, Data.keysOnceMembers_append,
    Data.keysOnceMembers_optional, Data.keysOnceMembers_optionalList, Data.KeysOnceMembers, List.forall_mem_map]
  simp [and_assoc]

/-- No record in a compiled document repeats a key, so that reading the document back loses nothing, exactly unless the request asks
for a sort by distance and the field it sorts on has the name of one of the options. -/
theorem compile_keysOnce_iff {c : Config} {r : SearchRequest} {doc : QueryDocument} (h : compile c r = .ok doc) :
    (doc.toData.KeysOnce ↔ (r.query.geo ≠ none → c.geoField ∉ GeoSort.optionNames)) ∧
      (doc.toData.lastWins = doc.toData ↔ (r.query.geo ≠ none → c.geoField ∉ GeoSort.optionNames)) := by
  obtain ⟨done, hdone, hdoc⟩ := bind_eq_ok.1 h
  rw [Except.ok.injEq] at hdoc
  have hquery : doc.query.toData.KeysOnce := by
    rw [← hdoc]
    refine Clause.keysOnce_toData _ (c.distinct_queryClause ?_)
    exact Composer.distinct_compose (c.freeTextFields_composer_ne_nil _) hdone
  have hhighlight : doc.highlight.toData.KeysOnce := by
    rw [← hdoc]
    exact HighlightSpec.keysOnce_toData (c.highlight.nodup_fields_build (Composer.nodup_fields_compose hdone))
  have hsorts : (∀ s ∈ doc.sorts, s.toData.KeysOnce) ↔ (r.query.geo ≠ none → c.geoField ∉ GeoSort.optionNames) := by
    rw [← hdoc]
    cases r.query.geo with
    | none => simp
    | some g => simp [GeoSort.keysOnce_toData_iff, GeoSort.ofFilter]
  have honce : doc.toData.KeysOnce ↔ (r.query.geo ≠ none → c.geoField ∉ GeoSort.optionNames) := by
    rw [QueryDocument.keysOnce_toData, and_iff_right hquery, and_iff_left hhighlight, hsorts]
  exact ⟨honce, (Data.lastWins_eq_self_iff _).trans honce⟩

/-- Exclusive pairs, written twice and repeated under two nested paths, with a highlighter for each field and a sort by distance. -/
theorem compile_keysOnce_exclusive_pairs :
    ∃ doc, compile { mapping := [.branch "sites" [.leaf "sites.contacts"]], highlight := { strategy := .usedFields } } {
        query := {
          rules := some [⟨some (.many ["city", "name"]), some .xor, [.literal "Paris", .literal "Lyon",
            .group [⟨some (.one "city"), some .and, [.literal "Rome"], false⟩]], true⟩]
          geo := some { order := some .desc } } } = .ok doc ∧
      doc.toData.KeysOnce ∧ doc.toData.lastWins = doc.toData := by
  obtain ⟨doc, hdoc⟩ := exists_eq_ok_of_isOk (x := compile
    { mapping := [.branch "sites" [.leaf "sites.contacts"]], highlight := { strategy := .usedFields } } {
      query := {
        rules := some [⟨some (.many ["city", "name"]), some .xor, [.literal "Paris", .literal "Lyon",
          .group [⟨some (.one "city"), some .and, [.literal "Rome"], false⟩]], true⟩]
        geo := some { order := some .desc } } }) (by decide)
  have hfield : ({ mapping := [.branch "sites" [.leaf "sites.contacts"]], highlight := { strategy := .usedFields } } : Config).geoField ∉
      GeoSort.optionNames := by decide
  have hiff := compile_keysOnce_iff hdoc
  exact ⟨doc, hdoc, hiff.1.2 fun _ => hfield, hiff.2.2 fun _ => hfield⟩

/-- A configuration that passes its checks sorts on a field named like the option for the direction. The sort has two members of that
key, and who reads it back loses the point. -/
theorem compile_repeats_order_key :
    ({ geoField := "order" } : Config).validate = .ok () ∧
      ∃ doc, compile { geoField := "order" } { query := { geo := some {} } } = .ok doc ∧ ¬doc.toData.KeysOnce ∧
        doc.toData.lastWins ≠ doc.toData := by
  refine ⟨by decide +kernel, _, rfl, ?_⟩
  rw [ne_eq, Data.lastWins_eq_self_iff, and_self, QueryDocument.keysOnce_toData]
  rintro ⟨-, hsorts, -⟩
  have hsort := hsorts _ List.mem_cons_self
  rw [GeoSort.keysOnce_toData_iff] at hsort
  exact hsort (by decide)

end SearchRules
