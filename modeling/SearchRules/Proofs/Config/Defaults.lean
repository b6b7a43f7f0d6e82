import Mathlib.Data.List.Permutation
import SearchRules.Proofs.Config.RoundTrip
import SearchRules.Proofs.Json.Values

/-!
# Settings left out

A configuration may name only the settings it changes. Whichever keys are taken out of the value of a configuration, and out of the
value of its highlight settings, what is left is read, to the same configuration with the settings of these keys put back to their
defaults (`Config.ofData?_of_partial`). The members may stand in any order, those of the branches of a mapping too.
-/

namespace SearchRules

open Json (ValueOf ItemsOf)

/-! ## Mappings and escape sets -/

mutual

/-- A node is read from its value: a branch has its path and its children in either order. -/
theorem PathNode.ofData?_of_value : ∀ (n : PathNode) (d : Data), ValueOf n.toData d → PathNode.ofData? d = some n
  | .leaf path, d, h => by
    rw [PathNode.toData] at h
    cases h
    rfl
  | .branch path children, d, h => by
    rw [PathNode.toData] at h
    cases h with
    | record hms hperm =>
      obtain ⟨_, _, rfl, hpath, hms⟩ := hms.exists_cons
      obtain ⟨_, _, rfl, hchildren, hms⟩ := hms.exists_cons
      obtain rfl := hms.eq_nil
      obtain rfl := Json.valueOf_string hpath
      obtain ⟨ds, rfl, hitems⟩ := Json.exists_list_of_valueOf hchildren
      have hfield : PathNode.ofField? (.list ds) = some children := by
        rw [PathNode.ofField?, PathNode.forest?_of_values children ds hitems]
      rcases List.pair_perm.1 hperm with rfl | rfl
      · simp [PathNode.ofData?, PathNode.ofMembers?, Data.string?, hfield]
      · simp [PathNode.ofData?, PathNode.ofMembers?, Data.string?, hfield]

/-- A forest is read from the values of its nodes. -/
theorem PathNode.forest?_of_values : ∀ (ns : List PathNode) (ds : List Data), ItemsOf (PathNode.forestData ns) ds →
    PathNode.forest? ds = some ns
  | [], _, .nil => rfl
  | n :: ns, _, .cons hn hns => by
    rw [PathNode.forest?, PathNode.ofData?_of_value n _ hn, PathNode.forest?_of_values ns _ hns]
    rfl

end

mutual

theorem PathNode.allLeaves_toData : ∀ n : PathNode, n.toData.allLeaves Json.isValue = true
  | .leaf _ => rfl
  | .branch path children => by
    have hchildren := (Data.allLeaves_list_iff _ _).2 (PathNode.allLeaves_forestData children)
    rw [PathNode.toData, Data.allLeaves_record_iff, List.forall_mem_cons, List.forall_mem_singleton]
    exact ⟨rfl, hchildren⟩

theorem PathNode.allLeaves_forestData : ∀ ns : List PathNode, ∀ d ∈ PathNode.forestData ns, d.allLeaves Json.isValue = true
  | [] => by simp [PathNode.forestData]
  | n :: ns => by
    rw [PathNode.forestData, List.forall_mem_cons]
    exact ⟨PathNode.allLeaves_toData n, PathNode.allLeaves_forestData ns⟩

end

theorem EscapeSet.eq_toData_of_value {e : EscapeSet} {d : Data} (h : ValueOf e.toData d) : d = e.toData := by
  cases e with
  | broad =>
    cases h
    rfl
  | narrow =>
    cases h
    rfl
  | custom cs =>
    rw [toData_custom] at h ⊢
    cases h with
    | record hms hperm =>
      obtain ⟨_, _, rfl, hchars, hms⟩ := hms.exists_cons
      obtain rfl := hms.eq_nil
      rw [List.perm_singleton.1 hperm.symm, Json.valueOf_strings hchars]

theorem EscapeSet.allLeaves_toData (e : EscapeSet) : e.toData.allLeaves Json.isValue = true := by
  cases e with
  | broad => rfl
  | narrow => rfl
  | custom cs =>
    rw [toData_custom, Data.allLeaves_record_iff, List.forall_mem_singleton]
    exact Json.allLeaves_strings _

/-! ## Highlight settings -/

namespace HighlightConfig

/-- The settings of highlighting with those of some keys put back to their defaults. -/
def reset (removed : List String) (c : HighlightConfig) : HighlightConfig :=
  let dflt : HighlightConfig := {}
  { strategy := if "strategy" ∈ removed then dflt.strategy else c.strategy
    preTags := if "pre_tags" ∈ removed then dflt.preTags else c.preTags
    postTags := if "post_tags" ∈ removed then dflt.postTags else c.postTags
    order := if "order" ∈ removed then dflt.order else c.order
    fragmentSize := if "fragment_size" ∈ removed then dflt.fragmentSize else c.fragmentSize
    numberOfFragments := if "number_of_fragments" ∈ removed then dflt.numberOfFragments else c.numberOfFragments
    fragmenter := if "fragmenter" ∈ removed then dflt.fragmenter else c.fragmenter }

/-- A setting that data does not name is as it is by default. -/
theorem fallback_eq : fallback = {} := rfl

/-- The settings as the members of a record. -/
def members (c : HighlightConfig) : List (String × Data) :=
  match c.toData with
  | .record ms => ms
  | _ => []

theorem toData_eq_record (c : HighlightConfig) : c.toData = .record c.members := rfl

theorem keys_members (c : HighlightConfig) : c.members.map Prod.fst = keys := rfl

theorem allLeaves_toData (c : HighlightConfig) : c.toData.allLeaves Json.isValue = true := by
  rw [toData, Data.allLeaves_record_iff]
  simp only [List.forall_mem_cons]
  exact ⟨rfl, Json.allLeaves_strings _, Json.allLeaves_strings _, rfl, rfl, rfl, rfl, List.forall_mem_nil _⟩

/-- What is left of the value of highlight settings is read to these settings with those of the missing keys put back. -/
theorem ofData?_without (c : HighlightConfig) (removed : List String) {d : Data} (h : ValueOf c.toData d) :
    HighlightConfig.ofData? .json (d.without removed) = some (c.reset removed) := by
  rw [toData_eq_record] at h
  have hnodup : (c.members.map Prod.fst).Nodup := nodup_keys
  obtain ⟨ns, rfl, hkeys, hcarries⟩ := Json.exists_record_of_valueOf hnodup h
  rw [keys_members] at hkeys
  rw [HighlightConfig.ofData?, fallback_eq, Data.members?_without removed hkeys.subset hcarries.nodup, Option.bind_eq_bind, Option.bind_some]
  extract_lets dflt
  rw [hcarries.field?_without removed 0 rfl fun _ => Json.constant?_of_value (HighlightStrategy.constant?_name .json c.strategy),
    hcarries.field?_without removed 1 rfl fun _ => Json.strings?_of_value,
    hcarries.field?_without removed 2 rfl fun _ => Json.strings?_of_value,
    hcarries.field?_without removed 3 rfl fun _ => Json.string?_of_value,
    hcarries.field?_without removed 4 rfl fun _ => Json.uint32?_of_value,
    hcarries.field?_without removed 5 rfl fun _ => Json.uint32?_of_value,
    hcarries.field?_without removed 6 rfl fun _ => Json.string?_of_value]
  rfl

end HighlightConfig

/-! ## Configurations -/

namespace Config

/-- The settings with those of some keys put back to their defaults, and so with some keys of the highlight settings. -/
def reset (removed inHighlight : List String) (c : Config) : Config :=
  let dflt : Config := {}
  { index := if "index" ∈ removed then dflt.index else c.index
    defaultSize := if "default_size" ∈ removed then dflt.defaultSize else c.defaultSize
    defaultFields := if "default_fields" ∈ removed then dflt.defaultFields else c.defaultFields
    keywordSuffix := if "keyword_suffix" ∈ removed then dflt.keywordSuffix else c.keywordSuffix
    clauseStyle := if "clause_style" ∈ removed then dflt.clauseStyle else c.clauseStyle
    termKey := if "term_key" ∈ removed then dflt.termKey else c.termKey
    escape := if "escape" ∈ removed then dflt.escape else c.escape
    xorStrategy := if "xor_strategy" ∈ removed then dflt.xorStrategy else c.xorStrategy
    openEnded := if "prefix_free_text" ∈ removed then dflt.openEnded else c.openEnded
    geoField := if "geo_field" ∈ removed then dflt.geoField else c.geoField
    maxDistanceKm := if "geo_default_max_distance_km" ∈ removed then dflt.maxDistanceKm else c.maxDistanceKm
    innerHits := if "inner_hits" ∈ removed then dflt.innerHits else c.innerHits
    mapping := if "mapping" ∈ removed then dflt.mapping else c.mapping
    highlight := if "highlight" ∈ removed then dflt.highlight else c.highlight.reset inHighlight }

/-- A setting that data does not name is as it is by default. -/
theorem fallback_eq : fallback = {} := rfl

theorem allLeaves_of_mem_members (c : Config) (hfinite : c.maxDistanceKm.isFinite = true) :
    ∀ m ∈ c.members, m.2.allLeaves Json.isValue = true := by
  have hmapping := (Data.allLeaves_list_iff _ _).2 (PathNode.allLeaves_forestData c.mapping)
  simp only [members, toData, List.forall_mem_cons]
  exact ⟨rfl, rfl, Json.allLeaves_strings _, rfl, rfl, rfl, c.escape.allLeaves_toData, rfl, rfl, rfl, hfinite, rfl, hmapping,
    c.highlight.allLeaves_toData, List.forall_mem_nil _⟩

theorem highlight_notMem_dropLast (c : Config) : "highlight" ∉ c.members.dropLast.map Prod.fst := by
  rw [List.map_dropLast, keys_members]
  decide

/-- A configuration with a finite distance is written as a JSON value. Of any value it may be written as, take out whichever keys, and
whichever of the value of its highlight settings: what is left is read, and it is read to the configuration in which the settings of
the missing keys have their defaults and every other setting, the whole mapping among them, is as it was. -/
theorem ofData?_of_partial (c : Config) (hfinite : c.maxDistanceKm.isFinite = true) (removed inHighlight : List String) :
    ValueOf c.toData c.toData ∧ ∀ d, ValueOf c.toData d →
      ofData? .json ((d.mapMember "highlight" (Data.without inHighlight)).without removed) = some (c.reset removed inHighlight) := by
  refine ⟨Json.valueOf_self _ ((Data.allLeaves_record_iff _ _).2 (c.allLeaves_of_mem_members hfinite)), fun d h => ?_⟩
  rw [toData_eq_record] at h
  have hnodup : (c.members.map Prod.fst).Nodup := nodup_keys
  obtain ⟨ns, hns, hkeys, hothers, hhighlight⟩ := Json.exists_record_mapMember hnodup h "highlight" (Data.without inHighlight)
  rw [keys_members] at hkeys
  -- the highlight settings come last, so the members before them are values of the settings as they were
  have hcarries := hothers c.members.dropLast (List.dropLast_subset _) c.highlight_notMem_dropLast
  have hescape : ∀ e', ValueOf c.escape.toData e' → EscapeSet.ofData? .json e' = some c.escape := by
    intro e' he'
    rw [EscapeSet.eq_toData_of_value he', EscapeSet.ofData?_toData]
  have hmapping : ∀ e', ValueOf (.list (PathNode.forestData c.mapping)) e' → PathNode.ofField? e' = some c.mapping := by
    intro e' he'
    obtain ⟨ds, rfl, hitems⟩ := Json.exists_list_of_valueOf he'
    exact PathNode.forest?_of_values c.mapping ds hitems
  obtain ⟨e', he', hvalue⟩ := hhighlight c.highlight.toData (List.mem_of_getElem? (i := 13) rfl)
  have hlast := Data.field?_without removed hcarries.nodup he' (c.highlight.ofData?_without inHighlight hvalue)
  rw [hns, ofData?, fallback_eq, Data.members?_without removed hkeys.subset hcarries.nodup, Option.bind_eq_bind, Option.bind_some]
  extract_lets dflt
  rw [hcarries.field?_without removed 0 rfl fun _ => Json.string?_of_value,
    hcarries.field?_without removed 1 rfl fun _ => Json.uint64?_of_value,
    hcarries.field?_without removed 2 rfl fun _ => Json.strings?_of_value,
    hcarries.field?_without removed 3 rfl fun _ => Json.string?_of_value,
    hcarries.field?_without removed 4 rfl fun _ => Json.constant?_of_value (ClauseStyle.constant?_name .json c.clauseStyle),
    hcarries.field?_without removed 5 rfl fun _ => Json.constant?_of_value (TermKey.constant?_name .json c.termKey),
    hcarries.field?_without removed 6 rfl hescape,
    hcarries.field?_without removed 7 rfl fun _ => Json.constant?_of_value (XorStrategy.constant?_name .json c.xorStrategy),
    hcarries.field?_without removed 8 rfl fun _ => Json.bool?_of_value,
    hcarries.field?_without removed 9 rfl fun _ => Json.string?_of_value,
    hcarries.field?_without removed 10 rfl fun _ => Json.float?_of_value hfinite,
    hcarries.field?_without removed 11 rfl fun _ => Json.bool?_of_value,
    hcarries.field?_without removed 12 rfl hmapping, hlast]
  rfl

/-- Three settings left out, and two of the highlight settings, with the members of the configuration in the opposite order. A key
that no setting has takes nothing out. -/
theorem ofData?_of_partial_reversed :
    let c : Config := {
      index := "people"
      clauseStyle := .queryString
      escape := .custom ['(', '\\']
      maxDistanceKm := .finite ⟨false, 0x4004000000000000, by decide⟩
      mapping := [.branch "sites" [.leaf "sites.emails", .branch "sites.contacts" []], .leaf "notes"]
      highlight := { strategy := .usedFields, preTags := [], order := "none", fragmentSize := 40 } }
    ofData? .json (((Data.record c.members.reverse).mapMember "highlight" (Data.without ["order", "pre_tags"])).without
      ["geo_default_max_distance_km", "index", "clause_style", "page"]) =
      some { c with
        index := "contacts"
        clauseStyle := .term
        maxDistanceKm := Binary64.ofInt 20
        highlight := { c.highlight with preTags := ["<span class=\"highlighted\">"], order := "score" } } := by
  intro c
  have hfinite : c.maxDistanceKm.isFinite = true := rfl
  have hvalue : ValueOf c.toData (.record c.members.reverse) :=
    .record (Json.membersOf_self c.members (c.allLeaves_of_mem_members hfinite)) (List.reverse_perm _).symm
  rw [(ofData?_of_partial c hfinite ["geo_default_max_distance_km", "index", "clause_style", "page"] ["order", "pre_tags"]).2 _ hvalue]
  simp [reset, HighlightConfig.reset]

end Config

end SearchRules
