import SearchRules.Compile
import SearchRules.Proofs.Data.Decode
import SearchRules.Proofs.Data.Trees
import SearchRules.Proofs.Json.RoundTrip

/-!
# Requests read back

A request is read back from what it is written as. What a front end may leave out or write in its own way does not get in the way
of it: a rule is written as a record, a group as a list of records, and neither is taken for anything else.
-/

namespace SearchRules

/-! ## Rules -/

theorem Operator.ofData?_name (op : Operator) : Operator.ofData? (.string op.name) = some op := by
  cases op <;> rfl

theorem FieldRef.ofData?_toData (field : FieldRef) : FieldRef.ofData? field.toData = some field := by
  cases field with
  | one name => rfl
  | many names =>
    have hnames : (names.map Data.string).mapM Data.string? = some names := Data.mapM_map Data.string (fun _ => rfl) names
    rw [FieldRef.toData, Data.strings, FieldRef.ofData?, hnames, Option.map_some]

theorem FieldRef.toData_ne_null (field : FieldRef) : field.toData ≠ .null := by
  cases field <;> exact nofun

theorem FieldRef.readable_toData (field : FieldRef) : field.toData.readable = true := by
  cases field with
  | one name => rfl
  | many names =>
    rw [FieldRef.toData, Data.strings, Data.readable_list_iff, List.forall_mem_map]
    exact fun _ _ => rfl

mutual

/-- Every part of a value has a value as data. -/
theorem Value.readable_toData : ∀ v : Value, v.toData.readable = true
  | .literal _ => rfl
  | .group rules => (Data.readable_list_iff _).2 (Rule.readable_listData rules)

theorem Rule.readable_toData : ∀ r : Rule, r.toData.readable = true
  | ⟨field, operator, values, isKeyword⟩ => by
    have hvalues := (Data.readable_list_iff _).2 (Value.readable_listData values)
    rw [Rule.toData, Data.readable_record_iff]
    simp only [List.forall_mem_append, List.forall_mem_cons, hvalues, true_and]
    refine ⟨⟨?_, ?_⟩, rfl, nofun⟩
    · cases field with
      | none => exact nofun
      | some f => exact List.forall_mem_singleton.2 f.readable_toData
    · cases operator with
      | none => exact nofun
      | some op => exact List.forall_mem_singleton.2 rfl

theorem Value.readable_listData : ∀ vs : List Value, ∀ d ∈ Value.listData vs, d.readable = true
  | [] => nofun
  | v :: vs => List.forall_mem_cons.2 ⟨Value.readable_toData v, Value.readable_listData vs⟩

theorem Rule.readable_listData : ∀ rs : List Rule, ∀ d ∈ Rule.listData rs, d.readable = true
  | [] => nofun
  | r :: rs => List.forall_mem_cons.2 ⟨Rule.readable_toData r, Rule.readable_listData rs⟩

end

/-- The fields of a rule, all of which but two may be left out, are read in the order they are written. -/
theorem Rule.ofMembers?_toData {field : Option FieldRef} {operator : Option Operator} {values : List Value} {d : Data}
    (isKeyword : Bool) (h : Value.ofField? d = some values) :
    Rule.ofMembers? {} (Data.optional "field" FieldRef.toData field ++
      Data.optional "operator" (fun op => .string op.name) operator ++ [("values", d), ("isKeyword", .bool isKeyword)]) =
      some ⟨field.map some, operator.map some, some values, some isKeyword⟩ := by
  have hfield : ∀ f : FieldRef, Data.nullable? FieldRef.ofData? f.toData = some (some f) :=
    fun f => Data.nullable?_of_read f.ofData?_toData f.toData_ne_null
  have hoperator : ∀ op : Operator, Data.nullable? Operator.ofData? (.string op.name) = some (some op) :=
    fun op => Data.nullable?_of_read op.ofData?_name nofun
  have hflag : Rule.flag? (.bool isKeyword) = some isKeyword := rfl
  cases field <;> cases operator <;> simp [Data.optional, Rule.ofMembers?, hfield, hoperator, h, hflag]

theorem Value.toData_ne_null (v : Value) : v.toData ≠ .null := by
  cases v <;> exact nofun

theorem Value.ofItems?_cons {v : Value} {vs : List Value} {d : Data} {ds : List Data} (hd : Value.ofData? d = some v)
    (hnull : d ≠ .null) (hreadable : d.readable = true) (hds : Value.ofItems? ds = some vs) :
    Value.ofItems? (d :: ds) = some (v :: vs) := by
  cases d with
  | null => exact absurd rfl hnull
  | _ =>
    rw [Value.ofItems?, if_pos hreadable, hd, hds]
    · rfl
    · exact nofun

mutual

/-- A value is read back from its data. -/
theorem Value.ofData?_toData : ∀ v : Value, Value.ofData? v.toData = some v
  | .literal _ => rfl
  | .group rules => by rw [Value.toData, Value.ofData?, Rule.ofList?_listData rules]

/-- A rule is read back from its data. -/
theorem Rule.ofData?_toData : ∀ r : Rule, Rule.ofData? r.toData = some r
  | ⟨field, operator, values, isKeyword⟩ => by
    have hvalues : Value.ofField? (.list (Value.listData values)) = some values := by
      rw [Value.ofField?, Value.ofItems?_listData values]
    rw [Rule.toData, Rule.ofData?, Rule.ofMembers?_toData isKeyword hvalues]
    cases field <;> cases operator <;> rfl

/-- Values are read back from a list of their data: none of them is written as null. -/
theorem Value.ofItems?_listData : ∀ vs : List Value, Value.ofItems? (Value.listData vs) = some vs
  | [] => rfl
  | v :: vs => by
    rw [Value.listData]
    exact Value.ofItems?_cons (Value.ofData?_toData v) v.toData_ne_null v.readable_toData (Value.ofItems?_listData vs)

/-- Rules are read back from a list of their data. -/
theorem Rule.ofList?_listData : ∀ rs : List Rule, Rule.ofList? (Rule.listData rs) = some rs
  | [] => rfl
  | r :: rs => by
    rw [Rule.listData, Rule.ofList?, Rule.ofData?_toData r, Rule.ofList?_listData rs]
    rfl

end

theorem Rule.listData_eq_map (rs : List Rule) : Rule.listData rs = rs.map Rule.toData := by
  induction rs with
  | nil => rfl
  | cons r rs ih => rw [Rule.listData, ih, List.map_cons]

/-! ## Requests -/

theorem SortOrder.ofData?_name (order : SortOrder) :
    Data.constant? .json SortOrder.constants (.string order.name) = some order := by
  cases order <;> rfl

theorem GeoFilter.ofData?_toData (g : GeoFilter) : GeoFilter.ofData? g.toData = some g := by
  obtain ⟨longitude, latitude, order, maxDistanceKm⟩ := g
  have hfloat : ∀ x : Binary64, Data.float? (.float x) = some x := fun _ => rfl
  have hnull : ∀ x : Binary64, Data.float x ≠ .null := nofun
  -- the keys of the members from each field on
  have h₃ := Data.keys_optional_sublist "maxDistanceKm" Data.float maxDistanceKm
  have h₂ := Data.keys_optional_append_sublist h₃ "order" (fun o => .string o.name) order
  have h₁ := Data.keys_optional_append_sublist h₂ "latitude" Data.float latitude
  have h₀ := Data.keys_optional_append_sublist h₁ "longitude" Data.float longitude
  rw [ofData?, toData]
  simp only [List.append_assoc, Data.members?_record h₀ (by decide), Option.bind_eq_bind, Option.bind_some]
  rw [Data.field?_optional hfloat hnull fun h => absurd (h₁.subset h) (by decide)]
  rw [Data.field?_optional_ne (by decide), Data.field?_optional hfloat hnull fun h => absurd (h₂.subset h) (by decide)]
  rw [Data.field?_optional_ne (by decide), Data.field?_optional_ne (by decide),
    Data.field?_optional SortOrder.ofData?_name (fun _ => nofun) fun h => absurd (h₃.subset h) (by decide)]
  rw [Data.field?_optional_ne (by decide), Data.field?_optional_ne (by decide), Data.field?_optional_ne (by decide),
    Data.field?_optional_nil hfloat hnull]
  rfl

theorem RequestParams.ofData?_toData (p : RequestParams) : RequestParams.ofData? p.toData = some p := by
  obtain ⟨index, size, page, usedFields⟩ := p
  have hstring : ∀ s, Data.string? (.string s) = some s := fun _ => rfl
  have hnull : ∀ s, Data.string s ≠ .null := nofun
  have hint : ∀ n : UInt64, Data.int n.toNat ≠ .null := nofun
  have h₃ := Data.keys_optional_sublist "usedFields" Data.strings usedFields
  have h₂ := Data.keys_optional_append_sublist h₃ "from" (fun (n : UInt64) => .int n.toNat) page
  have h₁ := Data.keys_optional_append_sublist h₂ "size" (fun (n : UInt64) => .int n.toNat) size
  have h₀ := Data.keys_optional_append_sublist h₁ "index" Data.string index
  rw [ofData?, toData]
  simp only [List.append_assoc, Data.members?_record h₀ (by decide), Option.bind_eq_bind, Option.bind_some]
  rw [Data.field?_optional hstring hnull fun h => absurd (h₁.subset h) (by decide)]
  rw [Data.field?_optional_ne (by decide), Data.field?_optional Data.uint64?_int hint fun h => absurd (h₂.subset h) (by decide)]
  rw [Data.field?_optional_ne (by decide), Data.field?_optional_ne (by decide),
    Data.field?_optional Data.uint64?_int hint fun h => absurd (h₃.subset h) (by decide)]
  rw [Data.field?_optional_ne (by decide), Data.field?_optional_ne (by decide), Data.field?_optional_ne (by decide),
    Data.field?_optional_nil Data.list?_strings fun _ => nofun]
  rfl

theorem RequestQuery.ofData?_toData (q : RequestQuery) : RequestQuery.ofData? q.toData = some q := by
  obtain ⟨rules, geo⟩ := q
  have hrules : ∀ rs : List Rule, Data.list? Rule.ofData? (.list (Rule.listData rs)) = some rs := by
    intro rs
    rw [Rule.listData_eq_map]
    exact Data.list?_map Rule.toData Rule.ofData?_toData rs
  have h₁ := Data.keys_optional_sublist "geo" GeoFilter.toData geo
  have h₀ := Data.keys_optional_append_sublist h₁ "rules" (fun rules => .list (Rule.listData rules)) rules
  rw [ofData?, toData, Data.members?_record h₀ (by decide)]
  simp only [Option.bind_eq_bind, Option.bind_some]
  rw [Data.field?_optional hrules (fun _ => nofun) fun h => absurd (h₁.subset h) (by decide)]
  rw [Data.field?_optional_ne (by decide), Data.field?_optional_nil GeoFilter.ofData?_toData fun _ => nofun]
  rfl

/-- A request is read back from its data. -/
theorem SearchRequest.ofData?_toData (r : SearchRequest) : SearchRequest.ofData? r.toData = some r := by
  have hmembers : (Data.record [("params", r.params.toData), ("query", r.query.toData)]).members? .json ["params", "query"] =
      some [("params", r.params.toData), ("query", r.query.toData)] :=
    Data.members?_record (List.Sublist.refl _) (by decide)
  rw [ofData?, toData, hmembers]
  simp only [Option.bind_eq_bind, Option.bind_some]
  rw [Data.field?_cons_self, RequestParams.ofData?_toData, Data.field?_cons_ne (by decide), Data.field?_cons_self,
    RequestQuery.ofData?_toData]
  rfl

/-! ## Requests as texts -/

theorem FieldRef.legible_toData (field : FieldRef) : Json.Legible field.toData := by
  cases field with
  | one name => trivial
  | many names => exact Json.legible_strings names

mutual

theorem Value.legible_toData : ∀ v : Value, Json.Legible v.toData
  | .literal _ => trivial
  | .group rules => (Json.legibleItems_iff _).2 (Rule.legible_listData rules)

theorem Rule.legible_toData : ∀ r : Rule, Json.Legible r.toData
  | ⟨field, operator, values, isKeyword⟩ => by
    have hvalues : Json.Legible (.list (Value.listData values)) := (Json.legibleItems_iff _).2 (Value.legible_listData values)
    rw [Rule.toData, Json.Legible, Json.legibleMembers_iff]
    simp only [List.forall_mem_append, List.forall_mem_cons, hvalues, true_and]
    refine ⟨⟨?_, ?_⟩, trivial, nofun⟩
    · exact Data.forall_mem_optional fun f _ => f.legible_toData
    · exact Data.forall_mem_optional fun _ _ => trivial

theorem Value.legible_listData : ∀ vs : List Value, ∀ d ∈ Value.listData vs, Json.Legible d
  | [] => nofun
  | v :: vs => List.forall_mem_cons.2 ⟨Value.legible_toData v, Value.legible_listData vs⟩

theorem Rule.legible_listData : ∀ rs : List Rule, ∀ d ∈ Rule.listData rs, Json.Legible d
  | [] => nofun
  | r :: rs => List.forall_mem_cons.2 ⟨Rule.legible_toData r, Rule.legible_listData rs⟩

end

/-- The numbers of a point. -/
def GeoFilter.floats (g : GeoFilter) : List Binary64 :=
  g.longitude.toList ++ g.latitude.toList ++ g.maxDistanceKm.toList

/-- The numbers of a request that are not integers. -/
def SearchRequest.floats (r : SearchRequest) : List Binary64 :=
  r.query.geo.toList.flatMap GeoFilter.floats

theorem GeoFilter.legible_toData {g : GeoFilter} (h : ∀ x ∈ g.floats, Json.ReadsBack x) : Json.Legible g.toData := by
  simp only [floats, List.forall_mem_append, Option.mem_toList] at h
  obtain ⟨⟨hlongitude, hlatitude⟩, hdistance⟩ := h
  rw [toData, Json.Legible, Json.legibleMembers_iff]
  simp only [List.forall_mem_append]
  refine ⟨⟨⟨?_, ?_⟩, ?_⟩, ?_⟩
  · exact Data.forall_mem_optional fun x hx => hlongitude x hx
  · exact Data.forall_mem_optional fun x hx => hlatitude x hx
  · exact Data.forall_mem_optional fun _ _ => trivial
  · exact Data.forall_mem_optional fun x hx => hdistance x hx

theorem RequestParams.legible_toData (p : RequestParams) : Json.Legible p.toData := by
  rw [toData, Json.Legible, Json.legibleMembers_iff]
  simp only [List.forall_mem_append]
  refine ⟨⟨⟨?_, ?_⟩, ?_⟩, ?_⟩
  · exact Data.forall_mem_optional fun _ _ => trivial
  · exact Data.forall_mem_optional fun n _ => Json.legible_uint64 n
  · exact Data.forall_mem_optional fun n _ => Json.legible_uint64 n
  · exact Data.forall_mem_optional fun names _ => Json.legible_strings names

theorem SearchRequest.legible_toData {r : SearchRequest} (h : ∀ x ∈ r.floats, Json.ReadsBack x) : Json.Legible r.toData := by
  have hquery : Json.Legible r.query.toData := by
    rw [RequestQuery.toData, Json.Legible, Json.legibleMembers_iff, List.forall_mem_append]
    constructor
    · exact Data.forall_mem_optional fun rules _ => (Json.legibleItems_iff _).2 (Rule.legible_listData rules)
    · refine Data.forall_mem_optional fun g hg => GeoFilter.legible_toData fun x hx => h x ?_
      rw [floats, hg]
      simpa using hx
  rw [toData, Json.Legible, Json.legibleMembers_iff, List.forall_mem_cons, List.forall_mem_singleton]
  exact ⟨r.params.legible_toData, hquery⟩

/-- A request is read back from its text, if its numbers are read back from theirs and the text nests no deeper than the reader
follows. So where a text stands for a request, the text of that request stands for the same. -/
theorem SearchRequest.read?_compact_toData (r : SearchRequest) (hfloats : ∀ x ∈ r.floats, Json.ReadsBack x)
    (hdepth : r.toData.depth ≤ Json.maxDepth) :
    SearchRequest.read? (Json.compact r.toData) = some r ∧
      ∀ text, SearchRequest.read? text = some r → SearchRequest.read? (Json.compact r.toData) = SearchRequest.read? text := by
  have hread : SearchRequest.read? (Json.compact r.toData) = some r := by
    rw [read?, Json.read?_compact (legible_toData hfloats) hdepth, Option.bind_some, ofData?_toData]
  exact ⟨hread, fun text htext => hread.trans htext.symm⟩

/-- A request with a literal that looks like a number, one that looks like a group, no fields in a list, an empty group and a group
in a group, sorted around a point. -/
theorem SearchRequest.read?_compact_groups :
    let r : SearchRequest := {
      params := { size := some 20, usedFields := some [] }
      query := {
        rules := some [⟨some (.many []), some .xor, [.literal "12", .literal "[[]]", .group [],
          .group [⟨some (.one "city"), none, [.group [⟨none, some .not, [.literal "true"], true⟩]], false⟩]], false⟩, {}]
        geo := some { longitude := some (.finite ⟨false, 0x4004000000000000, by decide⟩), order := some .desc } } }
    SearchRequest.read? (Json.compact r.toData) = some r := by
  intro r
  refine (SearchRequest.read?_compact_toData r (List.forall_mem_singleton.2 ?_) (by decide)).1
  exact Json.readsBack_of_check (by decide +kernel)

end SearchRules
