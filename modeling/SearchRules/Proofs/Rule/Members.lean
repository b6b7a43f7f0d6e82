import SearchRules.Rule.Data

/-!
# The members of a rule

The members of a record are read one after the other, and each sets a field that has not occurred: `ofMembers?_cons`. A member that
holds the default of its field, `Rule.defaults`, may stand anywhere among them or be left out: `ofData?_record_insert`.
-/

namespace SearchRules

/-- The members that may be left out of a rule. -/
def Rule.defaults : List (String × Data) :=
  [("field", .null), ("operator", .null), ("values", .null), ("values", .list []), ("isKeyword", .null), ("isKeyword", .bool false)]

namespace Rule.Fields

/-- What is read of a field that must not have occurred. -/
def once {α : Type} (occurred read : Option α) : Option (Option α) :=
  if occurred.isSome then none else read.map some

/-- The fields with one more member read. -/
def put? (f : Fields) (key : String) (d : Data) : Option Fields :=
  if key = "field" then (once f.field (Data.nullable? FieldRef.ofData? d)).map fun x => { f with field := x }
  else if key = "operator" then (once f.operator (Data.nullable? Operator.ofData? d)).map fun x => { f with operator := x }
  else if key = "values" then (once f.values (Value.ofField? d)).map fun x => { f with values := x }
  else if key = "isKeyword" then (once f.isKeyword (flag? d)).map fun x => { f with isKeyword := x }
  else some f

/-- Whether a field has occurred. -/
def has (f : Fields) (key : String) : Bool :=
  if key = "field" then f.field.isSome
  else if key = "operator" then f.operator.isSome
  else if key = "values" then f.values.isSome
  else if key = "isKeyword" then f.isKeyword.isSome
  else false

/-- The fields with the default of one. -/
def settle (key : String) (f : Fields) : Fields :=
  if key = "field" then { f with field := some none }
  else if key = "operator" then { f with operator := some none }
  else if key = "values" then { f with values := some [] }
  else if key = "isKeyword" then { f with isKeyword := some false }
  else f

/-- A key is that of a field or of none. -/
theorem key_cases (key : String) : key = "field" ∨ key = "operator" ∨ key = "values" ∨ key = "isKeyword" ∨
    key ≠ "field" ∧ key ≠ "operator" ∧ key ≠ "values" ∧ key ≠ "isKeyword" := by
  grind

/-- A field that has not occurred is put to its default by a member that may be left out. -/
theorem put?_of_mem_defaults {f : Fields} {key : String} {d : Data} (hd : (key, d) ∈ Rule.defaults) (h : f.has key = false) :
    f.put? key d = some (f.settle key) := by
  simp only [Rule.defaults, List.mem_cons, List.not_mem_nil, or_false, Prod.mk.injEq] at hd
  rcases hd with ⟨rfl, rfl⟩ | ⟨rfl, rfl⟩ | ⟨rfl, rfl⟩ | ⟨rfl, rfl⟩ | ⟨rfl, rfl⟩ | ⟨rfl, rfl⟩ <;> simp [has] at h <;>
    simp [put?, once, settle, h, Data.nullable?, flag?, Value.ofField?, Value.ofItems?, Data.bool?]

/-- The rule is the same with the default of a field that has not occurred. -/
theorem rule_settle {f : Fields} {key : String} (h : f.has key = false) : (f.settle key).rule = f.rule := by
  rcases key_cases key with rfl | rfl | rfl | rfl | hother
  · have hnone : f.field = none := by simpa [has] using h
    simp [settle, rule, hnone]
  · have hnone : f.operator = none := by simpa [has] using h
    simp [settle, rule, hnone]
  · have hnone : f.values = none := by simpa [has] using h
    simp [settle, rule, hnone]
  · have hnone : f.isKeyword = none := by simpa [has] using h
    simp [settle, rule, hnone]
  · simp [settle, hother]

/-- Another member is read alike whether a field has its default or has not occurred. -/
theorem put?_settle {f : Fields} {key key' : String} (hne : key' ≠ key) (d : Data) :
    (f.settle key).put? key' d = (f.put? key' d).map (settle key) := by
  rcases key_cases key with rfl | rfl | rfl | rfl | hother <;>
    rcases key_cases key' with rfl | rfl | rfl | rfl | hother' <;> simp_all [put?, settle, Function.comp_def]

/-- Another member does not make a field occur. -/
theorem has_of_put? {f g : Fields} {key key' : String} {d : Data} (hne : key' ≠ key) (h : f.put? key' d = some g) :
    g.has key = f.has key := by
  rcases key_cases key' with rfl | rfl | rfl | rfl | hother
  · obtain ⟨x, -, rfl⟩ := Option.map_eq_some_iff.1 h
    simp [has, hne.symm]
  · obtain ⟨x, -, rfl⟩ := Option.map_eq_some_iff.1 h
    simp [has, hne.symm]
  · obtain ⟨x, -, rfl⟩ := Option.map_eq_some_iff.1 h
    simp [has, hne.symm]
  · obtain ⟨x, -, rfl⟩ := Option.map_eq_some_iff.1 h
    simp [has, hne.symm]
  · have hsame : f = g := by simpa [put?, hother] using h
    rw [hsame]

end Rule.Fields

namespace Rule

/-- Members are read one after the other. -/
theorem ofMembers?_cons (f : Fields) (key : String) (d : Data) (ms : List (String × Data)) :
    Rule.ofMembers? f ((key, d) :: ms) = (f.put? key d).bind (Rule.ofMembers? · ms) := by
  have honce : ∀ {α : Type} (occurred read : Option α) (g : Option α → Option Fields),
      (if occurred.isSome then none else read.bind fun x => g (some x)) = (Fields.once occurred read).bind g := by
    intro α occurred read g
    rw [Fields.once]
    cases occurred <;> cases read <;> rfl
  rcases Fields.key_cases key with rfl | rfl | rfl | rfl | hother
  · rw [Fields.put?, if_pos rfl, Option.bind_map]
    exact honce f.field _ fun x => Rule.ofMembers? { f with field := x } ms
  · rw [Fields.put?, if_neg (by decide), if_pos rfl, Option.bind_map]
    exact honce f.operator _ fun x => Rule.ofMembers? { f with operator := x } ms
  · rw [Fields.put?, if_neg (by decide), if_neg (by decide), if_pos rfl, Option.bind_map]
    exact honce f.values _ fun x => Rule.ofMembers? { f with values := x } ms
  · rw [Fields.put?, if_neg (by decide), if_neg (by decide), if_neg (by decide), if_pos rfl, Option.bind_map]
    exact honce f.isKeyword _ fun x => Rule.ofMembers? { f with isKeyword := x } ms
  · simp [Rule.ofMembers?, Fields.put?, hother]

theorem ofMembers?_append (f : Fields) (ms ns : List (String × Data)) :
    Rule.ofMembers? f (ms ++ ns) = (Rule.ofMembers? f ms).bind (Rule.ofMembers? · ns) := by
  induction ms generalizing f with
  | nil => rfl
  | cons m ms ih =>
    obtain ⟨key, d⟩ := m
    rw [List.cons_append, ofMembers?_cons, ofMembers?_cons, Option.bind_assoc]
    simp only [ih]

/-- Members of other keys do not make a field occur. -/
theorem has_of_ofMembers? {f g : Fields} {key : String} {ms : List (String × Data)} (hkey : key ∉ ms.map Prod.fst)
    (h : Rule.ofMembers? f ms = some g) : g.has key = f.has key := by
  induction ms generalizing f with
  | nil =>
    cases h
    rfl
  | cons m ms ih =>
    obtain ⟨key', d⟩ := m
    rw [List.map_cons, List.mem_cons, not_or] at hkey
    obtain ⟨f', hf', hg⟩ := Option.bind_eq_some_iff.1 (ofMembers?_cons f key' d ms ▸ h)
    rw [ih hkey.2 hg, Fields.has_of_put? (Ne.symm hkey.1) hf']

/-- Members of other keys are read alike whether a field has its default or has not occurred. -/
theorem ofMembers?_settle {f : Fields} {key : String} {ms : List (String × Data)} (hkey : key ∉ ms.map Prod.fst) :
    Rule.ofMembers? (f.settle key) ms = (Rule.ofMembers? f ms).map (Fields.settle key) := by
  induction ms generalizing f with
  | nil => rfl
  | cons m ms ih =>
    obtain ⟨key', d⟩ := m
    rw [List.map_cons, List.mem_cons, not_or] at hkey
    rw [ofMembers?_cons, ofMembers?_cons, Fields.put?_settle (Ne.symm hkey.1), Option.map_bind, Option.bind_map]
    exact Option.bind_congr fun g _ => ih hkey.2

/-- A member that holds the default of its field may be left out. -/
theorem ofData?_record_insert {key : String} {d : Data} {ms ns : List (String × Data)} (hd : (key, d) ∈ Rule.defaults)
    (hkey : key ∉ (ms ++ ns).map Prod.fst) :
    Rule.ofData? (.record (ms ++ (key, d) :: ns)) = Rule.ofData? (.record (ms ++ ns)) := by
  rw [List.map_append, List.mem_append, not_or] at hkey
  rw [Rule.ofData?, Rule.ofData?, ofMembers?_append, ofMembers?_append, Option.map_bind, Option.map_bind]
  refine Option.bind_congr fun f hf => ?_
  have hunset : f.has key = false := by
    rw [has_of_ofMembers? hkey.1 hf, Fields.has]
    simp
  rw [Function.comp_apply, Function.comp_apply, ofMembers?_cons, Fields.put?_of_mem_defaults hd hunset, Option.bind_some,
    ofMembers?_settle hkey.2, Option.map_map]
  refine Option.map_congr fun g hg => ?_
  rw [Function.comp_apply, Fields.rule_settle]
  rw [has_of_ofMembers? hkey.2 hg, hunset]

/-- Values that are read alike may stand for each other among the members of a rule. -/
theorem ofData?_record_values {d d' : Data} (h : Value.ofField? d = Value.ofField? d') (ms ns : List (String × Data)) :
    Rule.ofData? (.record (ms ++ ("values", d) :: ns)) = Rule.ofData? (.record (ms ++ ("values", d') :: ns)) := by
  have hput : ∀ f : Fields, f.put? "values" d = f.put? "values" d' := by
    intro f
    simp [Fields.put?, h]
  rw [Rule.ofData?, Rule.ofData?, ofMembers?_append, ofMembers?_append]
  simp only [ofMembers?_cons, hput]

/-! ## Members that may be left out -/

theorem lookup_constants_of_mem_defaults {key : String} {d : Data} (h : (key, d) ∈ Rule.defaults) :
    Operator.constants.lookup key = none := by
  simp only [Rule.defaults, List.mem_cons, List.not_mem_nil, or_false, Prod.mk.injEq] at h
  rcases h with ⟨rfl, -⟩ | ⟨rfl, -⟩ | ⟨rfl, -⟩ | ⟨rfl, -⟩ | ⟨rfl, -⟩ | ⟨rfl, -⟩ <;> rfl

theorem readable_of_mem_defaults {key : String} {d : Data} (h : (key, d) ∈ Rule.defaults) : d.readable = true := by
  simp only [Rule.defaults, List.mem_cons, List.not_mem_nil, or_false, Prod.mk.injEq] at h
  rcases h with ⟨-, rfl⟩ | ⟨-, rfl⟩ | ⟨-, rfl⟩ | ⟨-, rfl⟩ | ⟨-, rfl⟩ | ⟨-, rfl⟩ <;> rfl

end Rule

/-- A record with the key of a field is no operator. -/
theorem Operator.ofData?_record_eq_none {key : String} {d : Data} {ms ns : List (String × Data)}
    (h : Operator.constants.lookup key = none) : Operator.ofData? (.record (ms ++ (key, d) :: ns)) = none := by
  match ms, ns with
  | [], [] => cases d <;> simp [Operator.ofData?, Data.constant?, h]
  | [], _ :: _ => rfl
  | [_], _ => rfl
  | _ :: _ :: _, _ => rfl

end SearchRules
