import Mathlib.Logic.Relation
import SearchRules.Json.Reader
import SearchRules.Proofs.Data.Trees
import SearchRules.Proofs.Rule.Members

/-!
# Spellings of rules

A rule may be spelled in many ways: a member that holds the default of its field may be left out, null entries of the values may be
dropped, a number or a truth value stands for its text, a single rule for the group that holds it. `Respelled` is one such change at
one place of a tree, at whatever depth. Trees that differ by such changes stand for the same rule or for none:
`Rule.ofData?_eq_of_respelled`.

A list among values is read as a group of rules, or else as one rule, and its items are tried as both. So a place has a role, and the
proof goes from a place to the tree around it: what is read alike in its role makes the tree around it read alike in the role of that.
One kind of record is not read alike in every role. A record whose only key is the name of an operator is a rule, and where a rule has
its operator it is that operator; with one more member it is still a rule, but no operator. A list that was one rule may become a
group by that: `Rule.ofData?_operator_respelled_ne`. Then, and only then, it is not read alike: `Respelled.value_eq_iff`.
-/

namespace SearchRules

/-- What a tree is read as: a rule, a value, or the list of values of a rule. An item of a list may be tried as a rule, as a value
and as a field of a rule: it is read as anything. -/
inductive Role where
  | rule | value | values | anything

/-- A tree that is read in some role, and the same with a change of spelling at one place of it. -/
inductive Respelled : Role → Data → Data → Prop where
  /-- A null entry of the values is left out. -/
  | null (xs ys : List Data) : Respelled .values (.list (xs ++ .null :: ys)) (.list (xs ++ ys))
  /-- A single rule becomes the group that holds it. -/
  | single (ms : List (String × Data)) : Respelled .value (.record ms) (.list [.record ms])
  /-- A number becomes its text. -/
  | number {d : Data} {text : String} : Value.numberText d = some text → Respelled .value d (.string text)
  /-- A truth value becomes its text. -/
  | truth (b : Bool) : Respelled .value (.bool b) (.string (if b then "true" else "false"))
  /-- The default of a field is left out of a rule. What may be read as anything must not become an operator by this. -/
  | omitted {role : Role} {key : String} {d : Data} {ms ns : List (String × Data)} : (key, d) ∈ Rule.defaults →
      key ∉ (ms ++ ns).map Prod.fst → (role = .anything → Operator.ofData? (.record (ms ++ ns)) = none) →
      Respelled role (.record (ms ++ (key, d) :: ns)) (.record (ms ++ ns))
  /-- In the values of a rule that is a record. -/
  | values {role : Role} {d d' : Data} {ms ns : List (String × Data)} : Respelled .values d d' →
      Respelled role (.record (ms ++ ("values", d) :: ns)) (.record (ms ++ ("values", d') :: ns))
  /-- In a value. -/
  | entry {d d' : Data} {xs ys : List Data} : Respelled .value d d' →
      Respelled .values (.list (xs ++ d :: ys)) (.list (xs ++ d' :: ys))
  /-- In the values of a rule that is a list of its fields. -/
  | listed {f o d d' : Data} {rest : List Data} : Respelled .values d d' →
      Respelled .rule (.list (f :: o :: d :: rest)) (.list (f :: o :: d' :: rest))
  /-- In a rule of a group. A list that is no group must not be a rule, with the one spelling or the other. -/
  | group {d d' : Data} {xs ys : List Data} : Respelled .rule d d' → ((Rule.ofList? (xs ++ d :: ys)).isSome = true ∨
      Rule.ofItems? (xs ++ d :: ys) = none ∧ Rule.ofItems? (xs ++ d' :: ys) = none) →
      Respelled .value (.list (xs ++ d :: ys)) (.list (xs ++ d' :: ys))
  /-- In a value that is a list of the fields of a rule. It must not be a group, with the one spelling or the other. -/
  | alone {items items' : List Data} : Respelled .rule (.list items) (.list items') → Rule.ofList? items = none →
      Rule.ofList? items' = none → Respelled .value (.list items) (.list items')
  /-- In an item of any list, where the item is alike in every role. -/
  | item {role : Role} {d d' : Data} {xs ys : List Data} : Respelled .anything d d' →
      Respelled role (.list (xs ++ d :: ys)) (.list (xs ++ d' :: ys))

/-! ## Items of lists -/

theorem Data.nullable?_congr {α : Type} {read : Data → Option α} {d d' : Data} (hd : d ≠ .null) (hd' : d' ≠ .null)
    (h : read d = read d') : Data.nullable? read d = Data.nullable? read d' := by
  have hread : ∀ d : Data, d ≠ .null → Data.nullable? read d = (read d).map some := by
    intro d hd
    cases d with
    | null => exact absurd rfl hd
    | _ => rfl
  rw [hread d hd, hread d' hd', h]

theorem Rule.ofList?_eq_mapM (items : List Data) : Rule.ofList? items = items.mapM Rule.ofData? := by
  induction items with
  | nil => rfl
  | cons d ds ih =>
    rw [Rule.ofList?, List.mapM_cons, ih]
    rfl

theorem Data.mapM_inside {α : Type} {read : Data → Option α} {d d' : Data} (h : read d = read d') (xs ys : List Data) :
    (xs ++ d :: ys).mapM read = (xs ++ d' :: ys).mapM read := by
  rw [List.mapM_append, List.mapM_append, List.mapM_cons, List.mapM_cons, h]

theorem Rule.ofList?_inside {d d' : Data} (h : Rule.ofData? d = Rule.ofData? d') (xs ys : List Data) :
    Rule.ofList? (xs ++ d :: ys) = Rule.ofList? (xs ++ d' :: ys) := by
  rw [ofList?_eq_mapM, ofList?_eq_mapM, Data.mapM_inside h]

theorem Value.ofItems?_append_congr {ys zs : List Data} (h : Value.ofItems? ys = Value.ofItems? zs) (xs : List Data) :
    Value.ofItems? (xs ++ ys) = Value.ofItems? (xs ++ zs) := by
  induction xs with
  | nil => exact h
  | cons x xs ih =>
    rw [List.cons_append, List.cons_append]
    cases x <;> simp only [Value.ofItems?, ih]

/-- An entry that is not null is read as a value if it is readable. -/
theorem Value.ofItems?_cons_of_ne {d : Data} (hd : d ≠ .null) (ds : List Data) :
    Value.ofItems? (d :: ds) = if d.readable then do
      let v ← Value.ofData? d
      let vs ← Value.ofItems? ds
      some (v :: vs) else none := by
  cases d with
  | null => exact absurd rfl hd
  | _ =>
    rw [Value.ofItems?]
    exact hd

/-- A value that is a list is a group of rules, or else one rule. -/
theorem Value.ofData?_list (items : List Data) :
    Value.ofData? (.list items) =
      ((Rule.ofList? items).map Value.group).or ((Rule.ofItems? items).map fun r => .group [r]) := by
  rw [Value.ofData?]
  cases Rule.ofList? items <;> rfl

/-- Values that are read alike may stand for each other in a list of values. -/
theorem Value.ofItems?_inside {d d' : Data} (hd : d ≠ .null) (hd' : d' ≠ .null) (hreadable : d.readable = d'.readable)
    (h : Value.ofData? d = Value.ofData? d') (xs ys : List Data) :
    Value.ofItems? (xs ++ d :: ys) = Value.ofItems? (xs ++ d' :: ys) := by
  refine Value.ofItems?_append_congr ?_ xs
  rw [Value.ofItems?_cons_of_ne hd, Value.ofItems?_cons_of_ne hd', hreadable, h]

/-- A value that is a record is a single rule. -/
theorem Value.ofData?_record (ms : List (String × Data)) :
    Value.ofData? (.record ms) = (Rule.ofData? (.record ms)).map fun r => .group [r] := by
  rw [Value.ofData?, Rule.ofData?, Option.map_map]
  rfl

/-! ## Read alike -/

/-- Trees that are read alike, whatever they are read as. -/
structure Data.Alike (d d' : Data) : Prop where
  rule : Rule.ofData? d = Rule.ofData? d'
  value : Value.ofData? d = Value.ofData? d'
  values : Value.ofField? d = Value.ofField? d'
  field : FieldRef.ofData? d = FieldRef.ofData? d'
  operator : Operator.ofData? d = Operator.ofData? d'
  flag : Data.bool? d = Data.bool? d'
  string : Data.string? d = Data.string? d'
  ne_null : d ≠ .null
  ne_null' : d' ≠ .null

theorem Rule.ofItems?_inside {d d' : Data} (h : d.Alike d') (xs ys : List Data) :
    Rule.ofItems? (xs ++ d :: ys) = Rule.ofItems? (xs ++ d' :: ys) := by
  have hfield := Data.nullable?_congr h.ne_null h.ne_null' h.field
  have hoperator := Data.nullable?_congr h.ne_null h.ne_null' h.operator
  have hflag := Data.nullable?_congr h.ne_null h.ne_null' h.flag
  match xs, ys with
  | [], [] => simp [Rule.ofItems?, hfield]
  | [], [_] => simp [Rule.ofItems?, hfield]
  | [], [_, _] => simp [Rule.ofItems?, hfield]
  | [], [_, _, _] => simp [Rule.ofItems?, hfield]
  | [], _ :: _ :: _ :: _ :: _ => simp [Rule.ofItems?]
  | [_], [] => simp [Rule.ofItems?, hoperator]
  | [_], [_] => simp [Rule.ofItems?, hoperator]
  | [_], [_, _] => simp [Rule.ofItems?, hoperator]
  | [_], _ :: _ :: _ :: _ => simp [Rule.ofItems?]
  | [_, _], [] => simp [Rule.ofItems?, h.values]
  | [_, _], [_] => simp [Rule.ofItems?, h.values]
  | [_, _], _ :: _ :: _ => simp [Rule.ofItems?]
  | [_, _, _], [] => simp [Rule.ofItems?, Rule.flag?, hflag]
  | [_, _, _], _ :: _ => simp [Rule.ofItems?]
  | _ :: _ :: _ :: _ :: _, _ => simp [Rule.ofItems?]

/-- Records that are read as the same rule and as the same operator are read alike. -/
theorem Data.alike_record {ms ms' : List (String × Data)} (h : Rule.ofData? (.record ms) = Rule.ofData? (.record ms'))
    (hoperator : Operator.ofData? (.record ms) = Operator.ofData? (.record ms')) :
    Data.Alike (.record ms) (.record ms') where
  rule := h
  value := by rw [Value.ofData?_record, Value.ofData?_record, h]
  values := rfl
  field := rfl
  operator := hoperator
  flag := rfl
  string := rfl
  ne_null := nofun
  ne_null' := nofun

/-- Items that are read alike may stand for each other in any list. -/
theorem Data.alike_list {d d' : Data} (h : d.Alike d') (hreadable : d.readable = d'.readable) (xs ys : List Data) :
    Data.Alike (.list (xs ++ d :: ys)) (.list (xs ++ d' :: ys)) where
  rule := by rw [Rule.ofData?, Rule.ofData?, Rule.ofItems?_inside h]
  value := by rw [Value.ofData?_list, Value.ofData?_list, Rule.ofItems?_inside h, Rule.ofList?_inside h.rule]
  values := Value.ofItems?_inside h.ne_null h.ne_null' hreadable h.value xs ys
  field := by rw [FieldRef.ofData?, FieldRef.ofData?, Data.mapM_inside h.string]
  operator := rfl
  flag := rfl
  string := rfl
  ne_null := nofun
  ne_null' := nofun

/-- Trees that are read alike in a role. -/
def Role.Alike (d d' : Data) : Role → Prop
  | .rule => Rule.ofData? d = Rule.ofData? d'
  | .value => d ≠ .null ∧ d' ≠ .null ∧ Value.ofData? d = Value.ofData? d'
  | .values => Value.ofField? d = Value.ofField? d'
  | .anything => d.Alike d'

theorem Data.Alike.role {d d' : Data} (h : d.Alike d') : ∀ role : Role, role.Alike d d'
  | .rule => h.rule
  | .value => ⟨h.ne_null, h.ne_null', h.value⟩
  | .values => h.values
  | .anything => h

/-- Records that are read as the same rule are read alike in a role, if they are also read as the same operator where they are
read as anything. -/
theorem Role.alike_record {ms ms' : List (String × Data)} (h : Rule.ofData? (.record ms) = Rule.ofData? (.record ms'))
    (role : Role) (hoperator : role = .anything → Operator.ofData? (.record ms) = Operator.ofData? (.record ms')) :
    role.Alike (.record ms) (.record ms') := by
  cases role with
  | rule => exact h
  | value => exact ⟨nofun, nofun, by rw [Value.ofData?_record, Value.ofData?_record, h]⟩
  | values => rfl
  | anything => exact Data.alike_record h (hoperator rfl)

/-! ## Changes of spelling -/

theorem Data.readable_list_inside {d d' : Data} (h : d.readable = d'.readable) (xs ys : List Data) :
    (Data.list (xs ++ d :: ys)).readable = (Data.list (xs ++ d' :: ys)).readable := by
  rw [Bool.eq_iff_iff, Data.readable_list_iff, Data.readable_list_iff]
  simp only [List.forall_mem_append, List.forall_mem_cons, h]

theorem Data.readable_record_inside {key : String} {d d' : Data} (h : d.readable = d'.readable)
    (ms ns : List (String × Data)) :
    (Data.record (ms ++ (key, d) :: ns)).readable = (Data.record (ms ++ (key, d') :: ns)).readable := by
  rw [Bool.eq_iff_iff, Data.readable_record_iff, Data.readable_record_iff]
  simp only [List.forall_mem_append, List.forall_mem_cons, h]

/-- A change of spelling neither brings in a part without a value nor takes one away. -/
theorem Respelled.readable_eq {role : Role} {d d' : Data} (h : Respelled role d d') : d.readable = d'.readable := by
  induction h with
  | null xs ys =>
    rw [Bool.eq_iff_iff, Data.readable_list_iff, Data.readable_list_iff]
    simp only [List.forall_mem_append, List.forall_mem_cons]
    exact and_congr_right fun _ => and_iff_right rfl
  | single ms =>
    rw [Bool.eq_iff_iff, Data.readable_list_iff, List.forall_mem_singleton]
  | @number d text hd =>
    cases d with
    | int i => rfl
    | float x => rfl
    | _ => cases hd
  | truth b => rfl
  | omitted hd _ _ =>
    rw [Bool.eq_iff_iff, Data.readable_record_iff, Data.readable_record_iff]
    simp only [List.forall_mem_append, List.forall_mem_cons]
    exact and_congr_right fun _ => and_iff_right (Rule.readable_of_mem_defaults hd)
  | values _ ih => exact Data.readable_record_inside ih _ _
  | entry _ ih => exact Data.readable_list_inside ih _ _
  | listed _ ih => exact Data.readable_list_inside ih [_, _] _
  | group _ _ ih => exact Data.readable_list_inside ih _ _
  | alone _ _ _ ih => exact ih
  | item _ ih => exact Data.readable_list_inside ih _ _

/-- A change of spelling is read alike in the role of the tree it is made in. -/
theorem Respelled.alike {role : Role} {d d' : Data} (h : Respelled role d d') : role.Alike d d' := by
  induction h with
  | null xs ys =>
    have hnull : Value.ofItems? (.null :: ys) = Value.ofItems? ys := rfl
    exact Value.ofItems?_append_congr hnull xs
  | single ms =>
    refine ⟨nofun, nofun, ?_⟩
    rw [Value.ofData?_record, Value.ofData?_list, Rule.ofList?_eq_mapM, List.mapM_cons]
    cases Rule.ofData? (.record ms) <;> rfl
  | @number d text hd =>
    refine ⟨?_, nofun, ?_⟩
    · rintro rfl
      cases hd
    · cases d with
      | int i => exact congrArg (Option.map Value.literal) hd
      | float x => exact congrArg (Option.map Value.literal) hd
      | _ => cases hd
  | truth b => exact ⟨nofun, nofun, rfl⟩
  | omitted hd hkey hrole =>
    refine Role.alike_record (Rule.ofData?_record_insert hd hkey) _ fun hr => ?_
    rw [hrole hr, Operator.ofData?_record_eq_none (Rule.lookup_constants_of_mem_defaults hd)]
  | values _ ih =>
    refine Role.alike_record (Rule.ofData?_record_values ih _ _) _ fun _ => ?_
    rw [Operator.ofData?_record_eq_none rfl, Operator.ofData?_record_eq_none rfl]
  | entry hd ih => exact Value.ofItems?_inside ih.1 ih.2.1 hd.readable_eq ih.2.2 _ _
  | @listed f o d d' rest _ ih =>
    have hd : Value.ofField? d = Value.ofField? d' := ih
    show Rule.ofItems? _ = Rule.ofItems? _
    match rest with
    | [] => rw [Rule.ofItems?, Rule.ofItems?, hd]
    | [k] => rw [Rule.ofItems?, Rule.ofItems?, hd]
    | _ :: _ :: _ => rfl
  | group _ hlist ih =>
    refine ⟨nofun, nofun, ?_⟩
    rw [Value.ofData?_list, Value.ofData?_list, ← Rule.ofList?_inside ih]
    rcases hlist with hgroup | ⟨hnone, hnone'⟩
    · obtain ⟨rules, hrules⟩ := Option.isSome_iff_exists.1 hgroup
      rw [hrules]
      rfl
    · rw [hnone, hnone']
  | alone _ hnone hnone' ih =>
    have hitems : Rule.ofItems? _ = Rule.ofItems? _ := ih
    refine ⟨nofun, nofun, ?_⟩
    rw [Value.ofData?_list, Value.ofData?_list, hnone, hnone', hitems]
  | item hd ih => exact (Data.alike_list ih hd.readable_eq _ _).role _

/-- A value that is one rule is read alike with a change in it exactly if the change does not make it a group. -/
theorem Respelled.value_eq_iff {items items' : List Data} (h : Respelled .rule (.list items) (.list items'))
    (hrule : (Rule.ofItems? items).isSome = true) (hnone : Rule.ofList? items = none) :
    Value.ofData? (.list items) = Value.ofData? (.list items') ↔ Rule.ofList? items' = none := by
  refine ⟨fun heq => ?_, fun hnone' => (alone h hnone hnone').alike.2.2⟩
  obtain ⟨r, hr⟩ := Option.isSome_iff_exists.1 hrule
  cases hrules : Rule.ofList? items' with
  | none => rfl
  | some rules =>
    -- the group would hold just the rule, but a list with values among its fields has three items at least
    rw [Value.ofData?_list, Value.ofData?_list, hnone, hrules, hr] at heq
    obtain rfl : rules = [r] := by simpa using heq.symm
    cases h with
    | listed _ => simp [Rule.ofList?, Option.bind_eq_some_iff] at hrules
    | item hd =>
      have hd : Data.Alike _ _ := hd.alike
      rw [Rule.ofList?_inside hd.rule, hrules] at hnone
      cases hnone

/-- Trees that differ by changes of spelling, at one place or at many, stand for the same rule or for none, and so do their texts. -/
theorem Rule.ofData?_eq_of_respelled {d d' : Data} (h : Relation.EqvGen (Respelled .rule) d d') :
    Rule.ofData? d = Rule.ofData? d' ∧ ∀ text text', Json.read? text = some d → Json.read? text' = some d' →
      (Json.read? text).bind Rule.ofData? = (Json.read? text').bind Rule.ofData? := by
  have hrule : Rule.ofData? d = Rule.ofData? d' := by
    induction h with
    | rel d d' h => exact h.alike
    | refl d => rfl
    | symm d d' _ ih => exact ih.symm
    | trans d d' d'' _ _ ih ih' => exact ih.trans ih'
  refine ⟨hrule, fun text text' htext htext' => ?_⟩
  rw [htext, htext', Option.bind_some, Option.bind_some, hrule]

/-- A number, a group whose second rule has the name of an operator for its only key, and a rule that is a list of its fields, each
spelled in another way. -/
theorem Rule.ofData?_respelled_group :
    Rule.ofData? (.record [("operator", .null), ("values", .list [.int 12,
        .list [.record [], .record [("AND", .null), ("field", .null)]],
        .list [.string "city", .string "OR", .list [.null, .list [.record []]]]])]) =
      Rule.ofData? (.record [("values", .list [.string "12", .list [.record [], .record [("AND", .null)]],
        .list [.string "city", .string "OR", .list [.record []]]])]) := by
  have hinside : ∀ {d d' : Data} (xs ys : List Data), Respelled .value d d' →
      Respelled .rule (.record [("values", .list (xs ++ d :: ys))]) (.record [("values", .list (xs ++ d' :: ys))]) :=
    fun xs ys h => @Respelled.values .rule _ _ [] [] (@Respelled.entry _ _ xs ys h)
  have hoperator := @Respelled.omitted .rule "operator" .null [] [("values", .list [.int 12,
    .list [.record [], .record [("AND", .null), ("field", .null)]],
    .list [.string "city", .string "OR", .list [.null, .list [.record []]]]])]
    (List.mem_cons_of_mem _ List.mem_cons_self) (by decide) nofun
  have hnumber := hinside [] [.list [.record [], .record [("AND", .null), ("field", .null)]],
    .list [.string "city", .string "OR", .list [.null, .list [.record []]]]] (@Respelled.number (.int 12) "12" rfl)
  have hgroup := hinside [.string "12"] [.list [.string "city", .string "OR", .list [.null, .list [.record []]]]]
    (@Respelled.group _ _ [.record []] []
      (@Respelled.omitted .rule "field" .null [("AND", .null)] [] List.mem_cons_self (by decide) nofun) (Or.inl rfl))
  have hnull := hinside [.string "12", .list [.record [], .record [("AND", .null)]]] []
    (.alone (@Respelled.listed (.string "city") (.string "OR") _ _ [] (.null [] [.list [.record []]])) rfl rfl)
  have hsingle := hinside [.string "12", .list [.record [], .record [("AND", .null)]]] []
    (.alone (@Respelled.listed (.string "city") (.string "OR") _ _ [] (@Respelled.entry _ _ [] [] (.single []))) rfl rfl)
  exact (Rule.ofData?_eq_of_respelled (.trans _ _ _ (.rel _ _ hoperator) (.trans _ _ _ (.rel _ _ hnumber)
    (.trans _ _ _ (.rel _ _ hgroup) (.trans _ _ _ (.rel _ _ hnull) (.symm _ _ (.rel _ _ hsingle))))))).1

/-- Where the name of an operator is the only key that is left to a record, a list that was one rule becomes a group: its last item is
then a rule that has this operator. -/
theorem Rule.ofData?_operator_respelled_ne :
    let spelled (ms : List (String × Data)) : Data :=
      .record [("values", .list [.list [.list [], .record [("OR", .null)], .list [.string "a", .record ms]]])]
    Rule.ofData? (spelled [("AND", .null), ("field", .null)]) =
        some { values := [.group [
          { field := some (.many []), operator := some .or, values := [.literal "a", .group [{}]] }]] } ∧
      Rule.ofData? (spelled [("AND", .null)]) =
        some { values := [.group [{}, {}, { field := some (.one "a"), operator := some .and }]] } ∧
      Rule.ofData? (spelled [("AND", .null), ("field", .null)]) ≠ Rule.ofData? (spelled [("AND", .null)]) :=
  ⟨rfl, rfl, nofun⟩

end SearchRules
