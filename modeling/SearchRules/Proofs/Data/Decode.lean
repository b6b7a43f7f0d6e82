import SearchRules.Data.Decode
import SearchRules.Proofs.Data.Keys

/-!
# Fields read back

A record that is written member by member is read back field by field: no key occurs twice, every key is known, and the reader of a
field finds the member that was written for it, or its default where none was.
-/

namespace SearchRules.Data

variable {α : Type} {ms : List (String × Data)} {key : String}

theorem distinctKeys_eq_true (h : (ms.map Prod.fst).Nodup) : distinctKeys ms = true := by
  induction ms with
  | nil => rfl
  | cons m ms ih =>
    rw [List.map_cons, List.nodup_cons] at h
    rw [distinctKeys, ih h.2, Bool.and_true, Bool.not_eq_true', Bool.eq_false_iff]
    exact fun hmem => h.1 (List.contains_iff_mem.1 hmem)

/-- A record of known keys, none of which occurs twice, has its members for known members. -/
theorem members?_of_nodup {convention : Convention} {keys : List String} (hkeys : ms.map Prod.fst ⊆ keys)
    (hnodup : (ms.map Prod.fst).Nodup) : (Data.record ms).members? convention keys = some ms := by
  have hall : ∀ m ∈ ms, keys.contains m.1 = true :=
    fun m hm => List.contains_iff_mem.2 (hkeys (List.mem_map_of_mem hm))
  have hpartition : ms.partition (fun m => keys.contains m.1) = (ms, []) := by
    rw [List.partition_eq_filter_filter, List.filter_eq_self.2 hall, Prod.mk.injEq]
    refine ⟨rfl, List.filter_eq_nil_iff.2 fun m hm => ?_⟩
    rw [Function.comp_apply, hall m hm]
    decide
  rw [members?, hpartition]
  simp [distinctKeys_eq_true hnodup]

/-- A record of known keys in their order has its members for known members. -/
theorem members?_record {convention : Convention} {keys : List String} (hkeys : (ms.map Prod.fst).Sublist keys)
    (hnodup : keys.Nodup) : (Data.record ms).members? convention keys = some ms :=
  members?_of_nodup hkeys.subset (hnodup.sublist hkeys)

theorem keys_optional_append_sublist {keys : List String} (h : (ms.map Prod.fst).Sublist keys) (key : String) (encode : α → Data)
    (value : Option α) : ((optional key encode value ++ ms).map Prod.fst).Sublist (key :: keys) := by
  rw [List.map_append]
  exact (keys_optional_sublist key encode value).append h

@[simp]
theorem field?_cons_self (dflt : α) (read : Data → Option α) (d : Data) : field? key dflt read ((key, d) :: ms) = read d := by
  simp [field?]

theorem field?_cons_ne {key' : String} (h : key ≠ key') (dflt : α) (read : Data → Option α) (d : Data) :
    field? key dflt read ((key', d) :: ms) = field? key dflt read ms := by
  rw [field?, field?, List.lookup_cons, beq_false_of_ne h]

theorem field?_of_notMem (h : key ∉ ms.map Prod.fst) (dflt : α) (read : Data → Option α) :
    field? key dflt read ms = some dflt := by
  rw [field?, lookup_of_notMem h]

/-- A field is read from the member of its key, wherever that stands. -/
theorem field?_of_mem {d : Data} (hnodup : (ms.map Prod.fst).Nodup) (h : (key, d) ∈ ms) (dflt : α) (read : Data → Option α) :
    field? key dflt read ms = read d := by
  induction ms with
  | nil => cases h
  | cons m ms ih =>
    rw [List.map_cons, List.nodup_cons] at hnodup
    rcases List.mem_cons.1 h with rfl | h
    · exact field?_cons_self dflt read d
    · have hne : key ≠ m.1 := by
        rintro rfl
        exact hnodup.1 (List.mem_map.2 ⟨_, h, rfl⟩)
      rw [← Prod.eta m, field?_cons_ne hne, ih hnodup.2 h]

theorem nullable?_of_read {read : Data → Option α} {a : α} {d : Data} (h : read d = some a) (hnull : d ≠ .null) :
    nullable? read d = some (some a) := by
  cases d with
  | null => exact absurd rfl hnull
  | _ => simp [nullable?, h]

/-- A field that is left out when it has no value is read back. -/
theorem field?_optional {encode : α → Data} {read : Data → Option α} (hread : ∀ a, read (encode a) = some a)
    (hnull : ∀ a, encode a ≠ .null) (hms : key ∉ ms.map Prod.fst) (value : Option α) :
    field? key none (nullable? read) (optional key encode value ++ ms) = some value := by
  cases value with
  | none => exact field?_of_notMem hms none _
  | some a => exact (field?_cons_self none _ _).trans (nullable?_of_read (hread a) (hnull a))

theorem field?_optional_nil {encode : α → Data} {read : Data → Option α} (hread : ∀ a, read (encode a) = some a)
    (hnull : ∀ a, encode a ≠ .null) (key : String) (value : Option α) :
    field? key none (nullable? read) (optional key encode value) = some value := by
  rw [← List.append_nil (optional key encode value)]
  exact field?_optional hread hnull List.not_mem_nil value

theorem field?_optional_ne {β : Type} {key' : String} (h : key ≠ key') (dflt : β) (read : Data → Option β) (encode : α → Data)
    (value : Option α) : field? key dflt read (optional key' encode value ++ ms) = field? key dflt read ms := by
  cases value with
  | none => rfl
  | some a => exact field?_cons_ne h dflt read _

theorem mapM_map (encode : α → Data) {read : Data → Option α} (h : ∀ a, read (encode a) = some a) (as : List α) :
    (as.map encode).mapM read = some as := by
  induction as with
  | nil => rfl
  | cons a as ih => simp [h, ih]

theorem list?_map (encode : α → Data) {read : Data → Option α} (h : ∀ a, read (encode a) = some a) (as : List α) :
    list? read (.list (as.map encode)) = some as :=
  mapM_map encode h as

theorem list?_strings (ss : List String) : list? string? (strings ss) = some ss :=
  list?_map Data.string (fun _ => rfl) ss

theorem nat?_int {bound n : Nat} (h : n < bound) : nat? bound (.int n) = some n := by
  rw [nat?, if_pos ⟨by omega, by omega⟩, Int.toNat_natCast]

theorem uint64?_int (n : UInt64) : uint64? (.int n.toNat) = some n := by
  rw [uint64?, nat?_int n.toNat_lt, Option.map_some, UInt64.ofNat_toNat]

theorem uint32?_int (n : UInt32) : uint32? (.int n.toNat) = some n := by
  rw [uint32?, nat?_int n.toNat_lt, Option.map_some, UInt32.ofNat_toNat]

end SearchRules.Data
