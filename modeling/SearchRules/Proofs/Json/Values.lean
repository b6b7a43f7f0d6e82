import SearchRules.Proofs.Data.Decode
import SearchRules.Proofs.Data.Trees

/-!
# Trees as JSON values

A JSON value is a tree too, but the members of an object have no order, and a number that is not finite is null. `ValueOf` relates a
tree to each of the trees its value may be given as. A tree whose numbers are finite is one of them (`valueOf_self`), and a field is
read from any of them, or left to its default where its member is taken out (`Carries.field?_without`).
-/

namespace SearchRules

/-- A record without its members under some keys. -/
def Data.without (removed : List String) : Data → Data
  | .record ms => .record (ms.filter fun m => m.1 ∉ removed)
  | d => d

/-- A record with the value under a key changed. -/
def Data.mapMember (key : String) (f : Data → Data) : Data → Data
  | .record ms => .record (ms.map fun m => if m.1 = key then (m.1, f m.2) else m)
  | d => d

namespace Json

mutual

/-- A tree, and a tree that may be its value. -/
inductive ValueOf : Data → Data → Prop where
  | null : ValueOf .null .null
  | bool (b : Bool) : ValueOf (.bool b) (.bool b)
  | int (i : Int) : ValueOf (.int i) (.int i)
  | finite {x : Binary64} : x.isFinite = true → ValueOf (.float x) (.float x)
  | notFinite {x : Binary64} : x.isFinite = false → ValueOf (.float x) .null
  | string (s : String) : ValueOf (.string s) (.string s)
  | list {ds ds' : List Data} : ItemsOf ds ds' → ValueOf (.list ds) (.list ds')
  /-- The members come in any order. -/
  | record {ms ms' ns : List (String × Data)} : MembersOf ms ms' → ms'.Perm ns → ValueOf (.record ms) (.record ns)

/-- Some trees, and their values in the same order. -/
inductive ItemsOf : List Data → List Data → Prop where
  | nil : ItemsOf [] []
  | cons {d d' : Data} {ds ds' : List Data} : ValueOf d d' → ItemsOf ds ds' → ItemsOf (d :: ds) (d' :: ds')

/-- Some members, and their values under the same keys in the same order. -/
inductive MembersOf : List (String × Data) → List (String × Data) → Prop where
  | nil : MembersOf [] []
  | cons {key : String} {d d' : Data} {ms ms' : List (String × Data)} :
      ValueOf d d' → MembersOf ms ms' → MembersOf ((key, d) :: ms) ((key, d') :: ms')

end

/-! ## Trees that are their own values -/

/-- Whether a part of a tree that is neither a list nor a record is its own value. -/
def isValue : Data → Bool
  | .float x => x.isFinite
  | .unreadable | .invalid => false
  | _ => true

theorem allLeaves_strings (ss : List String) : (Data.strings ss).allLeaves isValue = true := by
  rw [Data.strings, Data.allLeaves_list_iff, List.forall_mem_map]
  exact fun _ _ => rfl

mutual

/-- A tree is a value of its own if all its leaves are. -/
theorem valueOf_self : ∀ d : Data, d.allLeaves isValue = true → ValueOf d d
  | .null, _ => .null
  | .bool b, _ => .bool b
  | .int i, _ => .int i
  | .float _, h => .finite h
  | .string s, _ => .string s
  | .list ds, h => .list (itemsOf_self ds ((Data.allLeaves_list_iff _ ds).1 h))
  | .record ms, h => .record (membersOf_self ms ((Data.allLeaves_record_iff _ ms).1 h)) (List.Perm.refl ms)

theorem itemsOf_self : ∀ ds : List Data, (∀ d ∈ ds, d.allLeaves isValue = true) → ItemsOf ds ds
  | [], _ => .nil
  | d :: ds, h => .cons (valueOf_self d (List.forall_mem_cons.1 h).1) (itemsOf_self ds (List.forall_mem_cons.1 h).2)

theorem membersOf_self : ∀ ms : List (String × Data), (∀ m ∈ ms, m.2.allLeaves isValue = true) → MembersOf ms ms
  | [], _ => .nil
  | (_, d) :: ms, h => .cons (valueOf_self d (List.forall_mem_cons.1 h).1) (membersOf_self ms (List.forall_mem_cons.1 h).2)

end

/-! ## Values of strings and of records -/

variable {ms ns : List (String × Data)} {key : String} {d : Data}

theorem valueOf_string {s : String} (h : ValueOf (.string s) d) : d = .string s := by
  cases h
  rfl

theorem itemsOf_strings : ∀ (ss : List String) (ds : List Data), ItemsOf (ss.map .string) ds → ds = ss.map .string
  | [], _, .nil => rfl
  | s :: ss, _, .cons (.string _) h => by rw [itemsOf_strings ss _ h, List.map_cons]

theorem valueOf_strings {ss : List String} (h : ValueOf (Data.strings ss) d) : d = Data.strings ss := by
  cases h with
  | list h => rw [itemsOf_strings ss _ h, Data.strings]

/-! ### Read back -/

theorem string?_of_value {s : String} (h : ValueOf (.string s) d) : d.string? = some s := by
  rw [valueOf_string h, Data.string?]

theorem strings?_of_value {ss : List String} (h : ValueOf (Data.strings ss) d) : Data.list? Data.string? d = some ss := by
  rw [valueOf_strings h, Data.list?_strings]

theorem bool?_of_value {b : Bool} (h : ValueOf (.bool b) d) : d.bool? = some b := by
  cases h
  rfl

theorem uint32?_of_value {n : UInt32} (h : ValueOf (.int n.toNat) d) : d.uint32? = some n := by
  cases h
  exact Data.uint32?_int n

theorem uint64?_of_value {n : UInt64} (h : ValueOf (.int n.toNat) d) : d.uint64? = some n := by
  cases h
  exact Data.uint64?_int n

/-- Only a finite number has a value it can be read from. -/
theorem float?_of_value {x : Binary64} (hx : x.isFinite = true) (h : ValueOf (.float x) d) : d.float? = some x := by
  cases h with
  | finite _ => rfl
  | notFinite hx' => exact absurd (hx.symm.trans hx') nofun

/-- A constant is read from the value of its name. -/
theorem constant?_of_value {α : Type} {constants : List (String × α)} {name : String} {a : α}
    (hname : constants.lookup name = some a) (h : ValueOf (.string name) d) : Data.constant? .json constants d = some a := by
  rw [valueOf_string h, Data.constant?, hname]

theorem exists_list_of_valueOf {ds : List Data} (h : ValueOf (.list ds) d) : ∃ ds', d = .list ds' ∧ ItemsOf ds ds' := by
  cases h with
  | list h => exact ⟨_, rfl, h⟩

theorem MembersOf.eq_nil (h : MembersOf [] ns) : ns = [] := by
  cases h
  rfl

theorem MembersOf.exists_cons (h : MembersOf ((key, d) :: ms) ns) :
    ∃ d' ms', ns = (key, d') :: ms' ∧ ValueOf d d' ∧ MembersOf ms ms' := by
  cases h with
  | cons hd hms => exact ⟨_, _, rfl, hd, hms⟩

theorem MembersOf.keys_eq : ∀ {ms ms' : List (String × Data)}, MembersOf ms ms' → ms'.map Prod.fst = ms.map Prod.fst
  | _, _, .nil => rfl
  | _, _, .cons _ h => by rw [List.map_cons, List.map_cons, h.keys_eq]

theorem MembersOf.exists_of_mem : ∀ {ms ms' : List (String × Data)}, MembersOf ms ms' → (key, d) ∈ ms →
    ∃ d', (key, d') ∈ ms' ∧ ValueOf d d'
  | _, _, .nil, hmem => absurd hmem List.not_mem_nil
  | _, _, .cons hd h, hmem => by
    rcases List.mem_cons.1 hmem with heq | hmem
    · cases heq
      exact ⟨_, List.mem_cons_self, hd⟩
    · obtain ⟨d', hd', hvalue⟩ := h.exists_of_mem hmem
      exact ⟨d', List.mem_cons_of_mem _ hd', hvalue⟩

/-- A record that has values of some members. -/
structure Carries (ms ns : List (String × Data)) : Prop where
  /-- No key of the record occurs twice. -/
  nodup : (ns.map Prod.fst).Nodup
  /-- The value of a member stands under its key. -/
  value : ∀ {key d}, (key, d) ∈ ms → ∃ d', (key, d') ∈ ns ∧ ValueOf d d'

/-- The value of a record of distinct keys is a record with the same keys, and it has values of all members. -/
theorem exists_record_of_valueOf (hnodup : (ms.map Prod.fst).Nodup) (h : ValueOf (.record ms) d) :
    ∃ ns, d = .record ns ∧ (ns.map Prod.fst).Perm (ms.map Prod.fst) ∧ Carries ms ns := by
  cases h with
  | record hms hperm =>
    have hkeys := (hperm.map Prod.fst).symm
    rw [hms.keys_eq] at hkeys
    refine ⟨_, rfl, hkeys, hkeys.nodup_iff.2 hnodup, fun hmem => ?_⟩
    obtain ⟨d', hd', hvalue⟩ := hms.exists_of_mem hmem
    exact ⟨d', hperm.subset hd', hvalue⟩

end Json

/-! ## Members taken out -/

namespace Data

variable {ms : List (String × Data)} {key : String} {d : Data}

theorem keys_mapMember (key : String) (f : Data → Data) (ms : List (String × Data)) :
    (ms.map fun m => if m.1 = key then (m.1, f m.2) else m).map Prod.fst = ms.map Prod.fst := by
  rw [List.map_map]
  refine List.map_congr_left fun m _ => ?_
  rw [Function.comp_apply]
  split
  · rfl
  · rfl

/-- The member under the key is changed. -/
theorem mem_mapMember_self (f : Data → Data) (h : (key, d) ∈ ms) :
    (key, f d) ∈ ms.map fun m => if m.1 = key then (m.1, f m.2) else m :=
  List.mem_map.2 ⟨_, h, if_pos rfl⟩

/-- The other members stay. -/
theorem mem_mapMember_of_ne {key' : String} (hne : key ≠ key') (f : Data → Data) (h : (key, d) ∈ ms) :
    (key, d) ∈ ms.map fun m => if m.1 = key' then (m.1, f m.2) else m :=
  List.mem_map.2 ⟨_, h, if_neg hne⟩

theorem nodup_keys_filter (h : (ms.map Prod.fst).Nodup) (p : String × Data → Bool) : ((ms.filter p).map Prod.fst).Nodup :=
  (List.filter_sublist.map Prod.fst).nodup h

/-- What is left of a record of known keys, none of which occurs twice, has its members for known members. -/
theorem members?_without {convention : Convention} {keys : List String} (removed : List String) (hkeys : ms.map Prod.fst ⊆ keys)
    (hnodup : (ms.map Prod.fst).Nodup) :
    ((Data.record ms).without removed).members? convention keys = some (ms.filter fun m => m.1 ∉ removed) :=
  members?_of_nodup (List.Subset.trans (List.filter_sublist.map Prod.fst).subset hkeys) (nodup_keys_filter hnodup _)

/-- A field is read from its member, unless the member is taken out and leaves it to the default. -/
theorem field?_without {α : Type} {a : α} {read : Data → Option α} (removed : List String) (hnodup : (ms.map Prod.fst).Nodup)
    (hmem : (key, d) ∈ ms) (hread : read d = some a) (dflt : α) :
    field? key dflt read (ms.filter fun m => m.1 ∉ removed) = some (if key ∈ removed then dflt else a) := by
  by_cases h : key ∈ removed
  · have hout : key ∉ (ms.filter fun m => m.1 ∉ removed).map Prod.fst := by
      intro hin
      obtain ⟨m, hm, rfl⟩ := List.mem_map.1 hin
      exact of_decide_eq_true (List.mem_filter.1 hm).2 h
    rw [if_pos h, field?_of_notMem hout]
  · have hin : (key, d) ∈ ms.filter fun m => m.1 ∉ removed := List.mem_filter.2 ⟨hmem, decide_eq_true h⟩
    rw [if_neg h, field?_of_mem (nodup_keys_filter hnodup _) hin, hread]

end Data

namespace Json

variable {ms ns : List (String × Data)} {key : String} {d : Data}

/-- With the value of one member changed, a record still has its keys and values of the other members, and of this one the changed
value. -/
theorem exists_record_mapMember (hnodup : (ms.map Prod.fst).Nodup) (h : ValueOf (.record ms) d) (key : String) (f : Data → Data) :
    ∃ ns, d.mapMember key f = .record ns ∧ (ns.map Prod.fst).Perm (ms.map Prod.fst) ∧
      (∀ others ⊆ ms, key ∉ others.map Prod.fst → Carries others ns) ∧
      ∀ e, (key, e) ∈ ms → ∃ e', (key, f e') ∈ ns ∧ ValueOf e e' := by
  obtain ⟨ns, rfl, hkeys, hcarries⟩ := exists_record_of_valueOf hnodup h
  rw [← Data.keys_mapMember key f] at hkeys
  refine ⟨_, rfl, hkeys, fun others hsub hout => ⟨hkeys.nodup_iff.2 hnodup, fun hmem => ?_⟩, fun e hmem => ?_⟩
  · obtain ⟨e', he', hvalue⟩ := hcarries.value (hsub hmem)
    have hne := ne_of_mem_of_not_mem (List.mem_map_of_mem hmem) hout
    exact ⟨e', Data.mem_mapMember_of_ne hne f he', hvalue⟩
  · obtain ⟨e', he', hvalue⟩ := hcarries.value hmem
    exact ⟨e', Data.mem_mapMember_self f he', hvalue⟩

/-- A field is read from the value of the member it was written as, unless that is taken out. -/
theorem Carries.field?_without (h : Carries ms ns) (removed : List String) {α : Type} {a : α} {read : Data → Option α} (n : Nat)
    (hn : ms[n]? = some (key, d)) (hread : ∀ d', ValueOf d d' → read d' = some a) (dflt : α) :
    Data.field? key dflt read (ns.filter fun m => m.1 ∉ removed) = some (if key ∈ removed then dflt else a) := by
  obtain ⟨d', hd', hvalue⟩ := h.value (List.mem_of_getElem? hn)
  exact Data.field?_without removed h.nodup hd' (hread d' hvalue) dflt

end Json

end SearchRules
