import SearchRules.Data.Basic

/-!
# Records without repeated keys

A tree may be written with two members of one key in a record, but who reads it back keeps one of them. `Data.KeysOnce` asks that no
record at any depth repeats a key, and `lastWins_eq_self_iff` says that these are just the trees of which nothing is lost.
-/

namespace SearchRules.Data

mutual

/-- No record in a tree has two members of one key. -/
def KeysOnce : Data → Prop
  | .list items => KeysOnceItems items
  | .record members => (members.map Prod.fst).Nodup ∧ KeysOnceMembers members
  | _ => True

/-- No record in any of some trees has two members of one key. -/
def KeysOnceItems : List Data → Prop
  | [] => True
  | d :: ds => d.KeysOnce ∧ KeysOnceItems ds

/-- No record in the values of some members has two members of one key. -/
def KeysOnceMembers : List (String × Data) → Prop
  | [] => True
  | (_, d) :: ms => d.KeysOnce ∧ KeysOnceMembers ms

end

theorem keysOnceItems_iff (ds : List Data) : KeysOnceItems ds ↔ ∀ d ∈ ds, d.KeysOnce := by
  induction ds with
  | nil => simp [KeysOnceItems]
  | cons d ds ih => simp [KeysOnceItems, ih]

theorem keysOnceMembers_iff (ms : List (String × Data)) : KeysOnceMembers ms ↔ ∀ m ∈ ms, m.2.KeysOnce := by
  induction ms with
  | nil => simp [KeysOnceMembers]
  | cons m ms ih => simp [KeysOnceMembers, ih]

theorem keysOnce_list (ds : List Data) : (Data.list ds).KeysOnce ↔ ∀ d ∈ ds, d.KeysOnce := by
  rw [KeysOnce, keysOnceItems_iff]

theorem keysOnce_record (ms : List (String × Data)) :
    (Data.record ms).KeysOnce ↔ (ms.map Prod.fst).Nodup ∧ ∀ m ∈ ms, m.2.KeysOnce := by
  rw [KeysOnce, keysOnceMembers_iff]

@[simp]
theorem keysOnce_strings (ss : List String) : (strings ss).KeysOnce := by
  rw [strings, keysOnce_list]
  intro d hd
  obtain ⟨s, -, rfl⟩ := List.mem_map.1 hd
  trivial

/-! ## Members that may be left out -/

theorem keysOnceMembers_append (ms ns : List (String × Data)) :
    KeysOnceMembers (ms ++ ns) ↔ KeysOnceMembers ms ∧ KeysOnceMembers ns := by
  simp only [keysOnceMembers_iff, List.forall_mem_append]

theorem keysOnceMembers_optional {α : Type} (key : String) (encode : α → Data) (a : Option α) :
    KeysOnceMembers (optional key encode a) ↔ ∀ x, a = some x → (encode x).KeysOnce := by
  cases a <;> simp [optional, KeysOnceMembers]

theorem keysOnceMembers_optionalList (key : String) (ds : List Data) :
    KeysOnceMembers (optionalList key ds) ↔ ∀ d ∈ ds, d.KeysOnce := by
  cases ds <;> simp [optionalList, KeysOnceMembers, keysOnce_list]

theorem keys_optional_sublist {α : Type} (key : String) (encode : α → Data) (a : Option α) :
    ((optional key encode a).map Prod.fst).Sublist [key] := by
  cases a with
  | none => exact List.nil_sublist _
  | some a => exact List.Sublist.refl _

theorem keys_optionalList_sublist (key : String) (ds : List Data) : ((optionalList key ds).map Prod.fst).Sublist [key] := by
  cases ds with
  | nil => exact List.nil_sublist _
  | cons d ds => exact List.Sublist.refl _

/-! ## Members by their keys -/

theorem notMem_of_nodup_append_cons {β : Type} {xs ys : List β} {b : β} (h : (xs ++ b :: ys).Nodup) : b ∉ xs := by
  rw [List.nodup_append] at h
  exact fun hmem => h.2.2 b hmem b List.mem_cons_self rfl

variable {α : Type} {key : String} {a b : α} {ms : List (String × α)}

theorem lookup_of_notMem (h : key ∉ ms.map Prod.fst) : ms.lookup key = none := by
  induction ms with
  | nil => rfl
  | cons m ms ih =>
    rw [List.map_cons, List.mem_cons, not_or] at h
    rw [List.lookup_cons, beq_false_of_ne h.1, ih h.2]

theorem lookup_append_singleton (h : key ∉ ms.map Prod.fst) : (ms ++ [(key, a)]).lookup key = some a := by
  induction ms with
  | nil => rw [List.nil_append, List.lookup_cons, beq_self_eq_true]
  | cons m ms ih =>
    rw [List.map_cons, List.mem_cons, not_or] at h
    rw [List.cons_append, List.lookup_cons, beq_false_of_ne h.1, ih h.2]

theorem putMember_of_notMem (h : key ∉ ms.map Prod.fst) : putMember key a ms = ms ++ [(key, a)] := by
  induction ms with
  | nil => rfl
  | cons m ms ih =>
    simp only [List.map_cons, List.mem_cons, not_or] at h
    rw [putMember, if_neg (Ne.symm h.1), ih h.2, List.cons_append]

theorem putMember_append_singleton (h : key ∉ ms.map Prod.fst) : putMember key b (ms ++ [(key, a)]) = ms ++ [(key, b)] := by
  induction ms with
  | nil => rw [List.nil_append, putMember, if_pos rfl, List.nil_append]
  | cons m ms ih =>
    rw [List.map_cons, List.mem_cons, not_or] at h
    rw [List.cons_append, putMember, if_neg (Ne.symm h.1), ih h.2, List.cons_append]

/-- A member put among others brings its key, and the others keep theirs. -/
theorem mem_keys_putMember (k : String) : k ∈ (putMember key a ms).map Prod.fst ↔ k ∈ ms.map Prod.fst ∨ k = key := by
  induction ms with
  | nil => simp [putMember]
  | cons m ms ih =>
    rw [putMember]
    by_cases h : m.1 = key
    · rw [if_pos h, List.map_cons, List.map_cons, List.mem_cons]
      exact ⟨Or.inl, fun hk => hk.elim id fun hkey => Or.inl (hkey.trans h.symm)⟩
    · rw [if_neg h, List.map_cons, List.map_cons, List.mem_cons, List.mem_cons, ih, or_assoc]

theorem nodup_keys_putMember (h : (ms.map Prod.fst).Nodup) : ((putMember key a ms).map Prod.fst).Nodup := by
  induction ms with
  | nil => simp [putMember]
  | cons m ms ih =>
    rw [List.map_cons, List.nodup_cons] at h
    rw [putMember]
    by_cases hk : m.1 = key
    · rw [if_pos hk, List.map_cons, List.nodup_cons]
      exact h
    · rw [if_neg hk, List.map_cons, List.nodup_cons, mem_keys_putMember]
      exact ⟨fun hm => hm.elim h.1 hk, ih h.2⟩

/-! ## Reading back -/

theorem lastWinsItems_eq_map (ds : List Data) : lastWinsItems ds = ds.map lastWins := by
  induction ds with
  | nil => rfl
  | cons d ds ih => rw [lastWinsItems, List.map_cons, ih]

/-- What is read back never repeats a key. -/
theorem nodup_keys_lastWinsMembers (ms : List (String × Data)) :
    ∀ kept, (kept.map Prod.fst).Nodup → ((lastWinsMembers kept ms).map Prod.fst).Nodup := by
  induction ms with
  | nil => intro kept h; exact h
  | cons m ms ih =>
    intro kept h
    rw [lastWinsMembers]
    exact ih _ (nodup_keys_putMember h)

/-- Members that do not repeat a key are all kept. -/
theorem lastWinsMembers_of_nodup (ms : List (String × Data)) :
    ∀ kept, ((kept ++ ms).map Prod.fst).Nodup → lastWinsMembers kept ms = kept ++ ms.map fun m => (m.1, m.2.lastWins) := by
  induction ms with
  | nil => intro kept _; simp [lastWinsMembers]
  | cons m ms ih =>
    intro kept h
    have hnew : m.1 ∉ kept.map Prod.fst := by
      rw [List.map_append, List.map_cons] at h
      exact notMem_of_nodup_append_cons h
    rw [lastWinsMembers, putMember_of_notMem hnew, ih]
    · simp
    · simpa using h

mutual

/-- Reading a tree back loses nothing exactly when none of its records repeats a key. -/
theorem lastWins_eq_self_iff : ∀ d : Data, d.lastWins = d ↔ d.KeysOnce
  | .list ds => by
    rw [lastWins, lastWinsItems_eq_map, Data.list.injEq, keysOnce_list]
    exact map_lastWins_eq_self_iff ds
  | .record ms => by
    rw [lastWins, Data.record.injEq, keysOnce_record, ← forall_lastWins_eq_self_iff ms]
    have hkept := lastWinsMembers_of_nodup ms []
    rw [List.nil_append, List.nil_append] at hkept
    constructor
    · intro h
      have hnodup : (ms.map Prod.fst).Nodup := h ▸ nodup_keys_lastWinsMembers ms [] List.nodup_nil
      refine ⟨hnodup, fun m hm => ?_⟩
      rw [hkept hnodup] at h
      have hself := List.map_inj_left.1 (h.trans (List.map_id ms).symm) m hm
      exact congrArg Prod.snd hself
    · rintro ⟨hnodup, hself⟩
      have hmap : (ms.map fun m => (m.1, m.2.lastWins)) = ms.map id :=
        List.map_inj_left.2 fun m hm => by rw [hself m hm]; rfl
      rw [hkept hnodup, hmap, List.map_id]
  | .null | .bool _ | .int _ | .float _ | .string _ | .unreadable | .invalid => by simp [lastWins, KeysOnce]

theorem map_lastWins_eq_self_iff : ∀ ds : List Data, ds.map lastWins = ds ↔ ∀ d ∈ ds, d.KeysOnce
  | [] => by simp
  | d :: ds => by
    rw [List.map_cons, List.cons.injEq, lastWins_eq_self_iff d, map_lastWins_eq_self_iff ds, List.forall_mem_cons]

theorem forall_lastWins_eq_self_iff : ∀ ms : List (String × Data),
    (∀ m ∈ ms, m.2.lastWins = m.2) ↔ ∀ m ∈ ms, m.2.KeysOnce
  | [] => by simp
  | (k, d) :: ms => by
    rw [List.forall_mem_cons, List.forall_mem_cons, lastWins_eq_self_iff d, forall_lastWins_eq_self_iff ms]

end

end SearchRules.Data
