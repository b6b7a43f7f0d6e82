import SearchRules.Proofs.Json.RoundTrip

/-!
# Compact JSON tells trees apart

A tree of truth values, integers, strings, lists and records is told by its text, however large its integers and however deep its
containers: `compact_inj`. The reader does not show this, since it rounds the integers that do not fit 64 bits and refuses a
container nested too deep. The proof follows the grammar instead: the first character of a text tells the kind of the tree
(`kind_eq_of_text`), and the text of a tree ends where it ends whatever is written behind it (`compactText_append_inj`).
-/

namespace SearchRules

namespace Data

/-- Whether the leaves of a tree are truth values, integers and strings. -/
def Plain (d : Data) : Prop :=
  d.allLeaves (fun
    | .bool _ | .int _ | .string _ => true
    | _ => false) = true

theorem plain_list_iff (ds : List Data) : (Data.list ds).Plain ↔ ∀ d ∈ ds, d.Plain :=
  allLeaves_list_iff _ ds

theorem plain_record_iff (ms : List (String × Data)) : (Data.record ms).Plain ↔ ∀ m ∈ ms, m.2.Plain :=
  allLeaves_record_iff _ ms

end Data

namespace Json

/-! ## Kinds -/

/-- What is told of a tree by the first character of its text. -/
inductive Kind where
  | null
  | bool (b : Bool)
  | number
  | string
  | list
  | record

/-- The kind of a tree. -/
def kind : Data → Kind
  | .null | .unreadable | .invalid => .null
  | .bool b => .bool b
  | .int _ | .float _ => .number
  | .string _ => .string
  | .list _ => .list
  | .record _ => .record

/-- The kind of the trees whose text begins with a character; null for the characters no text begins with. -/
def kindOf (c : Char) : Kind :=
  if c.isDigit = true ∨ c = '-' then .number
  else if c = 't' then .bool true
  else if c = 'f' then .bool false
  else if c = '"' then .string
  else if c = '[' then .list
  else if c = '{' then .record
  else .null

theorem kindOf_head {d : Data} (h : d.Plain) : ∃ c r, compactText d = c :: r ∧ kindOf c = kind d := by
  match d with
  | .bool true => exact ⟨'t', _, rfl, rfl⟩
  | .bool false => exact ⟨'f', _, rfl, rfl⟩
  | .int i =>
    obtain ⟨c, r, hcs, hc⟩ := numberHead_intText i
    exact ⟨c, r, hcs, if_pos hc⟩
  | .string s => exact ⟨'"', _, rfl, rfl⟩
  | .list [] => exact ⟨'[', _, rfl, rfl⟩
  | .list (d :: ds) => exact ⟨'[', _, rfl, rfl⟩
  | .record [] => exact ⟨'{', _, rfl, rfl⟩
  | .record ((k, d) :: ms) => exact ⟨'{', _, rfl, rfl⟩

section

variable {d d' : Data} {r r' : List Char}

/-- Trees with texts that begin alike are of one kind. -/
theorem kind_eq_of_text (hd : d.Plain) (hd' : d'.Plain) (h : compactText d ++ r = compactText d' ++ r') :
    kind d = kind d' := by
  obtain ⟨c, t, ht, hc⟩ := kindOf_head hd
  obtain ⟨c', t', ht', hc'⟩ := kindOf_head hd'
  rw [ht, ht', List.cons_append, List.cons_append, List.cons.injEq] at h
  rw [← hc, ← hc', h.1]

/-- No text begins like the end of a list. -/
theorem compactText_append_ne_end (hd : d.Plain) : compactText d ++ r ≠ ']' :: r' := by
  obtain ⟨c, t, ht, hc⟩ := kindOf_head hd
  rw [ht, List.cons_append]
  intro h
  rw [(List.cons.inj h).1] at hc
  cases d with
  | null | float _ | unreadable | invalid => cases hd
  | _ => cases hc

end

/-! ## Leaves -/

section

variable {r r' : List Char}

theorem quoted_append_inj {s s' : String} (h : quoted s ++ r = quoted s' ++ r') : s = s' ∧ r = r' := by
  rw [quoted_append, quoted_append, List.cons.injEq] at h
  have hread := congrArg (stringTail none) h.2
  rw [stringTail_flatMap_charText, stringTail_flatMap_charText, Option.some.injEq, Prod.mk.injEq, Option.some.injEq] at hread
  exact ⟨String.toList_inj.1 hread.1, hread.2⟩

theorem intLiteral_inj {i i' : Int} (h : intLiteral i = intLiteral i') : i = i' := by
  rw [intLiteral, intLiteral, NumberLiteral.mk.injEq] at h
  have habs := congrArg (digitsValue 10) h.2.1
  rw [digitsValue_toDigits, digitsValue_toDigits] at habs
  have hsign := decide_eq_decide.1 h.1
  omega

theorem intText_append_inj {i i' : Int} (hr : Follows r) (hr' : Follows r') (h : intText i ++ r = intText i' ++ r') :
    i = i' ∧ r = r' := by
  have hread := congrArg numberLiteral h
  rw [numberLiteral_intText hr, numberLiteral_intText hr', Option.some.injEq, Prod.mk.injEq] at hread
  exact ⟨intLiteral_inj hread.1, hread.2⟩

/-! ## Containers -/

/-- Behind its bracket a list is written like what is left of a list. -/
theorem compactItems_append_eq {ds ds' : List Data} (hds : ∀ d ∈ ds, d.Plain) (hds' : ∀ d ∈ ds', d.Plain)
    (h : compactText (.list ds) ++ r = compactText (.list ds') ++ r') : compactItems ds ++ r = compactItems ds' ++ r' := by
  cases ds with
  | nil =>
    cases ds' with
    | nil => simpa [compactText, compactItems] using h
    | cons d' ds' =>
      simp only [compactText, List.cons_append, List.nil_append, List.append_assoc, List.cons.injEq, true_and] at h
      exact absurd h.symm (compactText_append_ne_end (hds' d' List.mem_cons_self))
  | cons d ds =>
    cases ds' with
    | nil =>
      simp only [compactText, List.cons_append, List.nil_append, List.append_assoc, List.cons.injEq, true_and] at h
      exact absurd h (compactText_append_ne_end (hds d List.mem_cons_self))
    | cons d' ds' => simpa [compactText, compactItems] using h

/-- Behind its brace a record is written like what is left of a record. -/
theorem compactMembers_append_eq {ms ms' : List (String × Data)}
    (h : compactText (.record ms) ++ r = compactText (.record ms') ++ r') :
    compactMembers ms ++ r = compactMembers ms' ++ r' := by
  cases ms with
  | nil =>
    cases ms' with
    | nil => simpa [compactText, compactMembers] using h
    | cons m' ms' => simp [compactText, quoted] at h
  | cons m ms =>
    cases ms' with
    | nil => simp [compactText, quoted] at h
    | cons m' ms' => simpa [compactText, compactMembers] using h

end

mutual

/-- A text tells its tree and where it ends, whatever value or end follows it. -/
theorem compactText_append_inj : ∀ (d d' : Data) (r r' : List Char), d.Plain → d'.Plain → Follows r → Follows r' →
    compactText d ++ r = compactText d' ++ r' → d = d' ∧ r = r'
  | .bool b, d', r, r', hd, hd', _, _, h =>
    match d', kind_eq_of_text hd hd' h with
    | .bool b', hkind => by
      cases hkind
      exact ⟨rfl, List.append_cancel_left h⟩
  | .int i, d', r, r', hd, hd', hr, hr', h =>
    match d', kind_eq_of_text hd hd' h with
    | .int i', _ => by
      obtain ⟨hi, hrest⟩ := intText_append_inj hr hr' h
      exact ⟨congrArg Data.int hi, hrest⟩
  | .string s, d', r, r', hd, hd', _, _, h =>
    match d', kind_eq_of_text hd hd' h with
    | .string s', _ => by
      obtain ⟨hs, hrest⟩ := quoted_append_inj h
      exact ⟨congrArg Data.string hs, hrest⟩
  | .list ds, d', r, r', hd, hd', _, _, h =>
    match d', kind_eq_of_text hd hd' h with
    | .list ds', _ => by
      rw [Data.plain_list_iff] at hd hd'
      obtain ⟨hds, hrest⟩ := compactItems_append_inj ds ds' r r' hd hd' (compactItems_append_eq hd hd' h)
      exact ⟨congrArg Data.list hds, hrest⟩
  | .record ms, d', r, r', hd, hd', _, _, h =>
    match d', kind_eq_of_text hd hd' h with
    | .record ms', _ => by
      rw [Data.plain_record_iff] at hd hd'
      obtain ⟨hms, hrest⟩ := compactMembers_append_inj ms ms' r r' hd hd' (compactMembers_append_eq h)
      exact ⟨congrArg Data.record hms, hrest⟩

/-- What is written of a list tells its items. -/
theorem compactItems_append_inj : ∀ (ds ds' : List Data) (r r' : List Char), (∀ d ∈ ds, d.Plain) →
    (∀ d ∈ ds', d.Plain) → compactItems ds ++ r = compactItems ds' ++ r' → ds = ds' ∧ r = r'
  | [], [], r, r', _, _, h => by simpa [compactItems] using h
  | [], d' :: ds', r, r', _, _, h => by simp [compactItems] at h
  | d :: ds, [], r, r', _, _, h => by simp [compactItems] at h
  | d :: ds, d' :: ds', r, r', hds, hds', h => by
    rw [List.forall_mem_cons] at hds hds'
    simp only [compactItems, List.cons_append, List.append_assoc, List.cons.injEq, true_and] at h
    obtain ⟨hd, htail⟩ := compactText_append_inj d d' _ _ hds.1 hds'.1 (follows_compactItems ds r) (follows_compactItems ds' r') h
    obtain ⟨hds, hrest⟩ := compactItems_append_inj ds ds' r r' hds.2 hds'.2 htail
    exact ⟨by rw [hd, hds], hrest⟩

/-- What is written of a record tells its members. -/
theorem compactMembers_append_inj : ∀ (ms ms' : List (String × Data)) (r r' : List Char), (∀ m ∈ ms, m.2.Plain) →
    (∀ m ∈ ms', m.2.Plain) → compactMembers ms ++ r = compactMembers ms' ++ r' → ms = ms' ∧ r = r'
  | [], [], r, r', _, _, h => by simpa [compactMembers] using h
  | [], (k', d') :: ms', r, r', _, _, h => by simp [compactMembers] at h
  | (k, d) :: ms, [], r, r', _, _, h => by simp [compactMembers] at h
  | (k, d) :: ms, (k', d') :: ms', r, r', hms, hms', h => by
    rw [List.forall_mem_cons] at hms hms'
    simp only [compactMembers, List.cons_append, List.append_assoc, List.cons.injEq, true_and] at h
    obtain ⟨hk, hvalue⟩ := quoted_append_inj h
    obtain ⟨hd, htail⟩ := compactText_append_inj d d' _ _ hms.1 hms'.1 (follows_compactMembers ms r)
      (follows_compactMembers ms' r') (List.cons.inj hvalue).2
    obtain ⟨hms, hrest⟩ := compactMembers_append_inj ms ms' r r' hms.2 hms'.2 htail
    exact ⟨by rw [hk, hd, hms], hrest⟩

end

/-- Trees of truth values, integers and strings are written apart. -/
theorem compact_inj {d d' : Data} (hd : d.Plain) (hd' : d'.Plain) (h : compact d = compact d') : d = d' := by
  have htext : compactText d = compactText d' := String.ofList_injective h
  exact (compactText_append_inj d d' [] [] hd hd' follows_nil follows_nil (by rw [htext])).1

end Json

end SearchRules
