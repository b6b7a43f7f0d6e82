import SearchRules.Proofs.Clause.Packing

/-!
# Scopes that grow

A scope in which pairs are placed keeps its clauses where they stand. A term object may gain pairs behind those it has, and objects may
come in behind the clauses (`Grown`). That holds of any scope, whatever gaps its objects have.

How many objects come in is exact (`placeAll_safe_minimal`). For each field, the objects without a value for it are as many as before,
and those that came in, less the pairs of the field that were placed: `countP_lacks_foldl_place`. Objects come in until none lacks a
field of which there was a pair too many, and no way to place the pairs can do with fewer: `missing_le_of_placed`.
-/

namespace SearchRules

namespace Clause

/-- What may become of a clause while its scope grows: it stays as it is, or it is a term object, which keeps its key and its pairs and
gains others behind them. -/
def Grows (c c' : Clause) : Prop :=
  c' = c ∨ ∃ t more, c = .term t ∧ c' = .term { t with entries := t.entries ++ more }

/-- A scope and what it has grown to: each clause stands where it stood, and others may follow. -/
inductive Grown : List Clause → List Clause → Prop where
  | nil (cs : List Clause) : Grown [] cs
  | cons {c c' : Clause} {cs cs' : List Clause} : c.Grows c' → Grown cs cs' → Grown (c :: cs) (c' :: cs')

/-- The pairs of a clause that is a term object. -/
def entries : Clause → List (String × String)
  | .term t => t.entries
  | _ => []

/-- No term object of a scope has two values for one field. -/
def DistinctFields (cs : List Clause) : Prop :=
  ∀ t, .term t ∈ cs → (t.entries.map Prod.fst).Nodup

/-- Some pairs are placed in a scope: its clauses stand where they stood, no object has two values for one field, and the objects hold
the pairs besides those they held. -/
structure Placed (pairs : List (String × String)) (cs cs' : List Clause) : Prop where
  grown : Grown cs cs'
  distinct : DistinctFields cs'
  entries : (cs'.flatMap Clause.entries).Perm (cs.flatMap Clause.entries ++ pairs)

/-- The pairs of values that are to stand under fields, value by value. -/
def pairsUnder (fields values : List String) : List (String × String) :=
  values.flatMap fun value => fields.map fun field => (field, value)

/-- How many objects a scope is short of when values are to stand under fields. A field is short of the objects that its values need
beyond those that lack it, and the scope of as many as the field that is short of most. -/
def missing (cs : List Clause) (fields values : List String) : Nat :=
  (fields.map fun field => fields.count field * values.length - cs.countP (lacks field)).foldr max 0

variable {key : TermKey} {field value : String} {c c' c'' : Clause} {cs cs' cs'' : List Clause}

/-! ## Growing, step by step -/

theorem Grows.refl (c : Clause) : c.Grows c := Or.inl rfl

theorem Grows.trans (h : c.Grows c') (h' : c'.Grows c'') : c.Grows c'' := by
  rcases h with rfl | ⟨t, more, rfl, rfl⟩
  · exact h'
  · rcases h' with rfl | ⟨t', more', ht, rfl⟩
    · exact Or.inr ⟨t, more, rfl, rfl⟩
    · cases ht
      exact Or.inr ⟨t, more ++ more', rfl, by rw [List.append_assoc]⟩

/-- A term object grows to one, and no other clause does. -/
theorem Grows.isTerm_eq (h : c.Grows c') : c'.isTerm = c.isTerm := by
  rcases h with rfl | ⟨t, more, rfl, rfl⟩ <;> rfl

theorem Grown.refl (cs : List Clause) : Grown cs cs := by
  induction cs with
  | nil => exact .nil []
  | cons c cs ih => exact .cons (Grows.refl c) ih

theorem Grown.trans (h : Grown cs cs') (h' : Grown cs' cs'') : Grown cs cs'' := by
  induction h generalizing cs'' with
  | nil cs' => exact .nil cs''
  | cons hc _ ih =>
    cases h' with
    | cons hc' hcs' => exact .cons (hc.trans hc') (ih hcs')

theorem grown_append (cs added : List Clause) : Grown cs (cs ++ added) := by
  induction cs with
  | nil => exact .nil added
  | cons c cs ih => exact .cons (Grows.refl c) ih

theorem Grown.length_le (h : Grown cs cs') : cs.length ≤ cs'.length := by
  induction h with
  | nil cs' => exact Nat.zero_le _
  | cons _ _ ih => exact Nat.succ_le_succ ih

/-- What stands at a place of a scope is at that place after the scope has grown, as it was or grown. -/
theorem Grown.exists_getElem? (h : Grown cs cs') :
    ∀ (i : Nat) (c : Clause), cs[i]? = some c → ∃ c', cs'[i]? = some c' ∧ c.Grows c' := by
  induction h with
  | nil cs' =>
    intro i c hi
    cases hi
  | cons hc _ ih =>
    intro i c hi
    cases i with
    | zero =>
      cases hi
      exact ⟨_, rfl, hc⟩
    | succ i => exact ih i c hi

/-- A scope gains at most as many term objects as clauses. -/
theorem Grown.countP_isTerm_le (h : Grown cs cs') : cs'.countP isTerm + cs.length ≤ cs.countP isTerm + cs'.length := by
  induction h with
  | nil cs' =>
    have hle : cs'.countP isTerm ≤ cs'.length := List.countP_le_length
    simp only [List.countP_nil, List.length_nil]
    omega
  | cons hc _ ih =>
    rw [List.countP_cons, List.countP_cons, hc.isTerm_eq, List.length_cons, List.length_cons]
    omega

/-! ## One pair -/

theorem grown_place (key : TermKey) (field value : String) (cs : List Clause) : Grown cs (place key field value cs) := by
  induction cs with
  | nil => exact .nil _
  | cons c cs ih =>
    by_cases hl : c.lacks field = true
    · obtain ⟨t, rfl, ht⟩ := exists_of_lacks hl
      rw [place_cons_of_lacks ht]
      exact .cons (Or.inr ⟨t, _, rfl, rfl⟩) (Grown.refl cs)
    · rw [Bool.not_eq_true] at hl
      rw [place_cons_of_not_lacks hl]
      exact .cons (Grows.refl c) ih

/-- A pair goes among the first clauses if one of them lacks its field, and otherwise behind them. -/
theorem place_append (key : TermKey) (field value : String) (cs ds : List Clause) :
    place key field value (cs ++ ds) =
      if cs.any (lacks field) then place key field value cs ++ ds else cs ++ place key field value ds := by
  induction cs with
  | nil => rfl
  | cons c cs ih =>
    rw [List.cons_append, List.any_cons]
    by_cases hl : c.lacks field = true
    · obtain ⟨t, rfl, ht⟩ := exists_of_lacks hl
      rw [hl, Bool.true_or, if_pos rfl, place_cons_of_lacks ht, place_cons_of_lacks ht]
      rfl
    · rw [Bool.not_eq_true] at hl
      rw [hl, Bool.false_or, place_cons_of_not_lacks hl, place_cons_of_not_lacks hl, ih]
      split <;> rfl

/-- An object comes in if none lacks the field. -/
theorem length_place (key : TermKey) (field value : String) (cs : List Clause) :
    (place key field value cs).length = if cs.any (lacks field) then cs.length else cs.length + 1 := by
  induction cs with
  | nil => rfl
  | cons c cs ih =>
    rw [List.any_cons]
    by_cases hl : c.lacks field = true
    · obtain ⟨t, rfl, ht⟩ := exists_of_lacks hl
      rw [hl, Bool.true_or, if_pos rfl, place_cons_of_lacks ht]
      rfl
    · rw [Bool.not_eq_true] at hl
      rw [hl, Bool.false_or, place_cons_of_not_lacks hl, List.length_cons, ih]
      split <;> rfl

/-- A pair takes one object from those that lack its field. An object that comes in is first counted among those that lack a field,
whichever it is. -/
theorem countP_lacks_place (key : TermKey) (field value other : String) (cs : List Clause) :
    (place key field value cs).countP (lacks other) + cs.length + (if field = other then 1 else 0) =
      cs.countP (lacks other) + (place key field value cs).length := by
  induction cs with
  | nil =>
    by_cases h : field = other <;> simp [place, lacks, TermObject.has, h]
  | cons c cs ih =>
    by_cases hl : c.lacks field = true
    · obtain ⟨t, rfl, ht⟩ := exists_of_lacks hl
      rw [place_cons_of_lacks ht, List.countP_cons, List.countP_cons, List.length_cons, List.length_cons]
      have hgrown : lacks other (.term { t with entries := t.entries ++ [(field, value)] }) =
          (lacks other (.term t) && field != other) := by
        simp [lacks, TermObject.has, bne]
      rw [hgrown]
      by_cases h : field = other
      · subst h
        simp only [hl, bne_self_eq_false, Bool.and_false, Bool.false_eq_true, if_false, if_true]
        omega
      · rw [bne_iff_ne.2 h, Bool.and_true, if_neg h]
        omega
    · rw [Bool.not_eq_true] at hl
      rw [place_cons_of_not_lacks hl, List.countP_cons, List.countP_cons, List.length_cons, List.length_cons]
      omega

/-- The pair is added to those of the objects. -/
theorem entries_place_perm (key : TermKey) (field value : String) (cs : List Clause) :
    ((place key field value cs).flatMap entries).Perm (cs.flatMap entries ++ [(field, value)]) := by
  induction cs with
  | nil => exact List.Perm.refl _
  | cons c cs ih =>
    by_cases hl : c.lacks field = true
    · obtain ⟨t, rfl, ht⟩ := exists_of_lacks hl
      rw [place_cons_of_lacks ht, List.flatMap_cons, List.flatMap_cons, entries, entries, List.append_assoc, List.append_assoc]
      exact List.Perm.append_left _ List.perm_append_comm
    · rw [Bool.not_eq_true] at hl
      rw [place_cons_of_not_lacks hl, List.flatMap_cons, List.flatMap_cons, List.append_assoc]
      exact List.Perm.append_left _ ih

/-- No object is given a field twice. -/
theorem distinctFields_place (key : TermKey) (field value : String) (h : DistinctFields cs) :
    DistinctFields (place key field value cs) := by
  have hplace : ∀ c ∈ place key field value cs, ∀ t, c = .term t → (t.entries.map Prod.fst).Nodup := by
    refine forall_mem_place ?_ ?_ ?_
    · intro t ht
      cases ht
      exact List.nodup_singleton field
    · intro t ht hlacks t' ht'
      cases ht'
      exact nodup_fields_append_of_not_has hlacks value (ht t rfl)
    · rintro c hc t rfl
      exact h t hc
  exact fun t ht => hplace _ ht t rfl

/-! ## Pairs one after the other -/

theorem grown_foldl_place (key : TermKey) (pairs : List (String × String)) (cs : List Clause) :
    Grown cs (pairs.foldl (fun cs e => place key e.1 e.2 cs) cs) := by
  induction pairs generalizing cs with
  | nil => exact Grown.refl cs
  | cons e pairs ih => exact (grown_place key e.1 e.2 cs).trans (ih _)

/-- The objects that lack a field, whichever pairs are placed: those that lacked it and those that came in, but for one for each pair
of the field. -/
theorem countP_lacks_foldl_place (key : TermKey) (field : String) (pairs : List (String × String)) (cs : List Clause) :
    (pairs.foldl (fun cs e => place key e.1 e.2 cs) cs).countP (lacks field) + cs.length + Packing.rank pairs field =
      cs.countP (lacks field) + (pairs.foldl (fun cs e => place key e.1 e.2 cs) cs).length := by
  induction pairs generalizing cs with
  | nil => rfl
  | cons e pairs ih =>
    have hfirst := countP_lacks_place key e.1 e.2 field cs
    have hrest := ih (place key e.1 e.2 cs)
    have hrank : Packing.rank (e :: pairs) field = Packing.rank pairs field + if e.1 = field then 1 else 0 := by
      rw [Packing.rank, List.countP_cons]
      simp only [beq_iff_eq]
      rfl
    rw [List.foldl_cons, hrank]
    omega

/-- If objects came in, there is a field among those of the pairs that none lacks any more. -/
theorem length_foldl_place_eq_or (key : TermKey) (pairs : List (String × String)) (cs : List Clause) :
    (pairs.foldl (fun cs e => place key e.1 e.2 cs) cs).length = cs.length ∨
      ∃ e ∈ pairs, (pairs.foldl (fun cs e => place key e.1 e.2 cs) cs).countP (lacks e.1) = 0 := by
  induction pairs generalizing cs with
  | nil => exact Or.inl rfl
  | cons e pairs ih =>
    rw [List.foldl_cons]
    rcases ih (place key e.1 e.2 cs) with hlength | ⟨a, ha, hnone⟩
    · have hplace := length_place key e.1 e.2 cs
      by_cases hany : cs.any (lacks e.1) = true
      · rw [if_pos hany] at hplace
        exact Or.inl (hlength.trans hplace)
      · -- the pair brought an object in; since then none came, so the others took their pairs from it and its kind
        refine Or.inr ⟨e, List.mem_cons_self, ?_⟩
        rw [if_neg hany] at hplace
        have hfirst := countP_lacks_place key e.1 e.2 e.1 cs
        have hrest := countP_lacks_foldl_place key e.1 pairs (place key e.1 e.2 cs)
        have hcount : cs.countP (lacks e.1) = 0 := by
          rw [List.countP_eq_zero]
          intro c hc hl
          exact hany (List.any_eq_true.2 ⟨c, hc, hl⟩)
        rw [if_pos rfl] at hfirst
        omega
    · exact Or.inr ⟨a, List.mem_cons_of_mem e ha, hnone⟩

/-- What comes in are objects of the key that is placed under. -/
theorem exists_added_foldl_place (key : TermKey) (pairs : List (String × String)) (cs : List Clause) :
    ∃ kept added, pairs.foldl (fun cs e => place key e.1 e.2 cs) cs = kept ++ added ∧ kept.length = cs.length ∧
      ∀ c ∈ added, ∃ t, c = .term t ∧ t.key = key := by
  refine List.foldlRecOn (motive := fun cs' : List Clause => ∃ kept added, cs' = kept ++ added ∧ kept.length = cs.length ∧
    ∀ c ∈ added, ∃ t, c = .term t ∧ t.key = key) pairs _ ⟨cs, [], (List.append_nil cs).symm, rfl, nofun⟩ ?_
  rintro _ ⟨kept, added, rfl, hlength, hkey⟩ e -
  rw [place_append]
  by_cases hany : kept.any (lacks e.1) = true
  · rw [if_pos hany]
    have hplace := length_place key e.1 e.2 kept
    rw [if_pos hany] at hplace
    exact ⟨_, added, rfl, hplace.trans hlength, hkey⟩
  · rw [if_neg hany]
    refine ⟨kept, _, rfl, hlength, forall_mem_place ⟨_, rfl, rfl⟩ ?_ hkey⟩
    rintro t ⟨t', ht, hkey'⟩ -
    cases ht
    exact ⟨_, rfl, hkey'⟩

/-- Pairs placed one after the other are placed. -/
theorem placed_foldl_place (key : TermKey) (pairs : List (String × String)) (h : DistinctFields cs) :
    Placed pairs cs (pairs.foldl (fun cs e => place key e.1 e.2 cs) cs) where
  grown := grown_foldl_place key pairs cs
  distinct := List.foldlRecOn (motive := DistinctFields) pairs _ h
    fun _ hcs e _ => distinctFields_place key e.1 e.2 hcs
  entries := by
    induction pairs generalizing cs with
    | nil =>
      rw [List.append_nil]
      exact List.Perm.refl _
    | cons e pairs ih =>
      refine (ih (distinctFields_place key e.1 e.2 h)).trans ?_
      rw [← List.singleton_append (l := pairs), ← List.append_assoc]
      exact (entries_place_perm key e.1 e.2 cs).append_right pairs

/-! ## How many objects it takes -/

/-- There is a pair of a field for each object that does not lack it. -/
theorem countP_isTerm_le (field : String) (cs : List Clause) :
    cs.countP isTerm ≤ cs.countP (lacks field) + Packing.rank (cs.flatMap entries) field := by
  induction cs with
  | nil => exact Nat.le_refl _
  | cons c cs ih =>
    have hsplit : Packing.rank ((c :: cs).flatMap entries) field =
        Packing.rank c.entries field + Packing.rank (cs.flatMap entries) field := by
      rw [List.flatMap_cons, Packing.rank, List.countP_append]
      rfl
    have hself : (if c.isTerm then 1 else 0) ≤ (if c.lacks field then 1 else 0) + Packing.rank c.entries field := by
      cases c with
      | term t =>
        cases h : t.has field with
        | true =>
          have hpos : 0 < Packing.rank t.entries field := List.countP_pos_iff.2 (List.any_eq_true.1 h)
          simp only [isTerm, entries, if_true]
          omega
        | false => simp [isTerm, lacks, h]
      | bool q => exact Nat.zero_le _
      | freeText t => exact Nat.zero_le _
      | nested path c hits => exact Nat.zero_le _
    rw [List.countP_cons, List.countP_cons, hsplit]
    omega

/-- Objects with one value a field have at most one pair of a field each. -/
theorem rank_entries_le (h : DistinctFields cs) (field : String) :
    Packing.rank (cs.flatMap entries) field ≤ cs.countP isTerm := by
  induction cs with
  | nil => exact Nat.le_refl _
  | cons c cs ih =>
    have hrest := ih fun t ht => h t (List.mem_cons_of_mem c ht)
    have hself : Packing.rank c.entries field ≤ if c.isTerm then 1 else 0 := by
      cases c with
      | term t => exact Packing.rank_le_one (h t List.mem_cons_self) field
      | bool q => exact Nat.le_refl _
      | freeText t => exact Nat.le_refl _
      | nested path c hits => exact Nat.le_refl _
    rw [List.flatMap_cons, Packing.rank, List.countP_append, List.countP_cons]
    rw [Packing.rank] at hrest hself
    omega

/-- However pairs are placed, the pairs of a field need an object each, and only those that lack the field can take one. -/
theorem Placed.rank_le {pairs : List (String × String)} (h : Placed pairs cs cs') (field : String) :
    Packing.rank pairs field + cs.length ≤ cs.countP (lacks field) + cs'.length := by
  have hadded : Packing.rank (cs'.flatMap Clause.entries) field =
      Packing.rank (cs.flatMap Clause.entries) field + Packing.rank pairs field := by
    rw [Packing.rank, h.entries.countP_eq, List.countP_append]
    rfl
  have hone := rank_entries_le h.distinct field
  have hterms := h.grown.countP_isTerm_le
  have hlacks := countP_isTerm_le field cs
  omega

/-- Each field comes with each value as often as it is named. -/
theorem rank_pairsUnder (field : String) (fields values : List String) :
    Packing.rank (pairsUnder fields values) field = fields.count field * values.length := by
  have hvalue : ∀ value, Packing.rank (fields.map fun field => (field, value)) field = fields.count field := by
    intro value
    rw [Packing.rank, List.countP_map]
    rfl
  induction values with
  | nil => rfl
  | cons value values ih =>
    have hsplit : pairsUnder fields (value :: values) =
        (fields.map fun field => (field, value)) ++ pairsUnder fields values := List.flatMap_cons
    rw [hsplit, Packing.rank, List.countP_append, List.length_cons, Nat.mul_succ, Nat.add_comm, ← ih, ← hvalue value]
    rfl

/-- However values are placed under fields, at least the missing objects come in. -/
theorem missing_le_of_placed {fields values : List String} (h : Placed (pairsUnder fields values) cs cs') :
    cs.length + missing cs fields values ≤ cs'.length := by
  have hlength := h.grown.length_le
  have hle : missing cs fields values ≤ cs'.length - cs.length := by
    rw [missing, Packing.foldr_max_le_iff, List.forall_mem_map]
    intro field _
    have hrank := h.rank_le field
    rw [rank_pairsUnder] at hrank
    omega
  omega

/-- Values placed under fields bring no more than the missing objects in. -/
theorem length_foldl_place_le (key : TermKey) (fields values : List String) (cs : List Clause) :
    ((pairsUnder fields values).foldl (fun cs e => place key e.1 e.2 cs) cs).length ≤ cs.length + missing cs fields values := by
  rcases length_foldl_place_eq_or key (pairsUnder fields values) cs with hlength | ⟨⟨field, value⟩, he, hnone⟩
  · omega
  · have hfield : field ∈ fields := by
      obtain ⟨_, -, he⟩ := List.mem_flatMap.1 he
      obtain ⟨_, hfield, heq⟩ := List.mem_map.1 he
      cases heq
      exact hfield
    have hcount := countP_lacks_foldl_place key field (pairsUnder fields values) cs
    have hle : fields.count field * values.length - cs.countP (lacks field) ≤ missing cs fields values :=
      (Packing.foldr_max_le_iff _ _).1 (Nat.le_refl _) _ (List.mem_map.2 ⟨field, hfield, rfl⟩)
    dsimp only at hnone
    rw [rank_pairsUnder] at hcount
    omega

/-- Take any scope whose objects have one value a field, whatever else is in it and wherever its gaps are. Values placed under fields
leave its clauses where they stand, give no object a field twice and add each value under each field. What comes in behind are objects
of the given key, exactly as many as are missing; and any other way to place the pairs makes the scope at least as long. -/
theorem placeAll_safe_minimal (h : DistinctFields cs) (key : TermKey) (fields values : List String) :
    Placed (pairsUnder fields values) cs (placeAll key fields values cs) ∧
      (∀ c ∈ (placeAll key fields values cs).drop cs.length, ∃ t, c = .term t ∧ t.key = key) ∧
      (placeAll key fields values cs).length = cs.length + missing cs fields values ∧
      ∀ cs', Placed (pairsUnder fields values) cs cs' → (placeAll key fields values cs).length ≤ cs'.length := by
  have hfold : placeAll key fields values cs = (pairsUnder fields values).foldl (fun cs e => place key e.1 e.2 cs) cs :=
    placeAll_eq_foldl key fields values cs
  have hplaced := placed_foldl_place key (pairsUnder fields values) h
  have hle := length_foldl_place_le key fields values cs
  obtain ⟨kept, added, hsplit, hlength, hkey⟩ := exists_added_foldl_place key (pairsUnder fields values) cs
  rw [hfold]
  refine ⟨hplaced, ?_, Nat.le_antisymm hle (missing_le_of_placed hplaced), ?_⟩
  · rw [hsplit, ← hlength, List.drop_left]
    exact hkey
  · intro cs' h'
    exact Nat.le_trans hle (missing_le_of_placed h')

/-- Two values under a field named twice and under another one. Of the three objects of both keys one lacks the first field and two the
second, so that the first field is short of three objects, and the pairs of the second fill gaps. -/
theorem placeAll_safe_minimal_gaps :
    ∃ cs : List Clause, cs = [.term ⟨.terms, [("city", "Paris")]⟩, .freeText ⟨"x", ["*"]⟩, .term ⟨.term, []⟩, .bool {},
        .term ⟨.term, [("zip", "1"), ("city", "Rome")]⟩] ∧
      DistinctFields cs ∧
      Placed (pairsUnder ["city", "zip", "city"] ["a", "b"]) cs (placeAll .terms ["city", "zip", "city"] ["a", "b"] cs) ∧
      (placeAll .terms ["city", "zip", "city"] ["a", "b"] cs).length = cs.length + 3 := by
  have hdistinct : DistinctFields [.term ⟨.terms, [("city", "Paris")]⟩, .freeText ⟨"x", ["*"]⟩, .term ⟨.term, []⟩, .bool {},
      .term ⟨.term, [("zip", "1"), ("city", "Rome")]⟩] := by
    intro t ht
    simp only [List.mem_cons, Clause.term.injEq, reduceCtorEq, List.not_mem_nil, false_or, or_false] at ht
    rcases ht with rfl | rfl | rfl <;> decide
  obtain ⟨hplaced, -, hlength, -⟩ := placeAll_safe_minimal hdistinct .terms ["city", "zip", "city"] ["a", "b"]
  exact ⟨_, rfl, hdistinct, hplaced, hlength⟩

end Clause

end SearchRules
