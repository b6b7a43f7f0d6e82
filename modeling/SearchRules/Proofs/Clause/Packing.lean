import Mathlib.Data.List.Induction
import Mathlib.Data.List.Nodup
import Mathlib.Data.List.Perm.Basic
import SearchRules.Clause.Packing

/-!
# Packing groups pairs by occurrence

Of the pairs placed in an empty scope, the first object takes the first pair of each field, the next object the second pair of
each field, and so on: `foldl_place_nil`. The pairs that come as the `k`-th of their field, counted from zero, are a `tier`, and
there are as many tiers as the field that comes most often has pairs. No fewer objects can hold the pairs: `height_le_length`.
-/

namespace SearchRules

namespace Clause

variable {key : TermKey} {field value : String}

/-- Whether a clause is a term object without a value for a field. -/
def lacks (field : String) : Clause → Bool
  | .term t => !t.has field
  | _ => false

/-- A clause that is no object, or has a value for the field, is passed over. -/
theorem place_cons_of_not_lacks {c : Clause} (h : c.lacks field = false) (cs : List Clause) :
    place key field value (c :: cs) = c :: place key field value cs := by
  cases c with
  | term t =>
    have ht : t.has field = true := by simpa [lacks] using h
    simp only [place, TermObject.insert?, ht, if_true]
  | bool q => rw [place]; exact nofun
  | freeText t => rw [place]; exact nofun
  | nested path q hits => rw [place]; exact nofun

/-- An object that lacks the field takes the pair. -/
theorem place_cons_of_lacks {t : TermObject} (h : t.has field = false) (cs : List Clause) :
    place key field value (.term t :: cs) = .term { t with entries := t.entries ++ [(field, value)] } :: cs := by
  rw [place, TermObject.insert?, h]
  rfl

/-- Where no object lacks the field, a new object comes behind the clauses. -/
theorem place_of_none_lacks {cs : List Clause} (h : ∀ c ∈ cs, c.lacks field = false) :
    place key field value cs = cs ++ [.term ⟨key, [(field, value)]⟩] := by
  induction cs with
  | nil => rfl
  | cons c cs ih =>
    rw [place_cons_of_not_lacks (h c List.mem_cons_self), ih fun c' hc' => h c' (List.mem_cons_of_mem c hc'),
      List.cons_append]

/-- The first object that lacks the field takes the pair. -/
theorem place_append_term {pre post : List Clause} {t : TermObject} (hpre : ∀ c ∈ pre, c.lacks field = false)
    (ht : t.has field = false) : place key field value (pre ++ .term t :: post) =
      pre ++ .term { t with entries := t.entries ++ [(field, value)] } :: post := by
  induction pre with
  | nil => exact place_cons_of_lacks ht post
  | cons c pre ih =>
    rw [List.cons_append, place_cons_of_not_lacks (hpre c List.mem_cons_self),
      ih fun c' hc' => hpre c' (List.mem_cons_of_mem c hc'), List.cons_append]

/-- A clause that lacks a field is a term object. -/
theorem exists_of_lacks {c : Clause} (h : c.lacks field = true) : ∃ t, c = .term t ∧ t.has field = false := by
  cases c with
  | term t => exact ⟨t, rfl, by simpa [lacks] using h⟩
  | bool q => exact absurd h Bool.false_ne_true
  | freeText t => exact absurd h Bool.false_ne_true
  | nested path q hits => exact absurd h Bool.false_ne_true

/-- Whether a clause is a term object. -/
def isTerm : Clause → Bool
  | .term _ => true
  | _ => false

/-- A pair is placed among the term objects as if there were nothing else. -/
theorem filter_isTerm_place (key : TermKey) (field value : String) (cs : List Clause) :
    (place key field value cs).filter isTerm = place key field value (cs.filter isTerm) := by
  induction cs with
  | nil => rfl
  | cons c cs ih =>
    by_cases hl : c.lacks field = true
    · obtain ⟨t, rfl, ht⟩ := exists_of_lacks hl
      rw [place_cons_of_lacks ht, List.filter_cons_of_pos rfl, List.filter_cons_of_pos rfl, place_cons_of_lacks ht]
    · rw [Bool.not_eq_true] at hl
      rw [place_cons_of_not_lacks hl, List.filter_cons, List.filter_cons, ih]
      by_cases ht : c.isTerm = true
      · rw [if_pos ht, if_pos ht, place_cons_of_not_lacks hl]
      · rw [if_neg ht, if_neg ht]

/-- The clauses that are no term objects stay as they are. -/
theorem filter_not_isTerm_place (key : TermKey) (field value : String) (cs : List Clause) :
    (place key field value cs).filter (!·.isTerm) = cs.filter (!·.isTerm) := by
  induction cs with
  | nil => rfl
  | cons c cs ih =>
    by_cases hl : c.lacks field = true
    · obtain ⟨t, rfl, ht⟩ := exists_of_lacks hl
      rw [place_cons_of_lacks ht, List.filter_cons_of_neg (by simp [isTerm]), List.filter_cons_of_neg (by simp [isTerm])]
    · rw [Bool.not_eq_true] at hl
      rw [place_cons_of_not_lacks hl, List.filter_cons, List.filter_cons, ih]

/-- A pair of a field that an object lacks leaves it with one value a field. -/
theorem nodup_fields_append_of_not_has {t : TermObject} (h : t.has field = false) (value : String)
    (hnodup : (t.entries.map Prod.fst).Nodup) : ((t.entries ++ [(field, value)]).map Prod.fst).Nodup := by
  have hnew : field ∉ t.entries.map Prod.fst := by
    rw [TermObject.has, List.any_eq_false] at h
    intro hmem
    obtain ⟨e, he, hf⟩ := List.mem_map.1 hmem
    exact h e he (beq_iff_eq.2 hf)
  rw [List.map_append, List.map_singleton, ← List.concat_eq_append]
  exact hnodup.concat hnew

/-- A condition on clauses that a new object meets, and that an object still meets with a value for a field it lacked, is kept by
placing a pair. -/
theorem forall_mem_place {P : Clause → Prop} (hnew : P (.term ⟨key, [(field, value)]⟩))
    (hgrow : ∀ t, P (.term t) → t.has field = false → P (.term { t with entries := t.entries ++ [(field, value)] }))
    {cs : List Clause} (h : ∀ c ∈ cs, P c) : ∀ c ∈ place key field value cs, P c := by
  induction cs with
  | nil => exact List.forall_mem_singleton.2 hnew
  | cons c cs ih =>
    obtain ⟨hc, hcs⟩ := List.forall_mem_cons.1 h
    by_cases hl : c.lacks field = true
    · obtain ⟨t, rfl, ht⟩ := exists_of_lacks hl
      rw [place_cons_of_lacks ht]
      exact List.forall_mem_cons.2 ⟨hgrow t hc ht, hcs⟩
    · rw [Bool.not_eq_true] at hl
      rw [place_cons_of_not_lacks hl]
      exact List.forall_mem_cons.2 ⟨hc, ih hcs⟩

/-- Values under fields are placed one pair after the other. -/
theorem placeAll_eq_foldl (key : TermKey) (fields values : List String) (cs : List Clause) :
    placeAll key fields values cs = (values.flatMap fun value => fields.map fun field => (field, value)).foldl
      (fun cs e => place key e.1 e.2 cs) cs := by
  rw [placeAll, List.foldl_flatMap]
  congr 1
  funext cs value
  rw [placeUnder, List.foldl_map]

end Clause

namespace Packing

/-- How many of some pairs are about a field. -/
def rank (pairs : List (String × String)) (field : String) : Nat :=
  pairs.countP fun e => e.1 == field

/-- The pairs that come as the `k`-th of their field, counted from zero, where others come before them. -/
def tierFrom (before : List (String × String)) (k : Nat) : List (String × String) → List (String × String)
  | [] => []
  | e :: es => (if rank before e.1 = k then [e] else []) ++ tierFrom (before ++ [e]) k es

/-- The pairs that come as the `k`-th of their field, counted from zero. -/
def tier (k : Nat) (pairs : List (String × String)) : List (String × String) :=
  tierFrom [] k pairs

/-- The number of pairs of the field that comes most often. -/
def height (pairs : List (String × String)) : Nat :=
  (pairs.map fun e => rank pairs e.1).foldr max 0

/-- The tiers of some pairs. -/
def objects (pairs : List (String × String)) : List (List (String × String)) :=
  (List.range (height pairs)).map fun k => tier k pairs

/-! ## Tiers -/

variable {pairs : List (String × String)} {e : String × String} {k : Nat}

theorem rank_snoc (pairs : List (String × String)) (e : String × String) (field : String) :
    rank (pairs ++ [e]) field = rank pairs field + if e.1 = field then 1 else 0 := by
  by_cases h : e.1 = field <;> simp [rank, h]

theorem tierFrom_append (before pairs rest : List (String × String)) (k : Nat) :
    tierFrom before k (pairs ++ rest) = tierFrom before k pairs ++ tierFrom (before ++ pairs) k rest := by
  induction pairs generalizing before with
  | nil => simp [tierFrom]
  | cons e es ih =>
    rw [List.cons_append, tierFrom, tierFrom, ih, List.append_assoc, List.append_assoc, List.singleton_append]

/-- One more pair joins the tier of its rank. -/
theorem tier_snoc (k : Nat) (pairs : List (String × String)) (e : String × String) :
    tier k (pairs ++ [e]) = tier k pairs ++ if rank pairs e.1 = k then [e] else [] := by
  rw [tier, tierFrom_append]
  simp [tier, tierFrom]

/-- A tier has a pair of each field that comes often enough, and of no other. -/
theorem any_tier_eq (k : Nat) (pairs : List (String × String)) (field : String) :
    ((tier k pairs).any fun e => e.1 == field) = decide (k < rank pairs field) := by
  induction pairs using List.reverseRecOn with
  | nil => simp [tier, tierFrom, rank]
  | append_singleton pairs e ih =>
    rw [tier_snoc, List.any_append, ih, rank_snoc, Bool.eq_iff_iff]
    by_cases h : e.1 = field
    · subst h
      by_cases hk : rank pairs e.1 = k
      · simp [hk]
      · simp only [if_neg hk, List.any_nil, Bool.or_false, if_true, decide_eq_true_iff]
        omega
    · by_cases hk : rank pairs e.1 = k <;> simp [hk, h]

/-- A tier has one pair a field. -/
theorem nodup_fields_tier (k : Nat) (pairs : List (String × String)) : ((tier k pairs).map Prod.fst).Nodup := by
  induction pairs using List.reverseRecOn with
  | nil => simp [tier, tierFrom]
  | append_singleton pairs e ih =>
    rw [tier_snoc]
    by_cases hk : rank pairs e.1 = k
    · have hne : ∀ a ∈ tier k pairs, a.1 ≠ e.1 := by
        intro a ha hf
        have hany : ((tier k pairs).any fun a => a.1 == e.1) = true := List.any_eq_true.2 ⟨a, ha, by simp [hf]⟩
        rw [any_tier_eq, decide_eq_true_iff] at hany
        omega
      rw [if_pos hk, List.map_append, List.nodup_append]
      refine ⟨ih, List.pairwise_singleton _ _, ?_⟩
      simp only [List.mem_map, List.map_cons, List.map_nil, List.mem_singleton]
      rintro field ⟨a, ha, rfl⟩ field' rfl
      exact hne a ha
    · rwa [if_neg hk, List.append_nil]

/-- The tiers hold the pairs. -/
theorem mem_tier (e : String × String) (pairs : List (String × String)) : e ∈ pairs ↔ ∃ k, e ∈ tier k pairs := by
  induction pairs using List.reverseRecOn with
  | nil => simp [tier, tierFrom]
  | append_singleton pairs a ih =>
    simp only [tier_snoc, List.mem_append, exists_or, ← ih]
    refine or_congr Iff.rfl ⟨fun h => ⟨rank pairs a.1, by rwa [if_pos rfl]⟩, ?_⟩
    rintro ⟨k, hk⟩
    by_cases h : rank pairs a.1 = k
    · rwa [if_pos h] at hk
    · rw [if_neg h] at hk
      exact absurd hk List.not_mem_nil

/-! ## The number of tiers -/

theorem foldr_max_le_iff (ns : List Nat) (n : Nat) : ns.foldr max 0 ≤ n ↔ ∀ i ∈ ns, i ≤ n := by
  induction ns with
  | nil => simp
  | cons i ns ih => rw [List.foldr_cons, Nat.max_le, ih, List.forall_mem_cons]

theorem height_le_iff (pairs : List (String × String)) (n : Nat) :
    height pairs ≤ n ↔ ∀ e ∈ pairs, rank pairs e.1 ≤ n := by
  rw [height, foldr_max_le_iff, List.forall_mem_map]

theorem rank_le_height (pairs : List (String × String)) (field : String) : rank pairs field ≤ height pairs := by
  by_cases h : rank pairs field = 0
  · omega
  · obtain ⟨e, he, hf⟩ := List.countP_pos_iff.1 (Nat.pos_of_ne_zero h)
    rw [beq_iff_eq] at hf
    exact hf ▸ (height_le_iff pairs _).1 (Nat.le_refl _) e he

/-- One more pair may make its field the one that comes most often. -/
theorem height_snoc (pairs : List (String × String)) (e : String × String) :
    height (pairs ++ [e]) = max (height pairs) (rank pairs e.1 + 1) := by
  have hle : ∀ n, height (pairs ++ [e]) ≤ n ↔ max (height pairs) (rank pairs e.1 + 1) ≤ n := by
    intro n
    rw [Nat.max_le, height_le_iff, height_le_iff]
    constructor
    · intro h
      refine ⟨fun a ha => ?_, ?_⟩
      · have := h a (List.mem_append_left _ ha)
        rw [rank_snoc] at this
        omega
      · have := h e (List.mem_append_right _ (List.mem_singleton_self e))
        rwa [rank_snoc, if_pos rfl] at this
    · rintro ⟨h, he⟩ a ha
      rw [rank_snoc]
      by_cases hf : e.1 = a.1
      · rwa [if_pos hf, ← hf]
      · rw [if_neg hf]
        rcases List.mem_append.1 ha with ha | ha
        · exact h a ha
        · exact absurd (congrArg Prod.fst (List.mem_singleton.1 ha)).symm hf
  exact Nat.le_antisymm ((hle _).2 (Nat.le_refl _)) ((hle _).1 (Nat.le_refl _))

/-- Beyond the field that comes most often there are no more pairs. -/
theorem tier_eq_nil (h : height pairs ≤ k) : tier k pairs = [] := by
  rw [List.eq_nil_iff_forall_not_mem]
  intro e he
  have hany : ((tier k pairs).any fun a => a.1 == e.1) = true := List.any_eq_true.2 ⟨e, he, by simp⟩
  rw [any_tier_eq, decide_eq_true_iff] at hany
  exact absurd (rank_le_height pairs e.1) (by omega)

/-! ## Objects -/

/-- The objects hold the pairs. -/
theorem mem_objects (e : String × String) (pairs : List (String × String)) :
    e ∈ pairs ↔ ∃ o ∈ objects pairs, e ∈ o := by
  rw [mem_tier]
  constructor
  · rintro ⟨k, hk⟩
    refine ⟨tier k pairs, List.mem_map.2 ⟨k, List.mem_range.2 ?_, rfl⟩, hk⟩
    by_contra hlt
    rw [tier_eq_nil (Nat.le_of_not_lt hlt)] at hk
    exact absurd hk List.not_mem_nil
  · rintro ⟨o, ho, he⟩
    obtain ⟨k, -, rfl⟩ := List.mem_map.1 ho
    exact ⟨k, he⟩

/-- No object is empty. -/
theorem ne_nil_of_mem_objects {o : List (String × String)} (h : o ∈ objects pairs) : o ≠ [] := by
  obtain ⟨k, hk, rfl⟩ := List.mem_map.1 h
  rw [List.mem_range] at hk
  rintro hnil
  have hle : height pairs ≤ k := by
    rw [height_le_iff]
    intro e he
    have hany := any_tier_eq k pairs e.1
    rw [hnil, List.any_nil, eq_comm, decide_eq_false_iff_not] at hany
    exact Nat.le_of_not_lt hany
  omega

/-- An object has one pair a field. -/
theorem nodup_fields_of_mem_objects {o : List (String × String)} (h : o ∈ objects pairs) : (o.map Prod.fst).Nodup := by
  obtain ⟨k, -, rfl⟩ := List.mem_map.1 h
  exact nodup_fields_tier k pairs

/-- A field of which nothing is in an object comes less often than one of which there is something. -/
theorem rank_lt_of_mem_objects {o : List (String × String)} (h : o ∈ objects pairs) (he : e ∈ o) {field : String}
    (hf : ∀ a ∈ o, a.1 ≠ field) : rank pairs field < rank pairs e.1 := by
  obtain ⟨k, -, rfl⟩ := List.mem_map.1 h
  have hlt : k < rank pairs e.1 := by
    rw [← decide_eq_true_iff (p := k < rank pairs e.1), ← any_tier_eq, List.any_eq_true]
    exact ⟨e, he, by simp⟩
  have hle : ¬ k < rank pairs field := by
    rw [← decide_eq_true_iff (p := k < rank pairs field), ← any_tier_eq, List.any_eq_true]
    rintro ⟨a, ha, haf⟩
    exact hf a ha (beq_iff_eq.1 haf)
  omega

/-- The numbers below `h` are those below `r`, `r`, and those from there on. -/
theorem range_eq_of_lt {r h : Nat} (hr : r < h) :
    List.range h = List.range r ++ r :: List.range' (r + 1) (h - (r + 1)) := by
  obtain ⟨d, rfl⟩ := Nat.exists_eq_add_of_lt hr
  rw [List.range_eq_range', List.range_eq_range', show r + d + 1 = r + (d + 1) by omega, ← List.range'_append_1, Nat.zero_add,
    List.range'_succ]
  congr 3
  omega

/-- Placing one more pair makes the objects of all. -/
theorem place_objects (key : TermKey) (pairs : List (String × String)) (e : String × String) :
    Clause.place key e.1 e.2 ((objects pairs).map fun o => .term ⟨key, o⟩) =
      (objects (pairs ++ [e])).map fun o => .term ⟨key, o⟩ := by
  have hlacks : ∀ k, (Clause.term ⟨key, tier k pairs⟩).lacks e.1 = decide (rank pairs e.1 ≤ k) := by
    intro k
    rw [Clause.lacks, TermObject.has, any_tier_eq, ← decide_not, Bool.eq_iff_iff, decide_eq_true_iff, decide_eq_true_iff]
    exact Nat.not_lt
  rcases Nat.lt_or_eq_of_le (rank_le_height pairs e.1) with hr | hr
  · -- the tier of its rank takes the pair
    have hh : height (pairs ++ [e]) = height pairs := by rw [height_snoc]; omega
    rw [objects, objects, hh, range_eq_of_lt hr]
    simp only [List.map_append, List.map_cons, List.map_map]
    rw [Clause.place_append_term]
    · refine congrArg₂ _ (List.map_congr_left fun k hk => ?_) (congrArg₂ _ ?_ (List.map_congr_left fun k hk => ?_))
      · rw [List.mem_range] at hk
        simp [tier_snoc, Nat.ne_of_gt hk]
      · simp [tier_snoc]
      · rw [List.mem_range'_1] at hk
        simp [tier_snoc, show rank pairs e.1 ≠ k by omega]
    · intro c hc
      obtain ⟨k, hk, rfl⟩ := List.mem_map.1 hc
      rw [List.mem_range] at hk
      rw [Function.comp_apply, hlacks, decide_eq_false_iff_not]
      omega
    · have := hlacks (rank pairs e.1)
      simpa [Clause.lacks] using this
  · -- the pair opens a tier
    have hh : height (pairs ++ [e]) = height pairs + 1 := by rw [height_snoc]; omega
    rw [objects, objects, hh, List.range_succ, Clause.place_of_none_lacks]
    · simp only [List.map_append, List.map_cons, List.map_nil, List.map_map]
      refine congrArg₂ _ (List.map_congr_left fun k hk => ?_) ?_
      · rw [List.mem_range] at hk
        simp [tier_snoc, show rank pairs e.1 ≠ k by omega]
      · rw [tier_snoc, tier_eq_nil (Nat.le_refl _), if_pos hr, List.nil_append]
    · intro c hc
      obtain ⟨o, ho, rfl⟩ := List.mem_map.1 hc
      obtain ⟨k, hk, rfl⟩ := List.mem_map.1 ho
      rw [List.mem_range] at hk
      rw [hlacks, decide_eq_false_iff_not]
      omega

/-- Pairs placed in an empty scope become their objects. -/
theorem foldl_place_nil (key : TermKey) (pairs : List (String × String)) :
    pairs.foldl (fun cs e => Clause.place key e.1 e.2 cs) [] = (objects pairs).map fun o => .term ⟨key, o⟩ := by
  induction pairs using List.reverseRecOn with
  | nil => rfl
  | append_singleton pairs e ih => rw [List.foldl_append, List.foldl_cons, List.foldl_nil, ih, place_objects]

/-! ## No fewer objects will do -/

/-- The numbers below `n` contain a smaller one once. -/
theorem flatMap_range_single {r n : Nat} (h : r < n) (e : String × String) :
    ((List.range n).flatMap fun k => if r = k then [e] else []) = [e] := by
  have hbefore : ((List.range r).flatMap fun k => if r = k then [e] else []) = [] := by
    rw [List.flatMap_eq_nil_iff]
    intro k hk
    rw [List.mem_range] at hk
    rw [if_neg (by omega)]
  have hafter : ((List.range' (r + 1) (n - (r + 1))).flatMap fun k => if r = k then [e] else []) = [] := by
    rw [List.flatMap_eq_nil_iff]
    intro k hk
    rw [List.mem_range'_1] at hk
    rw [if_neg (by omega)]
  rw [range_eq_of_lt h, List.flatMap_append, List.flatMap_cons, hbefore, hafter, if_pos rfl]
  rfl

/-- The tiers hold each pair as often as it comes. -/
theorem flatMap_tier_perm {n : Nat} (h : height pairs ≤ n) : ((List.range n).flatMap fun k => tier k pairs).Perm pairs := by
  induction pairs using List.reverseRecOn with
  | nil => simp [tier, tierFrom]
  | append_singleton pairs e ih =>
    rw [height_snoc, Nat.max_le] at h
    simp only [tier_snoc]
    refine (List.flatMap_append_perm _ _ _).symm.trans ?_
    rw [flatMap_range_single h.2]
    exact (ih h.1).append_right [e]

/-- An object with one value a field has at most one pair of a field. -/
theorem rank_le_one {o : List (String × String)} (h : (o.map Prod.fst).Nodup) (field : String) : rank o field ≤ 1 := by
  have hcount : rank o field = (o.map Prod.fst).count field := by
    rw [rank, List.count, List.countP_map]
    rfl
  rw [hcount]
  exact List.nodup_iff_count_le_one.1 h field

/-- Objects with one value a field that hold the pairs are at least as many as the field that comes most often has pairs. -/
theorem height_le_length {os : List (List (String × String))} (hperm : os.flatten.Perm pairs)
    (hnodup : ∀ o ∈ os, (o.map Prod.fst).Nodup) : height pairs ≤ os.length := by
  rw [height_le_iff]
  intro e _
  have hrank : rank os.flatten e.1 ≤ os.length := by
    clear hperm
    induction os with
    | nil => simp [rank]
    | cons o os ih =>
      have ho := rank_le_one (hnodup o List.mem_cons_self) e.1
      have hos := ih fun o' ho' => hnodup o' (List.mem_cons_of_mem o ho')
      have hsplit : rank (o :: os).flatten e.1 = rank o e.1 + rank os.flatten e.1 := by
        rw [rank, List.flatten_cons, List.countP_append]
        rfl
      rw [hsplit, List.length_cons]
      omega
  have hsame : rank os.flatten e.1 = rank pairs e.1 := hperm.countP_eq _
  omega

example : objects [("city", "Paris"), ("country", "FR"), ("city", "Lyon")] =
    [[("city", "Paris"), ("country", "FR")], [("city", "Lyon")]] := by
  decide

end Packing

end SearchRules
