import SearchRules.Json.Printer
import SearchRules.Json.Reader
import SearchRules.Proofs.Text.Digits

/-!
# JSON numbers read back

A number literal is read the same way when the text goes on behind it, and what is left of the text is left as it was. The text of
an integer of 64 bits is read as the integer.
-/

namespace SearchRules.Json

/-- What may stand right behind a value: nothing, or a sign that parts or ends the items of a container. -/
def Follows (rest : List Char) : Prop :=
  ∀ c r, rest = c :: r → c = ',' ∨ c = ']' ∨ c = '}'

theorem follows_nil : Follows [] := nofun

theorem follows_cons {c : Char} (h : c = ',' ∨ c = ']' ∨ c = '}') (r : List Char) : Follows (c :: r) := by
  intro c' r' heq
  cases heq
  exact h

theorem Follows.stops {rest : List Char} (h : Follows rest) : Stops Char.isDigit rest := by
  intro c r heq
  rcases h c r heq with rfl | rfl | rfl <;> rfl

/-! ## Literals within a longer text -/

section

variable {cs r rest : List Char}

theorem fractionPart_of_ne (h : ∀ r, cs ≠ '.' :: r) : fractionPart cs = some ([], cs) := by
  unfold fractionPart
  split
  · rename_i r
    exact absurd rfl (h r)
  · rfl

theorem fractionPart_append (hrest : Follows rest) {fraction : List Char} (h : fractionPart cs = some (fraction, r)) :
    fractionPart (cs ++ rest) = some (fraction, r ++ rest) := by
  by_cases hpoint : ∃ t, cs = '.' :: t
  · obtain ⟨t, rfl⟩ := hpoint
    simp only [fractionPart, List.cons_append, takeWhile_append_of_stops hrest.stops,
      dropWhile_append_of_stops hrest.stops] at h ⊢
    split at h
    · cases h
    · rename_i hdigits
      cases h
      rw [if_neg hdigits]
  · have hcs : ∀ t, cs ≠ '.' :: t := fun t ht => hpoint ⟨t, ht⟩
    rw [fractionPart_of_ne hcs] at h
    cases h
    refine fractionPart_of_ne fun t ht => ?_
    cases cs with
    | nil => rcases hrest _ _ ht with hc | hc | hc <;> exact absurd hc (by decide)
    | cons c cs =>
      rw [List.cons_append, List.cons.injEq] at ht
      exact hcs cs (by rw [ht.1])

theorem exponentDigits_append (hrest : Follows rest) {negative : Bool} {exponent : Option Int}
    (h : exponentDigits negative cs = some (exponent, r)) :
    exponentDigits negative (cs ++ rest) = some (exponent, r ++ rest) := by
  simp only [exponentDigits, takeWhile_append_of_stops hrest.stops, dropWhile_append_of_stops hrest.stops] at h ⊢
  split at h
  · cases h
  · rename_i hdigits
    cases h
    rw [if_neg hdigits]

theorem exponentPart_of_ne (h : ∀ r, cs ≠ 'e' :: r) (h' : ∀ r, cs ≠ 'E' :: r) : exponentPart cs = some (none, cs) := by
  unfold exponentPart
  split
  all_goals first
    | rfl
    | exact absurd rfl (h _)
    | exact absurd rfl (h' _)

/-- Behind its mark and its sign an exponent is its digits. -/
theorem exponentPart_mark {mark : Char} (hmark : mark = 'e' ∨ mark = 'E') (c : Char) (cs : List Char) :
    exponentPart (mark :: c :: cs) =
      if c = '-' then exponentDigits true cs else if c = '+' then exponentDigits false cs
      else exponentDigits false (c :: cs) := by
  by_cases hminus : c = '-'
  · rw [if_pos hminus]
    rcases hmark with rfl | rfl <;> rw [hminus, exponentPart]
  · by_cases hplus : c = '+'
    · rw [if_neg hminus, if_pos hplus]
      rcases hmark with rfl | rfl <;> rw [hplus, exponentPart]
    · rw [if_neg hminus, if_neg hplus]
      have hsign : ∀ sign, sign = '-' ∨ sign = '+' → ∀ t, c :: cs ≠ sign :: t := by
        rintro sign hsign t ht
        rw [List.cons.injEq] at ht
        rcases hsign with rfl | rfl
        · exact hminus ht.1
        · exact hplus ht.1
      rcases hmark with rfl | rfl <;> rw [exponentPart]
      all_goals exact hsign _ (by simp)

theorem exponentPart_append (hrest : Follows rest) {exponent : Option Int} (h : exponentPart cs = some (exponent, r)) :
    exponentPart (cs ++ rest) = some (exponent, r ++ rest) := by
  by_cases hmark : ∃ mark t, cs = mark :: t ∧ (mark = 'e' ∨ mark = 'E')
  · obtain ⟨mark, t, rfl, hmark⟩ := hmark
    cases t with
    | nil =>
      -- a mark with nothing behind it is no exponent
      have hnone : exponentPart [mark] = none := by rcases hmark with rfl | rfl <;> rfl
      rw [hnone] at h
      cases h
    | cons c t =>
      rw [List.cons_append, List.cons_append, exponentPart_mark hmark]
      rw [exponentPart_mark hmark] at h
      split
      · rw [if_pos ‹_›] at h
        exact exponentDigits_append hrest h
      · rw [if_neg ‹_›] at h
        split
        · rw [if_pos ‹_›] at h
          exact exponentDigits_append hrest h
        · rw [if_neg ‹_›] at h
          exact exponentDigits_append hrest h
  · have hcs : ∀ mark t, mark = 'e' ∨ mark = 'E' → cs ≠ mark :: t := fun mark t hm ht => hmark ⟨mark, t, ht, hm⟩
    rw [exponentPart_of_ne (fun t => hcs 'e' t (.inl rfl)) (fun t => hcs 'E' t (.inr rfl))] at h
    cases h
    have happend : ∀ mark t, mark = 'e' ∨ mark = 'E' → cs ++ rest ≠ mark :: t := by
      intro mark t hm ht
      cases cs with
      | nil => rcases hrest _ _ ht with rfl | rfl | rfl <;> exact absurd hm (by decide)
      | cons c cs =>
        rw [List.cons_append, List.cons.injEq] at ht
        exact hcs mark cs hm (by rw [ht.1])
    exact exponentPart_of_ne (fun t => happend 'e' t (.inl rfl)) (fun t => happend 'E' t (.inr rfl))

theorem magnitudeLiteral_append (hrest : Follows rest) {negative : Bool} {l : NumberLiteral}
    (h : magnitudeLiteral negative cs = some (l, r)) : magnitudeLiteral negative (cs ++ rest) = some (l, r ++ rest) := by
  simp only [magnitudeLiteral, takeWhile_append_of_stops hrest.stops, dropWhile_append_of_stops hrest.stops] at h ⊢
  split at h
  · cases h
  · rename_i hwhole
    rw [if_neg hwhole]
    obtain ⟨⟨fraction, t⟩, hfraction, h⟩ := Option.bind_eq_some_iff.1 h
    obtain ⟨⟨exponent, t'⟩, hexponent, h⟩ := Option.bind_eq_some_iff.1 h
    cases h
    simp [fractionPart_append hrest hfraction, exponentPart_append hrest hexponent]

theorem numberLiteral_of_ne (h : ∀ r, cs ≠ '-' :: r) : numberLiteral cs = magnitudeLiteral false cs := by
  unfold numberLiteral
  split
  · exact absurd rfl (h _)
  · rfl

/-- A literal is read the same way when the text goes on behind it. -/
theorem numberLiteral_append (hrest : Follows rest) {l : NumberLiteral} (h : numberLiteral cs = some (l, r)) :
    numberLiteral (cs ++ rest) = some (l, r ++ rest) := by
  by_cases hsign : ∃ t, cs = '-' :: t
  · obtain ⟨t, rfl⟩ := hsign
    exact magnitudeLiteral_append hrest h
  · have hcs : ∀ t, cs ≠ '-' :: t := fun t ht => hsign ⟨t, ht⟩
    rw [numberLiteral_of_ne hcs] at h
    rw [numberLiteral_of_ne, magnitudeLiteral_append hrest h]
    intro t ht
    cases cs with
    | nil => simp [magnitudeLiteral] at h
    | cons c cs =>
      rw [List.cons_append, List.cons.injEq] at ht
      exact hcs cs (by rw [ht.1])

/-! ## What a literal leaves -/

theorem suffix_of_fractionPart {fraction : List Char} (h : fractionPart cs = some (fraction, r)) : r <:+ cs := by
  unfold fractionPart at h
  split at h
  · simp only at h
    split at h
    · cases h
    · cases h
      exact (List.dropWhile_suffix _).trans (List.suffix_cons _ _)
  · cases h
    exact List.suffix_refl _

theorem suffix_of_exponentDigits {negative : Bool} {exponent : Option Int}
    (h : exponentDigits negative cs = some (exponent, r)) : r <:+ cs := by
  simp only [exponentDigits] at h
  split at h
  · cases h
  · cases h
    exact List.dropWhile_suffix _

theorem suffix_of_exponentPart {exponent : Option Int} (h : exponentPart cs = some (exponent, r)) : r <:+ cs := by
  unfold exponentPart at h
  split at h
  · exact ((suffix_of_exponentDigits h).trans (List.suffix_cons _ _)).trans (List.suffix_cons _ _)
  · exact ((suffix_of_exponentDigits h).trans (List.suffix_cons _ _)).trans (List.suffix_cons _ _)
  · exact ((suffix_of_exponentDigits h).trans (List.suffix_cons _ _)).trans (List.suffix_cons _ _)
  · exact ((suffix_of_exponentDigits h).trans (List.suffix_cons _ _)).trans (List.suffix_cons _ _)
  · exact (suffix_of_exponentDigits h).trans (List.suffix_cons _ _)
  · exact (suffix_of_exponentDigits h).trans (List.suffix_cons _ _)
  · cases h
    exact List.suffix_refl _

theorem suffix_of_magnitudeLiteral {negative : Bool} {l : NumberLiteral} (h : magnitudeLiteral negative cs = some (l, r)) :
    r <:+ cs := by
  simp only [magnitudeLiteral] at h
  split at h
  · cases h
  · obtain ⟨⟨fraction, t⟩, hfraction, h⟩ := Option.bind_eq_some_iff.1 h
    obtain ⟨⟨exponent, t'⟩, hexponent, h⟩ := Option.bind_eq_some_iff.1 h
    cases h
    exact ((suffix_of_exponentPart hexponent).trans (suffix_of_fractionPart hfraction)).trans (List.dropWhile_suffix _)

/-- What a literal leaves of a text is the end of it. -/
theorem suffix_of_numberLiteral {l : NumberLiteral} (h : numberLiteral cs = some (l, r)) : r <:+ cs := by
  unfold numberLiteral at h
  split at h
  · exact (suffix_of_magnitudeLiteral h).trans (List.suffix_cons _ _)
  · exact suffix_of_magnitudeLiteral h

end

/-! ## Integers -/

/-- An integer that fits 64 bits, with or without a sign. -/
def Fits64 (i : Int) : Prop :=
  -((UInt64.size / 2 : Nat) : Int) ≤ i ∧ i < (UInt64.size : Nat)

/-- The literal that the text of an integer is. -/
def intLiteral (i : Int) : NumberLiteral :=
  ⟨decide (i < 0), Nat.toDigits 10 i.natAbs, [], none⟩

theorem magnitudeLiteral_toDigits {rest : List Char} (hrest : Follows rest) (negative : Bool) (n : Nat) :
    magnitudeLiteral negative (Nat.toDigits 10 n ++ rest) = some (⟨negative, Nat.toDigits 10 n, [], none⟩, rest) := by
  have hwhole : (Nat.toDigits 10 n).takeWhile Char.isDigit = Nat.toDigits 10 n := by
    simpa using takeWhile_append_of_all (fun c hc => isDigit_of_mem_toDigits hc) (stops_nil Char.isDigit)
  have hnil : (Nat.toDigits 10 n).dropWhile Char.isDigit = [] := by
    simpa using dropWhile_append_of_all (fun c hc => isDigit_of_mem_toDigits hc) (stops_nil Char.isDigit)
  have hzero : ((Nat.toDigits 10 n).head? == some '0' && decide ((Nat.toDigits 10 n).length ≠ 1)) = false := by
    cases hds : Nat.toDigits 10 n with
    | nil => rfl
    | cons c ds =>
      by_cases hc : c = '0'
      · subst hc
        simp [(eq_zero_of_toDigits_eq_cons hds).2]
      · simp [hc]
  have hself : magnitudeLiteral negative (Nat.toDigits 10 n) = some (⟨negative, Nat.toDigits 10 n, [], none⟩, []) := by
    simp only [magnitudeLiteral, hwhole, hnil]
    rw [if_neg (by simp only [hzero]; simp)]
    rfl
  exact magnitudeLiteral_append hrest hself

theorem numberLiteral_intText {rest : List Char} (hrest : Follows rest) (i : Int) :
    numberLiteral (intText i ++ rest) = some (intLiteral i, rest) := by
  unfold intText intLiteral
  split
  · rename_i hi
    rw [List.cons_append, numberLiteral, magnitudeLiteral_toDigits hrest, decide_eq_true hi]
  · rename_i hi
    have hself : numberLiteral (Nat.toDigits 10 i.natAbs) = magnitudeLiteral false (Nat.toDigits 10 i.natAbs) := by
      refine numberLiteral_of_ne fun r hr => ?_
      have hdigit : '-'.isDigit = true := isDigit_of_mem_toDigits (by rw [hr]; exact List.mem_cons_self)
      exact absurd hdigit (by decide)
    have hliteral := magnitudeLiteral_toDigits follows_nil false i.natAbs
    rw [List.append_nil, ← hself] at hliteral
    rw [numberLiteral_append hrest hliteral, decide_eq_false hi, List.nil_append]

theorem value_intLiteral {i : Int} (h : Fits64 i) : (intLiteral i).value = .int i := by
  obtain ⟨hlow, hhigh⟩ := h
  have hint : (intLiteral i).int? = some i := by
    simp only [NumberLiteral.int?, intLiteral, List.isEmpty_nil, Option.isNone_none, Bool.and_self, if_true,
      digitsValue_toDigits]
    by_cases hi : i < 0
    · rw [decide_eq_true hi, if_pos rfl, if_pos]
      · rw [Option.some.injEq]
        omega
      · simp only [Bool.and_eq_true, decide_eq_true_eq]
        omega
    · rw [decide_eq_false hi, if_neg (by simp), if_pos (by omega)]
      rw [Option.some.injEq]
      omega
  rw [NumberLiteral.value, hint]

end SearchRules.Json
