import SearchRules.Decimal.Shortest
import SearchRules.Text.Digits

/-!
# The texts of numbers

What the readers of both notations need of the texts of integers and finite numbers: which characters they are made of, how they
begin, that the digits of a number read back as the number, and that a run of characters ends where it ended when the text goes on
with something of another kind.
-/

namespace SearchRules

/-! ## Runs of characters -/

/-- Characters of different kinds are different. -/
theorem ne_of_holds {p : Char → Bool} {c c' : Char} (h : p c = true) (h' : p c' = false) : c ≠ c' := by
  rintro rfl
  rw [h] at h'
  cases h'

/-- A text at which a run of characters ends: nothing, or one that begins with a character of another kind. -/
def Stops (p : Char → Bool) (rest : List Char) : Prop :=
  ∀ c r, rest = c :: r → p c = false

theorem stops_nil (p : Char → Bool) : Stops p [] := nofun

theorem stops_cons {p : Char → Bool} {c : Char} (h : p c = false) (r : List Char) : Stops p (c :: r) := by
  intro c' r' heq
  cases heq
  exact h

theorem takeWhile_append_of_stops {p : Char → Bool} {rest : List Char} (h : Stops p rest) (cs : List Char) :
    (cs ++ rest).takeWhile p = cs.takeWhile p := by
  induction cs with
  | nil =>
    cases rest with
    | nil => rfl
    | cons c r => simp [h c r rfl]
  | cons c cs ih =>
    rw [List.cons_append, List.takeWhile_cons, List.takeWhile_cons, ih]

theorem dropWhile_append_of_stops {p : Char → Bool} {rest : List Char} (h : Stops p rest) (cs : List Char) :
    (cs ++ rest).dropWhile p = cs.dropWhile p ++ rest := by
  induction cs with
  | nil =>
    cases rest with
    | nil => rfl
    | cons c r => simp [h c r rfl]
  | cons c cs ih =>
    rw [List.cons_append, List.dropWhile_cons, List.dropWhile_cons, ih]
    split <;> rfl

/-- A run that makes up a whole text ends at the text behind it. -/
theorem takeWhile_append_of_all {p : Char → Bool} {cs rest : List Char} (hcs : ∀ c ∈ cs, p c = true) (h : Stops p rest) :
    (cs ++ rest).takeWhile p = cs := by
  have hrest : rest.takeWhile p = [] := takeWhile_append_of_stops h []
  rw [List.takeWhile_append_of_pos hcs, hrest, List.append_nil]

theorem dropWhile_append_of_all {p : Char → Bool} {cs rest : List Char} (hcs : ∀ c ∈ cs, p c = true) (h : Stops p rest) :
    (cs ++ rest).dropWhile p = rest := by
  have hrest : rest.dropWhile p = rest := dropWhile_append_of_stops h []
  rw [List.dropWhile_append_of_pos hcs, hrest]

/-! ## Digits -/

theorem eq_ofNat_of_toNat_eq {c : Char} {n : Nat} (h : c.toNat = n) : c = Char.ofNat n := by
  rw [← h, Char.ofNat_toNat]

theorem hexValue?_digitChar : ∀ d < 16, hexValue? (Nat.digitChar d) = some d := by
  decide

theorem digitValue_digitChar {d : Nat} (h : d < 16) : digitValue (Nat.digitChar d) = d := by
  rw [digitValue, hexValue?_digitChar d h, Option.getD_some]

theorem digitsValue_append_singleton (base : Nat) (cs : List Char) (c : Char) :
    digitsValue base (cs ++ [c]) = base * digitsValue base cs + digitValue c := by
  simp [digitsValue]

/-- The digits of a number read back as the number. -/
theorem digitsValue_toDigits (n : Nat) : digitsValue 10 (Nat.toDigits 10 n) = n := by
  induction n using Nat.strongRecOn with
  | ind n ih =>
    by_cases hn : n < 10
    · have hd := digitValue_digitChar (d := n) (by omega)
      simp [Nat.toDigits_of_lt_base hn, digitsValue, hd]
    · have hmod := digitValue_digitChar (d := n % 10) (by omega)
      have hdiv := ih (n / 10) (by omega)
      rw [Nat.toDigits_of_base_le (by decide) (by omega), digitsValue_append_singleton, hmod, hdiv]
      omega

theorem isDigit_of_mem_toDigits {n : Nat} {c : Char} (h : c ∈ Nat.toDigits 10 n) : c.isDigit = true :=
  Nat.isDigit_of_mem_toDigits (by decide) (by decide) h

/-- Only zero has a zero in front. -/
theorem eq_zero_of_toDigits_eq_cons {n : Nat} {cs : List Char} (h : Nat.toDigits 10 n = '0' :: cs) : n = 0 ∧ cs = [] := by
  induction n using Nat.strongRecOn generalizing cs with
  | ind n ih =>
    by_cases hn : n < 10
    · rw [Nat.toDigits_of_lt_base hn, List.cons.injEq, Nat.digitChar_eq_zero] at h
      exact ⟨h.1, h.2.symm⟩
    · rw [Nat.toDigits_of_base_le (by decide) (by omega)] at h
      cases hdiv : Nat.toDigits 10 (n / 10) with
      | nil => exact absurd hdiv Nat.toDigits_ne_nil
      | cons c ds =>
        rw [hdiv, List.cons_append, List.cons.injEq] at h
        have hzero := (ih (n / 10) (by omega) (h.1 ▸ hdiv)).1
        omega

/-! ## Texts of numbers -/

/-- A text that begins like a number. -/
def NumberHead (cs : List Char) : Prop :=
  ∃ c r, cs = c :: r ∧ (c.isDigit = true ∨ c = '-')

theorem numberHead_of_digits {cs : List Char} (hne : cs ≠ []) (h : ∀ c ∈ cs, c.isDigit = true) : NumberHead cs := by
  cases cs with
  | nil => exact absurd rfl hne
  | cons c r => exact ⟨c, r, rfl, .inl (h c List.mem_cons_self)⟩

theorem NumberHead.append {cs : List Char} (h : NumberHead cs) (rest : List Char) : NumberHead (cs ++ rest) := by
  obtain ⟨c, r, rfl, hc⟩ := h
  exact ⟨c, r ++ rest, rfl, hc⟩

theorem numberHead_intText (i : Int) : NumberHead (intText i) := by
  unfold intText
  split
  · exact ⟨'-', _, rfl, .inr rfl⟩
  · exact numberHead_of_digits Nat.toDigits_ne_nil fun c hc => isDigit_of_mem_toDigits hc

/-- A character of the text of a finite number. -/
def isFloatChar (c : Char) : Bool :=
  c.isDigit || ['.', 'e', '+', '-'].contains c

theorem isFloatChar_of_isDigit {c : Char} (h : c.isDigit = true) : isFloatChar c = true := by
  rw [isFloatChar, h, Bool.true_or]

namespace FloatLayout

variable {digits : List Char}

theorem all_isFloatChar_positionalText (h : ∀ c ∈ digits, isFloatChar c = true) (exponent : Int) :
    ∀ c ∈ positionalText digits exponent, isFloatChar c = true := by
  have hzero : isFloatChar '0' = true := by decide
  have hpoint : isFloatChar '.' = true := by decide
  intro c hc
  unfold positionalText at hc
  split at hc
  · simp only [List.mem_append, List.mem_replicate, List.mem_cons, List.not_mem_nil, or_false] at hc
    rcases hc with (hc | ⟨-, rfl⟩) | rfl | rfl
    · exact h c hc
    · exact hzero
    · exact hpoint
    · exact hzero
  · simp only at hc
    split at hc
    · simp only [List.mem_append, List.mem_cons] at hc
      rcases hc with hc | rfl | hc
      · exact h c (List.mem_of_mem_take hc)
      · exact hpoint
      · exact h c (List.mem_of_mem_drop hc)
    · simp only [List.mem_append, List.mem_replicate, List.mem_cons, List.not_mem_nil, or_false] at hc
      rcases hc with ((rfl | rfl) | ⟨-, rfl⟩) | hc
      · exact hzero
      · exact hpoint
      · exact hzero
      · exact h c hc

theorem all_isFloatChar_exponentText (h : ∀ c ∈ digits, isFloatChar c = true) (lead : Int) :
    ∀ c ∈ exponentText digits lead, isFloatChar c = true := by
  have hmark : ∀ c ∈ if lead < 0 then ['e', '-'] else ['e', '+'], isFloatChar c = true := by
    split <;> exact List.all_eq_true.1 (by decide)
  have hfraction : ∀ c ∈ if digits.length ≤ 1 then [] else '.' :: digits.drop 1, isFloatChar c = true := by
    split
    · nofun
    · intro c hc
      rcases List.mem_cons.1 hc with rfl | hc
      · decide
      · exact h c (List.mem_of_mem_drop hc)
  intro c hc
  simp only [exponentText, List.mem_append] at hc
  rcases hc with ((hc | hc) | hc) | hc
  · exact h c (List.mem_of_mem_take hc)
  · exact hfraction c hc
  · exact hmark c hc
  · exact isFloatChar_of_isDigit (isDigit_of_mem_toDigits hc)

/-- The text of a finite number is made of digits, a point, and an exponent behind its mark and its sign. -/
theorem all_isFloatChar_text (layout : FloatLayout) (x : Binary64.Finite) : ∀ c ∈ layout.text x, isFloatChar c = true := by
  have hmagnitude : ∀ d : Decimal, ∀ c ∈ layout.magnitudeText d, isFloatChar c = true := by
    intro d
    have hdigits : ∀ c ∈ Nat.toDigits 10 d.digits, isFloatChar c = true :=
      fun c hc => isFloatChar_of_isDigit (isDigit_of_mem_toDigits hc)
    unfold magnitudeText
    simp only
    split
    · exact all_isFloatChar_positionalText hdigits _
    · exact all_isFloatChar_exponentText hdigits _
  intro c hc
  simp only [text, List.mem_append] at hc
  rcases hc with hc | hc
  · split at hc
    · rw [List.mem_singleton.1 hc]
      decide
    · cases hc
  · split at hc
    · exact List.all_eq_true.1 (by decide) c hc
    · exact hmagnitude _ c hc

theorem numberHead_positionalText (hne : digits ≠ []) (h : ∀ c ∈ digits, c.isDigit = true) (exponent : Int) :
    NumberHead (positionalText digits exponent) := by
  unfold positionalText
  split
  · rw [List.append_assoc]
    exact (numberHead_of_digits hne h).append _
  · simp only
    split
    · rename_i hplaces
      refine (numberHead_of_digits ?_ fun c hc => h c (List.mem_of_mem_take hc)).append _
      rw [ne_eq, List.take_eq_nil_iff, not_or]
      exact ⟨by omega, hne⟩
    · exact ⟨'0', _, rfl, .inl rfl⟩

theorem numberHead_exponentText (hne : digits ≠ []) (h : ∀ c ∈ digits, c.isDigit = true) (lead : Int) :
    NumberHead (exponentText digits lead) := by
  unfold exponentText
  simp only [List.append_assoc]
  refine (numberHead_of_digits ?_ fun c hc => h c (List.mem_of_mem_take hc)).append _
  rw [ne_eq, List.take_eq_nil_iff, not_or]
  exact ⟨by decide, hne⟩

theorem numberHead_text (layout : FloatLayout) (x : Binary64.Finite) : NumberHead (layout.text x) := by
  unfold text
  split
  · exact ⟨'-', _, rfl, .inr rfl⟩
  · rw [List.nil_append]
    split
    · exact ⟨'0', _, rfl, .inl rfl⟩
    · have hdigits : ∀ n, ∀ c ∈ Nat.toDigits 10 n, c.isDigit = true := fun n c hc => isDigit_of_mem_toDigits hc
      unfold magnitudeText
      simp only
      split
      · exact numberHead_positionalText Nat.toDigits_ne_nil (hdigits _) _
      · exact numberHead_exponentText Nat.toDigits_ne_nil (hdigits _) _

end FloatLayout

end SearchRules
