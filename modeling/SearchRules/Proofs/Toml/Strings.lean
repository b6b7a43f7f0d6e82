import SearchRules.Proofs.Text.Digits
import SearchRules.Toml.Printer

/-!
# TOML strings read back

In whichever of the four forms a string is written, it is read back as it was, provided no quote follows it: `stringLiteral_quoted`.
-/

namespace SearchRules.Toml

/-- A text that goes on without a quote. -/
def Unquoted (rest : List Char) : Prop :=
  ∀ c r, rest = c :: r → c ≠ '"' ∧ c ≠ '\''

theorem unquoted_cons {c : Char} (h : c ≠ '"' ∧ c ≠ '\'') (r : List Char) : Unquoted (c :: r) := by
  intro c' r' heq
  cases heq
  exact h

/-! ## Escapes -/

theorem hexValue?_hexDigit : ∀ n < 16, hexValue? (hexDigit n) = some n := by
  decide

/-- A control character is read back from its number. -/
theorem hexChar?_hexDigits {c : Char} (h : c.toNat < 0x80) :
    hexChar? ['0', '0', hexDigit (c.toNat / 16), hexDigit (c.toNat % 16)] = some c := by
  have hzero : hexValue? '0' = some 0 := rfl
  have hhigh := hexValue?_hexDigit (c.toNat / 16) (by omega)
  have hlow := hexValue?_hexDigit (c.toNat % 16) (by omega)
  have hvalue : 16 * (c.toNat / 16) + c.toNat % 16 = c.toNat := by omega
  have hvalid : c.toNat.isValidChar := c.valid
  simp [hexChar?, hzero, hhigh, hlow, hvalue, hvalid]

theorem lt_of_isControl {c : Char} (h : isControl c = true) : c.toNat < 0x80 := by
  simp only [isControl, Bool.or_eq_true, Bool.and_eq_true, decide_eq_true_eq, beq_iff_eq] at h
  omega

/-! ## Basic strings on one line -/

theorem basicTail_char {c : Char} (hquote : c ≠ '"') (hslash : c ≠ '\\') (hcontrol : isControl c = false) (r : List Char) :
    basicTail (c :: r) = (basicTail r).map (withChars [c]) := by
  conv => lhs; unfold basicTail
  split
  · cases ‹_›
  · cases ‹_›
    exact absurd rfl hquote
  · cases ‹_›
    exact absurd rfl hslash
  · cases ‹_›
    exact absurd rfl hslash
  · cases ‹_›
    exact absurd rfl hslash
  · cases ‹_›
    exact absurd rfl hslash
  · rename_i heq
    cases heq
    rw [if_neg (by simp [hcontrol])]

/-- A character is read back from what it is written as. -/
theorem basicTail_charText {c : Char} (hquote : c ≠ '"') (hline : c ≠ '\n') (r : List Char) :
    basicTail (charText c ++ r) = (basicTail r).map (withChars [c]) := by
  unfold charText
  split
  · rename_i hc
    subst hc
    rfl
  split
  · rename_i hc
    rw [eq_ofNat_of_toNat_eq hc]
    rfl
  split
  · rename_i hc
    subst hc
    rfl
  split
  · rename_i hc
    rw [eq_ofNat_of_toNat_eq hc]
    rfl
  split
  · rename_i hc
    subst hc
    rfl
  split
  · rename_i hc
    simp only [List.cons_append, List.nil_append, basicTail, hexChar?_hexDigits (lt_of_isControl hc)]
  · rename_i hslash _ _ _ _ hcontrol
    exact basicTail_char hquote hslash (by simpa using hcontrol) r

theorem basicTail_basicChar (c : Char) (r : List Char) : basicTail (basicChar c ++ r) = (basicTail r).map (withChars [c]) := by
  unfold basicChar
  split
  · rename_i hc
    subst hc
    rfl
  · rename_i hquote
    split
    · rename_i hc
      subst hc
      rfl
    · rename_i hline
      exact basicTail_charText hquote hline r

theorem basicTail_flatMap_basicChar (cs r : List Char) : basicTail (cs.flatMap basicChar ++ '"' :: r) = some (cs, r) := by
  induction cs with
  | nil => rfl
  | cons c cs ih =>
    rw [List.flatMap_cons, List.append_assoc, basicTail_basicChar, ih]
    rfl

/-! ## Literal strings -/

theorem literalTail_append (cs r : List Char) (h : ∀ c ∈ cs, c ≠ '\'' ∧ isControl c = false) :
    literalTail (cs ++ '\'' :: r) = some (cs, r) := by
  induction cs with
  | nil => rfl
  | cons c cs ih =>
    rw [List.forall_mem_cons] at h
    obtain ⟨⟨hquote, hcontrol⟩, hcs⟩ := h
    rw [List.cons_append]
    unfold literalTail
    split
    · cases ‹_›
    · cases ‹_›
      exact absurd rfl hquote
    · rename_i heq
      cases heq
      rw [if_neg (by simp [hcontrol]), ih hcs]
      rfl

/-! ## Strings on several lines -/

/-- Whether a text begins with a character. -/
def leads (q : Char) (cs : List Char) : Bool :=
  cs.head? == some q

/-- Whether a text begins with two of a character. -/
def startsPair (q : Char) (cs : List Char) : Bool :=
  leads q cs && leads q (cs.drop 1)

theorem startsPair_of_not_leads {q : Char} {cs : List Char} (h : leads q cs = false) : startsPair q cs = false := by
  rw [startsPair, h, Bool.false_and]

theorem startsPair_cons (q : Char) (cs : List Char) : startsPair q (q :: cs) = leads q cs := by
  simp [startsPair, leads]

theorem closing_of_unquoted {q : Char} (hq : q = '"' ∨ q = '\'') {rest : List Char} (hrest : Unquoted rest) {n : Nat}
    (hn : n ≤ 2) : closing q (List.replicate n q ++ rest) = some (List.replicate n q, rest) := by
  have hstops : Stops (· == q) rest := by
    intro c r heq
    obtain ⟨hdouble, hsingle⟩ := hrest c r heq
    rcases hq with rfl | rfl
    · exact beq_false_of_ne hdouble
    · exact beq_false_of_ne hsingle
  have hmore : (List.replicate n q ++ rest).takeWhile (· == q) = List.replicate n q := by
    refine takeWhile_append_of_all (fun c hc => ?_) hstops
    rw [(List.mem_replicate.1 hc).2]
    exact beq_self_eq_true q
  simp only [closing, hmore, List.length_replicate, if_pos hn]
  simp

theorem basicLinesTail_text_char {c : Char} (hquote : c ≠ '"') (hslash : c ≠ '\\') (hcontrol : isControl c = false ∨ c = '\n')
    (hreturn : c ≠ '\r') (r : List Char) : basicLinesTail .text (c :: r) = (basicLinesTail .text r).map (withChars [c]) := by
  conv => lhs; unfold basicLinesTail
  split
  · cases ‹_›
  · cases ‹_›
    exact absurd rfl hquote
  · cases ‹_›
    exact absurd rfl hreturn
  · cases ‹_›
    exact absurd rfl hslash
  · cases ‹_›
    exact absurd rfl hslash
  · cases ‹_›
    exact absurd rfl hslash
  · cases ‹_›
    exact absurd rfl hslash
  · cases ‹_›
    exact absurd rfl hslash
  · rename_i heq
    cases heq
    split
    · rename_i hline
      rw [hline, if_pos rfl]
    · rename_i hline
      rw [if_neg (by simp), if_neg (by simp [hcontrol.resolve_right hline])]

/-- A quote that does not begin the end of the string is a character like others. -/
theorem basicLinesTail_text_quote {r : List Char} (h : startsPair '"' r = false) :
    basicLinesTail .text ('"' :: r) = (basicLinesTail .text r).map (withChars ['"']) := by
  conv => lhs; unfold basicLinesTail
  split
  · cases ‹_›
  · rename_i heq
    cases heq
    exact absurd h (by simp [startsPair, leads])
  · cases ‹_›
  · cases ‹_›
  · cases ‹_›
  · cases ‹_›
  · cases ‹_›
  · cases ‹_›
  · rename_i heq
    cases heq
    rfl

theorem basicLinesTail_text_charText {c : Char} (hquote : c ≠ '"') (hline : c ≠ '\n') (r : List Char) :
    basicLinesTail .text (charText c ++ r) = (basicLinesTail .text r).map (withChars [c]) := by
  unfold charText
  split
  · rename_i hc
    subst hc
    rfl
  split
  · rename_i hc
    rw [eq_ofNat_of_toNat_eq hc]
    rfl
  split
  · rename_i hc
    subst hc
    rfl
  split
  · rename_i hc
    rw [eq_ofNat_of_toNat_eq hc]
    rfl
  split
  · rename_i hc
    subst hc
    rfl
  split
  · rename_i hc
    simp only [List.cons_append, List.nil_append]
    conv => lhs; unfold basicLinesTail
    simp only [hexChar?_hexDigits (lt_of_isControl hc)]
  · rename_i hslash _ _ _ hreturn hcontrol
    exact basicLinesTail_text_char hquote hslash (.inl (by simpa using hcontrol)) hreturn r

/-- What is written for a character that is no quote does not begin with one. -/
theorem leads_charText {c : Char} (hquote : c ≠ '"') (r : List Char) : leads '"' (charText c ++ r) = false := by
  unfold charText
  repeat' split
  all_goals first
    | rfl
    | simp [leads, hquote]

/-- What is left of a string begins with a quote only where a quote is written as it is. -/
theorem leads_basicLines {n : Nat} {c : Char} (h : c ≠ '"' ∨ n = 2) (cs rest : List Char) :
    leads '"' (basicLines n (c :: cs) ++ rest) = false := by
  unfold basicLines
  by_cases hquote : c = '"'
  · have hn : n = 2 := h.resolve_left (fun hc => hc hquote)
    rw [if_pos hquote, if_pos hn]
    rfl
  · rw [if_neg hquote]
    split
    · rfl
    · rw [List.append_assoc]
      exact leads_charText hquote _

/-- Behind a quote, what is left of a string begins with two more only at the end of the string. -/
theorem startsPair_basicLines {n : Nat} {cs : List Char} (hnil : cs ≠ []) (hone : ¬(n = 0 ∧ cs = ['"'])) (hn : n < 2)
    (rest : List Char) : startsPair '"' (basicLines (n + 1) cs ++ rest) = false := by
  match cs with
  | [] => exact absurd rfl hnil
  | c :: cs' =>
    by_cases hlead : c ≠ '"' ∨ n + 1 = 2
    · exact startsPair_of_not_leads (leads_basicLines hlead cs' _)
    · -- something else or an escaped quote follows the second quote
      obtain ⟨rfl, hzero⟩ : c = '"' ∧ n = 0 := by
        rw [not_or] at hlead
        exact ⟨Decidable.not_not.1 hlead.1, by omega⟩
      subst hzero
      match cs' with
      | [] => exact absurd ⟨rfl, rfl⟩ hone
      | c' :: cs' =>
        rw [basicLines, if_pos rfl, if_neg (by decide), List.cons_append, startsPair_cons]
        exact leads_basicLines (.inr rfl) cs' _

/-- A basic string on several lines is read back from behind up to two quotes. -/
theorem basicLinesTail_basicLines {rest : List Char} (hrest : Unquoted rest) (cs : List Char) :
    ∀ n ≤ 2, basicLinesTail .text (basicLines n cs ++ '"' :: '"' :: '"' :: rest) = some (cs, rest) := by
  induction cs with
  | nil =>
    intro n _
    have hclose := closing_of_unquoted (.inl rfl) hrest (Nat.zero_le 2)
    simpa [basicLines, basicLinesTail] using hclose
  | cons c cs ih =>
    intro n hn
    by_cases hquote : c = '"'
    · subst hquote
      rw [basicLines, if_pos rfl]
      by_cases hthird : n = 2
      · -- the third quote of a run is escaped
        have hescape : ∀ r, basicLinesTail .text ('\\' :: '"' :: r) = (basicLinesTail .text r).map (withChars ['"']) :=
          fun _ => rfl
        rw [if_pos hthird, List.cons_append, List.cons_append, hescape, ih 0 (by omega)]
        rfl
      · rw [if_neg hthird, List.cons_append]
        -- one or two quotes at the end are read together with the closing ones
        by_cases hnil : cs = []
        · subst hnil
          have hclose := closing_of_unquoted (.inl rfl) hrest (show 1 ≤ 2 by decide)
          simpa [basicLines, basicLinesTail] using hclose
        by_cases hone : n = 0 ∧ cs = ['"']
        · obtain ⟨rfl, rfl⟩ := hone
          have hclose := closing_of_unquoted (.inl rfl) hrest (show 2 ≤ 2 by decide)
          simpa [basicLines, basicLinesTail, List.replicate] using hclose
        · rw [basicLinesTail_text_quote (startsPair_basicLines hnil hone (by omega) _), ih (n + 1) (by omega)]
          rfl
    · rw [basicLines, if_neg hquote]
      by_cases hline : c = '\n'
      · rw [if_pos hline, List.cons_append, ← hline,
          basicLinesTail_text_char hquote (hline ▸ by decide) (.inr hline) (hline ▸ by decide), ih 0 (by omega)]
        rfl
      · rw [if_neg hline, List.append_assoc, basicLinesTail_text_charText hquote hline, ih 0 (by omega)]
        rfl

theorem literalLinesTail_char {c : Char} (hquote : c ≠ '\'') (hplain : needsEscape c = false) (r : List Char) :
    literalLinesTail (c :: r) = (literalLinesTail r).map (withChars [c]) := by
  conv => lhs; unfold literalLinesTail
  split
  · cases ‹_›
  · cases ‹_›
    exact absurd rfl hquote
  · cases ‹_›
    exact absurd hplain (by decide)
  · rename_i heq
    cases heq
    rw [if_neg (by simpa [needsEscape] using hplain)]

theorem literalLinesTail_quote {r : List Char} (h : startsPair '\'' r = false) :
    literalLinesTail ('\'' :: r) = (literalLinesTail r).map (withChars ['\'']) := by
  conv => lhs; unfold literalLinesTail
  split
  · cases ‹_›
  · rename_i heq
    cases heq
    exact absurd h (by simp [startsPair, leads])
  · cases ‹_›
  · rename_i heq
    cases heq
    rfl

/-- Behind a quote, a text without three in a row begins with two more only at its end. -/
theorem startsPair_of_not_hasTriple {q : Char} {cs : List Char} (htriple : hasTriple q (q :: cs) = false) (hnil : cs ≠ [])
    (hone : cs ≠ [q]) (rest : List Char) : startsPair q (cs ++ rest) = false := by
  match cs with
  | [] => exact absurd rfl hnil
  | [c] =>
    have hne : c ≠ q := fun hc => hone (by rw [hc])
    simp [startsPair, leads, hne]
  | c :: c' :: cs =>
    simp only [hasTriple, Bool.or_eq_false_iff, beq_self_eq_true, Bool.true_and] at htriple
    simpa [startsPair, leads] using htriple.1

theorem hasTriple_of_cons {q c : Char} {cs : List Char} (h : hasTriple q (c :: cs) = false) : hasTriple q cs = false := by
  match cs with
  | [] => rfl
  | [_] => rfl
  | _ :: _ :: _ =>
    rw [hasTriple, Bool.or_eq_false_iff] at h
    exact h.2

/-- A literal string on several lines is read back. -/
theorem literalLinesTail_append {rest : List Char} (hrest : Unquoted rest) (cs : List Char)
    (hplain : ∀ c ∈ cs, needsEscape c = false) (htriple : hasTriple '\'' cs = false) :
    literalLinesTail (cs ++ '\'' :: '\'' :: '\'' :: rest) = some (cs, rest) := by
  induction cs with
  | nil =>
    have hclose := closing_of_unquoted (.inr rfl) hrest (Nat.zero_le 2)
    simpa [literalLinesTail] using hclose
  | cons c cs ih =>
    rw [List.forall_mem_cons] at hplain
    have hnext := ih hplain.2 (hasTriple_of_cons htriple)
    by_cases hquote : c = '\''
    · subst hquote
      by_cases hnil : cs = []
      · subst hnil
        have hclose := closing_of_unquoted (.inr rfl) hrest (show 1 ≤ 2 by decide)
        simpa [literalLinesTail] using hclose
      by_cases hone : cs = ['\'']
      · subst hone
        have hclose := closing_of_unquoted (.inr rfl) hrest (show 2 ≤ 2 by decide)
        simpa [literalLinesTail, List.replicate] using hclose
      · rw [List.cons_append, literalLinesTail_quote (startsPair_of_not_hasTriple htriple hnil hone _), hnext]
        rfl
    · rw [List.cons_append, literalLinesTail_char hquote hplain.1, hnext]
      rfl

/-! ## The four forms -/

theorem stringLiteral_double {r : List Char} (h : startsPair '"' r = false) : stringLiteral ('"' :: r) = basicTail r := by
  unfold stringLiteral
  split
  · rename_i heq
    cases heq
    exact absurd h (by simp [startsPair, leads])
  · rename_i heq
    cases heq
    rfl
  · cases ‹_›
  · cases ‹_›
  · rename_i hne _ _
    exact absurd rfl (hne r)

theorem stringLiteral_single {r : List Char} (h : startsPair '\'' r = false) : stringLiteral ('\'' :: r) = literalTail r := by
  unfold stringLiteral
  split
  · cases ‹_›
  · cases ‹_›
  · rename_i heq
    cases heq
    exact absurd h (by simp [startsPair, leads])
  · rename_i heq
    cases heq
    rfl
  · rename_i hne
    exact absurd rfl (hne r)

theorem Unquoted.leads {rest : List Char} (h : Unquoted rest) : leads '"' rest = false ∧ Toml.leads '\'' rest = false := by
  cases rest with
  | nil => exact ⟨rfl, rfl⟩
  | cons c r =>
    obtain ⟨hdouble, hsingle⟩ := h c r rfl
    simp [Toml.leads, hdouble, hsingle]

theorem skipLineEnd_of_not_leads {cs : List Char} (h : leads '\n' cs = false) (h' : leads '\r' cs = false) :
    skipLineEnd cs = cs := by
  unfold skipLineEnd
  split
  · cases h
  · cases h'
  · rfl

/-- The line end put in front of a string with line ends, and no other, is taken away. -/
theorem skipLineEnd_opening (cs : List Char) {r : List Char} (h : cs.contains '\n' = false → leads '\n' r = false ∧ leads '\r' r = false) :
    skipLineEnd (opening cs ++ r) = r := by
  unfold opening
  cases hline : cs.contains '\n' with
  | true => rfl
  | false =>
    obtain ⟨hn, hr⟩ := h hline
    exact skipLineEnd_of_not_leads hn hr

theorem not_leads_basicLines {cs : List Char} (h : cs.contains '\n' = false) (r : List Char) :
    leads '\n' (basicLines 0 cs ++ '"' :: r) = false ∧ leads '\r' (basicLines 0 cs ++ '"' :: r) = false := by
  cases cs with
  | nil => exact ⟨rfl, rfl⟩
  | cons c cs =>
    have hline : c ≠ '\n' := by
      rintro rfl
      simp at h
    rw [basicLines]
    by_cases hquote : c = '"'
    · rw [if_pos hquote, if_neg (by decide)]
      exact ⟨rfl, rfl⟩
    · rw [if_neg hquote, if_neg hline]
      unfold charText
      repeat' split
      all_goals first
        | exact ⟨rfl, rfl⟩
        | simp_all [leads]

theorem not_leads_plain {cs : List Char} (hplain : ∀ c ∈ cs, needsEscape c = false) (h : cs.contains '\n' = false)
    (r : List Char) : leads '\n' (cs ++ '\'' :: r) = false ∧ leads '\r' (cs ++ '\'' :: r) = false := by
  cases cs with
  | nil => exact ⟨rfl, rfl⟩
  | cons c cs =>
    have hline : c ≠ '\n' := by
      rintro rfl
      simp at h
    have hreturn : c ≠ '\r' := by
      rintro rfl
      exact absurd (hplain _ List.mem_cons_self) (by decide)
    simp [leads, hline, hreturn]

/-- What a string is like that is written as it stands. -/
theorem plain_of_formOf {cs : List Char} (h : formOf cs = .literal ∨ formOf cs = .literalLines) :
    ∀ c ∈ cs, needsEscape c = false := by
  have hplain : cs.any needsEscape = false := by
    unfold formOf at h
    grind
  simpa using hplain

theorem of_formOf_literal {cs : List Char} (h : formOf cs = .literal) :
    cs.contains '\n' = false ∧ cs.contains '\'' = false ∧ cs ≠ [] := by
  refine ⟨?_, ?_, ?_⟩
  · unfold formOf at h
    grind
  · unfold formOf at h
    grind
  · rintro rfl
    cases h

theorem of_formOf_literalLines {cs : List Char} (h : formOf cs = .literalLines) : hasTriple '\'' cs = false := by
  unfold formOf at h
  grind

/-- A string is read back from its text. -/
theorem stringLiteral_quoted (s : String) {rest : List Char} (hrest : Unquoted rest) :
    stringLiteral (quoted s ++ rest) = some (s.toList, rest) := by
  unfold quoted
  simp only
  generalize s.toList = cs
  cases hform : formOf cs with
  | basic =>
    have hstarts : startsPair '"' (cs.flatMap basicChar ++ '"' :: rest) = false := by
      cases cs with
      | nil => rw [List.flatMap_nil, List.nil_append, startsPair_cons, hrest.leads.1]
      | cons c cs =>
        refine startsPair_of_not_leads ?_
        rw [List.flatMap_cons, List.append_assoc]
        unfold basicChar
        split
        · rfl
        · rename_i hquote
          split
          · rfl
          · exact leads_charText hquote _
    simp only [List.cons_append, List.append_assoc, List.nil_append]
    rw [stringLiteral_double hstarts, basicTail_flatMap_basicChar]
  | literal =>
    obtain ⟨hline, hquote, hne⟩ := of_formOf_literal hform
    have hplain := plain_of_formOf (.inl hform)
    have hchar : ∀ c ∈ cs, c ≠ '\'' ∧ isControl c = false := by
      intro c hc
      have hplain := hplain c hc
      refine ⟨?_, ?_⟩
      · rintro rfl
        rw [List.contains_iff_mem.2 hc] at hquote
        cases hquote
      · have hn : c ≠ '\n' := by
          rintro rfl
          rw [List.contains_iff_mem.2 hc] at hline
          cases hline
        simpa [needsEscape, hn] using hplain
    have hstarts : startsPair '\'' (cs ++ '\'' :: rest) = false := by
      cases cs with
      | nil => exact absurd rfl hne
      | cons c cs =>
        refine startsPair_of_not_leads ?_
        simp [leads, (hchar c List.mem_cons_self).1]
    simp only [List.cons_append, List.append_assoc, List.nil_append]
    rw [stringLiteral_single hstarts, literalTail_append cs rest hchar]
  | basicLines =>
    have hskip := skipLineEnd_opening cs fun h => not_leads_basicLines h ('"' :: '"' :: rest)
    simp only [List.cons_append, List.append_assoc, List.nil_append, stringLiteral, hskip]
    exact basicLinesTail_basicLines hrest cs 0 (by omega)
  | literalLines =>
    have hplain := plain_of_formOf (.inr hform)
    have hskip := skipLineEnd_opening cs fun h => not_leads_plain hplain h ('\'' :: '\'' :: rest)
    simp only [List.cons_append, List.append_assoc, List.nil_append, stringLiteral, hskip]
    exact literalLinesTail_append hrest cs hplain (of_formOf_literalLines hform)

end SearchRules.Toml
