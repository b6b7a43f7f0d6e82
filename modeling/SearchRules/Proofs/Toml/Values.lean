import SearchRules.Proofs.Data.Trees
import SearchRules.Proofs.Toml.Strings
import SearchRules.Proofs.Toml.Tables
import SearchRules.Toml.Reader

/-!
# TOML values read back

What stands on the right of a key is read back as it was: scalars, strings, lists on one line or on several, and inline tables, in
whose keys there is nothing to quote. A key is read back with the path that leads to it.
-/

namespace SearchRules.Toml

/-- A key that is written without quotes. -/
def Bare (k : String) : Prop :=
  k ≠ "" ∧ ∀ c ∈ k.toList, isBareChar c = true

instance (k : String) : Decidable (Bare k) :=
  decidable_of_iff (k ≠ "" ∧ k.toList.all isBareChar = true) (and_congr_right fun _ => List.all_eq_true)

/-- Whether a number is read back from its text. -/
def ReadsBack (x : Binary64) : Prop :=
  scalarOf? (floatText x) = some (.float x)

/-- Whether a number is read back is checked by reading it. -/
theorem readsBack_iff (x : Binary64) :
    (match scalarOf? (floatText x) with | some (.float y) => decide (y = x) | _ => false) = true ↔ ReadsBack x := by
  unfold ReadsBack
  split
  · rename_i y hy
    rw [hy, decide_eq_true_iff, Option.some.injEq, Data.float.injEq]
  · rename_i hno
    constructor
    · exact nofun
    · exact fun h => absurd h (hno x)

instance (x : Binary64) : Decidable (ReadsBack x) :=
  decidable_of_iff _ (readsBack_iff x)

mutual

/-- Whether a tree has a value throughout, each number is read back from its text, and the keys of each record are bare and occur
once. -/
def Legible : Data → Prop
  | .bool _ | .string _ => True
  | .int i => 0 ≤ i ∧ i < (UInt64.size : Nat)
  | .float x => ReadsBack x
  | .list items => LegibleItems items
  | .record members => (members.map Prod.fst).Nodup ∧ LegibleMembers members
  | .null | .unreadable | .invalid => False

/-- Whether every item is legible. -/
def LegibleItems : List Data → Prop
  | [] => True
  | d :: ds => Legible d ∧ LegibleItems ds

/-- Whether every member is legible and its key is bare. -/
def LegibleMembers : List (String × Data) → Prop
  | [] => True
  | (k, d) :: ms => Bare k ∧ Legible d ∧ LegibleMembers ms

end

theorem legibleItems_iff (ds : List Data) : LegibleItems ds ↔ ∀ d ∈ ds, Legible d := by
  induction ds with
  | nil => simp [LegibleItems]
  | cons d ds ih => rw [LegibleItems, ih, List.forall_mem_cons]

theorem legibleMembers_iff (ms : List (String × Data)) :
    LegibleMembers ms ↔ (∀ k ∈ ms.map Prod.fst, Bare k) ∧ ∀ m ∈ ms, Legible m.2 := by
  induction ms with
  | nil => simp [LegibleMembers]
  | cons m ms ih =>
    rw [LegibleMembers, ih, List.map_cons, List.forall_mem_cons, List.forall_mem_cons]
    exact ⟨fun h => ⟨⟨h.1, h.2.2.1⟩, h.2.1, h.2.2.2⟩, fun h => ⟨h.1.1, h.2.1, h.1.2, h.2.2⟩⟩

theorem legible_strings (ss : List String) : Legible (Data.strings ss) := by
  rw [Data.strings, Legible, legibleItems_iff, List.forall_mem_map]
  exact fun _ _ => trivial

theorem legible_nat {n : Nat} (h : n < UInt64.size) : Legible (.int n) := by
  rw [Legible]
  omega

theorem legible_uint64 (n : UInt64) : Legible (.int n.toNat) :=
  legible_nat n.toNat_lt

theorem legible_uint32 (n : UInt32) : Legible (.int n.toNat) :=
  legible_nat (Nat.lt_trans n.toNat_lt (by decide))

/-! ## Blanks and line ends -/

/-- What may stand right behind a value: the end of its line, a sign that parts or ends the items of a list, or the end of an inline
table. -/
def Follows (rest : List Char) : Prop :=
  (∃ c r, rest = c :: r ∧ (c = '\n' ∨ c = ',' ∨ c = ']')) ∨ ∃ r, rest = ' ' :: '}' :: r

theorem follows_cons {c : Char} (h : c = '\n' ∨ c = ',' ∨ c = ']') (r : List Char) : Follows (c :: r) :=
  .inl ⟨c, r, rfl, h⟩

theorem Follows.unquoted {rest : List Char} (h : Follows rest) : Unquoted rest := by
  rcases h with ⟨c, r, rfl, rfl | rfl | rfl⟩ | ⟨r, rfl⟩ <;> exact unquoted_cons (by decide) _

/-- A character that a value begins with: no blank, no line end, no comment, and no sign that parts or ends items. -/
def isOpening (c : Char) : Bool :=
  !([' ', '\t', '\n', '\r', '#', ',', ']', '}'].contains c)

theorem isSpace_of_isOpening {c : Char} (h : isOpening c = true) : isSpace c = false := by
  simp only [isSpace, Bool.or_eq_false_iff, beq_eq_false_iff_ne]
  exact ⟨ne_of_holds h rfl, ne_of_holds h rfl⟩

theorem skipLines_of_isOpening {c : Char} (h : isOpening c = true) (r : List Char) : skipLines (c :: r) = some (c :: r) := by
  unfold skipLines
  split
  · cases ‹_›
    exact absurd h (by decide)
  · cases ‹_›
    exact absurd h (by decide)
  · rename_i heq
    cases heq
    have hline : c ≠ '\n' := ne_of_holds h rfl
    rw [if_neg (by simp [isSpace_of_isOpening h, hline])]
  · cases ‹_›

theorem skipLines_blank (r : List Char) : skipLines (' ' :: r) = skipLines r := by
  rw [skipLines, if_pos (by decide)] <;> exact nofun

theorem skipLines_lineEnd (r : List Char) : skipLines ('\n' :: r) = skipLines r := by
  rw [skipLines, if_pos (by decide)] <;> exact nofun

theorem skipLines_sign {c : Char} (h : c = ',' ∨ c = ']' ∨ c = '}' ∨ c = '=' ∨ c = '[') (r : List Char) :
    skipLines (c :: r) = some (c :: r) := by
  rcases h with rfl | rfl | rfl | rfl | rfl <;> rw [skipLines, if_neg (by decide)] <;> exact nofun

theorem skipSpace_cons {c : Char} (h : isSpace c = false) (r : List Char) : skipSpace (c :: r) = c :: r := by
  rw [skipSpace, List.dropWhile_cons, if_neg (by simp [h])]

theorem skipSpace_blank (r : List Char) : skipSpace (' ' :: r) = skipSpace r := rfl

/-! ## Scalars -/

theorem scalarText_of_follows {rest : List Char} (h : Follows rest) : scalarText rest = ([], rest) := by
  rcases h with ⟨c, r, rfl, rfl | rfl | rfl⟩ | ⟨r, rfl⟩ <;> rfl

theorem scalarText_append {cs rest : List Char} (hcs : ∀ c ∈ cs, isScalarChar c = true) (h : Follows rest) :
    scalarText (cs ++ rest) = (cs, rest) := by
  induction cs with
  | nil => exact scalarText_of_follows h
  | cons c cs ih =>
    rw [List.forall_mem_cons] at hcs
    rw [List.cons_append, scalarText, ih hcs.2, hcs.1]
    rfl

theorem value_scalar {c : Char} (hc : isScalarChar c = true) (hdouble : c ≠ '"') (hsingle : c ≠ '\'') (fuel room : Nat)
    (r : List Char) : value (fuel + 1) room (c :: r) = scalar (c :: r) := by
  rw [value]
  · rintro _ ⟨⟩
    exact hdouble rfl
  · rintro _ ⟨⟩
    exact hsingle rfl
  · rintro _ ⟨⟩
    exact absurd hc (by decide)
  · rintro _ ⟨⟩
    exact absurd hc (by decide)

/-- A character of an unquoted value that begins nothing else. -/
def isPlainChar (c : Char) : Bool :=
  isScalarChar c && c != '"' && c != '\''

/-- An unquoted value is what its text stands for, whatever follows it. -/
theorem value_of_scalarOf? {cs rest : List Char} {d : Data} (hne : cs ≠ []) (hcs : ∀ c ∈ cs, isPlainChar c = true)
    (hd : scalarOf? cs = some d) (hrest : Follows rest) (fuel room : Nat) :
    value (fuel + 1) room (cs ++ rest) = some (d, rest) := by
  have hscalar : ∀ c ∈ cs, isScalarChar c = true := by
    intro c hc
    have hplain := hcs c hc
    rw [isPlainChar, Bool.and_eq_true, Bool.and_eq_true] at hplain
    exact hplain.1.1
  have htext := scalarText_append hscalar hrest
  match cs with
  | [] => exact absurd rfl hne
  | c :: cs =>
    have hplain := hcs c List.mem_cons_self
    simp only [isPlainChar, Bool.and_eq_true, bne_iff_ne] at hplain
    obtain ⟨⟨hchar, hdouble⟩, hsingle⟩ := hplain
    rw [List.cons_append] at htext ⊢
    rw [value_scalar hchar hdouble hsingle, scalar, htext]
    simp only [hd, Option.map_some]

theorem isPlainChar_of_isFloatChar {c : Char} (h : isFloatChar c = true) : isPlainChar c = true := by
  rw [isFloatChar, Bool.or_eq_true, List.contains_iff_mem] at h
  rcases h with h | h
  · have hne : ∀ c', c'.isDigit = false → c ≠ c' := fun c' => ne_of_holds h
    simp [isPlainChar, isScalarChar, hne]
  · exact List.all_eq_true.1 (by decide) c h

section

variable {cs : List Char}

/-- Digits without a sign between them are no date and no time. -/
theorem isDateOrTime_of_digits (h : ∀ c ∈ cs, c.isDigit = true) : isDateOrTime cs = false := by
  have hdate : afterDate? cs = none := by
    unfold afterDate?
    split
    · exact absurd (h '-' (by simp)) (by decide)
    · rfl
  have htime : afterTime? cs = none := by
    unfold afterTime?
    split
    · exact absurd (h ':' (by simp)) (by decide)
    · rfl
  rw [isDateOrTime, hdate, htime]
  rfl

theorem plainDigits_of_digits (hne : cs ≠ []) (h : ∀ c ∈ cs, c.isDigit = true) : plainDigits Char.isDigit cs = some cs := by
  induction cs with
  | nil => exact absurd rfl hne
  | cons c cs ih =>
    rw [List.forall_mem_cons] at h
    cases cs with
    | nil => rw [plainDigits, if_pos h.1]
    | cons c' cs =>
      have hmark : c' ≠ '_' := by
        rintro rfl
        exact absurd (h.2 '_' List.mem_cons_self) (by decide)
      rw [plainDigits, if_pos h.1, ih (List.cons_ne_nil _ _) h.2]
      · rfl
      · exact nofun
      · rintro _ ⟨⟩
        exact hmark rfl

theorem number?_of_digits (h : ∀ c ∈ cs, c.isDigit = true) : number? cs = decimalNumber? false cs := by
  have hsigned : signedNumber? false cs = decimalNumber? false cs := by
    unfold signedNumber?
    split
    · exact absurd (h 'i' (by simp)) (by decide)
    · exact absurd (h 'n' (by simp)) (by decide)
    · rfl
  unfold number?
  split
  · exact absurd (h '+' (by simp)) (by decide)
  · exact absurd (h '-' (by simp)) (by decide)
  · exact absurd (h 'x' (by simp)) (by decide)
  · exact absurd (h 'o' (by simp)) (by decide)
  · exact absurd (h 'b' (by simp)) (by decide)
  · exact hsigned

theorem decimalNumber?_of_digits (h : ∀ c ∈ cs, c.isDigit = true) (negative : Bool) :
    decimalNumber? negative cs = decimalInteger? negative cs := by
  have hmark : ∀ c ∈ cs, (!(c == 'e' || c == 'E')) = true := by
    intro c hc
    have hdigit := h c hc
    rw [Bool.not_eq_true', Bool.or_eq_false_iff]
    constructor <;> (refine beq_false_of_ne ?_; rintro rfl; exact absurd hdigit (by decide))
  have hpoint : ∀ c ∈ cs, (c != '.') = true := by
    intro c hc
    refine bne_iff_ne.2 ?_
    rintro rfl
    exact absurd (h '.' hc) (by decide)
  have hmantissa : cs.takeWhile (fun c => !(c == 'e' || c == 'E')) = cs := by
    simpa using takeWhile_append_of_all hmark (stops_nil _)
  have hmarked : cs.dropWhile (fun c => !(c == 'e' || c == 'E')) = [] := by
    simpa using dropWhile_append_of_all hmark (stops_nil _)
  have hpointed : cs.dropWhile (· != '.') = [] := by
    simpa using dropWhile_append_of_all hpoint (stops_nil _)
  unfold decimalNumber?
  simp only [hmantissa, hmarked, hpointed]
  rfl

end

/-- A natural number of 64 bits is read back from its digits. -/
theorem scalarOf?_toDigits {n : Nat} (hn : n < UInt64.size) : scalarOf? (Nat.toDigits 10 n) = some (.int n) := by
  have hdigits : ∀ c ∈ Nat.toDigits 10 n, c.isDigit = true := fun c hc => isDigit_of_mem_toDigits hc
  have hne : Nat.toDigits 10 n ≠ [] := Nat.toDigits_ne_nil
  have hwhole : wholeDigits (Nat.toDigits 10 n) = some (Nat.toDigits 10 n) := by
    rw [wholeDigits, plainDigits_of_digits hne hdigits]
    split
    · rename_i heq
      exact heq.symm
    · rename_i hzero heq
      rw [Option.some.injEq] at heq
      obtain ⟨-, htail⟩ := eq_zero_of_toDigits_eq_cons heq
      exact absurd htail hzero
    · rfl
  have hword : ∀ c : Char, c.isDigit = false → ∀ r, Nat.toDigits 10 n ≠ c :: r := by
    intro c hc r heq
    have hdigit := hdigits c (by rw [heq]; exact List.mem_cons_self)
    rw [hdigit] at hc
    cases hc
  rw [scalarOf?, if_neg (hword _ rfl _), if_neg (hword _ rfl _), isDateOrTime_of_digits hdigits, if_neg (by decide),
    number?_of_digits hdigits, decimalNumber?_of_digits hdigits, decimalInteger?, hwhole]
  simp only [digitsValue_toDigits, integer, if_pos hn]
  rfl

/-! ## Keys -/

section

variable {k : String} {rest : List Char}

theorem Bare.exists_cons (h : Bare k) : ∃ c r, k.toList = c :: r ∧ isBareChar c = true := by
  cases hk : k.toList with
  | nil => exact absurd (String.toList_eq_nil_iff.1 hk) h.1
  | cons c r => exact ⟨c, r, rfl, h.2 c (by rw [hk]; exact List.mem_cons_self)⟩

theorem isOpening_of_isBareChar {c : Char} (h : isBareChar c = true) : isOpening c = true := by
  have hne : ∀ c', isBareChar c' = false → c ≠ c' := fun c' => ne_of_holds h
  simp [isOpening, hne ' ' rfl, hne '\t' rfl, hne '\n' rfl, hne '\r' rfl, hne '#' rfl, hne ',' rfl, hne ']' rfl, hne '}' rfl]

theorem skipSpace_bare (h : Bare k) (rest : List Char) : skipSpace (k.toList ++ rest) = k.toList ++ rest := by
  obtain ⟨c, r, hk, hc⟩ := h.exists_cons
  rw [hk, List.cons_append, skipSpace_cons (isSpace_of_isOpening (isOpening_of_isBareChar hc))]

theorem skipLines_bare (h : Bare k) (rest : List Char) : skipLines (k.toList ++ rest) = some (k.toList ++ rest) := by
  obtain ⟨c, r, hk, hc⟩ := h.exists_cons
  rw [hk, List.cons_append, skipLines_of_isOpening (isOpening_of_isBareChar hc)]

theorem keyPart_bare (h : Bare k) (hrest : Stops isBareChar rest) : keyPart (k.toList ++ rest) = some (k, rest) := by
  have htake := takeWhile_append_of_all h.2 hrest
  have hdrop := dropWhile_append_of_all h.2 hrest
  obtain ⟨c, r, hk, hc⟩ := h.exists_cons
  have hempty : k.toList.isEmpty = false := by rw [hk, List.isEmpty_cons]
  rw [keyPart]
  · simp only [htake, hdrop, hempty, String.ofList_toList]
    rfl
  · intro t heq
    rw [hk, List.cons_append, List.cons.injEq] at heq
    exact ne_of_holds hc rfl heq.1
  · intro t heq
    rw [hk, List.cons_append, List.cons.injEq] at heq
    exact ne_of_holds hc rfl heq.1

theorem keyParts_last (h : Bare k) {c : Char} (hspace : isSpace c = false) (hpoint : c ≠ '.') (hbare : isBareChar c = false)
    (room : Nat) (r : List Char) : keyParts (room + 1) (k.toList ++ c :: r) = some ([k], c :: r) := by
  rw [keyParts, skipSpace_bare h, keyPart_bare h (stops_cons hbare r)]
  simp only [Option.bind_eq_bind, Option.bind_some, skipSpace_cons hspace]
  split
  · cases ‹_›
    exact absurd rfl hpoint
  · rfl

/-- The key of a pair. -/
theorem key_pair (h : Bare k) (r : List Char) : key (k.toList ++ ' ' :: '=' :: r) = some (([], k), '=' :: r) := by
  have hparts : keyParts maxDepth (k.toList ++ ' ' :: '=' :: r) = some ([k], '=' :: r) := by
    rw [maxDepth, keyParts, skipSpace_bare h, keyPart_bare h (stops_cons (by decide) _)]
    simp only [Option.bind_eq_bind, Option.bind_some, skipSpace_blank, skipSpace_cons (show isSpace '=' = false by decide)]
    rfl
  rw [key, hparts]
  rfl

end

theorem pathText_singleton (k : String) : pathText [k] = k.toList := by
  rw [pathText, String.intercalate_singleton]

theorem pathText_cons_cons (k k' : String) (path : List String) :
    pathText (k :: k' :: path) = k.toList ++ '.' :: pathText (k' :: path) := by
  rw [pathText, String.intercalate_cons_cons, String.toList_append, String.toList_append, List.append_assoc]
  rfl

/-- The path in a header is read back, if it is no longer than the reader follows. -/
theorem keyParts_pathText {path : List String} (hne : path ≠ []) (hbare : ∀ k ∈ path, Bare k) (r : List Char) :
    ∀ room, path.length ≤ room → keyParts room (pathText path ++ ']' :: r) = some (path, ']' :: r) := by
  induction path with
  | nil => exact absurd rfl hne
  | cons k path ih =>
    intro room hroom
    rw [List.forall_mem_cons] at hbare
    obtain ⟨room, rfl⟩ : ∃ n, room = n + 1 := ⟨room - 1, by rw [List.length_cons] at hroom; omega⟩
    cases path with
    | nil =>
      rw [pathText_singleton]
      exact keyParts_last hbare.1 (by decide) (by decide) (by decide) room r
    | cons k' path =>
      have hnext := ih (List.cons_ne_nil _ _) hbare.2 room (by simpa using hroom)
      rw [pathText_cons_cons, List.append_assoc, List.cons_append, keyParts, skipSpace_bare hbare.1,
        keyPart_bare hbare.1 (stops_cons (by decide) _)]
      simp only [Option.bind_eq_bind, Option.bind_some, skipSpace_cons (show isSpace '.' = false by decide), hnext]

theorem forall_bare_append_singleton {path : List String} {k : String} (hpath : ∀ k ∈ path, Bare k) (hk : Bare k) :
    ∀ k' ∈ path ++ [k], Bare k' := by
  rw [List.forall_mem_append, List.forall_mem_singleton]
  exact ⟨hpath, hk⟩

theorem key_pathText {path : List String} {k : String} (hpath : ∀ k ∈ path, Bare k) (hk : Bare k) (hlength : path.length < maxDepth)
    (r : List Char) : key (pathText (path ++ [k]) ++ ']' :: r) = some ((path, k), ']' :: r) := by
  have hbare := forall_bare_append_singleton hpath hk
  have hparts := keyParts_pathText (by simp) hbare r maxDepth (by rw [List.length_append, List.length_singleton]; omega)
  rw [key, hparts]
  simp

/-! ## Lists and inline tables -/

/-- A legible value begins like one. -/
theorem exists_valueText_eq_cons {d : Data} (h : Legible d) : ∃ c r, valueText d = c :: r ∧ isOpening c = true := by
  have hdigit : ∀ {c : Char}, c.isDigit = true → isOpening c = true := by
    intro c hc
    have hne : ∀ c', c'.isDigit = false → c ≠ c' := fun c' => ne_of_holds hc
    simp [isOpening, hne]
  have hnumber : ∀ {cs}, NumberHead cs → ∃ c r, cs = c :: r ∧ isOpening c = true := by
    rintro cs ⟨c, r, rfl, hc | rfl⟩
    · exact ⟨c, r, rfl, hdigit hc⟩
    · exact ⟨'-', r, rfl, rfl⟩
  match d with
  | .bool true => exact ⟨'t', _, rfl, rfl⟩
  | .bool false => exact ⟨'f', _, rfl, rfl⟩
  | .int i => exact hnumber (numberHead_intText i)
  | .float (.finite x) => exact hnumber (floatLayout.numberHead_text x)
  | .float (.infinite true) => exact ⟨'-', _, rfl, rfl⟩
  | .float (.infinite false) => exact ⟨'i', _, rfl, rfl⟩
  | .float .nan => exact ⟨'n', _, rfl, rfl⟩
  | .string s =>
    rw [valueText, quoted]
    split
    · exact ⟨'"', _, rfl, rfl⟩
    · exact ⟨'\'', _, rfl, rfl⟩
    · exact ⟨'"', _, rfl, rfl⟩
    · exact ⟨'\'', _, rfl, rfl⟩
  | .list [] => exact ⟨'[', _, rfl, rfl⟩
  | .list [d] => exact ⟨'[', _, rfl, rfl⟩
  | .list (d :: d' :: ds) => exact ⟨'[', _, rfl, rfl⟩
  | .record [] => exact ⟨'{', _, rfl, rfl⟩
  | .record ((k, d) :: ms) => exact ⟨'{', _, rfl, rfl⟩

theorem skipLines_valueText {d : Data} (h : Legible d) (rest : List Char) :
    skipLines (valueText d ++ rest) = some (valueText d ++ rest) := by
  obtain ⟨c, r, hcs, hc⟩ := exists_valueText_eq_cons h
  rw [hcs, List.cons_append, skipLines_of_isOpening hc]

/-- What is left of an inline table behind one of its values. -/
def morePairs (fuel room : Nat) (t : Table) (cs : List Char) : Option (Table × List Char) := do
  match ← skipLines cs with
  | ',' :: r => pairs fuel room t r
  | '}' :: r => some (t, r)
  | _ => none

/-- A pair of an inline table is read, and then the rest of the table. -/
theorem pairs_pair {fuel room : Nat} {t : Table} {k : String} {d : Data} {rest : List Char} (hk : Bare k) (hd : Legible d)
    (hkey : k ∉ t.map Prod.fst) (hvalue : value fuel room (valueText d ++ rest) = some (d, rest)) :
    pairs (fuel + 1) room t (' ' :: (k.toList ++ ' ' :: '=' :: ' ' :: (valueText d ++ rest))) =
      morePairs fuel room (t ++ [(k, .value d)]) rest := by
  have hblank : skipLines (' ' :: (valueText d ++ rest)) = some (valueText d ++ rest) := by
    rw [skipLines_blank, skipLines_valueText hd]
  have hsign : skipLines ('=' :: ' ' :: (valueText d ++ rest)) = some ('=' :: ' ' :: (valueText d ++ rest)) :=
    skipLines_sign (by decide) _
  obtain ⟨c, r, hcs, hc⟩ := hk.exists_cons
  rw [pairs, skipLines_blank, skipLines_bare hk]
  simp only [Option.bind_eq_bind, Option.bind_some]
  split
  · rename_i heq
    rw [hcs, List.cons_append, List.cons.injEq] at heq
    exact absurd heq.1 (ne_of_holds hc rfl)
  · rw [key_pair hk]
    simp only [Option.bind_some, hsign, hblank, hvalue, assign_of_notMem hkey]
    rfl

section

variable {fuel room : Nat} {d : Data} {r : List Char}

theorem items_of_value {c : Char} (hd : Legible d) (hc : c = ',' ∨ c = ']')
    (hvalue : value fuel room (valueText d ++ c :: r) = some (d, c :: r)) :
    items (fuel + 1) room (valueText d ++ c :: r) =
      if c = ',' then (items fuel room r).map fun p => (d :: p.1, p.2) else some ([d], r) := by
  have hsign : skipLines (c :: r) = some (c :: r) := by
    rcases hc with rfl | rfl <;> exact skipLines_sign (by decide) r
  obtain ⟨c', t, hcs, hc'⟩ := exists_valueText_eq_cons hd
  rw [items, skipLines_valueText hd]
  simp only [Option.bind_eq_bind, Option.bind_some]
  split
  · rename_i heq
    rw [hcs, List.cons_append, List.cons.injEq] at heq
    exact absurd heq.1 (ne_of_holds hc' rfl)
  · rw [hvalue]
    simp only [Option.bind_some, hsign]
    rcases hc with rfl | rfl <;> rfl

end

theorem value_list {fuel room : Nat} {r rest : List Char} {ds : List Data} (hroom : 0 < room)
    (h : items fuel (room - 1) r = some (ds, rest)) : value (fuel + 1) room ('[' :: r) = some (.list ds, rest) := by
  rw [value, if_neg (by omega), h]
  rfl

theorem value_record {fuel room : Nat} {r rest : List Char} {ms : List (String × Data)} (hroom : 0 < room)
    (h : pairs fuel (room - 1) [] r = some (valueEntries ms, rest)) : value (fuel + 1) room ('{' :: r) = some (.record ms, rest) := by
  rw [value, if_neg (by omega), h]
  simp only [Option.map_some, toMembers_valueEntries]

theorem follows_inlineMembers (ms : List (String × Data)) (rest : List Char) : Follows (inlineMembers ms ++ rest) := by
  cases ms with
  | nil => exact .inr ⟨rest, rfl⟩
  | cons m ms => exact follows_cons (by decide) _

/-- A list of two or more items has a line for each. -/
theorem valueText_list (d d' : Data) (ds : List Data) :
    valueText (.list (d :: d' :: ds)) = '[' :: '\n' :: itemLines (d :: d' :: ds) := by
  rw [valueText] <;> exact nofun

theorem itemLines_append (d : Data) (ds : List Data) (rest : List Char) :
    skipLines ('\n' :: (itemLines (d :: ds) ++ rest)) =
      skipLines (valueText d ++ ',' :: '\n' :: (itemLines ds ++ rest)) := by
  rw [itemLines]
  simp [List.replicate, skipLines_lineEnd, skipLines_blank]

theorem items_skip {fuel room : Nat} {cs cs' : List Char} (h : skipLines cs = skipLines cs') :
    items fuel room cs = items fuel room cs' := by
  cases fuel with
  | zero => rw [items, items]
  | succ fuel => rw [items, items, h]

theorem scalarOf?_intText {i : Int} (h : 0 ≤ i ∧ i < (UInt64.size : Nat)) : scalarOf? (intText i) = some (.int i) := by
  rw [intText, if_neg (by omega), scalarOf?_toDigits (by omega), Int.natAbs_of_nonneg h.1]

theorem isPlainChar_intText {i : Int} (h : 0 ≤ i) : ∀ c ∈ intText i, isPlainChar c = true := by
  rw [intText, if_neg (by omega)]
  exact fun c hc => isPlainChar_of_isFloatChar (isFloatChar_of_isDigit (isDigit_of_mem_toDigits hc))

theorem isPlainChar_floatText (x : Binary64) : ∀ c ∈ floatText x, isPlainChar c = true := by
  match x with
  | .finite x => exact fun c hc => isPlainChar_of_isFloatChar (floatLayout.all_isFloatChar_text x c hc)
  | .infinite true => exact List.all_eq_true.1 (by decide)
  | .infinite false => exact List.all_eq_true.1 (by decide)
  | .nan => exact List.all_eq_true.1 (by decide)

theorem value_quoted (s : String) {rest : List Char} (hrest : Follows rest) (fuel room : Nat) :
    value (fuel + 1) room (quoted s ++ rest) = some (.string s, rest) := by
  have hliteral := stringLiteral_quoted s hrest.unquoted
  have hquote : ∃ c r, quoted s ++ rest = c :: r ∧ (c = '"' ∨ c = '\'') := by
    rw [quoted]
    split
    · exact ⟨_, _, rfl, .inl rfl⟩
    · exact ⟨_, _, rfl, .inr rfl⟩
    · exact ⟨_, _, rfl, .inl rfl⟩
    · exact ⟨_, _, rfl, .inr rfl⟩
  obtain ⟨c, r, hcs, hc⟩ := hquote
  rw [hcs] at hliteral ⊢
  rcases hc with rfl | rfl <;> simp only [value, hliteral, Option.map_some, String.ofList_toList]

mutual

/-- A legible value is read back from its text, whatever follows it. -/
theorem value_valueText : ∀ (d : Data) (fuel room : Nat) (rest : List Char), Legible d → d.depth ≤ room →
    2 * (valueText d).length ≤ fuel → Follows rest → value fuel room (valueText d ++ rest) = some (d, rest)
  | d, 0, room, rest, hd, _, hfuel, _ => by
    obtain ⟨c, r, hcs, -⟩ := exists_valueText_eq_cons hd
    rw [hcs, List.length_cons] at hfuel
    omega
  | .bool true, fuel + 1, room, rest, _, _, _, hrest => by
    rw [valueText]
    exact value_of_scalarOf? (by decide) (List.all_eq_true.1 (by decide)) rfl hrest fuel room
  | .bool false, fuel + 1, room, rest, _, _, _, hrest => by
    rw [valueText]
    exact value_of_scalarOf? (by decide) (List.all_eq_true.1 (by decide)) rfl hrest fuel room
  | .int i, fuel + 1, room, rest, hi, _, _, hrest => by
    have hne : intText i ≠ [] := by
      obtain ⟨c, r, hcs, -⟩ := numberHead_intText i
      exact hcs ▸ List.cons_ne_nil c r
    rw [valueText]
    exact value_of_scalarOf? hne (isPlainChar_intText hi.1) (scalarOf?_intText hi) hrest fuel room
  | .float x, fuel + 1, room, rest, hx, _, _, hrest => by
    obtain ⟨c, r, hcs, -⟩ := exists_valueText_eq_cons (d := .float x) hx
    rw [valueText] at hcs ⊢
    exact value_of_scalarOf? (hcs ▸ List.cons_ne_nil c r) (isPlainChar_floatText x) hx hrest fuel room
  | .string s, fuel + 1, room, rest, _, _, _, hrest => by
    rw [valueText]
    exact value_quoted s hrest fuel room
  | .list [], fuel + 1, room, rest, _, hdepth, hfuel, _ => by
    simp only [Data.depth, valueText, List.length_cons] at hdepth hfuel
    obtain ⟨fuel, rfl⟩ : ∃ n, fuel = n + 1 := ⟨fuel - 1, by omega⟩
    have hitems : items (fuel + 1) (room - 1) (']' :: rest) = some ([], rest) := by
      rw [items, skipLines_sign (by decide)]
      rfl
    rw [valueText]
    exact value_list (by omega) hitems
  | .list [d], fuel + 1, room, rest, hlegible, hdepth, hfuel, hrest => by
    obtain ⟨hd, -⟩ := hlegible
    simp only [Data.depth, Data.depthOfItems, valueText, List.length_cons, List.length_append] at hdepth hfuel
    obtain ⟨fuel, rfl⟩ : ∃ n, fuel = n + 1 := ⟨fuel - 1, by omega⟩
    have hvalue := value_valueText d fuel (room - 1) (']' :: rest) hd (by omega) (by omega) (follows_cons (by decide) rest)
    rw [valueText, List.cons_append, List.append_assoc, List.cons_append, List.nil_append]
    refine value_list (by omega) ?_
    rw [items_of_value hd (by decide) hvalue, if_neg (by decide)]
  | .list (d :: d' :: ds), fuel + 1, room, rest, hlegible, hdepth, hfuel, hrest => by
    simp only [valueText_list, List.length_cons] at hfuel
    rw [Data.depth] at hdepth
    have hitems := items_itemLines (d :: d' :: ds) fuel (room - 1) rest hlegible (by omega) (by omega)
    rw [valueText_list, List.cons_append, List.cons_append]
    exact value_list (by omega) hitems
  | .record [], fuel + 1, room, rest, _, hdepth, hfuel, _ => by
    simp only [Data.depth, valueText, List.length_cons] at hdepth hfuel
    obtain ⟨fuel, rfl⟩ : ∃ n, fuel = n + 1 := ⟨fuel - 1, by omega⟩
    have hpairs : pairs (fuel + 1) (room - 1) [] ('}' :: rest) = some (valueEntries [], rest) := by
      rw [pairs, skipLines_sign (by decide)]
      rfl
    rw [valueText]
    exact value_record (by omega) hpairs
  | .record ((k, d) :: ms), fuel + 1, room, rest, hlegible, hdepth, hfuel, hrest => by
    obtain ⟨hnodup, hk, hd, hms⟩ := hlegible
    simp only [Data.depth, Data.depthOfMembers] at hdepth
    simp only [valueText, List.length_cons, List.length_append] at hfuel
    obtain ⟨fuel, rfl⟩ : ∃ n, fuel = n + 1 := ⟨fuel - 1, by omega⟩
    have hvalue := value_valueText d fuel (room - 1) (inlineMembers ms ++ rest) hd (by omega) (by omega)
      (follows_inlineMembers ms rest)
    have hmore := morePairs_inlineMembers ms fuel (room - 1) [(k, .value d)] rest hms hnodup (by omega) (by omega)
    rw [valueText]
    simp only [List.cons_append, List.append_assoc]
    refine value_record (by omega) ?_
    rw [pairs_pair hk hd List.not_mem_nil hvalue]
    exact hmore

/-- The lines of the items of a list are read back, up to the end of the list. -/
theorem items_itemLines : ∀ (ds : List Data) (fuel room : Nat) (rest : List Char), LegibleItems ds →
    Data.depthOfItems ds ≤ room → 2 * (itemLines ds).length + 2 ≤ fuel →
    items fuel room ('\n' :: (itemLines ds ++ rest)) = some (ds, rest)
  | _, 0, _, _, _, _, hfuel => by omega
  | [], fuel + 1, room, rest, _, _, _ => by
    rw [itemLines, List.cons_append, List.nil_append, items, skipLines_lineEnd, skipLines_sign (by decide)]
    rfl
  | d :: ds, fuel + 1, room, rest, hlegible, hdepth, hfuel => by
    obtain ⟨hd, hds⟩ := hlegible
    rw [Data.depthOfItems] at hdepth
    simp only [itemLines, List.length_append, List.length_cons, List.length_replicate] at hfuel
    have hvalue := value_valueText d fuel room (',' :: '\n' :: (itemLines ds ++ rest)) hd (by omega) (by omega)
      (follows_cons (by decide) _)
    have hmore := items_itemLines ds fuel room rest hds (by omega) (by omega)
    rw [items_skip (itemLines_append d ds rest), items_of_value hd (by decide) hvalue, if_pos rfl, hmore]
    rfl

/-- The members of an inline table after its first one are read back, up to the end of the table. -/
theorem morePairs_inlineMembers : ∀ (ms : List (String × Data)) (fuel room : Nat) (t : Table) (rest : List Char),
    LegibleMembers ms → ((t.map Prod.fst) ++ ms.map Prod.fst).Nodup → Data.depthOfMembers ms ≤ room →
    2 * (inlineMembers ms).length ≤ fuel →
    morePairs fuel room t (inlineMembers ms ++ rest) = some (t ++ valueEntries ms, rest)
  | [], fuel, room, t, rest, _, _, _, _ => by
    rw [inlineMembers, List.cons_append, List.cons_append, morePairs, skipLines_blank, skipLines_sign (by decide)]
    simp [valueEntries]
  | (k, d) :: ms, 0, room, t, rest, _, _, _, hfuel => by
    simp [inlineMembers] at hfuel
  | (k, d) :: ms, fuel + 1, room, t, rest, hlegible, hnodup, hdepth, hfuel => by
    obtain ⟨hk, hd, hms⟩ := hlegible
    rw [Data.depthOfMembers] at hdepth
    simp only [inlineMembers, List.length_append, List.length_cons] at hfuel
    have hkey : k ∉ t.map Prod.fst := Data.notMem_of_nodup_append_cons hnodup
    have hkeys : (((t ++ [(k, Node.value d)]).map Prod.fst) ++ ms.map Prod.fst).Nodup := by simpa using hnodup
    have hvalue := value_valueText d fuel room (inlineMembers ms ++ rest) hd (by omega) (by omega)
      (follows_inlineMembers ms rest)
    have hmore := morePairs_inlineMembers ms fuel room (t ++ [(k, .value d)]) rest hms hkeys (by omega) (by omega)
    rw [inlineMembers, morePairs]
    simp only [List.cons_append, List.append_assoc]
    rw [skipLines_sign (by decide)]
    simp only [Option.bind_eq_bind, Option.bind_some]
    rw [pairs_pair hk hd hkey hvalue, hmore, List.append_assoc]
    rfl

end

end SearchRules.Toml
