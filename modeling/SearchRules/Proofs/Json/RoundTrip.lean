import SearchRules.Proofs.Data.Trees
import SearchRules.Proofs.Json.Number

/-!
# Compact JSON read back

A tree written as compact JSON is read back as it was, if its numbers are and its containers are not too deep:
`read?_compact`.
-/

namespace SearchRules

namespace Json

/-- Whether a number is read back from its text. -/
def ReadsBack (x : Binary64) : Prop :=
  read? (compact (.float x)) = some (.float x)

/-- A number that its text is checked to be read as is read back. -/
theorem readsBack_of_check {x : Binary64}
    (h : (match read? (compact (.float x)) with | some (.float y) => decide (y = x) | _ => false) = true) : ReadsBack x := by
  unfold ReadsBack
  split at h
  · rename_i y hy
    rw [hy, of_decide_eq_true h]
  · cases h

mutual

/-- Whether every number of a tree is read back from its text, and no part of the tree is without a value. -/
def Legible : Data → Prop
  | .int i => Fits64 i
  | .float x => ReadsBack x
  | .list items => LegibleItems items
  | .record members => LegibleMembers members
  | .unreadable | .invalid => False
  | _ => True

/-- Whether every item is legible. -/
def LegibleItems : List Data → Prop
  | [] => True
  | d :: ds => Legible d ∧ LegibleItems ds

/-- Whether every member is legible. -/
def LegibleMembers : List (String × Data) → Prop
  | [] => True
  | (_, d) :: ms => Legible d ∧ LegibleMembers ms

end

theorem legibleItems_iff (ds : List Data) : LegibleItems ds ↔ ∀ d ∈ ds, Legible d := by
  induction ds with
  | nil => simp [LegibleItems]
  | cons d ds ih => simp [LegibleItems, ih]

theorem legibleMembers_iff (ms : List (String × Data)) : LegibleMembers ms ↔ ∀ m ∈ ms, Legible m.2 := by
  induction ms with
  | nil => simp [LegibleMembers]
  | cons m ms ih => simp [LegibleMembers, ih]

theorem legible_strings (ss : List String) : Legible (Data.strings ss) := by
  rw [Data.strings, Legible, legibleItems_iff, List.forall_mem_map]
  exact fun _ _ => trivial

theorem legible_uint64 (n : UInt64) : Legible (.int n.toNat) := by
  have h : n.toNat < UInt64.size := n.toNat_lt
  rw [Legible, Fits64]
  omega

/-! ## Strings -/

theorem hexUnit?_hexDigits {n : Nat} (h : n < 0x20) : hexUnit? '0' '0' (hexDigit (n / 16)) (hexDigit (n % 16)) = some n := by
  have hzero : hexValue? '0' = some 0 := rfl
  have hhigh : hexValue? (hexDigit (n / 16)) = some (n / 16) := hexValue?_digitChar _ (by omega)
  have hlow : hexValue? (hexDigit (n % 16)) = some (n % 16) := hexValue?_digitChar _ (by omega)
  simp only [hexUnit?, hzero, hhigh, hlow, Option.bind_eq_bind, Option.bind_some, Option.some.injEq]
  omega

/-- A character is read back from what it is written as. -/
theorem stringTail_charText (c : Char) (r : List Char) :
    stringTail none (charText c ++ r) = (stringTail none r).map (withChar true c) := by
  unfold charText
  split
  · rename_i hc
    subst hc
    rfl
  split
  · rename_i hc
    subst hc
    rfl
  split
  · rename_i hc
    rw [eq_ofNat_of_toNat_eq hc]
    rfl
  split
  · rename_i hc
    rw [eq_ofNat_of_toNat_eq hc]
    rfl
  split
  · rename_i hc
    subst hc
    rfl
  split
  · rename_i hc
    subst hc
    rfl
  split
  · rename_i hc
    subst hc
    rfl
  split
  · rename_i hc
    have hhigh : isHighSurrogate c.toNat = false := by
      simp only [isHighSurrogate, Bool.and_eq_false_iff, decide_eq_false_iff_not]
      omega
    have hlow : isLowSurrogate c.toNat = false := by
      simp only [isLowSurrogate, Bool.and_eq_false_iff, decide_eq_false_iff_not]
      omega
    simp only [List.cons_append, List.nil_append, stringTail, hexUnit?_hexDigits hc, hhigh, hlow, Char.ofNat_toNat]
    rfl
  · rename_i hquote hslash _ _ _ _ _ hcontrol
    rw [List.cons_append, List.nil_append]
    conv => lhs; unfold stringTail
    split
    · cases ‹_›
    · cases ‹_›
      exact absurd rfl hquote
    · cases ‹_›
      exact absurd rfl hslash
    · cases ‹_›
      exact absurd rfl hslash
    · rename_i heq
      cases heq
      rw [if_neg hcontrol]
      rfl

theorem stringTail_flatMap_charText (cs r : List Char) :
    stringTail none (cs.flatMap charText ++ '"' :: r) = some (some cs, r) := by
  induction cs with
  | nil => rfl
  | cons c cs ih =>
    rw [List.flatMap_cons, List.append_assoc, stringTail_charText, ih]
    rfl

theorem quoted_append (s : String) (r : List Char) :
    quoted s ++ r = '"' :: (s.toList.flatMap charText ++ '"' :: r) := by
  simp [quoted]

/-! ## The beginnings of values -/

theorem skipSpace_cons {c : Char} (h : isSpace c = false) (r : List Char) : skipSpace (c :: r) = c :: r := by
  rw [skipSpace, List.dropWhile_cons, if_neg (by simp [h])]

/-- What begins like a number is read as a number. -/
theorem value_of_numberHead {cs : List Char} (h : NumberHead cs) (fuel room : Nat) :
    value (fuel + 1) room cs = (numberLiteral cs).map fun p => (p.1.value, p.2) := by
  obtain ⟨c, r, rfl, hc⟩ := h
  have hne : ∀ c', c'.isDigit = false → c' ≠ '-' → c ≠ c' := by
    rintro c' hdigit hminus rfl
    rcases hc with hc | hc
    · rw [hc] at hdigit
      cases hdigit
    · exact hminus hc
  have hspace : isSpace c = false := by
    simp only [isSpace, Bool.or_eq_false_iff, beq_eq_false_iff_ne]
    exact ⟨⟨⟨hne _ rfl (by decide), hne _ rfl (by decide)⟩, hne _ rfl (by decide)⟩, hne _ rfl (by decide)⟩
  rw [value, skipSpace_cons hspace]
  split
  all_goals first
    | rfl
    | (rename_i heq; rw [List.cons.injEq] at heq; exact absurd heq.1 (hne _ rfl (by decide)))

/-- What is not finite is written as null, and read as that. -/
theorem not_readsBack_of_null {x : Binary64} (h : floatText x = ['n', 'u', 'l', 'l']) : ¬ReadsBack x := by
  have htext : (compact (.float x)).toList = ['n', 'u', 'l', 'l'] := by
    rw [compact, String.toList_ofList, compactText, h]
  intro hx
  simp [ReadsBack, read?, htext, value, skipSpace, isSpace] at hx

/-- The literal a number that is read back is written as. -/
theorem ReadsBack.literal {x : Binary64} (h : ReadsBack x) :
    NumberHead (floatText x) ∧ ∃ l, numberLiteral (floatText x) = some (l, []) ∧ l.value = .float x := by
  cases x with
  | infinite negative => exact absurd h (not_readsBack_of_null rfl)
  | nan => exact absurd h (not_readsBack_of_null rfl)
  | finite x =>
    have hhead : NumberHead (floatText (.finite x)) := floatLayout.numberHead_text x
    refine ⟨hhead, ?_⟩
    have htext : (compact (.float (.finite x))).toList = floatText (.finite x) := by
      rw [compact, String.toList_ofList, compactText]
    simp only [ReadsBack, read?, htext, value_of_numberHead hhead] at h
    cases hl : numberLiteral (floatText (.finite x)) with
    | none => simp [hl] at h
    | some p =>
      obtain ⟨l, r⟩ := p
      simp only [hl, Option.map_some] at h
      split at h
      · rename_i hempty
        rw [Option.some.injEq] at h
        refine ⟨l, ?_, h⟩
        -- what is left is blank, and a number has no blanks
        cases r with
        | nil => rfl
        | cons c r =>
          have hmem : c ∈ floatLayout.text x := (suffix_of_numberLiteral hl).subset List.mem_cons_self
          have hchar := floatLayout.all_isFloatChar_text x c hmem
          have hspace : isSpace c = false := by
            refine Bool.eq_false_iff.2 fun hs => ?_
            simp only [isSpace, Bool.or_eq_true, beq_iff_eq] at hs
            rcases hs with ((rfl | rfl) | rfl) | rfl <;> exact absurd hchar (by decide)
          rw [skipSpace_cons hspace] at hempty
          cases hempty
      · cases h

/-- A legible tree is written with a character that is neither blank nor the end of a list in front. -/
theorem exists_compactText_eq_cons {d : Data} (h : Legible d) :
    ∃ c r, compactText d = c :: r ∧ isSpace c = false ∧ c ≠ ']' := by
  have hnumber : ∀ {cs}, NumberHead cs → ∃ c r, cs = c :: r ∧ isSpace c = false ∧ c ≠ ']' := by
    rintro cs ⟨c, r, rfl, hc⟩
    refine ⟨c, r, rfl, ?_, ?_⟩
    · refine Bool.eq_false_iff.2 fun hs => ?_
      simp only [isSpace, Bool.or_eq_true, beq_iff_eq] at hs
      rcases hs with ((rfl | rfl) | rfl) | rfl <;> exact absurd hc (by decide)
    · rintro rfl
      exact absurd hc (by decide)
  match d with
  | .null => exact ⟨'n', _, rfl, rfl, by decide⟩
  | .bool true => exact ⟨'t', _, rfl, rfl, by decide⟩
  | .bool false => exact ⟨'f', _, rfl, rfl, by decide⟩
  | .int i => exact hnumber (numberHead_intText i)
  | .float x => exact hnumber (ReadsBack.literal h).1
  | .string s => exact ⟨'"', _, rfl, rfl, by decide⟩
  | .list [] => exact ⟨'[', _, rfl, rfl, by decide⟩
  | .list (d :: ds) => exact ⟨'[', _, rfl, rfl, by decide⟩
  | .record [] => exact ⟨'{', _, rfl, rfl, by decide⟩
  | .record ((k, d) :: ms) => exact ⟨'{', _, rfl, rfl, by decide⟩

theorem follows_compactItems (ds : List Data) (rest : List Char) : Follows (compactItems ds ++ rest) := by
  cases ds with
  | nil => exact follows_cons (by decide) _
  | cons d ds => exact follows_cons (by decide) _

theorem follows_compactMembers (ms : List (String × Data)) (rest : List Char) : Follows (compactMembers ms ++ rest) := by
  cases ms with
  | nil => exact follows_cons (by decide) _
  | cons m ms => exact follows_cons (by decide) _

/-! ## Values -/

theorem recordValue_some (ms : List (String × Data)) : recordValue (ms.map fun m => (some m.1, m.2)) = .record ms := by
  have hmap : ∀ read : Option String × Data → Option (String × Data), (∀ k d, read (some k, d) = some (k, d)) →
      (ms.map fun m => (some m.1, m.2)).mapM read = some ms := by
    intro read hread
    induction ms with
    | nil => rfl
    | cons m ms ih => simp [hread, ih]
  rw [recordValue, hmap _ fun _ _ => rfl]

theorem container_of_pos {room : Nat} (h : 0 < room) (d : Data) : container room d = d := by
  rw [container, if_neg (by omega)]

variable {rest : List Char}

theorem value_list_cons {fuel room : Nat} {c : Char} {r r' : List Char} {d : Data} {ds : List Data}
    (hspace : isSpace c = false) (hend : c ≠ ']') (hd : value fuel (room - 1) (c :: r) = some (d, r'))
    (hds : moreItems fuel (room - 1) r' = some (ds, rest)) :
    value (fuel + 1) room ('[' :: c :: r) = some (container room (.list (d :: ds)), rest) := by
  rw [value, skipSpace_cons (by decide)]
  simp only [skipSpace_cons hspace]
  split
  · rename_i heq
    cases heq
    exact absurd rfl hend
  · simp [hd, hds]

theorem moreItems_cons {fuel room : Nat} {r r' : List Char} {d : Data} {ds : List Data}
    (hd : value fuel room r = some (d, r')) (hds : moreItems fuel room r' = some (ds, rest)) :
    moreItems (fuel + 1) room (',' :: r) = some (d :: ds, rest) := by
  rw [moreItems, skipSpace_cons (by decide)]
  simp [hd, hds]

theorem member_quoted {fuel room : Nat} {k : String} {r r' : List Char} {d : Data}
    (hd : value fuel room r = some (d, r')) :
    member (fuel + 1) room (quoted k ++ ':' :: r) = some ((some k, d), r') := by
  rw [member, quoted_append, skipSpace_cons (by decide)]
  simp [stringTail_flatMap_charText, skipSpace_cons (c := ':') (by decide), hd]

theorem value_record_cons {fuel room : Nat} {k : String} {r r' : List Char} {m : Option String × Data}
    {ms : List (Option String × Data)} (hm : member fuel (room - 1) (quoted k ++ r) = some (m, r'))
    (hms : moreMembers fuel (room - 1) r' = some (ms, rest)) :
    value (fuel + 1) room ('{' :: (quoted k ++ r)) = some (container room (recordValue (m :: ms)), rest) := by
  rw [quoted_append] at hm
  rw [value, skipSpace_cons (by decide), quoted_append]
  simp [skipSpace_cons (c := '"') (by decide), hm, hms]

theorem moreMembers_cons {fuel room : Nat} {r r' : List Char} {m : Option String × Data} {ms : List (Option String × Data)}
    (hm : member fuel room r = some (m, r')) (hms : moreMembers fuel room r' = some (ms, rest)) :
    moreMembers (fuel + 1) room (',' :: r) = some (m :: ms, rest) := by
  rw [moreMembers, skipSpace_cons (by decide)]
  simp [hm, hms]

mutual

/-- A legible tree is read back from its text, whatever value or end follows it. The fuel asked for is twice the length of the
text, since of two calls in a row one reads a character. -/
theorem value_compactText : ∀ (d : Data) (fuel room : Nat) (rest : List Char), Legible d → d.depth ≤ room →
    2 * (compactText d).length ≤ fuel → Follows rest → value fuel room (compactText d ++ rest) = some (d, rest)
  | d, 0, room, rest, hd, _, hfuel, _ => by
    obtain ⟨c, r, hcs, -, -⟩ := exists_compactText_eq_cons hd
    rw [hcs, List.length_cons] at hfuel
    omega
  | .null, fuel + 1, room, rest, _, _, _, _ => by
    simp [compactText, value, skipSpace_cons (c := 'n') (by decide)]
  | .bool true, fuel + 1, room, rest, _, _, _, _ => by
    simp [compactText, value, skipSpace_cons (c := 't') (by decide)]
  | .bool false, fuel + 1, room, rest, _, _, _, _ => by
    simp [compactText, value, skipSpace_cons (c := 'f') (by decide)]
  | .int i, fuel + 1, room, rest, hi, _, _, hrest => by
    rw [compactText, value_of_numberHead ((numberHead_intText i).append rest), numberLiteral_intText hrest, Option.map_some,
      value_intLiteral hi]
  | .float x, fuel + 1, room, rest, hx, _, _, hrest => by
    obtain ⟨hhead, l, hl, hvalue⟩ := ReadsBack.literal hx
    rw [compactText, value_of_numberHead (hhead.append rest), numberLiteral_append hrest hl, Option.map_some, hvalue,
      List.nil_append]
  | .string s, fuel + 1, room, rest, _, _, _, _ => by
    rw [compactText, value, quoted_append, skipSpace_cons (by decide)]
    simp [stringTail_flatMap_charText, stringValue]
  | .list [], fuel + 1, room, rest, _, hdepth, _, _ => by
    rw [Data.depth] at hdepth
    simp [compactText, value, skipSpace_cons (c := '[') (by decide), skipSpace_cons (c := ']') (by decide),
      container_of_pos (show 0 < room by omega)]
  | .list (d :: ds), fuel + 1, room, rest, hlegible, hdepth, hfuel, hrest => by
    obtain ⟨hd, hds⟩ := hlegible
    simp only [Data.depth, Data.depthOfItems] at hdepth
    simp only [compactText, List.length_cons, List.length_append] at hfuel
    have hfirst := value_compactText d fuel (room - 1) (compactItems ds ++ rest) hd (by omega)
      (by omega) (follows_compactItems ds rest)
    have hmore := moreItems_compactItems ds fuel (room - 1) rest hds (by omega) (by omega)
    obtain ⟨c, r, hcs, hspace, hend⟩ := exists_compactText_eq_cons hd
    rw [hcs, List.cons_append] at hfirst
    rw [compactText, hcs, List.cons_append, List.append_assoc, List.cons_append,
      value_list_cons hspace hend hfirst hmore, container_of_pos (by omega)]
  | .record [], fuel + 1, room, rest, _, hdepth, _, _ => by
    rw [Data.depth] at hdepth
    simp [compactText, value, skipSpace_cons (c := '{') (by decide), skipSpace_cons (c := '}') (by decide),
      container_of_pos (show 0 < room by omega)]
  | .record ((k, d) :: ms), fuel + 1, room, rest, hlegible, hdepth, hfuel, hrest => by
    obtain ⟨hd, hms⟩ := hlegible
    simp only [Data.depth, Data.depthOfMembers] at hdepth
    simp only [compactText, List.length_cons, List.length_append] at hfuel
    obtain ⟨fuel, rfl⟩ : ∃ n, fuel = n + 1 := ⟨fuel - 1, by omega⟩
    have hfirst := value_compactText d fuel (room - 1) (compactMembers ms ++ rest) hd (by omega)
      (by omega) (follows_compactMembers ms rest)
    have hmore := moreMembers_compactMembers ms (fuel + 1) (room - 1) rest hms (by omega) (by omega)
    have hall := value_record_cons (member_quoted (k := k) hfirst) hmore
    rw [← List.map_cons (f := fun m : String × Data => (some m.1, m.2)) (a := (k, d)), recordValue_some,
      container_of_pos (by omega)] at hall
    simpa [compactText] using hall

/-- The items of a list after its first one are read back, up to the end of the list. -/
theorem moreItems_compactItems : ∀ (ds : List Data) (fuel room : Nat) (rest : List Char), LegibleItems ds →
    Data.depthOfItems ds ≤ room → 2 * (compactItems ds).length ≤ fuel →
    moreItems fuel room (compactItems ds ++ rest) = some (ds, rest)
  | [], 0, room, rest, _, _, hfuel => by simp [compactItems] at hfuel
  | [], fuel + 1, room, rest, _, _, _ => by simp [compactItems, moreItems, skipSpace_cons (c := ']') (by decide)]
  | d :: ds, 0, room, rest, _, _, hfuel => by simp [compactItems] at hfuel
  | d :: ds, fuel + 1, room, rest, hlegible, hdepth, hfuel => by
    obtain ⟨hd, hds⟩ := hlegible
    rw [Data.depthOfItems] at hdepth
    simp only [compactItems, List.length_cons, List.length_append] at hfuel
    have hfirst := value_compactText d fuel room (compactItems ds ++ rest) hd (by omega)
      (by omega) (follows_compactItems ds rest)
    have hmore := moreItems_compactItems ds fuel room rest hds (by omega) (by omega)
    rw [compactItems, List.cons_append, List.append_assoc, moreItems_cons hfirst hmore]

/-- The members of a record after its first one are read back, up to the end of the record. -/
theorem moreMembers_compactMembers : ∀ (ms : List (String × Data)) (fuel room : Nat) (rest : List Char), LegibleMembers ms →
    Data.depthOfMembers ms ≤ room → 2 * (compactMembers ms).length ≤ fuel →
    moreMembers fuel room (compactMembers ms ++ rest) = some (ms.map fun m => (some m.1, m.2), rest)
  | [], 0, room, rest, _, _, hfuel => by simp [compactMembers] at hfuel
  | [], fuel + 1, room, rest, _, _, _ => by simp [compactMembers, moreMembers, skipSpace_cons (c := '}') (by decide)]
  | m :: ms, 0, room, rest, _, _, hfuel => by simp [compactMembers] at hfuel
  | (k, d) :: ms, fuel + 1, room, rest, hlegible, hdepth, hfuel => by
    obtain ⟨hd, hms⟩ := hlegible
    rw [Data.depthOfMembers] at hdepth
    simp only [compactMembers, List.length_cons, List.length_append] at hfuel
    obtain ⟨fuel, rfl⟩ : ∃ n, fuel = n + 1 := ⟨fuel - 1, by omega⟩
    have hfirst := value_compactText d fuel room (compactMembers ms ++ rest) hd (by omega)
      (by omega) (follows_compactMembers ms rest)
    have hmore := moreMembers_compactMembers ms (fuel + 1) room rest hms (by omega) (by omega)
    have hall := moreMembers_cons (member_quoted (k := k) hfirst) hmore
    simpa [compactMembers] using hall

end

/-- A legible tree that is not too deep is read back from its text. -/
theorem read?_compact {d : Data} (h : Legible d) (hdepth : d.depth ≤ maxDepth) : read? (compact d) = some d := by
  have hvalue := value_compactText d (2 * (compactText d).length + 2) maxDepth [] h hdepth (by omega) follows_nil
  rw [List.append_nil] at hvalue
  simp [read?, compact, String.toList_ofList, hvalue, skipSpace]

end Json

end SearchRules
