import SearchRules.Proofs.Text.Active

/-!
# Query texts that match what begins with them

A query text matches what begins with it when it ends with a star that is active. Where texts are to be open-ended, a star is put
behind an escaped value that does not end with one already. But the star that is put there, or the one that is there, may be made
literal by a backslash: `clause_endsOpen_iff` says when.
-/

namespace SearchRules

/-- Whether a query text ends with a star that the engine takes for a wildcard. -/
def EndsOpen (cs : List Char) : Prop :=
  (readText cs).getLast? = some ⟨'*', true⟩

/-- Whether a query text ends with a backslash that would make the next character literal. -/
def Dangles (cs : List Char) : Prop :=
  (readText cs).getLast? = some ⟨'\\', true⟩

/-! ## The last character that is read -/

/-- Of what is read, a first character other than an active backslash has no part in whether the last one is an active backslash. -/
theorem getLast?_cons_eq_dangling_iff {x : ReadChar} (hx : x ≠ ⟨'\\', true⟩) (xs : List ReadChar) :
    (x :: xs).getLast? = some ⟨'\\', true⟩ ↔ xs.getLast? = some ⟨'\\', true⟩ := by
  rw [List.getLast?_cons, Option.some.injEq]
  cases xs.getLast? with
  | none => simp [hx]
  | some y => simp

/-- The last character of a text is active, unless the text before it ends with a backslash that makes it literal. -/
theorem getLast?_readFrom_append_singleton (escaped : Bool) (cs : List Char) (c : Char) :
    (readFrom escaped (cs ++ [c])).getLast? =
      some ⟨c, !decide ((readFrom escaped cs).getLast? = some ⟨'\\', true⟩)⟩ := by
  induction cs generalizing escaped with
  | nil =>
    cases escaped with
    | true => simp [readFrom]
    | false => by_cases hc : c = '\\' <;> simp [readFrom, hc]
  | cons d ds ih =>
    have hstep : ∀ x : ReadChar, x ≠ ⟨'\\', true⟩ → (x :: readFrom false (ds ++ [c])).getLast? =
        some ⟨c, !decide ((x :: readFrom false ds).getLast? = some ⟨'\\', true⟩)⟩ := by
      intro x hx
      rw [List.getLast?_cons, ih, Option.getD_some]
      simp only [getLast?_cons_eq_dangling_iff hx]
    rw [List.cons_append]
    cases escaped with
    | true =>
      rw [readFrom_true_cons, readFrom_true_cons]
      exact hstep ⟨d, false⟩ (by simp)
    | false =>
      by_cases hd : d = '\\'
      · rw [hd, readFrom_false_backslash, readFrom_false_backslash, ih]
      · rw [readFrom_false_cons hd, readFrom_false_cons hd]
        exact hstep ⟨d, true⟩ (by simp [hd])

/-- A star behind a text is active, unless the text ends with a backslash that makes it literal. -/
theorem endsOpen_append_star (cs : List Char) : EndsOpen (cs ++ ['*']) ↔ ¬Dangles cs := by
  rw [EndsOpen, readText, getLast?_readFrom_append_singleton]
  simp [Dangles, readText]

/-- The last character of a text is the last one that is read. -/
theorem map_char_getLast?_readText (cs : List Char) : (readText cs).getLast?.map ReadChar.char = cs.getLast? := by
  rcases List.eq_nil_or_concat cs with rfl | ⟨xs, c, rfl⟩
  · rfl
  · rw [List.concat_eq_append, readText, getLast?_readFrom_append_singleton, List.getLast?_append]
    rfl

namespace EscapeSet

/-- With a set that holds the backslash, the last character of an escaped text is active if it is not in the set. -/
theorem getLast?_readText_escapeChars_of_contains {e : EscapeSet} (h : e.contains '\\' = true) (cs : List Char) :
    (readText (e.escapeChars cs)).getLast? = cs.getLast?.map fun c => ⟨c, !e.contains c⟩ := by
  rw [readText_escapeChars_of_contains h, List.getLast?_map]

/-- With a set that lacks the backslash, the last character is read as it is in the value, or the other way if it is in the set. -/
theorem getLast?_readText_escapeChars_of_not_contains {e : EscapeSet} (h : e.contains '\\' = false) (cs : List Char) :
    (readText (e.escapeChars cs)).getLast? = (readText cs).getLast?.map fun x => ⟨x.char, x.active != e.contains x.char⟩ := by
  rw [readText, readFrom_escapeChars_of_not_contains h, ← readText]
  rcases List.eq_nil_or_concat (readText cs) with hnil | ⟨xs, x, hx⟩
  · rw [hnil]
    rfl
  · rw [hx, List.concat_eq_append, List.flatMap_append, List.flatMap_singleton, List.getLast?_append, List.getLast?_append]
    obtain ⟨c, active⟩ := x
    by_cases hc : e.contains c = true
    · cases active <;> simp [reread, hc]
    · simp [reread, hc]

end EscapeSet

/-! ## The star at the end -/

namespace QueryStyle

variable {style : QueryStyle} {cs : List Char}

theorem queryChars_of_star (hlast : cs.getLast? = some '*') : style.queryChars cs = style.escape.escapeChars cs := by
  rw [queryChars, style.escape.getLast?_escapeChars, hlast]
  simp

theorem queryChars_of_openEnded (hopen : style.openEnded = true) (hne : cs ≠ []) (hlast : cs.getLast? ≠ some '*') :
    style.queryChars cs = style.escape.escapeChars cs ++ ['*'] := by
  rw [queryChars, style.escape.isEmpty_escapeChars, style.escape.getLast?_escapeChars, hopen, List.isEmpty_eq_false_iff.2 hne]
  simp [hlast]

/-- An open-ended query text ends with a star. -/
theorem getLast?_queryChars (hopen : style.openEnded = true) (hne : cs ≠ []) : (style.queryChars cs).getLast? = some '*' := by
  by_cases hlast : cs.getLast? = some '*'
  · rw [queryChars_of_star hlast, style.escape.getLast?_escapeChars, hlast]
  · rw [queryChars_of_openEnded hopen hne hlast, List.getLast?_append]
    rfl

/-- With a set that holds the backslash, the star at the end is active, unless it is the value's own and in the set. -/
theorem endsOpen_queryChars_of_contains (hopen : style.openEnded = true) (hne : cs ≠ [])
    (h : style.escape.contains '\\' = true) :
    EndsOpen (style.queryChars cs) ↔ (cs.getLast? = some '*' → style.escape.contains '*' = false) := by
  by_cases hlast : cs.getLast? = some '*'
  · rw [queryChars_of_star hlast, EndsOpen, EscapeSet.getLast?_readText_escapeChars_of_contains h, hlast]
    simp
  · rw [queryChars_of_openEnded hopen hne hlast, endsOpen_append_star, Dangles,
      EscapeSet.getLast?_readText_escapeChars_of_contains h]
    refine iff_of_true ?_ fun hstar => absurd hstar hlast
    rw [Option.map_eq_some_iff]
    rintro ⟨c, -, hc⟩
    obtain ⟨rfl, hset⟩ := ReadChar.mk.inj hc
    rw [h] at hset
    exact Bool.false_ne_true hset

/-- With a set that lacks the backslash, the star at the end is active, unless the value ends with a backslash that makes it literal,
or with a star that is literal and stays so, or active and in the set. -/
theorem endsOpen_queryChars_of_not_contains (hopen : style.openEnded = true) (hne : cs ≠ [])
    (h : style.escape.contains '\\' = false) :
    EndsOpen (style.queryChars cs) ↔ ¬Dangles cs ∧ (readText cs).getLast? ≠ some ⟨'*', style.escape.contains '*'⟩ := by
  have hchar := map_char_getLast?_readText cs
  have hread := EscapeSet.getLast?_readText_escapeChars_of_not_contains h cs
  rw [Dangles]
  by_cases hlast : cs.getLast? = some '*'
  · rw [queryChars_of_star hlast, EndsOpen, hread]
    rw [hlast, Option.map_eq_some_iff] at hchar
    obtain ⟨⟨c, active⟩, hx, rfl⟩ := hchar
    rw [hx]
    cases active <;> cases hstar : style.escape.contains '*' <;> simp [hstar]
  · rw [queryChars_of_openEnded hopen hne hlast, endsOpen_append_star, Dangles, hread]
    cases hx : (readText cs).getLast? with
    | none => simp
    | some x =>
      obtain ⟨c, active⟩ := x
      rw [hx] at hchar
      have hc : c ≠ '*' := by
        rintro rfl
        exact hlast hchar.symm
      by_cases hslash : c = '\\'
      · subst hslash
        simp [h]
      · simp [hc, hslash]

/-- An open-ended query text ends with a star. With a set that holds the backslash that star is active, unless it is the value's own
and in the set; with a set that lacks it, unless the value ends with a backslash that makes it literal, with a star that is literal
and not in the set, or with a star that is active and in the set. -/
theorem clause_endsOpen_iff (style : QueryStyle) (fields : List String) (literal : String) (hopen : style.openEnded = true)
    (hne : literal ≠ "") (hcheck : checkLiteral literal = .ok ()) :
    ∃ query, style.clause fields literal = .ok (.freeText ⟨query, fields⟩) ∧ query.toList.getLast? = some '*' ∧
      (EndsOpen query.toList ↔
        if style.escape.contains '\\' then literal.toList.getLast? = some '*' → style.escape.contains '*' = false
        else ¬Dangles literal.toList ∧ (readText literal.toList).getLast? ≠ some ⟨'*', style.escape.contains '*'⟩) := by
  have hchars : literal.toList ≠ [] := fun h => hne (String.toList_eq_nil_iff.1 h)
  refine ⟨String.ofList (style.queryChars literal.toList), ?_, ?_, ?_⟩
  · rw [clause, hcheck]
    rfl
  · rw [String.toList_ofList, getLast?_queryChars hopen hchars]
  · rw [String.toList_ofList]
    cases h : style.escape.contains '\\' with
    | true => exact endsOpen_queryChars_of_contains hopen hchars h
    | false => exact endsOpen_queryChars_of_not_contains hopen hchars h

/-- The broad set escapes the backslash at the end of a value, so the star behind it is active. -/
theorem clause_endsOpen_broad :
    ∃ query, ({ escape := .broad, openEnded := true } : QueryStyle).clause ["title"] "a\\" = .ok (.freeText ⟨query, ["title"]⟩) ∧
      EndsOpen query.toList := by
  obtain ⟨query, hclause, -, hiff⟩ := clause_endsOpen_iff { escape := .broad, openEnded := true } ["title"] "a\\" rfl (by decide) rfl
  rw [if_pos (by decide)] at hiff
  exact ⟨query, hclause, hiff.2 (by decide)⟩

/-- A star that is in the set is escaped and taken for one that makes the text open-ended, and the star put behind a backslash is
made literal by it. -/
theorem clause_not_endsOpen :
    ({ escape := .custom ['*'], openEnded := true } : QueryStyle).clause ["*"] "a*" = .ok (.freeText ⟨"a\\*", ["*"]⟩) ∧
      ({ escape := .narrow, openEnded := true } : QueryStyle).clause ["*"] "a\\" = .ok (.freeText ⟨"a\\*", ["*"]⟩) ∧
      ¬EndsOpen "a\\*".toList := by
  refine ⟨rfl, rfl, ?_⟩
  rw [EndsOpen]
  decide

end QueryStyle

end SearchRules
