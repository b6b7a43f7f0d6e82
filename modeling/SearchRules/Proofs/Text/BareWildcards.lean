import SearchRules.Clause.FreeText
import SearchRules.Proofs.Text.Tokens

/-!
# Bare wildcards

A token made only of wildcards matches everything. Escaping makes none: it puts backslashes in front of characters and leaves the
blank ones where they are. A `*` put behind a text makes one exactly when the text ends with a blank character, because there it is
a token of its own: `hasBareWildcard_queryChars`.
-/

namespace SearchRules

/-- Whether a text has a token made only of wildcards. -/
def hasBareWildcard (cs : List Char) : Bool :=
  (tokens cs).any (·.all isWildcard)

theorem hasBareWildcard_append_blank {b : Char} (hb : isBlank b = true) (xs ys : List Char) :
    hasBareWildcard (xs ++ b :: ys) = (hasBareWildcard xs || hasBareWildcard ys) := by
  rw [hasBareWildcard, tokens_append_blank hb, List.any_append]
  rfl

theorem hasBareWildcard_of_solid {xs : List Char} (h : Solid xs) :
    hasBareWildcard xs = (!xs.isEmpty && xs.all isWildcard) := by
  rw [hasBareWildcard, tokens_of_solid h]
  cases xs <;> simp

/-! ## Escaping -/

namespace EscapeSet

theorem escapeChars_append (e : EscapeSet) (xs ys : List Char) :
    e.escapeChars (xs ++ ys) = e.escapeChars xs ++ e.escapeChars ys :=
  List.flatMap_append

theorem escapeChars_cons (e : EscapeSet) (c : Char) (cs : List Char) :
    e.escapeChars (c :: cs) = (if e.contains c then ['\\'] else []) ++ c :: e.escapeChars cs := by
  rw [escapeChars, List.flatMap_cons]
  cases e.contains c <;> rfl

theorem isEmpty_escapeChars (e : EscapeSet) (cs : List Char) : (e.escapeChars cs).isEmpty = cs.isEmpty := by
  cases cs with
  | nil => rfl
  | cons c cs =>
    rw [escapeChars_cons]
    simp

/-- The last character stays the last one. -/
theorem getLast?_escapeChars (e : EscapeSet) (cs : List Char) : (e.escapeChars cs).getLast? = cs.getLast? := by
  rcases List.eq_nil_or_concat cs with rfl | ⟨cs, c, rfl⟩
  · rfl
  · rw [List.concat_eq_append, escapeChars_append, escapeChars_cons]
    simp [escapeChars]

/-- A backslash is not blank, so escaping parts no token. -/
theorem solid_escapeChars (e : EscapeSet) {xs : List Char} (h : Solid xs) : Solid (e.escapeChars xs) := by
  induction xs with
  | nil => exact solid_nil
  | cons c cs ih =>
    rw [escapeChars_cons]
    refine Solid.append ?_ ((ih fun a ha => h a (List.mem_cons_of_mem c ha)).cons (h c List.mem_cons_self))
    by_cases hc : e.contains c = true
    · rw [if_pos hc]
      exact solid_singleton (by decide)
    · rw [if_neg hc]
      exact solid_nil

/-- A backslash is no wildcard, so what is made only of wildcards was so before. -/
theorem all_isWildcard_of_escapeChars (e : EscapeSet) {xs : List Char} (h : (e.escapeChars xs).all isWildcard = true) :
    xs.all isWildcard = true := by
  induction xs with
  | nil => rfl
  | cons c cs ih =>
    rw [escapeChars_cons, List.all_append, List.all_cons, Bool.and_eq_true, Bool.and_eq_true] at h
    rw [List.all_cons, Bool.and_eq_true]
    exact ⟨h.2.1, ih h.2.2⟩

/-- Escaping makes no token of wildcards out of one that is none. -/
theorem hasBareWildcard_escapeChars_of_solid (e : EscapeSet) {xs : List Char} (hs : Solid xs)
    (h : hasBareWildcard xs = false) : hasBareWildcard (e.escapeChars xs) = false := by
  rw [hasBareWildcard_of_solid hs] at h
  rw [hasBareWildcard_of_solid (e.solid_escapeChars hs), isEmpty_escapeChars]
  cases hall : (e.escapeChars xs).all isWildcard with
  | false => exact Bool.and_false _
  | true => rwa [e.all_isWildcard_of_escapeChars hall] at h

/-- Escaping makes no bare wildcard. -/
theorem hasBareWildcard_escapeChars (e : EscapeSet) {cs : List Char} (h : hasBareWildcard cs = false) :
    hasBareWildcard (e.escapeChars cs) = false := by
  induction cs using solid_induction with
  | solid xs hs => exact e.hasBareWildcard_escapeChars_of_solid hs h
  | blank xs b ys hs hb ih =>
    rw [hasBareWildcard_append_blank hb, Bool.or_eq_false_iff] at h
    obtain ⟨hx, hy⟩ := h
    rw [escapeChars_append, escapeChars_cons, ← List.append_assoc, hasBareWildcard_append_blank hb, ih hy, Bool.or_false]
    by_cases hc : e.contains b = true
    · -- the backslash of the blank character joins the token before it
      have hslash : Solid (e.escapeChars xs ++ ['\\']) :=
        (e.solid_escapeChars hs).append (solid_singleton (by decide))
      rw [if_pos hc, hasBareWildcard_of_solid hslash, List.all_append]
      simp [isWildcard]
    · rw [if_neg hc, List.append_nil]
      exact e.hasBareWildcard_escapeChars_of_solid hs hx

end EscapeSet

/-! ## A star at the end -/

/-- Behind a blank character a star is a token of its own. -/
theorem hasBareWildcard_append_star_of_blank {cs : List Char} {b : Char} (hlast : cs.getLast? = some b)
    (hb : isBlank b = true) : hasBareWildcard (cs ++ ['*']) = true := by
  obtain ⟨xs, rfl⟩ := List.getLast?_eq_some_iff.1 hlast
  rw [List.append_assoc, List.singleton_append, hasBareWildcard_append_blank hb, Bool.or_eq_true]
  exact Or.inr (by decide)

/-- Behind any other character a star joins the token before it, which is made only of wildcards if it was so before. -/
theorem hasBareWildcard_append_star {cs : List Char} {b : Char} (hlast : cs.getLast? = some b) (hb : isBlank b = false) :
    hasBareWildcard (cs ++ ['*']) = hasBareWildcard cs := by
  induction cs using solid_induction with
  | solid xs hs =>
    have hne : xs.isEmpty = false :=
      List.isEmpty_eq_false_iff.2 (List.ne_nil_of_mem (List.mem_of_getLast? hlast))
    rw [hasBareWildcard_of_solid hs, hasBareWildcard_of_solid (hs.append (solid_singleton (by decide))), List.all_append]
    simp [hne, isWildcard]
  | blank xs a ys hs ha ih =>
    rw [List.getLast?_append_cons] at hlast
    cases ys with
    | nil =>
      have hab : a = b := Option.some.inj hlast
      rw [← hab, ha] at hb
      exact absurd hb nofun
    | cons c ys =>
      rw [List.getLast?_cons_cons] at hlast
      rw [List.append_assoc, List.cons_append, hasBareWildcard_append_blank ha, hasBareWildcard_append_blank ha, ih hlast]

/-- Whether the last character of a text is blank. -/
def endsBlank (cs : List Char) : Bool :=
  cs.getLast?.any isBlank

/-- The query text of a literal without bare wildcards has one exactly when a star is put behind a blank character. -/
theorem hasBareWildcard_queryChars (style : QueryStyle) {cs : List Char} (h : hasBareWildcard cs = false) :
    hasBareWildcard (style.queryChars cs) = (style.openEnded && endsBlank cs) := by
  have hesc := style.escape.hasBareWildcard_escapeChars h
  have hlast := style.escape.getLast?_escapeChars cs
  rw [QueryStyle.queryChars, style.escape.isEmpty_escapeChars, hlast, endsBlank]
  cases style.openEnded with
  | false => simpa using hesc
  | true =>
    cases hl : cs.getLast? with
    | none =>
      rw [List.getLast?_eq_none_iff] at hl
      subst hl
      rfl
    | some b =>
      have hne : cs.isEmpty = false :=
        List.isEmpty_eq_false_iff.2 (List.ne_nil_of_mem (List.mem_of_getLast? hl))
      rw [hl] at hlast
      simp only [hne, Bool.true_and, Bool.not_false, Option.any_some]
      by_cases hstar : b = '*'
      · subst hstar
        rw [if_neg (by simp), hesc]
        decide
      · rw [if_pos (by simpa using hstar)]
        cases hb : isBlank b with
        | true => exact hasBareWildcard_append_star_of_blank hlast hb
        | false => rw [hasBareWildcard_append_star hlast hb, hesc]

end SearchRules
