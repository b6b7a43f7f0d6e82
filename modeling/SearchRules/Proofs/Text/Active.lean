import SearchRules.Proofs.Text.BareWildcards

/-!
# Which characters of a query text are active

The engine reads a query text from left to right. A backslash makes the character behind it literal and is consumed with it; any
other character is active, so it has the meaning that the query syntax gives it. Escaping is to leave no character of the escape
set active. It does so if the set holds the backslash (`readText_escapeChars_of_contains`). Otherwise the backslashes of the value
are active too, and take the place of those that escaping puts in (`readFrom_escapeChars_of_not_contains`).
-/

namespace SearchRules

/-- A character of a query text as it is read: active, or made literal by a backslash. -/
structure ReadChar where
  char : Char
  active : Bool
  deriving DecidableEq, Repr

/-- The characters of a text that follows a backslash, or does not. A backslash at the end has nothing to make literal and is
active itself. -/
def readFrom (escaped : Bool) : List Char → List ReadChar
  | [] => if escaped then [⟨'\\', true⟩] else []
  | c :: cs =>
    if escaped then ⟨c, false⟩ :: readFrom false cs
    else if c = '\\' then readFrom true cs
    else ⟨c, true⟩ :: readFrom false cs

/-- The characters of a query text as they are read, without the backslashes that make others literal. -/
def readText (cs : List Char) : List ReadChar :=
  readFrom false cs

theorem readFrom_true_cons (c : Char) (cs : List Char) : readFrom true (c :: cs) = ⟨c, false⟩ :: readFrom false cs := by
  simp [readFrom]

theorem readFrom_false_backslash (cs : List Char) : readFrom false ('\\' :: cs) = readFrom true cs := by
  simp [readFrom]

theorem readFrom_false_cons {c : Char} (h : c ≠ '\\') (cs : List Char) :
    readFrom false (c :: cs) = ⟨c, true⟩ :: readFrom false cs := by
  simp [readFrom, h]

namespace EscapeSet

/-- A character of a value, as it is read where the value is escaped with a set that lacks the backslash. The backslash that is put
in makes an active character literal; behind a backslash of the value it is made literal itself, and the character is active. -/
def reread (e : EscapeSet) (x : ReadChar) : List ReadChar :=
  if e.contains x.char then
    if x.active then [⟨x.char, false⟩] else [⟨'\\', false⟩, ⟨x.char, true⟩]
  else [x]

/-- A set that holds the backslash escapes each of its characters for good, and the value is read back. -/
theorem readText_escapeChars_of_contains {e : EscapeSet} (h : e.contains '\\' = true) (cs : List Char) :
    readText (e.escapeChars cs) = cs.map fun c => ⟨c, !e.contains c⟩ := by
  induction cs with
  | nil => rfl
  | cons c cs ih =>
    rw [readText] at ih ⊢
    rw [escapeChars_cons, List.map_cons, ← ih]
    by_cases hc : e.contains c = true
    · rw [if_pos hc, List.singleton_append, readFrom_false_backslash, readFrom_true_cons, hc, Bool.not_true]
    · have hne : c ≠ '\\' := by
        rintro rfl
        exact hc h
      rw [if_neg hc, List.nil_append, readFrom_false_cons hne, Bool.eq_false_iff.2 hc, Bool.not_false]

/-- With a set that lacks the backslash, an escaped value is read as the value is, each character of the set the other way. -/
theorem readFrom_escapeChars_of_not_contains {e : EscapeSet} (h : e.contains '\\' = false) (cs : List Char) (escaped : Bool) :
    readFrom escaped (e.escapeChars cs) = (readFrom escaped cs).flatMap e.reread := by
  induction cs generalizing escaped with
  | nil =>
    rw [escapeChars, List.flatMap_nil]
    cases escaped <;> simp [readFrom, reread, h]
  | cons c cs ih =>
    rw [escapeChars_cons]
    by_cases hc : e.contains c = true
    · have hne : c ≠ '\\' := by
        rintro rfl
        rw [h] at hc
        exact absurd hc Bool.false_ne_true
      rw [if_pos hc, List.singleton_append]
      cases escaped with
      | true =>
        rw [readFrom_true_cons, readFrom_false_cons hne, readFrom_true_cons, ih, List.flatMap_cons]
        simp [reread, hc]
      | false =>
        rw [readFrom_false_backslash, readFrom_true_cons, readFrom_false_cons hne, ih, List.flatMap_cons]
        simp [reread, hc]
    · rw [if_neg hc, List.nil_append]
      cases escaped with
      | true =>
        rw [readFrom_true_cons, readFrom_true_cons, ih, List.flatMap_cons]
        simp [reread, hc]
      | false =>
        by_cases hne : c = '\\'
        · rw [hne, readFrom_false_backslash, readFrom_false_backslash, ih]
        · rw [readFrom_false_cons hne, readFrom_false_cons hne, ih, List.flatMap_cons]
          simp [reread, hc]

/-- Whether none of the characters that are read is active and in the set. -/
def Inert (e : EscapeSet) (cs : List Char) : Prop :=
  ∀ x ∈ readText cs, e.contains x.char = true → x.active = false

/-- Escaping a value leaves no character of the set active exactly if the set holds the backslash or no character of the set stands
in the value behind a backslash that makes it literal. -/
theorem inert_escape_iff (e : EscapeSet) (s : String) :
    e.Inert (e.escape s).toList ↔
      e.contains '\\' = true ∨ ∀ x ∈ readText s.toList, e.contains x.char = true → x.active = true := by
  rw [Inert, escape, String.toList_ofList]
  cases h : e.contains '\\' with
  | true =>
    rw [readText_escapeChars_of_contains h]
    refine ⟨fun _ => Or.inl rfl, ?_⟩
    rintro - x hx hset
    obtain ⟨c, -, rfl⟩ := List.mem_map.1 hx
    simpa using hset
  | false =>
    rw [readText, readFrom_escapeChars_of_not_contains h]
    constructor
    · intro hinert
      refine Or.inr ?_
      intro x hx hset
      by_contra hlit
      have hmem : (⟨x.char, true⟩ : ReadChar) ∈ (readFrom false s.toList).flatMap e.reread := by
        refine List.mem_flatMap.2 ⟨x, hx, ?_⟩
        simp [reread, hset, hlit]
      exact absurd (hinert _ hmem hset) nofun
    · rintro (hslash | hactive) y hy hset
      · exact absurd hslash Bool.false_ne_true
      · obtain ⟨x, hx, hyx⟩ := List.mem_flatMap.1 hy
        rw [reread] at hyx
        by_cases hc : e.contains x.char = true
        · rw [if_pos hc, if_pos (hactive x hx hc)] at hyx
          rw [List.mem_singleton.1 hyx]
        · rw [if_neg hc] at hyx
          rw [List.mem_singleton.1 hyx] at hset
          exact absurd hset hc

/-- A parenthesis behind a backslash: the backslash that is put in between is made literal by the one of the value, and the
parenthesis is active. -/
theorem not_inert_escape_narrow :
    narrow.escape "\\(" = "\\\\(" ∧ ¬narrow.Inert (narrow.escape "\\(").toList := by
  refine ⟨by decide, fun hinert => ?_⟩
  have hread : readText (narrow.escape "\\(").toList = [⟨'\\', false⟩, ⟨'(', true⟩] := by decide
  rw [Inert, hread] at hinert
  exact absurd (hinert ⟨'(', true⟩ (by simp) (by decide)) nofun

end EscapeSet

end SearchRules
