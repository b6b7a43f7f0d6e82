import Mathlib.Logic.Function.Basic
import SearchRules.Proofs.Text.Active

/-!
# Values behind their escaping

Escaping loses nothing. Whatever the set, an escaped text is cut into the characters of the value in one way only, since no
character of the set begins a cut by itself (`restoreChars_escapeChars`). With a set that holds the backslash the set need not even
be known: the engine, which drops each backslash and keeps the character behind it, reads the value (`escape_lossless`).
-/

namespace SearchRules

/-- A query text without its escapes: each backslash is dropped, and the character behind it is kept. A backslash with nothing behind
it stays. -/
def unescape (text : String) : String :=
  String.ofList ((readText text.toList).map ReadChar.char)

namespace EscapeSet

/-- The characters of the value that is escaped to some characters: a backslash in front of a character of the set was put there,
any other belongs to the value. -/
def restoreChars (e : EscapeSet) : List Char → List Char
  | [] => []
  | [c] => [c]
  | c :: d :: cs => if c = '\\' ∧ e.contains d = true then d :: e.restoreChars cs else c :: e.restoreChars (d :: cs)

theorem restoreChars_escape {e : EscapeSet} {d : Char} (h : e.contains d = true) (cs : List Char) :
    e.restoreChars ('\\' :: d :: cs) = d :: e.restoreChars cs := by
  rw [restoreChars, if_pos ⟨rfl, h⟩]

/-- A character of the value is kept, unless it is a backslash with a character of the set behind it. -/
theorem restoreChars_cons {e : EscapeSet} {c : Char} {cs : List Char}
    (h : c = '\\' → ∀ d, cs.head? = some d → e.contains d = false) : e.restoreChars (c :: cs) = c :: e.restoreChars cs := by
  cases cs with
  | nil => rfl
  | cons d cs =>
    rw [restoreChars, if_neg]
    rintro ⟨hc, hd⟩
    rw [h hc d rfl] at hd
    exact Bool.false_ne_true hd

/-- With a set that lacks the backslash, an escaped text does not begin with a character of the set. -/
theorem contains_head?_escapeChars {e : EscapeSet} (h : e.contains '\\' = false) {cs : List Char} {d : Char}
    (hd : (e.escapeChars cs).head? = some d) : e.contains d = false := by
  cases cs with
  | nil => cases hd
  | cons c cs =>
    rw [escapeChars_cons] at hd
    by_cases hc : e.contains c = true
    · rw [if_pos hc, List.singleton_append, List.head?_cons, Option.some.injEq] at hd
      exact hd ▸ h
    · rw [if_neg hc, List.nil_append, List.head?_cons, Option.some.injEq] at hd
      exact hd ▸ Bool.eq_false_iff.2 hc

/-- The value is restored from its escaped text. -/
theorem restoreChars_escapeChars (e : EscapeSet) (cs : List Char) : e.restoreChars (e.escapeChars cs) = cs := by
  induction cs with
  | nil => rfl
  | cons c cs ih =>
    rw [escapeChars_cons]
    by_cases hc : e.contains c = true
    · rw [if_pos hc, List.singleton_append, restoreChars_escape hc, ih]
    · rw [if_neg hc, List.nil_append, restoreChars_cons, ih]
      -- a backslash is left as it is only by a set that lacks it
      rintro rfl d hd
      exact contains_head?_escapeChars (Bool.eq_false_iff.2 hc) hd

/-- Two values are never escaped to the same text; and with a set that holds the backslash, dropping each backslash and keeping the
character behind it turns the escaped text back into the value. -/
theorem escape_lossless (e : EscapeSet) :
    Function.Injective e.escape ∧ (e.contains '\\' = true → ∀ s, unescape (e.escape s) = s) := by
  constructor
  · intro s t hst
    have hchars : e.escapeChars s.toList = e.escapeChars t.toList := String.ofList_injective hst
    rw [← String.toList_inj, ← e.restoreChars_escapeChars s.toList, hchars, e.restoreChars_escapeChars]
  · intro h s
    have hread : (readText (e.escapeChars s.toList)).map ReadChar.char = s.toList := by
      rw [readText_escapeChars_of_contains h, List.map_map]
      exact List.map_id _
    rw [unescape, escape, String.toList_ofList, hread, String.ofList_toList]

/-- A set without the backslash escapes a parenthesis and leaves the backslash of the other value alone, and the texts differ; the
broad set doubles the backslash, and the value is read back. -/
theorem escape_lossless_parenthesis :
    narrow.escape "(" = "\\(" ∧ narrow.escape "\\(" ≠ "\\(" ∧ broad.contains '\\' = true ∧
      broad.escape "a\\(b" = "a\\\\\\(b" ∧ unescape (broad.escape "a\\(b") = "a\\(b" := by
  have hparenthesis : narrow.escape "(" = "\\(" := by decide
  refine ⟨hparenthesis, fun heq => ?_, by decide, by decide, (escape_lossless broad).2 (by decide) "a\\(b"⟩
  have hsame : "\\(" = "(" := (escape_lossless narrow).1 (heq.trans hparenthesis.symm)
  exact absurd hsame (by decide)

end EscapeSet

end SearchRules
