import Mathlib.Data.List.Basic
import SearchRules.Text.Blank

/-!
# Tokens

The tokens of a text, without the scan: a text with a blank character in it has the tokens of the part before and those of the
part behind (`tokens_append_blank`), and a text without one is its only token (`tokens_of_solid`). `solid_induction` goes through a
text in the same way.
-/

namespace SearchRules

/-- Whether none of some characters is blank. -/
def Solid (cs : List Char) : Prop :=
  ∀ c ∈ cs, isBlank c = false

theorem Solid.append {xs ys : List Char} (hx : Solid xs) (hy : Solid ys) : Solid (xs ++ ys) := by
  intro c hc
  rcases List.mem_append.1 hc with hc | hc
  · exact hx c hc
  · exact hy c hc

theorem solid_nil : Solid [] :=
  nofun

theorem Solid.cons {c : Char} {cs : List Char} (h : isBlank c = false) (hs : Solid cs) : Solid (c :: cs) := by
  intro a ha
  rcases List.mem_cons.1 ha with rfl | ha
  · exact h
  · exact hs a ha

theorem solid_singleton {c : Char} (h : isBlank c = false) : Solid [c] :=
  solid_nil.cons h

/-- To prove something of every text, prove it of texts without a blank character, and of a text that begins with one, behind
which it holds. -/
@[elab_as_elim]
theorem solid_induction {motive : List Char → Prop} (solid : ∀ xs, Solid xs → motive xs)
    (blank : ∀ xs b ys, Solid xs → isBlank b = true → motive ys → motive (xs ++ b :: ys)) (cs : List Char) : motive cs := by
  have hrun : ∀ (cs run : List Char), Solid run → motive (run ++ cs) := by
    intro cs
    induction cs with
    | nil =>
      intro run hrun
      rw [List.append_nil]
      exact solid run hrun
    | cons c cs ih =>
      intro run hrun
      cases hb : isBlank c with
      | true => exact blank run c cs hrun hb (ih [] solid_nil)
      | false =>
        rw [← List.singleton_append, ← List.append_assoc]
        exact ih (run ++ [c]) (hrun.append (solid_singleton hb))
  exact hrun cs [] solid_nil

/-! ## The scan -/

/-- Characters that are not blank join the token already begun. -/
theorem tokensFrom_of_solid {xs : List Char} (h : Solid xs) (run : List Char) :
    tokensFrom run xs = if (run ++ xs).isEmpty then [] else [run ++ xs] := by
  induction xs generalizing run with
  | nil => rw [tokensFrom, List.append_nil]
  | cons c cs ih =>
    have hc : isBlank c = false := h c List.mem_cons_self
    rw [tokensFrom, if_neg (by simp [hc]), ih (fun a ha => h a (List.mem_cons_of_mem c ha)), List.append_assoc,
      List.singleton_append]

/-- A blank character ends the token already begun, and the scan starts over behind it. -/
theorem tokensFrom_append_blank {b : Char} (hb : isBlank b = true) (run xs ys : List Char) :
    tokensFrom run (xs ++ b :: ys) = tokensFrom run xs ++ tokens ys := by
  induction xs generalizing run with
  | nil =>
    rw [List.nil_append, tokensFrom, tokensFrom, if_pos hb, tokens]
    cases run <;> rfl
  | cons c cs ih =>
    rw [List.cons_append, tokensFrom, tokensFrom]
    cases isBlank c with
    | true => cases run <;> simp [ih]
    | false => simp [ih]

/-! ## Tokens of texts -/

/-- A text without a blank character is its only token, unless it is empty. -/
theorem tokens_of_solid {xs : List Char} (h : Solid xs) : tokens xs = if xs.isEmpty then [] else [xs] := by
  rw [tokens, tokensFrom_of_solid h, List.nil_append]

/-- A blank character parts the tokens before it from those behind it. -/
theorem tokens_append_blank {b : Char} (hb : isBlank b = true) (xs ys : List Char) :
    tokens (xs ++ b :: ys) = tokens xs ++ tokens ys :=
  tokensFrom_append_blank hb [] xs ys

end SearchRules
