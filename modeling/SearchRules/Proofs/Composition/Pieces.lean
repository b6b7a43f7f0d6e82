import SearchRules.Composition

/-!
# What pieces add to a scope

Texts and groups add their clauses, whether they are folded in one after the other or as a disjunction: `foldl_land_perm`,
`disjunction_perm`. The order in which they come is left open.
-/

namespace SearchRules

namespace Piece

/-- The clause of a group is its query, which is not empty. -/
theorem groupClause?_eq_some_iff {p : Piece} {x : Clause} :
    p.groupClause? = some x ↔ ∃ q, p = .group q ∧ q.isEmpty = false ∧ x = .bool q := by
  cases p with
  | term literal => simp [groupClause?]
  | freeText y => simp [groupClause?]
  | group q =>
    rw [groupClause?]
    cases h : q.isEmpty with
    | true =>
      rw [if_pos rfl]
      refine ⟨nofun, ?_⟩
      rintro ⟨q', hq', hne, -⟩
      cases hq'
      exact absurd (h.symm.trans hne) nofun
    | false =>
      rw [if_neg Bool.false_ne_true, Option.some.injEq]
      constructor
      · rintro rfl
        exact ⟨q, rfl, h, rfl⟩
      · rintro ⟨q', hq', -, rfl⟩
        cases hq'
        rfl

theorem textClause?_eq_some_iff {p : Piece} {x : Clause} : p.textClause? = some x ↔ p = .freeText x := by
  cases p <;> simp [textClause?]

/-- Texts and groups folded in one after the other add their clauses, in some order. -/
theorem foldl_land_perm (key : TermKey) (pieces : List Piece) (cs : List Clause) :
    (pieces.foldl (land key []) cs).Perm (cs ++ (pieces.filterMap textClause? ++ pieces.filterMap groupClause?)) := by
  induction pieces generalizing cs with
  | nil => simp
  | cons p pieces ih =>
    rw [List.foldl_cons]
    refine (ih _).trans ?_
    cases p with
    | term literal => simp [land, Clause.placeAll, Clause.placeUnder, textClause?, groupClause?, List.filterMap_cons]
    | freeText c => simp [land, textClause?, groupClause?, List.filterMap_cons]
    | group q =>
      cases h : q.isEmpty with
      | true => simp [land, textClause?, groupClause?, List.filterMap_cons, h]
      | false =>
        simp only [land, textClause?, groupClause?, List.filterMap_cons, h, Bool.false_eq_true, if_false, Option.toList_some,
          List.append_assoc]
        refine List.Perm.append_left cs ?_
        rw [List.singleton_append]
        exact List.perm_middle.symm

/-- Groups have no text. -/
theorem filterMap_textClause?_of_isGroup {pieces : List Piece} (h : ∀ p ∈ pieces, p.isGroup = true) :
    pieces.filterMap textClause? = [] := by
  rw [List.filterMap_eq_nil_iff]
  intro p hp
  have hg := h p hp
  cases p <;> simp_all [isGroup, textClause?]

/-- The texts are among the pieces that follow the first groups. -/
theorem filterMap_textClause?_dropWhile (pieces : List Piece) :
    (pieces.dropWhile isGroup).filterMap textClause? = pieces.filterMap textClause? := by
  have hfirst : (pieces.takeWhile isGroup).filterMap textClause? = [] :=
    filterMap_textClause?_of_isGroup (List.all_eq_true.1 List.all_takeWhile)
  have hsplit := congrArg (List.filterMap textClause?) (List.takeWhile_append_dropWhile (p := isGroup) (l := pieces))
  rw [List.filterMap_append, hfirst, List.nil_append] at hsplit
  exact hsplit

/-- A disjunction of texts among groups is, up to order, any one of the texts and every group. -/
theorem disjunction_perm (pieces : List Piece) :
    (disjunction pieces).Perm
      ((Clause.anyOf (pieces.filterMap textClause?)).toList ++ pieces.filterMap groupClause?) := by
  have hg : pieces.filterMap groupClause? =
      (pieces.takeWhile isGroup).filterMap groupClause? ++ (pieces.dropWhile isGroup).filterMap groupClause? := by
    rw [← List.filterMap_append, List.takeWhile_append_dropWhile]
  rw [hg, disjunction, filterMap_textClause?_dropWhile, List.append_assoc]
  exact List.perm_append_comm_assoc _ _ _

end Piece

end SearchRules
