import SearchRules.Data.Basic

/-!
# The parts of trees

How deep a tree is, what holds of a member that may be left out, and what it takes for something to hold of every leaf of a tree.
-/

namespace SearchRules.Data

/-! ## Depth -/

mutual

/-- How many containers of a tree stand inside one another. -/
def depth : Data → Nat
  | .list items => 1 + depthOfItems items
  | .record members => 1 + depthOfMembers members
  | _ => 0

/-- The depth of the deepest item. -/
def depthOfItems : List Data → Nat
  | [] => 0
  | d :: ds => max d.depth (depthOfItems ds)

/-- The depth of the deepest member. -/
def depthOfMembers : List (String × Data) → Nat
  | [] => 0
  | (_, d) :: ms => max d.depth (depthOfMembers ms)

end

/-! ## Members that may be left out -/

/-- What holds of each value that a member may have holds of the member if it is there. -/
theorem forall_mem_optional {α : Type} {P : Data → Prop} {key : String} {encode : α → Data} {value : Option α}
    (h : ∀ a, value = some a → P (encode a)) : ∀ m ∈ optional key encode value, P m.2 := by
  cases value with
  | none => nofun
  | some a => exact List.forall_mem_singleton.2 (h a rfl)

/-! ## Leaves -/

theorem allLeavesOfItems_eq (p : Data → Bool) (ds : List Data) : allLeavesOfItems p ds = ds.all (allLeaves p) := by
  induction ds with
  | nil => rfl
  | cons d ds ih => rw [allLeavesOfItems, ih, List.all_cons]

theorem allLeavesOfMembers_eq (p : Data → Bool) (ms : List (String × Data)) :
    allLeavesOfMembers p ms = ms.all fun m => m.2.allLeaves p := by
  induction ms with
  | nil => rfl
  | cons m ms ih => rw [allLeavesOfMembers, ih, List.all_cons]

theorem allLeaves_list_iff (p : Data → Bool) (ds : List Data) :
    (Data.list ds).allLeaves p = true ↔ ∀ d ∈ ds, d.allLeaves p = true := by
  rw [allLeaves, allLeavesOfItems_eq, List.all_eq_true]

theorem allLeaves_record_iff (p : Data → Bool) (ms : List (String × Data)) :
    (Data.record ms).allLeaves p = true ↔ ∀ m ∈ ms, m.2.allLeaves p = true := by
  rw [allLeaves, allLeavesOfMembers_eq, List.all_eq_true]

theorem readable_list_iff (ds : List Data) : (Data.list ds).readable = true ↔ ∀ d ∈ ds, d.readable = true :=
  allLeaves_list_iff _ ds

theorem readable_record_iff (ms : List (String × Data)) :
    (Data.record ms).readable = true ↔ ∀ m ∈ ms, m.2.readable = true :=
  allLeaves_record_iff _ ms

end SearchRules.Data
