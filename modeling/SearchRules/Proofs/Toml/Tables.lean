import SearchRules.Proofs.Data.Keys
import SearchRules.Toml.Table

/-!
# Tables under construction

While a document is read, its headers and keys add to the table that the last header has opened, and the tables around it wait. So the
tree so far is the open table, put into the tables that wait for it. A header's path leads to the open table, and what is changed
there is changed nowhere else: `IsPathTo`.
-/

namespace SearchRules.Toml

/-- A path leads to the place where `plug` puts a table: a change made at its end is made to the table at that place. -/
def IsPathTo (path : List String) (plug : Table → Table) : Prop :=
  ∀ (change : Table → Option Table) (origin : Origin) (t : Table),
    Table.modifyAt false (fun _ entries => change entries) path origin (plug t) = (change t).map plug

/-! ## Paths to the open table -/

theorem isPathTo_root : IsPathTo [] id := by
  intro change origin t
  rw [Table.modifyAt, Option.map_id_fun, id_eq, id_eq]

/-- A change at the end of a path is made to the table under its last part, where the rest of it leads. -/
theorem modifyAt_append (change : Table → Option Table) (k : String) (path : List String) :
    ∀ (origin : Origin) (t : Table), Table.modifyAt false (fun _ entries => change entries) (path ++ [k]) origin t =
      Table.modifyAt false (fun _ entries => Table.modifyAt false (fun _ entries => change entries) [k] .header entries)
        path origin t := by
  induction path with
  | nil =>
    intro origin t
    rw [List.nil_append]
    conv => rhs; rw [Table.modifyAt]
    rw [Table.modifyAt, Table.modifyAt]
  | cons k' path ih =>
    intro origin t
    rw [List.cons_append, Table.modifyAt, Table.modifyAt]
    simp only [ih]

variable {path : List String} {plug : Table → Table} {k : String} {es : Table}

/-- A path goes on to a table that was the last to be opened. -/
theorem IsPathTo.table (h : IsPathTo path plug) (hk : k ∉ es.map Prod.fst) :
    IsPathTo (path ++ [k]) fun t => plug (es ++ [(k, .table .header t)]) := by
  intro change origin t
  rw [modifyAt_append, h, Table.modifyAt, Data.lookup_append_singleton hk]
  simp only [Table.modifyAt, Option.bind_eq_bind]
  cases change t with
  | none => rfl
  | some t' => simp [Data.putMember_append_singleton hk]

/-- A path goes on to the last table of a list. -/
theorem IsPathTo.tables (h : IsPathTo path plug) (hk : k ∉ es.map Prod.fst) (items : List Table) :
    IsPathTo (path ++ [k]) fun t => plug (es ++ [(k, .tables (items ++ [t]))]) := by
  intro change origin t
  rw [modifyAt_append, h, Table.modifyAt, Data.lookup_append_singleton hk]
  simp only [Table.modifyAt, List.getLast?_concat, List.dropLast_concat, Option.bind_eq_bind, Option.bind_some]
  cases change t with
  | none => rfl
  | some t' => simp [Data.putMember_append_singleton hk]

/-! ## What headers and keys add -/

theorem assign_of_notMem (h : k ∉ es.map Prod.fst) (d : Data) : Table.assign [] k d es = some (es ++ [(k, .value d)]) := by
  rw [Table.assign, Table.modifyAt, Data.lookup_of_notMem h]
  rfl

theorem IsPathTo.assignBelow (h : IsPathTo path plug) (hk : k ∉ es.map Prod.fst) (d : Data) :
    Table.assignBelow path [] k d (plug es) = some (plug (es ++ [(k, .value d)])) := by
  rw [Table.assignBelow, h, assign_of_notMem hk, Option.map_some]

theorem IsPathTo.openTable (h : IsPathTo path plug) (hk : k ∉ es.map Prod.fst) :
    Table.openTable path k (plug es) = some (plug (es ++ [(k, .table .header [])])) := by
  rw [Table.openTable, h, Data.lookup_of_notMem hk, Option.map_some]

/-- Entries with a list of tables behind them, if there are any. -/
def withTables (es : Table) (k : String) : List Table → Table
  | [] => es
  | t :: ts => es ++ [(k, .tables (t :: ts))]

theorem withTables_of_ne_nil {ts : List Table} (h : ts ≠ []) : withTables es k ts = es ++ [(k, .tables ts)] := by
  cases ts with
  | nil => exact absurd rfl h
  | cons t ts => rfl

theorem withTables_append_singleton (es : Table) (k : String) (ts : List Table) (t : Table) :
    withTables es k (ts ++ [t]) = es ++ [(k, .tables (ts ++ [t]))] :=
  withTables_of_ne_nil (List.append_ne_nil_of_right_ne_nil ts (List.cons_ne_nil t []))

/-- A header in double brackets adds a table to those that stand under its key. -/
theorem IsPathTo.addTable (h : IsPathTo path plug) (hk : k ∉ es.map Prod.fst) (items : List Table) :
    Table.addTable path k (plug (withTables es k items)) = some (plug (withTables es k (items ++ [[]]))) := by
  rw [Table.addTable, h, withTables_append_singleton]
  cases items with
  | nil =>
    rw [withTables, Data.lookup_of_notMem hk]
    rfl
  | cons t ts =>
    rw [withTables, Data.lookup_append_singleton hk]
    simp only [Data.putMember_append_singleton hk]
    rfl

/-! ## Tables as data -/

theorem toMembers_append (t t' : Table) : Table.toMembers (t ++ t') = Table.toMembers t ++ Table.toMembers t' := by
  induction t with
  | nil => rfl
  | cons e t ih => rw [List.cons_append, Table.toMembers, Table.toMembers, ih, List.cons_append]

/-- The entries of a table that keys have been given. -/
def valueEntries (ms : List (String × Data)) : Table :=
  ms.map fun m => (m.1, .value m.2)

theorem toMembers_valueEntries (ms : List (String × Data)) : Table.toMembers (valueEntries ms) = ms := by
  induction ms with
  | nil => rfl
  | cons m ms ih =>
    rw [valueEntries, List.map_cons, Table.toMembers, ← valueEntries, ih]
    rfl

end SearchRules.Toml
