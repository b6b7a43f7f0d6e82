import SearchRules.Data.Basic

/-!
# Tables of a TOML document

A document builds up a table of tables by its headers and its keys. Each table is opened once: by a header of its own, or by
the path of a key. A header may lead through any table, or name one that only led to others so far. The path of a key may not
lead through a table that a header has opened, and a table it leads through counts as opened by keys from then on. A header in
double brackets adds a table to a list. Values are closed: neither headers nor keys reach into one.
-/

namespace SearchRules.Toml

/-- How a table was opened: by a header of its own, on the way to another header, or by the path of a key. -/
inductive Origin where
  | header | implied | dotted
  deriving DecidableEq, Repr

/-- What stands under a key: a value, a table, or a list of tables that headers in double brackets have added to. -/
inductive Node where
  | value (d : Data)
  | table (origin : Origin) (entries : List (String × Node))
  | tables (items : List (List (String × Node)))

/-- The entries of a table, in order. -/
abbrev Table := List (String × Node)

namespace Table

/-- The table with a change made at the end of a path, if the path leads there. Tables that are missing on the way are opened;
a list of tables leads to its last one. -/
def modifyAt (dotted : Bool) (change : Origin → Table → Option Table) :
    (path : List String) → Origin → Table → Option Table
  | [], origin, t => change origin t
  | k :: ks, _, t =>
    match t.lookup k with
    | none => do
      let opened := if dotted then .dotted else .implied
      some (Data.putMember k (.table opened (← modifyAt dotted change ks opened [])) t)
    | some (.table origin entries) =>
      if dotted && origin == .header then none
      else do
        let led := if dotted then .dotted else origin
        some (Data.putMember k (.table led (← modifyAt dotted change ks led entries)) t)
    | some (.tables items) => do
      let last ← items.getLast?
      some (Data.putMember k (.tables (items.dropLast ++ [← modifyAt dotted change ks .header last])) t)
    | some (.value _) => none

/-- The table with a header opened: a table that is missing, or one that only led to others so far. -/
def openTable (path : List String) (key : String) (t : Table) : Option Table :=
  modifyAt false (fun _ entries =>
    match entries.lookup key with
    | none => some (entries ++ [(key, .table .header [])])
    | some (.table .implied inner) => some (Data.putMember key (.table .header inner) entries)
    | _ => none) path .header t

/-- The table with a table added to the list under a header in double brackets. -/
def addTable (path : List String) (key : String) (t : Table) : Option Table :=
  modifyAt false (fun _ entries =>
    match entries.lookup key with
    | none => some (entries ++ [(key, .tables [[]])])
    | some (.tables items) => some (Data.putMember key (.tables (items ++ [[]])) entries)
    | _ => none) path .header t

/-- The table with a value under a key at the end of the path of a key. -/
def assign (path : List String) (key : String) (d : Data) (t : Table) : Option Table :=
  modifyAt true (fun origin entries =>
    if !path.isEmpty && origin != .dotted then none
    else
      match entries.lookup key with
      | none => some (entries ++ [(key, .value d)])
      | some _ => none) path .header t

/-- The table with a value under a key, below the table a header has opened. -/
def assignBelow (header path : List String) (key : String) (d : Data) (t : Table) : Option Table :=
  modifyAt false (fun _ entries => assign path key d entries) header .header t

end Table

mutual

/-- What stands under a key, as data. -/
def Node.toData : Node → Data
  | .value d => d
  | .table _ entries => .record (Table.toMembers entries)
  | .tables items => .list (Table.toRecords items)

/-- The entries of a table as the members of a record. -/
def Table.toMembers : List (String × Node) → List (String × Data)
  | [] => []
  | (k, n) :: es => (k, n.toData) :: Table.toMembers es

/-- A list of tables as a list of records. -/
def Table.toRecords : List (List (String × Node)) → List Data
  | [] => []
  | t :: ts => .record (Table.toMembers t) :: Table.toRecords ts

end

end SearchRules.Toml
