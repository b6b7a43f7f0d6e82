import SearchRules.Decimal.Binary64

/-!
# Data trees

Requests, configurations and query documents are trees of plain data. The two notations, JSON and TOML, are two ways to write
such a tree, so what a typed value looks like in either is said once, on trees. A record is the list of its members in the
order they are written; nothing keeps two of them from having one key, and a writer writes both.
-/

namespace SearchRules

/-- A tree of plain data. An `unreadable` stands for a part of a text that is well formed but has no value here: a number out
of range, a string with half of a surrogate pair, a container nested too deep. What skips it never sees it; any other use of
it is refused. An `invalid` stands for a number that has no value anywhere: what skips it refuses it too, and it may stand only
where nothing looks. -/
inductive Data where
  | null
  | bool (b : Bool)
  | int (i : Int)
  | float (x : Binary64)
  | string (s : String)
  | list (items : List Data)
  | record (members : List (String × Data))
  | unreadable
  | invalid

namespace Data

mutual

/-- Whether a property holds of every part of a tree that is neither a list nor a record. -/
def allLeaves (p : Data → Bool) : Data → Bool
  | .list items => allLeavesOfItems p items
  | .record members => allLeavesOfMembers p members
  | d => p d

/-- Whether a property holds of every leaf of every item. -/
def allLeavesOfItems (p : Data → Bool) : List Data → Bool
  | [] => true
  | d :: ds => d.allLeaves p && allLeavesOfItems p ds

/-- Whether a property holds of every leaf of every member. -/
def allLeavesOfMembers (p : Data → Bool) : List (String × Data) → Bool
  | [] => true
  | (_, d) :: ms => d.allLeaves p && allLeavesOfMembers p ms

end

/-- Whether a tree has a value throughout. -/
def readable : Data → Bool :=
  allLeaves fun
    | .unreadable | .invalid => false
    | _ => true

/-- Whether a tree may be skipped. -/
def skippable : Data → Bool :=
  allLeaves fun
    | .invalid => false
    | _ => true

/-- Members with a member added: a member of the same key gives its place to the new value. -/
def putMember (key : String) (a : α) : List (String × α) → List (String × α)
  | [] => [(key, a)]
  | (k, b) :: ms => if k = key then (k, a) :: ms else (k, b) :: putMember key a ms

mutual

/-- The tree in which each record keeps one member of each key, with the value of the last. -/
def lastWins : Data → Data
  | .list items => .list (lastWinsItems items)
  | .record members => .record (lastWinsMembers [] members)
  | d => d

/-- Every item with one member of each key. -/
def lastWinsItems : List Data → List Data
  | [] => []
  | d :: ds => d.lastWins :: lastWinsItems ds

/-- The members kept so far, and then one member of each key. -/
def lastWinsMembers (kept : List (String × Data)) : List (String × Data) → List (String × Data)
  | [] => kept
  | (k, d) :: ms => lastWinsMembers (putMember k d.lastWins kept) ms

end

/-- A list of strings as data. -/
def strings (ss : List String) : Data :=
  .list (ss.map .string)

/-- The member for a field that is left out when it has no value. -/
def optional (key : String) (encode : α → Data) : Option α → List (String × Data)
  | none => []
  | some a => [(key, encode a)]

/-- The member for a list that is left out when it is empty. -/
def optionalList (key : String) : List Data → List (String × Data)
  | [] => []
  | items => [(key, .list items)]

end Data

end SearchRules
