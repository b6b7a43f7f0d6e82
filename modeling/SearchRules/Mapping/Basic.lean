import SearchRules.Data.Decode
import SearchRules.Error
import SearchRules.Text.Blank

/-!
# Nested paths

An index keeps some objects as sub-documents under nested paths, and sub-documents may hold sub-documents. The mapping of an
index is the forest of these paths: a leaf is a path, a branch a path with the paths below it. A path names its whole way from
the top, so the path of a child is the path of its parent, a point, and something more.
-/

namespace SearchRules

/-- A nested path with the nested paths below it. A leaf and a branch without children differ only in how they are written. -/
inductive PathNode where
  | leaf (path : String)
  | branch (path : String) (children : List PathNode)

namespace PathNode

/-- The path of a node. -/
def path : PathNode → String
  | .leaf path => path
  | .branch path _ => path

/-- The nodes directly below a node. -/
def children : PathNode → List PathNode
  | .leaf _ => []
  | .branch _ children => children

mutual

/-- Whether two nodes are equal. -/
def decEq : (a b : PathNode) → Decidable (a = b)
  | .leaf p, .leaf q => decidable_of_iff (p = q) (by simp)
  | .leaf _, .branch _ _ => isFalse nofun
  | .branch _ _, .leaf _ => isFalse nofun
  | .branch p cs, .branch q ds =>
    match decEqList cs ds with
    | isTrue h => decidable_of_iff (p = q) (by simp [h])
    | isFalse h => isFalse (by simp [h])

/-- Whether two lists of nodes are equal. -/
def decEqList : (as bs : List PathNode) → Decidable (as = bs)
  | [], [] => isTrue rfl
  | [], _ :: _ => isFalse nofun
  | _ :: _, [] => isFalse nofun
  | a :: as, b :: bs =>
    match decEq a b, decEqList as bs with
    | isTrue h, isTrue h' => isTrue (by rw [h, h'])
    | isFalse h, _ => isFalse (by simp [h])
    | _, isFalse h => isFalse (by simp [h])

end

instance : DecidableEq PathNode := decEq

mutual

/-- The number of paths in the tree under a node, its own included. -/
def pathCount : PathNode → Nat
  | .leaf _ => 1
  | .branch _ children => 1 + forestCount children

/-- The number of paths in a forest. -/
def forestCount : List PathNode → Nat
  | [] => 0
  | n :: ns => n.pathCount + forestCount ns

end

/-- Whether a path is another one, a point, and something more. -/
def continuesChars : (parent child : List Char) → Bool
  | [], '.' :: _ :: _ => true
  | p :: ps, c :: cs => p == c && continuesChars ps cs
  | _, _ => false

/-- Whether `child` is `parent`, a point, and something more. -/
def continues (parent child : String) : Bool :=
  continuesChars parent.toList child.toList

mutual

/-- Whether the paths of a tree hang together: none is blank, and each child continues its parent. -/
def check : PathNode → Except ConfigError Unit
  | .leaf path => if isBlankText path then .error .blankPath else .ok ()
  | .branch path children => if isBlankText path then .error .blankPath else checkBelow path children

/-- Whether each tree of a forest hangs together and continues the path `parent`. -/
def checkBelow (parent : String) : List PathNode → Except ConfigError Unit
  | [] => .ok ()
  | n :: ns =>
    if continues parent n.path then do
      n.check
      checkBelow parent ns
    else .error (.strayPath n.path parent)

end

mutual

/-- A node as data: a leaf is its path, a branch a record. -/
def toData : PathNode → Data
  | .leaf path => .string path
  | .branch path children => .record [("path", .string path), ("children", .list (forestData children))]

/-- The items of a forest. -/
def forestData : List PathNode → List Data
  | [] => []
  | n :: ns => n.toData :: forestData ns

end

mutual

/-- The node data stands for. What a branch holds besides its path and its children has to have a value but is not used. -/
def ofData? : Data → Option PathNode
  | .string path => some (.leaf path)
  | .record members =>
    match ofMembers? none none members with
    | some (some path, children) => some (.branch path (children.getD []))
    | _ => none
  | _ => none

/-- The path and the children of a branch, from its members: either may occur once. -/
def ofMembers? (path : Option String) (children : Option (List PathNode)) :
    List (String × Data) → Option (Option String × Option (List PathNode))
  | [] => some (path, children)
  | (key, d) :: ms =>
    if key = "path" then
      if path.isSome then none else do ofMembers? (some (← d.string?)) children ms
    else if key = "children" then
      if children.isSome then none else do ofMembers? path (some (← ofField? d)) ms
    else if d.readable then ofMembers? path children ms
    else none

/-- The children data stands for. -/
def ofField? : Data → Option (List PathNode)
  | .list items => forest? items
  | _ => none

/-- The nodes a list holds. -/
def forest? : List Data → Option (List PathNode)
  | [] => some []
  | d :: ds => do
    let n ← ofData? d
    let ns ← forest? ds
    some (n :: ns)

end

end PathNode

end SearchRules
