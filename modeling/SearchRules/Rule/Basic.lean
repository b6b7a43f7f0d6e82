/-!
# Rules

A search request holds a list of rules. A rule names one field, several or none, carries an operator or none, and lists its
values: a value is a literal to search for, or a group of further rules.
-/

namespace SearchRules

/-- The part of a boolean clause that clauses are folded into. -/
inductive Scope where
  | must | should | mustNot
  deriving DecidableEq, Repr

/-- The boolean operator of a rule: every value matches, at least one does, none does, some but not all do. -/
inductive Operator where
  | and | or | not | xor
  deriving DecidableEq, Repr

/-- The scope an operator folds its clauses into. -/
def Operator.scope : Operator → Scope
  | .and => .must
  | .or | .xor => .should
  | .not => .mustNot

/-- One field name, or several fields searched together. -/
inductive FieldRef where
  | one (name : String)
  | many (names : List String)
  deriving DecidableEq, Repr

/-- The names of a reference, in the order they are given. -/
def FieldRef.names : FieldRef → List String
  | .one name => [name]
  | .many names => names

mutual

/-- A value of a rule: a literal, or a group of rules. -/
inductive Value where
  | literal (text : String)
  | group (rules : List Rule)

/-- A search rule. -/
structure Rule where
  field : Option FieldRef := none
  operator : Option Operator := none
  values : List Value := []
  /-- Whether the rule is about the exact-match part of its fields. -/
  isKeyword : Bool := false

end

namespace Rule

/-- The scope of a rule. Without an operator it is the one where everything must match. -/
def scope (r : Rule) : Scope :=
  match r.operator with
  | none => .must
  | some op => op.scope

/-- The field names of a rule, each followed by `suffix` when the rule is about the exact-match part. -/
def names (suffix : String) (r : Rule) : List String :=
  match r.field with
  | none => []
  | some field => field.names.map fun name => if r.isKeyword then name ++ suffix else name

/-- The rule about a field, or about several. -/
def withField (r : Rule) (field : FieldRef) : Rule :=
  { r with field := some field }

/-- The rule under an operator. -/
def withOperator (r : Rule) (op : Operator) : Rule :=
  { r with operator := some op }

/-- The rule with a literal after its values. -/
def withLiteral (r : Rule) (text : String) : Rule :=
  { r with values := r.values ++ [.literal text] }

/-- The rule with a group after its values. -/
def withGroup (r : Rule) (rules : List Rule) : Rule :=
  { r with values := r.values ++ [.group rules] }

/-- The rule about the exact-match part of its fields. -/
def keyword (r : Rule) : Rule :=
  { r with isKeyword := true }

end Rule

end SearchRules
