import SearchRules.Highlight
import SearchRules.Rule.Basic

/-!
# Clauses

The clauses of the engine's query language: a boolean clause folds clauses into three scopes, a term object asks for values
of fields, a free-text clause searches field patterns for a query text, and a nested clause applies a clause to the
sub-documents under a path.
-/

namespace SearchRules

/-- The name term objects are written under. Both stand for one value a field. -/
inductive TermKey where
  | term | terms
  deriving DecidableEq, Repr

/-- The names of the term keys. -/
def TermKey.constants : List (String × TermKey) :=
  [("term", .term), ("terms", .terms)]

/-- A term key as it is written. -/
def TermKey.name : TermKey → String
  | .term => "term"
  | .terms => "terms"

/-- A term object: fields and the value each must have, in the order they were added. -/
structure TermObject where
  key : TermKey := .term
  entries : List (String × String) := []
  deriving DecidableEq, Repr

namespace TermObject

/-- Whether the object has a value for a field. -/
def has (t : TermObject) (field : String) : Bool :=
  t.entries.any fun e => e.1 == field

/-- The value of a field. -/
def get? (t : TermObject) (field : String) : Option String :=
  t.entries.lookup field

/-- The object with a value for one more field, unless it has one. -/
def insert? (t : TermObject) (field value : String) : Option TermObject :=
  if t.has field then none else some { t with entries := t.entries ++ [(field, value)] }

end TermObject

/-- A free-text clause: a query text, escaped, and the field patterns it is searched in. -/
structure FreeText where
  query : String
  fields : List String
  deriving DecidableEq, Repr

mutual

/-- A boolean clause without its wrapper: all of `must`, none of `mustNot`, and enough of `should`. -/
structure BoolQuery where
  must : List Clause := []
  should : List Clause := []
  mustNot : List Clause := []
  /-- How many of `should` are asked for; a negative number counts from their total. -/
  minimumShouldMatch : Option Int := none

/-- A clause. -/
inductive Clause where
  | bool (query : BoolQuery)
  | term (object : TermObject)
  | freeText (text : FreeText)
  | nested (path : String) (query : Clause) (innerHits : Option HighlightSpec)

end

namespace BoolQuery

/-- The disjunction of clauses. -/
def shouldOf (cs : List Clause) : BoolQuery :=
  { should := cs }

/-- Whether no scope holds a clause. -/
def isEmpty (q : BoolQuery) : Bool :=
  q.must.isEmpty && q.should.isEmpty && q.mustNot.isEmpty

/-- The clauses of a scope. -/
def clauses (q : BoolQuery) : Scope → List Clause
  | .must => q.must
  | .should => q.should
  | .mustNot => q.mustNot

/-- The query with the clauses of one scope changed. -/
def modify (q : BoolQuery) (scope : Scope) (f : List Clause → List Clause) : BoolQuery :=
  match scope with
  | .must => { q with must := f q.must }
  | .should => { q with should := f q.should }
  | .mustNot => { q with mustNot := f q.mustNot }

/-- The query with a clause at the end of a scope. -/
def push (q : BoolQuery) (scope : Scope) (c : Clause) : BoolQuery :=
  q.modify scope (· ++ [c])

end BoolQuery

/-- Any one of some clauses: no clause for none, the clause itself for one, their disjunction for more. -/
def Clause.anyOf : List Clause → Option Clause
  | [] => none
  | [c] => some c
  | cs => some (.bool (.shouldOf cs))

end SearchRules
