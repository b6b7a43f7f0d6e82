import SearchRules.Clause.Basic

/-!
# Packing term objects

A term object has one value a field, so several values of one field take several objects. A pair of a field and a value goes
into the first object of the scope that lacks the field; only when none does is an object added behind the clauses of the
scope. Other clauses keep their places.
-/

namespace SearchRules.Clause

/-- The clauses of a scope with one more pair of a field and a value. -/
def place (key : TermKey) (field value : String) : List Clause → List Clause
  | [] => [.term ⟨key, [(field, value)]⟩]
  | .term t :: cs =>
    match t.insert? field value with
    | some t' => .term t' :: cs
    | none => .term t :: place key field value cs
  | c :: cs => c :: place key field value cs

/-- The clauses of a scope with a value under each of some fields. -/
def placeUnder (key : TermKey) (fields : List String) (cs : List Clause) (value : String) : List Clause :=
  fields.foldl (fun cs field => place key field value cs) cs

/-- The clauses of a scope with each value under each field, value by value. -/
def placeAll (key : TermKey) (fields values : List String) (cs : List Clause) : List Clause :=
  values.foldl (placeUnder key fields) cs

end SearchRules.Clause
