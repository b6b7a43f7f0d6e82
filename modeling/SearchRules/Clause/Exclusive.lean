import SearchRules.Clause.Basic

/-!
# Exclusive alternatives

The engine has no exclusive or. Some but not all of a list of alternatives match when one of them does and the case that all
of them do is negated: the alternatives stand in `should`, and in `mustNot` stands the query that asks for every one of them.
-/

namespace SearchRules

/-- How exclusive alternatives are expressed: by negating the case that all match, or by asking for all but one. -/
inductive XorStrategy where
  | emulate | minimumShouldMatch
  deriving DecidableEq, Repr

namespace XorStrategy

/-- The names of the strategies. -/
def constants : List (String × XorStrategy) :=
  [("emulate", .emulate), ("minimum_should_match", .minimumShouldMatch)]

/-- A strategy as it is written. -/
def name : XorStrategy → String
  | .emulate => "emulate"
  | .minimumShouldMatch => "minimum_should_match"

end XorStrategy

namespace BoolQuery

/-- The query that asks for every one of some alternatives. -/
def allOf (cs : List Clause) : BoolQuery :=
  { should := cs, minimumShouldMatch := some cs.length }

/-- The query that asks for some of the alternatives, but not for all of them. -/
def someNotAll (cs : List Clause) : BoolQuery :=
  match cs with
  | [] => {}
  | cs => { should := cs, mustNot := [.bool (allOf cs)] }

/-- The query whose `should` clauses are exclusive alternatives. Where nothing else must match they stay where they are, since
one of them is asked for already; otherwise they become one more clause that must match. -/
def exclusive (strategy : XorStrategy) (q : BoolQuery) : BoolQuery :=
  match strategy with
  | .minimumShouldMatch => { q with minimumShouldMatch := some (-1) }
  | .emulate =>
    let x := someNotAll q.should
    if q.must.isEmpty then { q with mustNot := q.mustNot ++ x.mustNot }
    else if x.isEmpty then q
    else { q with must := q.must ++ [.bool x], should := [] }

end BoolQuery

end SearchRules
