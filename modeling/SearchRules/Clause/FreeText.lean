import SearchRules.Clause.Basic
import SearchRules.Error
import SearchRules.Text.Blank
import SearchRules.Text.Escape

/-!
# Free-text clauses

A literal becomes the query text of a free-text clause: its reserved characters are escaped, and a `*` may be put behind it to
match what begins with it. The wildcards `*` and `?` keep their meaning, so a token of nothing else would match every
document; a literal that has such a token is refused.
-/

namespace SearchRules

/-- Whether a character is a wildcard. -/
def isWildcard (c : Char) : Bool :=
  c == '*' || c == '?'

/-- The first token of a literal that is made only of wildcards. -/
def wildcardToken? (literal : String) : Option String :=
  ((tokens literal.toList).find? (·.all isWildcard)).map String.ofList

/-- A literal that may be searched for, or why it may not. -/
def checkLiteral (literal : String) : Except WildcardOnly Unit :=
  match wildcardToken? literal with
  | some token => .error ⟨token, literal⟩
  | none => .ok ()

/-- How literals become query texts. -/
structure QueryStyle where
  escape : EscapeSet
  /-- What addresses the exact-match part of a field. -/
  keywordSuffix : String := ".keyword"
  /-- Whether a query text also matches what begins with it. -/
  openEnded : Bool := false

namespace QueryStyle

/-- The field patterns of a rule about the given fields: each name, under its exact-match part if the rule is about that, behind
a `*`, and every field if there is no name. -/
def patterns (style : QueryStyle) (field : Option FieldRef) (isKeyword : Bool) : List String :=
  match (field.map FieldRef.names).getD [] with
  | [] => ["*"]
  | names => names.map fun name => "*" ++ name ++ if isKeyword then style.keywordSuffix else ""

/-- The characters of the query text of a literal. -/
def queryChars (style : QueryStyle) (literal : List Char) : List Char :=
  let escaped := style.escape.escapeChars literal
  if style.openEnded && !escaped.isEmpty && escaped.getLast? != some '*' then escaped ++ ['*'] else escaped

/-- The clause that searches fields for a literal, unless the literal is refused. -/
def clause (style : QueryStyle) (fields : List String) (literal : String) : Except WildcardOnly Clause := do
  checkLiteral literal
  .ok (.freeText ⟨String.ofList (style.queryChars literal.toList), fields⟩)

/-- The clauses that search fields for literals, unless one of the literals is refused. -/
def clauses (style : QueryStyle) (fields : List String) (literals : List String) : Except WildcardOnly (List Clause) :=
  literals.mapM (style.clause fields)

/-- The clause that searches fields for any one of some literals, unless one of the literals is refused. -/
def build (style : QueryStyle) (fields : List String) (literals : List String) : Except WildcardOnly (Option Clause) := do
  .ok (Clause.anyOf (← style.clauses fields literals))

end QueryStyle

end SearchRules
