import SearchRules.Clause.Packing
import SearchRules.Config.Basic

/-!
# Composition

A list of rules becomes one boolean query. Each rule folds its values into the scope of its operator: a literal becomes pairs
of a term object or a free-text clause, a group becomes one clause, composed from its rules in the same way. Values keep the
order they are given in. The rules of a list share the term objects of each scope. A rule without an operator that is searched
as free text asks for any one of its literals; that one clause stands where its first literal did.

When a rule of the list is an exclusive or, the clauses of `should` are made exclusive once all rules are folded in.
-/

namespace SearchRules

/-- What a composition needs to know besides the rules. -/
structure Composer where
  config : Config
  /-- The fields that rules without a field search. -/
  freeTextFields : List String

/-- The composer of a configuration. Fields given for the one request replace those of the configuration. -/
def Config.composer (c : Config) (override : List String := []) : Composer where
  config := c
  freeTextFields := if override.isEmpty then c.freeTextFields else override

/-- How the literals of a rule are searched for: as the value of each of some fields, or as free text in some fields. -/
inductive LiteralForm where
  | terms (names : List String)
  | freeText (fields : List String)

/-- A value of a rule, ready to be folded into its scope. -/
inductive Piece where
  | term (literal : String)
  | freeText (clause : Clause)
  | group (query : BoolQuery)

/-- A query in the making. -/
structure Draft where
  query : BoolQuery := {}
  /-- The names of the fields that rules refer to, each once, in the order they came up. -/
  fields : List String := []
  /-- Whether a rule of the list is an exclusive or. -/
  exclusive : Bool := false

/-- The outcome of a composition: the query, and the names of the fields that rules refer to. -/
structure Composition where
  query : BoolQuery := {}
  fields : List String := []

namespace Piece

/-- The clause of a group, unless the group has no clause to offer. -/
def groupClause? : Piece → Option Clause
  | .group q => if q.isEmpty then none else some (.bool q)
  | _ => none

/-- The clause of a free text. -/
def textClause? : Piece → Option Clause
  | .freeText c => some c
  | _ => none

/-- Whether the piece is a group. -/
def isGroup : Piece → Bool
  | .group _ => true
  | _ => false

/-- The clauses of a scope with a piece folded in, a term under each of the given fields. -/
def land (key : TermKey) (names : List String) (cs : List Clause) : Piece → List Clause
  | .term literal => Clause.placeAll key names [literal] cs
  | .freeText c => cs ++ [c]
  | .group q => cs ++ ((Piece.group q).groupClause?).toList

/-- The clauses of pieces of which any one text is asked for: the disjunction of the texts stands where the first of them is,
among the groups. -/
def disjunction (pieces : List Piece) : List Clause :=
  let later := pieces.dropWhile isGroup
  (pieces.takeWhile isGroup).filterMap groupClause? ++ (Clause.anyOf (later.filterMap textClause?)).toList ++
    later.filterMap groupClause?

end Piece

namespace Draft

/-- Names added to a list of names, unless they are in it. -/
def remember (fields names : List String) : List String :=
  names.foldl (fun fields name => if fields.contains name then fields else fields ++ [name]) fields

/-- The finished composition of a draft. -/
def finish (strategy : XorStrategy) (d : Draft) : Composition where
  query := if d.exclusive then d.query.exclusive strategy else d.query
  fields := d.fields

end Draft

namespace Composer

/-- How the literals of a rule are searched for. -/
def literalForm (c : Composer) (r : Rule) : LiteralForm :=
  match r.names c.config.keywordSuffix, c.config.clauseStyle with
  | [], _ => .freeText c.freeTextFields
  | names, .term => .terms names
  | _, .queryString => .freeText (c.config.queryStyle.patterns r.field r.isKeyword)

/-- The piece of a literal, unless the literal is refused. Literals of term objects are taken as they are. -/
def literalPiece (c : Composer) (form : LiteralForm) (literal : String) : Except WildcardOnly Piece :=
  match form with
  | .terms _ => .ok (.term literal)
  | .freeText fields => (c.config.queryStyle.clause fields literal).map .freeText

/-- A scope with the pieces of a rule folded in. -/
def landAll (c : Composer) (r : Rule) (pieces : List Piece) (cs : List Clause) : List Clause :=
  match c.literalForm r, r.operator with
  | .terms names, _ => pieces.foldl (Piece.land c.config.termKey names) cs
  | .freeText _, some _ => pieces.foldl (Piece.land c.config.termKey []) cs
  | .freeText _, none => cs ++ Piece.disjunction pieces

/-- A draft with a rule folded in, whose values have become pieces and led to the given fields. -/
def addRule (c : Composer) (r : Rule) (d : Draft) (pieces : List Piece) (fields : List String) : Draft where
  query := d.query.modify r.scope (c.landAll r pieces)
  fields := Draft.remember fields (r.names c.config.keywordSuffix)
  exclusive := d.exclusive || r.operator == some .xor

mutual

/-- A draft with the rules of a list folded in. A rule without values counts for nothing. -/
def rules (c : Composer) (d : Draft) : List Rule → Except WildcardOnly Draft
  | [] => .ok d
  | r :: rs => do
    let d ← c.rule d r
    c.rules d rs

/-- A draft with a rule folded in. -/
def rule (c : Composer) (d : Draft) : Rule → Except WildcardOnly Draft
  | ⟨field, operator, values, isKeyword⟩ =>
    let r : Rule := ⟨field, operator, values, isKeyword⟩
    if values.isEmpty then .ok d
    else do
      let (pieces, fields) ← c.values (c.literalForm r) d.fields values
      .ok (c.addRule r d pieces fields)

/-- The pieces of the values of a rule, and the fields that come up in them. -/
def values (c : Composer) (form : LiteralForm) (fields : List String) :
    List Value → Except WildcardOnly (List Piece × List String)
  | [] => .ok ([], fields)
  | v :: vs => do
    let (piece, fields) ← c.value form fields v
    let (pieces, fields) ← c.values form fields vs
    .ok (piece :: pieces, fields)

/-- The piece of a value, and the fields that come up in it. -/
def value (c : Composer) (form : LiteralForm) (fields : List String) : Value → Except WildcardOnly (Piece × List String)
  | .literal text => do
    let piece ← c.literalPiece form text
    .ok (piece, fields)
  | .group rs => do
    let d ← c.rules { fields } rs
    let done := d.finish c.config.xorStrategy
    .ok (.group done.query, done.fields)

end

/-- The composition of a list of rules, unless one of its literals is refused. -/
def compose (c : Composer) (rs : List Rule) : Except WildcardOnly Composition := do
  let d ← c.rules {} rs
  .ok (d.finish c.config.xorStrategy)

end Composer

end SearchRules
