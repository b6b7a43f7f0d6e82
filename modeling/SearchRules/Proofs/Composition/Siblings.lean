import SearchRules.Proofs.Composition.Refusal
import SearchRules.Proofs.Composition.Scopes

/-!
# Rules beside each other

Rules of different scopes do not touch each other. What a list of rules is composed to can be written down scope by scope, each from
the rules of that scope alone (`composedQuery`), whatever rules stand between them, and whether it is composed depends on its
free-text literals in any order (`exists_compose_iff`). So the scopes can be composed apart, exclusive alternatives are a matter of
what is done at the end, and rules of different scopes may change places: `compose_scopes_apart`.
-/

namespace SearchRules

/-- An operator with exclusive alternatives taken as any others. -/
def Operator.inclusive : Operator → Operator
  | .xor => .or
  | op => op

/-- A rule with exclusive alternatives taken as any others. Those of its groups stay as they are. -/
def Rule.inclusive (r : Rule) : Rule :=
  { r with operator := r.operator.map Operator.inclusive }

/-- Whether some rule of a list has exclusive alternatives. -/
def Rule.anyExclusive (rs : List Rule) : Bool :=
  rs.any fun r => r.operator == some .xor && !r.values.isEmpty

/-- Lists of rules that differ in the order of rules beside each other, at whatever depth: those of one scope stay in their order. -/
inductive Rule.Reordered : List Rule → List Rule → Prop where
  | siblings {rs rs' : List Rule} : (∀ s : Scope, rs'.filter (·.scope == s) = rs.filter (·.scope == s)) → Reordered rs rs'
  | inside {before after : List Rule} {r : Rule} {vs ws : List Value} {rs rs' : List Rule} : Reordered rs rs' →
      Reordered (before ++ { r with values := vs ++ .group rs :: ws } :: after)
        (before ++ { r with values := vs ++ .group rs' :: ws } :: after)
  | trans {rs rs' rs'' : List Rule} : Reordered rs rs' → Reordered rs' rs'' → Reordered rs rs''

/-! ## Literals, in any order -/

theorem Rule.freeLiteralsIn_eq_flatMap (style : ClauseStyle) (rs : List Rule) :
    Rule.freeLiteralsIn style rs = rs.flatMap (Rule.freeLiterals style) := by
  induction rs with
  | nil => rfl
  | cons r rs ih => rw [freeLiteralsIn, ih, List.flatMap_cons]

theorem Value.freeLiteralsIn_eq_flatMap (style : ClauseStyle) (free : Bool) (vs : List Value) :
    Value.freeLiteralsIn style free vs = vs.flatMap (Value.freeLiterals style free) := by
  induction vs with
  | nil => rfl
  | cons v vs ih => rw [freeLiteralsIn, ih, List.flatMap_cons]

theorem Rule.freeLiterals_eq (style : ClauseStyle) (r : Rule) :
    r.freeLiterals style = Value.freeLiteralsIn style (r.isFreeText style) r.values := by
  obtain ⟨field, operator, values, isKeyword⟩ := r
  rw [freeLiterals]

/-- The literals of a group stand among those of the rules around it, whatever they are. -/
theorem Rule.freeLiteralsIn_inside (style : ClauseStyle) (before after : List Rule) (r : Rule) (vs ws : List Value) :
    ∃ xs ys, ∀ g, Rule.freeLiteralsIn style (before ++ { r with values := vs ++ .group g :: ws } :: after) =
      xs ++ (Rule.freeLiteralsIn style g ++ ys) := by
  refine ⟨Rule.freeLiteralsIn style before ++ Value.freeLiteralsIn style (r.isFreeText style) vs,
    Value.freeLiteralsIn style (r.isFreeText style) ws ++ Rule.freeLiteralsIn style after, fun g => ?_⟩
  have hfree : Rule.isFreeText style { r with values := vs ++ .group g :: ws } = r.isFreeText style := rfl
  have hgroup : Value.freeLiterals style (r.isFreeText style) (.group g) = Rule.freeLiteralsIn style g := by
    rw [Value.freeLiterals]
  simp only [freeLiteralsIn_eq_flatMap style (_ ++ _), List.flatMap_append, List.flatMap_cons, freeLiterals_eq, hfree,
    Value.freeLiteralsIn_eq_flatMap, hgroup, ← freeLiteralsIn_eq_flatMap, List.append_assoc]

theorem Rule.freeLiterals_inclusive (style : ClauseStyle) (r : Rule) : r.inclusive.freeLiterals style = r.freeLiterals style := by
  rw [freeLiterals_eq, freeLiterals_eq]
  rfl

/-! ## Scopes of rules and queries -/

theorem Rule.scope_inclusive (r : Rule) : r.inclusive.scope = r.scope := by
  obtain ⟨field, operator, values, isKeyword⟩ := r
  cases operator with
  | none => rfl
  | some op => cases op <;> rfl

theorem Rule.operator_inclusive_ne (r : Rule) : r.inclusive.operator ≠ some .xor := by
  obtain ⟨field, operator, values, isKeyword⟩ := r
  cases operator with
  | none => exact nofun
  | some op => cases op <;> exact nofun

/-- Without exclusive alternatives, the operators of each scope. -/
theorem Rule.operator_beq_of_ne_xor {r : Rule} (h : r.operator ≠ some .xor) :
    (r.operator == none || r.operator == some .and) = (r.scope == .must) ∧ (r.operator == some .or) = (r.scope == .should) ∧
      (r.operator == some .not) = (r.scope == .mustNot) := by
  obtain ⟨field, operator, values, isKeyword⟩ := r
  cases operator with
  | none => exact ⟨rfl, rfl, rfl⟩
  | some op =>
    cases op with
    | xor => exact absurd rfl h
    | and => exact ⟨rfl, rfl, rfl⟩
    | or => exact ⟨rfl, rfl, rfl⟩
    | not => exact ⟨rfl, rfl, rfl⟩

theorem Rule.anyExclusive_eq_false {rs : List Rule} (h : ∀ r ∈ rs, r.operator ≠ some .xor) : anyExclusive rs = false := by
  rw [anyExclusive, List.any_eq_false]
  intro r hr
  simp [h r hr]

/-- Whether some rule has exclusive alternatives does not depend on what is in a group of one of them. -/
theorem Rule.anyExclusive_inside (before after : List Rule) (r : Rule) (vs ws : List Value) (g g' : List Rule) :
    anyExclusive (before ++ { r with values := vs ++ .group g :: ws } :: after) =
      anyExclusive (before ++ { r with values := vs ++ .group g' :: ws } :: after) := by
  have hne : ∀ g : List Rule, (vs ++ .group g :: ws).isEmpty = false := fun g => by simp
  simp only [anyExclusive, List.any_append, List.any_cons, hne]

/-- Queries are equal if their scopes and their numbers are. -/
theorem BoolQuery.eq_of_clauses {q q' : BoolQuery} (h : ∀ s, q.clauses s = q'.clauses s)
    (hnumber : q.minimumShouldMatch = q'.minimumShouldMatch) : q = q' := by
  obtain ⟨must, should, mustNot, m⟩ := q
  obtain ⟨must', should', mustNot', m'⟩ := q'
  have hmust : must = must' := h .must
  have hshould : should = should' := h .should
  have hmustNot : mustNot = mustNot' := h .mustNot
  have hm : m = m' := hnumber
  rw [hmust, hshould, hmustNot, hm]

namespace Composer

/-! ## What rules are composed to -/

/-- Whether none of the free-text literals of some rules, at whatever depth, is refused. -/
def Accepts (c : Composer) (rs : List Rule) : Prop :=
  ∀ literal ∈ Rule.freeLiteralsIn c.config.clauseStyle rs, hasBareWildcard literal.toList = false

/-- The query that some rules fill, scope by scope. -/
def plainQuery (c : Composer) (rs : List Rule) : BoolQuery where
  must := c.fill .must rs []
  should := c.fill .should rs []
  mustNot := c.fill .mustNot rs []

/-- The query that some rules are composed to if none of their literals is refused. -/
def composedQuery (c : Composer) (rs : List Rule) : BoolQuery :=
  if Rule.anyExclusive rs then (c.plainQuery rs).exclusive c.config.xorStrategy else c.plainQuery rs

variable {c : Composer}

theorem clauses_plainQuery (c : Composer) (rs : List Rule) (s : Scope) : (c.plainQuery rs).clauses s = c.fill s rs [] := by
  cases s <;> rfl

/-- The query of a composition is that of the scopes of its rules. -/
theorem query_compose {rs : List Rule} {done : Composition} (h : c.compose rs = .ok done) : done.query = c.composedQuery rs := by
  obtain ⟨d, hd, rfl⟩ := filled_of_compose h
  have hplain : d.query = c.plainQuery rs := by
    refine BoolQuery.eq_of_clauses (fun s => ?_) hd.unset
    rw [hd.clauses s, clauses_plainQuery]
    cases s <;> rfl
  rw [Draft.finish, hd.exclusive, hplain]
  rfl

/-- Rules are composed if none of their literals is refused, and to the query of their scopes. -/
theorem exists_compose_iff (c : Composer) (rs : List Rule) (q : BoolQuery) :
    (∃ done, c.compose rs = .ok done ∧ done.query = q) ↔ c.Accepts rs ∧ q = c.composedQuery rs := by
  have haccepts : c.Accepts rs ↔ error? (c.compose rs) = none := by
    rw [error?_compose, Option.eq_none_iff_forall_ne_some, ← not_exists, exists_firstRefusal_iff]
    simp only [Accepts, not_exists, not_and, Bool.not_eq_true]
  rw [haccepts]
  cases h : c.compose rs with
  | error e => simp [error?]
  | ok done => simp [error?, query_compose h, eq_comm]

theorem accepts_iff (c : Composer) (rs : List Rule) :
    c.Accepts rs ↔ ∀ r ∈ rs, ∀ literal ∈ r.freeLiterals c.config.clauseStyle, hasBareWildcard literal.toList = false := by
  simp only [Accepts, Rule.freeLiteralsIn_eq_flatMap, List.mem_flatMap]
  exact ⟨fun h r hr literal hl => h literal ⟨r, hr, hl⟩, fun h literal ⟨r, hr, hl⟩ => h r hr literal hl⟩

/-- Rules that are among others are accepted with them. -/
theorem Accepts.mono {rs rs' : List Rule} (h : c.Accepts rs) (hsub : rs' ⊆ rs) : c.Accepts rs' := by
  rw [accepts_iff] at h ⊢
  exact fun r hr => h r (hsub hr)

/-- The query of a group is the one its rules are composed to, if they are accepted. -/
theorem Accepts.groupQuery_eq {rs : List Rule} (h : c.Accepts rs) : c.groupQuery rs = c.composedQuery rs := by
  obtain ⟨done, hdone, hquery⟩ := (exists_compose_iff c rs _).2 ⟨h, rfl⟩
  rw [groupQuery, hdone]
  exact hquery

/-! ## Scopes, apart -/

theorem fill_append (c : Composer) (s : Scope) (rs rs' : List Rule) (cs : List Clause) :
    c.fill s (rs ++ rs') cs = c.fill s rs' (c.fill s rs cs) := by
  rw [fill, List.filter_append, List.foldl_append]
  rfl

/-- Of the rules of one scope, that scope takes all it would take of the whole list, and the others take nothing. -/
theorem fill_filter (c : Composer) (s s' : Scope) (rs : List Rule) (cs : List Clause) :
    c.fill s (rs.filter (·.scope == s')) cs = if s = s' then c.fill s rs cs else cs := by
  rw [fill, List.filter_filter]
  by_cases h : s = s'
  · rw [if_pos h, h, fill]
    simp only [Bool.and_self]
  · have hnone : (rs.filter fun r => r.scope == s && r.scope == s') = [] := by
      rw [List.filter_eq_nil_iff]
      rintro r - hr
      rw [Bool.and_eq_true, beq_iff_eq, beq_iff_eq] at hr
      exact h (hr.1.symm.trans hr.2)
    rw [if_neg h, hnone]
    rfl

/-- The rules of one scope by themselves fill that scope as they do among others, and nothing else. -/
theorem plainQuery_filter (c : Composer) (s : Scope) (rs : List Rule) :
    c.plainQuery (rs.filter (·.scope == s)) = ({} : BoolQuery).modify s fun _ => (c.plainQuery rs).clauses s := by
  refine BoolQuery.eq_of_clauses (fun s' => ?_) (by simp [plainQuery])
  rw [clauses_plainQuery, fill_filter, BoolQuery.clauses_modify, clauses_plainQuery]
  by_cases h : s' = s
  · rw [if_pos h, if_pos h.symm, h]
  · rw [if_neg h, if_neg (Ne.symm h)]
    cases s' <;> rfl

/-! ## Alternatives taken as any others -/

/-- What a rule adds to its scope is the same with its alternatives taken as any others. -/
theorem landAll_inclusive (c : Composer) (r : Rule) (cs : List Clause) :
    c.landAll r.inclusive (c.pieces r.inclusive) cs = c.landAll r (c.pieces r) cs := by
  have hform : c.literalForm r.inclusive = c.literalForm r := rfl
  have hpieces : c.pieces r.inclusive = c.pieces r := rfl
  rw [hpieces, landAll, landAll, hform]
  cases c.literalForm r with
  | terms names => rfl
  | freeText fields =>
    cases ho : r.operator with
    | none => simp [Rule.inclusive, ho]
    | some op => simp [Rule.inclusive, ho]

theorem fill_map_inclusive (c : Composer) (s : Scope) (rs : List Rule) (cs : List Clause) :
    c.fill s (rs.map Rule.inclusive) cs = c.fill s rs cs := by
  induction rs generalizing cs with
  | nil => rfl
  | cons r rs ih => rw [List.map_cons, fill_cons, fill_cons, Rule.scope_inclusive, landAll_inclusive, ih]

theorem plainQuery_map_inclusive (c : Composer) (rs : List Rule) : c.plainQuery (rs.map Rule.inclusive) = c.plainQuery rs := by
  simp only [plainQuery, fill_map_inclusive]

theorem accepts_map_inclusive (c : Composer) (rs : List Rule) : c.Accepts (rs.map Rule.inclusive) ↔ c.Accepts rs := by
  rw [accepts_iff, accepts_iff]
  simp only [List.forall_mem_map, Rule.freeLiterals_inclusive]

/-! ## Rules that change places -/

/-- Rules are accepted and composed to the same query in any order that keeps the rules of each scope in theirs. -/
theorem composedQuery_of_filter_eq {rs rs' : List Rule}
    (h : ∀ s : Scope, rs'.filter (·.scope == s) = rs.filter (·.scope == s)) :
    (c.Accepts rs → c.Accepts rs') ∧ c.composedQuery rs' = c.composedQuery rs := by
  have hmem : ∀ r, r ∈ rs' ↔ r ∈ rs := by
    intro r
    have hscope : ∀ l : List Rule, r ∈ l ↔ r ∈ l.filter (·.scope == r.scope) := fun l => by simp
    rw [hscope rs', h r.scope, ← hscope rs]
  have hplain : c.plainQuery rs' = c.plainQuery rs := by
    simp only [plainQuery, fill, h]
  have hany : Rule.anyExclusive rs' = Rule.anyExclusive rs := by
    rw [Rule.anyExclusive, Rule.anyExclusive, Bool.eq_iff_iff, List.any_eq_true, List.any_eq_true]
    simp only [hmem]
  exact ⟨fun haccepts => haccepts.mono fun r hr => (hmem r).1 hr, by rw [composedQuery, composedQuery, hplain, hany]⟩

/-- A group may be put in the place of another one that is composed to the same query: the scopes are filled as before. -/
theorem fill_inside {before after : List Rule} {r : Rule} {vs ws : List Value} {g g' : List Rule}
    (h : c.groupQuery g' = c.groupQuery g) (s : Scope) (cs : List Clause) :
    c.fill s (before ++ { r with values := vs ++ .group g' :: ws } :: after) cs =
      c.fill s (before ++ { r with values := vs ++ .group g :: ws } :: after) cs := by
  have hpieces : c.pieces { r with values := vs ++ .group g' :: ws } = c.pieces { r with values := vs ++ .group g :: ws } := by
    have hform : c.literalForm { r with values := vs ++ .group g' :: ws } =
        c.literalForm { r with values := vs ++ .group g :: ws } := rfl
    rw [pieces, pieces, hform]
    simp only [List.map_append, List.map_cons, piece, h]
  rw [fill_append, fill_append, fill_cons, fill_cons, hpieces]
  rfl

/-- A group may be put in the place of another one that is composed to the same query. -/
theorem composedQuery_inside {before after : List Rule} {r : Rule} {vs ws : List Value} {g g' : List Rule}
    (h : c.groupQuery g' = c.groupQuery g) :
    c.composedQuery (before ++ { r with values := vs ++ .group g' :: ws } :: after) =
      c.composedQuery (before ++ { r with values := vs ++ .group g :: ws } :: after) := by
  simp only [composedQuery, plainQuery, fill_inside h, Rule.anyExclusive_inside before after r vs ws g' g]

/-- A group is accepted with the rules it stands in, and these are accepted with any other that is. -/
theorem accepts_inside {before after : List Rule} {r : Rule} {vs ws : List Value} {g g' : List Rule}
    (h : c.Accepts (before ++ { r with values := vs ++ .group g :: ws } :: after)) :
    c.Accepts g ∧ (c.Accepts g' → c.Accepts (before ++ { r with values := vs ++ .group g' :: ws } :: after)) := by
  obtain ⟨xs, ys, hliterals⟩ := Rule.freeLiteralsIn_inside c.config.clauseStyle before after r vs ws
  rw [Accepts, hliterals, List.forall_mem_append, List.forall_mem_append] at h
  obtain ⟨hxs, hg, hys⟩ := h
  refine ⟨hg, fun hg' => ?_⟩
  rw [Accepts, hliterals, List.forall_mem_append, List.forall_mem_append]
  exact ⟨hxs, hg', hys⟩

/-- Rules that change places, at whatever depth, are accepted as before and composed to the same query. -/
theorem composedQuery_of_reordered {rs rs' : List Rule} (h : Rule.Reordered rs rs') (haccepts : c.Accepts rs) :
    c.Accepts rs' ∧ c.composedQuery rs' = c.composedQuery rs := by
  induction h with
  | siblings hscopes =>
    obtain ⟨hmono, hquery⟩ := composedQuery_of_filter_eq (c := c) hscopes
    exact ⟨hmono haccepts, hquery⟩
  | inside _ ih =>
    obtain ⟨hg, hinside⟩ := accepts_inside haccepts
    obtain ⟨hg', hquery⟩ := ih hg
    refine ⟨hinside hg', composedQuery_inside ?_⟩
    rw [hg'.groupQuery_eq, hg.groupQuery_eq, hquery]
  | trans _ _ ih ih' =>
    obtain ⟨hmid, hquery⟩ := ih haccepts
    obtain ⟨hlast, hquery'⟩ := ih' hmid
    exact ⟨hlast, hquery'.trans hquery⟩

/-! ## The scopes of a composed query -/

/-- Of rules whose alternatives are taken as any others, those under some operators composed by themselves fill their scope as they do
among the others. -/
theorem exists_compose_filter {rs : List Rule} (haccepts : c.Accepts rs) (hxor : ∀ r ∈ rs, r.operator ≠ some .xor) (s : Scope)
    {p : Rule → Bool} (hp : ∀ r ∈ rs, p r = (r.scope == s)) :
    ∃ only, c.compose (rs.filter p) = .ok only ∧ only.query = ({} : BoolQuery).modify s fun _ => (c.plainQuery rs).clauses s := by
  have hsub : rs.filter p ⊆ rs := List.filter_subset_self rs
  refine (exists_compose_iff c _ _).2 ⟨haccepts.mono hsub, ?_⟩
  rw [composedQuery, Rule.anyExclusive_eq_false fun r hr => hxor r (hsub hr), if_neg Bool.false_ne_true, List.filter_congr hp,
    plainQuery_filter]

/-- Let some rules be composed. With their exclusive alternatives taken as any others they are composed too, each scope of that query
is what the rules of the scope are composed to by themselves, and making its alternatives exclusive, if some rule with values asks
for that, gives the query they are composed to. And in any order that keeps the rules of each scope in theirs, at whatever depth,
they are composed to the same query. -/
theorem compose_scopes_apart {rs : List Rule} {done : Composition} (h : c.compose rs = .ok done) :
    (∃ plain, c.compose (rs.map Rule.inclusive) = .ok plain ∧
      (∃ only, c.compose ((rs.map Rule.inclusive).filter fun r => r.operator == none || r.operator == some .and) = .ok only ∧
        only.query = { must := plain.query.must }) ∧
      (∃ only, c.compose ((rs.map Rule.inclusive).filter fun r => r.operator == some .or) = .ok only ∧
        only.query = { should := plain.query.should }) ∧
      (∃ only, c.compose ((rs.map Rule.inclusive).filter fun r => r.operator == some .not) = .ok only ∧
        only.query = { mustNot := plain.query.mustNot }) ∧
      done.query = if rs.any fun r => r.operator == some .xor && !r.values.isEmpty
        then plain.query.exclusive c.config.xorStrategy else plain.query) ∧
    ∀ rs', Rule.Reordered rs rs' → ∃ done', c.compose rs' = .ok done' ∧ done'.query = done.query := by
  obtain ⟨haccepts, hquery⟩ := (exists_compose_iff c rs done.query).1 ⟨done, h, rfl⟩
  constructor
  · have haccepts' := (accepts_map_inclusive c rs).2 haccepts
    have hxor : ∀ r ∈ rs.map Rule.inclusive, r.operator ≠ some .xor := by
      rw [List.forall_mem_map]
      exact fun r _ => r.operator_inclusive_ne
    obtain ⟨plain, hplain, hplainQuery⟩ := (exists_compose_iff c (rs.map Rule.inclusive) _).2 ⟨haccepts', rfl⟩
    rw [composedQuery, Rule.anyExclusive_eq_false hxor, if_neg Bool.false_ne_true] at hplainQuery
    refine ⟨plain, hplain, ?_, ?_, ?_, ?_⟩
    · rw [hplainQuery]
      exact exists_compose_filter haccepts' hxor .must fun r hr => (Rule.operator_beq_of_ne_xor (hxor r hr)).1
    · rw [hplainQuery]
      exact exists_compose_filter haccepts' hxor .should fun r hr => (Rule.operator_beq_of_ne_xor (hxor r hr)).2.1
    · rw [hplainQuery]
      exact exists_compose_filter haccepts' hxor .mustNot fun r hr => (Rule.operator_beq_of_ne_xor (hxor r hr)).2.2
    · rw [hplainQuery, hquery, plainQuery_map_inclusive]
      rfl
  · intro rs' hreordered
    obtain ⟨haccepts', hquery'⟩ := composedQuery_of_reordered hreordered haccepts
    exact (exists_compose_iff c rs' done.query).2 ⟨haccepts', hquery.trans hquery'.symm⟩

/-- Two exclusive rules with a rule of another scope and an empty one around them. The pairs share the objects of their scope; the
group of the first rule changes its order, and the rules theirs. -/
theorem compose_scopes_apart_two_exclusive :
    ∃ done, ({} : Config).composer.compose [
        ⟨some (.one "city"), some .xor, [.literal "Paris", .group [
          ⟨some (.one "kind"), some .not, [.literal "page"], false⟩, ⟨none, none, [.literal "rust"], false⟩]], false⟩,
        ⟨some (.one "lang"), some .and, [.literal "fr"], false⟩,
        ⟨some (.one "tag"), some .xor, [.literal "a", .literal "b"], true⟩, ⟨none, some .xor, [], false⟩] = .ok done ∧
      (∃ plain, ({} : Config).composer.compose [
          ⟨some (.one "city"), some .or, [.literal "Paris", .group [
            ⟨some (.one "kind"), some .not, [.literal "page"], false⟩, ⟨none, none, [.literal "rust"], false⟩]], false⟩,
          ⟨some (.one "lang"), some .and, [.literal "fr"], false⟩,
          ⟨some (.one "tag"), some .or, [.literal "a", .literal "b"], true⟩, ⟨none, some .or, [], false⟩] = .ok plain ∧
        done.query = plain.query.exclusive .emulate) ∧
      ∃ done', ({} : Config).composer.compose [
          ⟨some (.one "lang"), some .and, [.literal "fr"], false⟩,
          ⟨some (.one "city"), some .xor, [.literal "Paris", .group [
            ⟨none, none, [.literal "rust"], false⟩, ⟨some (.one "kind"), some .not, [.literal "page"], false⟩]], false⟩,
          ⟨some (.one "tag"), some .xor, [.literal "a", .literal "b"], true⟩, ⟨none, some .xor, [], false⟩] = .ok done' ∧
        done'.query = done.query := by
  obtain ⟨done, h⟩ := exists_eq_ok_of_isOk (x := ({} : Config).composer.compose [
    ⟨some (.one "city"), some .xor, [.literal "Paris", .group [
      ⟨some (.one "kind"), some .not, [.literal "page"], false⟩, ⟨none, none, [.literal "rust"], false⟩]], false⟩,
    ⟨some (.one "lang"), some .and, [.literal "fr"], false⟩,
    ⟨some (.one "tag"), some .xor, [.literal "a", .literal "b"], true⟩, ⟨none, some .xor, [], false⟩]) (by decide)
  obtain ⟨⟨plain, hplain, -, -, -, hquery⟩, hreordered⟩ := compose_scopes_apart h
  have hinside := @Rule.Reordered.inside []
    [⟨some (.one "lang"), some .and, [.literal "fr"], false⟩,
      ⟨some (.one "tag"), some .xor, [.literal "a", .literal "b"], true⟩, ⟨none, some .xor, [], false⟩]
    ⟨some (.one "city"), some .xor, [], false⟩ [.literal "Paris"] []
    [⟨some (.one "kind"), some .not, [.literal "page"], false⟩, ⟨none, none, [.literal "rust"], false⟩]
    [⟨none, none, [.literal "rust"], false⟩, ⟨some (.one "kind"), some .not, [.literal "page"], false⟩]
    (.siblings fun s => by cases s <;> rfl)
  refine ⟨done, h, ⟨plain, hplain, hquery.trans (if_pos rfl)⟩, hreordered _ (.trans hinside (.siblings fun s => ?_))⟩
  cases s <;> rfl

end Composer

end SearchRules
