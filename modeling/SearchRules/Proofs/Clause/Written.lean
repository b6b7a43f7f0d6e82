import Mathlib.Logic.Function.Basic
import SearchRules.Clause.Data
import SearchRules.Proofs.Data.Decode
import SearchRules.Proofs.Json.Unambiguous

/-!
# Clauses told by their texts

A clause can be read off the text it is written as, whatever stands in it: `compact_toData_injective`. A text tells its tree, since
clauses are written without numbers other than integers (`plain_toData`), and a tree tells its clause (`toData_inj`): the key of the
wrapper names the kind, and a part that is left out is missed under its key and nowhere else.
-/

namespace SearchRules

namespace Data

/-! ## Data told apart -/

variable {α : Type} {key : String} {keys : List String} {xs xs' ms ms' : List (String × Data)}

/-- Members under one key are told from those under other keys behind them. -/
theorem members_append_inj (hkey : key ∉ keys) (hxs : (xs.map Prod.fst).Sublist [key]) (hxs' : (xs'.map Prod.fst).Sublist [key])
    (hms : (ms.map Prod.fst).Sublist keys) (hms' : (ms'.map Prod.fst).Sublist keys) (h : xs ++ ms = xs' ++ ms') :
    xs = xs' ∧ ms = ms' := by
  have hfilter : ∀ {xs ms : List (String × Data)}, (xs.map Prod.fst).Sublist [key] → (ms.map Prod.fst).Sublist keys →
      (xs ++ ms).filter (·.1 == key) = xs := by
    intro xs ms hxs hms
    have hin : ∀ m ∈ xs, (m.1 == key) = true := by
      intro m hm
      exact beq_iff_eq.2 (List.mem_singleton.1 (hxs.subset (List.mem_map_of_mem hm)))
    have hout : ∀ m ∈ ms, ¬(m.1 == key) = true := by
      intro m hm heq
      exact hkey (beq_iff_eq.1 heq ▸ hms.subset (List.mem_map_of_mem hm))
    rw [List.filter_append, List.filter_eq_self.2 hin, List.filter_eq_nil_iff.2 hout, List.append_nil]
  have heq : xs = xs' := by rw [← hfilter hxs hms, h, hfilter hxs' hms']
  subst heq
  exact ⟨rfl, List.append_cancel_left h⟩

theorem optional_inj {encode : α → Data} (hencode : ∀ a b, encode a = encode b → a = b) {a b : Option α}
    (h : optional key encode a = optional key encode b) : a = b := by
  cases a with
  | none =>
    cases b with
    | none => rfl
    | some b => cases h
  | some a =>
    cases b with
    | none => cases h
    | some b =>
      simp only [optional, List.cons.injEq, Prod.mk.injEq, true_and, and_true] at h
      rw [hencode a b h]

theorem optionalList_inj {ds ds' : List Data} (h : optionalList key ds = optionalList key ds') : ds = ds' := by
  cases ds with
  | nil =>
    cases ds' with
    | nil => rfl
    | cons d' ds' => cases h
  | cons d ds =>
    cases ds' with
    | nil => cases h
    | cons d' ds' => simpa [optionalList] using h

theorem singleton_inj {d d' : Data} (h : Data.record [(key, d)] = .record [(key, d')]) : d = d' := by
  simpa using h

theorem strings_inj {ss ss' : List String} (h : strings ss = strings ss') : ss = ss' := by
  have hread := congrArg (list? string?) h
  rwa [list?_strings, list?_strings, Option.some.injEq] at hread

theorem uint32_inj {n n' : UInt32} (h : Data.int n.toNat = .int n'.toNat) : n = n' := by
  have hread := congrArg uint32? h
  rwa [uint32?_int, uint32?_int, Option.some.injEq] at hread

/-! ## Data without other numbers -/

theorem plain_singleton {d : Data} (h : d.Plain) : (Data.record [(key, d)]).Plain := by
  rw [plain_record_iff, List.forall_mem_singleton]
  exact h

theorem plain_strings (ss : List String) : (strings ss).Plain := by
  rw [strings, plain_list_iff, List.forall_mem_map]
  exact fun _ _ => rfl

theorem plain_optionalList {ds : List Data} (h : ∀ d ∈ ds, d.Plain) : ∀ m ∈ optionalList key ds, m.2.Plain := by
  cases ds with
  | nil => nofun
  | cons d ds => exact List.forall_mem_singleton.2 ((plain_list_iff _).2 h)

end Data

/-! ## Highlight specifications -/

namespace FieldHighlight

theorem toData_inj {f f' : FieldHighlight} (h : f.toData = f'.toData) : f = f' := by
  have hkeys : "type" ∉ ["fragment_size", "number_of_fragments", "fragmenter"] := by decide
  rw [toData, toData, Data.record.injEq] at h
  obtain ⟨hkind, hoptions⟩ := Data.members_append_inj hkeys (Data.keys_optional_sublist _ _ _) (Data.keys_optional_sublist _ _ _)
    (List.Sublist.refl _) (List.Sublist.refl _) h
  simp only [List.cons.injEq, Prod.mk.injEq, true_and, and_true] at hoptions
  obtain ⟨hsize, hnumber, hfragmenter⟩ := hoptions
  cases f
  cases f'
  rw [mk.injEq]
  exact ⟨Data.optional_inj (fun _ _ => Data.string.inj) hkind, Data.uint32_inj hsize, Data.uint32_inj hnumber,
    Data.string.inj hfragmenter⟩

theorem plain_toData (f : FieldHighlight) : f.toData.Plain := by
  rw [toData, Data.plain_record_iff, List.forall_mem_append]
  refine ⟨Data.forall_mem_optional fun _ _ => rfl, ?_⟩
  simp only [List.forall_mem_cons]
  exact ⟨rfl, rfl, rfl, nofun⟩

end FieldHighlight

namespace HighlightSpec

theorem toData_inj {spec spec' : HighlightSpec} (h : spec.toData = spec'.toData) : spec = spec' := by
  have hkeys : "require_field_match" ∉ ["fields"] := by decide
  simp only [toData, Data.record.injEq, List.cons_append, List.nil_append, List.cons.injEq, Prod.mk.injEq, true_and] at h
  obtain ⟨hpre, hpost, horder, h⟩ := h
  obtain ⟨hmatch, hfields⟩ := Data.members_append_inj hkeys (Data.keys_optional_sublist _ _ _) (Data.keys_optional_sublist _ _ _)
    (List.Sublist.refl _) (List.Sublist.refl _) h
  simp only [List.cons.injEq, Prod.mk.injEq, true_and, and_true, Data.record.injEq] at hfields
  have hencode : ∀ f f' : String × FieldHighlight, (f.1, f.2.toData) = (f'.1, f'.2.toData) → f = f' := by
    rintro ⟨name, f⟩ ⟨name', f'⟩ hf
    rw [Prod.mk.injEq] at hf
    rw [Prod.mk.injEq]
    exact ⟨hf.1, FieldHighlight.toData_inj hf.2⟩
  cases spec
  cases spec'
  rw [mk.injEq]
  exact ⟨Data.strings_inj hpre, Data.strings_inj hpost, Data.string.inj horder,
    Data.optional_inj (fun _ _ => Data.bool.inj) hmatch, (List.map_inj_right hencode).1 hfields⟩

theorem plain_toData (spec : HighlightSpec) : spec.toData.Plain := by
  have hfields : (Data.record (spec.fields.map fun f => (f.1, f.2.toData))).Plain := by
    rw [Data.plain_record_iff, List.forall_mem_map]
    exact fun f _ => f.2.plain_toData
  rw [toData, Data.plain_record_iff, List.forall_mem_append, List.forall_mem_append]
  refine ⟨⟨?_, Data.forall_mem_optional fun _ _ => rfl⟩, List.forall_mem_singleton.2 hfields⟩
  simp only [List.forall_mem_cons]
  exact ⟨Data.plain_strings _, Data.plain_strings _, rfl, nofun⟩

end HighlightSpec

/-! ## Clauses -/

theorem TermKey.name_inj {k k' : TermKey} (h : k.name = k'.name) : k = k' := by
  cases k <;> cases k' <;> first | rfl | exact absurd h (by decide)

theorem TermObject.eq_of_entryData {t t' : TermObject} (hkey : t.key.name = t'.key.name) (h : t.entryData = t'.entryData) :
    t = t' := by
  rw [entryData, entryData, Data.record.injEq] at h
  have hencode : ∀ e e' : String × String, (e.1, Data.string e.2) = (e'.1, Data.string e'.2) → e = e' := by
    rintro ⟨field, value⟩ ⟨field', value'⟩ he
    rw [Prod.mk.injEq, Data.string.injEq] at he
    exact Prod.ext he.1 he.2
  cases t
  cases t'
  rw [mk.injEq]
  exact ⟨TermKey.name_inj hkey, (List.map_inj_right hencode).1 h⟩

theorem FreeText.toData_inj {t t' : FreeText} (h : t.toData = t'.toData) : t = t' := by
  simp only [toData, Data.record.injEq, List.cons.injEq, Prod.mk.injEq, true_and, and_true, Data.string.injEq] at h
  cases t
  cases t'
  rw [mk.injEq]
  exact ⟨h.1, Data.strings_inj h.2⟩

/-- What is told of a boolean clause by its data, before its clauses are told by theirs. -/
theorem BoolQuery.parts_of_toData {q q' : BoolQuery} (h : q.toData = q'.toData) :
    Clause.listData q.must = Clause.listData q'.must ∧ Clause.listData q.should = Clause.listData q'.should ∧
      Clause.listData q.mustNot = Clause.listData q'.mustNot ∧ q.minimumShouldMatch = q'.minimumShouldMatch := by
  obtain ⟨must, should, mustNot, m⟩ := q
  obtain ⟨must', should', mustNot', m'⟩ := q'
  simp only [toData, Data.record.injEq, List.append_assoc] at h
  have hlast : ∀ (cs : List Data) (m : Option Int), ((Data.optionalList "must_not" cs ++
      Data.optional "minimum_should_match" .int m).map Prod.fst).Sublist ["must_not", "minimum_should_match"] := by
    intro cs m
    rw [List.map_append]
    exact (Data.keys_optionalList_sublist _ cs).append (Data.keys_optional_sublist _ _ m)
  have hbehind : ∀ (cs ds : List Data) (m : Option Int), ((Data.optionalList "should" cs ++ (Data.optionalList "must_not" ds ++
      Data.optional "minimum_should_match" .int m)).map Prod.fst).Sublist ["should", "must_not", "minimum_should_match"] := by
    intro cs ds m
    rw [List.map_append]
    exact (Data.keys_optionalList_sublist _ cs).append (hlast ds m)
  obtain ⟨hmust, h⟩ := Data.members_append_inj (by decide) (Data.keys_optionalList_sublist _ _)
    (Data.keys_optionalList_sublist _ _) (hbehind _ _ _) (hbehind _ _ _) h
  obtain ⟨hshould, h⟩ := Data.members_append_inj (by decide) (Data.keys_optionalList_sublist _ _)
    (Data.keys_optionalList_sublist _ _) (hlast _ _) (hlast _ _) h
  obtain ⟨hmustNot, hm⟩ := Data.members_append_inj (by decide) (Data.keys_optionalList_sublist _ _)
    (Data.keys_optionalList_sublist _ _) (Data.keys_optional_sublist "minimum_should_match" _ _)
    (Data.keys_optional_sublist _ _ _) h
  exact ⟨Data.optionalList_inj hmust, Data.optionalList_inj hshould, Data.optionalList_inj hmustNot,
    Data.optional_inj (fun _ _ => Data.int.inj) hm⟩

namespace Clause

/-- Two clauses of one kind whose parts are alike, as far as the clauses in them are written alike. -/
inductive WrittenAlike : Clause → Clause → Prop where
  | bool {must must' should should' mustNot mustNot' : List Clause} {m : Option Int} (hmust : listData must = listData must')
    (hshould : listData should = listData should') (hmustNot : listData mustNot = listData mustNot') :
    WrittenAlike (.bool ⟨must, should, mustNot, m⟩) (.bool ⟨must', should', mustNot', m⟩)
  | term (t : TermObject) : WrittenAlike (.term t) (.term t)
  | freeText (t : FreeText) : WrittenAlike (.freeText t) (.freeText t)
  | nested {path : String} {c c' : Clause} {hits : Option HighlightSpec} (h : c.toData = c'.toData) :
    WrittenAlike (.nested path c hits) (.nested path c' hits)

/-- The key of the wrapper tells the kind of a clause, and what is under it is told part by part. -/
theorem writtenAlike_of_toData {c c' : Clause} (h : c.toData = c'.toData) : WrittenAlike c c' := by
  have hname : ∀ (k : TermKey) (key : String), key ∈ ["bool", "query_string", "nested"] → k.name ≠ key := by
    rintro k key hkey rfl
    cases k <;> exact absurd hkey (by decide)
  cases c <;> cases c' <;>
    simp only [toData, Data.record.injEq, List.cons.injEq, Prod.mk.injEq, true_and, and_true, List.cons_append, List.nil_append,
      Data.string.injEq] at h
  case bool.bool q q' =>
    obtain ⟨must, should, mustNot, m⟩ := q
    obtain ⟨must', should', mustNot', m'⟩ := q'
    obtain ⟨hmust, hshould, hmustNot, hm⟩ := BoolQuery.parts_of_toData h
    cases hm
    exact .bool hmust hshould hmustNot
  case term.term t t' =>
    rw [TermObject.eq_of_entryData h.1 h.2]
    exact .term t'
  case freeText.freeText t t' =>
    rw [FreeText.toData_inj h]
    exact .freeText t'
  case nested.nested =>
    obtain ⟨rfl, hquery, hhits⟩ := h
    rw [Data.optional_inj (fun _ _ hspec => HighlightSpec.toData_inj (Data.singleton_inj hspec)) hhits]
    exact .nested hquery
  all_goals first
    | exact absurd h.1 (by decide)
    | exact absurd h.1 (hname _ _ (by decide))
    | exact absurd h.1.symm (hname _ _ (by decide))

mutual

/-- A clause is told by its data. -/
theorem toData_inj : ∀ c c' : Clause, c.toData = c'.toData → c = c'
  | .bool ⟨must, should, mustNot, m⟩, c', h => by
    cases writtenAlike_of_toData h with
    | bool hmust hshould hmustNot =>
      rw [listData_inj must _ hmust, listData_inj should _ hshould, listData_inj mustNot _ hmustNot]
  | .term t, c', h => by
    cases writtenAlike_of_toData h with
    | term => rfl
  | .freeText t, c', h => by
    cases writtenAlike_of_toData h with
    | freeText => rfl
  | .nested path c hits, c', h => by
    cases writtenAlike_of_toData h with
    | nested hc => rw [toData_inj c _ hc]

/-- Clauses are told by their data, one by one. -/
theorem listData_inj : ∀ cs cs' : List Clause, listData cs = listData cs' → cs = cs'
  | [], [], _ => rfl
  | [], c' :: cs', h => by simp [listData] at h
  | c :: cs, [], h => by simp [listData] at h
  | c :: cs, c' :: cs', h => by
    rw [listData, listData, List.cons.injEq] at h
    rw [toData_inj c c' h.1, listData_inj cs cs' h.2]

end

mutual

/-- No number but integers is written in a clause. -/
theorem plain_toData : ∀ c : Clause, c.toData.Plain
  | .bool ⟨must, should, mustNot, m⟩ => by
    have hmust := plain_listData must
    have hshould := plain_listData should
    have hmustNot := plain_listData mustNot
    rw [toData]
    refine Data.plain_singleton ?_
    simp only [BoolQuery.toData, Data.plain_record_iff, List.forall_mem_append]
    exact ⟨⟨⟨Data.plain_optionalList hmust, Data.plain_optionalList hshould⟩, Data.plain_optionalList hmustNot⟩,
      Data.forall_mem_optional fun _ _ => rfl⟩
  | .term t => by
    rw [toData]
    refine Data.plain_singleton ?_
    rw [TermObject.entryData, Data.plain_record_iff, List.forall_mem_map]
    exact fun _ _ => rfl
  | .freeText t => by
    rw [toData]
    refine Data.plain_singleton ?_
    rw [FreeText.toData, Data.plain_record_iff, List.forall_mem_cons, List.forall_mem_singleton]
    exact ⟨rfl, Data.plain_strings _⟩
  | .nested path c hits => by
    have hquery := plain_toData c
    rw [toData]
    refine Data.plain_singleton ?_
    rw [Data.plain_record_iff, List.forall_mem_append, List.forall_mem_cons, List.forall_mem_singleton]
    exact ⟨⟨rfl, hquery⟩, Data.forall_mem_optional fun spec _ => Data.plain_singleton spec.plain_toData⟩

/-- No number but integers is written in any of some clauses. -/
theorem plain_listData : ∀ cs : List Clause, ∀ d ∈ listData cs, d.Plain
  | [] => by simp [listData]
  | c :: cs => by
    rw [listData, List.forall_mem_cons]
    exact ⟨plain_toData c, plain_listData cs⟩

end

/-- No two clauses are written as the same text, so that a decoder can undo the writing of every clause. -/
theorem compact_toData_injective : Function.Injective (fun c : Clause => Json.compact c.toData) ∧
    ∃ decode : String → Option Clause, ∀ c text, decode text = some c ↔ Json.compact c.toData = text := by
  have hinj : Function.Injective fun c : Clause => Json.compact c.toData := by
    intro c c' h
    exact toData_inj c c' (Json.compact_inj (plain_toData c) (plain_toData c') h)
  exact ⟨hinj, Function.partialInv _, hinj.isPartialInv⟩

end Clause

end SearchRules
