import SearchRules.Proofs.Toml.Values
import SearchRules.Toml.Printer

/-!
# TOML documents read back

A record is read back from its document with the members of each table in the order the document has them: those with a line of their
own, and then those with tables of their own (`read?_print`). One line leads the reader from one table under construction to the
next, and lines are put together by `Leads.trans`; the lines of a table leave the tables around it as they are.
-/

namespace SearchRules.Toml

/-! ## The order of a document -/

/-- The members of a record that have a line of their own. -/
def plainMembers (ms : List (String × Data)) : List (String × Data) :=
  ms.filter fun m => !isSection m.2

mutual

/-- A tree with the members of each table in the order of its document. -/
def arrange : Data → Data
  | .list items => .list (arrangeItems items)
  | .record ms => .record (plainMembers ms ++ sectionMembers ms)
  | d => d

/-- The tables of a list, each with its members in order. -/
def arrangeItems : List Data → List Data
  | [] => []
  | d :: ds => arrange d :: arrangeItems ds

/-- The members of a record that have tables of their own, each with the members of its tables in order. -/
def sectionMembers : List (String × Data) → List (String × Data)
  | [] => []
  | (k, d) :: ms => if isSection d then (k, arrange d) :: sectionMembers ms else sectionMembers ms

end

mutual

/-- Whether what stands under a header of so many parts goes no deeper than the reader follows: no header has too many parts, and no
value too many lists and inline tables inside one another. -/
def fits (parts : Nat) : Data → Bool
  | .record ms => decide (parts ≤ maxDepth) && fitsMembers parts ms
  | .list items => fitsItems parts items
  | _ => true

/-- The same for a list of tables. -/
def fitsItems (parts : Nat) : List Data → Bool
  | [] => true
  | d :: ds => fits parts d && fitsItems parts ds

/-- The same for the members of a table. -/
def fitsMembers (parts : Nat) : List (String × Data) → Bool
  | [] => true
  | (_, d) :: ms => (if isSection d then fits (parts + 1) d else decide (d.depth ≤ maxDepth)) && fitsMembers parts ms

end

section

variable {k : String} {d : Data} {ms : List (String × Data)}

theorem plainMembers_cons_of_section (h : isSection d = true) : plainMembers ((k, d) :: ms) = plainMembers ms := by
  rw [plainMembers, List.filter_cons_of_neg (by simp [h]), ← plainMembers]

theorem plainMembers_cons_of_plain (h : isSection d = false) : plainMembers ((k, d) :: ms) = (k, d) :: plainMembers ms := by
  rw [plainMembers, List.filter_cons_of_pos (by simp [h]), ← plainMembers]

theorem sectionMembers_cons_of_section (h : isSection d = true) :
    sectionMembers ((k, d) :: ms) = (k, arrange d) :: sectionMembers ms := by
  rw [sectionMembers, if_pos h]

theorem sectionMembers_cons_of_plain (h : isSection d = false) : sectionMembers ((k, d) :: ms) = sectionMembers ms := by
  rw [sectionMembers, if_neg (by simp [h])]

end

/-- Arranging a record moves its members and loses none. -/
theorem keys_arrange_perm (ms : List (String × Data)) :
    ((plainMembers ms ++ sectionMembers ms).map Prod.fst).Perm (ms.map Prod.fst) := by
  induction ms with
  | nil => exact List.Perm.refl _
  | cons m ms ih =>
    obtain ⟨k, d⟩ := m
    cases h : isSection d with
    | true =>
      rw [plainMembers_cons_of_section h, sectionMembers_cons_of_section h, List.map_cons]
      exact (List.perm_middle.map Prod.fst).trans (ih.cons k)
    | false =>
      rw [plainMembers_cons_of_plain h, sectionMembers_cons_of_plain h, List.cons_append, List.map_cons, List.map_cons]
      exact ih.cons k

/-- A member is where it was or among the sections, if its own tables are in order. -/
theorem mem_arrange {k : String} {d : Data} {ms : List (String × Data)} (h : (k, d) ∈ ms)
    (hd : isSection d = true → arrange d = d) : (k, d) ∈ plainMembers ms ++ sectionMembers ms := by
  induction ms with
  | nil => cases h
  | cons m ms ih =>
    obtain ⟨k', d'⟩ := m
    rw [List.mem_append]
    cases hsection : isSection d' with
    | true =>
      rw [plainMembers_cons_of_section hsection, sectionMembers_cons_of_section hsection]
      rcases List.mem_cons.1 h with heq | h
      · obtain ⟨rfl, rfl⟩ := Prod.mk.injEq .. ▸ heq
        rw [hd hsection]
        exact Or.inr List.mem_cons_self
      · exact (List.mem_append.1 (ih h)).imp id (List.mem_cons_of_mem _)
    | false =>
      rw [plainMembers_cons_of_plain hsection, sectionMembers_cons_of_plain hsection]
      rcases List.mem_cons.1 h with heq | h
      · exact Or.inl (heq ▸ List.mem_cons_self)
      · exact (List.mem_append.1 (ih h)).imp (List.mem_cons_of_mem _) id

/-- A record without sections is in order. -/
theorem arrange_record_of_plain {ms : List (String × Data)} (h : ∀ m ∈ ms, isSection m.2 = false) :
    arrange (.record ms) = .record ms := by
  have hplain : plainMembers ms = ms := List.filter_eq_self.2 fun m hm => by rw [h m hm]; rfl
  have hsections : sectionMembers ms = [] := by
    clear hplain
    induction ms with
    | nil => rfl
    | cons m ms ih =>
      rw [List.forall_mem_cons] at h
      rw [← Prod.eta m, sectionMembers_cons_of_plain h.1, ih h.2]
  rw [arrange, hplain, hsections, List.append_nil]

theorem fitsMembers_iff (parts : Nat) (ms : List (String × Data)) :
    fitsMembers parts ms = true ↔ ∀ m ∈ ms, fitsMembers parts [m] = true := by
  induction ms with
  | nil => simp [fitsMembers]
  | cons m ms ih =>
    rw [List.forall_mem_cons, ← ih, fitsMembers, fitsMembers, Bool.and_eq_true, fitsMembers, Bool.and_true]

mutual

/-- A tree whose depth leaves room for its header fits. -/
theorem fits_of_depth_le : ∀ (d : Data) (parts : Nat), parts + d.depth ≤ maxDepth → fits parts d = true
  | .record ms, parts, h => by
    rw [Data.depth] at h
    rw [fits, fitsMembers_of_depth_le ms parts (by omega), decide_eq_true (by omega), Bool.and_self]
  | .list items, parts, h => by
    rw [Data.depth] at h
    rw [fits, fitsItems_of_depth_le items parts (by omega)]
  | .null, _, _ | .bool _, _, _ | .int _, _, _ | .float _, _, _ | .string _, _, _ | .unreadable, _, _ | .invalid, _, _ => rfl

theorem fitsItems_of_depth_le : ∀ (ds : List Data) (parts : Nat), parts + Data.depthOfItems ds ≤ maxDepth →
    fitsItems parts ds = true
  | [], _, _ => rfl
  | d :: ds, parts, h => by
    rw [Data.depthOfItems] at h
    rw [fitsItems, fits_of_depth_le d parts (by omega), fitsItems_of_depth_le ds parts (by omega), Bool.and_self]

theorem fitsMembers_of_depth_le : ∀ (ms : List (String × Data)) (parts : Nat), parts + 1 + Data.depthOfMembers ms ≤ maxDepth →
    fitsMembers parts ms = true
  | [], _, _ => rfl
  | (k, d) :: ms, parts, h => by
    rw [Data.depthOfMembers] at h
    rw [fitsMembers, fitsMembers_of_depth_le ms parts (by omega), Bool.and_true]
    split
    · exact fits_of_depth_le d (parts + 1) (by omega)
    · exact decide_eq_true (by omega)

end

/-! ## One line -/

/-- A text leads the reader from one document in the making to another, whatever follows it. -/
def Leads (text : List Char) (d d' : Draft) : Prop :=
  ∃ n ≤ text.length, ∀ fuel rest, d.lines? (n + fuel) (text ++ rest) = d'.lines? fuel rest

theorem Leads.refl (d : Draft) : Leads [] d d :=
  ⟨0, Nat.le_refl 0, fun fuel rest => by rw [Nat.zero_add, List.nil_append]⟩

theorem Leads.trans {xs ys : List Char} {d d' d'' : Draft} (h : Leads xs d d') (h' : Leads ys d' d'') :
    Leads (xs ++ ys) d d'' := by
  obtain ⟨n, hn, hlines⟩ := h
  obtain ⟨n', hn', hlines'⟩ := h'
  refine ⟨n + n', by rw [List.length_append]; omega, fun fuel rest => ?_⟩
  rw [Nat.add_assoc, List.append_assoc, hlines, hlines']

theorem leads_of_line {text : List Char} {d d' : Draft} (hne : text ≠ [])
    (h : ∀ fuel rest, d.lines? (fuel + 1) (text ++ rest) = d'.lines? fuel rest) : Leads text d d' := by
  refine ⟨1, List.length_pos_iff.2 hne, fun fuel rest => ?_⟩
  rw [Nat.add_comm, h]

theorem lineEnd_newline (r : List Char) : lineEnd ('\n' :: r) = some r := by
  rw [lineEnd, skipSpace_cons (by decide)]
  rfl

variable {path : List String} {plug : Table → Table} {k : String} {es : Table}

/-- The line of a key and its value. -/
def pairLine (k : String) (d : Data) : List Char :=
  k.toList ++ ' ' :: '=' :: ' ' :: (valueText d ++ ['\n'])

/-- The header of a table, with the blank line before it. -/
def headerLine (path : List String) : List Char :=
  '\n' :: '[' :: (pathText path ++ [']', '\n'])

/-- The header of a table of a list, with the blank line before it. -/
def listHeaderLine (path : List String) : List Char :=
  '\n' :: '[' :: '[' :: (pathText path ++ [']', ']', '\n'])

theorem pair?_pairLine (h : IsPathTo path plug) (hk : Bare k) {d : Data} (hd : Legible d) (hdepth : d.depth ≤ maxDepth)
    (hkey : k ∉ es.map Prod.fst) (rest : List Char) :
    Draft.pair? ⟨path, plug es⟩ (pairLine k d ++ rest) = some (⟨path, plug (es ++ [(k, .value d)])⟩, rest) := by
  obtain ⟨c, r, hcs, hc⟩ := exists_valueText_eq_cons hd
  have hskip : skipSpace (' ' :: (valueText d ++ '\n' :: rest)) = valueText d ++ '\n' :: rest := by
    rw [skipSpace_blank, hcs, List.cons_append, skipSpace_cons (isSpace_of_isOpening hc)]
  have hvalue := value_valueText d (2 * (' ' :: (valueText d ++ '\n' :: rest)).length + 2) maxDepth ('\n' :: rest) hd hdepth
    (by simp only [List.length_cons, List.length_append]; omega) (follows_cons (by decide) rest)
  have htext : pairLine k d ++ rest = k.toList ++ ' ' :: '=' :: ' ' :: (valueText d ++ '\n' :: rest) := by
    rw [pairLine]
    simp only [List.append_assoc, List.cons_append, List.nil_append]
  rw [Draft.pair?, htext, key_pair hk]
  simp only [Option.bind_eq_bind, Option.bind_some, hskip, hvalue, h.assignBelow hkey, lineEnd_newline]

theorem leads_pairLine (h : IsPathTo path plug) (hk : Bare k) {d : Data} (hd : Legible d) (hdepth : d.depth ≤ maxDepth)
    (hkey : k ∉ es.map Prod.fst) :
    Leads (pairLine k d) ⟨path, plug es⟩ ⟨path, plug (es ++ [(k, .value d)])⟩ := by
  obtain ⟨c, r, hcs, hc⟩ := hk.exists_cons
  refine leads_of_line (by simp [pairLine]) fun fuel rest => ?_
  have hpair := pair?_pairLine h hk hd hdepth hkey rest
  have hskip : skipLines (pairLine k d ++ rest) = some (pairLine k d ++ rest) := by
    rw [pairLine, List.append_assoc, skipLines_bare hk]
  have hhead : pairLine k d ++ rest = c :: (r ++ ' ' :: '=' :: ' ' :: (valueText d ++ ['\n']) ++ rest) := by
    rw [pairLine, hcs]
    rfl
  rw [Draft.lines?, hskip]
  simp only [Option.bind_eq_bind, Option.bind_some]
  split
  · rename_i heq
    rw [hhead] at heq
    cases heq
  · rename_i heq
    rw [hhead, List.cons.injEq] at heq
    exact absurd heq.1 (ne_of_holds hc rfl)
  · rename_i heq
    rw [hhead, List.cons.injEq] at heq
    exact absurd heq.1 (ne_of_holds hc rfl)
  · rw [hpair]
    rfl

theorem exists_pathText_eq_cons (hne : path ≠ []) (hpath : ∀ k ∈ path, Bare k) :
    ∃ c r, pathText path = c :: r ∧ isBareChar c = true := by
  match path with
  | [] => exact absurd rfl hne
  | [k] =>
    rw [pathText_singleton]
    exact (hpath k List.mem_cons_self).exists_cons
  | k :: k' :: path =>
    obtain ⟨c, r, hcs, hc⟩ := (hpath k List.mem_cons_self).exists_cons
    rw [pathText_cons_cons, hcs]
    exact ⟨c, _, rfl, hc⟩

theorem leads_headerLine (h : IsPathTo path plug) (hpath : ∀ k ∈ path, Bare k) (hk : Bare k) (hlength : path.length < maxDepth)
    (hkey : k ∉ es.map Prod.fst) (header : List String) :
    Leads (headerLine (path ++ [k])) ⟨header, plug es⟩ ⟨path ++ [k], plug (es ++ [(k, .table .header [])])⟩ := by
  refine leads_of_line (by simp [headerLine]) fun fuel rest => ?_
  obtain ⟨c, r, hcs, hc⟩ := exists_pathText_eq_cons (by simp) (forall_bare_append_singleton hpath hk)
  have hkeys := key_pathText hpath hk hlength ('\n' :: rest)
  have htext : headerLine (path ++ [k]) ++ rest = '\n' :: '[' :: (pathText (path ++ [k]) ++ ']' :: '\n' :: rest) := by
    rw [headerLine]
    simp only [List.append_assoc, List.cons_append, List.nil_append]
  rw [Draft.lines?, htext, skipLines_lineEnd, skipLines_sign (by decide)]
  simp only [Option.bind_eq_bind, Option.bind_some]
  split
  · cases ‹_›
  · rename_i heq
    rw [hcs, List.cons_append, List.cons.injEq, List.cons.injEq] at heq
    exact absurd heq.2.1 (ne_of_holds hc rfl)
  · rename_i heq
    rw [List.cons.injEq] at heq
    rw [← heq.2, Draft.header?, hkeys]
    simp only [Option.bind_eq_bind, Option.bind_some, h.openTable hkey, lineEnd_newline]
  · rename_i hno
    exact (hno _ rfl).elim

theorem leads_listHeaderLine (h : IsPathTo path plug) (hpath : ∀ k ∈ path, Bare k) (hk : Bare k) (hlength : path.length < maxDepth)
    (hkey : k ∉ es.map Prod.fst) (ts : List Table) (header : List String) :
    Leads (listHeaderLine (path ++ [k])) ⟨header, plug (withTables es k ts)⟩
      ⟨path ++ [k], plug (withTables es k (ts ++ [[]]))⟩ := by
  refine leads_of_line (by simp [listHeaderLine]) fun fuel rest => ?_
  have hkeys := key_pathText hpath hk hlength (']' :: '\n' :: rest)
  have htext : listHeaderLine (path ++ [k]) ++ rest =
      '\n' :: '[' :: '[' :: (pathText (path ++ [k]) ++ ']' :: ']' :: '\n' :: rest) := by
    rw [listHeaderLine]
    simp only [List.append_assoc, List.cons_append, List.nil_append]
  rw [Draft.lines?, htext, skipLines_lineEnd, skipLines_sign (by decide)]
  simp only [Option.bind_eq_bind, Option.bind_some, Draft.listHeader?, hkeys, h.addTable hkey, lineEnd_newline]

/-! ## The lines of a table -/

theorem plainLines_cons_of_plain {d : Data} (h : isSection d = false) (k : String) (ms : List (String × Data)) :
    plainLines ((k, d) :: ms) = pairLine k d ++ plainLines ms := by
  rw [plainLines, if_neg (by simp [h]), pairLine]

theorem plainLines_cons_of_section {d : Data} (h : isSection d = true) (k : String) (ms : List (String × Data)) :
    plainLines ((k, d) :: ms) = plainLines ms := by
  rw [plainLines, if_pos h, List.nil_append]

/-- The lines that are no headers give the open table an entry each. -/
theorem leads_plainLines (h : IsPathTo path plug) (ms : List (String × Data)) (hlegible : LegibleMembers ms)
    (hfits : fitsMembers path.length ms = true) :
    ∀ es : Table, (es.map Prod.fst ++ (plainMembers ms).map Prod.fst).Nodup →
      Leads (plainLines ms) ⟨path, plug es⟩ ⟨path, plug (es ++ valueEntries (plainMembers ms))⟩ := by
  induction ms with
  | nil =>
    intro es _
    rw [plainMembers, List.filter_nil, valueEntries, List.map_nil, List.append_nil]
    exact Leads.refl _
  | cons m ms ih =>
    obtain ⟨k, d⟩ := m
    intro es hkeys
    obtain ⟨hk, hd, hms⟩ := hlegible
    rw [fitsMembers, Bool.and_eq_true] at hfits
    cases hsection : isSection d with
    | true =>
      rw [plainMembers_cons_of_section hsection] at hkeys ⊢
      rw [plainLines_cons_of_section hsection]
      exact ih hms hfits.2 es hkeys
    | false =>
      have hdepth : d.depth ≤ maxDepth := by simpa [hsection] using hfits.1
      rw [plainMembers_cons_of_plain hsection, List.map_cons] at hkeys
      have hkey : k ∉ es.map Prod.fst := Data.notMem_of_nodup_append_cons hkeys
      have hline := leads_pairLine h hk hd hdepth hkey
      have hlines := ih hms hfits.2 (es ++ [(k, .value d)]) (by simpa using hkeys)
      rw [plainLines_cons_of_plain hsection, plainMembers_cons_of_plain hsection]
      simpa [valueEntries] using hline.trans hlines

/-- What the lines of the sections of a record do: they give the open table an entry each. -/
def SectionsLead (path : List String) (plug : Table → Table) (ms : List (String × Data)) : Prop :=
  ∀ (es : Table) (header : List String), (es.map Prod.fst ++ (sectionMembers ms).map Prod.fst).Nodup →
    ∃ header' es', Table.toMembers es' = sectionMembers ms ∧
      Leads (sections path ms) ⟨header, plug es⟩ ⟨header', plug (es ++ es')⟩

/-- The lines below a header make up the table that it opens. -/
theorem leads_table {ms : List (String × Data)} (h : IsPathTo path plug) (hlegible : Legible (.record ms))
    (hfits : fitsMembers path.length ms = true) (hsections : SectionsLead path plug ms) :
    ∃ header es', Table.toMembers es' = plainMembers ms ++ sectionMembers ms ∧
      Leads (plainLines ms ++ sections path ms) ⟨path, plug []⟩ ⟨header, plug es'⟩ := by
  obtain ⟨hnodup, hms⟩ := hlegible
  have hkeys : ((plainMembers ms).map Prod.fst ++ (sectionMembers ms).map Prod.fst).Nodup := by
    rw [← List.map_append]
    exact (keys_arrange_perm ms).nodup_iff.2 hnodup
  have hentries : (valueEntries (plainMembers ms)).map Prod.fst = (plainMembers ms).map Prod.fst := by
    rw [valueEntries, List.map_map]
    rfl
  have hplain := leads_plainLines h ms hms hfits [] (List.nodup_append.1 hkeys).1
  obtain ⟨header, es', hmembers, hleads⟩ := hsections (valueEntries (plainMembers ms)) path (by rw [hentries]; exact hkeys)
  refine ⟨header, valueEntries (plainMembers ms) ++ es', ?_, hplain.trans hleads⟩
  rw [toMembers_append, toMembers_valueEntries, hmembers]

theorem sections_cons_of_plain {d : Data} (h : isSection d = false) (path : List String) (k : String) (ms : List (String × Data)) :
    sections path ((k, d) :: ms) = sections path ms := by
  cases d with
  | record inner => cases h
  | list items => rw [sections, if_neg (by simp [h]), List.nil_append]
  | _ =>
    rw [sections] <;> rintro _ _ ⟨⟩

theorem sections_cons_record (path : List String) (k : String) (inner ms : List (String × Data)) :
    sections path ((k, .record inner) :: ms) =
      headerLine (path ++ [k]) ++ ((plainLines inner ++ sections (path ++ [k]) inner) ++ sections path ms) := by
  rw [sections, headerLine]
  simp only [List.append_assoc, List.cons_append, List.nil_append]

theorem tables_cons_record (path : List String) (inner : List (String × Data)) (ds : List Data) :
    tables path (.record inner :: ds) =
      listHeaderLine path ++ ((plainLines inner ++ sections path inner) ++ tables path ds) := by
  rw [tables, listHeaderLine]
  simp only [List.append_assoc, List.cons_append, List.nil_append]

theorem sectionsLead_nil (path : List String) (plug : Table → Table) : SectionsLead path plug [] := by
  intro es header _
  refine ⟨header, [], rfl, ?_⟩
  rw [sections, List.append_nil]
  exact Leads.refl _

theorem sectionsLead_cons_of_plain {d : Data} {ms : List (String × Data)} (hd : isSection d = false) (k : String)
    (h : SectionsLead path plug ms) : SectionsLead path plug ((k, d) :: ms) := by
  intro es header hkeys
  rw [sectionMembers_cons_of_plain hd] at hkeys ⊢
  rw [sections_cons_of_plain hd]
  exact h es header hkeys

/-- Once the first section is read as an entry, the others are read behind it. -/
theorem sectionsLead_cons {d : Data} {ms : List (String × Data)} (hd : isSection d = true) {text : List Char}
    (htext : sections path ((k, d) :: ms) = text ++ sections path ms) (h : SectionsLead path plug ms)
    (hentry : ∀ (es : Table) (header : List String), k ∉ es.map Prod.fst → ∃ header' n, n.toData = arrange d ∧
      Leads text ⟨header, plug es⟩ ⟨header', plug (es ++ [(k, n)])⟩) : SectionsLead path plug ((k, d) :: ms) := by
  intro es header hkeys
  rw [sectionMembers_cons_of_section hd, List.map_cons] at hkeys
  have hkey : k ∉ es.map Prod.fst := Data.notMem_of_nodup_append_cons hkeys
  obtain ⟨header', n, hn, hleads⟩ := hentry es header hkey
  obtain ⟨header'', es', hmembers, hleads'⟩ := h (es ++ [(k, n)]) header' (by simpa using hkeys)
  refine ⟨header'', (k, n) :: es', ?_, ?_⟩
  · rw [Table.toMembers, hn, hmembers, sectionMembers_cons_of_section hd]
  · rw [htext]
    simpa using hleads.trans hleads'

theorem ne_nil_of_toRecords {ts : List Table} {items : List Data} (h : Table.toRecords ts = arrangeItems items) (hne : items ≠ []) :
    ts ≠ [] := by
  rintro rfl
  cases items with
  | nil => exact hne rfl
  | cons d ds => cases h

mutual

/-- The sections of a record are read as entries of the open table. -/
theorem sectionsLead : ∀ (ms : List (String × Data)) (path : List String) (plug : Table → Table), IsPathTo path plug →
    (∀ k ∈ path, Bare k) → LegibleMembers ms → fitsMembers path.length ms = true → SectionsLead path plug ms
  | [], path, plug, _, _, _, _ => sectionsLead_nil path plug
  | (k, .record inner) :: ms, path, plug, h, hpath, hlegible, hfits => by
    obtain ⟨hk, hinner, hms⟩ := hlegible
    simp only [fitsMembers, isSection, fits, if_true, Bool.and_eq_true, decide_eq_true_eq] at hfits
    obtain ⟨⟨hlength, hfits⟩, hfits'⟩ := hfits
    have hpath' := forall_bare_append_singleton hpath hk
    have hmore := sectionsLead ms path plug h hpath hms hfits'
    refine sectionsLead_cons rfl (by rw [sections_cons_record, ← List.append_assoc]) hmore fun es header hkey => ?_
    -- what the header opens is read while the table around it waits
    have hinside := h.table hkey
    have hfits : fitsMembers (path ++ [k]).length inner = true := by
      rw [List.length_append, List.length_singleton]
      exact hfits
    have hsections := sectionsLead inner (path ++ [k]) _ hinside hpath' hinner.2 hfits
    obtain ⟨header', es', hmembers, hleads⟩ := leads_table hinside hinner hfits hsections
    refine ⟨header', .table .header es', ?_, (leads_headerLine h hpath hk (by omega) hkey header).trans hleads⟩
    rw [Node.toData, hmembers, arrange]
  | (k, .list items) :: ms, path, plug, h, hpath, hlegible, hfits => by
    obtain ⟨hk, hitems, hms⟩ := hlegible
    rw [fitsMembers, Bool.and_eq_true] at hfits
    have hmore := sectionsLead ms path plug h hpath hms hfits.2
    cases hsection : isSection (.list items) with
    | false => exact sectionsLead_cons_of_plain hsection k hmore
    | true =>
      have hfits := hfits.1
      rw [if_pos hsection, fits] at hfits
      have hlist := hsection
      simp only [isSection, Bool.and_eq_true, Bool.not_eq_true', List.isEmpty_eq_false_iff] at hlist
      obtain ⟨hne, hall⟩ := hlist
      refine sectionsLead_cons hsection (by rw [sections, if_pos hsection]) hmore fun es header hkey => ?_
      obtain ⟨header', ts, hrecords, hleads⟩ :=
        leads_tables items path plug k es [] header h hpath hk hitems hall hfits hkey
      refine ⟨header', .tables ts, by rw [Node.toData, hrecords, arrange], ?_⟩
      rw [withTables, List.nil_append, withTables_of_ne_nil (ne_nil_of_toRecords hrecords hne)] at hleads
      exact hleads
  | (k, .null) :: ms, path, plug, h, hpath, hlegible, hfits | (k, .bool _) :: ms, path, plug, h, hpath, hlegible, hfits
  | (k, .int _) :: ms, path, plug, h, hpath, hlegible, hfits | (k, .float _) :: ms, path, plug, h, hpath, hlegible, hfits
  | (k, .string _) :: ms, path, plug, h, hpath, hlegible, hfits
  | (k, .unreadable) :: ms, path, plug, h, hpath, hlegible, hfits
  | (k, .invalid) :: ms, path, plug, h, hpath, hlegible, hfits => by
    rw [fitsMembers, Bool.and_eq_true] at hfits
    exact sectionsLead_cons_of_plain rfl k (sectionsLead ms path plug h hpath hlegible.2.2 hfits.2)

/-- The tables of a list are read one after the other. -/
theorem leads_tables : ∀ (items : List Data) (path : List String) (plug : Table → Table) (k : String) (es : Table)
    (done : List Table) (header : List String), IsPathTo path plug → (∀ k ∈ path, Bare k) → Bare k → LegibleItems items →
    items.all isRecord = true → fitsItems (path.length + 1) items = true → k ∉ es.map Prod.fst →
    ∃ header' ts, Table.toRecords ts = arrangeItems items ∧
      Leads (tables (path ++ [k]) items) ⟨header, plug (withTables es k done)⟩ ⟨header', plug (withTables es k (done ++ ts))⟩
  | [], path, plug, k, es, done, header, _, _, _, _, _, _, _ => by
    refine ⟨header, [], rfl, ?_⟩
    rw [tables, List.append_nil]
    exact Leads.refl _
  | .record inner :: ds, path, plug, k, es, done, header, h, hpath, hk, hlegible, hrecords, hfits, hkey => by
    obtain ⟨hinner, hds⟩ := hlegible
    simp only [fitsItems, fits, Bool.and_eq_true, decide_eq_true_eq] at hfits
    obtain ⟨⟨hlength, hfits⟩, hfits'⟩ := hfits
    have hpath' := forall_bare_append_singleton hpath hk
    have hfits : fitsMembers (path ++ [k]).length inner = true := by
      rw [List.length_append, List.length_singleton]
      exact hfits
    -- the tables that are done wait with the table around them
    have hinside := h.tables hkey done
    have hsections := sectionsLead inner (path ++ [k]) _ hinside hpath' hinner.2 hfits
    obtain ⟨header', t, hmembers, hleads⟩ := leads_table hinside hinner hfits hsections
    have hheader := leads_listHeaderLine h hpath hk (by omega) hkey done header
    rw [List.all_cons, Bool.and_eq_true] at hrecords
    obtain ⟨header'', ts, hts, hleads'⟩ :=
      leads_tables ds path plug k es (done ++ [t]) header' h hpath hk hds hrecords.2 hfits' hkey
    refine ⟨header'', t :: ts, ?_, ?_⟩
    · rw [Table.toRecords, hmembers, hts, arrangeItems, arrange]
    · rw [tables_cons_record]
      rw [withTables_append_singleton] at hheader hleads'
      simpa using hheader.trans (hleads.trans hleads')
  | .null :: _, _, _, _, _, _, _, _, _, _, _, hrecords, _, _ | .bool _ :: _, _, _, _, _, _, _, _, _, _, _, hrecords, _, _
  | .int _ :: _, _, _, _, _, _, _, _, _, _, _, hrecords, _, _ | .float _ :: _, _, _, _, _, _, _, _, _, _, _, hrecords, _, _
  | .string _ :: _, _, _, _, _, _, _, _, _, _, _, hrecords, _, _ | .list _ :: _, _, _, _, _, _, _, _, _, _, _, hrecords, _, _
  | .unreadable :: _, _, _, _, _, _, _, _, _, _, _, hrecords, _, _
  | .invalid :: _, _, _, _, _, _, _, _, _, _, _, hrecords, _, _ => by
    simp [isRecord] at hrecords

end

/-! ## The whole document -/

/-- A text that does not begin with a byte-order mark. -/
def Unmarked (cs : List Char) : Prop :=
  ∀ c r, cs = c :: r → c.toNat ≠ 0xFEFF

theorem unmarked_nil : Unmarked [] := by
  rintro _ _ ⟨⟩

theorem unmarked_cons {c : Char} (h : c.toNat ≠ 0xFEFF) (r : List Char) : Unmarked (c :: r) := by
  rintro _ _ ⟨⟩
  exact h

theorem Unmarked.append {xs ys : List Char} (hx : Unmarked xs) (hy : Unmarked ys) : Unmarked (xs ++ ys) := by
  cases xs with
  | nil => exact hy
  | cons x xs => exact unmarked_cons (hx x xs rfl) _

theorem Unmarked.skipMark_eq {cs : List Char} (h : Unmarked cs) : skipMark cs = cs := by
  cases cs with
  | nil => rfl
  | cons c r => rw [skipMark, if_neg (h c r rfl)]

theorem unmarked_plainLines {ms : List (String × Data)} (h : LegibleMembers ms) : Unmarked (plainLines ms) := by
  induction ms with
  | nil => exact unmarked_nil
  | cons m ms ih =>
    obtain ⟨k, d⟩ := m
    obtain ⟨hk, -, hms⟩ := h
    cases hsection : isSection d with
    | true =>
      rw [plainLines_cons_of_section hsection]
      exact ih hms
    | false =>
      obtain ⟨c, r, hcs, hc⟩ := hk.exists_cons
      have hmark : c.toNat ≠ 0xFEFF := by
        intro hc'
        have hchar : c = Char.ofNat 0xFEFF := by rw [← hc', Char.ofNat_toNat]
        exact absurd hc (hchar ▸ by decide)
      rw [plainLines_cons_of_plain hsection, pairLine, hcs]
      exact unmarked_cons hmark _

theorem unmarked_tables (path : List String) (items : List Data) : Unmarked (tables path items) := by
  induction items with
  | nil =>
    rw [tables]
    exact unmarked_nil
  | cons d ds ih =>
    cases d with
    | record inner =>
      rw [tables_cons_record]
      exact unmarked_cons (by decide) _
    | _ =>
      rw [tables]
      · exact ih
      · rintro _ ⟨⟩

theorem unmarked_sections (path : List String) (ms : List (String × Data)) : Unmarked (sections path ms) := by
  induction ms with
  | nil =>
    rw [sections]
    exact unmarked_nil
  | cons m ms ih =>
    obtain ⟨k, d⟩ := m
    cases d with
    | record inner =>
      rw [sections_cons_record]
      exact unmarked_cons (by decide) _
    | list items =>
      rw [sections]
      split
      · exact (unmarked_tables _ items).append ih
      · exact ih
    | _ =>
      rw [sections_cons_of_plain rfl]
      exact ih

/-- A record is read back from its document, with the members of each table in the order the document has them. -/
theorem read?_print {ms : List (String × Data)} (hlegible : Legible (.record ms)) (hfits : fits 0 (.record ms) = true) :
    read? (print (.record ms)) = some (arrange (.record ms)) := by
  rw [fits, Bool.and_eq_true] at hfits
  have hsections := sectionsLead ms [] id isPathTo_root (List.forall_mem_nil _) hlegible.2 hfits.2
  obtain ⟨header, es, hmembers, n, hn, hlines⟩ := leads_table isPathTo_root hlegible hfits.2 hsections
  have hmark : skipMark (document (.record ms)) = document (.record ms) :=
    ((unmarked_plainLines hlegible.2).append (unmarked_sections [] ms)).skipMark_eq
  have hdraft : Draft.lines? {} ((document (.record ms)).length + 1) (document (.record ms)) = some ⟨header, es⟩ := by
    obtain ⟨fuel, hfuel⟩ : ∃ fuel, (document (.record ms)).length + 1 = n + (fuel + 1) :=
      ⟨(document (.record ms)).length - n, by rw [document]; omega⟩
    rw [hfuel, ← List.append_nil (document (.record ms)), document]
    exact hlines (fuel + 1) []
  rw [read?, print, String.toList_ofList]
  simp only [hmark, hdraft, Option.map_some, hmembers, arrange]

end SearchRules.Toml
