import SearchRules.Proofs.CommandLine.Effects
import SearchRules.Proofs.Data.Decode
import SearchRules.Proofs.Toml.RoundTrip

/-!
# Configurations read back

A configuration is read back from the document it is written as. The document has the settings in an order of its own: an escape set
of one's own and the highlight settings are tables, and so is a mapping of branches only, and they stand behind the other settings.
-/

namespace SearchRules

open Toml (Legible isSection arrange fits)

/-! ## Mappings -/

mutual

theorem PathNode.ofData?_toData : ∀ n : PathNode, PathNode.ofData? n.toData = some n
  | .leaf path => rfl
  | .branch path children => by
    have hfield : PathNode.ofField? (.list (PathNode.forestData children)) = some children := by
      rw [PathNode.ofField?, PathNode.forest?_forestData children]
    simp [PathNode.toData, PathNode.ofData?, PathNode.ofMembers?, Data.string?, hfield]

/-- A forest is read back from its data: a leaf is written as a string, a branch as a record. -/
theorem PathNode.forest?_forestData : ∀ ns : List PathNode, PathNode.forest? (PathNode.forestData ns) = some ns
  | [] => rfl
  | n :: ns => by
    rw [PathNode.forestData, PathNode.forest?, PathNode.ofData?_toData n, PathNode.forest?_forestData ns]
    rfl

end

mutual

theorem PathNode.legible_toData : ∀ n : PathNode, Legible n.toData
  | .leaf _ => trivial
  | .branch path children => by
    have hchildren : Legible (.list (PathNode.forestData children)) := PathNode.legible_forestData children
    have hbare : ∀ k ∈ ["path", "children"], Toml.Bare k := by decide
    have hnodup : ["path", "children"].Nodup := by decide
    rw [PathNode.toData, Legible, Toml.legibleMembers_iff, List.forall_mem_cons, List.forall_mem_singleton]
    exact ⟨hnodup, hbare, trivial, hchildren⟩

theorem PathNode.legible_forestData : ∀ ns : List PathNode, Toml.LegibleItems (PathNode.forestData ns)
  | [] => trivial
  | n :: ns => ⟨PathNode.legible_toData n, PathNode.legible_forestData ns⟩

end

mutual

/-- The path of a branch has a line of its own and comes first, so the tables of a mapping are in order. -/
theorem PathNode.arrange_toData : ∀ n : PathNode, arrange n.toData = n.toData
  | .leaf _ => rfl
  | .branch path children => by
    have hchildren := PathNode.arrangeItems_forestData children
    rw [PathNode.toData, arrange]
    cases hsection : isSection (.list (PathNode.forestData children)) with
    | true =>
      rw [Toml.plainMembers_cons_of_plain rfl, Toml.plainMembers_cons_of_section hsection, Toml.sectionMembers_cons_of_plain rfl,
        Toml.sectionMembers_cons_of_section hsection, arrange, hchildren]
      rfl
    | false =>
      rw [Toml.plainMembers_cons_of_plain rfl, Toml.plainMembers_cons_of_plain hsection, Toml.sectionMembers_cons_of_plain rfl,
        Toml.sectionMembers_cons_of_plain hsection]
      rfl

theorem PathNode.arrangeItems_forestData : ∀ ns : List PathNode,
    Toml.arrangeItems (PathNode.forestData ns) = PathNode.forestData ns
  | [] => rfl
  | n :: ns => by
    rw [PathNode.forestData, Toml.arrangeItems, PathNode.arrange_toData n, PathNode.arrangeItems_forestData ns]

end

/-! ## Escape sets and highlighting -/

theorem isSection_strings (ss : List String) : isSection (Data.strings ss) = false := by
  cases ss <;> rfl

theorem depth_strings (ss : List String) : (Data.strings ss).depth = 1 := by
  have hitems : Data.depthOfItems (ss.map Data.string) = 0 := by
    induction ss with
    | nil => rfl
    | cons s ss ih =>
      rw [List.map_cons, Data.depthOfItems, ih]
      rfl
  rw [Data.strings, Data.depth, hitems]

namespace EscapeSet

theorem toData_custom (cs : List Char) : (custom cs).toData = .record [("custom", Data.strings (cs.map Char.toString))] := by
  rw [toData, Data.strings, List.map_map]
  rfl

theorem ofData?_toData (convention : Data.Convention) (e : EscapeSet) : EscapeSet.ofData? convention e.toData = some e := by
  cases e with
  | broad => rfl
  | narrow => rfl
  | custom cs =>
    have hchar : ∀ c : Char, Data.char? (.string c.toString) = some c := by
      intro c
      simp [Data.char?]
    have hchars := Data.list?_map (fun c : Char => Data.string c.toString) hchar cs
    rw [toData, ofData?, hchars, Option.map_some]

theorem legible_toData (e : EscapeSet) : Legible e.toData := by
  cases e with
  | broad => trivial
  | narrow => trivial
  | custom cs =>
    have hnodup : ["custom"].Nodup := by decide
    rw [toData_custom]
    exact ⟨hnodup, by decide, Toml.legible_strings _, trivial⟩

theorem depth_toData_le (e : EscapeSet) : e.toData.depth ≤ 2 := by
  cases e with
  | broad => exact Nat.zero_le 2
  | narrow => exact Nat.zero_le 2
  | custom cs =>
    rw [toData_custom, Data.depth, Data.depthOfMembers, depth_strings]
    exact Nat.le_refl 2

theorem arrange_toData (e : EscapeSet) : arrange e.toData = e.toData := by
  cases e with
  | broad => rfl
  | narrow => rfl
  | custom cs =>
    rw [toData_custom]
    exact Toml.arrange_record_of_plain (List.forall_mem_singleton.2 (isSection_strings _))

end EscapeSet

theorem HighlightStrategy.constant?_name (convention : Data.Convention) (strategy : HighlightStrategy) :
    Data.constant? convention constants (.string strategy.name) = some strategy := by
  cases strategy <;> rfl

namespace HighlightConfig

theorem nodup_keys : keys.Nodup := by
  decide

theorem ofData?_toData (c : HighlightConfig) : HighlightConfig.ofData? .toml c.toData = some c := by
  rw [ofData?, toData, Data.members?_record ?_ nodup_keys]
  · simp [Data.field?, List.lookup_cons, HighlightStrategy.constant?_name, Data.string?, Data.list?_strings, Data.uint32?_int]
  · exact List.Sublist.refl keys

theorem legible_toData (c : HighlightConfig) : Legible c.toData := by
  have hbare : ∀ k ∈ keys, Toml.Bare k := by decide
  rw [toData, Legible, Toml.legibleMembers_iff]
  refine ⟨nodup_keys, hbare, ?_⟩
  simp only [List.forall_mem_cons]
  exact ⟨trivial, Toml.legible_strings _, Toml.legible_strings _, trivial, Toml.legible_uint32 _, Toml.legible_uint32 _, trivial,
    List.forall_mem_nil _⟩

theorem depth_toData (c : HighlightConfig) : c.toData.depth = 2 := by
  rw [toData]
  simp only [Data.depth, Data.depthOfMembers, depth_strings]
  rfl

theorem arrange_toData (c : HighlightConfig) : arrange c.toData = c.toData := by
  refine Toml.arrange_record_of_plain ?_
  simp only [List.forall_mem_cons]
  exact ⟨rfl, isSection_strings _, isSection_strings _, rfl, rfl, rfl, rfl, List.forall_mem_nil _⟩

end HighlightConfig

/-! ## Configurations -/

theorem ClauseStyle.constant?_name (convention : Data.Convention) (style : ClauseStyle) :
    Data.constant? convention constants (.string style.name) = some style := by
  cases style <;> rfl

theorem TermKey.constant?_name (convention : Data.Convention) (key : TermKey) :
    Data.constant? convention constants (.string key.name) = some key := by
  cases key <;> rfl

theorem XorStrategy.constant?_name (convention : Data.Convention) (strategy : XorStrategy) :
    Data.constant? convention constants (.string strategy.name) = some strategy := by
  cases strategy <;> rfl

namespace Config

/-- The settings as the members of a record. -/
def members (c : Config) : List (String × Data) :=
  match c.toData with
  | .record ms => ms
  | _ => []

theorem toData_eq_record (c : Config) : c.toData = .record c.members := rfl

theorem keys_members (c : Config) : c.members.map Prod.fst = keys := rfl

theorem nodup_keys : keys.Nodup := by
  decide

/-- The mapping as a document of its own. -/
def mappingData (c : Config) : Data :=
  .record [("mapping", .list (PathNode.forestData c.mapping))]

theorem legible_toData (c : Config) (hdistance : Toml.ReadsBack c.maxDistanceKm) : Legible c.toData := by
  have hbare : ∀ k ∈ keys, Toml.Bare k := by decide
  rw [toData_eq_record, Legible, Toml.legibleMembers_iff, keys_members]
  refine ⟨nodup_keys, hbare, ?_⟩
  simp only [members, toData, List.forall_mem_cons]
  exact ⟨trivial, Toml.legible_uint64 _, Toml.legible_strings _, trivial, trivial, trivial, c.escape.legible_toData, trivial,
    trivial, trivial, hdistance, trivial, PathNode.legible_forestData c.mapping, c.highlight.legible_toData, List.forall_mem_nil _⟩

/-- Only the mapping can go too deep. -/
theorem fits_toData (c : Config) (hmapping : fits 0 c.mappingData = true) : fits 0 c.toData = true := by
  have hshallow : ∀ (k : String) (d : Data), d.depth ≤ 2 → Toml.fitsMembers 0 [(k, d)] = true := by
    intro k d hd
    refine Toml.fitsMembers_of_depth_le [(k, d)] 0 ?_
    rw [Toml.maxDepth, Data.depthOfMembers, Data.depthOfMembers]
    omega
  have hleaf : ∀ (k : String) (d : Data), d.depth = 0 → Toml.fitsMembers 0 [(k, d)] = true :=
    fun k d hd => hshallow k d (by omega)
  have hfits : ∀ m ∈ c.members, Toml.fitsMembers 0 [m] = true := by
    simp only [members, toData, List.forall_mem_cons]
    exact ⟨hleaf _ _ rfl, hleaf _ _ rfl, hshallow _ _ (by rw [depth_strings]; omega), hleaf _ _ rfl, hleaf _ _ rfl, hleaf _ _ rfl,
      hshallow _ _ c.escape.depth_toData_le, hleaf _ _ rfl, hleaf _ _ rfl, hleaf _ _ rfl, hleaf _ _ rfl, hleaf _ _ rfl,
      hmapping, hshallow _ _ (Nat.le_of_eq c.highlight.depth_toData), List.forall_mem_nil _⟩
  rw [toData_eq_record, fits, Toml.fitsMembers_iff 0 c.members |>.2 hfits]
  rfl

/-- Each setting that is a table or a list of tables has its own members in order. -/
theorem arrange_of_mem_members (c : Config) : ∀ m ∈ c.members, isSection m.2 = true → arrange m.2 = m.2 := by
  have hmapping : arrange (.list (PathNode.forestData c.mapping)) = .list (PathNode.forestData c.mapping) := by
    rw [arrange, PathNode.arrangeItems_forestData]
  simp only [members, toData, List.forall_mem_cons]
  exact ⟨fun _ => rfl, fun _ => rfl, fun h => absurd h (by simp [isSection_strings]), fun _ => rfl, fun _ => rfl, fun _ => rfl,
    fun _ => c.escape.arrange_toData, fun _ => rfl, fun _ => rfl, fun _ => rfl, fun _ => rfl, fun _ => rfl, fun _ => hmapping,
    fun _ => c.highlight.arrange_toData, List.forall_mem_nil _⟩

/-- The settings are read back from their members in whatever order a document has them. -/
theorem ofData?_arrange (c : Config) : ofData? .toml (arrange c.toData) = some c := by
  have hperm : ((Toml.plainMembers c.members ++ Toml.sectionMembers c.members).map Prod.fst).Perm keys :=
    Toml.keys_arrange_perm c.members
  have hnodup := hperm.nodup_iff.2 nodup_keys
  have hfield : ∀ {α : Type} {key : String} {d : Data} (n : Nat) (dflt : α) (read : Data → Option α),
      c.members[n]? = some (key, d) →
      Data.field? key dflt read (Toml.plainMembers c.members ++ Toml.sectionMembers c.members) = read d := by
    intro α key d n dflt read hn
    have hmem := List.mem_of_getElem? hn
    exact Data.field?_of_mem hnodup (Toml.mem_arrange hmem (c.arrange_of_mem_members _ hmem)) dflt read
  have hmapping : PathNode.ofField? (.list (PathNode.forestData c.mapping)) = some c.mapping := by
    rw [PathNode.ofField?, PathNode.forest?_forestData]
  rw [toData_eq_record, arrange, ofData?, Data.members?_of_nodup hperm.subset hnodup, Option.bind_eq_bind, Option.bind_some]
  -- no default is looked at, so none is worked out
  extract_lets dflt
  clear_value dflt
  rw [hfield 0 _ _ rfl, hfield 1 _ _ rfl, hfield 2 _ _ rfl, hfield 3 _ _ rfl, hfield 4 _ _ rfl, hfield 5 _ _ rfl,
    hfield 6 _ _ rfl, hfield 7 _ _ rfl, hfield 8 _ _ rfl, hfield 9 _ _ rfl, hfield 10 _ _ rfl, hfield 11 _ _ rfl,
    hfield 12 _ _ rfl, hfield 13 _ _ rfl]
  rw [Data.uint64?_int, Data.list?_strings, ClauseStyle.constant?_name, TermKey.constant?_name, EscapeSet.ofData?_toData,
    XorStrategy.constant?_name, hmapping, HighlightConfig.ofData?_toData]
  rfl

end Config

/-- Whether a run is asked to show the configuration a file holds. -/
def CommandLine.Run.Shows (r : Run) (file : String) : Prop :=
  ∃ verbose, parse r.environment r.args = .ok ⟨some file, verbose, .showConfig⟩

/-- Showing the configuration of a file prints its document and changes nothing. -/
theorem CommandLine.Run.Shows.execute_eq {r : Run} {d : Directory} {file text : String} {c : Config} (hr : r.Shows file)
    (htext : d.readText file = .ok text) (hc : Config.read text = .ok c) : ∃ i, r.execute d = (d, ⟨.ok i, c.print⟩) := by
  obtain ⟨verbose, hparse⟩ := hr
  have htext : (d.surroundings r.input).readText file = .ok text := htext
  have hconfig : (d.surroundings r.input).config (some file) = .ok c := by
    rw [Surroundings.config, Surroundings.fileText, htext]
    show (Config.read text).mapError _ = .ok c
    rw [hc]
    rfl
  have hperform : (d.surroundings r.input).perform ⟨some file, verbose, .showConfig⟩ = .ok (.print c.print) := by
    rw [Surroundings.perform]
    simp only [hconfig, bind, Except.bind]
  refine ⟨⟨some file, verbose, .showConfig⟩, ?_⟩
  rw [execute, hparse]
  simp only [hperform, Directory.deliver, Except.map]

namespace Config

/-- A configuration that makes usable documents is read back from its document, if its distance is read back from its text and its
mapping goes no deeper than the reader follows. So a run that shows the configuration of a file prints a text that stands for the
same configuration, and a run that shows that text prints it again. -/
theorem read_print (c : Config) (hvalid : c.validate = .ok ()) (hdistance : Toml.ReadsBack c.maxDistanceKm)
    (hmapping : fits 0 c.mappingData = true) :
    read c.print = .ok c ∧
      ∀ (r r' : CommandLine.Run) (d d' : CommandLine.Directory) (file file' text : String),
        r.Shows file → d.readText file = .ok text → read text = .ok c →
        r'.Shows file' → d'.readText file' = .ok c.print →
        (∃ i, r.execute d = (d, ⟨.ok i, c.print⟩)) ∧ ∃ i, r'.execute d' = (d', ⟨.ok i, c.print⟩) := by
  have hdocument : Toml.read? c.print = some (arrange c.toData) :=
    Toml.read?_print (c.legible_toData hdistance) (c.fits_toData hmapping)
  have hread : read c.print = .ok c := by
    rw [read, hdocument, Option.bind_some, ofData?_arrange]
    simp only [hvalid, bind, Except.bind]
  refine ⟨hread, fun r r' d d' file file' text hr htext hc hr' htext' => ?_⟩
  exact ⟨hr.execute_eq htext hc, hr'.execute_eq htext' hread⟩

/-- An escape set of quotes, backslashes and control characters, and a mapping some of whose branches have tables and some stand
next to leaves. A run that shows the document of this configuration prints it again. -/
theorem read_print_mixed_mapping :
    let c : Config := {
      index := "'\n\""
      defaultSize := 18446744073709551615
      escape := .custom ['"', '\'', '\\', '\n', Char.ofNat 7]
      maxDistanceKm := .finite ⟨false, 0x4004000000000000, by decide⟩
      mapping := [.branch "a" [.leaf "a.b", .branch "a.c" [.branch "a.c.d" []]], .branch "e" [.branch "e.f" [.leaf "e.f.g"]]]
      highlight := { strategy := .usedFields, preTags := [], postTags := ["\"\"\"", "\t"] } }
    let r : CommandLine.Run := { args := ["config", "show", "--config", "c"] }
    let d : CommandLine.Directory := { files := [(["c"], c.print.toUTF8)] }
    read c.print = .ok c ∧ ∃ i, r.execute d = (d, ⟨.ok i, c.print⟩) := by
  intro c r d
  obtain ⟨hread, hshow⟩ := read_print c (by simp only [c]; rfl) (by decide +kernel) (by decide)
  have hr : r.Shows "c" := ⟨false, by rfl⟩
  have htext : d.readText "c" = .ok c.print := CommandLine.Directory.readText_name c.print
  exact ⟨hread, (hshow r r d d "c" "c" c.print hr htext hread hr htext).1⟩

end Config

end SearchRules
