import SearchRules.CommandLine.Directory
import SearchRules.Proofs.Composition.Run

/-!
# The files that paths name

Which file a path names can be said without the directory: its parts are followed one by one, from the root or from the home
(`placeOf`). The directory says whether the path leads there (`Directory.Reaches`). What is read under a path is what the file at its
place holds (`readText_eq_ok_iff`), what is written under it is put at its place (`writeText_eq_ok_iff`), and from there it is read back
under every path that names the place (`Wrote.readText_eq`).
-/

namespace SearchRules.CommandLine

/-- Where a part of a path leads from a place. -/
def stepTo (place : Place) (part : String) : Place :=
  if isIdle part then place else if part = ".." then place.dropLast else place ++ [part]

/-- The place a path names to those whose home is a given place. -/
def placeOf (home : Place) (path : String) : Place :=
  (path.splitToList (· == '/')).foldl stepTo (if path.startsWith "/" then [] else home)

theorem textOf_eq_ok {content : ByteArray} {text : String} : textOf content = .ok text ↔ content = text.toUTF8 := by
  rw [textOf, String.fromUTF8?]
  constructor
  · intro h
    split at h
    · rename_i hsome
      split at hsome
      · cases hsome
        cases h
        rfl
      · cases hsome
    · cases h
  · rintro rfl
    rw [String.toUTF8_eq_toByteArray, dif_pos text.isValidUTF8]
    rfl

namespace Directory

variable {d d' : Directory} {path text : String} {place : Place}

/-- The bytes of the file at a place. -/
def bytesAt (d : Directory) (place : Place) : Option ByteArray :=
  d.files.lookup place

/-- Whether a part of a path leads from a folder to a folder. -/
def Enters (d : Directory) (folder : Place) (part : String) : Prop :=
  isIdle part = true ∨ part = ".." ∨ part.utf8ByteSize ≤ maxNameBytes ∧ d.hasFolder (folder ++ [part]) = true

/-- Whether a part of a path names what is not a folder. -/
def Names (d : Directory) (folder : Place) (part : String) : Prop :=
  ¬isIdle part = true ∧ part ≠ ".." ∧ part.utf8ByteSize ≤ maxNameBytes ∧ ¬d.hasFolder (folder ++ [part]) = true

instance (folder : Place) (part : String) : Decidable (d.Enters folder part) :=
  inferInstanceAs (Decidable (_ ∨ _ ∨ _))

instance (folder : Place) (part : String) : Decidable (d.Names folder part) :=
  inferInstanceAs (Decidable (_ ∧ _ ∧ _ ∧ _))

/-- Parts of a path that lead from a folder to what is not a folder: the last one names it, and all before enter folders. -/
inductive Leads (d : Directory) : Place → List String → Prop where
  | name {folder : Place} {part : String} : d.Names folder part → d.Leads folder [part]
  | into {folder : Place} {part : String} {rest : List String} :
      d.Enters folder part → d.Leads (stepTo folder part) rest → d.Leads folder (part :: rest)

/-- A path that leads to a file, or to where a file may be. -/
def Reaches (d : Directory) (path : String) : Prop :=
  Char.ofNat 0 ∉ path.toList ∧ path.utf8ByteSize ≤ maxPathBytes ∧ d.Leads (d.start path) (path.splitToList (· == '/'))

/-- The file that a path names holds a text, and the system lets it be read. -/
def Holds (d : Directory) (path text : String) : Prop :=
  d.Reaches path ∧ d.refusal .read (placeOf d.home path) = none ∧ d.bytesAt (placeOf d.home path) = some text.toUTF8

/-- A path names a file, or where one may be, that the system lets be written. -/
def Writable (d : Directory) (path : String) : Prop :=
  d.Reaches path ∧ path.endsWith "/" = false ∧ d.refusal .write (placeOf d.home path) = none

/-- A text has been written to the file that a path names, and nothing else has changed. -/
def Wrote (d d' : Directory) (path text : String) : Prop :=
  d.Writable path ∧ d' = { d with files := d'.files } ∧
    ∀ p, d'.bytesAt p = if p = placeOf d.home path then some text.toUTF8 else d.bytesAt p

/-! ## What a path leads to -/

/-- What is found at a place where there is no folder. -/
def targetAt (d : Directory) (place : Place) : Target :=
  match d.bytesAt place with
  | some content => .file place content
  | none => .absent place

theorem targetAt_ne_folder : d.targetAt place ≠ .folder := by
  unfold targetAt
  split <;> nofun

theorem file_eq_targetAt {p : Place} {content : ByteArray} :
    .file p content = d.targetAt place ↔ p = place ∧ d.bytesAt place = some content := by
  unfold targetAt
  cases d.bytesAt place <;> simp [eq_comm]

theorem absent_eq_targetAt {p : Place} : .absent p = d.targetAt place ↔ p = place ∧ d.bytesAt place = none := by
  unfold targetAt
  cases d.bytesAt place <;> simp

/-- A walk goes on behind a folder only. -/
theorem walk_cons_eq_ok {folder : Place} {part : String} {rest : List String} {t : Target} :
    d.walk folder (part :: rest) = .ok t ↔
      d.Enters folder part ∧ d.walk (stepTo folder part) rest = .ok t ∨
        d.Names folder part ∧ rest = [] ∧ t = d.targetAt (stepTo folder part) := by
  rw [walk, Enters, Names, stepTo]
  by_cases hidle : isIdle part = true
  · simp [hidle]
  by_cases hup : part = ".."
  · subst hup
    simp [hidle]
  by_cases hlong : maxNameBytes < part.utf8ByteSize
  · simp [hidle, hup, hlong, Nat.not_le.2 hlong]
  by_cases hfolder : d.hasFolder (folder ++ [part]) = true
  · simp [hidle, hup, hlong, hfolder, Nat.not_lt.1 hlong]
  simp only [hidle, hup, hlong, hfolder, Nat.not_lt.1 hlong, targetAt, bytesAt]
  cases hfile : d.files.lookup (folder ++ [part]) <;> cases rest <;> simp [hfile, hup, eq_comm]

/-- A walk that does not end in a folder is one along parts that lead elsewhere, and ends where they lead when followed blindly. -/
theorem walk_eq_ok_iff {parts : List String} {folder : Place} {t : Target} (ht : t ≠ .folder) :
    d.walk folder parts = .ok t ↔ d.Leads folder parts ∧ t = d.targetAt (parts.foldl stepTo folder) := by
  constructor
  · intro h
    induction parts generalizing folder with
    | nil =>
      cases h
      exact absurd rfl ht
    | cons part rest ih =>
      rcases walk_cons_eq_ok.1 h with ⟨henters, h⟩ | ⟨hnames, rfl, rfl⟩
      · obtain ⟨hleads, rfl⟩ := ih h
        exact ⟨.into henters hleads, rfl⟩
      · exact ⟨.name hnames, rfl⟩
  · rintro ⟨hleads, rfl⟩
    induction hleads with
    | name hnames => exact walk_cons_eq_ok.2 (.inr ⟨hnames, rfl, rfl⟩)
    | into henters _ ih => exact walk_cons_eq_ok.2 (.inl ⟨henters, ih ht⟩)

theorem find_eq_ok_iff {t : Target} (ht : t ≠ .folder) :
    d.find path = .ok t ↔ d.Reaches path ∧ t = d.targetAt (placeOf d.home path) := by
  rw [find, pathParts, Reaches]
  by_cases hchar : Char.ofNat 0 ∈ path.toList
  · simp [hchar, bind, Except.bind]
  by_cases hlong : maxPathBytes < path.utf8ByteSize
  · simp [hchar, hlong, Nat.not_le.2 hlong, bind, Except.bind]
  · have hwalk : d.walk (d.start path) (path.splitToList (· == '/')) = .ok t ↔ _ := walk_eq_ok_iff ht
    simpa [hchar, hlong, Nat.not_lt.1 hlong, bind, Except.bind, placeOf, start] using hwalk

/-- Only a path without a slash at the end leads to where a file can be written. -/
theorem findToWrite_eq_ok_iff {t : Target} (ht : t ≠ .folder) :
    d.findToWrite path = .ok t ↔ d.find path = .ok t ∧ path.endsWith "/" = false := by
  rw [findToWrite]
  cases hslash : path.endsWith "/" with
  | false => simp
  | true =>
    cases hparts : pathParts path with
    | error e => simp [bind, Except.bind]
    | ok parts =>
      simp only [bind, Except.bind, if_true, and_false, iff_false, reduceCtorEq]
      intro h
      split at h
      · cases h
        exact ht rfl
      · split at h
        · cases h
        · split at h
          · cases h
            exact ht rfl
          · cases h
          · cases h

/-- What may be a name: one part of a path that leads to a folder or a file in the folder it is looked up in. -/
structure IsName (name : String) : Prop where
  parts : name.splitToList (· == '/') = [name]
  noSlash : name.startsWith "/" = false
  noNul : Char.ofNat 0 ∉ name.toList
  short : name.utf8ByteSize ≤ maxNameBytes
  leads : ¬isIdle name = true ∧ name ≠ ".."

/-- A name names what has it in the home. -/
theorem IsName.placeOf_eq {name : String} (h : IsName name) (home : Place) : placeOf home name = home ++ [name] := by
  rw [placeOf, h.parts, h.noSlash, List.foldl_cons, List.foldl_nil, stepTo, if_neg h.leads.1, if_neg h.leads.2, if_neg Bool.false_ne_true]

theorem IsName.reaches {name : String} (h : IsName name) (hfolder : ¬d.hasFolder (d.home ++ [name]) = true) : d.Reaches name := by
  refine ⟨h.noNul, Nat.le_trans h.short (by decide), ?_⟩
  rw [h.parts, start, h.noSlash, if_neg Bool.false_ne_true]
  exact .name ⟨h.leads.1, h.leads.2, h.short, hfolder⟩

/-! ## Reading -/

theorem permit_eq_ok_iff {access : Access} : d.permit access place = .ok () ↔ d.refusal access place = none := by
  rw [permit]
  cases d.refusal access place <;> simp

/-- What is read under a path is what the file it names holds. -/
theorem readText_eq_ok_iff : d.readText path = .ok text ↔ d.Holds path text := by
  rw [readText, bind_eq_ok, Holds]
  constructor
  · rintro ⟨t, hfind, h⟩
    cases t with
    | folder => cases h
    | absent p => cases h
    | file p content =>
      obtain ⟨hreaches, hfile⟩ := (find_eq_ok_iff (t := .file p content) nofun).1 hfind
      obtain ⟨rfl, hbytes⟩ := file_eq_targetAt.1 hfile
      obtain ⟨_, hpermit, htext⟩ := bind_eq_ok.1 h
      exact ⟨hreaches, permit_eq_ok_iff.1 hpermit, by rw [hbytes, textOf_eq_ok.1 htext]⟩
  · rintro ⟨hreaches, hread, hbytes⟩
    refine ⟨_, (find_eq_ok_iff targetAt_ne_folder).2 ⟨hreaches, rfl⟩, ?_⟩
    rw [← file_eq_targetAt.2 ⟨rfl, hbytes⟩]
    exact bind_eq_ok.2 ⟨(), permit_eq_ok_iff.2 hread, textOf_eq_ok.2 rfl⟩

theorem isName_c : IsName "c" where
  parts := by decide +kernel
  noSlash := by decide +kernel
  noNul := by decide
  short := by decide +kernel
  leads := by decide +kernel

/-- A text is read back from the file that holds it. -/
theorem readText_name (text : String) : ({ files := [(["c"], text.toUTF8)] } : Directory).readText "c" = .ok text := by
  have hreaches : ({ files := [(["c"], text.toUTF8)] } : Directory).Reaches "c" := isName_c.reaches Bool.false_ne_true
  exact readText_eq_ok_iff.2 ⟨hreaches, rfl, by rw [isName_c.placeOf_eq]; rfl⟩

/-- Where a path leads to a file or to where one may be, it is seen whether there is one. -/
theorem hasPath_eq_false_iff (h : d.Reaches path) : d.hasPath path = false ↔ d.bytesAt (placeOf d.home path) = none := by
  rw [hasPath, (find_eq_ok_iff targetAt_ne_folder).2 ⟨h, rfl⟩, targetAt]
  cases d.bytesAt (placeOf d.home path) <;> simp

/-! ## Writing -/

theorem lookup_putFile (place p : Place) (content : ByteArray) (fs : List (Place × ByteArray)) :
    (putFile place content fs).lookup p = if p = place then some content else fs.lookup p := by
  induction fs with
  | nil =>
    by_cases h : p = place
    · simp [putFile, h]
    · simp [putFile, List.lookup_cons, beq_false_of_ne h, h]
  | cons f fs ih =>
    rw [putFile]
    by_cases hf : f.1 = place
    · rw [if_pos hf]
      by_cases h : p = place
      · simp [hf, h]
      · have hne : p ≠ f.1 := hf ▸ h
        rw [if_neg h, List.lookup_cons, List.lookup_cons, beq_false_of_ne hne]
    · rw [if_neg hf, List.lookup_cons, List.lookup_cons, ih]
      by_cases h : p = f.1
      · subst h
        simp [hf]
      · simp [beq_false_of_ne h]

/-- A text is written where a path can be written to, and put at the place the path names. -/
theorem writeText_eq_ok_iff : d.writeText path text = .ok d' ↔
    d.Writable path ∧ d' = { d with files := putFile (placeOf d.home path) text.toUTF8 d.files } := by
  have hfind : ∀ {t}, t ≠ .folder → (d.findToWrite path = .ok t ↔
      (d.Reaches path ∧ t = d.targetAt (placeOf d.home path)) ∧ path.endsWith "/" = false) := by
    intro t ht
    rw [findToWrite_eq_ok_iff ht, find_eq_ok_iff ht]
  have hput : ∀ place, (d.permit .write place >>= fun _ => Except.ok { d with files := putFile place text.toUTF8 d.files }) = .ok d' ↔
      d.refusal .write place = none ∧ d' = { d with files := putFile place text.toUTF8 d.files } := by
    intro place
    rw [bind_eq_ok, ← permit_eq_ok_iff]
    constructor
    · rintro ⟨_, hpermit, hd⟩
      cases hd
      exact ⟨hpermit, rfl⟩
    · rintro ⟨hpermit, rfl⟩
      exact ⟨(), hpermit, rfl⟩
  rw [writeText, bind_eq_ok, Writable]
  constructor
  · rintro ⟨t, htarget, h⟩
    have ht : t ≠ .folder := by
      rintro rfl
      cases h
    obtain ⟨⟨hreaches, htarget⟩, hslash⟩ := (hfind ht).1 htarget
    cases t with
    | folder => exact absurd rfl ht
    | file p content =>
      obtain ⟨rfl, -⟩ := file_eq_targetAt.1 htarget
      obtain ⟨hwrite, rfl⟩ := (hput _).1 h
      exact ⟨⟨hreaches, hslash, hwrite⟩, rfl⟩
    | absent p =>
      obtain ⟨rfl, -⟩ := absent_eq_targetAt.1 htarget
      obtain ⟨hwrite, rfl⟩ := (hput _).1 h
      exact ⟨⟨hreaches, hslash, hwrite⟩, rfl⟩
  · rintro ⟨⟨hreaches, hslash, hwrite⟩, rfl⟩
    refine ⟨_, (hfind targetAt_ne_folder).2 ⟨⟨hreaches, rfl⟩, hslash⟩, ?_⟩
    rw [targetAt]
    cases d.bytesAt (placeOf d.home path) <;> exact (hput _).2 ⟨hwrite, rfl⟩

theorem wrote_of_writeText (h : d.writeText path text = .ok d') : d.Wrote d' path text := by
  obtain ⟨hwritable, rfl⟩ := writeText_eq_ok_iff.1 h
  exact ⟨hwritable, rfl, fun p => lookup_putFile _ p text.toUTF8 d.files⟩

/-- What can be written is written. -/
theorem Writable.exists_wrote (h : d.Writable path) (text : String) : ∃ d', d.Wrote d' path text :=
  ⟨_, wrote_of_writeText (writeText_eq_ok_iff.2 ⟨h, rfl⟩)⟩

/-- Which paths lead to files does not depend on the files. -/
theorem Reaches.of_files {files : List (Place × ByteArray)} (h : d.Reaches path) : { d with files := files }.Reaches path := by
  obtain ⟨hchar, hlong, hleads⟩ := h
  refine ⟨hchar, hlong, ?_⟩
  rw [show start { d with files := files } path = d.start path from rfl]
  generalize d.start path = folder, path.splitToList (· == '/') = parts at hleads ⊢
  induction hleads with
  | name hnames => exact .name hnames
  | into henters _ ih => exact .into henters ih

/-- A text that has been written is read under every path that names the same place. -/
theorem Wrote.readText_eq {path' : String} (h : d.Wrote d' path text) (hplace : placeOf d.home path' = placeOf d.home path)
    (hreaches : d.Reaches path') (hread : d.refusal .read (placeOf d.home path) = none) : d'.readText path' = .ok text := by
  obtain ⟨-, hd, hbytes⟩ := h
  rw [readText_eq_ok_iff, Holds]
  have hhome : d'.home = d.home := by rw [hd]
  rw [hhome, hplace, hbytes, if_pos rfl]
  refine ⟨?_, ?_, rfl⟩
  · rw [hd]
    exact hreaches.of_files
  · rw [hd]
    exact hread

/-- What has been written under a path is read under it. -/
theorem Wrote.readText_self (h : d.Wrote d' path text) (hread : d.refusal .read (placeOf d.home path) = none) :
    d'.readText path = .ok text :=
  h.readText_eq rfl h.1.1 hread

end Directory

end SearchRules.CommandLine
