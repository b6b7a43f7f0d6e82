import SearchRules.CommandLine.Run
import SearchRules.Proofs.CommandLine.Parsing
import SearchRules.Proofs.CommandLine.Places

/-!
# What runs leave behind

A run that fails leaves nothing behind. One that succeeds delivers one text to one place: `Run.execute_leaves`. So over a sequence of
runs, whatever files they share, a file changes only when a run that may overwrite it succeeds: `executeAll_touches_one_place`.

What a run is asked for is said by the grammar of command lines (`Asks`), and which file a path names by its place (`placeOf`), so
that a path may lead to a file from the root as well as from the home, and two paths may lead to one file. That all that is printed
arrives is assumed by name (`room = none`), and only where it is needed: the one run that changes a file and then prints, an
initialisation, would otherwise have changed it and fail.
-/

namespace SearchRules.CommandLine

/-- The file a path names, unless it names the standard input or output. -/
def namedFile (path : Option String) : Option String :=
  path.filter fun p => !isStandard p

theorem namedFile_of_standard {path : String} (h : isStandard path = true) : namedFile (some path) = none := by
  simp [namedFile, h]

theorem namedFile_of_not_standard {path : String} (h : ¬isStandard path = true) : namedFile (some path) = some path := by
  simp [namedFile, h]

/-- The configuration in force: that of the file named, or the default one. -/
def Effective (d : Directory) (file : Option String) (c : Config) : Prop :=
  match file with
  | none => c = {}
  | some path => ∃ text, d.Holds path text ∧ Config.read text = .ok c

/-- The text a run reads: that of the file named, or all of its standard input. -/
def Reads (d : Directory) (input : Input) (file : Option String) (text : String) : Prop :=
  match namedFile file with
  | none => input.fault = none ∧ input.bytes = text.toUTF8
  | some path => d.Holds path text

/-- What a run that succeeds makes of a directory, and what it prints. -/
def Run.Effect (r : Run) (i : Invocation) (d d' : Directory) (printed : String) : Prop :=
  match i.command with
  | .compile input output => ∃ c request document, Effective d i.config c ∧ Reads d r.input input request ∧
      compilePretty c request = .ok document ∧
      match namedFile output with
      | none => d' = d ∧ printed = document ++ "\n"
      | some path => d.Wrote d' path (document ++ "\n") ∧ printed = ""
  | .showConfig => ∃ c, Effective d i.config c ∧ d' = d ∧ printed = c.print
  | .initConfig file force => (force = false → d.bytesAt (placeOf d.home file) = none) ∧ d.Wrote d' file ({} : Config).print ∧
      printed = "Wrote default configuration to " ++ file ++ "\n"

/-- What a run leaves behind: what it makes of a directory, and how its process ends. -/
structure Run.Leaves (r : Run) (d d' : Directory) (exit : Exit) : Prop where
  /-- A run that succeeds has done what its command is for. -/
  command : ∀ i, Asks r.environment r.args i → exit.code = 0 → r.Effect i d d' exit.printed
  /-- What a command is for is done where it can be, and the run succeeds if what it prints arrives. -/
  succeeds : ∀ i d'' text, Asks r.environment r.args i → r.Effect i d d'' text → r.arriving text = text → exit.code = 0
  /-- A run that is asked for no command changes nothing. If it succeeds it prints the help or the version. -/
  answer : (∀ i, ¬Asks r.environment r.args i) → d' = d ∧
    (exit.code = 0 → exit.printed = r.arriving r.help ∨ exit.printed = r.arriving versionText)
  /-- A run that fails has changed nothing and printed nothing, if whatever is printed arrives. -/
  error : r.room = none → exit.code ≠ 0 → d' = d ∧ exit.printed = ""
  /-- Or else it has done what its command is for, and not all that it prints has arrived. -/
  brokenOff : exit.code ≠ 0 → d' = d ∧ exit.printed = "" ∨
    ∃ i text, Asks r.environment r.args i ∧ r.Effect i d d' text ∧ exit.printed = r.arriving text ∧ exit.printed ≠ text

/-- Whether a command may write to a file that exists. -/
def Command.Overwrites (home place : Place) : Command → Prop
  | .compile _ output => ∃ path, namedFile output = some path ∧ placeOf home path = place
  | .showConfig => False
  | .initConfig file force => force = true ∧ placeOf home file = place

/-! ## One delivery -/

section

variable {d d' : Directory} {input : Input} {file : Option String} {i : Invocation} {r : Run}

theorem mapError_eq_ok {ε ε' α : Type} {x : Except ε α} {f : ε → ε'} {a : α} : x.mapError f = .ok a ↔ x = .ok a := by
  cases x <;> simp [Except.mapError]

theorem mapError_eq_error {ε ε' α : Type} {x : Except ε α} {f : ε → ε'} {e : ε'} (h : x.mapError f = .error e) : ∃ e', e = f e' := by
  cases x with
  | error e' => exact ⟨e', by cases h; rfl⟩
  | ok a => cases h

theorem config_eq_ok_iff {c : Config} : (d.surroundings input).config file = .ok c ↔ Effective d file c := by
  cases file with
  | none => simp [Surroundings.config, Effective, eq_comm]
  | some path =>
    rw [Surroundings.config, bind_eq_ok, Effective]
    refine exists_congr fun text => ?_
    rw [Surroundings.fileText, mapError_eq_ok, mapError_eq_ok]
    exact and_congr_left fun _ => Directory.readText_eq_ok_iff

theorem request_eq_ok_iff {text : String} : (d.surroundings input).request file = .ok text ↔ Reads d input file text := by
  have hinput : (d.surroundings input).inputText = .ok text ↔ input.fault = none ∧ input.bytes = text.toUTF8 := by
    rw [Surroundings.inputText, mapError_eq_ok, ← textOf_eq_ok]
    show input.text = .ok text ↔ _
    rw [Input.text]
    cases input.fault <;> simp
  rw [Reads]
  cases file with
  | none => exact hinput
  | some path =>
    rw [Surroundings.request]
    by_cases hs : isStandard path = true
    · rw [namedFile_of_standard hs, if_pos hs]
      exact hinput
    · rw [namedFile_of_not_standard hs, if_neg hs, Surroundings.fileText, mapError_eq_ok]
      exact Directory.readText_eq_ok_iff

theorem delivery_eq (output : Option String) (text : String) : Surroundings.delivery output text =
    match namedFile output with
    | none => .print (text ++ "\n")
    | some path => .write path (text ++ "\n") "" := by
  cases output with
  | none => rfl
  | some path =>
    rw [Surroundings.delivery]
    by_cases hs : isStandard path = true
    · rw [namedFile_of_standard hs, if_pos hs]
    · rw [namedFile_of_not_standard hs, if_neg hs]

/-- What a delivery makes of a directory, and what is printed. -/
def Delivery.Done (d d' : Directory) (printed : String) : Delivery → Prop
  | .print text => d' = d ∧ printed = text
  | .write path text report => d.Wrote d' path text ∧ printed = report

theorem Delivery.done_of_deliver {delivery : Delivery} {printed : String} (h : d.deliver delivery = (d', printed, .ok ())) :
    delivery.Done d d' printed := by
  cases delivery with
  | print text =>
    cases h
    exact ⟨rfl, rfl⟩
  | write path text report =>
    rw [Directory.deliver] at h
    split at h
    · rename_i hwrite
      cases h
      exact ⟨Directory.wrote_of_writeText hwrite, rfl⟩
    · cases h

/-- What can be delivered is delivered. -/
theorem Delivery.Done.exists_deliver {delivery : Delivery} {printed : String} (h : delivery.Done d d' printed) :
    ∃ d', d.deliver delivery = (d', printed, .ok ()) := by
  cases delivery with
  | print text =>
    obtain ⟨-, rfl⟩ := h
    exact ⟨d, rfl⟩
  | write path text report =>
    obtain ⟨⟨hwritable, -⟩, rfl⟩ := h
    exact ⟨_, by rw [Directory.deliver, Directory.writeText_eq_ok_iff.2 ⟨hwritable, rfl⟩]⟩

/-- A delivery that fails changes nothing and prints nothing. -/
theorem Directory.deliver_error {delivery : Delivery} {printed : String} {e : RunError}
    (h : d.deliver delivery = (d', printed, .error e)) : d' = d ∧ printed = "" ∧ e.code = 1 := by
  cases delivery with
  | print text => cases h
  | write path text report =>
    rw [deliver] at h
    split at h
    · cases h
    · cases h
      exact ⟨rfl, rfl, rfl⟩

/-- What a command is for is done by one delivery. -/
theorem effect_iff {printed : String} :
    r.Effect i d d' printed ↔ ∃ delivery, (d.surroundings r.input).perform i = .ok delivery ∧ delivery.Done d d' printed := by
  rw [Run.Effect, Surroundings.perform]
  cases i.command with
  | compile input output =>
    simp only [bind_eq_ok, config_eq_ok_iff, request_eq_ok_iff, mapError_eq_ok, Except.ok.injEq]
    constructor
    · rintro ⟨c, request, document, hc, hrequest, hdocument, hdone⟩
      refine ⟨_, ⟨c, hc, request, hrequest, document, hdocument, rfl⟩, ?_⟩
      rw [delivery_eq]
      cases h : namedFile output <;> rw [h] at hdone <;> exact hdone
    · rintro ⟨_, ⟨c, hc, request, hrequest, document, hdocument, rfl⟩, hdone⟩
      refine ⟨c, request, document, hc, hrequest, hdocument, ?_⟩
      rw [delivery_eq] at hdone
      cases h : namedFile output <;> rw [h] at hdone <;> exact hdone
  | showConfig =>
    simp only [bind_eq_ok, config_eq_ok_iff, Except.ok.injEq]
    constructor
    · rintro ⟨c, hc, hdone⟩
      exact ⟨_, ⟨c, hc, rfl⟩, hdone⟩
    · rintro ⟨_, ⟨c, hc, rfl⟩, hdone⟩
      exact ⟨c, hc, hdone⟩
  | initConfig file force =>
    have hguard : d.Reaches file → (((d.surroundings r.input).hasPath file && !force) = true ↔
        ¬(force = false → d.bytesAt (placeOf d.home file) = none)) := by
      intro hreaches
      rw [← Directory.hasPath_eq_false_iff hreaches]
      show (d.hasPath file && !force) = true ↔ _
      cases force <;> simp
    constructor
    · rintro ⟨hforce, hwrote, hprinted⟩
      have hcond := mt (hguard hwrote.1.1).1 (not_not.2 hforce)
      exact ⟨_, if_neg hcond, hwrote, hprinted⟩
    · rintro ⟨delivery, hdelivery, hdone⟩
      simp only at hdelivery
      split at hdelivery
      · cases hdelivery
      · rename_i hcond
        cases hdelivery
        exact ⟨not_not.1 (mt (hguard hdone.1.1.1).2 hcond), hdone⟩

/-- What keeps a command from its delivery ends the run with the code of an error. -/
theorem code_of_perform {s : Surroundings} {e : RunError} (h : s.perform i = .error e) : e.code = 1 := by
  have hfile : ∀ {ε α : Type} {x : Except ε α} {f : ε → RunError}, (∀ e, (f e).code = 1) → x.mapError f = .error e → e.code = 1 := by
    intro ε α x f hf h
    obtain ⟨e', rfl⟩ := mapError_eq_error h
    exact hf e'
  have hconfig : ∀ file, s.config file = .error e → e.code = 1 := by
    intro file h
    cases file with
    | none => cases h
    | some path =>
      rcases bind_eq_error.1 h with h | ⟨_, -, h⟩
      · exact hfile (fun _ => rfl) h
      · exact hfile (fun _ => rfl) h
  have hrequest : ∀ file, s.request file = .error e → e.code = 1 := by
    intro file h
    cases file with
    | none => exact hfile (fun _ => rfl) h
    | some path =>
      rw [Surroundings.request] at h
      split at h
      · exact hfile (fun _ => rfl) h
      · exact hfile (fun _ => rfl) h
  rw [Surroundings.perform] at h
  split at h
  · rcases bind_eq_error.1 h with h | ⟨_, -, h⟩
    · exact hconfig _ h
    rcases bind_eq_error.1 h with h | ⟨_, -, h⟩
    · exact hrequest _ h
    rcases bind_eq_error.1 h with h | ⟨_, -, h⟩
    · exact hfile (fun _ => rfl) h
    · cases h
  · rcases bind_eq_error.1 h with h | ⟨_, -, h⟩
    · exact hconfig _ h
    · cases h
  · split at h
    · cases h
      rfl
    · cases h

end

/-! ## One run -/

/-- What is printed follows from what the command finds. -/
theorem Run.Effect.printed_unique {r : Run} {i : Invocation} {d d₁ d₂ : Directory} {text₁ text₂ : String}
    (h₁ : r.Effect i d d₁ text₁) (h₂ : r.Effect i d d₂ text₂) : text₁ = text₂ := by
  obtain ⟨delivery, hperform, hdone₁⟩ := effect_iff.1 h₁
  obtain ⟨delivery', hperform', hdone₂⟩ := effect_iff.1 h₂
  rw [hperform] at hperform'
  cases hperform'
  cases delivery with
  | print text => rw [hdone₁.2, hdone₂.2]
  | write path text report => rw [hdone₁.2, hdone₂.2]

/-- What a command is for changes the files only. -/
theorem Run.Effect.eq_of_files {r : Run} {i : Invocation} {d d' : Directory} {text : String} (h : r.Effect i d d' text) :
    d' = { d with files := d'.files } := by
  obtain ⟨delivery, -, hdone⟩ := effect_iff.1 h
  cases delivery with
  | print text => rw [hdone.1]
  | write path text report => exact hdone.1.2.1

/-- A file that exists is changed by what a command is for only if the command may write to that file. -/
theorem Run.Effect.overwrites {r : Run} {i : Invocation} {d d' : Directory} {text : String} (h : r.Effect i d d' text)
    {place : Place} {content : ByteArray} (hfile : d.bytesAt place = some content) (hchange : d'.bytesAt place ≠ some content) :
    i.command.Overwrites d.home place := by
  have unchanged : d' = d → False := fun hd => hchange (hd ▸ hfile)
  have written : ∀ {path text}, d.Wrote d' path text → placeOf d.home path = place := by
    rintro path text ⟨-, -, hbytes⟩
    by_contra hne
    rw [hbytes, if_neg (Ne.symm hne)] at hchange
    exact hchange hfile
  rw [Run.Effect] at h
  cases hcommand : i.command with
  | compile input output =>
    simp only [hcommand] at h
    obtain ⟨c, request, document, -, -, -, hplace⟩ := h
    cases houtput : namedFile output with
    | none =>
      simp only [houtput] at hplace
      exact (unchanged hplace.1).elim
    | some path =>
      simp only [houtput] at hplace
      exact ⟨path, houtput, written hplace.1⟩
  | showConfig =>
    simp only [hcommand] at h
    obtain ⟨c, -, hd, -⟩ := h
    exact (unchanged hd).elim
  | initConfig file force =>
    simp only [hcommand] at h
    obtain ⟨hforce, hwrote, -⟩ := h
    have hplace := written hwrote
    cases force with
    | true => exact ⟨rfl, hplace⟩
    | false =>
      have hnone := hforce rfl
      rw [hplace, hfile] at hnone
      cases hnone

/-- What a run does: a command that can be carried out is carried out, and without that the directory stays as it is. -/
theorem Run.execute_cases (r : Run) (d : Directory) :
    (∃ cause, parse r.environment r.args = .error cause ∧ r.execute d = (d, ⟨.error (.refused cause), ""⟩)) ∨
    (∃ i e, Asks r.environment r.args i ∧ (∀ d' text, ¬r.Effect i d d' text) ∧ e.code = 1 ∧ r.execute d = (d, ⟨.error e, ""⟩)) ∨
    ∃ i d' text, Asks r.environment r.args i ∧ r.Effect i d d' text ∧ r.execute d = (d', ⟨.ok i, text⟩) := by
  cases hparse : parse r.environment r.args with
  | error cause => exact .inl ⟨cause, rfl, by simp only [execute, hparse]⟩
  | ok i =>
    have hasks := parse_eq_ok_iff.1 hparse
    refine .inr ?_
    cases hperform : (d.surroundings r.input).perform i with
    | error e =>
      refine .inl ⟨i, e, hasks, fun d' text heffect => ?_, code_of_perform hperform, by simp only [execute, hparse, hperform]⟩
      obtain ⟨delivery, hdelivery, -⟩ := effect_iff.1 heffect
      rw [hperform] at hdelivery
      cases hdelivery
    | ok delivery =>
      rcases hdeliver : d.deliver delivery with ⟨d', printed, done⟩
      cases done with
      | error e =>
        obtain ⟨rfl, rfl, hcode⟩ := Directory.deliver_error hdeliver
        refine .inl ⟨i, e, hasks, fun d'' text heffect => ?_, hcode,
          by simp only [execute, hparse, hperform, hdeliver, Except.map]⟩
        obtain ⟨delivery', hdelivery, hdone⟩ := effect_iff.1 heffect
        rw [hperform] at hdelivery
        cases hdelivery
        obtain ⟨_, hdeliver'⟩ := hdone.exists_deliver
        rw [hdeliver] at hdeliver'
        cases hdeliver'
      | ok _ =>
        refine .inr ⟨i, d', printed, hasks, ?_, by simp only [execute, hparse, hperform, hdeliver, Except.map]⟩
        exact effect_iff.2 ⟨delivery, hperform, Delivery.done_of_deliver hdeliver⟩

/-- Only help and version have an answer, and they are no failures. -/
theorem answer?_of_code {e : RunError} (h : e.code ≠ 0) (help : String) : e.answer? help = none := by
  cases e with
  | refused cause => cases cause <;> first | rfl | exact absurd rfl h
  | _ => rfl

theorem Run.arriving_empty (r : Run) : r.arriving "" = "" := by
  rw [arriving]
  cases r.room <;> simp

theorem Run.arriving_of_room {r : Run} (h : r.room = none) (text : String) : r.arriving text = text := by
  rw [arriving, h]

/-- The end of a run that fails before it prints. -/
theorem Run.exit_error {r : Run} {e : RunError} (h : e.code ≠ 0) : r.exit ⟨.error e, ""⟩ = ⟨e.code, ""⟩ := by
  simp only [exit, answer?_of_code h, Option.getD_none, arriving_empty]

/-- A run that fails leaves nothing behind, and one that succeeds leaves what its command is for. -/
theorem Run.execute_leaves (r : Run) (d : Directory) : r.Leaves d (r.execute d).1 (r.exit (r.execute d).2) := by
  rcases r.execute_cases d with ⟨cause, hparse, hrun⟩ | ⟨i, e, hasks, hnone, hcode, hrun⟩ | ⟨i, d', text, hasks, heffect, hrun⟩
  · have hnone : ∀ i, ¬Asks r.environment r.args i := by
      intro i hasks
      rw [parse_eq_ok_iff.2 hasks] at hparse
      cases hparse
    have hfails : (r.exit (r.execute d).2).code ≠ 0 → (r.execute d).1 = d ∧ (r.exit (r.execute d).2).printed = "" := by
      rw [hrun]
      intro hcode
      exact ⟨rfl, by rw [exit_error hcode]⟩
    refine ⟨fun i hasks => absurd hasks (hnone i), fun i _ _ hasks => absurd hasks (hnone i), fun _ => ?_, fun _ => hfails,
      fun hcode => .inl (hfails hcode)⟩
    rw [hrun]
    cases cause with
    | usage => exact ⟨rfl, nofun⟩
    | help => exact ⟨rfl, fun _ => .inl rfl⟩
    | version => exact ⟨rfl, fun _ => .inr rfl⟩
  · have hexit : r.exit (r.execute d).2 = ⟨1, ""⟩ := by
      rw [hrun, exit_error (by rw [hcode]; nofun), hcode]
    have hdone : (r.execute d).1 = d ∧ (r.exit (r.execute d).2).printed = "" := by
      rw [hexit, hrun]
      exact ⟨rfl, rfl⟩
    refine ⟨fun i _ hzero => ?_, fun i' d' text hasks' heffect _ => ?_, fun hno => absurd hasks (hno i), fun _ _ => hdone,
      fun _ => .inl hdone⟩
    · rw [hexit] at hzero
      cases hzero
    · rw [hasks'.unique hasks] at heffect
      exact absurd heffect (hnone d' text)
  · have hexit : r.exit (r.execute d).2 = ⟨if r.arriving text = text then 0 else 101, r.arriving text⟩ := by
      rw [hrun]
      rfl
    have hcode : (r.exit (r.execute d).2).code = 0 ↔ r.arriving text = text := by
      rw [hexit]
      by_cases h : r.arriving text = text <;> simp [h]
    have heffect : r.Effect i d (r.execute d).1 text := by rwa [hrun]
    have hprinted : (r.exit (r.execute d).2).printed = r.arriving text := by rw [hexit]
    refine ⟨fun i' hasks' hzero => ?_, fun i' d'' text' hasks' heffect' harrives => ?_, fun hno => absurd hasks (hno i),
      fun hroom hfails => absurd (hcode.2 (arriving_of_room hroom text)) hfails, fun hfails => .inr ⟨i, text, hasks, heffect,
        hprinted, fun h => hfails (hcode.2 (hprinted ▸ h))⟩⟩
    · rw [hasks'.unique hasks, hprinted, hcode.1 hzero]
      exact heffect
    · rw [hasks'.unique hasks] at heffect'
      rw [heffect'.printed_unique heffect] at harrives
      exact hcode.2 harrives

/-- A run changes the files only. -/
theorem Run.execute_files (r : Run) (d : Directory) : (r.execute d).1 = { d with files := (r.execute d).1.files } := by
  rcases r.execute_cases d with ⟨cause, -, hrun⟩ | ⟨i, e, -, -, -, hrun⟩ | ⟨i, d', text, -, heffect, hrun⟩
  · rw [hrun]
  · rw [hrun]
  · rw [hrun]
    exact heffect.eq_of_files

/-- A file that exists changes in a run only if the command of the run may write to that file, and the run succeeds if what it prints
arrives. -/
theorem Run.Leaves.overwrites {r : Run} {d d' : Directory} {exit : Exit} (h : r.Leaves d d' exit) {place : Place}
    {content : ByteArray} (hfile : d.bytesAt place = some content) (hchange : d'.bytesAt place ≠ some content) :
    ∃ i, Asks r.environment r.args i ∧ i.command.Overwrites d.home place ∧ (r.room = none → exit.code = 0) := by
  have unchanged : d' ≠ d := fun hd => hchange (hd ▸ hfile)
  by_cases hcode : exit.code = 0
  · by_cases hasks : ∃ i, Asks r.environment r.args i
    · obtain ⟨i, hasks⟩ := hasks
      exact ⟨i, hasks, (h.command i hasks hcode).overwrites hfile hchange, fun _ => hcode⟩
    · exact absurd (h.answer (not_exists.1 hasks)).1 unchanged
  · obtain ⟨hd, -⟩ | ⟨i, text, hasks, heffect, -⟩ := h.brokenOff hcode
    · exact absurd hd unchanged
    · exact ⟨i, hasks, heffect.overwrites hfile hchange, fun hroom => absurd (h.error hroom hcode).1 unchanged⟩

/-! ## Sequences of runs -/

theorem executeAll_cons (r : Run) (rs : List Run) (d : Directory) :
    executeAll (r :: rs) d =
      ((executeAll rs (r.execute d).1).1, (r.execute d).2 :: (executeAll rs (r.execute d).1).2) := by
  rw [executeAll]

theorem executeAll_append (rs rs' : List Run) (d : Directory) :
    executeAll (rs ++ rs') d = ((executeAll rs' (executeAll rs d).1).1,
      (executeAll rs d).2 ++ (executeAll rs' (executeAll rs d).1).2) := by
  induction rs generalizing d with
  | nil => simp [executeAll]
  | cons r rs ih => rw [List.cons_append, executeAll_cons, ih, executeAll_cons, List.cons_append]

theorem length_outcomes (rs : List Run) (d : Directory) : (executeAll rs d).2.length = rs.length := by
  induction rs generalizing d with
  | nil => simp [executeAll]
  | cons r rs ih => simp [executeAll_cons, ih]

/-- Each run of a sequence does to the directory it finds what it does alone. -/
theorem executeAll_at {runs before after : List Run} {r : Run} (h : runs = before ++ r :: after) (d : Directory) :
    (executeAll runs d).2[before.length]? = some (r.execute (executeAll before d).1).2 ∧
      (executeAll (before ++ [r]) d).1 = (r.execute (executeAll before d).1).1 := by
  constructor
  · rw [h, executeAll_append, executeAll_cons]
    simp [length_outcomes]
  · rw [executeAll_append, executeAll_cons, executeAll]

/-- A file that exists and has changed after a sequence of runs was changed by one of them. -/
theorem exists_changing_run (runs : List Run) (d : Directory) {place : Place} {content : ByteArray}
    (hfile : d.bytesAt place = some content) (hchange : (executeAll runs d).1.bytesAt place ≠ some content) :
    ∃ before r after, runs = before ++ r :: after ∧ (executeAll before d).1.bytesAt place = some content ∧
      (executeAll (before ++ [r]) d).1.bytesAt place ≠ some content := by
  -- the induction takes the last run off: either the others have changed the file, or it has
  induction runs using List.reverseRecOn with
  | nil => exact absurd hfile hchange
  | append_singleton rs r ih =>
    by_cases hrs : (executeAll rs d).1.bytesAt place = some content
    · exact ⟨rs, r, [], rfl, hrs, hchange⟩
    · obtain ⟨before, r', after, rfl, hbefore, hafter⟩ := ih hrs
      exact ⟨before, r', after ++ [r], by simp, hbefore, hafter⟩

/-- The paths of all runs set out from the same folder. -/
theorem home_executeAll (runs : List Run) (d : Directory) : (executeAll runs d).1.home = d.home := by
  induction runs generalizing d with
  | nil => rw [executeAll]
  | cons r rs ih => rw [executeAll_cons, ih, r.execute_files]

/-- Whatever the files, the arguments, the standard input and the environments: a run that fails leaves the directory as it was and
prints nothing, a run that succeeds leaves what its command is for, and a file that exists changes only by a run that succeeds and may
write to it, a compilation into it or a forced initialisation of it. -/
theorem executeAll_touches_one_place (runs : List Run) (d : Directory) :
    (∀ before r after, runs = before ++ r :: after →
      ∃ outcome, (executeAll runs d).2[before.length]? = some outcome ∧
        r.Leaves (executeAll before d).1 (executeAll (before ++ [r]) d).1 (r.exit outcome)) ∧
    ∀ place content, d.bytesAt place = some content → (executeAll runs d).1.bytesAt place ≠ some content →
      ∃ before r after outcome i, runs = before ++ r :: after ∧ (executeAll runs d).2[before.length]? = some outcome ∧
        Asks r.environment r.args i ∧ i.command.Overwrites d.home place ∧ (r.room = none → (r.exit outcome).code = 0) := by
  have leaves : ∀ before r after, runs = before ++ r :: after →
      ∃ outcome, (executeAll runs d).2[before.length]? = some outcome ∧
        r.Leaves (executeAll before d).1 (executeAll (before ++ [r]) d).1 (r.exit outcome) := by
    intro before r after h
    obtain ⟨houtcome, hd⟩ := executeAll_at h d
    exact ⟨_, houtcome, hd ▸ r.execute_leaves _⟩
  refine ⟨leaves, fun place content hfile hchange => ?_⟩
  obtain ⟨before, r, after, hruns, hbefore, hafter⟩ := exists_changing_run runs d hfile hchange
  obtain ⟨outcome, houtcome, hleaves⟩ := leaves before r after hruns
  obtain ⟨i, hasks, hover, hcode⟩ := hleaves.overwrites hbefore hafter
  rw [home_executeAll] at hover
  exact ⟨before, r, after, outcome, i, hruns, houtcome, hasks, hover, hcode⟩

/-- A compilation in the folder `w` of the file `c` there, with its own file as output, named from the root: the file changes, and
the run is one that may write to it. -/
theorem executeAll_touches_one_place_onto_input :
    let r : Run := { args := ["compile", "c", "-o", "/w/c"] }
    let d : Directory := { home := ["w"], files := [(["w", "c"], "{}".toUTF8)] }
    (executeAll [r] d).1.bytesAt ["w", "c"] ≠ some "{}".toUTF8 ∧
    ∃ before r' after outcome i, [r] = before ++ r' :: after ∧ (executeAll [r] d).2[before.length]? = some outcome ∧
      Asks r'.environment r'.args i ∧ i.command.Overwrites d.home ["w", "c"] ∧ (r'.room = none → (r'.exit outcome).code = 0) := by
  intro r d
  have hasks : Asks r.environment r.args ⟨none, false, .compile (some "c") (some "/w/c")⟩ := parse_eq_ok_iff.1 (by rfl)
  have hparts : "/w/c".splitToList (· == '/') = ["", "w", "c"] := by decide +kernel
  have hslash : "/w/c".startsWith "/" = true := by decide +kernel
  have hinput : namedFile (some "c") = some "c" := by decide +kernel
  have houtput : namedFile (some "/w/c") = some "/w/c" := by decide +kernel
  have hplace : placeOf d.home "/w/c" = ["w", "c"] := by decide +kernel
  have hholds : d.Holds "c" "{}" := ⟨Directory.isName_c.reaches (by decide), rfl, by rw [Directory.isName_c.placeOf_eq]; rfl⟩
  have hwritable : d.Writable "/w/c" := by
    refine ⟨⟨by decide, by decide +kernel, ?_⟩, by decide +kernel, rfl⟩
    rw [Directory.start, hparts, hslash]
    exact .into (by decide +kernel) (.into (by decide +kernel) (.name (by decide +kernel)))
  obtain ⟨document, hdocument⟩ : ∃ document, compilePretty {} "{}" = .ok document := by
    have hok : (compilePretty {} "{}").isOk = true := by decide +kernel
    cases h : compilePretty {} "{}" with
    | error e =>
      rw [h] at hok
      cases hok
    | ok document => exact ⟨document, rfl⟩
  obtain ⟨d', hwrote⟩ := hwritable.exists_wrote (document ++ "\n")
  have heffect : r.Effect ⟨none, false, .compile (some "c") (some "/w/c")⟩ d d' "" := by
    refine ⟨{}, "{}", document, rfl, ?_, hdocument, ?_⟩
    · rw [Reads, hinput]
      exact hholds
    · rw [houtput]
      exact ⟨hwrote, rfl⟩
  have htouches := executeAll_touches_one_place [r] d
  obtain ⟨outcome, -, hleaves⟩ := htouches.1 [] r [] rfl
  have hcode := hleaves.succeeds _ d' "" hasks heffect rfl
  obtain ⟨c, request, document', -, -, -, hdone⟩ := hleaves.command _ hasks hcode
  rw [houtput] at hdone
  have hchange : (executeAll [r] d).1.bytesAt ["w", "c"] ≠ some "{}".toUTF8 := by
    have hbytes : (executeAll [r] d).1.bytesAt ["w", "c"] = some (document' ++ "\n").toUTF8 :=
      (hdone.1.2.2 ["w", "c"]).trans (if_pos hplace.symm)
    intro hsame
    have htext : document' ++ "\n" = "{}" := by
      rw [← String.toByteArray_inj]
      exact Option.some.inj (hbytes.symm.trans hsame)
    have hlast := congrArg (fun s : String => s.toList.getLast?) htext
    simp at hlast
  exact ⟨hchange, htouches.2 _ _ rfl hchange⟩

end SearchRules.CommandLine
