import SearchRules.Proofs.CommandLine.Words

/-!
# The reading of command lines

What is read of a command line is what it asks for by the grammar, and whatever asks for a command is read: `parse_eq_ok_iff`. The one
direction follows the words, group by group (`exists_of_outline`), the other follows the grammar (`outline_spelled`). Both go down the
levels by the subcommands.
-/

namespace SearchRules.CommandLine

variable {s s' : Reading} {level next : Level} {text name : String} {words rest : List String} {items : List Item} {o : Outline}

theorem Level.TakesFile.subcommands_eq (h : level.TakesFile) : level.subcommands = [] := by
  rcases h with rfl | rfl <;> rfl

/-- A word that begins with a hyphen is no subcommand, and no word is one where a file is taken. -/
theorem lookup_subcommands (h : text.toList.head? = some '-' ∨ level.TakesFile) : level.subcommands.lookup text = none := by
  rcases h with h | h
  · have hne : ∀ name : String, name.toList.head? ≠ some '-' → text ≠ name := by
      rintro name hname rfl
      exact hname h
    have hnames : ∀ e ∈ level.subcommands, e.1.toList.head? ≠ some '-' := by
      cases level <;> decide
    rw [List.lookup_eq_none_iff]
    exact fun e he => bne_iff_ne.2 (hne e.1 (hnames e he))
  · rw [h.subcommands_eq]
    rfl

theorem outline_nil : outline level s [] = s.finish level := by
  rw [outline]

theorem outline_hyphens : outline level s ("--" :: rest) = rest.foldlM (Reading.plain level) s >>= fun s => s.finish level := by
  rw [outline, if_pos (beq_self_eq_true _)]

theorem outline_subcommand (hs : s.waiting? = none) (hnext : level.subcommands.lookup name = some next) :
    outline level s (name :: rest) = outline next {} rest >>= s.above := by
  have hname : name ≠ "--" := by
    rintro rfl
    rw [lookup_subcommands (.inl rfl)] at hnext
    cases hnext
  rw [outline, if_neg (by simpa using hname)]
  simp only [hs, Option.isNone_none, if_true, hnext]

/-- The other words are read one by one. -/
theorem outline_word (hs : s.waiting? = none) (htext : text ≠ "--") (h : text.toList.head? = some '-' ∨ level.TakesFile) :
    outline level s (text :: rest) = s.add level text >>= fun s => outline level s rest := by
  have hhelp : (text == "help" && !level.subcommands.isEmpty) = false := by
    rcases h with h | h
    · have hne : text ≠ "help" := by
        rintro rfl
        exact absurd h (by decide)
      simp [hne]
    · simp [h.subcommands_eq]
  rw [outline, if_neg (by simpa using htext)]
  simp only [hs, Option.isNone_none, if_true, lookup_subcommands h, Bool.true_and, hhelp]
  rfl

theorem outline_waiting {opt : Opt} (hs : s.waiting? = some opt) (h : Plain text) :
    outline level s (text :: rest) = outline level { s with pending := some (.value opt text) } rest := by
  have htext : text ≠ "--" := by
    rintro rfl
    exact h '-' [] rfl
  rw [outline, if_neg (by simpa using htext)]
  simp only [hs, Option.isNone_some, Reading.add_waiting h hs]
  rfl

/-- What the last word has left open may as well be settled before the next one is read. -/
theorem outline_of_settle (h : s.settle = .ok s') : outline level s words = outline level s' words := by
  have hs := Reading.waiting_of_settle h
  have hnone := Reading.settle_of_none (Reading.pending_of_settle h)
  have hs' := Reading.waiting_of_settle hnone
  cases words with
  | nil => rw [outline_nil, outline_nil, Reading.finish, Reading.finish, h, hnone]
  | cons text rest =>
    have habove : s.above = s'.above := by
      funext below
      rw [Reading.above, Reading.above, h, hnone]
    have hplain : ∀ text, s.plain level text = s'.plain level text := by
      intro text
      rw [Reading.plain, Reading.plain, h, hnone]
    by_cases htext : text = "--"
    · subst htext
      rw [outline_hyphens, outline_hyphens]
      cases rest with
      | nil => exact (by rw [Reading.finish, Reading.finish, h, hnone] : s.finish level = s'.finish level)
      | cons file rest => rw [List.foldlM_cons, List.foldlM_cons, hplain]
    · have hword : ¬(text == "--") = true := by simpa using htext
      rw [outline, if_neg hword, outline, if_neg hword]
      simp only [hs, hs', habove, Reading.add_of_settle h]

/-- What the last word has left open must be settled in the end, if it is not an option whose value comes next. -/
theorem waiting_of_outline {e : Refusal} (h : s.settle = .error e) (hok : outline level s words = .ok o) :
    ∃ text rest opt, words = text :: rest ∧ Plain text ∧ s.waiting? = some opt := by
  have hfinish : s.finish level ≠ .ok o := by
    intro hok
    rw [Reading.finish, h] at hok
    cases hok
  cases words with
  | nil =>
    rw [outline_nil] at hok
    exact absurd hok hfinish
  | cons text rest =>
    by_cases htext : text = "--"
    · subst htext
      rw [outline_hyphens] at hok
      cases rest with
      | nil => exact absurd hok hfinish
      | cons file rest =>
        rw [List.foldlM_cons, Reading.plain, h] at hok
        split at hok <;> cases hok
    · rw [outline, if_neg (by simpa using htext)] at hok
      split at hok
      · obtain ⟨below, -, hok⟩ := bind_eq_ok.1 hok
        rw [Reading.above, h] at hok
        cases hok
      · split at hok
        · split at hok <;> cases hok
        · obtain ⟨s₁, hadd, -⟩ := bind_eq_ok.1 hok
          obtain ⟨hplain, hwaiting⟩ := Reading.add_of_settle_error h hadd
          obtain ⟨opt, hopt⟩ := Option.ne_none_iff_exists'.1 hwaiting
          exact ⟨text, rest, opt, rfl, hplain, hopt⟩

/-- An outline of a reading is that of a settled one, if the reading waits for no value. -/
theorem settle_of_outline (hs : s.waiting? = none) (hok : outline level s words = .ok o) :
    ∃ s', s.settle = .ok s' ∧ outline level s' words = .ok o := by
  cases h : s.settle with
  | error e =>
    obtain ⟨text, rest, opt, -, -, hopt⟩ := waiting_of_outline h hok
    rw [hs] at hopt
    cases hopt
  | ok s' => exact ⟨s', rfl, outline_of_settle h ▸ hok⟩

/-! ## What is written is read -/

theorem Opt.takeWhile_name (opt : Opt) (cs : List Char) (hcs : cs.head? = none ∨ cs.head? = some '=') :
    (opt.name.toList ++ cs).takeWhile (· != '=') = opt.name.toList ∧ (opt.name.toList ++ cs).dropWhile (· != '=') = cs := by
  have hname : ∀ c ∈ opt.name.toList, (c != '=') = true := by
    cases opt <;> simp [Opt.name]
  rw [List.takeWhile_append_of_pos hname, List.dropWhile_append_of_pos hname]
  cases cs with
  | nil => simp
  | cons c cs =>
    obtain rfl : c = '=' := by simpa using hcs
    simp

namespace Reading

theorem long_name {opt : Opt} (h : level.knows opt = true) :
    s.long level opt.name.toList =
      if opt.hasValue then s.settle >>= fun s => .ok { s with pending := some (.option opt) } else s.setFlag opt := by
  obtain ⟨htake, hdrop⟩ := opt.takeWhile_name [] (.inl rfl)
  rw [List.append_nil] at htake hdrop
  unfold long
  simp only [htake, hdrop, Level.longOption?_eq_some.2 ⟨rfl, h⟩]

theorem long_name_value {opt : Opt} {cs : List Char} (h : level.Valued opt) :
    s.long level (opt.name.toList ++ '=' :: cs) = s.settle >>= fun s => s.setValue opt (String.ofList cs) := by
  obtain ⟨htake, hdrop⟩ := opt.takeWhile_name ('=' :: cs) (.inr rfl)
  unfold long
  simp only [htake, hdrop, Level.longOption?_eq_some.2 ⟨rfl, h.1⟩, h.hasValue]
  rfl

/-- An option that waits for its value has it in the next word. -/
theorem outline_value {opt : Opt} (hs : s.pending = none) (h : Plain text) (hset : s.setValue opt text = .ok s') :
    outline level { s with pending := some (.option opt) } (text :: rest) = outline level s' rest := by
  rw [outline_waiting rfl h]
  refine outline_of_settle ?_
  show ({ s with pending := none } : Reading).setValue opt text = .ok s'
  rw [← hs]
  exact hset

end Reading

/-- A word behind two hyphens is read as the name of an option, with its value if there is one. -/
theorem outline_long (hs : s.waiting? = none) (htext : text ≠ "") :
    outline level s (("--" ++ text) :: rest) = s.long level text.toList >>= fun s => outline level s rest := by
  have hcs : ("--" ++ text).toList = '-' :: '-' :: text.toList := String.toList_append
  have hword : "--" ++ text ≠ "--" := by
    intro h
    rw [← String.toList_inj, hcs] at h
    exact htext (String.toList_inj.1 (by simpa using h))
  rw [outline_word hs hword (.inl (by rw [hcs]; rfl)), Reading.add_hyphens hcs]

/-- A word behind one hyphen is read letter by letter. -/
theorem outline_letters (level : Level) (rest : List String) {os : List Opt} (cs : List Char) (hs : s.waiting? = none)
    (hos : os ≠ []) : outline level s (String.ofList ('-' :: os.map Opt.letter ++ cs) :: rest) =
      s.letters level (os.map Opt.letter ++ cs) >>= fun s => outline level s rest := by
  obtain ⟨opt, os, rfl⟩ := List.exists_cons_of_ne_nil hos
  have hletter : opt.letter ≠ '-' := by cases opt <;> decide
  have hcs : (String.ofList ('-' :: (opt :: os).map Opt.letter ++ cs)).toList = '-' :: opt.letter :: (os.map Opt.letter ++ cs) := by
    rw [String.toList_ofList]
    rfl
  have hword : String.ofList ('-' :: (opt :: os).map Opt.letter ++ cs) ≠ "--" := by
    intro h
    rw [h] at hcs
    exact hletter (List.cons.inj (List.cons.inj hcs).2).1.symm
  rw [outline_word hs hword (.inl (by rw [hcs]; rfl)), Reading.add_hyphen hcs hletter]
  rfl

/-- The last letter of a word may be that of an option with a value. -/
theorem outline_letters_valued {os : List Opt} {opt : Opt} {cs : List Char} (hos : ∀ o ∈ os, level.Flag o) (hs : s.pending = none)
    (h : s.takeAll (os.map .flag) = .ok s') :
    outline level s (String.ofList ('-' :: os.map Opt.letter ++ opt.letter :: cs) :: rest) =
      s'.letters level (opt.letter :: cs) >>= fun s => outline level s rest := by
  have hne : os ++ [opt] ≠ [] := by simp
  have hword := outline_letters level rest cs (Reading.waiting_of_settle (Reading.settle_of_none hs)) hne
  simp only [List.map_append, List.map_singleton, List.append_assoc, List.singleton_append, ← List.cons_append] at hword
  rw [hword, Reading.letters_flags _ hos hs h]

/-- Items that are written as a group are read as they are given. -/
theorem outline_group (hgroup : Group level items words) (hs : s.pending = none) (h : s.takeAll items = .ok s') :
    outline level s (words ++ rest) = outline level s' rest := by
  have hwaiting := Reading.waiting_of_settle (Reading.settle_of_none hs)
  have hname : ∀ opt : Opt, opt.name ≠ "" := by
    intro opt
    cases opt <;> decide
  cases hgroup with
  | @argument text hfile hplain hne =>
    have htext : text ≠ "--" := by
      rintro rfl
      exact hplain '-' [] rfl
    rw [Reading.takeAll_singleton] at h
    have hnone := (Reading.take_argument h).1
    rw [List.singleton_append, outline_word hwaiting htext (.inr hfile), Reading.add_plain hplain hwaiting,
      (Reading.plain_eq_ok hs).2 ⟨hfile, hnone, rfl⟩]
    exact outline_of_settle ((Reading.settle_argument hs hnone).trans h)
  | @flag opt hopt =>
    rw [Reading.takeAll_singleton, Reading.take] at h
    rw [List.singleton_append, outline_long hwaiting (hname opt), Reading.long_name hopt.1, hopt.hasValue, if_neg Bool.false_ne_true, h]
    rfl
  | @apart opt text hopt hplain hne =>
    rw [Reading.takeAll_singleton, Reading.take] at h
    rw [List.cons_append, List.singleton_append, outline_long hwaiting (hname opt), Reading.long_name hopt.1, hopt.hasValue,
      if_pos rfl, Reading.settle_of_none hs]
    exact Reading.outline_value hs hplain h
  | @joined opt text hopt hne =>
    rw [Reading.takeAll_singleton, Reading.take] at h
    have hcs : (opt.name ++ "=" ++ text).toList = opt.name.toList ++ '=' :: text.toList := by simp
    have htext : opt.name ++ "=" ++ text ≠ "" := by
      intro h
      rw [h] at hcs
      simp at hcs
    have hword : "--" ++ opt.name ++ "=" ++ text = "--" ++ (opt.name ++ "=" ++ text) := by simp only [String.append_assoc]
    rw [List.singleton_append, hword, outline_long hwaiting htext, hcs, Reading.long_name_value hopt, Reading.settle_of_none hs,
      String.ofList_toList]
    show s.setValue opt text >>= _ = _
    rw [h]
    rfl
  | @letters os hne hos =>
    have hread := Reading.letters_flags [] hos hs h
    have hword := outline_letters level rest [] hwaiting hne
    rw [List.append_nil] at hread
    rw [List.append_nil, List.append_nil, hread] at hword
    exact hword
  | @lettersApart os opt text hos hopt hplain hne =>
    rw [Reading.takeAll_append] at h
    obtain ⟨s₁, hflags, hvalue⟩ := bind_eq_ok.1 h
    rw [Reading.takeAll_singleton] at hvalue
    have hs₁ := Reading.pending_of_takeAll hs hflags
    rw [List.cons_append, List.singleton_append, outline_letters_valued hos hs hflags, Reading.letters_option hs₁ hopt]
    exact Reading.outline_value hs₁ hplain hvalue
  | @lettersJoined os opt text cs hos hopt hne hcs =>
    rw [Reading.takeAll_append] at h
    obtain ⟨s₁, hflags, hvalue⟩ := bind_eq_ok.1 h
    rw [Reading.takeAll_singleton] at hvalue
    have hcs : cs = '=' :: text.toList ∨ cs = text.toList ∧ cs ≠ [] ∧ cs.head? ≠ some '=' := by
      rcases hcs with hcs | ⟨hcs, hhead⟩
      · exact .inl hcs
      · exact .inr ⟨hcs, by rwa [hcs, ne_eq, String.toList_eq_nil_iff], hhead⟩
    have hread := (Reading.letters_value (Reading.pending_of_takeAll hs hflags) hopt hcs).trans hvalue
    rw [List.singleton_append, outline_letters_valued hos hs hflags, hread]
    rfl

/-- Items that are written one behind the other are read as they are given. -/
theorem outline_spelled (rest : List String) (hspelled : Spelled level items words) (hs : s.pending = none)
    (h : s.takeAll items = .ok s') : outline level s (words ++ rest) = outline level s' rest := by
  induction hspelled generalizing s with
  | nil =>
    cases h
    rfl
  | cons hgroup hspelled ih =>
    rw [Reading.takeAll_append] at h
    obtain ⟨s₁, hitems, h⟩ := bind_eq_ok.1 h
    rw [List.append_assoc, outline_group hgroup hs hitems]
    exact ih (Reading.pending_of_takeAll hs hitems) h

/-! ## What is read is written -/

/-- Where the items of a level come to an end. -/
def Level.Stops (level : Level) (words : List String) : Prop :=
  words = [] ∨ (∃ rest, words = "--" :: rest) ∨
    ∃ name rest next, words = name :: rest ∧ level.subcommands.lookup name = some next

/-- The words of a level that are read are items written one behind the other, up to where the items come to an end. -/
theorem exists_of_outline (hs : s.pending = none) (hok : outline level s words = .ok o) :
    ∃ items front rest s', words = front ++ rest ∧ Spelled level items front ∧ s.takeAll items = .ok s' ∧ level.Stops rest ∧
      outline level s' rest = .ok o := by
  induction hn : words.length using Nat.strongRecOn generalizing words s with
  | _ n ih =>
    subst hn
    have hstop : level.Stops words → ∃ items front rest s', words = front ++ rest ∧ Spelled level items front ∧
        s.takeAll items = .ok s' ∧ level.Stops rest ∧ outline level s' rest = .ok o := fun h =>
      ⟨[], [], words, s, rfl, .nil, rfl, h, hok⟩
    cases words with
    | nil => exact hstop (.inl rfl)
    | cons text words =>
      by_cases htext : text = "--"
      · exact hstop (.inr (.inl ⟨words, by rw [htext]⟩))
      cases hnext : level.subcommands.lookup text with
      | some next => exact hstop (.inr (.inr ⟨text, words, next, rfl, hnext⟩))
      | none =>
        -- a group is read first, then what follows it
        have hgo : ∀ {s₁ items group words'}, text :: words = group ++ words' → words'.length < (text :: words).length →
            Group level items group → s.takeAll items = .ok s₁ → outline level s₁ words' = .ok o →
            ∃ items front rest s', text :: words = front ++ rest ∧ Spelled level items front ∧ s.takeAll items = .ok s' ∧
              level.Stops rest ∧ outline level s' rest = .ok o := by
          intro s₁ items group words' hwords hlt hgroup htake hok
          obtain ⟨items', front, rest, s', rfl, hspelled, htake', hstops, hok⟩ :=
            ih _ hlt (Reading.pending_of_takeAll hs htake) hok rfl
          refine ⟨items ++ items', group ++ front, rest, s', by rw [hwords, List.append_assoc], .cons hgroup hspelled, ?_, hstops, hok⟩
          rw [Reading.takeAll_append, htake]
          exact htake'
        rw [outline, if_neg (by simpa using htext)] at hok
        simp only [Reading.waiting_of_settle (Reading.settle_of_none hs), Option.isNone_none, if_true, hnext] at hok
        split at hok
        · split at hok <;> cases hok
        obtain ⟨s₁, hadd, hok⟩ := bind_eq_ok.1 hok
        cases Reading.after_add hs hadd with
        | items hgroup htake => exact hgo rfl (Nat.lt_succ_self _) hgroup htake hok
        | @waiting s₂ items opt htake hopt hgroup =>
          have hs₂ := Reading.pending_of_takeAll hs htake
          obtain ⟨value, rest, opt', rfl, hplain, hopt'⟩ := waiting_of_outline (e := .usage) rfl hok
          rw [outline_waiting rfl hplain] at hok
          obtain ⟨s₃, hsettle, hok⟩ := settle_of_outline rfl hok
          have hset : s₂.setValue opt value = .ok s₃ := by
            have hsame : ({ s₂ with pending := none } : Reading) = s₂ := by rw [← hs₂]
            rw [← hsame]
            exact hsettle
          refine hgo rfl (Nat.lt_succ_of_lt (Nat.lt_succ_self _)) (hgroup value hplain (Reading.ne_empty_of_setValue hset)) ?_ hok
          rw [Reading.takeAll_append, htake]
          exact Reading.takeAll_singleton.trans hset
        | argument hfile hplain hnone =>
          obtain ⟨s₂, hsettle, hok⟩ := settle_of_outline rfl hok
          rw [Reading.settle_argument hs hnone] at hsettle
          have hgroup : Group level [.argument text] [text] := .argument hfile hplain (Reading.take_argument hsettle).2.1
          exact hgo rfl (Nat.lt_succ_self _) hgroup (Reading.takeAll_singleton.trans hsettle) hok

/-! ## Levels below levels -/

/-- The outline of what is given at a level and at the levels below it. -/
def outlineOf (given : List (List Item)) (command : Command) : Outline where
  config := (given.filterMap (valueOf? .config)).getLast?
  configEverywhere := given.all fun items => (valueOf? .config items).isSome
  verbose := given.any fun items => decide (.flag .verbose ∈ items)
  command := command

theorem finish_readingOf :
    (readingOf items).finish level = .ok o ↔ ∃ command, level.command? items = some command ∧ o = outlineOf [items] command := by
  have hconfig : valueOf? .config items = ([items].filterMap (valueOf? .config)).getLast? := by
    cases h : valueOf? .config items <;> simp [h]
  rw [Reading.finish, Reading.settle_of_none rfl]
  cases level with
  | compile => simp [Level.command?, outlineOf, readingOf, ← hconfig, bind, Except.bind, eq_comm]
  | «show» => simp [Level.command?, outlineOf, readingOf, ← hconfig, bind, Except.bind, eq_comm]
  | init =>
    cases hfile : argumentOf? items <;>
      simp [Level.command?, outlineOf, readingOf, hfile, ← hconfig, bind, Except.bind, eq_comm]
  | program => simp [Level.command?, bind, Except.bind]
  | config => simp [Level.command?, bind, Except.bind]

theorem above_readingOf (given : List (List Item)) (command : Command) :
    (readingOf items).above (outlineOf given command) = .ok (outlineOf (items :: given) command) := by
  rw [Reading.above, Reading.settle_of_none rfl]
  cases h : valueOf? .config items <;>
    simp [outlineOf, readingOf, h, bind, Except.bind, List.getLast?_cons, Bool.and_comm, Bool.or_comm]

/-- Behind two hyphens stands one file at most, and it is read as an argument. -/
theorem outline_hyphens_eq_ok (hs : s.pending = none) :
    outline level s ("--" :: rest) = .ok o ↔ ∃ (file : Option String) (s' : Reading), rest = file.toList ∧
      (∀ text ∈ file, level.TakesFile ∧ text ≠ "") ∧ s.takeAll (file.toList.map .argument) = .ok s' ∧ s'.finish level = .ok o := by
  constructor
  · intro hok
    cases rest with
    | nil =>
      rw [outline_hyphens] at hok
      exact ⟨none, s, rfl, nofun, rfl, hok⟩
    | cons text rest =>
      rw [outline_hyphens, List.foldlM_cons] at hok
      obtain ⟨s₁, hrest, hok⟩ := bind_eq_ok.1 hok
      obtain ⟨s₂, hplain, hrest⟩ := bind_eq_ok.1 hrest
      obtain ⟨hfile, hnone, rfl⟩ := (Reading.plain_eq_ok hs).1 hplain
      have hrest : outline level { s with pending := some (.argument text) } ("--" :: rest) = .ok o := by
        rw [outline_hyphens, hrest]
        exact hok
      obtain ⟨s', hsettle, hok⟩ := settle_of_outline rfl hrest
      rw [Reading.settle_argument hs hnone] at hsettle
      rw [outline_hyphens] at hok
      cases rest with
      | nil =>
        refine ⟨some text, s', rfl, ?_, Reading.takeAll_singleton.trans hsettle, hok⟩
        intro file hmem
        cases hmem
        exact ⟨hfile, (Reading.take_argument hsettle).2.1⟩
      | cons text' rest =>
        -- a second file finds the first one in its place
        rw [List.foldlM_cons] at hok
        obtain ⟨_, hrest, -⟩ := bind_eq_ok.1 hok
        obtain ⟨_, hplain, -⟩ := bind_eq_ok.1 hrest
        have hnone := ((Reading.plain_eq_ok (Reading.pending_of_take hs hsettle)).1 hplain).2.1
        rw [(Reading.take_argument hsettle).2.2] at hnone
        cases hnone
  · rintro ⟨file, s', rfl, hfile, htake, hok⟩
    cases file with
    | none =>
      cases htake
      rw [outline_hyphens]
      exact hok
    | some text =>
      have htake := Reading.takeAll_singleton.symm.trans htake
      have hnone := (Reading.take_argument htake).1
      rw [outline_hyphens, Option.toList_some, List.foldlM_cons, (Reading.plain_eq_ok hs).2 ⟨(hfile text rfl).1, hnone, rfl⟩]
      show Reading.finish level _ = _
      rw [Reading.finish, Reading.settle_argument hs hnone, htake, ← hok, Reading.finish,
        Reading.settle_of_none (Reading.pending_of_take hs htake)]

/-- The words from a level on that are read ask for a command. -/
theorem written_of_outline (hok : outline level {} words = .ok o) :
    ∃ given command, Written level words given command ∧ o = outlineOf given command := by
  induction hn : words.length using Nat.strongRecOn generalizing level words o with
  | _ n ih =>
    subst hn
    obtain ⟨items, front, rest, s', rfl, hspelled, htake, hstops, hok⟩ := exists_of_outline rfl hok
    obtain ⟨hnodup, rfl⟩ := (takeAll_eq_ok hspelled.sound).1 htake
    rcases hstops with rfl | ⟨rest, rfl⟩ | ⟨name, rest, next, rfl, hnext⟩
    · rw [outline_nil] at hok
      obtain ⟨command, hcommand, rfl⟩ := finish_readingOf.1 hok
      rw [List.append_nil]
      exact ⟨[items], command, .command (.plain hspelled) hnodup hcommand, rfl⟩
    · obtain ⟨file, s', rfl, hfile, htakefile, hok⟩ := (outline_hyphens_eq_ok rfl).1 hok
      have htake : ({} : Reading).takeAll (items ++ file.toList.map .argument) = .ok s' := by
        rw [Reading.takeAll_append, htake]
        exact htakefile
      have hended : Ended level (items ++ file.toList.map .argument) (front ++ "--" :: file.toList) :=
        .hyphens hspelled hfile
      obtain ⟨hnodup, rfl⟩ := (takeAll_eq_ok hended.sound).1 htake
      obtain ⟨command, hcommand, rfl⟩ := finish_readingOf.1 hok
      exact ⟨[_], command, .command hended hnodup hcommand, rfl⟩
    · rw [outline_subcommand rfl hnext] at hok
      obtain ⟨below, hbelow, hok⟩ := bind_eq_ok.1 hok
      obtain ⟨given, command, hwritten, rfl⟩ := ih _ (by simp; omega) hbelow rfl
      rw [above_readingOf] at hok
      cases hok
      exact ⟨items :: given, command, .subcommand hspelled hnodup hnext hwritten, rfl⟩

/-- Words that ask for a command are read as what they give. -/
theorem outline_of_written {given : List (List Item)} {command : Command} (h : Written level words given command) :
    outline level {} words = .ok (outlineOf given command) := by
  induction h with
  | command hended hnodup hcommand =>
    have htake := (takeAll_eq_ok hended.sound).2 ⟨hnodup, rfl⟩
    have hfinish := finish_readingOf.2 ⟨_, hcommand, rfl⟩
    cases hended with
    | plain hspelled =>
      have hread := outline_spelled [] hspelled rfl htake
      rw [List.append_nil, outline_nil] at hread
      exact hread.trans hfinish
    | hyphens hspelled hfile =>
      rw [Reading.takeAll_append] at htake
      obtain ⟨s₁, hitems, hargument⟩ := bind_eq_ok.1 htake
      rw [outline_spelled _ hspelled rfl hitems]
      exact (outline_hyphens_eq_ok (Reading.pending_of_takeAll rfl hitems)).2
        ⟨_, _, rfl, hfile, hargument, hfinish⟩
  | subcommand hspelled hnodup hnext _ ih =>
    have htake := (takeAll_eq_ok hspelled.sound).2 ⟨hnodup, rfl⟩
    rw [outline_spelled _ hspelled rfl htake, outline_subcommand rfl hnext, ih]
    exact above_readingOf _ _

/-- What is read of a command line is what it asks for, and whatever asks for a command is read. -/
theorem parse_eq_ok_iff {environment : Option String} {args : List String} {i : Invocation} :
    parse environment args = .ok i ↔ Asks environment args i := by
  have heverywhere : ∀ {given : List (List Item)} {command},
      ((environment == some "" && !(outlineOf given command).configEverywhere) = true ↔
        ¬(environment = some "" → ∀ items ∈ given, valueOf? .config items ≠ none)) := by
    intro given command
    simp [outlineOf, Option.ne_none_iff_isSome]
  rw [parse, bind_eq_ok]
  constructor
  · rintro ⟨o, hok, h⟩
    obtain ⟨given, command, hwritten, rfl⟩ := written_of_outline hok
    split at h
    · cases h
    · rename_i hcond
      cases h
      exact ⟨given, hwritten, rfl, rfl, not_not.1 (mt heverywhere.2 hcond)⟩
  · rintro ⟨given, hwritten, hconfig, hverbose, henv⟩
    refine ⟨_, outline_of_written hwritten, ?_⟩
    rw [if_neg (mt heverywhere.1 (not_not.2 henv))]
    obtain ⟨config, verbose, command⟩ := i
    simp only at hconfig hverbose
    rw [hconfig, hverbose]
    rfl

example : parse none ["-vc", "a", "compile", "--output=b", "--", "-c"] =
    .ok ⟨some "a", true, .compile (some "-c") (some "b")⟩ := by rfl

/-- A command line asks for one thing at most. -/
theorem Asks.unique {environment : Option String} {args : List String} {i i' : Invocation} (h : Asks environment args i)
    (h' : Asks environment args i') : i = i' :=
  Except.ok.inj ((parse_eq_ok_iff.2 h).symm.trans (parse_eq_ok_iff.2 h'))

end SearchRules.CommandLine
