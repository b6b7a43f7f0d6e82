import SearchRules.CommandLine.Arguments

/-!
# What command lines ask for

A command line gives options and arguments at every level, from the program down to the subcommand that is carried out. What may be
given (`Item`), how it may be written (`Group`, `Spelled`, `Ended`) and what it asks for (`Written`, `Asks`) is said here without a
reader. An option has a name and a letter of its own, letters may stand together behind one hyphen, and a value is a word of its own or
stands in the word of its option.
-/

namespace SearchRules.CommandLine

/-! ## How a command line is written -/

/-- The long name of an option. -/
def Opt.name : Opt → String
  | .config => "config"
  | .output => "output"
  | .verbose => "verbose"
  | .force => "force"
  | .help => "help"
  | .version => "version"

/-- The letter of an option. -/
def Opt.letter : Opt → Char
  | .config => 'c'
  | .output => 'o'
  | .verbose => 'v'
  | .force => 'f'
  | .help => 'h'
  | .version => 'V'

/-- What is given on a command line: a value of an option, an option that has none, or an argument that is no option. -/
inductive Item where
  | value (o : Opt) (text : String)
  | flag (o : Opt)
  | argument (text : String)
  deriving DecidableEq

/-- The option an item is about, if it is about one. -/
def Item.option? : Item → Option Opt
  | .value o _ | .flag o => some o
  | .argument _ => none

/-- Whether a level knows an option that has a value. -/
def Level.Valued (level : Level) (o : Opt) : Prop :=
  level.knows o = true ∧ (o = .config ∨ o = .output)

/-- Whether a level knows an option that has no value and goes on with the command. -/
def Level.Flag (level : Level) (o : Opt) : Prop :=
  level.knows o = true ∧ (o = .verbose ∨ o = .force)

/-- Whether a level takes an argument that is no option: the name of a file. -/
def Level.TakesFile (level : Level) : Prop :=
  level = .compile ∨ level = .init

/-- Whether a word is not read as options: a hyphen alone is not. -/
def Plain (text : String) : Prop :=
  ∀ c cs, text.toList ≠ '-' :: c :: cs

/-- How items may be written at a level: the items, and the words they are written in. -/
inductive Group (level : Level) : List Item → List String → Prop where
  | argument {text : String} : level.TakesFile → Plain text → text ≠ "" → Group level [.argument text] [text]
  | flag {o : Opt} : level.Flag o → Group level [.flag o] ["--" ++ o.name]
  /-- The long name of an option and then its value. -/
  | apart {o : Opt} {text : String} : level.Valued o → Plain text → text ≠ "" → Group level [.value o text] ["--" ++ o.name, text]
  | joined {o : Opt} {text : String} : level.Valued o → text ≠ "" → Group level [.value o text] ["--" ++ o.name ++ "=" ++ text]
  /-- Several options in one word. -/
  | letters {os : List Opt} : os ≠ [] → (∀ o ∈ os, level.Flag o) →
      Group level (os.map .flag) [String.ofList ('-' :: os.map Opt.letter)]
  /-- The last letter may be of an option whose value is the next word. -/
  | lettersApart {os : List Opt} {o : Opt} {text : String} : (∀ o ∈ os, level.Flag o) → level.Valued o → Plain text → text ≠ "" →
      Group level (os.map .flag ++ [.value o text]) [String.ofList ('-' :: os.map Opt.letter ++ [o.letter]), text]
  /-- Or its value stands behind it in the same word, with or without an equals sign between. -/
  | lettersJoined {os : List Opt} {o : Opt} {text : String} {cs : List Char} : (∀ o ∈ os, level.Flag o) → level.Valued o → text ≠ "" →
      (cs = '=' :: text.toList ∨ cs = text.toList ∧ cs.head? ≠ some '=') →
      Group level (os.map .flag ++ [.value o text]) [String.ofList ('-' :: os.map Opt.letter ++ o.letter :: cs)]

/-- How items may be written at a level one behind the other. -/
inductive Spelled (level : Level) : List Item → List String → Prop where
  | nil : Spelled level [] []
  | cons {items items' : List Item} {words words' : List String} :
      Group level items words → Spelled level items' words' → Spelled level (items ++ items') (words ++ words')

/-- How the items of the last level may be written: behind two hyphens an argument may begin with a hyphen. -/
inductive Ended (level : Level) : List Item → List String → Prop where
  | plain {items : List Item} {words : List String} : Spelled level items words → Ended level items words
  | hyphens {items : List Item} {words : List String} {file : Option String} : Spelled level items words →
      (∀ text ∈ file, level.TakesFile ∧ text ≠ "") →
      Ended level (items ++ file.toList.map .argument) (words ++ "--" :: file.toList)

/-- The value of an option among items. -/
def valueOf? (o : Opt) (items : List Item) : Option String :=
  items.findSome? fun
    | .value o' text => if o' = o then some text else none
    | _ => none

/-- The argument among items. -/
def argumentOf? (items : List Item) : Option String :=
  items.findSome? fun
    | .argument text => some text
    | _ => none

/-- The command the items of the last level ask for. -/
def Level.command? (level : Level) (items : List Item) : Option Command :=
  match level with
  | .compile => some (.compile (argumentOf? items) (valueOf? .output items))
  | .show => some .showConfig
  | .init => (argumentOf? items).map fun file => .initConfig file (decide (.flag .force ∈ items))
  | _ => none

/-- How the words from a level on may give items, level by level, and ask for a command. No option is given twice at one level. -/
inductive Written : Level → List String → List (List Item) → Command → Prop where
  | command {level : Level} {items : List Item} {words : List String} {command : Command} :
      Ended level items words → (items.map Item.option?).Nodup → level.command? items = some command →
      Written level words [items] command
  | subcommand {level next : Level} {items : List Item} {words rest : List String} {name : String} {given : List (List Item)}
      {command : Command} : Spelled level items words → (items.map Item.option?).Nodup →
      level.subcommands.lookup name = some next → Written next rest given command →
      Written level (words ++ name :: rest) (items :: given) command

/-- What a command line asks for, in an environment that may name a configuration file. A file that the command line names goes first,
and of two of these the one named at the lower level. The environment must not name the empty file, unless a file is named at every
level. -/
def Asks (environment : Option String) (args : List String) (i : Invocation) : Prop :=
  ∃ given, Written .program args given i.command ∧
    i.config = ((given.filterMap (valueOf? .config)).getLast? <|> environment) ∧
    i.verbose = given.any (fun items => decide (.flag .verbose ∈ items)) ∧
    (environment = some "" → ∀ items ∈ given, valueOf? .config items ≠ none)

/-! ## What the items of a level say -/

variable {level : Level} {items : List Item} {words : List String} {opt : Opt}

/-- Whether an item can be read: an option with a value or without, and no text that is empty. -/
def Item.Sound : Item → Prop
  | .value opt text => (opt = .config ∨ opt = .output) ∧ text ≠ ""
  | .flag opt => opt = .verbose ∨ opt = .force
  | .argument text => text ≠ ""

theorem Group.sound (h : Group level items words) : ∀ item ∈ items, item.Sound := by
  have hflags : ∀ {os : List Opt}, (∀ opt ∈ os, level.Flag opt) → ∀ item ∈ os.map Item.flag, item.Sound := by
    intro os hos item hitem
    obtain ⟨opt, hopt, rfl⟩ := List.mem_map.1 hitem
    exact (hos opt hopt).2
  cases h with
  | argument _ _ hne => simpa [Item.Sound] using hne
  | flag hopt => simpa [Item.Sound] using hopt.2
  | apart hopt _ hne => simpa [Item.Sound] using ⟨hopt.2, hne⟩
  | joined hopt hne => simpa [Item.Sound] using ⟨hopt.2, hne⟩
  | letters _ hos => exact hflags hos
  | lettersApart hos hopt _ hne => exact List.forall_mem_append.2 ⟨hflags hos, by simpa [Item.Sound] using ⟨hopt.2, hne⟩⟩
  | lettersJoined hos hopt hne _ => exact List.forall_mem_append.2 ⟨hflags hos, by simpa [Item.Sound] using ⟨hopt.2, hne⟩⟩

theorem Spelled.sound (h : Spelled level items words) : ∀ item ∈ items, item.Sound := by
  induction h with
  | nil => nofun
  | cons hgroup _ ih => exact List.forall_mem_append.2 ⟨hgroup.sound, ih⟩

theorem Ended.sound (h : Ended level items words) : ∀ item ∈ items, item.Sound := by
  cases h with
  | plain hspelled => exact hspelled.sound
  | @hyphens items words file hspelled hfile =>
    refine List.forall_mem_append.2 ⟨hspelled.sound, ?_⟩
    intro item hitem
    obtain ⟨text, htext, rfl⟩ := List.mem_map.1 hitem
    exact (hfile text (by simpa using htext)).2

theorem valueOf?_eq_none (hopt : opt = .config ∨ opt = .output) (h : ∀ item ∈ items, item.Sound) :
    valueOf? opt items = none ↔ some opt ∉ items.map Item.option? := by
  rw [valueOf?, List.findSome?_eq_none_iff, List.mem_map, not_exists]
  refine forall_congr' fun item => ?_
  rw [not_and]
  refine forall_congr' fun hitem => ?_
  cases item with
  | value o' text => simp [Item.option?]
  | argument text => simp [Item.option?]
  | flag o' =>
    have hsound : o' = .verbose ∨ o' = .force := h _ hitem
    rcases hopt with rfl | rfl <;> rcases hsound with rfl | rfl <;> simp [Item.option?]

theorem argumentOf?_eq_none : argumentOf? items = none ↔ none ∉ items.map Item.option? := by
  rw [argumentOf?, List.findSome?_eq_none_iff, List.mem_map, not_exists]
  refine forall_congr' fun item => ?_
  rw [not_and]
  refine forall_congr' fun _ => ?_
  cases item <;> simp [Item.option?]

theorem flag_notMem (hopt : opt = .verbose ∨ opt = .force) (h : ∀ item ∈ items, item.Sound) :
    .flag opt ∉ items ↔ some opt ∉ items.map Item.option? := by
  refine not_congr ⟨fun hmem => List.mem_map.2 ⟨_, hmem, rfl⟩, fun hmem => ?_⟩
  obtain ⟨item, hitem, heq⟩ := List.mem_map.1 hmem
  cases item with
  | value o' text =>
    have hsound : o' = .config ∨ o' = .output := (h _ hitem).1
    rcases hopt with rfl | rfl <;> rcases hsound with rfl | rfl <;> simp [Item.option?] at heq
  | argument text => simp [Item.option?] at heq
  | flag o' =>
    obtain rfl : o' = opt := by simpa [Item.option?] using heq
    exact hitem

theorem valueOf?_append (item : Item) : valueOf? opt (items ++ [item]) = (valueOf? opt items).or (valueOf? opt [item]) := by
  rw [valueOf?, List.findSome?_append]
  rfl

theorem argumentOf?_append (item : Item) : argumentOf? (items ++ [item]) = (argumentOf? items).or (argumentOf? [item]) := by
  rw [argumentOf?, List.findSome?_append]
  rfl

@[simp] theorem valueOf?_value (o' : Opt) (text : String) : valueOf? opt [.value o' text] = if o' = opt then some text else none := by
  by_cases h : o' = opt <;> simp [valueOf?, h]

@[simp] theorem valueOf?_flag (o' : Opt) : valueOf? opt [.flag o'] = none := rfl

@[simp] theorem valueOf?_argument (text : String) : valueOf? opt [.argument text] = none := rfl

@[simp] theorem argumentOf?_value (o' : Opt) (text : String) : argumentOf? [.value o' text] = none := rfl

@[simp] theorem argumentOf?_flag (o' : Opt) : argumentOf? [.flag o'] = none := rfl

@[simp] theorem argumentOf?_argument (text : String) : argumentOf? [.argument text] = some text := rfl

end SearchRules.CommandLine
