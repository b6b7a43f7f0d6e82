/-!
# Arguments

What a command line asks for. Arguments are read from left to right, level by level: those of the program, then those of the
subcommand it names, and so on. Options may stand before or behind a subcommand. The first argument that does not fit ends the
reading, and so does the first that asks for help or for the version; a value counts only once the next argument shows that it
is complete.
-/

namespace SearchRules.CommandLine

/-- What the program is asked to do: make the document of a request, show the configuration, or write a default one. -/
inductive Command where
  | compile (input output : Option String)
  | showConfig
  | initConfig (file : String) (force : Bool)
  deriving DecidableEq, Repr

/-- A command line that fits. -/
structure Invocation where
  /-- The configuration file. -/
  config : Option String
  verbose : Bool
  command : Command
  deriving DecidableEq, Repr

/-- Why a command line leads to no command: it does not fit, or it asks for help or for the version. -/
inductive Refusal where
  | usage | help | version
  deriving DecidableEq, Repr

/-- The program and its subcommands, each of which reads the arguments of its own. -/
inductive Level where
  | program | compile | config | show | init
  deriving DecidableEq, Repr

/-- An option. -/
inductive Opt where
  | config | output | verbose | force | help | version
  deriving DecidableEq, Repr

/-- The subcommands of a level. -/
def Level.subcommands : Level → List (String × Level)
  | .program => [("compile", .compile), ("config", .config)]
  | .config => [("show", .show), ("init", .init)]
  | _ => []

/-- Whether a level knows an option. -/
def Level.knows (level : Level) : Opt → Bool
  | .config | .verbose | .help => true
  | .output => level == .compile
  | .force => level == .init
  | .version => level == .program

/-- The option of a long name. -/
def Level.longOption? (level : Level) (name : List Char) : Option Opt :=
  ([("config", .config), ("output", .output), ("verbose", .verbose), ("force", .force), ("help", .help),
    ("version", .version)].lookup (String.ofList name)).filter level.knows

/-- The option of a letter. -/
def Level.shortOption? (level : Level) (letter : Char) : Option Opt :=
  ([('c', .config), ('o', .output), ('v', .verbose), ('f', .force), ('h', .help), ('V', .version)].lookup letter).filter
    level.knows

/-- Whether an option has a value. -/
def Opt.hasValue : Opt → Bool
  | .config | .output => true
  | _ => false

/-- What the last argument has left open: an option without its value, a value, or an argument that is no option. -/
inductive Pending where
  | option (o : Opt)
  | value (o : Opt) (text : String)
  | argument (text : String)

/-- What has been read of the arguments of a level. -/
structure Reading where
  config : Option String := none
  output : Option String := none
  verbose : Bool := false
  force : Bool := false
  argument : Option String := none
  pending : Option Pending := none

namespace Reading

/-- The reading with the value of an option, which must not be empty nor be given twice. -/
def setValue (s : Reading) (o : Opt) (text : String) : Except Refusal Reading :=
  if text.isEmpty then .error .usage
  else
    match o with
    | .config => if s.config.isSome then .error .usage else .ok { s with config := some text }
    | .output => if s.output.isSome then .error .usage else .ok { s with output := some text }
    | _ => .error .usage

/-- The reading with nothing left open. -/
def settle (s : Reading) : Except Refusal Reading :=
  match s.pending with
  | none => .ok s
  | some (.option _) => .error .usage
  | some (.value o text) => ({ s with pending := none } : Reading).setValue o text
  | some (.argument text) =>
    if text.isEmpty then .error .usage else .ok { s with argument := some text, pending := none }

/-- The reading with an option that has no value, which must not be given twice. -/
def setFlag (s : Reading) (o : Opt) : Except Refusal Reading := do
  let s ← s.settle
  match o with
  | .verbose => if s.verbose then .error .usage else .ok { s with verbose := true }
  | .force => if s.force then .error .usage else .ok { s with force := true }
  | .help => .error .help
  | .version => .error .version
  | _ => .error .usage

/-- The option that waits for its value. -/
def waiting? (s : Reading) : Option Opt :=
  match s.pending with
  | some (.option o) => some o
  | _ => none

/-- The reading with the letters of an argument that begins with one hyphen. What stands behind the letter of an option that
has a value is its value, with or without an equals sign between. -/
def letters (level : Level) (s : Reading) : List Char → Except Refusal Reading
  | [] => .ok s
  | c :: cs =>
    match level.shortOption? c with
    | none => .error .usage
    | some o =>
      if o.hasValue then do
        let s ← s.settle
        match cs with
        | [] => .ok { s with pending := some (.option o) }
        | '=' :: cs => s.setValue o (String.ofList cs)
        | cs => s.setValue o (String.ofList cs)
      else do
        let s ← s.setFlag o
        s.letters level cs

/-- The reading with an argument that begins with two hyphens, given without them. -/
def long (level : Level) (s : Reading) (cs : List Char) : Except Refusal Reading :=
  let name := cs.takeWhile (· != '=')
  match level.longOption? name, cs.dropWhile (· != '=') with
  | none, _ => .error .usage
  | some o, [] =>
    if o.hasValue then do
      let s ← s.settle
      .ok { s with pending := some (.option o) }
    else s.setFlag o
  | some o, _ :: value =>
    if o.hasValue then do
      let s ← s.settle
      s.setValue o (String.ofList value)
    else .error .usage

/-- The reading with an argument that is no option: only a level that asks for a file takes one, and takes one only. -/
def plain (level : Level) (s : Reading) (text : String) : Except Refusal Reading :=
  if level == .compile || level == .init then do
    let s ← s.settle
    if s.argument.isSome then .error .usage else .ok { s with pending := some (.argument text) }
  else .error .usage

/-- The reading with an argument, of a level that does not know it as a subcommand. -/
def add (level : Level) (s : Reading) (text : String) : Except Refusal Reading :=
  match text.toList, s.waiting? with
  | '-' :: '-' :: cs, _ => s.long level cs
  | '-' :: c :: cs, _ => s.letters level (c :: cs)
  | _, some o => .ok { s with pending := some (.value o text) }
  | _, none => s.plain level text

end Reading

/-- What the arguments of a level and of the levels below it ask for. -/
structure Outline where
  /-- The configuration file, of the lowest level that names one. -/
  config : Option String
  /-- Whether every level names a configuration file. -/
  configEverywhere : Bool
  verbose : Bool
  command : Command

/-- The outline of a level that ends the command line. -/
def Reading.finish (level : Level) (s : Reading) : Except Refusal Outline := do
  let s ← s.settle
  let outline (command : Command) : Outline := ⟨s.config, s.config.isSome, s.verbose, command⟩
  match level, s.argument with
  | .compile, input => .ok (outline (.compile input s.output))
  | .show, _ => .ok (outline .showConfig)
  | .init, some file => .ok (outline (.initConfig file s.force))
  | _, _ => .error .usage

/-- The outline of a level over that of its subcommand. -/
def Reading.above (s : Reading) (below : Outline) : Except Refusal Outline := do
  let s ← s.settle
  .ok { below with
    config := below.config <|> s.config
    configEverywhere := below.configEverywhere && s.config.isSome
    verbose := below.verbose || s.verbose }

/-- Whether the arguments behind `help` name a subcommand of a level, or nothing. -/
def helpKnown (level : Level) : List String → Bool
  | [] => true
  | name :: rest =>
    match level.subcommands.lookup name with
    | some next => helpKnown next rest
    | none => name == "help" && !level.subcommands.isEmpty && rest.isEmpty

/-- The outline of the arguments of a level that are left. -/
def outline (level : Level) (s : Reading) : List String → Except Refusal Outline
  | [] => s.finish level
  | text :: rest =>
    if text == "--" then do
      let s ← rest.foldlM (Reading.plain level) s
      s.finish level
    else
      match if s.waiting?.isNone then level.subcommands.lookup text else none with
      | some next => do
        let below ← outline next {} rest
        s.above below
      | none =>
        if s.waiting?.isNone && text == "help" && !level.subcommands.isEmpty then
          .error (if helpKnown level rest then .help else .usage)
        else do
          let s ← s.add level text
          outline level s rest

/-- What a command line asks for. Where a level names no configuration file the environment is asked, and what it holds must
not be empty; a file named on the command line goes first. -/
def parse (environment : Option String) (args : List String) : Except Refusal Invocation := do
  let o ← outline .program {} args
  if environment == some "" && !o.configEverywhere then .error .usage
  else .ok ⟨o.config <|> environment, o.verbose, o.command⟩

end SearchRules.CommandLine
