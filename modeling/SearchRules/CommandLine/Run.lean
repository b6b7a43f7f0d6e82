import SearchRules.CommandLine.Arguments
import SearchRules.CommandLine.Directory
import SearchRules.Compile
import SearchRules.Config.Text

/-!
# Runs

A run reads what its command asks for, works out one delivery, and only then delivers it: it writes one file, or prints one
text. A run that fails has delivered nothing. What is printed comes last, and it need not arrive: the process of a run ends with
the code that tells how it went.
-/

namespace SearchRules.CommandLine

/-- Why a run fails. -/
inductive RunError where
  | refused (cause : Refusal)
  | file (path : String) (cause : FileError)
  | compile (cause : Error)
  | fileExists (path : String)

/-- The name of the program. -/
def programName : String := "fabryk-rules"

/-- The text that names the version. -/
def versionText : String := programName ++ " 0.5.0\n"

/-- The text that tells how the program is used. -/
def helpText : String :=
  "Compile front-end search rules into search-engine query documents\n\n" ++
  "Usage: " ++ programName ++ " [OPTIONS] <COMMAND>\n\n" ++
  "Commands:\n" ++
  "  compile [-o OUTPUT] [INPUT]    Compile a request document\n" ++
  "  config show                    Print the effective configuration as TOML\n" ++
  "  config init [-f] FILE          Write a default configuration file\n\n" ++
  "Options:\n" ++
  "  -c, --config CONFIG    Compiler configuration file (TOML)\n" ++
  "  -v, --verbose          Enable debug logging\n" ++
  "  -h, --help             Print help\n" ++
  "  -V, --version          Print version\n"

/-- The text of a file that cannot be read or written. -/
def fileMessage (path text : String) : String :=
  "I/O error on " ++ path ++ ": " ++ text

/-- The text of an error, if it has one of its own. -/
def RunError.message? : RunError → Option String
  | .refused .version => some versionText
  | .refused _ => none
  | .file path cause => some (fileMessage path cause.text)
  | .compile cause => some cause.message
  | .fileExists path =>
    some (configMessage ("Config file already exists at " ++ path ++ ". Use --force to overwrite."))

/-- What is printed for a command line that asks for the help or for the version. -/
def RunError.answer? (help : String) : RunError → Option String
  | .refused .help => some help
  | .refused .version => some versionText
  | _ => none

/-- The exit code of a run without a delivery. Help and version are what was asked for, so these are no failures. -/
def RunError.code : RunError → Nat
  | .refused .usage => 2
  | .refused .help | .refused .version => 0
  | _ => 1

/-- The standard input: its bytes, and what goes wrong behind them, if anything does. -/
structure Input where
  bytes : ByteArray
  fault : Option FileError := none

/-- A text as standard input. -/
instance : Coe String Input where
  coe text := { bytes := text.toUTF8 }

/-- The text of the standard input. -/
def Input.text (i : Input) : Except FileError String :=
  match i.fault with
  | some e => .error e
  | none => textOf i.bytes

/-- What a command may look at: the texts of files, whether there are files, and the standard input. -/
structure Surroundings where
  readText : String → Except FileError String
  hasPath : String → Bool
  input : Except FileError String

/-- What a command that succeeds delivers: a text to print, or a text for a file and what to print once it is written. -/
inductive Delivery where
  | print (text : String)
  | write (path text report : String)

/-- The name of the standard input and output. -/
def standardName : String := "-"

/-- Whether a path names the standard input or output: slashes and points behind the name change nothing. -/
def isStandard (path : String) : Bool :=
  match path.splitToList (· == '/') with
  | name :: rest => name == standardName && rest.all isIdle
  | [] => false

namespace Surroundings

/-- The text of a file. -/
def fileText (s : Surroundings) (path : String) : Except RunError String :=
  (s.readText path).mapError (.file path)

/-- The configuration in force: the defaults when no file is named. -/
def config (s : Surroundings) : Option String → Except RunError Config
  | none => .ok {}
  | some path => do
    let text ← s.fileText path
    (Config.read text).mapError fun e => .compile (.config e)

/-- The text of the standard input. -/
def inputText (s : Surroundings) : Except RunError String :=
  s.input.mapError (.file standardName)

/-- The text of a request: that of the file named, or of the standard input. -/
def request (s : Surroundings) : Option String → Except RunError String
  | some path => if isStandard path then s.inputText else s.fileText path
  | none => s.inputText

/-- The delivery of a document. -/
def delivery (output : Option String) (text : String) : Delivery :=
  match output with
  | some path => if isStandard path then .print (text ++ "\n") else .write path (text ++ "\n") ""
  | none => .print (text ++ "\n")

/-- What a command delivers. -/
def perform (s : Surroundings) (i : Invocation) : Except RunError Delivery :=
  match i.command with
  | .compile input output => do
    let c ← s.config i.config
    let text ← s.request input
    let document ← (compilePretty c text).mapError .compile
    .ok (delivery output document)
  | .showConfig => do
    let c ← s.config i.config
    .ok (.print c.print)
  | .initConfig file force =>
    if s.hasPath file && !force then .error (.fileExists file)
    else .ok (.write file ({} : Config).print ("Wrote default configuration to " ++ file ++ "\n"))

end Surroundings

/-- What a command sees of a directory, given the standard input. -/
def Directory.surroundings (d : Directory) (input : Input) : Surroundings where
  readText := d.readText
  hasPath := d.hasPath
  input := input.text

/-- The directory after a delivery, what is printed, and whether the delivery went well. Where a file cannot be written the
directory stays as it was. -/
def Directory.deliver (d : Directory) : Delivery → Directory × String × Except RunError Unit
  | .print text => (d, text, .ok ())
  | .write path text report =>
    match d.writeText path text with
    | .ok d => (d, report, .ok ())
    | .error e => (d, "", .error (.file path e))

/-- One run of the program. -/
structure Run where
  args : List String
  input : Input := ""
  /-- The configuration file the environment names. -/
  environment : Option String := none
  /-- What is printed for help. -/
  help : String := helpText
  /-- How many characters can be printed before printing fails, if it ever does. -/
  room : Option Nat := none

/-- The outcome of a run: what it was asked for, or why it failed, and what its command prints. -/
structure Outcome where
  result : Except RunError Invocation
  printed : String

/-- The directory after a run, and the outcome of the run. Nothing is delivered before all is read and worked out. -/
def Run.execute (r : Run) (d : Directory) : Directory × Outcome :=
  match parse r.environment r.args with
  | .error cause => (d, ⟨.error (.refused cause), ""⟩)
  | .ok i =>
    match (d.surroundings r.input).perform i with
    | .error e => (d, ⟨.error e, ""⟩)
    | .ok delivery =>
      let (d, printed, done) := d.deliver delivery
      (d, ⟨done.map fun () => i, printed⟩)

/-- How the process of a run ends: with an exit code, after it has printed a text. -/
structure Exit where
  code : Nat
  printed : String

/-- What arrives of a text that is printed. -/
def Run.arriving (r : Run) (text : String) : String :=
  match r.room with
  | none => text
  | some n => String.ofList (text.toList.take n)

/-- The end of the process of a run. A command whose text does not all arrive is broken off; help and version are not. -/
def Run.exit (r : Run) (o : Outcome) : Exit :=
  match o.result with
  | .error e => ⟨e.code, r.arriving ((e.answer? r.help).getD o.printed)⟩
  | .ok _ => ⟨if r.arriving o.printed = o.printed then 0 else 101, r.arriving o.printed⟩

/-- The directory after a sequence of runs, and their outcomes. -/
def executeAll : List Run → Directory → Directory × List Outcome
  | [], d => (d, [])
  | r :: rs, d =>
    let (d, outcome) := r.execute d
    let (d, outcomes) := executeAll rs d
    (d, outcome :: outcomes)

end SearchRules.CommandLine
