import TagScript.Command.Flag
import TagScript.Diagnostic.Distance
import TagScript.Text.Lowercase

/-!
# What a command line asks for

The first word of a command line that is neither a flag nor the value of one names the command, and
the next such word may choose one of its parts; the command then says which flags there are and how
many other arguments it takes.
-/

namespace TagScript

/-- The shells that completion scripts can be had for. -/
inductive Shell where
  | bash
  | zsh
  | fish
  | powershell
  deriving DecidableEq, Repr

namespace Shell

/-- All shells. -/
def all : List Shell := [.bash, .zsh, .fish, .powershell]

/-- The name of a shell. -/
def name : Shell → Bytes
  | .bash => "bash"
  | .zsh => "zsh"
  | .fish => "fish"
  | .powershell => "powershell"

end Shell

/-- The commands. -/
inductive Command where
  | build
  | check
  | tokenize
  | version
  | repl
  | help
  | completion
  /-- The part of the completion command for one shell. -/
  | completionFor (shell : Shell)
  deriving DecidableEq, Repr

namespace Command

/-- The commands that a first word can name. -/
def all : List Command := [.build, .check, .tokenize, .version, .repl, .help, .completion]

/-- The words that name a command. -/
def name : Command → Bytes
  | .build => "build"
  | .check => "check"
  | .tokenize => "tokenize"
  | .version => "version"
  | .repl => "repl"
  | .help => "help"
  | .completion => "completion"
  | .completionFor shell => "completion " ++ shell.name

/-- The command that a first word names. -/
def named? (word : Bytes) : Option Command := all.find? (·.name = word)

/-- The part of a command that a word chooses. -/
def part? (word : Bytes) : Command → Option Command
  | .completion => (Shell.all.find? (·.name = word)).map .completionFor
  | _ => none

/-- Whether a command can be run; one that cannot shows help instead. -/
def isRunnable (command : Command) : Bool := command ≠ .completion

/-- The flags that every command has. -/
def globalFlags : List Flag :=
  [{ name := "color", kind := .text }, { name := "quiet", kind := .switch },
    { name := "config", kind := .text },
    { name := "verbose", letter := some (Char.toUInt8 'v'), kind := .count }]

/-- The flag that asks for help. -/
def helpFlag : Flag := { name := "help", letter := some (Char.toUInt8 'h'), kind := .switch }

/-- The flag that asks for the version. -/
def versionFlag : Flag := { name := "version", kind := .switch }

/-- The flags that say how scripts are checked. -/
def checkFlags : List Flag :=
  [{ name := "inherit-rules", kind := .switch }, { name := "tag-parameters", kind := .switch },
    { name := "max-depth", kind := .integer }, { name := "max-diagnostics", kind := .integer }]

/-- The flag that chooses an output format. -/
def formatFlag : Flag := { name := "format", kind := .text }

/-- The flags of a command beside those that every command has. -/
def ownFlags : Command → List Flag
  | .build =>
    [{ name := "out", letter := some (Char.toUInt8 'o'), kind := .text },
      { name := "jobs", letter := some (Char.toUInt8 'j'), kind := .integer }] ++ checkFlags
  | .check => checkFlags ++ [{ name := "emit", kind := .switch }]
  | .tokenize => [formatFlag]
  | .version => [formatFlag]
  | .repl => checkFlags
  | .help => []
  | .completion => []
  | .completionFor _ => [{ name := "no-descriptions", kind := .switch }]

/-- The commands that a mistyped word may have meant: those at most two edits away, and those that
it begins. -/
def suggestions (word : Bytes) : List Bytes :=
  let word := word.lower
  let names := (all.filter (· ≠ .help)).map name
  names.filter fun name => editDistance word name ≤ 2 || name.startsWith word

end Command

/-- Why a command line is refused. -/
inductive UsageError where
  | unknownCommand (word : Bytes)
  | flag (error : FlagError)
  /-- The command takes one argument. -/
  | notOneArgument (count : Nat)
  /-- The command takes no more than one argument. -/
  | tooManyArguments (count : Nat)
  /-- The command takes no argument. -/
  | unexpectedArgument (command : Command) (argument : Bytes)
  deriving DecidableEq, Repr

namespace UsageError

/-- A suggested command on a line of its own. -/
def suggestionLine (name : Bytes) : Bytes := "\t" ++ name ++ "\n"

/-- The suggestions for a mistyped command, one to a line. -/
def suggestionLines (word : Bytes) : Bytes :=
  match Command.suggestions word with
  | [] => []
  | names => "\n\nDid you mean this?\n" ++ names.flatMap suggestionLine

/-- The error in words. -/
def message : UsageError → Bytes
  | .unknownCommand word =>
    "unknown command " ++ quoted word ++ " for \"zl\"" ++ suggestionLines word
  | .flag e => e.message
  | .notOneArgument count => "accepts 1 arg(s), received " ++ decimal count
  | .tooManyArguments count => "accepts at most 1 arg(s), received " ++ decimal count
  | .unexpectedArgument command argument =>
    "unknown command " ++ quoted argument ++ " for " ++ quoted ("zl " ++ command.name)

end UsageError

/-- What a command line asks for. -/
inductive Request where
  | help
  | version
  | run (command : Command) (settings : FlagSettings) (arguments : List Bytes)
  deriving DecidableEq, Repr

namespace Request

/-- Whether an argument is a flag that takes the next one for its value. A flag that is not known
counts as one. -/
def takesNext (argument : Bytes) : Bool :=
  if argument.contains (Char.toUInt8 '=') then false
  else match Bytes.after? "--" argument with
    | some name => !(Command.globalFlags.find? (·.name = name)).any (·.implied?.isSome)
    | none =>
      match Bytes.after? "-" argument with
      | some [letter] =>
        !(Command.globalFlags.find? (·.letter = some letter)).any (·.implied?.isSome)
      | _ => false

/-- The end of the flags. -/
def dashes : Bytes := "--"

/-- The first argument that is neither a flag nor the value of one. A flag that takes the last
argument ends the search. -/
def firstWord? : List Bytes → Option Bytes
  | [] => none
  | argument :: rest =>
    if argument = dashes then none
    else if takesNext argument then
      match rest with
      | _ :: next :: rest => firstWord? (next :: rest)
      | _ => none
    else if argument.isEmpty || argument.startsWith "-" then firstWord? rest
    else some argument

/-- The arguments without the first one that is a word and neither a flag nor the value of one. -/
def dropWord (word : Bytes) : List Bytes → List Bytes
  | [] => []
  | argument :: rest =>
    if argument = dashes then argument :: rest
    else if takesNext argument then
      match rest with
      | value :: rest => argument :: value :: dropWord word rest
      | [] => [argument]
    else if argument = word then rest
    else argument :: dropWord word rest

/-- Check how many arguments a command is given. -/
def checkCount (command : Command) (arguments : List Bytes) : Except UsageError Unit :=
  match command, arguments with
  | .build, [] => .ok ()
  | .build, [_] => .ok ()
  | .build, many => .error (.tooManyArguments many.length)
  | .check, [_] => .ok ()
  | .check, other => .error (.notOneArgument other.length)
  | .tokenize, [_] => .ok ()
  | .tokenize, other => .error (.notOneArgument other.length)
  | .repl, argument :: _ => .error (.unexpectedArgument .repl argument)
  | .completionFor shell, argument :: _ =>
    .error (.unexpectedArgument (.completionFor shell) argument)
  | _, _ => .ok ()

/-- A request without a command: for the version, or else for help. -/
def ofFlags (arguments : List Bytes) : Except UsageError Request := do
  let flags := Command.globalFlags ++ [Command.helpFlag, Command.versionFlag]
  let parsed ← (ParsedArguments.parse flags arguments).mapError .flag
  if parsed.settings.isOn "version" && !parsed.settings.isOn "help" then return .version
  return .help

/-- A request for a command. -/
def ofCommand (command : Command) (arguments : List Bytes) : Except UsageError Request := do
  let flags := command.ownFlags ++ Command.globalFlags ++ [Command.helpFlag]
  let parsed ← (ParsedArguments.parse flags arguments).mapError .flag
  if parsed.settings.isOn "help" || !command.isRunnable then return .help
  checkCount command parsed.positional
  return .run command parsed.settings parsed.positional

/-- A request for a command, or for the part of it that the next word chooses. -/
def ofCommandOrPart (command : Command) (arguments : List Bytes) : Except UsageError Request :=
  match firstWord? arguments with
  | none => ofCommand command arguments
  | some word =>
    match command.part? word with
    | none => ofCommand command arguments
    | some part => ofCommand part (dropWord word arguments)

/-- The request that a command line makes. -/
def ofArguments (arguments : List Bytes) : Except UsageError Request :=
  match firstWord? arguments with
  | none => ofFlags arguments
  | some word =>
    match Command.named? word with
    | none => .error (.unknownCommand word)
    | some command => ofCommandOrPart command (dropWord word arguments)

end Request

end TagScript
