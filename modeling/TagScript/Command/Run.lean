import TagScript.Command.Request
import TagScript.Project.Build
import TagScript.Release
import TagScript.Session
import TagScript.Text.Duration
import TagScript.Token.Listing

/-!
# Running commands

A command writes to two streams and ends with a code; zero means success. A command that asks for
an interactive session ends by handing it over.
-/

namespace TagScript

/-- The request for an interactive session. -/
structure SessionRequest where
  color : Bool
  options : CompileOptions
  deriving DecidableEq, Repr

/-- What a command wrote, and how it ended. -/
structure Outcome where
  code : Nat := 0
  stdout : Bytes := []
  stderr : Bytes := []
  /-- The session that follows, if one does. -/
  session : Option SessionRequest := none
  deriving DecidableEq, Repr

/-- Where a command is run. -/
structure Surroundings where
  /-- Whether both streams go to a terminal. -/
  terminal : Bool := false
  /-- How durations in nanoseconds are shown. -/
  showDuration : Nat → Bytes := fun n => durationText n

/-- Why a command failed. -/
inductive CommandError where
  | usage (error : UsageError)
  | colorMode (mode : Bytes)
  | config (error : ConfigError)
  | build (error : BuildError)
  | unreadable (error : FileError)
  | unknownFormat (format : Bytes)
  | unsupportedFormat (format : Bytes)
  deriving DecidableEq, Repr

/-- The error in words. -/
def CommandError.message : CommandError → Bytes
  | .usage e => e.message
  | .colorMode mode => "unsupported color mode " ++ quoted mode ++ " (must be auto, on or off)"
  | .config e => e.message
  | .build e => "build failed: " ++ e.message
  | .unreadable e => "failed to read file: " ++ e.message
  | .unknownFormat format => "unknown format: " ++ format
  | .unsupportedFormat format =>
    "unsupported format " ++ quoted format ++ " (must be pretty or json)"

/-- The outcome of a failure, with the error on a line of its own. -/
def CommandError.outcome (color : Bool) (e : CommandError) : Outcome :=
  { code := 1, stderr := Style.paint color [.red] "error:" ++ " " ++ e.message ++ "\n" }

namespace Command

/-- Whether a colour mode asks for colour. -/
def colorEnabled (mode : Bytes) (terminal : Bool) : Except CommandError Bool :=
  let lower := mode.lower
  if lower = ("on" : Bytes) then .ok true
  else if lower = ("off" : Bytes) then .ok false
  else if lower = ("auto" : Bytes) || lower.isEmpty then .ok terminal
  else .error (.colorMode mode)

/-- How a command is run: where, with which flags, and with colour or without. -/
structure Context extends Surroundings where
  settings : FlagSettings
  color : Bool

namespace Context

/-- Whether only what is essential is to be written. -/
def quiet (x : Context) : Bool := x.settings.isOn "quiet"

/-- Text in the given styles, if there is colour. -/
def paint (x : Context) (styles : List Style) (text : Bytes) : Bytes :=
  Style.paint x.color styles text

/-- The report on diagnostics about a file. -/
def report (x : Context) (filename source : Bytes) (diagnostics : List Diagnostic) : Bytes :=
  (Reporter.ofSource x.color filename source).formatAll diagnostics

/-- The settings of a project under the flags that were set. -/
def override (x : Context) (c : Config) : Config :=
  { c with
    out := (x.settings.text? "out").getD c.out
    jobs := (x.settings.integer? "jobs").getD c.jobs
    inheritRules := (x.settings.switch? "inherit-rules").getD c.inheritRules
    tagParameters := (x.settings.switch? "tag-parameters").getD c.tagParameters
    maxDepth := (x.settings.integer? "max-depth").getD c.maxDepth
    maxDiagnostics := (x.settings.integer? "max-diagnostics").getD c.maxDiagnostics }

/-- What is written about one file of a build. -/
def fileOutcome (x : Context) (f : FileReport) : Outcome :=
  match f.action with
  | .compiled =>
    if x.quiet then {}
    else { stdout := x.paint [.green] "compiled" ++ " " ++ f.rel ++ " " ++
      x.paint [.faint] (x.showDuration f.duration) ++ "\n" }
  | .copied =>
    if x.quiet then {} else { stdout := x.paint [.faint] "copied  " ++ " " ++ f.rel ++ "\n" }
  | .failed =>
    let problem := match f.problem with
      | some problem => x.paint [.red, .bold] "error:" ++ " " ++ problem.message ++ "\n"
      | none => []
    { stdout := x.paint [.red, .bold] "failed  " ++ " " ++ f.rel ++ "\n"
      stderr := problem ++ x.report f.source.text f.content f.diagnostics }

/-- What is written about a build. -/
def buildOutcome (x : Context) (c : Config) (r : BuildReport) : Outcome :=
  let files := r.files.map x.fileOutcome
  let duration := x.showDuration r.duration
  let failure := x.paint [.red] ("Build failed after " ++ duration ++ " (" ++
    decimal (r.count .failed) ++ " of " ++ decimal r.files.length ++ " files failed)\n")
  let success := x.paint [.green] ("Successfully built " ++ decimal r.files.length ++
    " file(s) into " ++ c.out ++ " in " ++ duration ++ "\n")
  { code := if r.failed then 1 else 0
    stdout := files.flatMap (·.stdout) ++
      (if r.failed then failure else if x.quiet then [] else success)
    stderr := files.flatMap (·.stderr) }

/-- What is written about a script that was checked. -/
def checkOutcome (x : Context) (path source : Bytes) (result : Compiled) (duration : Nat) :
    Outcome :=
  let duration := x.showDuration duration
  let tags := decimal (result.tags.elim 0 (·.size))
  let rules := decimal result.rules.length
  if result.failed then
    { code := 1
      stdout := x.paint [.red] ("Check failed after " ++ duration ++ "\n")
      stderr := x.report path source result.diagnostics }
  else if x.settings.isOn "emit" then { stdout := result.output ++ "\n" }
  else if x.quiet then {}
  else { stdout := x.paint [.green] ("Successfully checked " ++ path ++ " in " ++ duration ++
    " (" ++ tags ++ " tags, " ++ rules ++ " rules)\n") }

/-- What is written about the tokens of a script. -/
def tokensOutcome (x : Context) (format path source : Bytes) : Outcome :=
  match TagScript.tokenize source with
  | .error e =>
    { code := 1, stderr := x.report path source [.ofScanError source e defaultMaxDepth] }
  | .ok tokens =>
    if format = ("json" : Bytes) then { stdout := Token.jsonListing tokens ++ "\n" }
    else { stdout := Token.listing tokens }

/-- Release information in a format. -/
def releaseOutcome (x : Context) : Except CommandError Outcome :=
  let format := (x.settings.text? "format").getD "pretty"
  let lower := format.lower
  if lower = ("json" : Bytes) then .ok { stdout := Release.current.json }
  else if lower = ("pretty" : Bytes) then .ok { stdout := Release.summary x.terminal }
  else .error (.unsupportedFormat format)

end Context

variable {m : Type → Type} [Monad m] [MonadHost m]

/-- A step of a command that may fail for a cause of its own. -/
def attempt (cause : ε → CommandError) (step : m (Except ε α)) : ExceptT CommandError m α :=
  ExceptT.mk do return (← step).mapError cause

/-- The settings of the project file that the flags name, or of the nearest one, under the flags
that were set. `adjust` makes changes before these. -/
def projectConfig (x : Context) (start : Bytes) (adjust : Config → Config) :
    ExceptT CommandError m Config := do
  let path := (x.settings.text? "config").getD []
  let c ← attempt .config (if path.isEmpty then Config.discover start else Config.load path)
  attempt .config (pure (x.override (adjust c)).validate)

/-- The directory that a build looks for its project file from. -/
def buildStart : Option Bytes → m Bytes
  | none => return selfName
  | some path => do
    match ← MonadHost.look (Path.ofText path) with
    | .ok .file => return (Path.ofText path).directory.text
    | _ => return path

/-- Build a project, or one file or directory under its settings. -/
def runBuild (x : Context) (input : Option Bytes) : ExceptT CommandError m Outcome := do
  let start ← buildStart (m := m) input
  let c ← projectConfig x start fun c => { c with input := input.getD c.input }
  let report ← attempt .build (TagScript.build false c)
  return x.buildOutcome c report

/-- Check one script. -/
def runCheck (x : Context) (path : Bytes) : ExceptT CommandError m Outcome := do
  let start ← MonadHost.now (m := m)
  let c ← projectConfig x (Path.ofText path).directory.text id
  let source ← attempt .unreadable (MonadHost.readFile (Path.ofText path))
  let result := compile c.compileOptions source
  let stop ← MonadHost.now (m := m)
  return x.checkOutcome path source result (stop - start)

/-- List the tokens of one script. -/
def runTokenize (x : Context) (path : Bytes) : ExceptT CommandError m Outcome := do
  let format := (x.settings.text? "format").getD "pretty"
  if format ≠ ("pretty" : Bytes) && format ≠ ("json" : Bytes) then throw (.unknownFormat format)
  let source ← attempt .unreadable (MonadHost.readFile (Path.ofText path))
  return x.tokensOutcome format path source

/-- Welcome the user to an interactive session. -/
def runRepl (x : Context) : ExceptT CommandError m Outcome := do
  let c ← projectConfig x selfName id
  let user ← MonadHost.userName (m := m)
  return {
    stdout := if x.quiet then [] else "Welcome to the zl REPL, " ++ user ++ "!\n"
    session := some ⟨x.color, c.compileOptions⟩ }

/-- The line of a command in the help. -/
def helpLine (command : Command) : Bytes := "  " ++ command.name ++ "\n"

/-- The text that is shown to someone who asks for help. -/
def helpText : Bytes :=
  "zl checks type tags in .zl sources and emits plain .js\n\nUsage:\n  zl [command]\n" ++
    "\nCommands:\n" ++ all.flatMap helpLine

/-- Run a command. -/
def run (x : Context) (command : Command) (arguments : List Bytes) :
    ExceptT CommandError m Outcome :=
  match command with
  | .build => runBuild x arguments.head?
  | .check => runCheck x (arguments.headD [])
  | .tokenize => runTokenize x (arguments.headD [])
  | .version => ExceptT.mk (pure x.releaseOutcome)
  | .repl => runRepl x
  | .help => pure { stdout := helpText }
  | .completion => pure { stdout := helpText }
  | .completionFor _ => pure { stdout := helpText }

end Command

variable {m : Type → Type} [Monad m] [MonadHost m]

/-- Carry out a command line. -/
def runArguments (s : Surroundings) (arguments : List Bytes) : m Outcome := do
  match Request.ofArguments arguments with
  | .error e => return (CommandError.usage e).outcome s.terminal
  | .ok .help => return { stdout := Command.helpText }
  | .ok .version => return { stdout := "zl version " ++ Release.current.version ++ "\n" }
  | .ok (.run command settings arguments) =>
    match Command.colorEnabled ((settings.text? "color").getD "auto") s.terminal with
    | .error e => return e.outcome s.terminal
    | .ok color =>
      match ← (Command.run { s with settings, color } command arguments).run with
      | .ok outcome => return outcome
      | .error e => return e.outcome color

end TagScript
