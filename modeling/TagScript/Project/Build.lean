import TagScript.Project.Config

/-!
# Building a project

A build compiles every script below the input and writes the results below the output root, at
the same relative paths with another extension. Other files are copied. The output root is
emptied first, so it must neither hold the input nor lie within it. A file that fails is reported
and does not stop the others.
-/

namespace TagScript

/-- What was done with a file. -/
inductive BuildAction where
  | compiled
  | copied
  | failed
  deriving DecidableEq, Repr

namespace BuildAction

/-- The name of an action. -/
def name : BuildAction → Bytes
  | .compiled => "compiled"
  | .copied => "copied"
  | .failed => "failed"

/-- The actions in the order of their numbers. -/
def all : List BuildAction := [.compiled, .copied, .failed]

/-- The name of the action with a number, or `unknown` when there is none. -/
def nameOf (number : Int) : Bytes :=
  match (if 0 ≤ number then all[number.toNat]? else none) with
  | some action => action.name
  | none => "unknown"

end BuildAction

/-- Why a file could not be read or its result not be written. -/
inductive FileProblem where
  | opening (source : Path) (error : FileError)
  | reading (source : Path) (error : FileError)
  /-- A directory or a copy could not be made. -/
  | making (target : Path) (error : FileError)
  | writing (target : Path) (error : FileError)
  deriving DecidableEq, Repr

/-- The problem in words. -/
def FileProblem.message : FileProblem → Bytes
  | .opening source e => "failed to open " ++ source.text ++ ": " ++ e.message
  | .reading source e => "failed to read " ++ source.text ++ ": " ++ e.message
  | .making target e => "failed to create " ++ target.text ++ ": " ++ e.message
  | .writing target e => "failed to write " ++ target.text ++ ": " ++ e.message

/-- What became of one file. -/
structure FileReport where
  source : Path
  /-- The path of the file below the input. -/
  rel : Bytes
  /-- The file that was written, if one was. -/
  output : Option Path := none
  action : BuildAction
  diagnostics : List Diagnostic := []
  problem : Option FileProblem := none
  /-- The text of a script that could be read. -/
  content : Bytes := []
  /-- How long it took, in nanoseconds. -/
  duration : Nat := 0

/-- What became of all files. -/
structure BuildReport where
  files : List FileReport
  /-- How long it took, in nanoseconds. -/
  duration : Nat

namespace BuildReport

/-- How many files ended with an action. -/
def count (r : BuildReport) (action : BuildAction) : Nat := r.files.countP (·.action = action)

/-- Whether a file failed. -/
def failed (r : BuildReport) : Bool := r.files.any (·.action = .failed)

end BuildReport

/-- Why there was no build. -/
inductive BuildError where
  | unreadableInput (error : FileError)
  | overlap (out input : Path)
  | clearingOut (error : FileError)
  | makingOut (error : FileError)
  | cancelled
  deriving DecidableEq, Repr

/-- The error in words. -/
def BuildError.message : BuildError → Bytes
  | .unreadableInput e => "failed to read input: " ++ e.message
  | .overlap out input => "output root " ++ out.text ++ " overlaps input " ++ input.text
  | .clearingOut e => "failed to clear output root: " ++ e.message
  | .makingOut e => "failed to create output root: " ++ e.message
  | .cancelled => "context canceled"

namespace Build

/-- The text of the way from a root to a file, or the name of the file when there is none. -/
def relativeText (root path : Path) : Bytes := (Path.wayText? root path).getD path.lastPart

/-- Where the copy of a file goes. -/
def copyTarget (out : Path) (rel : Bytes) : Path := out.join (Path.ofText rel)

/-- Where the result of a script goes. -/
def scriptTarget (c : Config) (out : Path) (rel : Bytes) : Path :=
  out.join (Path.ofText (Bytes.dropTail c.sourceExt rel ++ c.targetExt))

variable {m : Type → Type} [Monad m] [MonadHost m]

/-- Write a file, making the directories on the way to it. `asProblem` says what a failure of the
last step is. -/
def write (asProblem : Path → FileError → FileProblem) (target : Path) (content : Bytes) :
    m (Except FileProblem Unit) := do
  match ← MonadHost.makeDirectories target.directory with
  | .error e => return .error (.making target.directory e)
  | .ok () =>
    match ← MonadHost.writeFile target content with
    | .error e => return .error (asProblem target e)
    | .ok () => return .ok ()

/-- Copy a file. -/
def copyFile (report : FileReport) (target : Path) : m FileReport := do
  match ← MonadHost.readFile report.source with
  | .error e => return { report with problem := some (.opening report.source e) }
  | .ok content =>
    match ← write .making target content with
    | .error problem => return { report with problem := some problem }
    | .ok () => return { report with action := .copied, output := some target }

/-- Compile a script and write the result. -/
def compileFile (c : Config) (report : FileReport) (target : Path) : m FileReport := do
  match ← MonadHost.readFile report.source with
  | .error e => return { report with problem := some (.reading report.source e) }
  | .ok content =>
    let report := { report with content }
    let result := compile c.compileOptions content
    if result.failed then return { report with diagnostics := result.diagnostics }
    else match ← write .writing target result.output with
      | .error problem => return { report with problem := some problem }
      | .ok () => return { report with action := .compiled, output := some target }

/-- Compile or copy a file below a root. -/
def processFile (c : Config) (root out path : Path) : m FileReport :=
  let rel := relativeText root path
  let report : FileReport := { source := path, rel, action := .failed }
  if path.text.endsWith c.sourceExt then compileFile c report (scriptTarget c out rel)
  else copyFile report (copyTarget out rel)

/-- Compile or copy a file, and take the time. -/
def buildFile (c : Config) (root out path : Path) : m FileReport := do
  let start ← MonadHost.now
  let report ← processFile c root out path
  let stop ← MonadHost.now
  return { report with duration := stop - start }

/-- The files of an input in order of path. -/
def collectFiles (input : Path) : NodeKind → m (List Path)
  | .file => return [input]
  | .directory => do
    let files ← MonadHost.filesBelow input
    return files.mergeSort fun a b => Bytes.le a.text b.text

/-- Empty the output root. -/
def resetOut (out : Path) : m (Except BuildError Unit) := do
  match ← MonadHost.removeAll out with
  | .error e => return .error (.clearingOut e)
  | .ok () =>
    match ← MonadHost.makeDirectories out with
    | .error e => return .error (.makingOut e)
    | .ok () => return .ok ()

/-- The reports of files, in order of their relative path. -/
def sortReports (reports : List FileReport) : List FileReport :=
  reports.mergeSort fun a b => Bytes.le a.rel b.rel

/-- Build from an input that exists into an output root apart from it. -/
def buildInto (cancelled : Bool) (c : Config) (input out : Path) (kind : NodeKind) :
    m (Except BuildError (List FileReport)) := do
  let files ← collectFiles input kind
  match ← resetOut out with
  | .error e => return .error e
  | .ok () =>
    if cancelled && !files.isEmpty then return .error .cancelled
    else
      let root := if kind = .directory then input else input.directory
      let reports ← files.mapM (buildFile c root out)
      return .ok (sortReports reports)

end Build

variable {m : Type → Type} [Monad m] [MonadHost m]

/-- Build a project. Nothing is touched when the input is missing or overlaps the output root. -/
def build (cancelled : Bool) (c : Config) : m (Except BuildError BuildReport) := do
  let start ← MonadHost.now
  let here ← MonadHost.workingDirectory
  let input := (Path.ofText c.input).absolute here
  let out := (Path.ofText c.out).absolute here
  match ← MonadHost.look input with
  | .error e => return .error (.unreadableInput e)
  | .ok kind =>
    if Path.overlaps out input then return .error (.overlap out input)
    else match ← Build.buildInto cancelled c input out kind with
      | .error e => return .error e
      | .ok files =>
        let stop ← MonadHost.now
        return .ok ⟨files, stop - start⟩

end TagScript
