import TagScript.Command.Run

/-!
# The command line

The program on a machine: files, clock and user are those of the system, and an interactive
session reads its lines from the standard input.
-/

namespace TagScript

namespace Host

/-- Bytes as a string; bytes that are not valid UTF-8 are read one by one. -/
def string (text : Bytes) : String :=
  (String.fromUTF8? ⟨text.toArray⟩).getD (String.ofList (text.map fun c => Char.ofNat c.toNat))

/-- A string as bytes. -/
def bytes (s : String) : Bytes := s.toUTF8.toList

/-- Why the system refused an operation. -/
def fault : IO.Error → FileFault
  | .noFileOrDirectory .. => .missing
  | .alreadyExists .. => .occupied
  | .invalidArgument _ 22 _ => .invalid
  | .invalidArgument _ 36 _ => .nameTooLong
  | .inappropriateType _ _ details =>
    if details = "is a directory" || details = "Is a directory" then .isDirectory else .notDirectory
  | e => .other (bytes e.toString)

/-- Try an operation on a path. -/
def attempt (action : FileAction) (path : Path) (operation : IO α) : IO (Except FileError α) := do
  match FileFault.ofText? path.text with
  | some fault => return .error ⟨action, path.text, fault⟩
  | none =>
    try
      return .ok (← operation)
    catch e =>
      return .error ⟨action, path.text, fault e⟩

/-- The working directory. -/
def workingDirectory : IO Path := do
  return (Path.ofText (bytes (← IO.currentDir).toString)).clean

/-- What a path leads to. -/
def look (path : Path) : IO (Except FileError NodeKind) :=
  attempt .look path do
    let data ← ((← IO.currentDir) / string path.text).metadata
    return if data.type matches .dir then .directory else .file

/-- The content of a file. -/
def readFile (path : Path) : IO (Except FileError Bytes) := do
  match ← look path with
  | .ok .directory => return .error ⟨.readFile, path.text, .isDirectory⟩
  | _ => attempt .openFile path do return (← IO.FS.readBinFile (string path.text)).toList

/-- The files below a directory. -/
def filesBelow (path : Path) : IO (List Path) := do
  let entries ← ((← IO.currentDir) / string path.text).walkDir
  let files ← entries.toList.filterM fun entry => do return (← entry.metadata).type matches .file
  return files.map fun entry => Path.ofText (bytes entry.toString)

/-- Remove what a path leads to, and all below it. -/
def removeAll (path : Path) : IO (Except FileError Unit) := do
  match ← look path with
  | .ok .directory => attempt .remove path (IO.FS.removeDirAll (string path.text))
  | .ok .file => attempt .remove path (IO.FS.removeFile (string path.text))
  | .error e => return if e.fault = .missing then .ok () else .error { e with action := .remove }

/-- Make the directories that lead on from a path, one in another, until one cannot be made. -/
def makeFrom (path : Path) : List Bytes → IO (Except FileError Unit)
  | [] => return .ok ()
  | name :: rest => do
    let here : Path := { path with parts := path.parts ++ [name] }
    match ← look here with
    | .ok .directory => makeFrom here rest
    | .ok .file => return .error ⟨.makeDirectory, here.text, .notDirectory⟩
    | .error _ =>
      match ← attempt .makeDirectory here (IO.FS.createDir (string here.text)) with
      | .ok () => makeFrom here rest
      | .error e => return .error e

/-- Make a directory and those on the way to it. -/
def makeDirectories (path : Path) : IO (Except FileError Unit) :=
  makeFrom { path with parts := [] } path.parts

/-- Give a file a content. -/
def writeFile (path : Path) (content : Bytes) : IO (Except FileError Unit) := do
  match ← look path with
  | .ok .directory => return .error ⟨.openFile, path.text, .isDirectory⟩
  | _ => attempt .openFile path (IO.FS.writeBinFile (string path.text) ⟨content.toArray⟩)

/-- The name of the user, as far as the surroundings tell. -/
def userName : IO Bytes := do
  match ← IO.getEnv "USER" with
  | some name => return bytes name
  | none => return "there"

instance : MonadHost IO where
  workingDirectory := workingDirectory
  userName := userName
  now := IO.monoNanosNow
  look := look
  readFile := readFile
  filesBelow := filesBelow
  removeAll := removeAll
  makeDirectories := makeDirectories
  writeFile := writeFile

/-- Write bytes to a stream at once. -/
def emit (stream : IO.FS.Stream) (text : Bytes) : IO Unit := do
  stream.write ⟨text.toArray⟩
  stream.flush

/-- Read lines and respond to them until the input ends or a line is too long. -/
partial def converse (color : Bool) (s : Session) (stdin stdout : IO.FS.Stream) : IO Unit := do
  emit stdout Session.prompt
  let line := bytes (← stdin.getLine)
  match Session.inputLines line with
  | [entry] =>
    let (s', shown) := s.respond color entry
    emit stdout shown
    converse color s' stdin stdout
  | _ => emit stdout "\n"

end Host

/-- Carry out a command line on this machine. -/
def runSystem (arguments : List String) : IO UInt32 := do
  let stdin ← IO.getStdin
  let stdout ← IO.getStdout
  let stderr ← IO.getStderr
  let terminal := (← stdout.isTty) && (← stderr.isTty)
  let outcome ← (runArguments { terminal } (arguments.map Host.bytes) : IO Outcome)
  Host.emit stdout outcome.stdout
  Host.emit stderr outcome.stderr
  match outcome.session with
  | some request => Host.converse request.color { options := request.options } stdin stdout
  | none => pure ()
  return outcome.code.toUInt32

end TagScript

/-- Carry out the command line and end with its code. -/
def main (arguments : List String) : IO UInt32 := TagScript.runSystem arguments
