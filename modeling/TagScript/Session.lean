import TagScript.Compile
import TagScript.Diagnostic.Report
import TagScript.Text.Space

/-!
# Interactive sessions

A session compiles each entry together with all entries accepted before it. An entry that does
not compile is reported and leaves the session as it was.
-/

namespace TagScript

/-- The accepted entries of a session and what they compile to. -/
structure Session where
  options : CompileOptions := {}
  /-- The accepted entries, one to a line. -/
  source : Bytes := []
  /-- What the source compiles to. -/
  output : Bytes := []
  /-- How many entries have been accepted. -/
  entries : Nat := 0
  deriving DecidableEq, Repr

namespace Session

/-- The source that an entry is compiled in. -/
def candidate (s : Session) (entry : Bytes) : Bytes :=
  if s.source.isEmpty then entry else s.source ++ "\n" ++ entry

/-- What a new output adds to the one before; all of it when it does not go on from there. -/
def addedOutput (before output : Bytes) : Bytes :=
  match Bytes.after? before output with
  | some added => Bytes.dropLead "\n" added
  | none => output

/-- Try an entry: the session after it, and the output that it adds or the diagnostics about it. -/
def eval (s : Session) (entry : Bytes) : Session × Except (List Diagnostic) Bytes :=
  let result := compile s.options (s.candidate entry)
  if result.failed then (s, .error result.diagnostics)
  else
    ({ s with source := s.candidate entry, output := result.output, entries := s.entries + 1 },
      .ok (addedOutput s.output result.output))

/-- What stands in front of each line that is read. -/
def prompt : Bytes := ">> "

/-- Read a line: the session after it, and what is shown. Blank lines are passed over. -/
def respond (color : Bool) (s : Session) (line : Bytes) : Session × Bytes :=
  if line.isBlank then (s, [])
  else match s.eval line with
    | (s', .ok added) => (s', if added.isEmpty then [] else added ++ "\n")
    | (s', .error diagnostics) =>
      (s', (Reporter.ofSource color "<repl>" (s.candidate line)).formatAll diagnostics)

/-- Everything that is shown while the given lines are read, up to the end of the input. -/
def transcriptFrom (color : Bool) (s : Session) : List Bytes → Bytes
  | [] => prompt ++ "\n"
  | line :: rest =>
    let (s', shown) := s.respond color line
    prompt ++ shown ++ transcriptFrom color s' rest

/-- A line this long, or longer, ends the input. -/
def lineLimit : Nat := 65536

/-- A line without the carriage return at its end. -/
def dropReturn (line : Bytes) : Bytes := Bytes.dropTail "\r" line

/-- The lines of an input, up to the first that is too long. -/
def inputLines (input : Bytes) : List Bytes :=
  let pieces := input.split '\n'
  let lines := if pieces.getLast? = some [] then pieces.dropLast else pieces
  (lines.takeWhile (·.length < lineLimit)).map dropReturn

/-- Everything that is shown in a session that reads the given input. -/
def transcript (color : Bool) (options : CompileOptions) (input : Bytes) : Bytes :=
  transcriptFrom color { options } (inputLines input)

end Session

end TagScript
