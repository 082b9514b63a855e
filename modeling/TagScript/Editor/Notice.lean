import TagScript.Diagnostic.Basic

/-!
# Diagnostics as an editor shows them

An editor counts lines and characters from zero, in machine words. Notes, suggestions and help
are appended to the message.
-/

namespace TagScript

/-- A diagnostic in the form that editors take. -/
structure Notice where
  startLine : UInt32
  startCharacter : UInt32
  endLine : UInt32
  endCharacter : UInt32
  severity : Nat
  code : Bytes
  source : Bytes
  message : Bytes
  deriving DecidableEq, Repr

namespace Notice

/-- An integer as a machine word, wrapping around. -/
def word (n : Int) : UInt32 := UInt32.ofNat (n % 4294967296).toNat

/-- The number of a severity. -/
def severityNumber : Severity → Nat
  | .warning => 2
  | .note => 3
  | .help => 4
  | _ => 1

/-- A title and a text behind it; nothing when the text is empty. -/
def titled (title text : Bytes) : Bytes := if text.isEmpty then [] else title ++ text

/-- A suggestion on a line of its own. -/
def suggestionLine (s : Suggestion) : Bytes :=
  "\nsuggestion: " ++ s.message ++ titled ": " s.replacement

/-- The message with notes, suggestions and help behind it. -/
def fullMessage (d : Diagnostic) : Bytes :=
  d.message ++ d.notes.flatMap (utf8 "\nnote: " ++ ·) ++ d.suggestions.flatMap suggestionLine ++
    titled "\nhelp: " d.help

/-- The notice for a diagnostic; one without a known place is put at the start. -/
def ofDiagnostic (d : Diagnostic) : Notice :=
  let line := if d.position.known then word (d.position.line - 1) else 0
  let character := if d.position.known then word (d.position.column - 1) else 0
  { startLine := line
    startCharacter := character
    endLine := line
    endCharacter := character + word (if d.length ≤ 0 then 1 else d.length)
    severity := severityNumber d.severity
    code := d.code
    source := "zl"
    message := fullMessage d }

end Notice

end TagScript
