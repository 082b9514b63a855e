import TagScript.Diagnostic.Basic
import TagScript.Text.Style

/-!
# Diagnostics as a report

A report shows each diagnostic with a header, the place it is about, the line in question
with the line before it, a marker under the place, and then suggestions, notes and help.
-/

namespace TagScript

/-- What a report is about: the file's name and its lines. -/
structure Reporter where
  filename : Bytes
  lines : List Bytes
  color : Bool

namespace Reporter

/-- The reporter for a source. -/
def ofSource (color : Bool) (filename source : Bytes) : Reporter :=
  ⟨filename, source.split '\n', color⟩

/-- The styles of a severity. -/
def severityStyles : Severity → List Style
  | .warning => [.yellow, .bold]
  | .note => [.blue, .bold]
  | .help => [.green, .bold]
  | _ => [.red, .bold]

/-- How wide line numbers are written; at least three columns. -/
def numberWidth (line : Int) : Nat := max 3 (decimalInt line).length

/-- The line with the given number, counted from one. -/
def line? (r : Reporter) (number : Int) : Option Bytes :=
  if 0 < number then r.lines[(number - 1).toNat]? else none

/-- The rule between a margin and what it shows. -/
def bar (r : Reporter) : Bytes := Style.paint r.color [.faint] "│"

/-- The marker under the place that a diagnostic is about. -/
def marker (r : Reporter) (d : Diagnostic) : Bytes :=
  let width := if d.length ≤ 0 then 1 else d.length.toNat
  Bytes.blanks (d.position.column - 1).toNat ++
    Style.paint r.color (severityStyles d.severity) (List.replicate width '^')

/-- The first line of a diagnostic: severity, code and message. -/
def header (r : Reporter) (d : Diagnostic) : Bytes :=
  let level := Style.paint r.color (severityStyles d.severity) d.severity.name
  if d.code.isEmpty then level ++ ": " ++ d.message ++ "\n"
  else level ++ "[" ++ d.code ++ "]: " ++ d.message ++ "\n"

/-- The lines that show the place: its name, and the source around it when it is known. -/
def place (r : Reporter) (d : Diagnostic) : Bytes :=
  let line := d.position.line
  let margin := Bytes.blanks (numberWidth line)
  let pointer := margin ++ " " ++ Style.paint r.color [.faint] "-->" ++ " " ++ r.filename
  if !d.position.known then pointer ++ "\n"
  else
    let numbered := fun (style : Style) (number : Int) (text : Bytes) =>
      Style.paint r.color [style] (Bytes.padLeft (numberWidth line) (decimalInt number)) ++ " " ++
        r.bar ++ " " ++ text ++ "\n"
    let before := match r.line? (line - 1) with
      | some text => numbered .faint (line - 1) text
      | none => []
    let shown := match r.line? line with
      | some text => numbered .bold line text ++ margin ++ " " ++ r.bar ++ " " ++ r.marker d ++ "\n"
      | none => []
    pointer ++ ":" ++ decimalInt line ++ ":" ++ decimalInt d.position.column ++ "\n" ++
      margin ++ " " ++ r.bar ++ "\n" ++ before ++ shown

/-- The lines of one suggestion; the first of a diagnostic is announced. -/
def suggestionLines (r : Reporter) (margin : Bytes) (first : Bool) (s : Suggestion) : Bytes :=
  let cyan := Style.paint r.color [.cyan]
  let title : Bytes := if first then cyan "help" ++ " " ++ cyan "try" ++ ":" else cyan "    "
  let replacement : Bytes := if s.replacement.isEmpty then []
    else margin ++ " " ++ cyan "│" ++ " " ++ cyan s.replacement ++ "\n"
  margin ++ " " ++ title ++ " " ++ s.message ++ "\n" ++ replacement

/-- The lines of all suggestions, after an empty line of the margin. -/
def suggestions (r : Reporter) (margin : Bytes) : List Suggestion → Bytes
  | [] => []
  | first :: rest =>
    margin ++ " " ++ r.bar ++ "\n" ++ r.suggestionLines margin true first ++
      rest.flatMap (r.suggestionLines margin false)

/-- The line of a note or of the help text. -/
def remark (r : Reporter) (margin : Bytes) (style : Style) (title text : Bytes) : Bytes :=
  margin ++ " " ++ r.bar ++ " " ++ Style.paint r.color [style] title ++ " " ++ text ++ "\n"

/-- One diagnostic, ended by an empty line. -/
def format (r : Reporter) (d : Diagnostic) : Bytes :=
  let margin := Bytes.blanks (numberWidth d.position.line)
  r.header d ++ r.place d ++ r.suggestions margin d.suggestions ++
    d.notes.flatMap (r.remark margin .blue "note:") ++
    (if d.help.isEmpty then [] else r.remark margin .green "help:" d.help) ++ "\n"

/-- Diagnostics one after another. -/
def formatAll (r : Reporter) (ds : List Diagnostic) : Bytes := ds.flatMap r.format

end Reporter

end TagScript
