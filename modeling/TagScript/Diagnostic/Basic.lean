import TagScript.Source.Position
import TagScript.Text.CaseFold
import TagScript.Token.Scan

/-!
# Diagnostics

What the checker has to say about a script: a message of some kind at some place, with
suggestions, notes and help. Each kind has a code that editors show.
-/

namespace TagScript

/-- How serious a diagnostic is. -/
inductive Severity where
  | error
  | warning
  | note
  | help
  | other (name : Bytes)
  deriving DecidableEq, Repr

namespace Severity

/-- The word for a severity. -/
def name : Severity → Bytes
  | .error => "error"
  | .warning => "warning"
  | .note => "note"
  | .help => "help"
  | .other name => name

/-- The severity a word stands for. -/
def ofName (name : Bytes) : Severity :=
  ([.error, .warning, .note, .help].find? (·.name = name)).getD (.other name)

end Severity

/-- What a diagnostic complains about. -/
inductive DiagnosticKind where
  /-- Brackets that do not match or nest too deep. -/
  | brackets
  /-- A value where a tagged variable is required. -/
  | untagged
  /-- A call with the wrong number of arguments. -/
  | arity
  /-- An argument without a recorded type. -/
  | unresolved
  /-- An argument whose recorded type is not the parameter's. -/
  | mismatch
  | other (name : Bytes)
  deriving DecidableEq, Repr

namespace DiagnosticKind

/-- The kinds that have a code. -/
def coded : List DiagnosticKind := [.brackets, .untagged, .arity, .unresolved, .mismatch]

/-- The name of a kind. -/
def name : DiagnosticKind → Bytes
  | .brackets => "LexError"
  | .untagged => "TagError"
  | .arity => "ArityError"
  | .unresolved => "UnresolvedVariableError"
  | .mismatch => "TypeMismatchError"
  | .other name => name

/-- The kind of a name. -/
def ofName (name : Bytes) : DiagnosticKind := (coded.find? (·.name = name)).getD (.other name)

/-- The code of a kind; empty when it has none. -/
def code : DiagnosticKind → Bytes
  | .brackets => "E0001"
  | .untagged => "E0002"
  | .arity => "E0003"
  | .unresolved => "E0004"
  | .mismatch => "E0005"
  | .other _ => []

/-- What a kind means, in one sentence. -/
def description : DiagnosticKind → Bytes
  | .brackets => "Opening bracket has no matching closer, or brackets nest too deep"
  | .untagged => "A raw value is passed where a tagged variable is required"
  | .arity => "Call passes a different number of arguments than the declaration takes"
  | .unresolved => "Argument is not a variable declared with a type tag"
  | .mismatch => "Argument's tagged type does not match the parameter's declared type"
  | .other _ => "Unknown error code"

end DiagnosticKind

/-- What a code means, in one sentence. -/
def codeDescription (code : Bytes) : Bytes :=
  ((DiagnosticKind.coded.find? (·.code = code)).getD (.other [])).description

/-- Whether `a` comes before `b` in bytewise order. -/
def Bytes.lt (a b : Bytes) : Bool := !Bytes.le b a

/-- The part of the toolchain that a code belongs to, by its place in the order of codes. -/
def codeCategory (code : Bytes) : Bytes :=
  if code = DiagnosticKind.code .brackets then "Lexer"
  else if Bytes.lt (DiagnosticKind.code .brackets) code && Bytes.lt code "E0100" then "Tag Checking"
  else if Bytes.le "E0100" code && Bytes.lt code "E0200" then "Driver"
  else "Unknown"

/-- A suggested fix; the replacement may be empty. -/
structure Suggestion where
  message : Bytes
  replacement : Bytes := []
  deriving DecidableEq, Repr

/-- A message about a place in a script. -/
structure Diagnostic where
  severity : Severity := .error
  kind : DiagnosticKind
  code : Bytes := kind.code
  message : Bytes
  position : Position := {}
  /-- How many bytes the place spans. -/
  length : Int := 1
  suggestions : List Suggestion := []
  notes : List Bytes := []
  help : Bytes := []
  deriving DecidableEq, Repr

namespace Diagnostic

/-- The kind and the message on one line. -/
def summary (d : Diagnostic) : Bytes :=
  if d.kind.name.isEmpty then d.message else d.kind.name ++ ": " ++ d.message

/-- The diagnostic with one more suggestion. -/
def suggest (d : Diagnostic) (suggestion : Suggestion) : Diagnostic :=
  { d with suggestions := d.suggestions ++ [suggestion] }

/-- The diagnostic with one more note. -/
def addNote (d : Diagnostic) (note : Bytes) : Diagnostic := { d with notes := d.notes ++ [note] }

/-- The diagnostic with its line and column taken from its offset. -/
def locate (source : Bytes) (d : Diagnostic) : Diagnostic :=
  { d with position := Position.ofOffset source d.position.offset }

/-- A word in the plural unless there is exactly one. -/
def plural (n : Int) (word : Bytes) : Bytes := if n = 1 then word else word ++ "s"

/-- An opening bracket that is never closed. -/
def unmatchedBracket (opener : UInt8) (position : Position) : Diagnostic where
  kind := .brackets
  message := "unmatched '" ++ shownByte opener ++ "'"
  position := position
  suggestions :=
    [⟨"add the closing '" ++ [((Bracket.ofOpener? opener).getD .round).closer] ++ "'", []⟩]
  notes := ["brackets inside strings and comments are not counted"]

/-- A bracket that nests deeper than the limit. -/
def nestingTooDeep (opener : UInt8) (limit : Int) (position : Position) : Diagnostic where
  kind := .brackets
  message := "nesting too deep at '" ++ shownByte opener ++ "'"
  position := position
  notes := ["brackets may nest at most " ++ decimalInt limit ++ " levels"]
  help := "raise [check] max_depth in zl.toml if the nesting is intended"

/-- A structured value in a checked call. -/
def rawValue (callee : Bytes) (position : Position) : Diagnostic where
  kind := .untagged
  message := "raw type instead of tagged variable in call to '" ++ callee ++ "'"
  position := position
  length := callee.length
  suggestions := [⟨"declare the value first: const name : Type = ...", []⟩]
  help := "arguments of checked calls must be tagged identifiers"

/-- A literal or expression as argument number `index` of a checked call. -/
def untaggedArgument (callee argument : Bytes) (index : Int) (position : Position) :
    Diagnostic where
  kind := .untagged
  message := "argument " ++ decimalInt index ++ " of '" ++ callee ++
    "' is not a tagged variable: " ++ argument
  position := position
  length := argument.length
  suggestions := [⟨"bind the value to a tagged variable",
    "const arg" ++ decimalInt index ++ " : Type = " ++ argument⟩]

/-- A call with `actual` arguments where `expected` are declared. -/
def arityMismatch (callee : Bytes) (expected actual : Int) (position : Position) : Diagnostic where
  kind := .arity
  message := "'" ++ callee ++ "' expects " ++ decimalInt expected ++ " " ++
    plural expected "argument" ++ ", got " ++ decimalInt actual
  position := position
  length := callee.length
  suggestions :=
    [⟨"provide exactly " ++ decimalInt expected ++ " " ++ plural expected "argument", []⟩]

/-- What to suggest for a variable without a recorded type, given names like it. -/
def unresolvedAdvice (name : Bytes) : (similar : List Bytes) → Bytes
  | [] => "declare it with a tag: const " ++ name ++ " : Type = ..."
  | [one] => "did you mean '" ++ one ++ "'?"
  | several => "did you mean one of: '" ++ Bytes.join "', '" several ++ "'?"

/-- An argument without a recorded type. -/
def unresolvedVariable (name : Bytes) (position : Position) (similar : List Bytes) :
    Diagnostic where
  kind := .unresolved
  message := "unresolved variable '" ++ name ++ "'"
  position := position
  length := name.length
  suggestions := [⟨unresolvedAdvice name similar, []⟩]
  notes := ["only variables declared with a type tag can be passed to checked calls"]

/-- Argument number `index` of a checked call has a type other than its parameter's. -/
def typeMismatch (callee : Bytes) (index : Int) (parameter expected actual : Bytes)
    (position : Position) : Diagnostic where
  kind := .mismatch
  message := "type mismatch at position " ++ decimalInt index ++ " of '" ++ callee ++
    "': expected " ++ expected ++ ", found " ++ actual
  position := position
  suggestions :=
    if equalFold expected actual then [⟨"type tags are compared case-sensitively", []⟩] else []
  notes :=
    if parameter.isEmpty then []
    else ["parameter '" ++ parameter ++ "' is declared as " ++ expected]

/-- The diagnostic for a failed scan; `maxDepth` is the limit that was asked for. -/
def ofScanError (source : Bytes) (e : ScanError) (maxDepth : Int) : Diagnostic :=
  let position := Position.ofOffset source e.offset
  match e.fault with
  | .unmatched => unmatchedBracket e.opener position
  | .refused _ => nestingTooDeep e.opener (nestingLimit maxDepth) position

/-- The diagnostic for a failure to read a script that is no scan error. -/
def ofText (text : Bytes) : Diagnostic := { kind := .brackets, message := text }

end Diagnostic

end TagScript
