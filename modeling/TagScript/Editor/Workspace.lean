import TagScript.Compile
import TagScript.Editor.Highlight
import TagScript.Editor.Notice
import TagScript.Editor.Uri
import TagScript.Text.Json

/-!
# The documents of an editor

An editor opens, changes and closes documents. The texts of the open documents are kept by path,
and so is what their last compilation found. A text that cannot be split into tokens leaves the tags
and rules of the text before it in place, so that completion goes on working while brackets are
being typed.
-/

namespace TagScript

/-- The open documents. -/
structure Workspace where
  options : CompileOptions := {}
  /-- Their texts by path. -/
  texts : List (Bytes × Bytes) := []
  /-- What compiling them found, by path. -/
  results : List (Bytes × Compiled) := []

/-- What a completion offers. -/
inductive CompletionKind where
  | function
  | variable
  deriving DecidableEq, Repr

/-- The number of a kind. -/
def CompletionKind.number : CompletionKind → Nat
  | .function => 3
  | .variable => 6

/-- A name to be offered, with its type or its parameters. -/
structure Completion where
  label : Bytes
  kind : CompletionKind
  detail : Bytes
  deriving DecidableEq, Repr

namespace Completion

/-- The parameters of a rule as they are declared. -/
def parametersText (rule : Rule) : Bytes :=
  "(" ++ Bytes.join ", " (rule.parameters.map fun p => p.name ++ "|" ++ p.type) ++ ")"

/-- Of neighbouring rules with one name, the first. -/
def firstOfEachName : List Rule → List Rule
  | [] => []
  | [rule] => [rule]
  | rule :: next :: rest =>
    if rule.name = next.name then firstOfEachName (rule :: rest)
    else rule :: firstOfEachName (next :: rest)

/-- The names to be offered for what was compiled: tagged variables, then rules, each in order of
name. -/
def ofCompiled (result : Compiled) : List Completion :=
  let tagged := match result.tags with
    | some tags => tags.names.map fun name => ⟨name, .variable, (tags.lookup? name).getD []⟩
    | none => []
  let rules := firstOfEachName (result.rules.mergeSort fun a b => Bytes.le a.name b.name)
  tagged ++ rules.map fun rule => ⟨rule.name, .function, parametersText rule⟩

end Completion

/-- A change to a document's text. -/
inductive TextChange where
  /-- The whole text, whatever range the editor names with it. -/
  | whole (text : Bytes)
  /-- A change of a form that is not known. -/
  | unknown

/-- What an editor tells about the document at an address. -/
inductive DocumentEvent where
  | opened (uri text : Bytes)
  | changed (uri : Bytes) (changes : List TextChange)
  | closed (uri : Bytes)

/-- The address of the document that an event is about. -/
def DocumentEvent.uri : DocumentEvent → Bytes
  | .opened uri _ => uri
  | .changed uri _ => uri
  | .closed uri => uri

namespace Workspace

/-- The number under which an editor is asked to send changed texts whole. -/
def wholeTextSync : Int := 1

/-- The roles and modifiers of highlights, as they are announced. -/
def highlightLegend : Json :=
  .object [("tokenTypes", .array (HighlightRole.all.map fun role => .text role.name)),
    ("tokenModifiers", .array (highlightModifiers.map .text))]

/-- What an editor is told at the start: it is to say when documents are opened and closed and to
send changed texts whole, names are completed in one answer, and whole documents are highlighted. -/
def announcement : Json :=
  .object [("capabilities", .object [
    ("textDocumentSync", .object [("openClose", .boolean true), ("change", .number wholeTextSync)]),
    ("completionProvider", .object [("resolveProvider", .boolean false)]),
    ("semanticTokensProvider", .object [("legend", highlightLegend), ("full", .boolean true)])])]

/-- The text of the document at a path. -/
def text? (w : Workspace) (path : Bytes) : Option Bytes := w.texts.lookup path

/-- What compiling the document at a path found. -/
def result? (w : Workspace) (path : Bytes) : Option Compiled := w.results.lookup path

/-- The workspace without the document at a path. -/
def close (w : Workspace) (path : Bytes) : Workspace :=
  { w with
    texts := w.texts.filter (·.1 ≠ path)
    results := w.results.filter (·.1 ≠ path) }

/-- What is kept of compiling a text at a path. One that cannot be split keeps the tags and rules
found there before. -/
def compiled (w : Workspace) (path text : Bytes) : Compiled :=
  let result := compile w.options text
  match w.result? path, result.tags with
  | some previous, none => { result with tags := previous.tags, rules := previous.rules }
  | _, _ => result

/-- Give the document at a path a new text; the notices about it are to be published. -/
def update (w : Workspace) (path text : Bytes) : Workspace × List Notice :=
  let result := w.compiled path text
  ({ w with
      texts := (path, text) :: w.texts.filter (·.1 ≠ path)
      results := (path, result) :: w.results.filter (·.1 ≠ path) },
    result.diagnostics.map Notice.ofDiagnostic)

/-- The text after a sequence of changes: the last one of a known form. -/
def latestText? (changes : List TextChange) : Option Bytes :=
  changes.reverse.findSome? fun
    | .whole text => some text
    | .unknown => none

/-- Apply changes to the document at a path. Without one of a known form nothing happens. -/
def change (w : Workspace) (path : Bytes) (changes : List TextChange) :
    Workspace × Option (List Notice) :=
  match latestText? changes with
  | some text =>
    let (w, notices) := w.update path text
    (w, some notices)
  | none => (w, none)

/-- Take in what an editor tells about a document: the workspace after it, and the notices to be
published if the document has got a text. The address is read first. -/
def handle (w : Workspace) (event : DocumentEvent) :
    Except UriError (Workspace × Option (List Notice)) := do
  let path ← Uri.path event.uri
  match event with
  | .opened _ text =>
    let (w, notices) := w.update path text
    return (w, some notices)
  | .changed _ changes => return w.change path changes
  | .closed _ => return (w.close path, none)

/-- The names to be offered in the document at a path. -/
def completions (w : Workspace) (path : Bytes) : List Completion :=
  match w.result? path with
  | some result => Completion.ofCompiled result
  | none => []

/-- The highlights of the document at a path in wire form. -/
def highlights (w : Workspace) (path : Bytes) : List UInt32 :=
  match w.text? path with
  | some text => Highlight.encode (Highlight.ofSource text)
  | none => []

end Workspace

end TagScript
