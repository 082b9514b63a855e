import TagScript.Rule.Declaring
import TagScript.Source.Position
import TagScript.Token.Scan

/-!
# Highlighting tags

The keyword, name and type of a declaration tag and the names and types of parameter tags are
highlighted. On the wire each highlight is written relative to the one before it.
-/

namespace TagScript

/-- What a highlighted piece of text is. -/
inductive HighlightRole where
  | type
  | function
  | variable
  | parameter
  | keyword
  deriving DecidableEq, Repr

namespace HighlightRole

/-- The roles in the order in which they are announced. -/
def all : List HighlightRole := [.type, .function, .variable, .parameter, .keyword]

/-- The name under which a role is announced. -/
def name : HighlightRole → Bytes
  | .type => "type"
  | .function => "function"
  | .variable => "variable"
  | .parameter => "parameter"
  | .keyword => "keyword"

/-- The number of a role: its place in the announced order. -/
def index (role : HighlightRole) : Nat := all.idxOf role

end HighlightRole

/-- The announced modifiers; the first one marks a declaration. -/
def highlightModifiers : List Bytes := ["declaration", "readonly"]

/-- A highlighted piece of text, counted from zero. -/
structure Highlight where
  line : UInt32
  character : UInt32
  length : UInt32
  role : HighlightRole
  declares : Bool
  deriving DecidableEq, Repr

namespace Highlight

/-- The modifier bits of a highlight. -/
def modifiers (h : Highlight) : UInt32 := if h.declares then 1 else 0

/-- A stretch of text to be highlighted. -/
structure Span where
  start : Nat
  length : Nat
  role : HighlightRole
  declares : Bool
  deriving DecidableEq, Repr

/-- The text without gaps at its end. -/
def trimGapsEnd (text : Bytes) : Bytes := (Bytes.skipGaps text.reverse).reverse

/-- The keyword, name and type of the declaration tag that a head starts with. -/
def tagSpans (head : Bytes) : List Span :=
  let spans : Option (List Span) := do
    let (keyword, afterKeyword) ← takeKeyword? head
    guard (afterKeyword.head?.any isGap)
    let nameOn := Bytes.skipGaps afterKeyword
    let (name, afterName) ← Bytes.takeName? nameOn
    let afterColon ← Bytes.after? ":" (Bytes.skipGaps afterName)
    let typeOn := Bytes.skipGaps afterColon
    let (type, _) ← Bytes.cut? '=' typeOn
    let type := trimGapsEnd type
    guard (!type.isEmpty)
    return [⟨0, keyword.length, .keyword, false⟩,
      ⟨head.length - nameOn.length, name.length, .variable, true⟩,
      ⟨head.length - typeOn.length, type.length, .type, false⟩]
  spans.getD []

/-- The parameter tag at the front of a text: the length of its name, where its type starts, and
the length of its type. -/
def parameterTag? (text : Bytes) : Option (Nat × Nat × Nat) := do
  let (name, rest) ← Bytes.takeName? text
  let rest ← Bytes.after? "|" (Bytes.skipGaps rest)
  let typeOn := Bytes.skipGaps rest
  let first ← typeOn.head?
  guard (isNameStart first)
  let type := typeOn.takeWhile fun c => isNamePart c || c = '.'
  return (name.length, text.length - typeOn.length, type.length)

/-- The names and types of the parameter tags in a text that starts at the given place. `skip`
counts the bytes that belong to the tag before. -/
def parameterSpans (place skip : Nat) : Bytes → List Span
  | [] => []
  | c :: text =>
    match skip with
    | skip + 1 => parameterSpans (place + 1) skip text
    | 0 =>
      match parameterTag? (c :: text) with
      | some (nameLength, typeStart, typeLength) =>
        ⟨place, nameLength, .parameter, true⟩ :: ⟨place + typeStart, typeLength, .type, false⟩ ::
          parameterSpans (place + 1) (typeStart + typeLength - 1) text
      | none => parameterSpans (place + 1) 0 text

/-- The highlight of a stretch of the source. -/
def ofSpan (source : Bytes) (span : Span) : Option Highlight :=
  let position := Position.ofOffset source span.start
  if span.length = 0 || !position.known then none
  else some {
    line := UInt32.ofNat (position.line - 1).toNat
    character := UInt32.ofNat (position.column - 1).toNat
    length := UInt32.ofNat span.length
    role := span.role
    declares := span.declares }

/-- A span moved on by `offset` bytes. -/
def Span.shift (offset : Nat) (span : Span) : Span := { span with start := offset + span.start }

/-- The stretches of a token tree to be highlighted: declaration tags in source order, then the
parameter tags of each declaring block. -/
def spans (tokens : List Token) : List Span :=
  ((Token.preorderAll 0 tokens).flatMap fun (_, t) => (tagSpans t.head).map
    (Span.shift t.offset)) ++ (Token.declarations tokens).flatMap fun
      | .leaf .. => []
      | .block _ children _ =>
        (Token.leavesAll children).flatMap fun leaf => parameterSpans leaf.offset 0 leaf.head

/-- Whether a highlight does not start after another one. -/
def le (a b : Highlight) : Bool := a.line < b.line || (a.line = b.line && a.character ≤ b.character)

/-- The highlights of a source from top to bottom; none when it cannot be split into tokens. Those
that start at one place stay in the order in which they were found. No such order is promised, and a
sort that is not stable gives them in another one. -/
def ofSource (source : Bytes) : List Highlight :=
  match tokenize source with
  | .error _ => []
  | .ok tokens => ((spans tokens).filterMap (ofSpan source)).mergeSort le

/-- The wire form of highlights that follow one at the given line and character. -/
def encodeFrom (line character : UInt32) : List Highlight → List UInt32
  | [] => []
  | h :: rest =>
    let down := h.line - line
    let right := if down = 0 then h.character - character else h.character
    [down, right, h.length, UInt32.ofNat h.role.index, h.modifiers] ++
      encodeFrom h.line h.character rest

/-- The wire form of highlights: five words each, relative to the one before. -/
def encode (highlights : List Highlight) : List UInt32 := encodeFrom 0 0 highlights

end Highlight

end TagScript
