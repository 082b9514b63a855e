import TagScript.Tag.Lexeme
import TagScript.Text.Space

/-!
# Declaration tags

A tagged declaration reads `keyword name : Type = value`. Its header is read as lexemes
first; when that fails the text is split at its colon and its first equals sign instead, which
admits type texts the lexemes do not, such as `Map<K, V>`.

A type may have any number of lexemes here. The grammar stops at 1,000,000 repetitions of one part
and does not read a longer text, which is then split; that bound is left out.
-/

namespace TagScript

/-- A decoded declaration tag. -/
structure Tag where
  keyword : Bytes
  name : Bytes
  type : Bytes
  /-- The trimmed text after the equals sign. -/
  value : Bytes
  deriving DecidableEq, Repr

namespace Tag

/-- The declaration without its type. -/
def stripped (tag : Tag) : Bytes :=
  if tag.value.isEmpty then tag.keyword ++ " " ++ tag.name ++ " ="
  else tag.keyword ++ " " ++ tag.name ++ " = " ++ tag.value

/-- Whether a lexeme may be part of a type. -/
def isTypeLexeme (lexeme : Lexeme) : Bool :=
  lexeme.kind ∈ [.name, .operator, .bracket, .number, .pipe, .other]

/-- The tag whose header reads keyword, name, colon, type and equals sign; anything may follow. -/
def ofLexemes? (text : Bytes) : Option Tag :=
  match Lexeme.visible text with
  | keyword :: name :: colon :: rest =>
    match rest.takeWhile isTypeLexeme, rest.dropWhile isTypeLexeme with
    | first :: more, assign :: _ =>
      if keyword.text ∈ declarationKeywords && name.kind = .name && colon.kind = .colon &&
          assign.kind = .assign then
        some {
          keyword := keyword.text
          name := name.text
          type := Lexeme.joined (first :: more)
          value := Bytes.trim (text.drop (assign.offset + 1)) }
      else none
    | _, _ => none
  | _ => none

/-- The tag of a text split at its colon and its first equals sign; the type must not be blank. -/
def ofSplit? (text : Bytes) : Option Tag := do
  let (keyword, rest) ← takeKeyword? text
  guard (rest.head?.any isGap)
  let (name, rest) ← Bytes.takeName? (Bytes.skipGaps rest)
  let rest ← Bytes.after? ":" (Bytes.skipGaps rest)
  let (type, value) ← Bytes.cut? '=' rest
  guard (!type.isBlank)
  return { keyword, name, type := type.trim, value := value.trim }

/-- The tag that a text carries, if it carries one. -/
def parse? (text : Bytes) : Option Tag := (ofLexemes? text).or (ofSplit? text)

end Tag

end TagScript
