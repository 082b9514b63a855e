import TagScript.Tag.Declaration
import TagScript.Tag.Parameter
import TagScript.Token.Basic

/-!
# Stripping tags

Declaration tags are taken out of the heads of a level, parameter tags out of everything inside
a declaring block. A default value behind a parameter tag is kept.
-/

namespace TagScript

/-- A text without the declaration tag it carries. -/
def untagged (head : Bytes) : Bytes :=
  match Tag.parse? head with
  | some tag => tag.stripped
  | none => head

/-- A token whose head is without its declaration tag. -/
def Token.untag (token : Token) : Token := token.setHead (untagged token.head)

/-- A piece between two commas without its parameter tag. -/
def stripPiece (piece : Bytes) : Bytes :=
  match pipeIndex? piece with
  | none => piece
  | some index =>
    let name := Bytes.trim (piece.take index)
    match (piece.drop index).dropWhile fun (c : UInt8) => c ≠ '=' with
    | [] => name
    | value => name ++ " " ++ Bytes.trim value

/-- A parameter text without its parameter tags; a text without a single pipe is kept as it is. -/
def stripParameters (text : Bytes) : Bytes :=
  if (pipeIndex? text).isNone then text
  else Bytes.join "," ((text.split ',').map fun piece => stripPiece piece.trim)

mutual

/-- The token with parameter tags stripped from it and from everything inside it. -/
def Token.strip : Token → Token
  | .leaf text offset => .leaf (stripParameters text) offset
  | .block signature children offset =>
    .block (stripParameters signature) (Token.stripAll children) offset

/-- A sequence with parameter tags stripped everywhere. -/
def Token.stripAll : List Token → List Token
  | [] => []
  | t :: ts => t.strip :: Token.stripAll ts

end

end TagScript
