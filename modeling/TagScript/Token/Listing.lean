import TagScript.Text.Json
import TagScript.Token.Basic

/-!
# Listings of a token tree

Two ways to show a tree: one line per token, indented by level, and indented JSON.
-/

namespace TagScript

namespace Token

/-- The word that names the token's kind. -/
def kindName : Token → Bytes
  | .leaf .. => "leaf"
  | .block .. => "block"

/-- The line that lists a token at the given level. -/
def listingLine (level : Nat) (token : Token) : Bytes :=
  Bytes.blanks (2 * level) ++ Bytes.padRight 5 token.kindName ++ " @" ++
    Bytes.padRight 5 (decimal token.offset) ++ " " ++ quoted token.head ++ "\n"

/-- The listing of a sequence: a line per token in preorder. -/
def listing (tokens : List Token) : Bytes :=
  (preorderAll 0 tokens).flatMap fun (level, token) => token.listingLine level

mutual

/-- A token as JSON; a block without content has no list of children. -/
def toJson : Token → Json
  | .leaf text offset =>
    .object [("kind", .text "leaf"), ("text", .text text), ("offset", .number offset)]
  | .block signature children offset =>
    .object (("kind", .text "block") :: ("text", .text signature) :: ("offset", .number offset) ::
      match toJsonAll children with
      | [] => []
      | items => [("children", .array items)])

/-- The tokens of a sequence as JSON values. -/
def toJsonAll : List Token → List Json
  | [] => []
  | t :: ts => toJson t :: toJsonAll ts

end

/-- A token sequence as indented JSON text. -/
def jsonListing (tokens : List Token) : Bytes := (Json.array (toJsonAll tokens)).indented 0

end Token

end TagScript
