import TagScript.Rule.Basic
import TagScript.Token.Render

/-!
# Declaring blocks

A block declares parameters when its signature names `function`, or when an arrow follows it.
The name it declares stands before the first equals sign or behind the `function` keyword.
-/

namespace TagScript

/-- What follows the first free-standing `function` of a text. `fresh` says that the byte before
the text is no part of a name. -/
def afterFunction? (fresh : Bool) : Bytes → Option Bytes
  | [] => none
  | c :: text =>
    let here := if fresh then Bytes.after? "function" (c :: text) else none
    (here.filter fun rest => !rest.head?.any isNamePart).or (afterFunction? (!isNamePart c) text)

/-- Whether a text holds a free-standing `function`. -/
def namesFunction (text : Bytes) : Bool := (afterFunction? true text).isSome

namespace Token

/-- Whether the token makes the block before it an arrow function's parameter list. A block that
names `function` itself does not. -/
def isArrowTail (token : Token) : Bool :=
  token.head.trim.startsWith arrow && !(token.isBlock && namesFunction token.head.trim)

/-- Whether the token is a block with content that declares parameters, given what follows it. -/
def declares (next : Option Token) : Token → Bool
  | .leaf .. => false
  | .block _ [] _ => false
  | .block signature (_ :: _) _ => namesFunction signature.trim || next.any isArrowTail

/-- The declaring blocks of a sibling sequence. -/
def declaring : List Token → List Token
  | [] => []
  | t :: ts => if t.declares ts.head? then t :: declaring ts else declaring ts

mutual

/-- The declaring blocks inside a token. -/
def declarationsWithin : Token → List Token
  | .leaf .. => []
  | .block _ children _ => declaring children ++ declarationsBelow children

/-- The declaring blocks inside the tokens of a sequence, block by block. -/
def declarationsBelow : List Token → List Token
  | [] => []
  | t :: ts => declarationsWithin t ++ declarationsBelow ts

end

/-- Every declaring block of a sequence: its own level first, then block by block. -/
def declarations (tokens : List Token) : List Token := declaring tokens ++ declarationsBelow tokens

end Token

/-- The name that a signature declares, if it is a plain name. -/
def ruleName? (signature : Bytes) : Option Bytes :=
  let name :=
    match signature.cut? '=' with
    | some (left, _) => left.lastField?
    | none => (afterFunction? true signature).map fun (rest : Bytes) =>
        (Bytes.dropTail "(" (Bytes.dropLead "*" rest.trim).trim).trim
  name.filter Bytes.isIdent

/-- The tagged parameters in a declaring block's content, nested groups flattened. -/
def taggedParameters (content : List Token) : List Parameter :=
  (decodeParameters (Bytes.join "\n" ((Token.leavesAll content).map Token.head))).filter
    (!·.type.isEmpty)

/-- The rule that a declaring block yields: it has a name and at least one tagged parameter. -/
def Token.rule? : Token → Option Rule
  | .leaf .. => none
  | .block signature children offset => do
    let name ← ruleName? signature
    let parameters := taggedParameters children
    guard (!parameters.isEmpty)
    return { name, parameters, declaration := children, offset }

/-- The rules that a sibling sequence declares, in source order. -/
def declaredRules (tokens : List Token) : List Rule :=
  (Token.declaring tokens).filterMap Token.rule?

end TagScript
