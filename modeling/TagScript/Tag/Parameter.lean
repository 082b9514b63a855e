import TagScript.Tag.Lexeme
import TagScript.Text.Space

/-!
# Parameter lists

A parameter reads `name`, `name|Type`, `name = default` or `name|Type = default`. A list that
does not read so as lexemes is split at its commas, and each piece at its first single pipe.

There may be any number of parameters, and of lexemes in a type or a default. The grammar stops at
1,000,000 repetitions of one part and does not read a longer list, which is then split; that bound
is left out.
-/

namespace TagScript

/-- A declared parameter; the type is empty when it carries none. -/
structure Parameter where
  name : Bytes
  type : Bytes
  deriving DecidableEq, Repr

/-- The position of the first `|` that is not part of `||`. -/
def pipeIndex? : Bytes → Option Nat
  | [] => none
  | [c] => if c = '|' then some 0 else none
  | c :: d :: text =>
    if c = '|' then if d = '|' then (pipeIndex? text).map (· + 2) else some 0
    else (pipeIndex? (d :: text)).map (· + 1)

namespace Parameter

/-- Whether a lexeme may be part of a parameter's type. -/
def isTypeLexeme (lexeme : Lexeme) : Bool := lexeme.kind ∈ [.name, .operator, .bracket]

/-- Whether what follows a name and its type is nothing, or an equals sign and a default. -/
def endsWell : List Lexeme → Bool
  | [] => true
  | assign :: rest => assign.kind = .assign && !rest.isEmpty

/-- The parameter that the lexemes between two commas spell. -/
def ofLexemes? : List Lexeme → Option Parameter
  | [] => none
  | name :: rest =>
    if name.kind ≠ .name then none
    else match rest with
      | [] => some ⟨name.text, []⟩
      | second :: rest =>
        if second.kind = .pipe then
          let type := rest.takeWhile isTypeLexeme
          if !type.isEmpty && endsWell (rest.dropWhile isTypeLexeme) then
            some ⟨name.text, Lexeme.joined type⟩
          else none
        else if endsWell (second :: rest) then some ⟨name.text, []⟩
        else none

/-- The lexemes between commas. -/
def groups : List Lexeme → List (List Lexeme)
  | [] => [[]]
  | lexeme :: rest =>
    if lexeme.kind = .comma then [] :: groups rest
    else match groups rest with
      | [] => [[lexeme]]
      | group :: more => (lexeme :: group) :: more

/-- The parameters of a list in which every group between commas spells one. Groups after the
first may be empty. -/
def listOfLexemes? (lexemes : List Lexeme) : Option (List Parameter) :=
  match groups lexemes with
  | [] => some []
  | first :: rest => do
    let parameter ← ofLexemes? first
    let others ← (rest.filter (!·.isEmpty)).mapM ofLexemes?
    return parameter :: others

/-- The parameter that a piece between two commas stands for. -/
def ofPiece (piece : Bytes) : Parameter :=
  match pipeIndex? piece with
  | none => ⟨piece, []⟩
  | some index =>
    ⟨Bytes.trim (piece.take index), Bytes.trim ((piece.drop (index + 1)).takeWhile (· ≠ '='))⟩

/-- The parameters of a text split at every comma; blank pieces are left out. -/
def pieces (text : Bytes) : List Parameter :=
  (((text.split ',').map Bytes.trim).filter (!·.isEmpty)).map ofPiece

end Parameter

/-- The parameters that a text declares. -/
def decodeParameters (text : Bytes) : List Parameter :=
  if text.isBlank then []
  else (Parameter.listOfLexemes? (Lexeme.visible text)).getD (Parameter.pieces text)

end TagScript
