import TagScript.Diagnostic.Basic
import TagScript.Diagnostic.Distance
import TagScript.Rule.Basic
import TagScript.Rule.TagMap
import TagScript.Tag.Argument

/-!
# Checking a call

A checked call passes as many arguments as its rule has parameters, each a tagged variable
whose recorded type is the parameter's type. Everything else is a diagnostic that points at
the call or at the argument.
-/

namespace TagScript

/-- Words that stand before a bracket without naming what is called. -/
def nonCallees : List Bytes :=
  ["function", "if", "for", "while", "switch", "catch", "with", "return", "typeof", "void",
    "delete", "await", "yield", "in", "of", "do", "else", "case", "throw", "new", "const", "let",
    "var", "async"]

/-- The name right before the round bracket that ends a signature; members of something are none. -/
def callee? (signature : Bytes) : Option Bytes :=
  match signature.reverse with
  | [] => none
  | c :: text =>
    let text := Bytes.skipGaps text
    let name := (text.takeWhile isNamePart).reverse
    if c = '(' && Bytes.isIdent name && startsFresh (text.dropWhile isNamePart) then some name
    else none

/-- The name at the front of a signature, after a declaration keyword if a name follows it. -/
def leadingName? (signature : Bytes) : Option Bytes :=
  let declared := do
    let (_, rest) ← takeKeyword? signature
    guard (rest.head?.any isGap)
    Bytes.takeName? (Bytes.skipGaps rest)
  (declared.or (Bytes.takeName? signature)).map Prod.fst

/-- The name that a signature calls or declares; empty when there is none. -/
def callName (signature : Bytes) : Bytes :=
  let isCallee := fun name => !nonCallees.contains name
  (((callee? signature.trim).filter isCallee).or
    ((leadingName? signature.trim).filter isCallee)).getD []

/-- Find an argument in the leaves it was split from, each given by what is left of its text and
where that starts. What is left behind the argument comes along. -/
def locateArgument (argument : Bytes) :
    List (Bytes × Nat) → Option Nat × List (Bytes × Nat)
  | [] => (none, [])
  | (text, start) :: rest =>
    match Bytes.find? argument text with
    | some index =>
      let stop := index + argument.length
      (some (start + index), (text.drop stop, start + stop) :: rest)
    | none => locateArgument argument rest

/-- Where each argument starts; one that cannot be found is given the call's offset. -/
def argumentOffsets (fallback : Nat) : List Bytes → List (Bytes × Nat) → List Nat
  | [], _ => []
  | argument :: rest, leaves =>
    if argument.isEmpty then fallback :: argumentOffsets fallback rest leaves
    else
      let (found, leaves) := locateArgument argument leaves
      found.getD fallback :: argumentOffsets fallback rest leaves

/-- What is wrong with argument number `index` of a call, if anything. -/
def argumentFault? (tags : TagMap) (callee : Bytes) (index : Nat) (argument : Bytes) (offset : Nat)
    (parameter : Parameter) : Option Diagnostic :=
  let position : Position := { offset }
  if !argument.isIdent then some (.untaggedArgument callee argument index position)
  else match tags.lookup? argument with
    | none => some (.unresolvedVariable argument position (similarNames argument tags.names))
    | some type =>
      if type.trim = parameter.type.trim then none
      else some (.typeMismatch callee index parameter.name parameter.type type position)

/-- What is wrong with the arguments of a call from number `index` on, as far as there are both
arguments and parameters. -/
def argumentFaults (tags : TagMap) (callee : Bytes) (index : Nat) :
    List (Bytes × Nat) → List Parameter → List Diagnostic
  | (argument, offset) :: arguments, parameter :: parameters =>
    (argumentFault? tags callee index argument offset parameter).toList ++
      argumentFaults tags callee (index + 1) arguments parameters
  | _, _ => []

/-- The arguments of a call whose content is all leaves, each with its offset. -/
def callArguments (content : List Token) (offset : Nat) : List (Bytes × Nat) :=
  let arguments := splitArguments (Bytes.join "\n" (content.map Token.head))
  arguments.zip (argumentOffsets offset arguments (content.map fun t => (t.head, t.offset)))

/-- What is wrong with a call of `rule` under the name `callee`. A block among its arguments is
reported alone. -/
def callFaults (tags : TagMap) (callee : Bytes) (rule : Rule) (content : List Token)
    (offset : Nat) : List Diagnostic :=
  match content.find? Token.isBlock with
  | some block => [.rawValue callee { offset := block.offset }]
  | none =>
    let arguments := callArguments content offset
    let arity := if arguments.length = rule.parameters.length then []
      else [.arityMismatch callee rule.parameters.length arguments.length { offset }]
    arity ++ argumentFaults tags callee 1 arguments rule.parameters

end TagScript
