import TagScript.Source.Mode
import TagScript.Text.Utf8
import TagScript.Text.Word

/-!
# Lexemes of tags, arguments and parameters

Declaration headers, argument lists and parameter lists are read as a sequence of lexemes.
Every text has one: what fits no named kind is a lexeme of its own, one code point or one
stray byte long.
-/

namespace TagScript

/-- What a lexeme is. -/
inductive LexemeKind where
  | string
  | name
  | number
  | arrow
  | operator
  | pipe
  | comma
  | colon
  | assign
  | bracket
  | blank
  | other
  deriving DecidableEq, Repr

/-- A piece of text with its kind and the offset at which it starts. -/
structure Lexeme where
  kind : LexemeKind
  text : Bytes
  offset : Nat
  deriving DecidableEq, Repr

namespace Lexeme

/-- How many bytes a string literal takes behind its opening quote, the closing one included. A
backslash escapes the next byte, but not a line break; a literal that never closes is none. -/
def stringRest? (quote : UInt8) : Bytes → Option Nat
  | [] => none
  | [c] => if c = quote then some 1 else none
  | c :: d :: text =>
    if c = quote then some 1
    else if c = '\\' then if d = '\n' then none else (stringRest? quote text).map (· + 2)
    else (stringRest? quote (d :: text)).map (· + 1)

/-- The operators of more than one byte, those that others start with first. -/
def longOperators : List Bytes :=
  ["===", "!==", "==", "!=", "<=", ">=", "&&", "||", "??", "..."]

/-- The operators of one byte. -/
def shortOperators : Bytes := "-+*/%<>!?.&^~"

/-- The brackets that tags and argument lists may hold. -/
def brackets : Bytes := "[]\x7b\x7d()"

/-- A blank between lexemes. -/
def isBlankByte (c : UInt8) : Bool := c = 32 || c = 9 || c = 13 || c = 10

/-- The kind of the lexeme that starts with byte `c`, and how many bytes of the rest belong to it,
when it is none that is told from more than its first byte. -/
def shortFront (c : UInt8) (rest : Bytes) : LexemeKind × Nat :=
  if shortOperators.contains c then (.operator, 0)
  else if c = '|' then (.pipe, 0)
  else if c = ',' then (.comma, 0)
  else if c = ':' then (.colon, 0)
  else if c = '=' then (.assign, 0)
  else if brackets.contains c then (.bracket, 0)
  else if isBlankByte c then (.blank, (rest.takeWhile isBlankByte).length)
  else (.other, (Utf8.front c rest).2)

/-- The kind of the lexeme that starts with byte `c`, and how many bytes of the rest belong to it.
The kinds are tried in a fixed order and the first that fits is taken. -/
def front (c : UInt8) (rest : Bytes) : LexemeKind × Nat :=
  match if isQuote c then stringRest? c rest else none with
  | some n => (.string, n)
  | none =>
    if isNameStart c then (.name, (rest.takeWhile isNamePart).length)
    else if isDigit c then (.number, (rest.takeWhile fun c => isWord c || c = '.').length)
    else if Bytes.startsWith (c :: rest) "=>" then (.arrow, 1)
    else match longOperators.find? (Bytes.startsWith (c :: rest)) with
      | some operator => (.operator, operator.length - 1)
      | none => shortFront c rest

/-- The lexemes of a text that starts at the given offset, blanks included. -/
def allFrom (offset : Nat) : Bytes → List Lexeme
  | [] => []
  | c :: rest =>
    let (kind, more) := front c rest
    ⟨kind, c :: rest.take more, offset⟩ :: allFrom (offset + 1 + more) (rest.drop more)
termination_by text => text.length
decreasing_by simp only [List.length_drop, List.length_cons]; omega

/-- The lexemes of a text, blanks included. -/
def all (text : Bytes) : List Lexeme := allFrom 0 text

/-- The lexemes of a text that a grammar reads. -/
def visible (text : Bytes) : List Lexeme := (all text).filter (·.kind ≠ .blank)

/-- The text of a run of lexemes without what stood between them. -/
def joined (lexemes : List Lexeme) : Bytes := lexemes.flatMap Lexeme.text

end Lexeme

end TagScript
