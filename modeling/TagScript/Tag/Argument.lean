import TagScript.Tag.Lexeme
import TagScript.Text.Space

/-!
# Argument lists

The text between the brackets of a call is split at its commas; commas inside string literals
do not count. Each argument is the text from its first lexeme up to the next argument,
without the commas and white space behind it.

There may be any number of arguments, and of lexemes in one. The grammar stops at 1,000,000
repetitions of one part and does not read a longer text, which is then split at every comma; that
bound is left out.
-/

namespace TagScript

namespace Argument

/-- Drop white space and commas from the front of a text written back to front. -/
def dropSeparators : Bytes → Bytes
  | [] => []
  | [a] => if isAsciiSpace a || a = ',' then [] else [a]
  | [b, a] =>
    if isAsciiSpace b || b = ',' then dropSeparators [a]
    else if isSpacePair a b then [] else [b, a]
  | c :: b :: a :: text =>
    if isAsciiSpace c || c = ',' then dropSeparators (b :: a :: text)
    else if isSpacePair b c then dropSeparators (a :: text)
    else if isSpaceTriple a b c then dropSeparators text
    else c :: b :: a :: text

/-- The text without white space at either end and without commas at its end. -/
def trimSeparators (text : Bytes) : Bytes :=
  (dropSeparators (Bytes.trimStart text).reverse).reverse

/-- The offsets of the lexemes that start an argument. `fresh` says that none is open. -/
def starts (fresh : Bool) : List Lexeme → List Nat
  | [] => []
  | lexeme :: rest =>
    if lexeme.kind = .comma then starts true rest
    else if fresh then lexeme.offset :: starts false rest
    else starts false rest

/-- The argument texts that start at the given offsets. -/
def segments (text : Bytes) : List Nat → List Bytes
  | [] => []
  | [start] => [trimSeparators (text.drop start)]
  | start :: next :: rest =>
    trimSeparators ((text.drop start).take (next - start)) :: segments text (next :: rest)

/-- The pieces between all commas, trimmed; a blank last piece is left out. -/
def pieces (text : Bytes) : List Bytes :=
  let pieces := text.split ','
  let pieces := if (pieces.getLast?.getD []).isBlank then pieces.dropLast else pieces
  pieces.map Bytes.trim

end Argument

/-- The arguments in the text between the brackets of a call. A list that starts with a comma is
split at every comma. -/
def splitArguments (text : Bytes) : List Bytes :=
  if text.isBlank then []
  else match Lexeme.visible text with
    | [] => []
    | first :: rest =>
      if first.kind = .comma then Argument.pieces text
      else Argument.segments text (Argument.starts true (first :: rest))

end TagScript
