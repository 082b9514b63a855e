import TagScript.Text.Bytes

/-!
# White space

White space is the Unicode kind: the ASCII blanks, U+0085, U+00A0, U+1680, U+2000 to
U+200A, U+2028, U+2029, U+202F, U+205F and U+3000. A byte outside these encodings is never
white space, so trimming only ever removes whole code points.
-/

namespace TagScript

/-- Whether a byte is white space on its own: tab to carriage return, or a blank. -/
def isAsciiSpace (c : UInt8) : Bool := (9 ≤ c && c ≤ 13) || c = 32

/-- Whether two bytes encode U+0085 or U+00A0. -/
def isSpacePair (a b : UInt8) : Bool := a = 0xC2 && (b = 0x85 || b = 0xA0)

/-- Whether three bytes encode one of the white space code points from U+1680 on. -/
def isSpaceTriple (a b c : UInt8) : Bool :=
  (a = 0xE1 && b = 0x9A && c = 0x80) ||
  (a = 0xE2 && b = 0x80 && ((0x80 ≤ c && c ≤ 0x8A) || c = 0xA8 || c = 0xA9 || c = 0xAF)) ||
  (a = 0xE2 && b = 0x81 && c = 0x9F) ||
  (a = 0xE3 && b = 0x80 && c = 0x80)

namespace Bytes

/-- The text from its first byte that is not white space. -/
def trimStart : Bytes → Bytes
  | [] => []
  | [a] => if isAsciiSpace a then [] else [a]
  | [a, b] =>
    if isAsciiSpace a then trimStart [b] else if isSpacePair a b then [] else [a, b]
  | a :: b :: c :: text =>
    if isAsciiSpace a then trimStart (b :: c :: text)
    else if isSpacePair a b then trimStart (c :: text)
    else if isSpaceTriple a b c then trimStart text
    else a :: b :: c :: text

/-- Drop white space from the front of a text written back to front. -/
def trimReversed : Bytes → Bytes
  | [] => []
  | [a] => if isAsciiSpace a then [] else [a]
  | [b, a] =>
    if isAsciiSpace b then trimReversed [a] else if isSpacePair a b then [] else [b, a]
  | c :: b :: a :: text =>
    if isAsciiSpace c then trimReversed (b :: a :: text)
    else if isSpacePair b c then trimReversed (a :: text)
    else if isSpaceTriple a b c then trimReversed text
    else c :: b :: a :: text

/-- The text up to its last byte that is not white space. -/
def trimEnd (text : Bytes) : Bytes := (trimReversed text.reverse).reverse

/-- The text without white space at either end. -/
def trim (text : Bytes) : Bytes := trimEnd (trimStart text)

/-- Whether the text holds nothing but white space. -/
def isBlank (text : Bytes) : Bool := (trimStart text).isEmpty

/-- Whether the text starts with a white space code point. -/
def startsWithSpace : Bytes → Bool
  | [] => false
  | [a] => isAsciiSpace a
  | [a, b] => isAsciiSpace a || isSpacePair a b
  | a :: b :: c :: _ => isAsciiSpace a || isSpacePair a b || isSpaceTriple a b c

/-- The part of `field` after its last white space, looking from the given rest on. -/
def lastFieldFrom (field : Bytes) : Bytes → Bytes
  | [] => field
  | a :: rest =>
    if startsWithSpace (a :: rest) then lastFieldFrom (trimStart (a :: rest)) rest
    else lastFieldFrom field rest

/-- The last run of bytes between white space, if the text is not blank. -/
def lastField? (text : Bytes) : Option Bytes :=
  let trimmed := trim text
  if trimmed.isEmpty then none else some (lastFieldFrom trimmed trimmed)

end Bytes

end TagScript
