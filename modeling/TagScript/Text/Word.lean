import TagScript.Text.Bytes

/-!
# Words and names

Names are made of ASCII letters, digits, `_` and `$`, and do not start with a digit. The
blanks that may stand between words are a smaller set than white space: tab, newline, form
feed, carriage return and the blank itself.
-/

namespace TagScript

/-- A decimal digit. -/
def isDigit (c : UInt8) : Bool := '0' ≤ c && c ≤ '9'

/-- An ASCII letter. -/
def isLetter (c : UInt8) : Bool := ('a' ≤ c && c ≤ 'z') || ('A' ≤ c && c ≤ 'Z')

/-- A letter, a digit or an underscore. -/
def isWord (c : UInt8) : Bool := isLetter c || isDigit c || c = '_'

/-- A byte that may start a name. -/
def isNameStart (c : UInt8) : Bool := isLetter c || c = '_' || c = '$'

/-- A byte that may continue a name. -/
def isNamePart (c : UInt8) : Bool := isWord c || c = '$'

/-- A blank that may stand between words; the vertical tab is none. -/
def isGap (c : UInt8) : Bool := c = 9 || c = 10 || c = 12 || c = 13 || c = 32

namespace Bytes

/-- The text from its first byte that is no gap. -/
def skipGaps (text : Bytes) : Bytes := text.dropWhile isGap

/-- The name at the front of a text and what follows it. -/
def takeName? : Bytes → Option (Bytes × Bytes)
  | [] => none
  | c :: text =>
    if isNameStart c then some (c :: text.takeWhile isNamePart, text.dropWhile isNamePart) else none

/-- Whether the whole text is one name. -/
def isIdent : Bytes → Bool
  | [] => false
  | c :: text => isNameStart c && text.all isNamePart

end Bytes

/-- The keywords that open a declaration. -/
def declarationKeywords : List Bytes := ["const", "let", "var"]

/-- The declaration keyword at the front of a text and what follows it; the keyword may run on
into a longer word, so the caller looks at what follows. -/
def takeKeyword? (text : Bytes) : Option (Bytes × Bytes) :=
  declarationKeywords.findSome? fun keyword => (Bytes.after? keyword text).map (keyword, ·)

end TagScript
