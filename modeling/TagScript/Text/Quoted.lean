import TagScript.Text.Printable
import TagScript.Text.Utf8

/-!
# Quoted text

Text shown between double quotes on one line. Printable code points stand as they are;
quotes, backslashes and everything else are escaped, so a quoted text holds no line break
and the bytes can be read back from it.
-/

namespace TagScript

/-- The lower-case hexadecimal digit of a value below sixteen. -/
def hexDigit (n : Nat) : UInt8 := if n < 10 then (48 + n).toUInt8 else (87 + n).toUInt8

/-- The last `width` hexadecimal digits of a number. -/
def hex : (width n : Nat) → Bytes
  | 0, _ => []
  | width + 1, n => hex width (n / 16) ++ [hexDigit (n % 16)]

namespace Quoted

/-- The escape of a control character that has a letter of its own. -/
def letter? (n : Nat) : Option UInt8 :=
  match n with
  | 7 => some 'a'
  | 8 => some 'b'
  | 9 => some 't'
  | 10 => some 'n'
  | 11 => some 'v'
  | 12 => some 'f'
  | 13 => some 'r'
  | _ => none

/-- A code point as it stands between quotes, given its own bytes. -/
def point (n : Nat) (bytes : Bytes) : Bytes :=
  if n = 0x22 || n = 0x5C then 0x5C :: bytes
  else if isPrintable n then bytes
  else match letter? n with
    | some c => [0x5C, c]
    | none =>
      if n < 0x80 then "\\x" ++ hex 2 n
      else if n < 0x10000 then "\\u" ++ hex 4 n
      else "\\U" ++ hex 8 n

/-- A piece of text as it stands between quotes. -/
def piece : Utf8.Piece × Bytes → Bytes
  | (.point n, bytes) => point n bytes
  | (.stray c, _) => "\\x" ++ hex 2 c.toNat

end Quoted

/-- A text between double quotes, with everything that is not printable escaped. -/
def quoted (text : Bytes) : Bytes := 0x22 :: (Utf8.pieces text).flatMap Quoted.piece ++ [0x22]

/-- A code point between single quotes, escaped like the points of a quoted text. -/
def quotedPoint (n : Nat) : Bytes :=
  let bytes := Utf8.encode n
  let inner := if n = 0x27 then 0x5C :: bytes else if n = 0x22 then bytes else Quoted.point n bytes
  0x27 :: inner ++ [0x27]

end TagScript
