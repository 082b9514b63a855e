import TagScript.Text.Quoted

/-!
# JSON output

The few JSON values that are printed, laid out over several lines with two blanks per level.
Strings escape the characters that would be unsafe inside a web page as well, and a byte
that is not part of valid UTF-8 is written as U+FFFD.
-/

namespace TagScript

/-- A JSON value as far as one is ever printed. -/
inductive Json where
  | boolean (value : Bool)
  | number (value : Int)
  | text (value : Bytes)
  | array (items : List Json)
  | object (fields : List (Bytes × Json))

namespace Json

/-- A code point inside a JSON string, given its own bytes. -/
def point (n : Nat) (bytes : Bytes) : Bytes :=
  match n with
  | 0x08 => "\\b"
  | 0x09 => "\\t"
  | 0x0A => "\\n"
  | 0x0C => "\\f"
  | 0x0D => "\\r"
  | 0x22 => "\\\""
  | 0x5C => "\\\\"
  | _ =>
    if n < 0x20 || n = 0x26 || n = 0x3C || n = 0x3E || n = 0x2028 || n = 0x2029 then
      "\\u" ++ hex 4 n
    else bytes

/-- A piece of text inside a JSON string. -/
def piece : Utf8.Piece × Bytes → Bytes
  | (.point n, bytes) => point n bytes
  | (.stray _, _) => Utf8.encode 0xFFFD

/-- A text as a JSON string. -/
def string (text : Bytes) : Bytes := 0x22 :: (Utf8.pieces text).flatMap piece ++ [0x22]

/-- A line break and the indentation of the given level. -/
def newline (level : Nat) : Bytes := 10 :: List.replicate (2 * level) 32

mutual

/-- The indented text of a value that stands at the given level. -/
def indented (level : Nat) : Json → Bytes
  | .boolean b => if b then "true" else "false"
  | .number n => decimalInt n
  | .text t => string t
  | .array [] => "[]"
  | .array (v :: vs) =>
    "[" ++ newline (level + 1) ++ indented (level + 1) v ++ indentedItems (level + 1) vs ++
      newline level ++ "]"
  | .object [] => "\x7b\x7d"
  | .object ((k, v) :: fs) =>
    "\x7b" ++ newline (level + 1) ++ string k ++ ": " ++ indented (level + 1) v ++
      indentedFields (level + 1) fs ++ newline level ++ "\x7d"

/-- The array items after the first, each after a comma on a line of its own. -/
def indentedItems (level : Nat) : List Json → Bytes
  | [] => []
  | v :: vs => "," ++ newline level ++ indented level v ++ indentedItems level vs

/-- The object fields after the first, each after a comma on a line of its own. -/
def indentedFields (level : Nat) : List (Bytes × Json) → Bytes
  | [] => []
  | (k, v) :: fs =>
    "," ++ newline level ++ string k ++ ": " ++ indented level v ++ indentedFields level fs

end

end Json

end TagScript
