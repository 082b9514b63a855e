import TagScript.Text.Bytes

/-!
# Reading integers

An integer is written in decimal, or with a base in front: `0b`, `0o` or a mere `0`, and `0x`.
Underscores may stand between digits and after the base. It has to fit into 64 bits.
-/

namespace TagScript

/-- The value of a digit below the given base; letters go on from nine. -/
def digitValue? (base : Nat) (c : UInt8) : Option Nat :=
  let value : Nat :=
    if '0' ≤ c && c ≤ '9' then c.toNat - 48
    else if 'a' ≤ c && c ≤ 'z' then c.toNat - 87
    else if 'A' ≤ c && c ≤ 'Z' then c.toNat - 55
    else base
  if value < base then some value else none

/-- Why a text is no integer. -/
inductive IntegerFault where
  | malformed
  | outOfRange
  deriving DecidableEq, Repr

namespace Integer

/-- The number of integers in 64 bits. -/
def range : Nat := 0x10000000000000000

/-- The number of integers in 64 bits that are negative, and of those that are not. -/
def halfRange : Nat := 0x8000000000000000

/-- The base that a text starts with, and its digits. -/
def splitBase : Bytes → Nat × Bytes
  | [] => (10, [])
  | c :: rest =>
    if c ≠ '0' then (10, c :: rest)
    else match rest with
      | b :: d :: digits =>
        if b = 'b' || b = 'B' then (2, d :: digits)
        else if b = 'o' || b = 'O' then (8, d :: digits)
        else if b = 'x' || b = 'X' then (16, d :: digits)
        else (8, rest)
      | rest => (8, rest)

/-- The number that digits spell after those already read, passing over underscores. -/
def magnitude (base read : Nat) : Bytes → Except IntegerFault Nat
  | [] => .ok read
  | c :: text =>
    if c = '_' then magnitude base read text
    else match digitValue? base c with
      | none => .error .malformed
      | some d =>
        if range ≤ read * base + d then .error .outOfRange
        else magnitude base (read * base + d) text

/-- Whether every underscore has a digit on both sides. `follows` tells whether what was read last
was a digit. -/
def separated (follows : Bool) : Bytes → Bool
  | [] => follows
  | c :: text => if c = '_' then follows && separated false text else separated true text

/-- The number that a text without a sign spells. -/
def natural (text : Bytes) : Except IntegerFault Nat := do
  if text.isEmpty then throw .malformed
  let (base, digits) := splitBase text
  let n ← magnitude base 0 digits
  if text.contains (Char.toUInt8 '_') && !separated (base ≠ 10) digits then throw .malformed
  return n

/-- The integer that a text spells. -/
def read : Bytes → Except IntegerFault Int
  | [] => .error .malformed
  | c :: text => do
    if c = '-' then
      let n ← natural text
      if halfRange < n then throw .outOfRange
      return -(n : Int)
    else
      let n ← natural (if c = '+' then text else c :: text)
      if halfRange ≤ n then throw .outOfRange
      return n

end Integer

end TagScript
