import TagScript.Text.Bytes

/-!
# Code points

Reading a code point off the front of a text. A byte that starts no valid UTF-8 sequence
is read alone: it stands for no code point, and reading goes on at the next byte.
-/

namespace TagScript

namespace Utf8

/-- Whether `c` continues a multi-byte sequence. -/
def isContinuation (c : UInt8) : Bool := 0x80 ≤ c && c ≤ 0xBF

/-- The six payload bits of a continuation byte. -/
def payload (c : UInt8) : Nat := c.toNat % 64

/-- A code point written with two bytes. -/
def two? (a b : UInt8) : Option Nat :=
  if 0xC2 ≤ a && a ≤ 0xDF && isContinuation b then some (a.toNat % 32 * 64 + payload b) else none

/-- A code point written with three bytes; surrogates and overlong forms are none. -/
def three? (a b c : UInt8) : Option Nat :=
  let n := a.toNat % 16 * 4096 + payload b * 64 + payload c
  if 0xE0 ≤ a && a ≤ 0xEF && isContinuation b && isContinuation c && 0x800 ≤ n &&
      !(0xD800 ≤ n && n ≤ 0xDFFF) then some n else none

/-- A code point written with four bytes; overlong forms and values past U+10FFFF are none. -/
def four? (a b c d : UInt8) : Option Nat :=
  let n := a.toNat % 8 * 262144 + payload b * 4096 + payload c * 64 + payload d
  if 0xF0 ≤ a && a ≤ 0xF4 && isContinuation b && isContinuation c && isContinuation d &&
      0x10000 ≤ n && n ≤ 0x10FFFF then some n else none

/-- What stands at the front of a text: a code point, or a byte that starts none. -/
inductive Piece where
  | point (value : Nat)
  | stray (byte : UInt8)
  deriving DecidableEq, Repr

/-- The piece that starts with byte `a`, and how many bytes of the rest belong to it. -/
def front (a : UInt8) (rest : Bytes) : Piece × Nat :=
  if a < 0x80 then (.point a.toNat, 0)
  else match rest with
    | [] => (.stray a, 0)
    | b :: rest =>
      match two? a b with
      | some n => (.point n, 1)
      | none =>
        match rest with
        | [] => (.stray a, 0)
        | c :: rest =>
          match three? a b c with
          | some n => (.point n, 2)
          | none =>
            match rest with
            | [] => (.stray a, 0)
            | d :: _ =>
              match four? a b c d with
              | some n => (.point n, 3)
              | none => (.stray a, 0)

/-- The text as code points and stray bytes, each with the bytes it was read from. -/
def pieces : Bytes → List (Piece × Bytes)
  | [] => []
  | a :: rest =>
    let (piece, more) := front a rest
    (piece, a :: rest.take more) :: pieces (rest.drop more)
termination_by text => text.length
decreasing_by simp only [List.length_drop, List.length_cons]; omega

/-- Whether the whole text is valid UTF-8. -/
def isValid (text : Bytes) : Bool :=
  (pieces text).all fun (piece, _) => match piece with
    | .point _ => true
    | .stray _ => false

/-- The UTF-8 bytes of a code point. -/
def encode (n : Nat) : Bytes := String.utf8EncodeChar (Char.ofNat n)

end Utf8

end TagScript
