/-!
# Text as bytes

Everything the checker reads or writes is a sequence of bytes. Source text need not be
valid UTF-8, offsets count bytes, and names compare bytewise, so text is a list of bytes
and string literals enter it through their UTF-8 encoding.
-/

namespace TagScript

/-- Source text, names and messages: bytes that need not form valid UTF-8. -/
abbrev Bytes := List UInt8

/-- The UTF-8 encoding of a string. -/
def utf8 (s : String) : Bytes := s.toList.flatMap String.utf8EncodeChar

instance stringBytes : Coe String Bytes := ⟨utf8⟩

/-- An ASCII character stands for its byte. -/
instance charByte : Coe Char UInt8 := ⟨Char.toUInt8⟩

namespace Bytes

/-- The text after `lead` when the text starts with it. -/
def after? : (lead text : Bytes) → Option Bytes
  | [], text => some text
  | _ :: _, [] => none
  | p :: lead, c :: text => if p = c then after? lead text else none

/-- Whether the text starts with `lead`. -/
def startsWith (text lead : Bytes) : Bool := (after? lead text).isSome

/-- The position of the first byte `c`, if there is one. -/
def indexOf? (c : UInt8) (text : Bytes) : Option Nat := text.findIdx? (· = c)

/-- The position of the first occurrence of `part`, if there is one. -/
def find? (part : Bytes) : Bytes → Option Nat
  | [] => if part.isEmpty then some 0 else none
  | c :: text => if startsWith (c :: text) part then some 0 else (find? part text).map (· + 1)

/-- The pieces between occurrences of `c`; a text without `c` is one piece. -/
def split (c : UInt8) : Bytes → List Bytes
  | [] => [[]]
  | b :: text =>
    if b = c then [] :: split c text
    else match split c text with
      | [] => [[b]]
      | piece :: rest => (b :: piece) :: rest

/-- The pieces written one after another with `separator` between neighbours. -/
def join (separator : Bytes) (pieces : List Bytes) : Bytes := List.intercalate separator pieces

/-- Splitting is the library's, with the head of the rest in place of an accumulator. -/
theorem split_eq_splitOn (c : UInt8) (text : Bytes) : split c text = text.splitOn c := by
  induction text with
  | nil => rfl
  | cons b text ih =>
    obtain ⟨piece, rest, hrest⟩ := List.exists_cons_of_ne_nil (List.splitOn_ne_nil c text)
    rw [List.splitOn_cons_eq_if_modifyHead, split, ih, hrest]
    simp

/-- A text has a piece. -/
theorem split_ne_nil (c : UInt8) (text : Bytes) : split c text ≠ [] :=
  split_eq_splitOn c text ▸ List.splitOn_ne_nil c text

/-- The pieces of a text make it up. -/
theorem join_split (c : UInt8) (text : Bytes) : join [c] (split c text) = text :=
  split_eq_splitOn c text ▸ List.intercalate_splitOn c

/-- Pieces without the separator are found again in the text that joins them. -/
theorem split_join {c : UInt8} {pieces : List Bytes} (hne : pieces ≠ [])
    (h : ∀ piece ∈ pieces, c ∉ piece) : split c (join [c] pieces) = pieces :=
  (split_eq_splitOn c _).trans (List.splitOn_intercalate c h hne)

/-- A text without the separator is one piece. -/
theorem split_of_not_mem {c : UInt8} {text : Bytes} (h : c ∉ text) : split c text = [text] :=
  (split_eq_splitOn c text).trans (List.splitOn_eq_singleton h)

/-- A separator ends a piece and starts one. -/
theorem split_append_cons (c : UInt8) (text more : Bytes) :
    split c (text ++ c :: more) = split c text ++ split c more := by
  simp only [split_eq_splitOn, List.splitOn_append_cons_self]

/-- The text before the first byte `c` and the text after it. -/
def cut? (c : UInt8) : Bytes → Option (Bytes × Bytes)
  | [] => none
  | b :: text => if b = c then some ([], text) else (cut? c text).map fun (l, r) => (b :: l, r)

/-- The text without `tail` at its end, unchanged when it does not end with it. -/
def dropTail (tail text : Bytes) : Bytes :=
  match after? tail.reverse text.reverse with
  | some rest => rest.reverse
  | none => text

/-- Whether the text ends with `tail`. -/
def endsWith (text tail : Bytes) : Bool := startsWith text.reverse tail.reverse

/-- The text without `lead` at its start, unchanged when it does not start with it. -/
def dropLead (lead text : Bytes) : Bytes := (after? lead text).getD text

/-- Bytewise order of texts. -/
def le : Bytes → Bytes → Bool
  | [], _ => true
  | _ :: _, [] => false
  | a :: as, b :: bs => a < b || (a = b && le as bs)

/-- The texts in bytewise order; equal texts are all kept. -/
def sort (texts : List Bytes) : List Bytes := texts.mergeSort le

/-- A run of `n` blanks. -/
def blanks (n : Nat) : Bytes := List.replicate n 32

/-- `text` with blanks before it until it is `width` bytes long. -/
def padLeft (width : Nat) (text : Bytes) : Bytes := blanks (width - text.length) ++ text

/-- `text` with blanks after it until it is `width` bytes long. -/
def padRight (width : Nat) (text : Bytes) : Bytes := text ++ blanks (width - text.length)

end Bytes

/-- The decimal digits of a natural number. -/
def decimal (n : Nat) : Bytes := (Nat.toDigits 10 n).map Char.toUInt8

/-- The decimal digits of an integer, after a minus sign when it is negative. -/
def decimalInt : Int → Bytes
  | .ofNat n => decimal n
  | .negSucc n => 45 :: decimal (n + 1)

end TagScript
