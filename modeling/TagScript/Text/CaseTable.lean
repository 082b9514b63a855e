import TagScript.Text.Utf8

/-!
# Letter tables

A letter table sends letters to other letters. Each row `(first, last, step, shift)` says that the
code points from `first` to `last`, taken every `step`, go to the code point `shift` further on.
Code points in no row stay as they are.
-/

namespace TagScript

/-- The rows of a letter table in ascending order. -/
abbrev CaseTable := List (Nat × Nat × Nat × Int)

namespace CaseTable

/-- Where a table sends a code point. -/
def point (table : CaseTable) (n : Nat) : Nat :=
  match table.find? fun (first, last, step, _) =>
      first ≤ n && n ≤ last && (n - first) % step = 0 with
  | some (_, _, _, shift) => (n + shift).toNat
  | none => n

/-- Where a table sends the code points of a text; every stray byte counts as U+FFFD. -/
def points (table : CaseTable) (text : Bytes) : List Nat :=
  (Utf8.pieces text).map fun (piece, _) => match piece with
    | .point n => table.point n
    | .stray _ => 0xFFFD

end CaseTable

end TagScript
