import TagScript.Text.Bytes

/-!
# Edit distance and similar names

The distance between two texts counts single-byte insertions, deletions and substitutions. It
is computed row by row: entry `j` of the row for a start `a` of the first text is the distance
between `a` and the first `j` bytes of the second.
-/

namespace TagScript

namespace Distance

/-- The entries of the next row after `left`, for byte `c` of the first text. `previous` is the
row above, from the entry diagonally above on. -/
def nextRow (c : UInt8) : (text : Bytes) → (previous : List Nat) → (left : Nat) → List Nat
  | d :: text, diagonal :: above :: previous, left =>
    let entry := min (min (above + 1) (left + 1)) (diagonal + if c = d then 0 else 1)
    entry :: nextRow c text (above :: previous) entry
  | _, _, _ => []

/-- The row below `row` for byte `c` of the first text. -/
def advance (text : Bytes) (row : List Nat) (c : UInt8) : List Nat :=
  let first := row.headD 0 + 1
  first :: nextRow c text row first

end Distance

/-- The least number of single-byte edits between two texts. -/
def editDistance (a b : Bytes) : Nat :=
  ((a.foldl (Distance.advance b) (List.range (b.length + 1))).getLast?).getD 0

/-- The candidates of more than two bytes that lie within two edits of `target` and differ from
it, in order. -/
def similarNames (target : Bytes) (candidates : List Bytes) : List Bytes :=
  Bytes.sort (candidates.filter fun candidate =>
    candidate ≠ target && 2 < candidate.length && editDistance target candidate ≤ 2)

end TagScript
