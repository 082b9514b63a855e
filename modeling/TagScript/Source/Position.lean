import TagScript.Text.Bytes

/-!
# Positions in a source

A position names a line and a column, both counted from one and in bytes. The zero position
means "unknown"; it is what an offset outside the source yields.
-/

namespace TagScript

/-- A place in a source: line and column from one, and the byte offset. -/
structure Position where
  line : Int := 0
  column : Int := 0
  offset : Int := 0
  deriving DecidableEq, Repr

namespace Position

/-- Whether the position points into a source. -/
def known (p : Position) : Bool := 0 < p.line

/-- The line and column reached after reading a text from the given line and column. -/
def advance (line column : Nat) : Bytes → Nat × Nat
  | [] => (line, column)
  | c :: text => if c = '\n' then advance (line + 1) 1 text else advance line (column + 1) text

/-- The position of a byte offset; the zero position when it lies outside the source. -/
def ofOffset (source : Bytes) (offset : Int) : Position :=
  if offset < 0 || source.length < offset then {}
  else
    let (line, column) := advance 1 1 (source.take offset.toNat)
    { line, column, offset }

end Position

end TagScript
