import TagScript.Text.Bytes

/-!
# Numbers with a set number of places

Measured quantities are held with 53 significant binary digits and printed with a set number of
decimal places. Both steps go to the nearest value, and to the even one of two that are equally
near.
-/

namespace TagScript

/-- The quotient rounded to the nearest natural number, a tie to the even one. -/
def nearestEven (num den : Nat) : Nat :=
  let quotient := num / den
  let twice := 2 * (num % den)
  if den < twice || (twice = den && quotient % 2 = 1) then quotient + 1 else quotient

/-- The number `significand / 2 ^ scale`. -/
structure BinaryFraction where
  significand : Nat
  scale : Nat
  deriving DecidableEq, Repr

namespace BinaryFraction

/-- The nearest number to `num / den` with 53 significant binary digits, for a quotient that is
below `2 ^ 53`. -/
def ofRatio (num den : Nat) : BinaryFraction :=
  if num = 0 then ⟨0, 0⟩
  else
    let scale := 53 + den.log2 - num.log2
    let scale := if num * Nat.pow 2 scale / den < Nat.pow 2 53 then scale else scale - 1
    ⟨nearestEven (num * Nat.pow 2 scale) den, scale⟩

/-- A natural number and a fraction added and rounded to 53 significant binary digits. -/
def addNat (n : Nat) (x : BinaryFraction) : BinaryFraction :=
  ofRatio (n * Nat.pow 2 x.scale + x.significand) (Nat.pow 2 x.scale)

/-- The number with the given number of decimal places, at least one. -/
def fixed (places : Nat) (x : BinaryFraction) : Bytes :=
  let unit := Nat.pow 10 places
  let units := nearestEven (x.significand * unit) (Nat.pow 2 x.scale)
  let fraction := decimal (units % unit)
  let zeros : Bytes := List.replicate (places - fraction.length) '0'
  decimal (units / unit) ++ "." ++ zeros ++ fraction

end BinaryFraction

end TagScript
