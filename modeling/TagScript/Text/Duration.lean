import TagScript.Text.Fixed

/-!
# Durations

A duration is shown in the largest unit that it reaches: minutes and seconds with two places,
milliseconds and microseconds with one, and nanoseconds as they are.
-/

namespace TagScript

/-- A duration in nanoseconds as it is shown. -/
def durationText (nanoseconds : Int) : Bytes :=
  let n := nanoseconds.toNat
  if 60000000000 ≤ n then
    (BinaryFraction.addNat (n / 60000000000)
      (.ofRatio (n % 60000000000) 60000000000)).fixed 2 ++ "min"
  else if 1000000000 ≤ n then
    (BinaryFraction.addNat (n / 1000000000) (.ofRatio (n % 1000000000) 1000000000)).fixed 2 ++ "s"
  else if 1000000 ≤ n then (BinaryFraction.ofRatio n 1000000).fixed 1 ++ "ms"
  else if 1000 ≤ n then (BinaryFraction.ofRatio n 1000).fixed 1 ++ "μs"
  else decimalInt nanoseconds ++ "ns"

end TagScript
