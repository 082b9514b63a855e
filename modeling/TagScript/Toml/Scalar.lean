import TagScript.Text.Integer
import TagScript.Text.Word

/-!
# Numbers and moments of TOML

Which words are integers, floats and moments. An underscore stands between two digits, a number
has no needless zero in front, and a point has digits on both sides. A float must be finite when
rounded to 53 significant binary digits. A moment is a date, a time of day, or both, and then
perhaps with an offset.
-/

namespace TagScript.Toml

/-- A hexadecimal digit. -/
def isHexDigit (c : UInt8) : Bool := (digitValue? 16 c).isSome

/-- Whether each underscore follows a digit and the word ends in one. -/
def underscoresFit (follows : Bool) : Bytes → Bool
  | [] => follows
  | c :: word => (c ≠ '_' || follows) && underscoresFit (isHexDigit c) word

/-- Whether a number has a zero in front that does not belong there. -/
def hasLeadingZero : Bytes → Bool
  | a :: b :: rest =>
    (a = '0' && !(b = 'b' || b = 'o' || b = 'x')) ||
      ((a = '-' || a = '+') && b = '0' && !rest.isEmpty)
  | _ => false

/-- The integer that a word spells. -/
def integer? (word : Bytes) : Option Int := do
  guard (underscoresFit false word && !hasLeadingZero word)
  (Integer.read word).toOption

/-- The digits at the front of a word, and the rest. -/
def spanDigits (word : Bytes) : Bytes × Bytes := (word.takeWhile isDigit, word.dropWhile isDigit)

/-- The word without a sign in front. -/
def dropSign : Bytes → Bytes
  | [] => []
  | c :: word => if c = '+' || c = '-' then word else c :: word

/-- The number that decimal digits spell. -/
def digitsValue (digits : Bytes) : Nat := digits.foldl (fun n c => n * 10 + (c.toNat - 48)) 0

/-- The least number that no finite number is nearest to. -/
def floatLimit : Nat := Nat.pow 2 1024 - Nat.pow 2 970

/-- Whether `digits × 10 ^ exponent` rounds to a finite number. -/
def isFinite (digits : Bytes) (exponent : Int) : Bool :=
  let digits := digits.dropWhile fun (c : UInt8) => c = '0'
  let magnitude : Int := digits.length + exponent
  if digits.isEmpty || magnitude < 300 then true
  else if 310 < magnitude then false
  else digitsValue digits * Nat.pow 10 exponent.toNat < floatLimit * Nat.pow 10 (-exponent).toNat

/-- The fraction at the front of a word, and the rest. Without a point there is none. -/
def fraction? : Bytes → Option (Bytes × Bytes)
  | [] => some ([], [])
  | c :: word =>
    if c = '.' then
      let (digits, rest) := spanDigits word
      if digits.isEmpty then none else some (digits, rest)
    else some ([], c :: word)

/-- The exponent that a whole word is; the empty word is the exponent zero. -/
def exponent? : Bytes → Option Int
  | [] => some 0
  | c :: word =>
    if c = 'e' || c = 'E' then
      let digits := dropSign word
      if digits.isEmpty || !digits.all isDigit then none
      else if word.head? = some (Char.toUInt8 '-') then some (-(digitsValue digits : Int))
      else some (digitsValue digits)
    else none

/-- The parts of a float between points and exponent marks. -/
def floatParts (word : Bytes) : List Bytes :=
  (Bytes.split '.' (word.map fun (c : UInt8) => if c = 'e' || c = 'E' then '.' else c)).filter
    (!·.isEmpty)

/-- Whether a word that starts like a number is a float. -/
def isFloat (word : Bytes) : Bool :=
  let parts := floatParts word
  let known : Option Bool := do
    guard (parts.all (underscoresFit false) && !(parts.head?.any hasLeadingZero))
    let (whole, rest) := spanDigits (dropSign (word.filter fun (c : UInt8) => c ≠ '_'))
    guard (!whole.isEmpty)
    let (digits, rest) ← fraction? rest
    let exponent ← exponent? rest
    return isFinite (whole ++ digits) (exponent - digits.length)
  known.getD false

/-- A number of two digits at the front of a text. -/
def twoDigits? : Bytes → Option (Nat × Bytes)
  | a :: b :: text =>
    if isDigit a && isDigit b then some (digitsValue [a, b], text) else none
  | _ => none

/-- A number of one or two digits at the front of a text. -/
def oneOrTwoDigits? : Bytes → Option (Nat × Bytes)
  | [] => none
  | a :: text =>
    if !isDigit a then none else (twoDigits? (a :: text)).getD (digitsValue [a], text)

/-- How many days a month has. -/
def daysIn (year month : Nat) : Nat :=
  if month = 2 then if year % 4 = 0 && (year % 100 ≠ 0 || year % 400 = 0) then 29 else 28
  else if month = 4 || month = 6 || month = 9 || month = 11 then 30
  else 31

/-- The text after a date. -/
def afterDate? (text : Bytes) : Option Bytes := do
  guard (4 ≤ text.length && (text.take 4).all isDigit)
  let year := digitsValue (text.take 4)
  let (month, text) ← twoDigits? (← Bytes.after? "-" (text.drop 4))
  let (day, text) ← twoDigits? (← Bytes.after? "-" text)
  guard (1 ≤ month && month ≤ 12 && 1 ≤ day && day ≤ daysIn year month)
  return text

/-- The text after a time of day. -/
def afterClock? (text : Bytes) : Option Bytes := do
  let (hour, text) ← oneOrTwoDigits? text
  let (minute, text) ← twoDigits? (← Bytes.after? ":" text)
  let (second, text) ← twoDigits? (← Bytes.after? ":" text)
  guard (hour < 24 && minute < 60 && second < 60)
  match text with
  | c :: d :: rest => return if c = '.' && isDigit d then rest.dropWhile isDigit else text
  | text => return text

/-- Whether a whole text is an offset from universal time, or nothing. -/
def isOffset : Bytes → Bool
  | [] => true
  | c :: text =>
    if c = 'Z' then text.isEmpty
    else if c = '+' || c = '-' then
      let known : Option Bool := do
        let (hours, text) ← twoDigits? text
        let (minutes, text) ← twoDigits? (← Bytes.after? ":" text)
        return hours ≤ 24 && minutes ≤ 60 && text.isEmpty
      known.getD false
    else false

/-- Whether a word is a moment. A blank or a small letter may stand for the letters `T` and `Z`. -/
def isMoment (word : Bytes) : Bool :=
  let word : Bytes := word.map fun (c : UInt8) =>
    if c = 't' || c = 32 then 'T' else if c = 'z' then 'Z' else c
  match afterDate? word with
  | some [] => true
  | some (c :: clock) => c = 'T' && (afterClock? clock).any isOffset
  | none => (afterClock? word).any (·.isEmpty)

end TagScript.Toml
