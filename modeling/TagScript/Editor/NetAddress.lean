import TagScript.Text.Integer
import TagScript.Text.Quoted
import TagScript.Text.Word

/-!
# Network addresses

A host may be given by number. A dotted address is four numbers up to 255 with points between
them. A grouped address is eight groups of up to four hexadecimal digits with colons between them:
a double colon stands for at least one group of zeros, a dotted address may stand for the last two
groups, and a zone may follow behind a percent sign.
-/

namespace TagScript

/-- Why a text is no network address. Some faults keep the text from the place where reading
stopped. -/
inductive NetFault where
  | notNumeric
  | zoneAlone
  | emptyZone
  | numberTooLarge
  | leadingZero
  | missingNumber (rest : Bytes)
  | tooManyNumbers
  | tooFewNumbers
  | unexpectedInNumbers (rest : Bytes)
  | longGroup (rest : Bytes)
  | missingGroup (rest : Bytes)
  | misplacedNumbers (rest : Bytes)
  | noRoomForNumbers (rest : Bytes)
  | missingColon (rest : Bytes)
  | openEnd (rest : Bytes)
  | secondGap (rest : Bytes)
  | tooManyGroups (rest : Bytes)
  | tooFewGroups
  | emptyGap
  deriving DecidableEq, Repr

namespace NetFault

/-- The fault in words. -/
def words : NetFault → Bytes
  | .notNumeric => "unable to parse IP"
  | .zoneAlone => "missing IPv6 address"
  | .emptyZone => "zone must be a non-empty string"
  | .numberTooLarge => "IPv4 field has value >255"
  | .leadingZero => "IPv4 field has octet with leading zero"
  | .missingNumber _ => "IPv4 field must have at least one digit"
  | .tooManyNumbers => "IPv4 address too long"
  | .tooFewNumbers => "IPv4 address too short"
  | .unexpectedInNumbers _ => "unexpected character"
  | .longGroup _ => "each group must have 4 or less digits"
  | .missingGroup _ => "each colon-separated field must have at least one digit"
  | .misplacedNumbers _ =>
    "embedded IPv4 address must replace the final 2 fields of the address"
  | .noRoomForNumbers _ =>
    "too many hex fields to fit an embedded IPv4 at the end of the address"
  | .missingColon _ => "unexpected character, want colon"
  | .openEnd _ => "colon must be followed by more characters"
  | .secondGap _ => "multiple :: in address"
  | .tooManyGroups _ => "trailing garbage after address"
  | .tooFewGroups => "address string too short"
  | .emptyGap => "the :: must expand to at least one field of zeros"

/-- The text from the place where reading stopped, if the fault keeps it. -/
def rest? : NetFault → Option Bytes
  | .missingNumber rest | .unexpectedInNumbers rest | .longGroup rest | .missingGroup rest
  | .misplacedNumbers rest | .noRoomForNumbers rest | .missingColon rest | .openEnd rest
  | .secondGap rest | .tooManyGroups rest => some rest
  | _ => none

/-- The place where reading stopped, as it is named in messages. -/
def place (rest : Bytes) : Bytes := " (at " ++ quoted rest ++ ")"

/-- The fault of a text in words. -/
def message (text : Bytes) (fault : NetFault) : Bytes :=
  "ParseAddr(" ++ quoted text ++ "): " ++ fault.words ++ (fault.rest?.map place).getD []

end NetFault

/-- The two ways to write a network address. -/
inductive NetAddressForm where
  | dotted
  | grouped
  deriving DecidableEq, Repr

namespace NetAddress

/-- Check a dotted address from some place on: after `done` whole numbers, and with the digits read
so far making `number`. -/
def checkNumbers (done : Nat) (number : Option Nat) : Bytes → Except NetFault Unit
  | [] => if done < 3 then .error .tooFewNumbers else .ok ()
  | c :: text =>
    if isDigit c then
      let value := number.getD 0 * 10 + (c.toNat - 48)
      if number = some 0 then .error .leadingZero
      else if 255 < value then .error .numberTooLarge
      else checkNumbers done (some value) text
    else if c = '.' then
      if number.isNone || text.isEmpty then .error (.missingNumber (c :: text))
      else if done = 3 then .error .tooManyNumbers
      else checkNumbers (done + 1) none text
    else .error (.unexpectedInNumbers (c :: text))

/-- Check the end of a grouped address that has room for some more groups. -/
def checkEnd (room : Nat) (gap : Bool) : Except NetFault Unit :=
  if room = 0 then if gap then .error .emptyGap else .ok ()
  else if gap then .ok () else .error .tooFewGroups

/-- Check the groups of an address that has room for some more, with or without a double colon
before them. -/
def checkGroups : (room : Nat) → (gap : Bool) → Bytes → Except NetFault Unit
  | 0, gap, text => if text.isEmpty then checkEnd 0 gap else .error (.tooManyGroups text)
  | room + 1, gap, text =>
    let digits := text.takeWhile fun c => (digitValue? 16 c).isSome
    if 4 < digits.length then .error (.longGroup text)
    else if digits.isEmpty then .error (.missingGroup text)
    else match text.drop digits.length with
      | [] => checkEnd room gap
      | c :: rest =>
        if c = '.' then
          if !gap && room ≠ 1 then .error (.misplacedNumbers text)
          else if room = 0 then .error (.noRoomForNumbers text)
          else do
            checkNumbers 0 none text
            checkEnd (room - 1) gap
        else if c ≠ ':' then .error (.missingColon (c :: rest))
        else match rest with
          | [] => .error (.openEnd [c])
          | d :: tail =>
            if d ≠ ':' then checkGroups room gap (d :: tail)
            else if gap then .error (.secondGap (d :: tail))
            else if tail.isEmpty then checkEnd room true
            else checkGroups room true tail

/-- Check a grouped address without its zone. -/
def checkGrouped (text : Bytes) : Except NetFault Unit :=
  match Bytes.after? "::" text with
  | some [] => .ok ()
  | some text => checkGroups 8 true text
  | none => checkGroups 8 false text

/-- Check a grouped address. -/
def checkZoned (text : Bytes) : Except NetFault Unit :=
  match Bytes.cut? '%' text with
  | none => checkGrouped text
  | some (address, zone) => if zone.isEmpty then .error .emptyZone else checkGrouped address

/-- The form of a network address. Its first point, colon or percent sign tells which it is. -/
def form (text : Bytes) : Except NetFault NetAddressForm := do
  match List.find? (fun (c : UInt8) => c = '.' || c = ':' || c = '%') text with
  | none => throw .notNumeric
  | some c =>
    if c = '.' then
      checkNumbers 0 none text
      return .dotted
    else if c = ':' then
      checkZoned text
      return .grouped
    else throw .zoneAlone

end NetAddress

end TagScript
