import TagScript.Text.Integer
import TagScript.Text.Quoted

/-!
# Flags of a command line

A flag has a name and perhaps a letter. It is written `--name`, `--name=value` or `--name value`,
and by its letter `-l`, `-l=value`, `-lvalue` or `-l value`; letters of flags without a value may
stand behind one dash. Flags may stand before and after other arguments, and a double dash ends
them.
-/

namespace TagScript

/-- What a flag takes. -/
inductive FlagKind where
  /-- A truth value, true when none is written. -/
  | switch
  /-- A number that goes up by one when none is written. -/
  | count
  | integer
  | text
  deriving DecidableEq, Repr

/-- A flag. -/
structure Flag where
  name : Bytes
  letter : Option UInt8 := none
  kind : FlagKind
  deriving DecidableEq, Repr

/-- The value of a flag that was set. -/
inductive FlagValue where
  | switch (on : Bool)
  | count
  | integer (value : Int)
  | text (value : Bytes)
  deriving DecidableEq, Repr

/-- Why arguments are refused. -/
inductive FlagError where
  | unknownName (name : Bytes)
  | unknownLetter (letters : Bytes)
  | missingValue (name : Bytes)
  | missingLetterValue (letters : Bytes)
  | badSyntax (argument : Bytes)
  | notSwitch (flag : Flag) (value : Bytes)
  | notInteger (flag : Flag) (value : Bytes) (fault : IntegerFault)
  deriving DecidableEq, Repr

namespace Flag

/-- The flag as it is named in messages. -/
def shown (f : Flag) : Bytes :=
  match f.letter with
  | some letter => "-" ++ [letter] ++ ", --" ++ f.name
  | none => "--" ++ f.name

/-- The value that a flag has when it is written without one. -/
def implied? (f : Flag) : Option Bytes :=
  match f.kind with
  | .switch => some "true"
  | .count => some "+1"
  | .integer => none
  | .text => none

end Flag

namespace FlagError

/-- A value that a flag does not take, and why. -/
def refusal (flag : Flag) (value reader fault : Bytes) : Bytes :=
  "invalid argument " ++ quoted value ++ " for " ++ quoted flag.shown ++ " flag: strconv." ++
    reader ++ ": parsing " ++ quoted value ++ ": " ++ fault

/-- The letter that a message names for a byte: the first byte of the UTF-8 form of the code point
with its value. For ASCII this is the letter itself. -/
def shownLetter (letter : UInt8) : UInt8 := (Utf8.encode letter.toNat).headD letter

/-- The first of some letters and all of them. -/
def lettersShown (letters : Bytes) : Bytes :=
  quotedPoint (shownLetter (letters.headD 0)).toNat ++ " in -" ++ letters

/-- The error in words. -/
def message : FlagError → Bytes
  | .unknownName name => "unknown flag: --" ++ name
  | .unknownLetter letters => "unknown shorthand flag: " ++ lettersShown letters
  | .missingValue name => "flag needs an argument: --" ++ name
  | .missingLetterValue letters => "flag needs an argument: " ++ lettersShown letters
  | .badSyntax argument => "bad flag syntax: " ++ argument
  | .notSwitch flag value => refusal flag value "ParseBool" "invalid syntax"
  | .notInteger flag value .malformed => refusal flag value "ParseInt" "invalid syntax"
  | .notInteger flag value .outOfRange => refusal flag value "ParseInt" "value out of range"

end FlagError

/-- The texts that mean true. -/
def trueTexts : List Bytes := ["1", "t", "T", "TRUE", "true", "True"]

/-- The texts that mean false. -/
def falseTexts : List Bytes := ["0", "f", "F", "FALSE", "false", "False"]

namespace Flag

/-- The value that a text gives a flag. -/
def value (f : Flag) (text : Bytes) : Except FlagError FlagValue :=
  let integer := (Integer.read text).mapError (FlagError.notInteger f text)
  match f.kind with
  | .text => .ok (.text text)
  | .integer => return .integer (← integer)
  | .count => if text = ("+1" : Bytes) then .ok .count else do let _ ← integer; return .count
  | .switch =>
    if trueTexts.contains text then .ok (.switch true)
    else if falseTexts.contains text then .ok (.switch false)
    else .error (.notSwitch f text)

end Flag

/-- The flags that were set, each with its values in order. -/
abbrev FlagSettings := List (Bytes × FlagValue)

namespace FlagSettings

/-- The last value of a flag. -/
def last? (s : FlagSettings) (name : Bytes) : Option FlagValue := s.reverse.lookup name

/-- The text that a flag was set to. -/
def text? (s : FlagSettings) (name : Bytes) : Option Bytes :=
  match s.last? name with
  | some (.text value) => some value
  | _ => none

/-- The integer that a flag was set to. -/
def integer? (s : FlagSettings) (name : Bytes) : Option Int :=
  match s.last? name with
  | some (.integer value) => some value
  | _ => none

/-- The truth value that a flag was set to. -/
def switch? (s : FlagSettings) (name : Bytes) : Option Bool :=
  match s.last? name with
  | some (.switch on) => some on
  | _ => none

/-- Whether a switch is on. -/
def isOn (s : FlagSettings) (name : Bytes) : Bool := (s.switch? name).getD false

end FlagSettings

/-- What one argument is. -/
inductive ArgumentRole where
  | positional
  | endOfFlags
  | set (settings : FlagSettings)
  /-- A flag that takes the next argument for its value, after others that are set. -/
  | awaiting (settings : FlagSettings) (flag : Flag) (missing : FlagError)

namespace ArgumentRole

/-- The role of an argument that names a flag, given what follows the dashes. -/
def ofName (flags : List Flag) (argument : Bytes) : Except FlagError ArgumentRole :=
  let (name, value?) := match Bytes.cut? '=' argument with
    | some (name, value) => (name, some value)
    | none => (argument, none)
  match flags.find? (·.name = name) with
  | none => .error (.unknownName name)
  | some flag =>
    match value?.or flag.implied? with
    | some value => return .set [(flag.name, ← flag.value value)]
    | none => .ok (.awaiting [] flag (.missingValue name))

/-- The letters that are passed over, with all that follows them. -/
def passedOver : Bytes := "test."

/-- The role of an argument that is a dash and letters, after the flags set so far. -/
def ofLetters (flags : List Flag) (settings : FlagSettings) : Bytes → Except FlagError ArgumentRole
  | [] => .ok (.set settings)
  | letter :: rest =>
    if Bytes.startsWith (letter :: rest) passedOver then .ok (.set settings)
    else match flags.find? (·.letter = some letter) with
    | none => .error (.unknownLetter (letter :: rest))
    | some flag =>
      let done := fun value => do
        return ArgumentRole.set (settings ++ [(flag.name, ← flag.value value)])
      match Bytes.after? "=" rest, flag.implied? with
      | some (c :: value), _ => done (c :: value)
      | _, some implied => do ofLetters flags (settings ++ [(flag.name, ← flag.value implied)]) rest
      | _, none =>
        if rest.isEmpty then .ok (.awaiting settings flag (.missingLetterValue [letter]))
        else done rest

/-- The role of an argument. -/
def ofArgument (flags : List Flag) (argument : Bytes) : Except FlagError ArgumentRole :=
  match argument with
  | first :: second :: rest =>
    if first ≠ '-' then .ok .positional
    else if second ≠ '-' then ofLetters flags [] (second :: rest)
    else match rest with
      | [] => .ok .endOfFlags
      | c :: _ =>
        if c = '-' || c = '=' then .error (.badSyntax argument) else ofName flags rest
  | _ => .ok .positional

end ArgumentRole

/-- Arguments, taken apart. -/
structure ParsedArguments where
  settings : FlagSettings := []
  positional : List Bytes := []
  deriving DecidableEq, Repr

namespace ParsedArguments

/-- Arguments after others that set flags. -/
def prepend (settings : FlagSettings) (p : ParsedArguments) : ParsedArguments :=
  { p with settings := settings ++ p.settings }

/-- Take arguments apart. -/
def parse (flags : List Flag) : List Bytes → Except FlagError ParsedArguments
  | [] => .ok {}
  | argument :: rest =>
    match ArgumentRole.ofArgument flags argument with
    | .error e => .error e
    | .ok .positional => do
      let p ← parse flags rest
      return { p with positional := argument :: p.positional }
    | .ok .endOfFlags => .ok { positional := rest }
    | .ok (.set settings) => do return (← parse flags rest).prepend settings
    | .ok (.awaiting settings flag missing) =>
      match rest with
      | [] => .error missing
      | text :: rest => do
        let value ← flag.value text
        return (← parse flags rest).prepend (settings ++ [(flag.name, value)])

end ParsedArguments

end TagScript
