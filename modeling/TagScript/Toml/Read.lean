import TagScript.Text.Utf8
import TagScript.Toml.Scalar

/-!
# Reading TOML

A document is a sequence of table headers and assignments, each ended by a line break. Reading
gives these statements as they are written; which tables they make is decided afterwards.
-/

namespace TagScript.Toml

/-- The names that lead to a value, outermost first. -/
abbrev Key := List Bytes

/-- A value as it is written. -/
inductive Expr where
  | text (value : Bytes)
  | integer (value : Int)
  | float (word : Bytes)
  | boolean (value : Bool)
  | moment (word : Bytes)
  | array (items : List Expr)
  | inlineTable (fields : List (Key × Expr))

/-- A line of a document. -/
inductive Statement where
  | table (key : Key)
  | tableInArray (key : Key)
  | assign (key : Key) (value : Expr)

/-- A tab or a blank. -/
def isBlank (c : UInt8) : Bool := c = 9 || c = 32

/-- A byte of a line break. -/
def isBreak (c : UInt8) : Bool := c = 10 || c = 13

/-- A byte that may stand in a key without quotes. -/
def isBareKey (c : UInt8) : Bool := isLetter c || isDigit c || c = '_' || c = '-'

/-- Whether a text has no control characters but tabs and line breaks. -/
def isClean : Bytes → Bool
  | [] => true
  | c :: text =>
    if c = 13 then text.head? = some 10 && isClean text
    else (c = 9 || c = 10 || (32 ≤ c && c ≠ 127)) && isClean text

/-- The text after blanks. -/
def skipBlanks (text : Bytes) : Bytes := text.dropWhile isBlank

/-- The text after blanks, line breaks and comments. -/
def skipTrivia (comment : Bool) : Bytes → Bytes
  | [] => []
  | c :: text =>
    if comment then skipTrivia (!isBreak c) text
    else if isBlank c || isBreak c then skipTrivia false text
    else if c = '#' then skipTrivia true text
    else c :: text

/-- The escapes that stand for one byte. -/
def simpleEscape? (c : UInt8) : Option UInt8 :=
  if c = 'b' then some 8
  else if c = 't' then some 9
  else if c = 'n' then some 10
  else if c = 'f' then some 12
  else if c = 'r' then some 13
  else if c = 0x22 || c = '\\' then some c
  else none

/-- The code point that a set number of hexadecimal digits spell. -/
def codePoint? (width : Nat) (digits : Bytes) : Option Nat := do
  guard (digits.length = width && digits.all isHexDigit)
  let n := digits.foldl (fun n c => n * 16 + (digitValue? 16 c).getD 0) 0
  guard (n < 0xD800 || (0xE000 ≤ n && n < 0x110000))
  return n

/-- The tabs, blanks and line breaks at the front of a text. -/
def leadingSpace (text : Bytes) : Bytes := text.takeWhile fun c => isBlank c || isBreak c

/-- The text that escapes stand for. In a long string, a backslash at the end of a line stands for
nothing, and neither does the white space after it. -/
def unescape (long : Bool) : Bytes → Option Bytes
  | [] => some []
  | [c] => if c = '\\' then none else some [c]
  | c :: e :: text =>
    if c ≠ '\\' then (c :: ·) <$> unescape long (e :: text)
    else if long && (leadingSpace (e :: text)).contains 10 then
      unescape long ((e :: text).drop (leadingSpace (e :: text)).length)
    else if e = 'u' || e = 'U' then
      let width := if e = 'u' then 4 else 8
      match codePoint? width (text.take width) with
      | some n => (Utf8.encode n ++ ·) <$> unescape long (text.drop width)
      | none => none
    else
      match simpleEscape? e with
      | some byte => (byte :: ·) <$> unescape long text
      | none => none
termination_by text => text.length
decreasing_by all_goals simp; try omega

/-- The text up to the closing double quote with its escapes as they stand, and the rest. -/
def escapedString? : Bytes → Option (Bytes × Bytes)
  | [] => none
  | [c] => if c = 0x22 then some ([], []) else none
  | c :: d :: text =>
    if c = 0x22 then some ([], d :: text)
    else if isBreak c then none
    else if c = '\\' then (escapedString? text).map fun (s, rest) => (c :: d :: s, rest)
    else (escapedString? (d :: text)).map fun (s, rest) => (c :: s, rest)

/-- The text up to the closing single quote, and the rest. -/
def literalString? : Bytes → Option (Bytes × Bytes)
  | [] => none
  | c :: text =>
    if c = 0x27 then some ([], text)
    else if isBreak c then none
    else (literalString? text).map fun (s, rest) => (c :: s, rest)

/-- How many quotes may stand together at the end of a long string. -/
def closingQuotes : Nat := 5

/-- The text of a long string up to its three closing quotes, and the rest. More quotes in front of
these belong to the text, as long as there are no more than `limit` together. Directly after an
escaped backslash there may be one more. -/
def longString? (quote : UInt8) (escapes : Bool) (limit : Nat) : Bytes → Option (Bytes × Bytes)
  | [] => none
  | [_] => none
  | c :: d :: text =>
    if c = quote then
      let run := ((c :: d :: text).takeWhile (· = quote)).length
      if run < 3 then
        (longString? quote escapes closingQuotes (d :: text)).map fun (s, rest) => (c :: s, rest)
      else if run ≤ limit then some (List.replicate (run - 3) quote, (c :: d :: text).drop run)
      else none
    else if escapes && c = '\\' then
      let limit := if d = '\\' then closingQuotes + 1 else closingQuotes
      (longString? quote escapes limit text).map fun (s, rest) => (c :: d :: s, rest)
    else (longString? quote escapes closingQuotes (d :: text)).map fun (s, rest) => (c :: s, rest)

/-- The text without a line break at its start. -/
def dropFirstBreak (text : Bytes) : Bytes :=
  if text.startsWith "\r\n" then text.drop 2 else Bytes.dropLead "\n" text

/-- A string without line breaks, given what follows its opening quote. -/
def shortString? (quote : UInt8) (text : Bytes) : Option (Bytes × Bytes) :=
  if quote = 0x22 then do
    let (escaped, rest) ← escapedString? text
    return (← unescape false escaped, rest)
  else literalString? text

/-- A string of any kind. -/
def string? (quote : UInt8) (text : Bytes) : Option (Bytes × Bytes) :=
  match Bytes.after? [quote, quote] text with
  | none => shortString? quote text
  | some text => do
    let (content, rest) ← longString? quote (quote = 0x22) closingQuotes text
    let content := dropFirstBreak content
    if quote = 0x22 then return (← unescape true content, rest) else return (content, rest)

/-- One name of a key. -/
def keyPart? : Bytes → Option (Bytes × Bytes)
  | [] => none
  | c :: text =>
    if c = 0x22 || c = 0x27 then shortString? c text
    else if isBareKey c then
      some (c :: text.takeWhile isBareKey, text.dropWhile isBareKey)
    else none

/-- A key: names with points between them. -/
def key? : (fuel : Nat) → Bytes → Option (Key × Bytes)
  | 0, _ => none
  | fuel + 1, text => do
    let (part, rest) ← keyPart? (skipBlanks text)
    match Bytes.after? "." (skipBlanks rest) with
    | none => return ([part], skipBlanks rest)
    | some rest =>
      let (key, rest) ← key? fuel rest
      return (part :: key, rest)

/-- A byte of a whole number in decimal. -/
def isWholeByte (c : UInt8) : Bool := isDigit c || c = '_'

/-- A byte that ends the whole part of a float. -/
def endsWhole (c : UInt8) : Bool := c = '.' || c = 'e' || c = 'E'

/-- A byte of a float. -/
def isFloatByte (c : UInt8) : Bool := isWholeByte c || endsWhole c || c = '+' || c = '-'

/-- A byte of a moment. -/
def isMomentByte (c : UInt8) : Bool := isDigit c || (utf8 "-:Tt .Zz+").contains c

/-- A decimal number, perhaps with a sign. -/
def decimalNumber? (text : Bytes) : Option (Expr × Bytes) :=
  let unsigned := dropSign text
  let length := text.length - unsigned.length + (unsigned.takeWhile isWholeByte).length
  if (text.drop length).head?.any endsWhole then
    let float := text.takeWhile isFloatByte
    if isFloat float then some (.float float, text.dropWhile isFloatByte) else none
  else (integer? (text.take length)).map fun n => (.integer n, text.drop length)

/-- A number in another base than ten, given its letter and what follows it. -/
def basedNumber? (letter : UInt8) (text : Bytes) : Option (Expr × Bytes) := do
  let base := if letter = 'b' then 2 else if letter = 'o' then 8 else 16
  let isBaseDigit := fun c => (digitValue? base c).isSome
  guard (text.head?.any isBaseDigit)
  let isPart := fun c => isBaseDigit c || c = '_'
  let n ← integer? (Char.toUInt8 '0' :: letter :: text.takeWhile isPart)
  return (.integer n, text.dropWhile isPart)

/-- A date or a time of day, which may have blanks after it. -/
def moment? (text : Bytes) : Option (Expr × Bytes) :=
  let word := ((text.takeWhile isMomentByte).reverse.dropWhile isBlank).reverse
  if isMoment word then some (.moment word, text.dropWhile isMomentByte) else none

/-- The letter of a base and the rest, for a number in another base than ten. -/
def splitBased? : Bytes → Option (UInt8 × Bytes)
  | z :: letter :: rest =>
    if z = '0' && (letter = 'b' || letter = 'o' || letter = 'x') then some (letter, rest) else none
  | _ => none

/-- Whether the digits at the front of a text start a date or a time of day. -/
def startsMoment (text : Bytes) : Bool :=
  let (digits, rest) := spanDigits text
  digits ≠ ("0" : Bytes) && (rest.startsWith "-" || rest.startsWith ":")

/-- A number or a moment without a sign. -/
def unsigned? (text : Bytes) : Option (Expr × Bytes) :=
  match splitBased? text with
  | some (letter, rest) => basedNumber? letter rest
  | none => if startsMoment text then moment? text else decimalNumber? text

/-- A number or a moment. -/
def number? (text : Bytes) : Option (Expr × Bytes) :=
  let unsigned := dropSign text
  if unsigned.startsWith "inf" || unsigned.startsWith "nan" then
    some (.float (text.take (text.length - unsigned.length + 3)), unsigned.drop 3)
  else if !unsigned.head?.any isDigit then none
  else if unsigned.length = text.length then unsigned? text
  else if (splitBased? unsigned).isSome then none
  else decimalNumber? text

mutual

/-- A value. -/
def value? : (fuel : Nat) → Bytes → Option (Expr × Bytes)
  | 0, _ => none
  | fuel + 1, text =>
    match skipBlanks text with
    | [] => none
    | c :: rest =>
      if c = '[' then (items? fuel rest).map fun (items, rest) => (.array items, rest)
      else if c = '\x7b' then
        match Bytes.after? "\x7d" (skipBlanks rest) with
        | some rest => some (.inlineTable [], rest)
        | none => (fields? fuel rest).map fun (fields, rest) => (.inlineTable fields, rest)
      else if c = 0x22 || c = 0x27 then (string? c rest).map fun (s, rest) => (.text s, rest)
      else match Bytes.after? "true" (c :: rest), Bytes.after? "false" (c :: rest) with
        | some rest, _ => some (.boolean true, rest)
        | _, some rest => some (.boolean false, rest)
        | none, none => number? (c :: rest)

/-- The items of an array and its closing bracket. -/
def items? : (fuel : Nat) → Bytes → Option (List Expr × Bytes)
  | 0, _ => none
  | fuel + 1, text =>
    match Bytes.after? "]" (skipTrivia false text) with
    | some rest => some ([], rest)
    | none => do
      let (item, rest) ← value? fuel (skipTrivia false text)
      match skipTrivia false rest with
      | [] => none
      | c :: rest =>
        if c = ',' then
          let (items, rest) ← items? fuel rest
          return (item :: items, rest)
        else if c = ']' then return ([item], rest)
        else none

/-- The fields of an inline table, at least one, and its closing brace. -/
def fields? : (fuel : Nat) → Bytes → Option (List (Key × Expr) × Bytes)
  | 0, _ => none
  | fuel + 1, text => do
    let (key, rest) ← key? fuel text
    let (value, rest) ← value? fuel (← Bytes.after? "=" rest)
    match skipBlanks rest with
    | [] => none
    | c :: rest =>
      if c = ',' then
        let (fields, rest) ← fields? fuel rest
        return ((key, value) :: fields, rest)
      else if c = '\x7d' then return ([(key, value)], rest)
      else none

end

/-- A table header or an assignment. -/
def statement? (fuel : Nat) (text : Bytes) : Option (Statement × Bytes) :=
  match Bytes.after? "[" text with
  | none => do
    let (key, rest) ← key? fuel text
    let (value, rest) ← value? fuel (← Bytes.after? "=" rest)
    return (.assign key value, rest)
  | some header =>
    match Bytes.after? "[" header with
    | none => do
      let (key, rest) ← key? fuel header
      return (.table key, ← Bytes.after? "]" rest)
    | some header => do
      let (key, rest) ← key? fuel header
      return (.tableInArray key, ← Bytes.after? "]]" rest)

/-- The statements of a text; each is ended by a line break or a comment. -/
def statements? : (fuel : Nat) → Bytes → Option (List Statement)
  | 0, _ => none
  | fuel + 1, text =>
    match skipTrivia false text with
    | [] => some []
    | text => do
      let (statement, rest) ← statement? fuel text
      let rest := skipBlanks rest
      guard (rest.head?.all fun c => isBreak c || c = Char.toUInt8 '#')
      return statement :: (← statements? fuel rest)

/-- The text after a byte order mark. -/
def dropByteOrderMark (text : Bytes) : Bytes :=
  if text.startsWith [0xFF, 0xFE] || text.startsWith [0xFE, 0xFF] then text.drop 2
  else Bytes.dropLead [0xEF, 0xBB, 0xBF] text

/-- The UTF-8 form of U+FFFD, which stands for what could not be read and is refused. -/
def replacement : Bytes := [0xEF, 0xBF, 0xBD]

/-- The statements of a document. -/
def read? (document : Bytes) : Option (List Statement) := do
  let text := dropByteOrderMark document
  guard (isClean text && Utf8.isValid text && (Bytes.find? replacement text).isNone)
  statements? (text.length + 1) text

end TagScript.Toml
