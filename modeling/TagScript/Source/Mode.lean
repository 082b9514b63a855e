import TagScript.Text.Bytes

/-!
# Code, strings and comments

Reading a script byte by byte, a reader is in code, inside a string literal, or inside a
comment. Two step functions say where it stands next: `step` is followed when a script is split
into tokens, `searchStep` when a closing bracket is searched. They differ in front of the end of
the text only.
-/

namespace TagScript

/-- Where a reader of a script stands. -/
inductive Mode where
  | code
  | string (quote : UInt8)
  | lineComment
  | blockComment
  deriving DecidableEq, Repr

/-- Whether a byte opens a string literal: a double quote, a single quote or a back quote. -/
def isQuote (c : UInt8) : Bool := c = 0x22 || c = 0x27 || c = 0x60

namespace Mode

/-- The mode after reading byte `c` with `next` behind it, and whether `next` was read along. A
backslash in a string takes the next byte with it, and comment delimiters are read whole. -/
def step (mode : Mode) (c : UInt8) (next : Option UInt8) : Mode × Bool :=
  match mode with
  | .string quote =>
    if c = '\\' && next.isSome then (.string quote, true)
    else if c = quote then (.code, false)
    else (.string quote, false)
  | .lineComment => if c = '\n' then (.code, false) else (.lineComment, false)
  | .blockComment =>
    if c = '*' && next = some (Char.toUInt8 '/') then (.code, true) else (.blockComment, false)
  | .code =>
    if isQuote c then (.string c, false)
    else if c = '/' && next = some (Char.toUInt8 '/') then (.lineComment, true)
    else if c = '/' && next = some (Char.toUInt8 '*') then (.blockComment, true)
    else (.code, false)

/-- The mode of a search after byte `c` with `next` behind it, and whether the search passes over
`next`. A backslash in a string passes over the next byte without looking whether there is one. -/
def searchStep (mode : Mode) (c : UInt8) (next : Option UInt8) : Mode × Bool :=
  match mode with
  | .string quote =>
    if c = '\\' then (.string quote, true)
    else if c = quote then (.code, false)
    else (.string quote, false)
  | .lineComment => if c = '\n' then (.code, false) else (.lineComment, false)
  | .blockComment =>
    if c = '*' && next = some (Char.toUInt8 '/') then (.code, true) else (.blockComment, false)
  | .code =>
    if isQuote c then (.string c, false)
    else if c = '/' && next = some (Char.toUInt8 '/') then (.lineComment, true)
    else if c = '/' && next = some (Char.toUInt8 '*') then (.blockComment, true)
    else (.code, false)

/-- In front of another byte a search goes on as any reader does. -/
theorem searchStep_some (mode : Mode) (c d : UInt8) :
    mode.searchStep c (some d) = mode.step c (some d) := by
  cases mode with
  | string quote => simp [searchStep, step]
  | code => rfl
  | lineComment => rfl
  | blockComment => rfl

/-- The mode a reader is in after the whole text. -/
def run (mode : Mode) : Bytes → Mode
  | [] => mode
  | [c] => (mode.step c none).1
  | c :: d :: text =>
    match mode.step c (some d) with
    | (mode, true) => run mode text
    | (mode, false) => run mode (d :: text)

end Mode

end TagScript
