import TagScript.Text.Bytes

/-!
# Coloured text

A styled piece of text is the text between an escape sequence that switches the style on and
one that switches it off. Without colour it is the bare text.
-/

namespace TagScript

/-- A way to set off a piece of text on a terminal. -/
inductive Style where
  | bold
  | faint
  | red
  | green
  | yellow
  | blue
  | cyan
  deriving DecidableEq, Repr

namespace Style

/-- The number that switches the style on. -/
def onCode : Style → Nat
  | .bold => 1
  | .faint => 2
  | .red => 31
  | .green => 32
  | .yellow => 33
  | .blue => 34
  | .cyan => 36

/-- The number that switches the style off. -/
def offCode : Style → Nat
  | .bold => 22
  | .faint => 22
  | _ => 0

/-- The escape sequence for a list of style numbers. -/
def escape (codes : List Nat) : Bytes := "\x1b[" ++ Bytes.join ";" (codes.map decimal) ++ "m"

/-- The text in the given styles, or bare when colour is off. -/
def paint (color : Bool) (styles : List Style) (text : Bytes) : Bytes :=
  if color then escape (styles.map onCode) ++ text ++ escape (styles.map offCode) else text

end Style

end TagScript
