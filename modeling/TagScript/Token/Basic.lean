import TagScript.Text.Space
import TagScript.Text.Word

/-!
# Token trees

A script is a sequence of tokens. A leaf is a statement fragment without brackets; a block
is a matched pair of brackets, headed by the text in front of it and its opening bracket.
Both record where their text starts.
-/

namespace TagScript

/-- A statement fragment, or a bracket pair with its content. -/
inductive Token where
  /-- A fragment of text that starts at `offset`. -/
  | leaf (text : Bytes) (offset : Nat)
  /-- A bracket pair; `signature` is the text before it and the opening bracket itself. -/
  | block (signature : Bytes) (children : List Token) (offset : Nat)
  deriving Repr

namespace Token

mutual

/-- Tokens can be compared, offsets included. -/
def decEq : (t u : Token) → Decidable (t = u)
  | .leaf s m, .leaf s' n => decidable_of_iff (s = s' ∧ m = n) (by simp)
  | .leaf .., .block .. => isFalse (by simp)
  | .block .., .leaf .. => isFalse (by simp)
  | .block s ts m, .block s' us n =>
    have := decEqAll ts us
    decidable_of_iff (s = s' ∧ ts = us ∧ m = n) (by simp)

/-- Sequences of tokens can be compared. -/
def decEqAll : (ts us : List Token) → Decidable (ts = us)
  | [], [] => isTrue rfl
  | [], _ :: _ => isFalse (by simp)
  | _ :: _, [] => isFalse (by simp)
  | t :: ts, u :: us =>
    have := decEq t u
    have := decEqAll ts us
    decidable_of_iff (t = u ∧ ts = us) (by simp)

end

instance : DecidableEq Token := decEq

/-- The text of a leaf or the signature of a block. -/
def head : Token → Bytes
  | .leaf text _ => text
  | .block signature _ _ => signature

/-- Where the token's text starts. -/
def offset : Token → Nat
  | .leaf _ offset => offset
  | .block _ _ offset => offset

/-- The same token with another text or signature. -/
def setHead (head : Bytes) : Token → Token
  | .leaf _ offset => .leaf head offset
  | .block _ children offset => .block head children offset

/-- Whether the token is a block. -/
def isBlock : Token → Bool
  | .leaf .. => false
  | .block .. => true

mutual

/-- Whether two tokens have the same kind, text and content; offsets do not count. -/
def same : Token → Token → Bool
  | .leaf s _, .leaf t _ => s = t
  | .block s cs _, .block t ds _ => s = t && sameAll cs ds
  | _, _ => false

/-- Whether two sequences hold the same tokens one by one; offsets do not count. -/
def sameAll : List Token → List Token → Bool
  | [], [] => true
  | t :: ts, u :: us => same t u && sameAll ts us
  | _, _ => false

end

mutual

/-- The leaves of a token in source order. -/
def leaves : Token → List Token
  | .leaf text offset => [.leaf text offset]
  | .block _ children _ => leavesAll children

/-- The leaves of a sequence in source order, nested ones included. -/
def leavesAll : List Token → List Token
  | [] => []
  | t :: ts => leaves t ++ leavesAll ts

end

mutual

/-- How deep blocks nest in a token. -/
def depth : Token → Nat
  | .leaf .. => 0
  | .block _ children _ => depthAll children + 1

/-- How deep blocks nest in a sequence. -/
def depthAll : List Token → Nat
  | [] => 0
  | t :: ts => max (depth t) (depthAll ts)

end

mutual

/-- The token and everything inside it in preorder, each with its nesting level. -/
def preorder (level : Nat) : Token → List (Nat × Token)
  | .leaf text offset => [(level, .leaf text offset)]
  | .block signature children offset =>
    (level, .block signature children offset) :: preorderAll (level + 1) children

/-- A sequence and everything inside it in preorder, each token with its nesting level. -/
def preorderAll (level : Nat) : List Token → List (Nat × Token)
  | [] => []
  | t :: ts => preorder level t ++ preorderAll level ts

end

end Token

/-- The kinds of bracket that form blocks. -/
inductive Bracket where
  | round
  | curly
  deriving DecidableEq, Repr

namespace Bracket

/-- The opening bracket. -/
def opener : Bracket → UInt8
  | .round => '('
  | .curly => '\x7b'

/-- The closing bracket. -/
def closer : Bracket → UInt8
  | .round => ')'
  | .curly => '\x7d'

/-- The bracket that a byte opens. -/
def ofOpener? (c : UInt8) : Option Bracket :=
  if c = opener .round then some .round else if c = opener .curly then some .curly else none

end Bracket

/-- The bracket that a signature ends with. -/
def signatureBracket? (signature : Bytes) : Option Bracket :=
  signature.trim.getLast?.bind Bracket.ofOpener?

/-- What closes a block of the given signature when it is written out. A signature that ends with
no bracket is closed by a line break. -/
def signatureCloser (signature : Bytes) : Bytes :=
  match signatureBracket? signature with
  | some bracket => [bracket.closer]
  | none => [10]

/-- Whether a text written back to front starts a word here: nothing stands before it that could
belong to the word or make it a member of something. -/
def startsFresh : Bytes → Bool
  | [] => true
  | c :: _ => !(isNamePart c || c = '.')

/-- Whether the text, read back to front, is a free-standing `for`. -/
def endsWithFor (reversed : Bytes) : Bool :=
  match Bytes.after? "rof" reversed with
  | some rest => startsFresh rest
  | none => false

/-- Whether a signature opens the header of a `for` loop, `for await` included. The children of
such a block are the clauses between semicolons, empty ones included. -/
def isForHeader (signature : Bytes) : Bool :=
  match signature.trim.reverse with
  | [] => false
  | c :: text =>
    c = '(' &&
      let text := Bytes.skipGaps text
      endsWithFor text ||
        match Bytes.after? "tiawa" text with
        | some (gap :: rest) => isGap gap && endsWithFor (Bytes.skipGaps rest)
        | _ => false

end TagScript
