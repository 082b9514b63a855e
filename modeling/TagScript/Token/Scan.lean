import TagScript.Source.Mode
import TagScript.Token.Basic

/-!
# Splitting a script into tokens

Blocks are found by matching brackets, everything else is split at semicolons and line
breaks. Brackets and terminators inside strings and comments do not count. Inside the header
of a `for` loop only semicolons separate, and a clause without text becomes an empty leaf.

A scan either covers the whole script or fails at one opening bracket: one that has no
closer within its surroundings, or one that nests deeper than the limit.
-/

namespace TagScript

/-- Why a script cannot be split into tokens. -/
inductive ScanFault where
  /-- The bracket is never closed. -/
  | unmatched
  /-- The bracket is refused for the given reason. -/
  | refused (reason : Bytes)
  deriving DecidableEq, Repr

/-- The opening bracket at which a scan fails. -/
structure ScanError where
  fault : ScanFault
  opener : UInt8
  offset : Int
  deriving DecidableEq, Repr

namespace ScanFault

/-- The refusal of a bracket that nests deeper than the limit. -/
def tooDeep : ScanFault := .refused "nesting too deep"

/-- The reason in words; empty for an unmatched bracket. -/
def reason : ScanFault → Bytes
  | .unmatched => []
  | .refused reason => reason

/-- The fault with the given reason; an empty one means an unmatched bracket. -/
def ofReason (reason : Bytes) : ScanFault := if reason.isEmpty then .unmatched else .refused reason

end ScanFault

/-- A byte shown as the code point of its value. -/
def shownByte (c : UInt8) : Bytes := String.utf8EncodeChar (Char.ofNat c.toNat)

/-- The error in words. -/
def ScanError.message (e : ScanError) : Bytes :=
  let place := "'" ++ shownByte e.opener ++ "' at position " ++ decimalInt e.offset
  match e.fault with
  | .unmatched => "unmatched " ++ place
  | .refused reason => reason ++ ": " ++ place

namespace Scan

/-- Split the text behind an opening bracket at the bracket that closes it. `level` counts the
brackets of the same kind that are still open; other kinds are not looked at. -/
def splitAtCloser (bracket : Bracket) (level : Nat) (mode : Mode) : Bytes → Option (Bytes × Bytes)
  | [] => none
  | c :: text =>
    match mode.searchStep c text.head? with
    | (next, true) =>
      match text with
      | [] => none
      | d :: text => (splitAtCloser bracket level next text).map fun (l, r) => (c :: d :: l, r)
    | (next, false) =>
      if mode = .code ∧ c = bracket.opener then
        (splitAtCloser bracket (level + 1) next text).map fun (l, r) => (c :: l, r)
      else if mode = .code ∧ c = bracket.closer then
        match level with
        | 0 => some ([], text)
        | level + 1 => (splitAtCloser bracket level next text).map fun (l, r) => (c :: l, r)
      else (splitAtCloser bracket level next text).map fun (l, r) => (c :: l, r)

/-- What the search passes over stands in front of the content that it finds further on. -/
theorem exists_of_passed {found : Option (Bytes × Bytes)} {inside after : Bytes} (front : Bytes)
    (h : (found.map fun (l, r) => (front ++ l, r)) = some (inside, after)) :
    ∃ l, found = some (l, after) ∧ inside = front ++ l := by
  obtain ⟨⟨l, r⟩, hlr, heq⟩ := Option.map_eq_some_iff.1 h
  obtain ⟨rfl, rfl⟩ := Prod.mk.inj heq
  exact ⟨l, hlr, rfl⟩

/-- What was split is the content, the closing bracket, and what follows it. -/
theorem eq_append_of_splitAtCloser {bracket : Bracket} {level : Nat} {mode : Mode}
    {text inside after : Bytes} (h : splitAtCloser bracket level mode text = some (inside, after)) :
    text = inside ++ bracket.closer :: after := by
  fun_induction splitAtCloser bracket level mode text generalizing inside after with
  | case1 => exact nomatch h
  | case2 => exact nomatch h
  | case3 level mode c next d text hstep ih =>
    obtain ⟨l, hl, rfl⟩ := exists_of_passed [c, d] h
    rw [ih hl]
    rfl
  | case4 level mode c text next hstep hopen ih =>
    obtain ⟨l, hl, rfl⟩ := exists_of_passed [c] h
    rw [ih hl]
    rfl
  | case5 mode c text next hstep hopen hclose =>
    obtain ⟨rfl, rfl⟩ := Prod.mk.inj (Option.some.inj h)
    rw [hclose.2, List.nil_append]
  | case6 mode c text next hstep hopen hclose level ih =>
    obtain ⟨l, hl, rfl⟩ := exists_of_passed [c] h
    rw [ih hl]
    rfl
  | case7 level mode c text next hstep hopen hclose ih =>
    obtain ⟨l, hl, rfl⟩ := exists_of_passed [c] h
    rw [ih hl]
    rfl

/-- Both the content and what follows are shorter than what was split. -/
theorem length_lt_of_splitAtCloser {bracket : Bracket} {level : Nat} {mode : Mode}
    {text inside after : Bytes} (h : splitAtCloser bracket level mode text = some (inside, after)) :
    inside.length < text.length ∧ after.length < text.length := by
  rw [eq_append_of_splitAtCloser h, List.length_append, List.length_cons]
  omega

/-- The text read since the last token, back to front, as it becomes a token: its first byte that
is not white space lies `length` bytes before `position`. -/
def pendingText (pending : Bytes) : Bytes := Bytes.trim pending.reverse

/-- Where the pending text starts, if it ends before `position`. -/
def pendingOffset (pending : Bytes) (position : Nat) : Nat :=
  position - (Bytes.trimStart pending.reverse).length

/-- The pending text as a leaf, unless it is blank. -/
def flush (pending : Bytes) (position : Nat) : List Token :=
  let text := pendingText pending
  if text.isEmpty then [] else [.leaf text (pendingOffset pending position)]

/-- Where a scan stands among the clauses of a `for` header. -/
structure Clauses where
  /-- Whether a semicolon was seen at this level. -/
  split : Bool := false
  /-- Whether the current clause holds a token already. -/
  filled : Bool := false
  deriving DecidableEq, Repr

/-- The tokens that end a clause at `position`: the pending text, or an empty leaf for a clause
that holds nothing. -/
def endClause (clauses : Clauses) (pending : Bytes) (position : Nat) : List Token :=
  match flush pending position with
  | [] => if clauses.filled then [] else [.leaf [] position]
  | tokens => tokens

/-- The tokens of `text`, which starts at `position` and nests `level` blocks deep. `header` says
whether it is the content of a `for` header; `pending` holds what was read since the last token,
back to front. -/
def tokensFrom (limit level : Nat) (header : Bool) (clauses : Clauses) (mode : Mode)
    (pending : Bytes) (position : Nat) (text : Bytes) : Except ScanError (List Token) :=
  match text with
  | [] =>
    if clauses.split then .ok (endClause clauses pending position) else .ok (flush pending position)
  | c :: text =>
    match mode, mode.step c text.head? with
    | .code, (.code, _) =>
      match Bracket.ofOpener? c with
      | some bracket =>
        if limit ≤ level then .error ⟨.tooDeep, c, position⟩
        else match h : splitAtCloser bracket 0 .code text with
          | none => .error ⟨.unmatched, c, position⟩
          | some (inside, after) => do
            let signature := pendingText (c :: pending)
            let children ← tokensFrom limit (level + 1) (isForHeader signature) {} .code []
              (position + 1) inside
            let rest ← tokensFrom limit level header { clauses with filled := true } .code []
              (position + inside.length + 2) after
            return .block signature children (pendingOffset (c :: pending) (position + 1)) :: rest
      | none =>
        if header && c = ';' then do
          let rest ← tokensFrom limit level header { split := true } .code [] (position + 1) text
          return endClause clauses pending position ++ rest
        else if !header && (c = ';' || c = '\n') then do
          let rest ← tokensFrom limit level header clauses .code [] (position + 1) text
          return flush pending position ++ rest
        else tokensFrom limit level header clauses .code (c :: pending) (position + 1) text
    | .lineComment, (.code, _) =>
      if header then tokensFrom limit level header clauses .code (c :: pending) (position + 1) text
      else do
        let rest ← tokensFrom limit level header clauses .code [] (position + 1) text
        return flush pending position ++ rest
    | _, (after, true) =>
      match text with
      | [] => tokensFrom limit level header clauses after (c :: pending) (position + 1) []
      | d :: text =>
        tokensFrom limit level header clauses after (d :: c :: pending) (position + 2) text
    | _, (after, false) =>
      tokensFrom limit level header clauses after (c :: pending) (position + 1) text
termination_by text.length
decreasing_by
  · exact Nat.lt_succ_of_lt (length_lt_of_splitAtCloser h).1
  · exact Nat.lt_succ_of_lt (length_lt_of_splitAtCloser h).2
  all_goals simp only [List.length_cons, List.length_nil]; omega

end Scan

/-- How deep brackets may nest when nothing else is asked for. -/
def defaultMaxDepth : Nat := 1000

/-- The nesting limit that a setting stands for; anything below one means the default. -/
def nestingLimit (setting : Int) : Nat := if 0 < setting then setting.toNat else defaultMaxDepth

/-- The tokens of a script whose brackets nest at most `limit` deep. -/
def scan (limit : Nat) (source : Bytes) : Except ScanError (List Token) :=
  Scan.tokensFrom limit 0 false {} .code [] 0 source

/-- The tokens of a script under the default nesting limit. -/
def tokenize (source : Bytes) : Except ScanError (List Token) := scan defaultMaxDepth source

end TagScript
