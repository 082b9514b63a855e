import TagScript.Proofs.ScanSteps
import TagScript.Proofs.Whitespace

/-!
# How a script is laid out as tokens

A script is a sequence of texts, each ended by a separator, by a bracket pair or by the end of
what is scanned. The layout says this without the scanner's state: which text becomes which
token, where, and what stands between two brackets.

Everything about scanned trees is derived from their layout by induction, one case for each way
in which a text ends.
-/

namespace TagScript

/-- An opening bracket is a visible ASCII byte. -/
theorem Bracket.opener_ascii (b : Bracket) : b.opener < 0x80 ∧ ¬ Bytes.IsSpaceByte b.opener := by
  cases b <;> exact ⟨by decide, by unfold Bytes.IsSpaceByte; decide⟩

/-- A closing bracket is an ASCII byte. -/
theorem Bracket.closer_ascii (b : Bracket) : b.closer < 0x80 := by cases b <;> decide

namespace Token

mutual

/-- What `f` finds in the texts of a token, of the tokens inside it and of its closer, in this
order. -/
def collect {α : Type} (f : Bytes → List α) : Token → List α
  | .leaf text _ => f text
  | .block signature children _ =>
    f signature ++ (collectAll f children ++ f (signatureCloser signature))

/-- What `f` finds in a sequence of tokens. -/
def collectAll {α : Type} (f : Bytes → List α) : List Token → List α
  | [] => []
  | t :: ts => collect f t ++ collectAll f ts

end

end Token

namespace Scan

/-- The tokens of a text that starts at `position`, and the bracket pairs among them. -/
inductive Layout : Bool → Clauses → Nat → Bytes → List Token → List BracketPair → Prop where
  /-- The text reaches to the end. -/
  | finish {header : Bool} {clauses : Clauses} {position : Nat} {text : Bytes} {mode : Mode}
      (hread : Mode.Reads (Kept header) .code text mode []) :
      Layout header clauses position text
        (if clauses.split then endClause clauses text.reverse (position + text.length)
          else flush text.reverse (position + text.length)) []
  /-- A semicolon ends the clause of a `for` header. -/
  | clause {clauses : Clauses} {position : Nat} {text rest : Bytes} {tokens : List Token}
      {pairs : List BracketPair}
      (hread : Mode.Reads (Kept true) .code text .code (Char.toUInt8 ';' :: rest))
      (hrest : Layout true { split := true } (position + text.length + 1) rest tokens pairs) :
      Layout true clauses position (text ++ Char.toUInt8 ';' :: rest)
        (endClause clauses text.reverse (position + text.length) ++ tokens) pairs
  /-- A semicolon or a line break ends a statement. -/
  | statement {clauses : Clauses} {position : Nat} {text rest : Bytes} {mode : Mode} {c : UInt8}
      {tokens : List Token} {pairs : List BracketPair}
      (hread : Mode.Reads (Kept false) .code text mode (c :: rest)) (hend : EndsStatement mode c)
      (hrest : Layout false clauses (position + text.length + 1) rest tokens pairs) :
      Layout false clauses position (text ++ c :: rest)
        (flush text.reverse (position + text.length) ++ tokens) pairs
  /-- A bracket pair follows the text. -/
  | block {header : Bool} {clauses : Clauses} {position : Nat} {text inside after : Bytes}
      {bracket : Bracket} {children tokens : List Token} {inner pairs : List BracketPair}
      (hread : Mode.Reads (Kept header) .code text .code
        (bracket.opener :: (inside ++ bracket.closer :: after)))
      (hinside : Encloses bracket 0 .code inside)
      (hchildren : Layout (isForHeader (pendingText (bracket.opener :: text.reverse))) {}
        (position + text.length + 1) inside children inner)
      (hrest : Layout header { clauses with filled := true }
        (position + text.length + inside.length + 2) after tokens pairs) :
      Layout header clauses position (text ++ bracket.opener :: (inside ++ bracket.closer :: after))
        (.block (pendingText (bracket.opener :: text.reverse)) children
          (pendingOffset (bracket.opener :: text.reverse) (position + text.length + 1)) :: tokens)
        (.mk bracket (position + text.length)
          (position + text.length + 1 + inside.length) inner :: pairs)

/-- What the scanner returns is laid out in the text that it was given, pending text included. -/
theorem layout_of_tokensFrom {limit level : Nat} {header : Bool} {clauses : Clauses} {mode : Mode}
    {pending : Bytes} {position : Nat} {text : Bytes} {tokens : List Token}
    (h : tokensFrom limit level header clauses mode pending position text = .ok tokens)
    {start : Nat} {front : Bytes} (hpending : pending = front.reverse)
    (hstart : position = start + front.length)
    (hread : Mode.Reads (Kept header) .code front mode text) :
    ∃ pairs, Layout header clauses start (front ++ text) tokens pairs := by
  induction level, header, clauses, mode, pending, position, text using scanInduction
    generalizing tokens start front with
  | finish level header clauses mode pending position =>
    subst hpending hstart
    rw [tokensFrom_nil, Except.ok.injEq] at h
    subst h
    rw [List.append_nil]
    exact ⟨[], .finish hread⟩
  | opener level header clauses pending position bracket text ih =>
    subst hpending hstart
    by_cases hlevel : limit ≤ level
    · rw [tokensFrom_tooDeep hlevel] at h
      contradiction
    cases hsplit : splitAtCloser bracket 0 .code text with
    | none =>
      rw [tokensFrom_unmatched hlevel hsplit] at h
      contradiction
    | some parts =>
      obtain ⟨inside, after⟩ := parts
      rw [tokensFrom_block hlevel hsplit] at h
      obtain ⟨children, hchildren, h⟩ := ok_of_bind h
      obtain ⟨rest, hrest, h⟩ := ok_of_bind h
      cases h
      obtain ⟨inner, hinner⟩ := (ih inside after hsplit).1 hchildren rfl rfl .nil
      obtain ⟨pairs, hpairs⟩ := (ih inside after hsplit).2 hrest rfl rfl .nil
      rw [eq_append_of_splitAtCloser hsplit] at hread ⊢
      exact ⟨_, .block hread (encloses_of_splitAtCloser hsplit) hinner hpairs⟩
  | clause level clauses pending position text ih =>
    subst hpending hstart
    rw [tokensFrom_clause] at h
    obtain ⟨rest, hrest, h⟩ := ok_of_bind h
    cases h
    obtain ⟨pairs, hpairs⟩ := ih hrest rfl rfl .nil
    exact ⟨pairs, .clause hread hpairs⟩
  | statement level clauses mode pending position c text hend ih =>
    subst hpending hstart
    rw [tokensFrom_statement hend] at h
    obtain ⟨rest, hrest, h⟩ := ok_of_bind h
    cases h
    obtain ⟨pairs, hpairs⟩ := ih hrest rfl rfl .nil
    exact ⟨pairs, .statement hread hend hpairs⟩
  | one level header clauses mode next pending position c text hstep hkeep ih =>
    subst hpending hstart
    rw [tokensFrom_one hstep hkeep] at h
    have hpending : c :: front.reverse = (front ++ [c]).reverse := by simp
    have hlength : start + front.length + 1 = start + (front ++ [c]).length := by
      rw [List.length_append, List.length_singleton, Nat.add_assoc]
    obtain ⟨pairs, hlayout⟩ := ih h hpending hlength (hread.trans (.one hstep hkeep .nil))
    exact ⟨pairs, by simpa using hlayout⟩
  | two level header clauses mode next pending position c d text hstep ih =>
    subst hpending hstart
    rw [tokensFrom_two hstep] at h
    have hpending : d :: c :: front.reverse = (front ++ [c, d]).reverse := by simp
    have hlength : start + front.length + 2 = start + (front ++ [c, d]).length := by
      rw [List.length_append, Nat.add_assoc]
      rfl
    obtain ⟨pairs, hlayout⟩ := ih h hpending hlength (hread.trans (.two hstep .nil))
    exact ⟨pairs, by simpa using hlayout⟩

/-- The tokens of a script are laid out in it. -/
theorem layout_of_scan {limit : Nat} {source : Bytes} {tokens : List Token}
    (h : scan limit source = .ok tokens) : ∃ pairs, Layout false {} 0 source tokens pairs :=
  layout_of_tokensFrom h rfl rfl .nil

/-- The signature of a block is the text before its opening bracket, without white space at its
start, and that bracket. -/
theorem signature_spec (bracket : Bracket) (text : Bytes) (position : Nat) :
    ∃ lead body, text = lead ++ body ∧
    pendingText (bracket.opener :: text.reverse) = body ++ [bracket.opener] ∧
    pendingOffset (bracket.opener :: text.reverse) (position + text.length + 1) =
    position + lead.length ∧
    Bytes.IsSpace lead ∧ Bytes.spaceMask (text ++ [bracket.opener]) =
      Bytes.spaceMask lead ++ Bytes.spaceMask (body ++ [bracket.opener]) := by
  obtain ⟨lead, body, rfl, hstart, htrim, hlead, hmask⟩ :=
    Bytes.trim_snoc text bracket.opener_ascii.2
  refine ⟨lead, body, rfl, ?_, ?_, hlead, hmask⟩
  · rw [pendingText, List.reverse_cons, List.reverse_reverse, htrim]
  · rw [pendingOffset, List.reverse_cons, List.reverse_reverse, hstart, List.length_append,
      List.length_append, List.length_singleton]
    omega

/-- The signature of a block tells the kind of its brackets. -/
theorem signatureBracket?_pendingText (bracket : Bracket) (text : Bytes) :
    signatureBracket? (pendingText (bracket.opener :: text.reverse)) = some bracket := by
  obtain ⟨-, body, -, htitle, -⟩ := signature_spec bracket text 0
  have htrim : Bytes.trim (body ++ [bracket.opener]) = body ++ [bracket.opener] := by
    rw [← htitle, pendingText, Bytes.trim_trim]
  rw [htitle, signatureBracket?, htrim]
  simp

/-- A separator in code ends a statement as well as a clause. -/
theorem endsStatement_semicolon : EndsStatement .code ';' := .inl ⟨rfl, rfl⟩

/-- One pass over a text and its separator, with no bracket open, changes nothing. -/
theorem read_separated {header : Bool} {text rest : Bytes} {mode : Mode} {c : UInt8}
    (hread : Mode.Reads (Kept header) .code text mode (c :: rest)) (hend : EndsStatement mode c)
    (found : List BracketPair) (position : Nat) :
    Matcher.read { found } position (Mode.code.classify (text ++ c :: rest)) =
      Matcher.read { found } (position + text.length + 1) (Mode.code.classify rest) := by
  rw [hread.classify_append, Mode.classify_cons_one (hend.step _), Matcher.read_append,
    Matcher.read_text (ofOpener?_of_reads hread), Option.bind_some,
    Mode.length_classify, Matcher.read,
    Matcher.step_text fun _ => hend.ofOpener?_eq_none, Option.bind_some]

/-- One pass over a text that is laid out finds the bracket pairs of its blocks. -/
theorem Layout.read {header : Bool} {clauses : Clauses} {position : Nat} {text : Bytes}
    {tokens : List Token} {pairs : List BracketPair}
    (h : Layout header clauses position text tokens pairs) (found : List BracketPair) :
    Matcher.read { found } position (Mode.code.classify text) =
      some { found := found ++ pairs } := by
  induction h generalizing found with
  | finish hread => rw [Matcher.read_text (ofOpener?_of_reads hread), List.append_nil]
  | clause hread _ ih => rw [read_separated hread endsStatement_semicolon, ih]
  | statement hread hend _ ih => rw [read_separated hread hend, ih]
  | block hread hinside _ _ ihChildren ihRest =>
    rw [hread.classify_append, Matcher.read_append, Matcher.read_text (ofOpener?_of_reads hread),
      Option.bind_some, Mode.length_classify, Matcher.read_block hinside,
      ihChildren, Option.bind_some]
    simp [ihRest]

/-- The brackets of a script that is laid out match, and the pairs are those of its blocks. -/
theorem Layout.matchBrackets {header : Bool} {clauses : Clauses} {source : Bytes}
    {tokens : List Token} {pairs : List BracketPair}
    (h : Layout header clauses 0 source tokens pairs) :
    matchBrackets source = some pairs := by
  rw [TagScript.matchBrackets, h.read []]
  rfl

/-- A way to look at texts that sees the same in a script and in the texts that it is split into. -/
structure Faithful {α : Type} (f : Bytes → List α) : Prop where
  nil : f [] = []
  trim : ∀ text, f (Bytes.trim text) = f text
  separated : ∀ {header : Bool} {text rest : Bytes} {mode : Mode} {c : UInt8},
    Mode.Reads (Kept header) .code text mode (c :: rest) → EndsStatement mode c →
      f (text ++ c :: rest) = f text ++ f rest
  block : ∀ {header : Bool} {text inside after : Bytes} {bracket : Bracket},
    Mode.Reads (Kept header) .code text .code
      (bracket.opener :: (inside ++ bracket.closer :: after)) →
      Encloses bracket 0 .code inside →
        f (text ++ bracket.opener :: (inside ++ bracket.closer :: after)) =
        f (text ++ [bracket.opener]) ++ (f inside ++ (f [bracket.closer] ++ f after))

section Collect

open Token

variable {α : Type} {f : Bytes → List α} (hf : Faithful f)

include hf

/-- The pending text holds what was read. -/
theorem collectAll_flush_append (text : Bytes) (position : Nat) (tokens : List Token) :
    collectAll f (flush text.reverse position ++ tokens) = f text ++ collectAll f tokens := by
  rw [flush, pendingText, List.reverse_reverse, ← hf.trim text]
  split
  next hempty => rw [List.isEmpty_iff.1 hempty, hf.nil, List.nil_append, List.nil_append]
  next => rw [List.singleton_append, collectAll, collect]

/-- The end of a clause holds what was read since its last token. -/
theorem collectAll_endClause_append (clauses : Clauses) (text : Bytes) (position : Nat)
    (tokens : List Token) :
    collectAll f (endClause clauses text.reverse position ++ tokens) = f text ++
      collectAll f tokens := by
  rw [← collectAll_flush_append hf text position tokens, endClause]
  split
  next hnil =>
    rw [hnil]
    split
    · rfl
    · rw [List.singleton_append, collectAll, collect, hf.nil, List.nil_append, List.nil_append]
  next => rfl

/-- The tokens of a text that is laid out hold what the text holds. -/
theorem Layout.collectAll_eq {header : Bool} {clauses : Clauses} {position : Nat} {text : Bytes}
    {tokens : List Token} {pairs : List BracketPair}
    (h : Layout header clauses position text tokens pairs) :
    collectAll f tokens = f text := by
  induction h with
  | finish hread =>
    rw [← List.append_nil (ite ..)]
    split
    · rw [collectAll_endClause_append hf, collectAll, List.append_nil]
    · rw [collectAll_flush_append hf, collectAll, List.append_nil]
  | clause hread _ ih =>
    rw [collectAll_endClause_append hf, ih, hf.separated hread endsStatement_semicolon]
  | statement hread hend _ ih => rw [collectAll_flush_append hf, ih, hf.separated hread hend]
  | @block _ _ _ text _ _ bracket _ _ _ _ hread hinside _ _ ihChildren ihRest =>
    have hsignature : f (pendingText (bracket.opener :: text.reverse)) =
        f (text ++ [bracket.opener]) := by
      rw [pendingText, hf.trim, List.reverse_cons, List.reverse_reverse]
    rw [collectAll, collect, signatureCloser, signatureBracket?_pendingText,
      hsignature, ihChildren, ihRest, hf.block hread hinside]
    simp only [List.append_assoc]

end Collect

end Scan

end TagScript
