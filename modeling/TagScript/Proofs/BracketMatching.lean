import Mathlib.Data.List.Basic
import TagScript.Proofs.Lossless

/-!
# The scanner agrees with one pass of bracket matching

With a limit that the nesting of a script cannot reach, the scan of a script succeeds exactly when
its brackets match in one pass, and the blocks of the tree are then the pairs of that pass, with
the same nesting.

A tree does not record where its blocks are closed. Its pairs are read off by searching for the
closer behind each opening bracket, as the scanner does.
-/

namespace TagScript

mutual

/-- The bracket pair of a block, with those of the blocks inside it; a leaf has none. -/
def Token.bracketPairs? (source : Bytes) : Token → Option (List BracketPair)
  | .leaf .. => some []
  | .block signature children offset => do
    let opens := Token.opens (.block signature children offset)
    let bracket ← signatureBracket? signature
    let (inside, _) ← Scan.splitAtCloser bracket 0 .code (source.drop (opens + 1))
    let inner ← Token.bracketPairsAll? source children
    return [.mk bracket opens (opens + 1 + inside.length) inner]

/-- The bracket pairs of the blocks of a sequence. -/
def Token.bracketPairsAll? (source : Bytes) : List Token → Option (List BracketPair)
  | [] => some []
  | t :: ts => do
    let first ← Token.bracketPairs? source t
    let rest ← Token.bracketPairsAll? source ts
    return first ++ rest

end

namespace Scan

open Token

variable {source text : Bytes} {position : Nat}

/-- The pending text adds no bracket pairs. -/
theorem bracketPairsAll?_flush_append (pending : Bytes) (tokens : List Token) :
    bracketPairsAll? source (flush pending position ++ tokens) =
      bracketPairsAll? source tokens := by
  unfold flush
  dsimp only
  split
  · rfl
  · cases h : bracketPairsAll? source tokens <;> simp [bracketPairsAll?, bracketPairs?, h]

/-- The end of a clause adds no bracket pairs. -/
theorem bracketPairsAll?_endClause_append (clauses : Clauses) (pending : Bytes)
    (tokens : List Token) : bracketPairsAll? source (endClause clauses pending position ++ tokens) =
      bracketPairsAll? source tokens := by
  unfold endClause
  split
  · split
    · rfl
    · cases h : bracketPairsAll? source tokens <;> simp [bracketPairsAll?, bracketPairs?, h]
  · exact bracketPairsAll?_flush_append pending tokens

/-- A block whose closer is found makes one pair. -/
theorem bracketPairsAll?_block {bracket : Bracket} {inside after : Bytes}
    {children tokens : List Token} {inner pairs : List BracketPair}
      (hsplit : splitAtCloser bracket 0 .code
      (source.drop (position + text.length + 1)) = some (inside, after))
    (hinner : bracketPairsAll? source children = some inner)
    (hpairs : bracketPairsAll? source tokens = some pairs) :
    bracketPairsAll? source (.block (pendingText (bracket.opener :: text.reverse)) children
        (pendingOffset (bracket.opener :: text.reverse) (position + text.length + 1)) :: tokens) =
      some (.mk bracket (position + text.length) (position + text.length + 1 + inside.length)
        inner :: pairs) := by
  rw [bracketPairsAll?, bracketPairs?, opens_block, signatureBracket?_pendingText]
  simp [hsplit, hinner, hpairs]

/-- What follows a byte stands one position further on. -/
theorem prefix_drop_behind {front back : Bytes} {c : UInt8}
    (h : front ++ c :: back <+: source.drop position) :
    back <+: source.drop (position + front.length + 1) := by
  rw [← List.singleton_append] at h
  exact (prefix_drop_append (prefix_drop_append h).2).2

/-- The bracket pairs of a tree are those of the layout of its tokens. -/
theorem Layout.bracketPairsAll?_eq {header : Bool} {clauses : Clauses} {tokens : List Token}
    {pairs : List BracketPair} (h : Layout header clauses position text tokens pairs)
    (hsource : text <+: source.drop position) : bracketPairsAll? source tokens = some pairs := by
  induction h with
  | finish hread =>
    rw [← List.append_nil (ite ..)]
    split
    · exact bracketPairsAll?_endClause_append _ _ []
    · exact bracketPairsAll?_flush_append _ []
  | clause hread _ ih =>
    rw [bracketPairsAll?_endClause_append]
    exact ih (prefix_drop_behind hsource)
  | statement hread hend _ ih =>
    rw [bracketPairsAll?_flush_append]
    exact ih (prefix_drop_behind hsource)
  | @block _ _ position text inside after bracket _ _ _ _ hread hinside _ _ ihChildren ihRest =>
    have hbehind := prefix_drop_behind hsource
    have hsplit : ∃ rest, splitAtCloser bracket 0 .code (source.drop (position + text.length + 1)) =
        some (inside, rest) := by
      obtain ⟨more, hmore⟩ := hbehind
      rw [← hmore, List.append_assoc, List.cons_append]
      exact ⟨after ++ more, hinside.splitAtCloser_append _⟩
    obtain ⟨rest, hsplit⟩ := hsplit
    refine bracketPairsAll?_block hsplit (ihChildren (prefix_drop_append hbehind).1) (ihRest ?_)
    have hafter := prefix_drop_behind hbehind
    rwa [Nat.add_right_comm _ 1] at hafter

/-- A scan succeeds on a text whose brackets match, if the limit leaves room for all of its
brackets. -/
theorem tokensFrom_of_read {limit level : Nat} {header : Bool} {clauses : Clauses} {mode : Mode}
    {pending : Bytes} (hlimit : level + text.length ≤ limit)
    {found : List BracketPair} {start : Nat}
    {m : Matcher} (hread : Matcher.read { found } start (mode.classify text) = some m)
    (hm : m.stack = []) :
    ∃ tokens, tokensFrom limit level header clauses mode pending position text = .ok tokens := by
  induction level, header, clauses, mode, pending, position, text using scanInduction
    generalizing found start m with
  | finish => exact ⟨_, tokensFrom_nil⟩
  | opener level header clauses pending position bracket text ih =>
    rw [List.length_cons] at hlimit
    have hlevel : ¬ limit ≤ level := by omega
    cases hsplit : splitAtCloser bracket 0 .code text with
    | none => exact absurd hm (Matcher.read_unclosed hsplit found start hread)
    | some parts =>
      obtain ⟨inside, after⟩ := parts
      -- the machine reads what the brackets enclose as if it started there, so both parts match by
      -- themselves
      have hlength := length_lt_of_splitAtCloser hsplit
      rw [eq_append_of_splitAtCloser hsplit, Matcher.read_block (encloses_of_splitAtCloser hsplit)]
        at hread
      obtain ⟨inner, hinner, hread⟩ := Option.bind_eq_some_iff.1 hread
      split at hread
      next hempty =>
        obtain ⟨children, hchildren⟩ :=
          (ih inside after hsplit).1 (by omega) hinner (by simpa using hempty)
        obtain ⟨rest, hrest⟩ := (ih inside after hsplit).2 (by omega) hread hm
        rw [tokensFrom_block hlevel hsplit, hchildren, hrest]
        exact ⟨_, rfl⟩
      next => exact nomatch hread
  | clause level clauses pending position text ih =>
    rw [Mode.classify_cons_one (endsStatement_semicolon.step _), Matcher.read,
      Matcher.step_text fun _ => endsStatement_semicolon.ofOpener?_eq_none, Option.bind_some]
      at hread
    obtain ⟨rest, hrest⟩ := ih (by rw [List.length_cons] at hlimit; omega) hread hm
    rw [tokensFrom_clause, hrest]
    exact ⟨_, rfl⟩
  | statement level clauses mode pending position c text hend ih =>
    rw [Mode.classify_cons_one (hend.step _), Matcher.read,
      Matcher.step_text fun _ => hend.ofOpener?_eq_none, Option.bind_some] at hread
    obtain ⟨rest, hrest⟩ := ih (by rw [List.length_cons] at hlimit; omega) hread hm
    rw [tokensFrom_statement hend, hrest]
    exact ⟨_, rfl⟩
  | one level header clauses mode next pending position c text hstep hkeep ih =>
    rw [Mode.classify_cons_one hstep, Matcher.read, Matcher.step_text hkeep.ofOpener?_eq_none,
      Option.bind_some] at hread
    rw [tokensFrom_one hstep hkeep]
    exact ih (by rw [List.length_cons] at hlimit; omega) hread hm
  | two level header clauses mode next pending position c d text hstep ih =>
    have hskip : ∀ e position, Matcher.step { found } position (e, mode.stepClass next) =
        some { found } :=
      fun e position => Matcher.step_of_ne_code _ _ (Mode.stepClass_two hstep)
    rw [Mode.classify_cons_two hstep, Matcher.read, hskip, Option.bind_some, Matcher.read, hskip,
      Option.bind_some] at hread
    rw [tokensFrom_two hstep]
    exact ih (by rw [List.length_cons, List.length_cons] at hlimit; omega) hread hm

/-- A limit of the length of the script is never reached: the scan succeeds exactly when the
brackets match in one pass, and the blocks of the tree are the pairs of that pass. -/
theorem scan_iff_matchBrackets {limit : Nat} {source : Bytes} (hlimit : source.length ≤ limit) :
    ((∃ tokens, scan limit source = .ok tokens) ↔ (matchBrackets source).isSome = true) ∧
      ∀ tokens, scan limit source = .ok tokens → bracketPairsAll? source tokens =
        matchBrackets source := by
  refine ⟨⟨?_, fun h => ?_⟩, fun tokens h => ?_⟩
  · rintro ⟨tokens, h⟩
    obtain ⟨pairs, hlayout⟩ := layout_of_scan h
    rw [hlayout.matchBrackets, Option.isSome_some]
  · obtain ⟨pairs, hpairs⟩ := Option.isSome_iff_exists.1 h
    obtain ⟨m, hread, hm⟩ := Option.bind_eq_some_iff.1 hpairs
    refine tokensFrom_of_read (by omega) hread ?_
    split at hm
    next hempty => simpa using hempty
    next => exact nomatch hm
  · obtain ⟨pairs, hlayout⟩ := layout_of_scan h
    rw [hlayout.matchBrackets]
    exact hlayout.bracketPairsAll?_eq List.prefix_rfl

/-- A block with a bracket in a string, a stray closer and a call in it. -/
theorem scan_iff_matchBrackets_block :
    (utf8 "\x7bf('\x7b'))\x7d").length ≤ 9 ∧
    matchBrackets "\x7bf('\x7b'))\x7d" = some [.mk .curly 0 8 [.mk .round 2 6 []]] ∧
    ((∃ tokens, scan 9 "\x7bf('\x7b'))\x7d" = .ok tokens) ↔
      (matchBrackets "\x7bf('\x7b'))\x7d").isSome = true) ∧
    ∀ tokens, scan 9 "\x7bf('\x7b'))\x7d" = .ok tokens →
      bracketPairsAll? "\x7bf('\x7b'))\x7d" tokens = matchBrackets "\x7bf('\x7b'))\x7d" := by
  have hlength : (utf8 "\x7bf('\x7b'))\x7d").length ≤ 9 := by decide +kernel
  have hmatch : matchBrackets "\x7bf('\x7b'))\x7d" = some [.mk .curly 0 8 [.mk .round 2 6 []]] := by
    cbv
  exact ⟨hlength, hmatch, scan_iff_matchBrackets hlength⟩

end Scan

end TagScript
