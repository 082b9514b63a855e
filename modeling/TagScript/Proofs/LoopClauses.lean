import Mathlib.Data.Finset.Card
import Mathlib.Data.Finset.Range
import TagScript.Proofs.BracketMatching
import TagScript.Proofs.Rereading

/-!
# The clauses of loop headers

A `for` header has as many clauses as it has semicolons outside strings, comments and nested
brackets, and one more. The tree does not record where they end: a call followed by more text is
two tokens of one clause. Rendering writes a semicolon in front of every entry but the first, so a
clause keeps its extent when it makes one entry.

Semicolons are counted in one pass that matches brackets. On what is written the pass is followed
from token to token, and in the script along the layout of the header.
-/

namespace TagScript

namespace Matcher

/-- How many semicolons of code are met while no bracket is open. -/
def semicolons (m : Matcher) (position : Nat) : List (UInt8 × ByteClass) → Nat
  | [] => 0
  | e :: rest => (if m.stack.isEmpty ∧ e = (Char.toUInt8 ';', .code) then 1 else 0) +
      (m.step position e).elim 0 fun m => m.semicolons (position + 1) rest

end Matcher

/-- The semicolons of a text outside strings, comments and brackets. -/
def outerSemicolons (text : Bytes) : Nat := Matcher.semicolons {} 0 (Mode.code.classify text)

namespace Matcher

variable {m : Matcher} {bottom : OpenBracket} {position : Nat} {found : List BracketPair}

/-- The kinds of the open brackets, innermost first. -/
def kinds (m : Matcher) : List Bracket := m.stack.map OpenBracket.bracket

/-- A closer is met in the same way wherever the brackets were opened. -/
theorem kinds_close {m m' : Matcher} (h : m.kinds = m'.kinds) (b : Bracket)
    (position position' : Nat) :
    (m.close b position).map kinds = (m'.close b position').map kinds := by
  obtain ⟨stack, found⟩ := m
  obtain ⟨stack', found'⟩ := m'
  cases stack with
  | nil =>
    obtain rfl : stack' = [] := by simpa [kinds] using h.symm
    rfl
  | cons top below =>
    cases stack' with
    | nil => simp [kinds] at h
    | cons top' below' =>
      have hcons : top.bracket = top'.bracket ∧ below.map OpenBracket.bracket =
          below'.map OpenBracket.bracket := by
        simpa [kinds] using h
      have hany : below.any (·.bracket = b) = below'.any (·.bracket = b) := by
        have hmap := congrArg (List.any · (decide <| · = b)) hcons.2
        simpa [List.any_map, Function.comp_def] using hmap
      simp only [close, hcons.1, hany]
      split
      · simpa [kinds] using hcons.2
      · split
        · rfl
        · simpa [kinds] using hcons

/-- A byte is read in the same way wherever the brackets were opened. -/
theorem kinds_step {m m' : Matcher} (h : m.kinds = m'.kinds) (e : UInt8 × ByteClass)
    (position position' : Nat) :
    (m.step position e).map kinds = (m'.step position' e).map kinds := by
  obtain ⟨c, k⟩ := e
  cases k with
  | code =>
    simp only [step]
    split
    · simpa [push, kinds] using h
    · split
      · exact kinds_close h _ position position'
      · simpa using h
  | string => simpa [step] using h
  | comment => simpa [step] using h

/-- Only the kinds of the open brackets count. -/
theorem semicolons_congr {m m' : Matcher} (h : m.kinds = m'.kinds) (position position' : Nat)
    (entries : List (UInt8 × ByteClass)) :
    m.semicolons position entries = m'.semicolons position' entries := by
  induction entries generalizing m m' position position' with
  | nil => rfl
  | cons e entries ih =>
    have hempty : m.stack.isEmpty = m'.stack.isEmpty := by
      have hlength := congrArg List.isEmpty h
      simpa [kinds] using hlength
    have hstep := kinds_step h e position position'
    rw [semicolons, semicolons, hempty]
    congr 1
    cases hm : m.step position e with
    | none =>
      cases hm' : m'.step position' e with
      | none => rfl
      | some after' => simp [hm, hm'] at hstep
    | some after =>
      cases hm' : m'.step position' e with
      | none => simp [hm, hm'] at hstep
      | some after' => exact ih (by simpa [hm, hm'] using hstep) (position + 1) (position' + 1)

/-- Counting in two goes. -/
theorem semicolons_append (m : Matcher) (position : Nat) (first second : List (UInt8 × ByteClass)) :
    m.semicolons position (first ++ second) = m.semicolons position first +
      (m.read position first).elim 0 fun m => m.semicolons (position + first.length) second := by
  induction first generalizing m position with
  | nil => simp [semicolons, read]
  | cons e first ih =>
    rw [List.cons_append, semicolons, semicolons, read, Nat.add_assoc]
    cases m.step position e with
    | none => rfl
    | some m =>
      have hlength : position + 1 + first.length = position + (e :: first).length := by
        rw [List.length_cons]
        omega
      simp only [Option.elim_some, Option.bind_some, ih, hlength]

/-- Nothing counts above an open bracket. -/
theorem semicolons_above {entries : List (UInt8 × ByteClass)}
    (h : bottom.bracket.balanced (m.openCount bottom.bracket) entries = true) :
    (m.above bottom).semicolons position entries = 0 := by
  induction entries generalizing m position with
  | nil => rfl
  | cons e entries ih =>
    obtain ⟨c, k⟩ := e
    have hstack : (m.above bottom).stack.isEmpty = false := by simp [above]
    have hshield : (c, k) = (bottom.bracket.closer, .code) → 0 < m.openCount bottom.bracket := by
      rintro heq
      rw [heq, Bracket.balanced_closer] at h
      simpa using (Bool.and_eq_true_iff.1 h).1
    have hlevel : ∀ after, m.step position (c, k) = some after →
        bottom.bracket.balanced (after.openCount bottom.bracket) entries = true := by
      intro after hstep
      rw [openCount_step hstep]
      simp only [Bracket.balanced, Prod.mk.injEq, and_comm] at h
      split
      next hopen => rwa [if_pos hopen] at h
      next hopen =>
        rw [if_neg hopen] at h
        split
        next hclose =>
          rw [if_pos hclose] at h
          exact (Bool.and_eq_true_iff.1 h).2
        next hclose => rwa [if_neg hclose] at h
    rw [semicolons, hstack, if_neg (by simp), Nat.zero_add,
      step_above fun hk hc => (hshield (by rw [hk, hc])).ne']
    cases hstep : m.step position (c, k) with
    | none => rfl
    | some after => exact ih (hlevel after hstep)

/-- Text without opening brackets and semicolons in code does not count. -/
theorem semicolons_text {entries : List (UInt8 × ByteClass)}
    (h : ∀ e ∈ entries, e.2 = .code → Bracket.ofOpener? e.1 = none ∧ e.1 ≠ ';')
    (rest : List (UInt8 × ByteClass)) : Matcher.semicolons { found } position (entries ++ rest) =
      Matcher.semicolons { found } (position + entries.length) rest := by
  have hzero : ∀ position, Matcher.semicolons { found } position entries = 0 := by
    induction entries with
    | nil => exact fun _ => rfl
    | cons e entries ih =>
      intro position
      have hfirst := h e (List.mem_cons_self ..)
      have hne : ¬ e = (Char.toUInt8 ';', .code) := by
        rintro rfl
        exact (hfirst rfl).2 rfl
      rw [semicolons, if_neg fun hboth => hne hboth.2,
        step_text fun hcode => (hfirst hcode).1, Nat.zero_add]
      exact ih (fun d hd => h d (List.mem_cons_of_mem _ hd)) (position + 1)
  rw [semicolons_append, hzero, read_text fun e he hcode => (h e he hcode).1]
  simp

/-- A bracket pair does not count, whatever is between the brackets. -/
theorem semicolons_block {b : Bracket} {inside after : Bytes} (h : Scan.Encloses b 0 .code inside)
    {inner : List BracketPair} (found : List BracketPair) (position : Nat)
    (hinner : Matcher.read {} (position + 1) (Mode.code.classify inside) =
      some { found := inner }) :
    Matcher.semicolons { found } position
      (Mode.code.classify (b.opener :: (inside ++ b.closer :: after))) =
      Matcher.semicolons { found := found ++ [.mk b position (position + 1 + inside.length) inner] }
        (position + 1 + inside.length + 1) (Mode.code.classify after) := by
  have hpush : (Matcher.push { found } b position) = Matcher.above {} ⟨b, position, found⟩ := rfl
  have hopener : (b.opener, ByteClass.code) ≠ (Char.toUInt8 ';', .code) := by cases b <;> decide
  have hbelow : Matcher.semicolons (Matcher.above {} ⟨b, position, found⟩) (position + 1)
      (Mode.code.classify inside) = 0 := semicolons_above h.balanced
  have hclose : (Matcher.above { found := inner } ⟨b, position, found⟩).close b
      (position + 1 + inside.length) = _ :=
    close_above_of_openCount rfl
  rw [Mode.classify_cons_plain b.opener_plain.1 b.opener_plain.2, semicolons,
    if_neg fun hboth => hopener hboth.2, step_opener, Option.elim_some, hpush,
    (h.reads after).classify_append, semicolons_append, hbelow,
    read_above h.splitAtCloser_inside rfl rfl, hinner,
    Mode.classify_cons_plain b.closer_plain.1 b.closer_plain.2]
  simp only [Option.map_some, Option.elim_some, semicolons, step_closer,
    Mode.length_classify, hclose]
  simp [above]

end Matcher

namespace Token

variable {header cut : Bool} {ts : List Token}

/-- How many entries tokens start. A leaf that starts with an arrow continues the entry before
it. -/
def started (before : Bool) : List Token → Nat
  | [] => 0
  | t :: ts =>
    (if !t.isBlock && (t.head.startsWith arrow && before) then 0 else 1) + started true ts

/-- Without leaves that start with an arrow every token starts an entry. -/
theorem started_eq_length (h : ∀ t ∈ ts, t.isBlock = false → t.head.startsWith arrow = false)
    (before : Bool) :
    started before ts = ts.length := by
  induction ts generalizing before with
  | nil => rfl
  | cons t ts ih =>
    have hfirst := h t (List.mem_cons_self ..)
    have hstarts : (!t.isBlock && (t.head.startsWith arrow && before)) = false := by
      cases hblock : t.isBlock with
      | true => rfl
      | false => rw [hfirst hblock, Bool.false_and, Bool.and_false]
    rw [started, hstarts, if_neg Bool.false_ne_true,
      ih (fun u hu => h u (List.mem_cons_of_mem _ hu)), List.length_cons, Nat.add_comm]

/-- An entry that is continued is not a new one. -/
theorem length_extendNewest (text : Bytes) (before : List Bytes) :
    (extendNewest text before).length = before.length := by
  cases before <;> rfl

/-- The entries after a leaf. -/
theorem length_entries_leaf {text : Bytes} (offset : Nat) (htrim : text.trim = text)
    (hempty : text = [] → header = true) (before : List Bytes) :
    (entries header before (.leaf text offset)).length =
      before.length + if text.startsWith arrow && !before.isEmpty then 0 else 1 := by
  rw [entries_leaf htrim hempty]
  split
  · rw [length_extendNewest, Nat.add_zero]
  · rw [List.length_cons]

/-- The entries after a block. -/
theorem length_entries_block {signature : Bytes} (children : List Token) (offset : Nat)
    (htrim : signature.trim = signature) (before : List Bytes) :
    (entries header before (.block signature children offset)).length = before.length + 1 := by
  rw [entries_block htrim]
  split
  · rw [List.length_cons, length_extendNewest]
  · rw [List.length_cons]

/-- The entries that readable tokens are written as, with those before them. -/
theorem Readable.length_entriesAll (h : Readable header cut ts) (before : List Bytes) :
    (entriesAll header before ts).length = before.length + started (!before.isEmpty) ts := by
  induction h generalizing before with
  | nil => rfl
  | @last header text offset htrim hne =>
    rw [entriesAll, entriesAll, length_entries_leaf offset htrim fun hnil => absurd hnil hne,
      started, started]
    rfl
  | @leaf header cut text offset ts htrim hempty hrun _ ih =>
    have hne : (entries header before (.leaf text offset)).isEmpty = false :=
      (joined_entries_leaf htrim hempty before).2
    rw [entriesAll, ih, hne, length_entries_leaf offset htrim hempty, started, Nat.add_assoc]
    rfl
  | @block header cut bracket body offset children ts htrim hrun _ _ _ ihRest =>
    have hlength : (entries header before _).length = _ :=
      length_entries_block children offset htrim before
    have hne : (entries header before (.block (body ++ [bracket.opener]) children offset)).isEmpty =
        false := by
      rw [List.isEmpty_eq_false_iff, ← List.length_pos_iff, hlength]
      omega
    rw [entriesAll, ihRest, hne, hlength, started, Nat.add_assoc]
    rfl

end Token

namespace Scan

open Token

variable {text rest after inside : Bytes} {mode : Mode} {ts : List Token} {offset : Nat}

/-- The pass may start anywhere. -/
theorem semicolons_classify (found : List BracketPair) (position : Nat) (text : Bytes) :
    Matcher.semicolons { found } position (Mode.code.classify text) = outerSemicolons text := by
  have hkinds : Matcher.kinds { found } = Matcher.kinds {} := rfl
  exact Matcher.semicolons_congr hkinds position 0 _

/-- The text of a clause holds neither opening brackets nor semicolons in code. -/
theorem ne_semicolon_of_reads (h : Mode.Reads (Kept true) .code text mode rest) :
    ∀ e ∈ Mode.code.classify text, e.2 = .code → Bracket.ofOpener? e.1 = none ∧ e.1 ≠ ';' := by
  have hkept : ∀ c, Kept true .code c .code → Bracket.ofOpener? c = none ∧ c ≠ ';' := by
    intro c hkeep
    refine ⟨hkeep.ofOpener?_eq_none rfl, ?_⟩
    rintro rfl
    exact Bool.noConfusion hkeep
  exact forall_code_of_reads h hkept

/-- The text of a clause in front of other text does not count. -/
theorem outerSemicolons_append (h : Mode.Reads (Kept true) .code text .code rest) :
    outerSemicolons (text ++ rest) = outerSemicolons rest := by
  rw [outerSemicolons, h.classify_append, Matcher.semicolons_text (ne_semicolon_of_reads h),
    semicolons_classify]

/-- The text of a clause does not count, wherever it ends. -/
theorem outerSemicolons_reads (h : Mode.Reads (Kept true) .code text mode rest) :
    outerSemicolons text = 0 := by
  rw [outerSemicolons, ← List.append_nil (Mode.code.classify text),
    Matcher.semicolons_text (ne_semicolon_of_reads h)]
  rfl

/-- A semicolon counts. -/
theorem outerSemicolons_semicolon (rest : Bytes) :
    outerSemicolons (Char.toUInt8 ';' :: rest) = outerSemicolons rest + 1 := by
  rw [outerSemicolons, Mode.classify_cons_plain (by decide) (by decide),
    Matcher.semicolons, if_pos ⟨rfl, rfl⟩, Matcher.step_text fun _ => by decide, Option.elim_some,
    semicolons_classify, Nat.add_comm]

/-- A blank does not count. -/
theorem outerSemicolons_blank (rest : Bytes) :
    outerSemicolons (Char.toUInt8 ' ' :: rest) = outerSemicolons rest := by
  have hread : Mode.Reads (Kept true) .code [Char.toUInt8 ' '] .code rest := .one rfl rfl .nil
  exact outerSemicolons_append hread

/-- The text of a clause and a bracket pair behind it do not count, if what is between the brackets
is laid out. -/
theorem outerSemicolons_block {bracket : Bracket} {header : Bool} {position : Nat}
    {children : List Token} {inner : List BracketPair}
    (hread : Mode.Reads (Kept true) .code text .code []) (hinside : Encloses bracket 0 .code inside)
    (hchildren : Layout header {} (position + 1) inside children inner) (after : Bytes) :
    outerSemicolons (text ++ bracket.opener :: (inside ++ bracket.closer :: after)) =
      outerSemicolons after := by
  have hopener : Mode.IsSeparator bracket.opener := by cases bracket <;> decide
  rw [outerSemicolons_append (hread.extend (by simp) (by simp) (by simpa using hopener)),
    ← semicolons_classify [] position, Matcher.semicolons_block hinside [] position
    (hchildren.read []),
    semicolons_classify]

/-- The text of a clause and the semicolon behind it count as one. -/
theorem outerSemicolons_clause (hread : Mode.Reads (Kept true) .code text .code []) (rest : Bytes) :
    outerSemicolons (text ++ Char.toUInt8 ';' :: rest) = outerSemicolons rest + 1 := by
  have hsemicolon : Mode.IsSeparator ';' := by decide
  rw [outerSemicolons_append (hread.extend (by simp) (by simp) (by simpa using hsemicolon)),
    outerSemicolons_semicolon]

/-- What is written behind a token of a header starts with a separator. -/
theorem setOutAll_line (ts : List Token) : ∃ c rest, Mode.IsSeparator c ∧
    setOutAll true true ts ++ [Char.toUInt8 '\n'] = c :: rest := by
  cases ts with
  | nil => exact ⟨_, _, by decide, rfl⟩
  | cons t ts =>
    have hfirst : ∃ c rest, Mode.IsSeparator c ∧ setOut true true t = c :: rest := by
      cases t with
      | leaf text offset =>
        rw [setOut]
        split
        · exact ⟨_, _, by decide, rfl⟩
        · exact ⟨_, _, by decide, rfl⟩
      | block signature children offset =>
        rw [setOut_block]
        split
        · exact ⟨_, _, by decide, rfl⟩
        · exact ⟨_, _, by decide, rfl⟩
    obtain ⟨c, rest, hc, heq⟩ := hfirst
    exact ⟨c, _, hc, by rw [setOutAll, heq]; rfl⟩

/-- The text of a leaf does not count, also if it ends in a comment behind which nothing is
swallowed. -/
theorem outerSemicolons_leaf (hread : Mode.Reads (Kept true) .code text mode [])
    (hmode : mode.LineBound)
    (hkept : swallowsAll true (endsInComment (.leaf text offset)) ts = false) :
    swallowsAll true false ts = false ∧
      outerSemicolons (text ++ (setOutAll true true ts ++ [Char.toUInt8 '\n'])) =
      outerSemicolons (setOutAll true true ts ++ [Char.toUInt8 '\n']) := by
  obtain rfl := hread.run_eq
  obtain ⟨c, rest, hc, heq⟩ := setOutAll_line ts
  rcases hmode with hcode | hcomment
  · have hends : endsInComment (.leaf text offset) = false := by simp [endsInComment, hcode]
    rw [hends] at hkept
    rw [hcode] at hread
    refine ⟨hkept, outerSemicolons_append (hread.extend (by simp) (by simp) ?_)⟩
    rw [heq]
    simpa using hc
  · have hends : endsInComment (.leaf text offset) = true := by simp [endsInComment, hcomment]
    rw [hends] at hkept
    cases ts with
    | cons t ts => simp [swallowsAll] at hkept
    | nil =>
      have hline : Mode.Reads (Kept true) .lineComment [Char.toUInt8 '\n'] .code [] :=
        .one rfl rfl .nil
      have hseparator : Mode.IsSeparator '\n' := by decide
      rw [hcomment] at hread
      have hall := (hread.extend (by simp) (by simp) (by simpa using hseparator)).trans hline
      refine ⟨rfl, ?_⟩
      rw [setOutAll, List.nil_append, outerSemicolons_reads hall]
      rfl

/-- The semicolons of a block that is written under its title are those behind it. -/
theorem outerSemicolons_titled {bracket : Bracket} {body : Bytes} {children : List Token}
    (continues : Bool) (htrim : Bytes.trim (body ++ [bracket.opener]) = body ++ [bracket.opener])
    (hread : Mode.Reads (Kept true) .code body .code [])
    (hbalanced : bracket.balanced 0 (collectAll Mode.code.marks children) = true)
    (hclauses : ∀ position, children ≠ [.leaf [] position])
    (hchildren : Scannable (isForHeader (body ++ [bracket.opener])) false children)
    (hkept : swallowsAll (isForHeader (body ++ [bracket.opener])) false children = false)
    (hcontinues : continues = true → Bytes.startsWith (body ++ [bracket.opener]) arrow = true)
    (rest : Bytes) :
    outerSemicolons (title continues (body ++ [bracket.opener]) ++
      (setOutContent (isForHeader (title continues (body ++ [bracket.opener]))) children ++
        signatureCloser (body ++ [bracket.opener])) ++ rest) = outerSemicolons rest := by
  obtain ⟨inner, htitle, -, hinner⟩ := title_append htrim hread hcontinues
  rw [← isForHeader_title htrim hread.run_eq hcontinues, htitle] at hchildren hkept
  have hinside := encloses_setOutContent hchildren hkept hbalanced
  have hstarts : Starts _ false children := (relays_starts hchildren).2
  obtain ⟨placed, pairs, hlayout, -⟩ := hstarts.content hkept hclauses (0 + 1)
  have hsplit : ∀ content : Bytes, inner ++ [bracket.opener] ++
      (content ++ [bracket.closer]) ++ rest =
      inner ++ bracket.opener :: (content ++ bracket.closer :: rest) := by simp
  rw [htitle, signatureCloser_of_trim htrim, hsplit, outerSemicolons_block hinner hinside hlayout]

/-- The semicolons that are written behind a token of a header: one for each entry. -/
theorem outerSemicolons_behind {header cut : Bool} (h : Scannable header cut ts)
    (hheader : header = true) (hcut : cut = false) (hkept : swallowsAll true false ts = false) :
    outerSemicolons (setOutAll true true ts ++ [Char.toUInt8 '\n']) = started true ts := by
  induction h with
  | nil => rfl
  | last => exact Bool.noConfusion hcut
  | @leaf header cut text offset mode ts htrim hempty hread hmode _ ih =>
    subst hheader
    rw [swallowsAll, swallows, Bool.false_and, Bool.false_or, Bool.false_or] at hkept
    obtain ⟨hkept, htext⟩ := outerSemicolons_leaf hread hmode hkept
    rw [ih rfl hcut hkept] at htext
    rw [setOutAll, setOut, started, head, isBlock, List.append_assoc]
    cases harrow : text.startsWith arrow with
    | true => simpa [outerSemicolons_blank] using htext
    | false => simpa [gap, separator, outerSemicolons_semicolon, Nat.add_comm] using htext
  | @block header cut bracket body offset children ts htrim hread hbalanced
      hclauses hchildren _ _ ih =>
    subst hheader
    rw [swallowsAll, swallows, Bool.false_and, Bool.false_or, Bool.or_eq_false_iff] at hkept
    have hbehind := ih rfl hcut hkept.2
    rw [setOutAll, setOut_block, started, head, isBlock, Bool.not_true, Bool.false_and,
      if_neg Bool.false_ne_true]
    cases harrow : Bytes.startsWith (body ++ [bracket.opener]) arrow with
    | true =>
      have htitled :=
        outerSemicolons_titled true htrim hread hbalanced hclauses hchildren hkept.1
        (fun _ => harrow)
        (setOutAll true true ts ++ [Char.toUInt8 '\n'])
      rw [hbehind] at htitled
      simpa [gap, separator, outerSemicolons_blank, outerSemicolons_append (reads_arrow true _),
        outerSemicolons_semicolon, Nat.add_comm] using htitled
    | false =>
      have htitled :=
        outerSemicolons_titled false htrim hread hbalanced hclauses hchildren
        hkept.1 Bool.noConfusion
        (setOutAll true true ts ++ [Char.toUInt8 '\n'])
      rw [hbehind] at htitled
      simpa [gap, separator, outerSemicolons_semicolon, Nat.add_comm] using htitled

/-- The semicolons that are written between the brackets of a header: one less than its entries. -/
theorem outerSemicolons_content (h : Scannable true false ts)
    (hkept : swallowsAll true false ts = false) :
    outerSemicolons (setOutContent true ts) = (entriesAll true [] ts).length - 1 := by
  have hline : Mode.Reads (Kept true) .code [Char.toUInt8 '\n'] .code
      (setOutAll true false ts ++ [Char.toUInt8 '\n']) := .one rfl rfl .nil
  rw [h.readable.length_entriesAll, setOutContent, ← List.singleton_append,
    outerSemicolons_append hline]
  generalize hheader : true = header, hcut : false = cut at h
  cases h with
  | nil => rfl
  | last => exact Bool.noConfusion hcut
  | @leaf _ _ text offset mode ts htrim hempty hread hmode hrest =>
    subst hheader hcut
    rw [swallowsAll, swallows, Bool.false_and, Bool.false_or, Bool.false_or] at hkept
    obtain ⟨hkept, htext⟩ := outerSemicolons_leaf hread hmode hkept
    rw [outerSemicolons_behind hrest rfl rfl hkept] at htext
    simpa [setOutAll, setOut, started, gap] using htext
  | @block _ _ bracket body offset children ts htrim hread hbalanced hclauses hchildren hrest =>
    subst hheader hcut
    rw [swallowsAll, swallows, Bool.false_and, Bool.false_or, Bool.or_eq_false_iff] at hkept
    have htitled :=
      outerSemicolons_titled false htrim hread hbalanced hclauses hchildren hkept.1 Bool.noConfusion
      (setOutAll true true ts ++ [Char.toUInt8 '\n'])
    rw [outerSemicolons_behind hrest rfl rfl hkept.2] at htitled
    simpa [setOutAll, setOut_block, started, gap] using htitled

/-- White space does not count. -/
theorem outerSemicolons_space (h : ∀ c ∈ text, Bytes.IsSpaceByte c) : outerSemicolons text = 0 := by
  have hread : Mode.Reads (Kept true) .code text .code [] := by
    refine reads_plain fun c hc => ⟨(h c hc).plain.1, (h c hc).plain.2.1, ?_⟩
    have hopener : Bracket.ofOpener? c = none := by
      refine Option.eq_none_iff_forall_ne_some.2 fun b hb => b.opener_ascii.2 ?_
      exact Bracket.opener_of_ofOpener? hb ▸ h c hc
    have hsemicolon : c ≠ ';' := by
      rintro rfl
      exact absurd (h _ hc) (by unfold Bytes.IsSpaceByte; decide)
    simp [Kept, ends, hopener, hsemicolon]
  exact outerSemicolons_reads hread

/-- The clause of a header that a token stands in: the semicolons in front of it are counted. `text`
is what stands between the brackets of the header, and starts at `position`. -/
def clauseIndex (text : Bytes) (position : Nat) (t : Token) : Nat :=
  outerSemicolons (text.take (t.offset - position))

variable {clauses : Clauses} {position : Nat} {t : Token} {tokens : List Token}
  {pairs : List BracketPair}

/-- A token starts behind the white space at the start of a text. -/
def StartsIn (position : Nat) (text : Bytes) (t : Token) : Prop :=
  ∃ lead, lead <+: text ∧ (∀ c ∈ lead, Bytes.IsSpaceByte c) ∧ t.offset = position + lead.length

/-- Such a token stands in the first clause. -/
theorem StartsIn.clauseIndex_eq (h : StartsIn position text t) (rest : Bytes) :
    clauseIndex (text ++ rest) position t = 0 := by
  obtain ⟨lead, hlead, hspace, hoffset⟩ := h
  rw [clauseIndex, hoffset, Nat.add_sub_cancel_left,
    ← List.prefix_iff_eq_take.1 (hlead.trans (List.prefix_append text rest)),
    outerSemicolons_space hspace]

/-- Such a token stands in the text. -/
theorem StartsIn.offset_le (h : StartsIn position text t) :
    position ≤ t.offset ∧ t.offset ≤ position + text.length := by
  obtain ⟨lead, hlead, -, hoffset⟩ := h
  have hlength := hlead.length_le
  omega

/-- The pending text starts behind white space. -/
theorem startsIn_flush (h : t ∈ flush text.reverse (position + text.length)) :
    StartsIn position text t := by
  obtain ⟨lead, tail, htext, hlength, hlead, -⟩ := Bytes.trim_spec text
  rw [flush, pendingText, pendingOffset, List.reverse_reverse] at h
  split at h
  · exact absurd h List.not_mem_nil
  · obtain rfl := List.mem_singleton.1 h
    refine ⟨lead, ⟨_, htext.symm⟩, hlead.isSpaceByte, ?_⟩
    rw [Token.offset]
    omega

/-- The tokens that end a clause start behind white space. -/
theorem startsIn_endClause (h : t ∈ endClause clauses text.reverse (position + text.length)) :
    StartsIn position text t := by
  rw [endClause] at h
  split at h
  next hflush =>
    have hblank : text.trim = [] := by
      rw [flush, pendingText, List.reverse_reverse] at hflush
      simpa using hflush
    obtain ⟨lead, tail, htext, -, hlead, htail, -⟩ := Bytes.trim_spec text
    rw [hblank, List.nil_append] at htext
    split at h
    · exact absurd h List.not_mem_nil
    · obtain rfl := List.mem_singleton.1 h
      refine ⟨text, List.prefix_rfl, fun c hc => ?_, rfl⟩
      rw [htext, List.mem_append] at hc
      exact hc.elim (hlead.isSpaceByte c) (htail.isSpaceByte c)
  next => exact startsIn_flush h

/-- A block starts behind the white space in front of its signature. -/
theorem startsIn_block (bracket : Bracket) (text : Bytes) (position : Nat) (children : List Token) :
    StartsIn position text (.block (pendingText (bracket.opener :: text.reverse)) children
      (pendingOffset (bracket.opener :: text.reverse) (position + text.length + 1))) := by
  obtain ⟨lead, body, rfl, -, hoffset, hlead, -⟩ := signature_spec bracket text position
  exact ⟨lead, List.prefix_append lead body, hlead.isSpaceByte, hoffset⟩

/-- The clause of a token behind a part of the header: those that the part ends come before it. -/
theorem clauseIndex_append {front : Bytes} (ended : Nat)
    (h : ∀ rest, outerSemicolons (front ++ rest) = outerSemicolons rest + ended)
    (hoffset : position + front.length ≤ t.offset) (rest : Bytes) :
    clauseIndex (front ++ rest) position t =
      clauseIndex rest (position + front.length) t + ended := by
  have htake : (front ++ rest).take (t.offset - position) =
      front ++ rest.take (t.offset - (position + front.length)) := by
    rw [List.take_append, List.take_of_length_le (by omega), Nat.sub_sub]
  rw [clauseIndex, htake, h, clauseIndex]

/-- How the tokens of a header fill its clauses: they stand in it, and every clause holds one of
them, unless the header is blank. -/
structure FillsClauses (clauses : Clauses) (position : Nat) (text : Bytes)
    (tokens : List Token) : Prop where
  within : ∀ t ∈ tokens, position ≤ t.offset ∧ t.offset ≤ position + text.length
  blank : clauses = {} → tokens = [] → outerSemicolons text = 0
  filled : clauses ≠ {} ∨ tokens ≠ [] → ∀ i, (clauses.filled = true ∧ i = 0 ∨
    i ∈ tokens.map (clauseIndex text position)) ↔ i ≤ outerSemicolons text

/-- The last clause. -/
theorem fillsClauses_finish (hread : Mode.Reads (Kept true) .code text mode []) :
    FillsClauses clauses position text
      (if clauses.split then endClause clauses text.reverse (position + text.length)
      else flush text.reverse (position + text.length)) := by
  generalize htokens :
      (if clauses.split then endClause clauses text.reverse (position + text.length)
      else flush text.reverse (position + text.length)) = tokens
  have hstarts : ∀ t ∈ tokens, StartsIn position text t := by
    subst htokens
    intro t ht
    split at ht
    · exact startsIn_endClause ht
    · exact startsIn_flush ht
  have hindex : ∀ t ∈ tokens, clauseIndex text position t = 0 := fun t ht => by
    simpa using (hstarts t ht).clauseIndex_eq []
  have hzero := outerSemicolons_reads hread
  refine ⟨fun t ht => (hstarts t ht).offset_le, fun _ _ => hzero, fun hsome i => ?_⟩
  rw [hzero, Nat.le_zero, List.mem_map]
  constructor
  · rintro (⟨-, rfl⟩ | ⟨t, ht, rfl⟩)
    · rfl
    · exact hindex t ht
  · rintro rfl
    cases hfilled : clauses.filled with
    | true => exact .inl ⟨rfl, rfl⟩
    | false =>
      have hne : tokens ≠ [] := by
        refine hsome.elim (fun hclauses => ?_) id
        have hsplit : clauses.split = true := by
          obtain ⟨split, filled⟩ := clauses
          cases split with
          | true => rfl
          | false => exact absurd (by rw [show filled = false from hfilled]) hclauses
        rw [← htokens, if_pos hsplit]
        exact endClause_ne_nil hfilled
      obtain ⟨t, ht⟩ := List.exists_mem_of_ne_nil _ hne
      exact .inr ⟨t, ht, hindex t ht⟩

/-- A semicolon ends a clause. -/
theorem fillsClauses_clause (hread : Mode.Reads (Kept true) .code text .code [])
    (hrest : FillsClauses { split := true } (position + text.length + 1) rest tokens) :
    FillsClauses clauses position (text ++ Char.toUInt8 ';' :: rest)
      (endClause clauses text.reverse (position + text.length) ++ tokens) := by
  have hfirst : ∀ t ∈ endClause clauses text.reverse (position + text.length),
      StartsIn position text t :=
    fun t ht => startsIn_endClause ht
  have hlength : position + (text ++ [Char.toUInt8 ';']).length = position + text.length + 1 := by
    simp [Nat.add_assoc]
  have hnext : ∀ t ∈ tokens, clauseIndex (text ++ Char.toUInt8 ';' :: rest) position t =
      clauseIndex rest (position + text.length + 1) t + 1 := by
    intro t ht
    have hindex :=
      clauseIndex_append 1 (fun rest => by simpa using outerSemicolons_clause hread rest)
      (hlength ▸ (hrest.within t ht).1) rest
    rw [hlength] at hindex
    simpa using hindex
  have hcount := outerSemicolons_clause hread rest
  have hsome : clauses.filled = true ∨
      endClause clauses text.reverse (position + text.length) ≠ [] := by
    cases hfilled : clauses.filled with
    | true => exact .inl rfl
    | false => exact .inr (endClause_ne_nil hfilled)
  refine ⟨fun t ht => ?_, fun hclauses hnil => ?_, fun _ i => ?_⟩
  · rw [List.length_append, List.length_cons]
    rcases List.mem_append.1 ht with ht | ht
    · have hwithin := (hfirst t ht).offset_le
      omega
    · have hwithin := hrest.within t ht
      omega
  · subst hclauses
    exact absurd (List.append_eq_nil_iff.1 hnil).1 (hsome.resolve_left Bool.noConfusion)
  · have hrest := hrest.filled (.inl (by simp))
    rw [hcount, List.map_append, List.mem_append, List.mem_map, List.mem_map]
    cases i with
    | zero =>
      refine ⟨fun _ => Nat.zero_le _, fun _ => hsome.imp (⟨·, rfl⟩) fun hne => ?_⟩
      obtain ⟨t, ht⟩ := List.exists_mem_of_ne_nil _ hne
      exact .inl ⟨t, ht, (hfirst t ht).clauseIndex_eq _⟩
    | succ i =>
      rw [Nat.add_le_add_iff_right, ← hrest i, List.mem_map]
      constructor
      · rintro (⟨-, hzero⟩ | ⟨t, ht, hindex⟩ | ⟨t, ht, hindex⟩)
        · exact absurd hzero (Nat.succ_ne_zero i)
        · rw [(hfirst t ht).clauseIndex_eq] at hindex
          exact absurd hindex.symm (Nat.succ_ne_zero i)
        · rw [hnext t ht] at hindex
          exact .inr ⟨t, ht, Nat.succ.inj hindex⟩
      · rintro (⟨hfilled, -⟩ | ⟨t, ht, rfl⟩)
        · exact Bool.noConfusion hfilled
        · exact .inr (.inr ⟨t, ht, hnext t ht⟩)

/-- A block fills the clause that it stands in. -/
theorem fillsClauses_block {bracket : Bracket} {header : Bool} {children : List Token}
    {inner : List BracketPair} (hread : Mode.Reads (Kept true) .code text .code [])
    (hinside : Encloses bracket 0 .code inside)
    (hchildren : Layout header {} (position + text.length + 1) inside children inner)
    (hrest : FillsClauses { clauses with filled := true }
      (position + text.length + inside.length + 2) after tokens) :
    FillsClauses clauses position (text ++ bracket.opener :: (inside ++ bracket.closer :: after))
      (.block (pendingText (bracket.opener :: text.reverse)) children
        (pendingOffset (bracket.opener :: text.reverse) (position + text.length + 1)) ::
          tokens) := by
  have hfirst := startsIn_block bracket text position children
  have hlength : position + (text ++ bracket.opener :: (inside ++ [bracket.closer])).length =
      position + text.length + inside.length + 2 := by
    simp only [List.length_append, List.length_cons, List.length_nil]
    omega
  have hnext : ∀ t ∈ tokens,
      clauseIndex (text ++ bracket.opener :: (inside ++ bracket.closer :: after)) position t =
      clauseIndex after (position + text.length + inside.length + 2) t := by
    intro t ht
    have hindex := clauseIndex_append 0
      (fun rest => by simpa using outerSemicolons_block hread hinside hchildren rest)
      (hlength ▸ (hrest.within t ht).1) after
    rw [hlength] at hindex
    simpa using hindex
  have hcount := outerSemicolons_block hread hinside hchildren after
  refine ⟨fun t ht => ?_, fun _ hnil => absurd hnil (List.cons_ne_nil _ _), fun _ i => ?_⟩
  · simp only [List.length_append, List.length_cons]
    rcases List.mem_cons.1 ht with rfl | ht
    · have hwithin := hfirst.offset_le
      omega
    · have hwithin := hrest.within t ht
      omega
  · rw [hcount, ← hrest.filled (.inl (by simp)) i, List.map_cons, List.mem_cons,
      hfirst.clauseIndex_eq, List.map_congr_left hnext]
    tauto

/-- The tokens of a header fill its clauses. -/
theorem Layout.fillsClauses {header : Bool} (h : Layout header clauses position text tokens pairs)
    (hheader : header = true) : FillsClauses clauses position text tokens := by
  induction h with
  | finish hread =>
    subst hheader
    exact fillsClauses_finish hread
  | clause hread _ ih => exact fillsClauses_clause hread.alone (ih rfl)
  | statement => exact Bool.noConfusion hheader
  | block hread hinside hchildren _ _ ih =>
    subst hheader
    exact fillsClauses_block hread.alone hinside hchildren (ih rfl)

/-- A header has as many tokens as clauses exactly when no two of them stand in one clause. -/
theorem FillsClauses.nodup_iff (h : FillsClauses {} position text tokens) :
    tokens.length - 1 = outerSemicolons text ↔ (tokens.map (clauseIndex text position)).Nodup := by
  cases tokens with
  | nil => simp [h.blank rfl rfl]
  | cons t ts =>
    have hset : ((t :: ts).map (clauseIndex text position)).toFinset =
        Finset.range (outerSemicolons text + 1) := by
      ext i
      rw [List.mem_toFinset, Finset.mem_range, Nat.lt_succ_iff,
        ← h.filled (.inr (List.cons_ne_nil _ _)) i]
      simp
    rw [← Multiset.coe_nodup, ← Multiset.toFinset_card_eq_card_iff_nodup, List.toFinset_coe,
      hset, Finset.card_range, Multiset.coe_card, List.length_map, List.length_cons,
      Nat.add_sub_cancel, Nat.add_right_cancel_iff, eq_comm]

/-- Tokens that do not nest hold no block. -/
theorem isBlock_eq_false (h : depthAll tokens = 0) : ∀ t ∈ all tokens, t.isBlock = false := by
  induction tokens with
  | nil => simp
  | cons u tokens ih =>
    rw [depthAll, Nat.max_eq_zero_iff] at h
    cases u with
    | leaf text offset =>
      intro t ht
      rw [all_cons, List.mem_cons] at ht
      exact ht.elim (fun heq => heq ▸ rfl) (ih h.2 t)
    | block signature children offset => simp [depth] at h

/-- What is between the brackets of a block of a text that is laid out: it stands there in the
script, up to the bracket that closes the block, and the children of the block are laid out in
it. -/
theorem Layout.block_of_mem {source : Bytes} {header : Bool}
    (h : Layout header clauses position text tokens pairs) (hsource : text <+: source.drop position)
    (ht : t ∈ all tokens) (hblock : t.isBlock = true) :
    ∃ inside inner, Layout (isForHeader t.head) {} (t.opens + 1) inside t.children inner ∧
      inside <+: source.drop (t.opens + 1) ∧
      (t.opens, t.opens + 1 + inside.length) ∈ BracketPair.positionsAll pairs := by
  have hleaves : ∀ {ts}, depthAll ts = 0 → t ∉ all ts := fun hdepth ht => by
    simp [isBlock_eq_false hdepth t ht] at hblock
  induction h with
  | finish =>
    refine absurd ht (hleaves ?_)
    split <;> simp
  | clause _ _ ih =>
    rw [all_append, List.mem_append] at ht
    exact ih (prefix_drop_behind hsource) (ht.resolve_left (hleaves (by simp)))
  | statement _ _ _ ih =>
    rw [all_append, List.mem_append] at ht
    exact ih (prefix_drop_behind hsource) (ht.resolve_left (hleaves (by simp)))
  | @block _ _ position text inside after bracket children _ inner _ _ _ hchildren _
      ihChildren ihRest =>
    have hbehind := prefix_drop_behind hsource
    have hinside := (prefix_drop_append hbehind).1
    have hafter := prefix_drop_behind hbehind
    rw [Nat.add_right_comm _ 1] at hafter
    rw [all_cons, List.mem_cons, List.mem_append] at ht
    rw [BracketPair.positionsAll, BracketPair.positions]
    rcases ht with rfl | ht | ht
    · rw [opens_block]
      exact ⟨inside, inner, hchildren, hinside, List.mem_cons_self ..⟩
    · obtain ⟨content, nested, hlayout, hcontent, hpair⟩ := ihChildren hinside ht
      exact ⟨content, nested, hlayout, hcontent,
        List.mem_append_left _ (List.mem_cons_of_mem _ hpair)⟩
    · obtain ⟨content, nested, hlayout, hcontent, hpair⟩ := ihRest hafter ht
      exact ⟨content, nested, hlayout, hcontent, List.mem_append_right _ hpair⟩

/-- A block of scannable tokens is scannable, and is written with its content between its
brackets. -/
theorem infix_setOutAll {header cut : Bool} (h : Scannable header cut ts) (ht : t ∈ all ts)
    (hblock : t.isBlock = true) (before : Bool) :
      ∃ bracket : Bracket, Scannable (isForHeader t.head) false t.children ∧
      bracket.balanced 0 (collectAll Mode.code.marks t.children) = true ∧
      bracket.opener :: (setOutContent (isForHeader t.head) t.children ++ [bracket.closer]) <:+:
        setOutAll header before ts := by
  induction h generalizing before with
  | nil => simp at ht
  | last =>
    obtain rfl : t = _ := by simpa [all_cons, children] using ht
    exact Bool.noConfusion hblock
  | leaf _ _ _ _ _ ih =>
    rw [all_cons, List.mem_cons] at ht
    rcases ht with rfl | ht
    · exact Bool.noConfusion hblock
    · obtain ⟨bracket, hchildren, hbalanced, hinfix⟩ := ih ht true
      refine ⟨bracket, hchildren, hbalanced, ?_⟩
      rw [setOutAll]
      exact hinfix.trans (List.suffix_append _ _).isInfix
  | @block header cut bracket body offset children ts htrim hread hbalanced hclauses hchildren _
      ihChildren ihRest =>
    have hcontent : bracket.opener ::
        (setOutContent (isForHeader (body ++ [bracket.opener])) children ++
          [bracket.closer]) <:+: setOut header before
        (.block (body ++ [bracket.opener]) children offset) := by
      have hcontinues : (Bytes.startsWith (body ++ [bracket.opener]) arrow && before) = true →
          Bytes.startsWith (body ++ [bracket.opener]) arrow = true :=
          fun h => (Bool.and_eq_true_iff.1 h).1
      obtain ⟨inner, htitle, -⟩ := title_append htrim hread hcontinues
      rw [setOut_block, isForHeader_title htrim hread.run_eq hcontinues, htitle,
        signatureCloser_of_trim htrim]
      refine List.IsSuffix.isInfix
        (List.suffix_append_of_suffix (List.suffix_append_of_suffix ⟨inner, ?_⟩))
      simp
    rw [all_cons, List.mem_cons, List.mem_append] at ht
    rw [setOutAll]
    rcases ht with rfl | ht | ht
    · exact ⟨bracket, hchildren, hbalanced, hcontent.trans (List.prefix_append _ _).isInfix⟩
    · obtain ⟨inner, hinner, hbelow, hinfix⟩ := ihChildren ht false
      refine ⟨inner, hinner, hbelow,
        hinfix.trans (.trans ?_ (hcontent.trans (List.prefix_append _ _).isInfix))⟩
      exact ⟨[bracket.opener, Char.toUInt8 '\n'], [Char.toUInt8 '\n', bracket.closer],
        by simp [setOutContent]⟩
    · obtain ⟨inner, hinner, hbelow, hinfix⟩ := ihRest ht true
      exact ⟨inner, hinner, hbelow, hinfix.trans (List.suffix_append _ _).isInfix⟩

/-- The clauses of a `for` header, if no line comment in it swallows something. Between the brackets
one semicolon less is written than there are entries. Where no leaf starts with an arrow, these are
as many as in the script exactly when no two tokens of the header stand in one clause of it. -/
theorem outerSemicolons_header {source : Bytes} (h : tokenize source = .ok tokens)
    (ht : t ∈ all tokens) (hblock : t.isBlock = true) (hheader : isForHeader t.head = true)
    (hkept : swallowsAll true false t.children = false) :
    ∃ (close : Nat) (bracket : Bracket) (front rest back : Bytes),
      matchingCloser? source t.opens = some close ∧
      render tokens = front ++ bracket.opener :: rest ∧
      splitAtCloser bracket 0 .code rest = some (setOutContent true t.children, back) ∧
      outerSemicolons (setOutContent true t.children) = (entriesAll true [] t.children).length - 1 ∧
      ((∀ u ∈ t.children, u.isBlock = false → u.head.startsWith arrow = false) →
        (outerSemicolons (setOutContent true t.children) =
            outerSemicolons ((source.take close).drop (t.opens + 1)) ↔
          (t.children.map fun u => outerSemicolons
            ((source.take u.offset).drop (t.opens + 1))).Nodup)) := by
  obtain ⟨pairs, hlayout⟩ := layout_of_scan h
  obtain ⟨inside, inner, hchildren, hinside, hpair⟩ :=
    hlayout.block_of_mem List.prefix_rfl ht hblock
  obtain ⟨bracket, hscannable, hbalanced, front, back, hrender⟩ :=
    infix_setOutAll (scannable_of_scan h) ht hblock false
  rw [hheader] at hchildren hscannable hrender
  have hfills := hchildren.fillsClauses rfl
  have hcount := outerSemicolons_content hscannable hkept
  have hclose : matchingCloser? source t.opens = some (t.opens + 1 + inside.length) := by
    rw [matchingCloser?, hlayout.matchBrackets, Option.bind_some]
    exact lookup_of_mem hlayout.positionsAll_ordered.1 hpair
  have htake : ∀ n ≤ inside.length, (source.take (t.opens + 1 + n)).drop (t.opens + 1) =
      inside.take n := by
    intro n hn
    obtain ⟨more, hmore⟩ := hinside
    rw [List.drop_take, Nat.add_sub_cancel_left, ← hmore, List.take_append_of_le_length hn]
  have hindex : ∀ u ∈ t.children, outerSemicolons ((source.take u.offset).drop (t.opens + 1)) =
      clauseIndex inside (t.opens + 1) u := by
    intro u hu
    have hwithin := hfills.within u hu
    have heq := htake (u.offset - (t.opens + 1)) (by omega)
    rw [Nat.add_sub_cancel' hwithin.1] at heq
    rw [heq, clauseIndex]
  refine ⟨_, bracket, front, setOutContent true t.children ++ bracket.closer :: back, back,
    hclose, ?_, ?_, hcount, fun harrow => ?_⟩
  · rw [(scannable_of_scan h).readable.render_eq, ← hrender]
    simp
  · exact (encloses_setOutContent hscannable hkept hbalanced).splitAtCloser_append back
  · have hlength : (entriesAll true [] t.children).length = t.children.length := by
      rw [hscannable.readable.length_entriesAll, started_eq_length harrow,
        List.length_nil, Nat.zero_add]
    rw [hcount, hlength, htake _ (Nat.le_refl _), List.take_length, List.map_congr_left hindex,
      hfills.nodup_iff]

/-- A loop with a call in its first clause and an empty clause behind it. -/
theorem outerSemicolons_header_call :
    tokenize "for(f(a);)" = .ok [.block "for(" [.block "f(" [.leaf "a" 6] 4, .leaf [] 9] 0] ∧
    ∃ (close : Nat) (bracket : Bracket) (front rest back : Bytes),
      matchingCloser? "for(f(a);)" 3 = some close ∧
      render [.block "for(" [.block "f(" [.leaf "a" 6] 4, .leaf [] 9] 0] = front ++
      bracket.opener :: rest ∧
      splitAtCloser bracket 0 .code rest =
      some (setOutContent true [.block "f(" [.leaf "a" 6] 4, .leaf [] 9], back) ∧
      outerSemicolons (setOutContent true [.block "f(" [.leaf "a" 6] 4, .leaf [] 9]) =
        outerSemicolons (((utf8 "for(f(a);)").take close).drop 4) := by
  have h : tokenize "for(f(a);)" =
      .ok [.block "for(" [.block "f(" [.leaf "a" 6] 4, .leaf [] 9] 0] := by decide +kernel
  have ht : Token.block "for(" [.block "f(" [.leaf "a" 6] 4, .leaf [] 9] 0 ∈
      all [.block "for(" [.block "f(" [.leaf "a" 6] 4, .leaf [] 9] 0] := by
    rw [all_cons]
    exact List.mem_cons_self ..
  obtain ⟨close, bracket, front, rest, back, hclose, hrender, hrest, -, hiff⟩ :=
    outerSemicolons_header h ht rfl (by decide +kernel) (by decide +kernel)
  refine ⟨h, close, bracket, front, rest, back, hclose, hrender, hrest, (hiff ?_).2 ?_⟩ <;>
    decide +kernel

/-- Text behind a call gets a semicolon in front of it. -/
theorem outerSemicolons_header_ne :
    tokenize "for(f(a)+1;b)" =
      .ok [.block "for(" [.block "f(" [.leaf "a" 6] 4, .leaf "+1" 8, .leaf "b" 11] 0] ∧
    matchingCloser? "for(f(a)+1;b)" 3 = some 12 ∧ outerSemicolons "f(a)+1;b" = 1 ∧
    render [.block "for(" [.block "f(" [.leaf "a" 6] 4, .leaf "+1" 8, .leaf "b" 11] 0] =
    "for(\nf(\na\n);+1;b\n)" ∧
    outerSemicolons "\nf(\na\n);+1;b\n" = 2 := by
  have h : tokenize "for(f(a)+1;b)" =
      .ok [.block "for(" [.block "f(" [.leaf "a" 6] 4, .leaf "+1" 8, .leaf "b" 11] 0] := by
    decide +kernel
  refine ⟨h, ?_, ?_, ?_, ?_⟩ <;> decide +kernel

end Scan

end TagScript
