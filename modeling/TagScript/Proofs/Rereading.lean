import TagScript.Proofs.Scannable

/-!
# Reading back what was written

What scannable tokens are written out as can be scanned again, unless a line comment swallows
something. The tokens of that second scan are computed here from those of the first one, without
the text between them: an arrow that is written behind a blank joins the text in front of it, and
everything else comes back as it was.

Rendering goes from the newest entry to the oldest. To follow the second scan, the same text is
first set out front to back.
-/

namespace TagScript

namespace Token

mutual

/-- A token without its offsets. -/
def bare : Token → Token
  | .leaf text _ => .leaf text 0
  | .block signature children _ => .block signature (bareAll children) 0

/-- Tokens without their offsets. -/
def bareAll : List Token → List Token
  | [] => []
  | t :: ts => bare t :: bareAll ts

end

/-- No tokens are bare as they are. -/
@[simp] theorem bareAll_nil : bareAll [] = [] := rfl

/-- Tokens one behind the other are bared one by one. -/
@[simp] theorem bareAll_append (ts us : List Token) :
    bareAll (ts ++ us) = bareAll ts ++ bareAll us := by
  induction ts with
  | nil => rfl
  | cons t ts ih => rw [List.cons_append, bareAll, bareAll, ih, List.cons_append]

mutual

/-- Tokens are the same when they differ in their offsets only. -/
theorem same_iff : (t u : Token) → (same t u = true ↔ bare t = bare u)
  | .leaf .., .leaf .. => by simp [same, bare]
  | .leaf .., .block .. => by simp [same, bare]
  | .block .., .leaf .. => by simp [same, bare]
  | .block _ ts _, .block _ us _ => by simp [same, bare, sameAll_iff ts us]

/-- Sequences are the same when their tokens differ in the offsets only. -/
theorem sameAll_iff : (ts us : List Token) → (sameAll ts us = true ↔ bareAll ts = bareAll us)
  | [], [] => by simp [sameAll]
  | [], _ :: _ => by simp [sameAll, bareAll]
  | _ :: _, [] => by simp [sameAll, bareAll]
  | t :: ts, u :: us => by simp [sameAll, bareAll, same_iff t u, sameAll_iff ts us]

end

mutual

/-- Offsets do not count for the depth of a token. -/
theorem depth_bare : (t : Token) → depth (bare t) = depth t
  | .leaf .. => rfl
  | .block _ children _ => by rw [bare, depth, depth, depthAll_bareAll children]

/-- Offsets do not count for the depth of a sequence. -/
theorem depthAll_bareAll : (ts : List Token) → depthAll (bareAll ts) = depthAll ts
  | [] => rfl
  | t :: ts => by rw [bareAll, depthAll, depthAll, depth_bare t, depthAll_bareAll ts]

end

/-- The title that a block is shown with: an arrow that joins the entry in front is left out. -/
def title (continues : Bool) (signature : Bytes) : Bytes :=
  if continues then Bytes.trim (signature.drop 2) else signature

/-- What stands between a new entry and those before it. -/
def gap (header before : Bool) : Bytes := if before then [separator header] else []

mutual

/-- What a token is written out as behind the others; `before` says whether there are any. -/
def setOut (header before : Bool) : Token → Bytes
  | .leaf text _ =>
    if text.startsWith arrow && before then Char.toUInt8 ' ' :: text else gap header before ++ text
  | .block signature children _ =>
    let continues := signature.startsWith arrow && before
    (if continues then Char.toUInt8 ' ' :: arrow else []) ++
      (gap header before ++ (title continues signature ++
      Char.toUInt8 '\n' :: (setOutAll (isForHeader (title continues signature)) false children ++
        Char.toUInt8 '\n' :: signatureCloser signature)))

/-- What a sequence of tokens is written out as, front to back. -/
def setOutAll (header before : Bool) : List Token → Bytes
  | [] => []
  | t :: ts => setOut header before t ++ setOutAll header true ts

end

mutual

/-- Offsets do not count for what is set out of a token. -/
theorem setOut_bare (header before : Bool) :
    (t : Token) → setOut header before (bare t) = setOut header before t
  | .leaf .. => rfl
  | .block _ children _ => by
    rw [bare, setOut, setOut]
    simp only [setOutAll_bareAll _ _ children]

/-- Offsets do not count for what is set out of a sequence. -/
theorem setOutAll_bareAll (header before : Bool) : (ts : List Token) →
    setOutAll header before (bareAll ts) = setOutAll header before ts
  | [] => rfl
  | t :: ts =>
    by
      rw [bareAll, setOutAll, setOutAll, setOut_bare header before t, setOutAll_bareAll header _ ts]

end

/-- What is written between the brackets of a block. -/
def setOutContent (header : Bool) (ts : List Token) : Bytes :=
  Char.toUInt8 '\n' :: (setOutAll header false ts ++ [Char.toUInt8 '\n'])

/-- A block is written with its content between its title and its closer. -/
theorem setOut_block (header before : Bool) (signature : Bytes) (children : List Token)
    (offset : Nat) : setOut header before (.block signature children offset) =
      (if signature.startsWith arrow && before then Char.toUInt8 ' ' :: arrow else []) ++
        (gap header before ++ (title (signature.startsWith arrow && before) signature ++
          (setOutContent
            (isForHeader (title (signature.startsWith arrow && before) signature)) children ++
            signatureCloser signature))) := by
  simp [setOut, setOutContent]

variable {header cut : Bool} {ts : List Token}

/-- A block that is shown without its arrow is a `for` header as before. -/
theorem isForHeader_title {bracket : Bracket} {body : Bytes}
    (htrim : Bytes.trim (body ++ [bracket.opener]) = body ++ [bracket.opener])
    (hrun : Mode.code.run body = .code) {continues : Bool}
    (hcontinues : continues = true → Bytes.startsWith (body ++ [bracket.opener]) arrow = true) :
    isForHeader (title continues (body ++ [bracket.opener])) =
      isForHeader (body ++ [bracket.opener]) := by
  cases continues with
  | false => rfl
  | true =>
    obtain ⟨inner, htitle, -, -, hheader⟩ := title_spec htrim hrun (hcontinues rfl)
    rw [title, if_pos rfl, htitle, hheader]

/-- The title of a block is trimmed and read as its signature was, and ends with the same
bracket. -/
theorem title_append {bracket : Bracket} {body : Bytes}
    (htrim : Bytes.trim (body ++ [bracket.opener]) = body ++ [bracket.opener])
    (hread : Mode.Reads (Scan.Kept header) .code body .code []) {continues : Bool}
    (hcontinues : continues = true → Bytes.startsWith (body ++ [bracket.opener]) arrow = true) :
    ∃ inner, title continues (body ++ [bracket.opener]) = inner ++ [bracket.opener] ∧
      Bytes.trim (inner ++ [bracket.opener]) = inner ++ [bracket.opener] ∧
      Mode.Reads (Scan.Kept header) .code inner .code [] := by
  cases continues with
  | false => exact ⟨body, rfl, htrim, hread⟩
  | true =>
    obtain ⟨back, rfl⟩ := body_eq_arrow_append (hcontinues rfl)
    obtain ⟨lead, inner, rfl, -, htitle, hlead, -⟩ := Bytes.trim_snoc back bracket.opener_ascii.2
    have harrow : ∀ c ∈ arrow, isQuote c = false ∧ c ≠ '/' := by
      have hall : arrow.all (fun c => !isQuote c && c ≠ Char.toUInt8 '/') = true := by decide
      simpa using hall
    refine ⟨inner, htitle, by rw [← htitle, Bytes.trim_trim], ?_⟩
    exact (hread.of_plain_append harrow).of_space_append hlead.isSpaceByte

/-- A new entry stands behind the others and what separates it from them. -/
theorem joined_cons_gap (header : Bool) (entry : Bytes) (before : List Bytes) :
    joined header (entry :: before) = joined header before ++
      (gap header (!before.isEmpty) ++ entry) := by
  cases before with
  | nil => simp [gap, joined, Bytes.join]
  | cons newest older => exact joined_cons header entry (List.cons_ne_nil _ _)

/-- An entry that is continued is still an entry. -/
theorem isEmpty_extendNewest (text : Bytes) (before : List Bytes) :
    (extendNewest text before).isEmpty = before.isEmpty := by
  cases before <;> rfl

/-- A leaf is written out behind the entries before it, and is or joins an entry. -/
theorem joined_entries_leaf {text : Bytes} {offset : Nat} (htrim : text.trim = text)
    (hempty : text = [] → header = true) (before : List Bytes) :
    joined header (entries header before (.leaf text offset)) =
        joined header before ++ setOut header (!before.isEmpty) (.leaf text offset) ∧
      (entries header before (.leaf text offset)).isEmpty = false := by
  rw [entries_leaf htrim hempty, setOut]
  split
  next hcontinues =>
    have hbefore : before.isEmpty = false := by simpa using (Bool.and_eq_true_iff.1 hcontinues).2
    exact ⟨joined_extendNewest header text (by simpa using hbefore),
      by rw [isEmpty_extendNewest, hbefore]⟩
  next => exact ⟨joined_cons_gap header text before, rfl⟩

/-- A block is written out behind the entries before it, and is an entry. -/
theorem joined_entries_block {bracket : Bracket} {body : Bytes} {children : List Token}
    {offset : Nat} (htrim : Bytes.trim (body ++ [bracket.opener]) = body ++ [bracket.opener])
    (hrun : Mode.code.run body = .code) (before : List Bytes)
    (hchildren : joined (isForHeader (body ++ [bracket.opener]))
        (entriesAll (isForHeader (body ++ [bracket.opener])) [] children) =
      setOutAll (isForHeader (body ++ [bracket.opener])) false children) :
    joined header (entries header before (.block (body ++ [bracket.opener]) children offset)) =
        joined header before ++
          setOut header (!before.isEmpty) (.block (body ++ [bracket.opener]) children offset) ∧
      (entries header before (.block (body ++ [bracket.opener]) children offset)).isEmpty =
        false := by
  have hentry : ∀ continues,
      (continues = true → Bytes.startsWith (body ++ [bracket.opener]) arrow = true) →
        blockEntry (title continues (body ++ [bracket.opener]))
        (body ++ [bracket.opener]) children =
        title continues (body ++ [bracket.opener]) ++ Char.toUInt8 '\n' ::
          (setOutAll (isForHeader (title continues (body ++ [bracket.opener]))) false children ++
            Char.toUInt8 '\n' :: signatureCloser (body ++ [bracket.opener])) := by
    intro continues hcontinues
    rw [blockEntry, isForHeader_title htrim hrun hcontinues, hchildren]
  rw [entries_block htrim, setOut]
  cases hcontinues : Bytes.startsWith (body ++ [bracket.opener]) arrow && !before.isEmpty with
  | true =>
    obtain ⟨harrow, hbefore⟩ := Bool.and_eq_true_iff.1 hcontinues
    rw [Bool.not_eq_true'] at hbefore
    refine ⟨?_, rfl⟩
    rw [if_pos rfl, joined_cons_gap, isEmpty_extendNewest,
      joined_extendNewest header arrow (by simpa using hbefore),
      ← hentry true fun _ => harrow, if_pos rfl,
      List.append_assoc]
    rfl
  | false =>
    refine ⟨?_, rfl⟩
    rw [if_neg Bool.false_ne_true, joined_cons_gap, ← hentry false Bool.noConfusion,
      if_neg Bool.false_ne_true]
    rfl

/-- Tokens are written out behind the entries before them as they are set out front to back. -/
theorem Readable.joined_entriesAll (h : Readable header cut ts) (before : List Bytes) :
    joined header (entriesAll header before ts) =
      joined header before ++ setOutAll header (!before.isEmpty) ts := by
  induction h generalizing before with
  | nil => simp [entriesAll, setOutAll]
  | @last header text offset htrim hne =>
    obtain ⟨hjoined, -⟩ := joined_entries_leaf htrim (fun hempty => absurd hempty hne) before
    rw [entriesAll, entriesAll, hjoined]
    simp [setOutAll]
  | @leaf header cut text offset ts htrim hempty hrun _ ih =>
    obtain ⟨hjoined, hne⟩ := joined_entries_leaf htrim hempty before
    rw [entriesAll, ih, hjoined, hne, setOutAll, List.append_assoc]
    rfl
  | @block header cut bracket body offset children ts htrim hrun _ _ ihChildren ihRest =>
    obtain ⟨hjoined, hne⟩ := joined_entries_block htrim hrun before (ihChildren [])
    rw [entriesAll, ihRest, hjoined, hne, setOutAll, List.append_assoc]
    rfl

/-- Readable tokens are written out as they are set out. -/
theorem Readable.render_eq (h : Readable false cut ts) : render ts = setOutAll false false ts :=
  h.joined_entriesAll []

/-- The leaf that pending text becomes at the end of a statement or of a clause. A clause that holds
nothing becomes an empty leaf. -/
def clauseEnd (header filled : Bool) (pending : Bytes) : List Token :=
  if pending.isEmpty then if header && !filled then [.leaf [] 0] else [] else [.leaf pending 0]

/-- At the end of a filled clause nothing is pending that would become a leaf. -/
@[simp] theorem clauseEnd_filled (header : Bool) : clauseEnd header true [] = [] := by
    simp [clauseEnd]

/-- Pending text and what is written behind it and a blank. -/
def continued (pending text : Bytes) : Bytes :=
  if pending.isEmpty then text else pending ++ Char.toUInt8 ' ' :: text

/-- Text that is continued is not empty. -/
theorem continued_ne_nil (pending : Bytes) {text : Bytes} (h : text ≠ []) :
    continued pending text ≠ [] := by
  rw [continued]
  split
  · exact h
  · exact List.append_ne_nil_of_right_ne_nil _ (List.cons_ne_nil _ _)

mutual

/-- What a block that is written under a title is read back as. -/
def rereadBlock (title : Bytes) : Token → Token
  | .leaf text _ => .leaf text 0
  | .block _ children _ => .block title (rereadAll (isForHeader title) false true [] children) 0

/-- What tokens that are written out are read back as, with the text that is `pending` before them.
`filled` says whether the clause that is read holds a token already. -/
def rereadAll (header before filled : Bool) (pending : Bytes) : List Token → List Token
  | [] => clauseEnd header filled pending
  | t :: ts =>
    let continues := t.head.startsWith arrow && before
    if t.isBlock then
      clauseEnd header filled (if continues then continued pending arrow else pending) ++
        rereadBlock (title continues t.head) t :: rereadAll header true true [] ts
    else if continues then rereadAll header true filled (continued pending t.head) ts
    else clauseEnd header filled pending ++ rereadAll header true false t.head ts

end

/-- The end of a clause does not nest. -/
@[simp] theorem depthAll_clauseEnd (header filled : Bool) (pending : Bytes) :
    depthAll (clauseEnd header filled pending) = 0 := by
  rw [clauseEnd]
  split
  · split <;> rfl
  · rfl

mutual

/-- A block that is read back nests as deep as before. -/
theorem depth_rereadBlock (title : Bytes) : (t : Token) → depth (rereadBlock title t) = depth t
  | .leaf .. => rfl
  | .block _ children _ => by rw [rereadBlock, depth, depth, depthAll_rereadAll _ _ _ _ children]

/-- Tokens that are read back nest as deep as before. -/
theorem depthAll_rereadAll (header before filled : Bool) (pending : Bytes) : (ts : List Token) →
    depthAll (rereadAll header before filled pending ts) = depthAll ts
  | [] => depthAll_clauseEnd header filled pending
  | .leaf text _ :: ts => by
    rw [rereadAll, head, isBlock, if_neg Bool.false_ne_true, depthAll, depth, Nat.zero_max]
    split
    · exact depthAll_rereadAll _ _ _ _ ts
    · rw [depthAll_append, depthAll_clauseEnd, Nat.zero_max, depthAll_rereadAll _ _ _ _ ts]
  | .block signature children offset :: ts => by
    rw [rereadAll, isBlock, if_pos rfl, depthAll_append, depthAll_clauseEnd,
      Nat.zero_max, depthAll, depthAll, depth_rereadBlock _ (.block signature children offset),
      depthAll_rereadAll _ _ _ _ ts]

end

/-- What a script is read back as when its tokens are written out. -/
def reread (ts : List Token) : List Token := rereadAll false false true [] ts

end Token

namespace Scan

open Token

variable {header cut filled : Bool} {clauses : Clauses} {position : Nat}
  {lead pending text rest : Bytes} {tokens ts : List Token}

/-- The pending text as a leaf without offset. -/
theorem bareAll_flush (text : Bytes) (position : Nat) (filled : Bool) :
    bareAll (flush text.reverse position) = clauseEnd false filled text.trim := by
  rw [flush, pendingText, List.reverse_reverse, clauseEnd]
  split <;> rfl

/-- The end of a clause without offset. -/
theorem bareAll_endClause (clauses : Clauses) (text : Bytes) (position : Nat) :
    bareAll (endClause clauses text.reverse position) =
      clauseEnd true clauses.filled text.trim := by
  rw [endClause, flush, pendingText, List.reverse_reverse, clauseEnd]
  cases text.trim.isEmpty with
  | true => cases clauses.filled <;> rfl
  | false => rfl

/-- Wherever a text starts, it is laid out as tokens that have the given ones as their bare form. -/
def LaysOut (header : Bool) (clauses : Clauses) (text : Bytes) (tokens : List Token) : Prop :=
  ∀ position, ∃ placed pairs, Layout header clauses position text placed pairs ∧
    bareAll placed = tokens

/-- A text that reaches to the end becomes one token, or an empty clause. -/
theorem LaysOut.finish {mode : Mode} (h : Mode.Reads (Kept header) .code text mode []) :
    LaysOut header clauses text (clauseEnd clauses.split clauses.filled text.trim) := by
  refine fun position => ⟨_, [], .finish h, ?_⟩
  cases clauses.split with
  | true => exact bareAll_endClause clauses text _
  | false => exact bareAll_flush text _ clauses.filled

/-- The clauses behind a separator. -/
def Clauses.next (clauses : Clauses) (header : Bool) : Clauses :=
  if header then { split := true } else clauses

/-- A separator ends the text in front of it. -/
theorem LaysOut.separator {mode : Mode}
    (h : Mode.Reads (Kept header) .code text mode (Token.separator header :: rest))
    (hmode : mode.LineBound) (hcode : header = true → mode = .code)
    (hrest : LaysOut header (clauses.next header) rest tokens) :
    LaysOut header clauses (text ++ Token.separator header :: rest)
      (clauseEnd header clauses.filled text.trim ++ tokens) := by
  intro position
  obtain ⟨placed, pairs, hlayout, hbare⟩ := hrest (position + text.length + 1)
  cases header with
  | true =>
    obtain rfl := hcode rfl
    refine ⟨_, pairs, .clause h hlayout, ?_⟩
    rw [bareAll_append, bareAll_endClause, hbare]
  | false =>
    refine ⟨_, pairs, .statement h (.inr ⟨hmode, rfl⟩) hlayout, ?_⟩
    rw [bareAll_append, bareAll_flush text _ clauses.filled, hbare]

/-- A bracket pair follows the text that becomes its signature. -/
theorem LaysOut.block {bracket : Bracket} {inside : Bytes} {children : List Token}
    (h : Mode.Reads (Kept header) .code text .code
      (bracket.opener :: (inside ++ bracket.closer :: rest)))
    (hinside : Encloses bracket 0 .code inside)
    (hchildren : LaysOut (isForHeader (Bytes.trim (text ++ [bracket.opener]))) {} inside children)
    (hrest : LaysOut header { clauses with filled := true } rest tokens) :
    LaysOut header clauses (text ++ bracket.opener :: (inside ++ bracket.closer :: rest))
      (.block (Bytes.trim (text ++ [bracket.opener])) children 0 :: tokens) := by
  intro position
  have hsignature : pendingText (bracket.opener :: text.reverse) =
      Bytes.trim (text ++ [bracket.opener]) := by
    rw [pendingText, List.reverse_cons, List.reverse_reverse]
  rw [← hsignature] at hchildren ⊢
  obtain ⟨placed, inner, hlayout, rfl⟩ := hchildren (position + text.length + 1)
  obtain ⟨behind, pairs, hbehind, rfl⟩ := hrest (position + text.length + inside.length + 2)
  exact ⟨_, _, .block h hinside hlayout hbehind, rfl⟩

/-- Bytes that are kept in code and start neither a string nor a comment are read in front of
anything. -/
theorem reads_plain (h : ∀ c ∈ text, isQuote c = false ∧ c ≠ '/' ∧ Kept header .code c .code) :
    Mode.Reads (Kept header) .code text .code rest := by
  induction text with
  | nil => exact .nil
  | cons c text ih =>
    obtain ⟨hquote, hslash, hkept⟩ := h c (List.mem_cons_self ..)
    exact .one (Mode.step_plain hquote hslash _) hkept
      (ih fun d hd => h d (List.mem_cons_of_mem _ hd))

/-- What is written behind the last token: a line break in a block, nothing at the end of a
script. -/
def ending (cut : Bool) : Bytes := if cut then [] else [Char.toUInt8 '\n']

/-- Blanks, and behind them text that is read as part of a token. -/
structure Pending (header : Bool) (lead pending : Bytes) : Prop where
  blank : ∀ c ∈ lead, isAsciiSpace c = true ∧ Kept header .code c .code
  trimmed : pending.trim = pending
  read : Mode.Reads (Kept header) .code pending (Mode.code.run pending) []

namespace Pending

/-- Blanks are read in front of anything. -/
theorem reads_lead (h : Pending header lead pending) (rest : Bytes) :
    Mode.Reads (Kept header) .code lead .code rest := by
  refine reads_plain fun c hc => ?_
  obtain ⟨hspace, hkept⟩ := h.blank c hc
  have hplain := Bytes.IsSpaceByte.plain (.inl hspace)
  exact ⟨hplain.1, hplain.2.1, hkept⟩

/-- Pending text that ends in code or in a line comment is read in front of a separator. -/
theorem reads_pending (h : Pending header lead pending)
    (hbound : (Mode.code.run pending).LineBound) {c : UInt8} (hc : Mode.IsSeparator c)
    (rest : Bytes) :
    Mode.Reads (Kept header) .code pending (Mode.code.run pending) (c :: rest) := by
  refine h.read.extend (by simp) (fun quote hquote => ?_) fun d hd => ?_
  · rw [hquote] at hbound
    rcases hbound with hcode | hcomment
    · exact Mode.noConfusion hcode
    · exact Mode.noConfusion hcomment
  · obtain rfl := Option.some.inj hd
    exact hc

/-- Blanks and pending text are read in front of a separator. -/
theorem reads (h : Pending header lead pending)
    (hbound : (Mode.code.run pending).LineBound) {c : UInt8} (hc : Mode.IsSeparator c)
    (rest : Bytes) :
    Mode.Reads (Kept header) .code (lead ++ pending) (Mode.code.run pending) (c :: rest) :=
  (h.reads_lead _).trans (h.reads_pending hbound hc rest)

/-- The blanks do not become part of the token. -/
theorem trim_eq (h : Pending header lead pending) : Bytes.trim (lead ++ pending) = pending := by
  rw [Bytes.trim_blank_append fun c hc => (h.blank c hc).1, h.trimmed]

/-- Text that is pending at the end of a script or of the content of a block. -/
theorem laysOut_ending (h : Pending header lead pending)
    (hbound : (Mode.code.run pending).LineBound ∨ cut = true)
    (hsplit : clauses.split = true → header = true) :
    LaysOut header clauses (lead ++ pending ++ ending cut)
      (clauseEnd clauses.split clauses.filled pending) := by
  cases cut with
  | true =>
    have hlays : LaysOut header clauses (lead ++ pending) _ :=
      .finish ((h.reads_lead _).trans h.read)
    rw [h.trim_eq] at hlays
    rwa [ending, if_pos rfl, List.append_nil]
  | false =>
    have hbound := hbound.resolve_right Bool.noConfusion
    have hread := h.reads hbound (by decide : Mode.IsSeparator '\n') []
    cases header with
    | true =>
      have hstep : (Mode.code.run pending).step '\n' none = (.code, false) := by
        rcases hbound with hrun | hrun <;> rw [hrun] <;> rfl
      have hkept : Kept true (Mode.code.run pending) '\n' .code := by
        rcases hbound with hrun | hrun <;> rw [hrun] <;> rfl
      have hlays : LaysOut true clauses (lead ++ pending ++ [Char.toUInt8 '\n']) _ :=
        .finish (hread.trans (.one hstep hkept .nil))
      rwa [List.append_assoc, Bytes.trim_blank_append fun c hc => (h.blank c hc).1,
        Bytes.trim_append_line h.trimmed, ← List.append_assoc] at hlays
    | false =>
      have hopen : clauses.split = false := by simpa using hsplit
      have hnothing : LaysOut false clauses [] [] := by
        have hlays : LaysOut false clauses [] _ := .finish .nil
        rw [hopen] at hlays
        exact hlays
      have hlays := LaysOut.separator hread hbound Bool.noConfusion hnothing
      rw [List.append_nil, h.trim_eq] at hlays
      rw [hopen]
      exact hlays

/-- Text that is written behind a blank joins the pending text. -/
theorem continued (h : Pending header lead pending) (hcode : Mode.code.run pending = .code)
    (htrim : text.trim = text) (hne : text ≠ [])
    (hread : Mode.Reads (Kept header) .code text (Mode.code.run text) []) :
    ∃ front, Pending header front (Token.continued pending text) ∧
      front ++ Token.continued pending text = lead ++ pending ++ Char.toUInt8 ' ' :: text ∧
      Mode.code.run (Token.continued pending text) = Mode.code.run text := by
  have hkept : Kept header .code ' ' .code := by
    cases header <;> rfl
  have hstep : ∀ next, Mode.code.step ' ' next = (.code, false) :=
    Mode.step_plain (by decide) (by decide)
  by_cases hpending : pending = []
  · subst hpending
    refine ⟨lead ++ [Char.toUInt8 ' '], ⟨?_, htrim, hread⟩, by simp [Token.continued], rfl⟩
    intro c hc
    rcases List.mem_append.1 hc with hc | hc
    · exact h.blank c hc
    · obtain rfl := List.mem_singleton.1 hc
      exact ⟨by decide, hkept⟩
  · have hcontinued : Token.continued pending text = pending ++ Char.toUInt8 ' ' :: text := by
      rw [Token.continued, if_neg (by simpa using hpending)]
    have hfront := h.reads_pending (.inl hcode) (by decide : Mode.IsSeparator ' ') text
    rw [hcode] at hfront
    have hall : Mode.Reads (Kept header) .code (pending ++ Char.toUInt8 ' ' :: text)
        (Mode.code.run text) [] :=
      Mode.Reads.trans (by rwa [List.append_nil]) (.one (hstep _) hkept hread)
    rw [hcontinued]
    exact ⟨lead, ⟨h.blank, Bytes.trim_append_ascii_append h.trimmed hpending htrim hne (by decide),
      hall.run_eq.symm ▸ hall⟩, (List.append_assoc ..).symm, hall.run_eq⟩

end Pending

/-- What is written between the brackets of a block is enclosed by them, if nothing in it is
swallowed. -/
theorem encloses_setOutContent {bracket : Bracket} (h : Scannable header false ts)
    (hkept : swallowsAll header false ts = false)
    (hbalanced : bracket.balanced 0 (collectAll Mode.code.marks ts) = true) :
    Encloses bracket 0 .code (setOutContent header ts) := by
  have hnothing : Settled (joined header []) [] false := ⟨rfl, rfl⟩
  have hjoined : joined header (entriesAll header [] ts) = setOutAll header false ts :=
    h.readable.joined_entriesAll []
  have hwritten := h.readable.written hnothing
  rw [hjoined] at hwritten
  obtain ⟨hmarks, hrun⟩ := Mode.marks_line (hwritten.lineBound hkept rfl) []
  obtain ⟨hfront, hfrontRun⟩ := Mode.marks_line (.inl rfl : (Mode.code.run []).LineBound)
    (setOutAll header false ts ++ [Char.toUInt8 '\n'])
  rw [List.nil_append, hmarks, hwritten.marks_eq hkept] at hfront
  rw [List.nil_append, hrun] at hfrontRun
  have hread : Mode.Reads (fun _ _ _ => True) .code (setOutContent header ts) _ [bracket.closer] :=
    Mode.reads_of_lineBound (.inl hfrontRun) bracket.isPlain.2
  rw [setOutContent, hfrontRun] at hread
  refine encloses_of_balanced hread ?_
  rw [← Bracket.balanced_marks, setOutContent, hfront]
  simpa using hbalanced

/-- The clauses that a scan keeps track of: only those of a header are split, and there `filled`
says whether the current one holds a token. -/
structure Tracks (header : Bool) (clauses : Clauses) (filled : Bool) : Prop where
  split : clauses.split = true → header = true
  filled : header = true → clauses.filled = filled

/-- Tokens that are written behind others are read back, whatever text is pending in front of
them. -/
def Relays (header cut : Bool) (ts : List Token) : Prop :=
  ∀ {clauses : Clauses} {filled : Bool} {lead pending : Bytes}, Pending header lead pending →
    ((Mode.code.run pending).LineBound ∨ cut = true ∧ ts = []) → Tracks header clauses filled →
    swallowsAll header (Mode.code.run pending = .lineComment) ts = false →
    (header = true → clauses = {} → pending = [] → ts ≠ []) →
    LaysOut header clauses (lead ++ pending ++ (setOutAll header true ts ++ ending cut))
      (rereadAll header true filled pending ts)

/-- Tokens that are written first are read back behind blanks. -/
def Starts (header cut : Bool) (ts : List Token) : Prop :=
  ∀ {lead : Bytes}, Pending header lead [] → swallowsAll header false ts = false →
    (∀ position, ts ≠ [.leaf [] position]) →
    LaysOut header {} (lead ++ (setOutAll header false ts ++ ending cut))
      (rereadAll header false true [] ts)

/-- Whether a clause is filled counts in headers only. -/
theorem clauseEnd_congr {first second : Bool} (h : header = true → first = second)
    (pending : Bytes) :
    clauseEnd header first pending = clauseEnd header second pending := by
  cases header with
  | true => rw [h rfl]
  | false => rfl

/-- A separator behind pending text. -/
theorem Pending.laysOut_separator (h : Pending header lead pending)
    (hbound : (Mode.code.run pending).LineBound)
    (hcode : header = true → Mode.code.run pending = .code) (htracks : Tracks header clauses filled)
    (hrest : LaysOut header (clauses.next header) rest tokens) :
    LaysOut header clauses (lead ++ pending ++ Token.separator header :: rest)
      (clauseEnd header filled pending ++ tokens) := by
  have hseparator : Mode.IsSeparator (Token.separator header) := by cases header <;> decide
  have hlays := LaysOut.separator (h.reads hbound hseparator rest) hbound hcode hrest
  rwa [h.trim_eq, clauseEnd_congr htracks.filled] at hlays

/-- Behind a separator a clause is not filled. -/
theorem Tracks.next (h : Tracks header clauses filled) :
    Tracks header (clauses.next header) false := by
  cases header with
  | true => exact ⟨fun _ => rfl, fun _ => rfl⟩
  | false => exact ⟨h.split, Bool.noConfusion⟩

/-- Behind a block a clause is filled. -/
theorem Tracks.fill (h : Tracks header clauses filled) :
    Tracks header { clauses with filled := true } true :=
  ⟨h.split, fun _ => rfl⟩

/-- Nothing more is written. -/
theorem relays_nil : Relays header cut [] := by
  intro clauses filled lead pending hpending hbound htracks _ hne
  have hlays := hpending.laysOut_ending (hbound.imp_right And.left) htracks.split
  have hend : clauseEnd clauses.split clauses.filled pending = clauseEnd header filled pending := by
    cases header with
    | false =>
      have hsplit : clauses.split = false := by simpa using htracks.split
      rw [hsplit]
      rfl
    | true =>
      rw [← htracks.filled rfl]
      obtain ⟨split, filled⟩ := clauses
      cases pending with
      | cons => rfl
      | nil =>
        cases split with
        | true => rfl
        | false =>
          cases filled with
          | true => rfl
          | false => exact absurd rfl (hne rfl rfl rfl)
  rw [hend] at hlays
  exact hlays

/-- A leaf that is written behind others. -/
theorem relays_leaf {offset : Nat} {mode : Mode} (htrim : text.trim = text)
    (hread : Mode.Reads (Kept header) .code text mode [])
    (hmode : mode.LineBound ∨ cut = true ∧ ts = [])
    (hrest : Relays header cut ts) : Relays header cut (.leaf text offset :: ts) := by
  intro clauses filled lead pending hpending hbound htracks hkept _
  have hbound := hbound.resolve_right fun h => List.cons_ne_nil _ _ h.2
  obtain rfl := hread.run_eq
  rw [swallowsAll, swallows, Bool.or_false, Bool.or_eq_false_iff, head, endsInComment] at hkept
  obtain ⟨hfront, hkept⟩ := hkept
  rw [setOutAll, setOut, rereadAll, head, isBlock, if_neg Bool.false_ne_true, Bool.and_true]
  cases harrow : text.startsWith arrow with
  | true =>
    have hcode : Mode.code.run pending = .code :=
      hbound.resolve_right (by simpa [harrow] using hfront)
    have hne : text ≠ [] := by
      rintro rfl
      exact absurd harrow (by decide)
    obtain ⟨front, hcontinued, heq, hrun⟩ := hpending.continued hcode htrim hne hread
    have hlays := hrest hcontinued (hrun ▸ hmode) htracks (hrun ▸ hkept) fun _ _ hnil =>
      absurd hnil (continued_ne_nil _ hne)
    rw [heq] at hlays
    simpa using hlays
  | false =>
    have hcode : header = true → Mode.code.run pending = .code := fun h =>
      hbound.resolve_right (by simpa [h] using hfront)
    have htext : Pending header [] text := ⟨by simp, htrim, hread⟩
    have hlays := hpending.laysOut_separator hbound hcode htracks
      (hrest htext hmode htracks.next hkept fun hheader hnext => by
        simp [hheader, Clauses.next] at hnext)
    simpa [gap] using hlays

/-- The content of a block stands on lines of its own, and is read back as written alone. -/
theorem Starts.content (h : Starts header false ts) (hkept : swallowsAll header false ts = false)
    (hclauses : ∀ position, ts ≠ [.leaf [] position]) :
    LaysOut header {} (setOutContent header ts) (rereadAll header false true [] ts) := by
  cases header with
  | true =>
    have hlead : Pending true [Char.toUInt8 '\n'] [] :=
      ⟨fun c hc => by obtain rfl := List.mem_singleton.1 hc; exact ⟨rfl, rfl⟩, rfl, .nil⟩
    exact h hlead hkept hclauses
  | false =>
    have hlead : Pending false [] [] := ⟨by simp, rfl, .nil⟩
    have htracks : Tracks false {} false := ⟨Bool.noConfusion, Bool.noConfusion⟩
    exact hlead.laysOut_separator (.inl rfl) Bool.noConfusion htracks (h hlead hkept hclauses)

/-- A block that is written under its title, and what follows it. -/
theorem laysOut_block {bracket : Bracket} {body : Bytes} {children : List Token}
    (offset : Nat) (continues : Bool) (hlead : Pending header lead [])
    (htracks : Tracks header clauses filled)
    (htrim : Bytes.trim (body ++ [bracket.opener]) = body ++ [bracket.opener])
    (hread : Mode.Reads (Kept header) .code body .code [])
    (hcontinues : continues = true → Bytes.startsWith (body ++ [bracket.opener]) arrow = true)
    (hinside : Encloses bracket 0 .code
      (setOutContent (isForHeader (body ++ [bracket.opener])) children))
    (hchildren : LaysOut (isForHeader (body ++ [bracket.opener])) {}
      (setOutContent (isForHeader (body ++ [bracket.opener])) children)
        (rereadAll (isForHeader (body ++ [bracket.opener])) false true [] children))
    (hrest : Relays header cut ts) (hkept : swallowsAll header false ts = false) :
    LaysOut header clauses (lead ++ (title continues (body ++ [bracket.opener]) ++
        (setOutContent (isForHeader (title continues (body ++ [bracket.opener]))) children ++
          signatureCloser (body ++ [bracket.opener])) ++ (setOutAll header true ts ++ ending cut)))
      (rereadBlock (title continues (body ++ [bracket.opener]))
        (.block (body ++ [bracket.opener]) children offset) ::
        rereadAll header true true [] ts) := by
  obtain ⟨inner, htitle, hinnerTrim, hinner⟩ := title_append htrim hread hcontinues
  rw [← isForHeader_title htrim hread.run_eq hcontinues, htitle] at hinside hchildren
  rw [rereadBlock, htitle, signatureCloser_of_trim htrim]
  have hnothing : Pending header [] [] := ⟨by simp, rfl, .nil⟩
  have hbehind := hrest hnothing (.inl (.inl rfl)) htracks.fill hkept fun _ hclauses => by
    simp at hclauses
  have hopener : Mode.IsSeparator bracket.opener := by cases bracket <;> decide
  have hfront : Mode.Reads (Kept header) .code (lead ++ inner) .code (bracket.opener ::
      (setOutContent (isForHeader (inner ++ [bracket.opener])) children ++
        bracket.closer :: (setOutAll header true ts ++ ending cut))) :=
    (hlead.reads_lead _).trans (hinner.extend (by simp) (by simp) (by simpa using hopener))
  have hsignature : Bytes.trim (lead ++ inner ++ [bracket.opener]) = inner ++ [bracket.opener] := by
    rw [List.append_assoc, Bytes.trim_blank_append fun c hc => (hlead.blank c hc).1, hinnerTrim]
  have hlays := LaysOut.block hfront hinside (by rwa [hsignature]) hbehind
  rw [hsignature] at hlays
  simpa using hlays

/-- An arrow is kept in the text of a token. -/
theorem reads_arrow (header : Bool) (rest : Bytes) :
    Mode.Reads (Kept header) .code arrow .code rest := by
  have hkept : Kept header .code '=' .code ∧ Kept header .code '>' .code := by cases header <;>
    exact ⟨rfl, rfl⟩
  exact .one rfl hkept.1 (.one rfl hkept.2 .nil)

/-- A block that is written behind others. -/
theorem relays_block {bracket : Bracket} {body : Bytes} {offset : Nat} {children : List Token}
    (htrim : Bytes.trim (body ++ [bracket.opener]) = body ++ [bracket.opener])
    (hread : Mode.Reads (Kept header) .code body .code [])
    (hbalanced : bracket.balanced 0 (collectAll Mode.code.marks children) = true)
    (hclauses : ∀ position, children ≠ [.leaf [] position])
    (hscannable : Scannable (isForHeader (body ++ [bracket.opener])) false children)
    (hchildren : Starts (isForHeader (body ++ [bracket.opener])) false children)
    (hrest : Relays header cut ts) :
    Relays header cut (.block (body ++ [bracket.opener]) children offset :: ts) := by
  intro clauses filled lead pending hpending hbound htracks hkept _
  have hbound := hbound.resolve_right fun h => List.cons_ne_nil _ _ h.2
  rw [swallowsAll, swallows, Bool.or_eq_false_iff, Bool.or_eq_false_iff, head, endsInComment]
    at hkept
  obtain ⟨⟨hfront, hinner⟩, hkept⟩ := hkept
  have hinside := encloses_setOutContent hscannable hinner hbalanced
  have hcontent := hchildren.content hinner hclauses
  have hnothing : Pending header [] [] := ⟨by simp, rfl, .nil⟩
  rw [setOutAll, setOut_block, rereadAll, head, isBlock, if_pos rfl, Bool.and_true]
  cases harrow : Bytes.startsWith (body ++ [bracket.opener]) arrow with
  | true =>
    have hcode : Mode.code.run pending = .code :=
      hbound.resolve_right (by simpa [harrow] using hfront)
    have hblock :=
      laysOut_block offset true hnothing htracks.next htrim hread (fun _ => harrow) hinside hcontent
      hrest hkept
    obtain ⟨front, hcontinued, heq, hrun⟩ :=
      hpending.continued hcode (by decide) (by decide) (reads_arrow header [])
    have hlays := hcontinued.laysOut_separator (.inl hrun) (fun _ => hrun) htracks hblock
    rw [heq] at hlays
    simpa [gap] using hlays
  | false =>
    have hcode : header = true → Mode.code.run pending = .code := fun h =>
      hbound.resolve_right (by simpa [h] using hfront)
    have hblock :=
      laysOut_block offset false hnothing htracks.next htrim hread Bool.noConfusion hinside hcontent
      hrest hkept
    have hlays := hpending.laysOut_separator hbound hcode htracks hblock
    simpa [gap] using hlays

/-- A leaf that is written first. -/
theorem starts_leaf {offset : Nat} {mode : Mode} (htrim : text.trim = text)
    (hread : Mode.Reads (Kept header) .code text mode [])
    (hmode : mode.LineBound ∨ cut = true ∧ ts = [])
    (hrest : Relays header cut ts) : Starts header cut (.leaf text offset :: ts) := by
  intro lead hlead hkept hclauses
  obtain rfl := hread.run_eq
  rw [swallowsAll, swallows, endsInComment, Bool.false_and, Bool.false_or, Bool.false_or] at hkept
  have hpending : Pending header lead text := ⟨hlead.blank, htrim, hread⟩
  have htracks : Tracks header {} false := ⟨Bool.noConfusion, fun _ => rfl⟩
  have hlays := hrest hpending hmode htracks hkept fun _ _ htext hnil =>
    hclauses offset (by rw [htext, hnil])
  rw [setOutAll, setOut, rereadAll, head, isBlock]
  simpa [gap, clauseEnd] using hlays

/-- A block that is written first. -/
theorem starts_block {bracket : Bracket} {body : Bytes} {offset : Nat} {children : List Token}
    (htrim : Bytes.trim (body ++ [bracket.opener]) = body ++ [bracket.opener])
    (hread : Mode.Reads (Kept header) .code body .code [])
    (hbalanced : bracket.balanced 0 (collectAll Mode.code.marks children) = true)
    (hclauses : ∀ position, children ≠ [.leaf [] position])
    (hscannable : Scannable (isForHeader (body ++ [bracket.opener])) false children)
    (hchildren : Starts (isForHeader (body ++ [bracket.opener])) false children)
    (hrest : Relays header cut ts) :
    Starts header cut (.block (body ++ [bracket.opener]) children offset :: ts) := by
  intro lead hlead hkept _
  rw [swallowsAll, swallows, endsInComment, Bool.false_and, Bool.false_or, Bool.or_eq_false_iff]
    at hkept
  have hinside := encloses_setOutContent hscannable hkept.1 hbalanced
  have hcontent := hchildren.content hkept.1 hclauses
  have htracks : Tracks header {} false := ⟨Bool.noConfusion, fun _ => rfl⟩
  have hblock :=
    laysOut_block offset false hlead htracks htrim hread Bool.noConfusion hinside hcontent hrest
    hkept.2
  rw [setOutAll, setOut_block, rereadAll, head, isBlock]
  simpa [gap, clauseEnd] using hblock

/-- Scannable tokens are read back where they are written. -/
theorem relays_starts (h : Scannable header cut ts) : Relays header cut ts ∧
    Starts header cut ts := by
  induction h with
  | @nil header cut =>
    refine ⟨relays_nil, fun hlead _ _ => ?_⟩
    have hlays : LaysOut header {} _ _ :=
      hlead.laysOut_ending (.inl (.inl rfl) : _ ∨ cut = true) Bool.noConfusion
    simpa [setOutAll, rereadAll, clauseEnd] using hlays
  | last htrim hne hread =>
    exact ⟨relays_leaf htrim hread (.inr ⟨rfl, rfl⟩) relays_nil,
      starts_leaf htrim hread (.inr ⟨rfl, rfl⟩) relays_nil⟩
  | leaf htrim hempty hread hmode hrest ih =>
    exact ⟨relays_leaf htrim hread (.inl hmode) ih.1, starts_leaf htrim hread (.inl hmode) ih.1⟩
  | block htrim hread hbalanced hclauses hchildren hrest ihChildren ihRest =>
    exact ⟨relays_block htrim hread hbalanced hclauses hchildren ihChildren.2 ihRest.1,
      starts_block htrim hread hbalanced hclauses hchildren ihChildren.2 ihRest.1⟩

/-- Scannable tokens are read back from what they are written out as, if nothing in it is
swallowed. -/
theorem laysOut_render (h : Scannable false true ts) (hkept : swallowsAll false false ts = false) :
    LaysOut false {} (render ts) (reread ts) := by
  have hlead : Pending false [] [] := ⟨by simp, rfl, .nil⟩
  have hclauses : ∀ position, ts ≠ [.leaf [] position] := by
    rintro position rfl
    cases h with
    | last _ hne _ => exact hne rfl
    | leaf _ hempty _ _ _ => exact Bool.noConfusion (hempty rfl)
  have hlays := (relays_starts h).2 hlead hkept hclauses
  rw [h.readable.render_eq, reread]
  simpa [ending] using hlays

/-- Scannable tokens that are written out are scanned as computed, within the limit that they keep
to. -/
theorem scan_render {limit : Nat} (h : Scannable false true ts)
    (hkept : swallowsAll false false ts = false)
    (hlimit : depthAll ts ≤ limit) : ∃ again, scan limit (render ts) = .ok again ∧
    bareAll again = reread ts := by
  obtain ⟨again, pairs, hlayout, hbare⟩ := laysOut_render h hkept 0
  have hdepth : depthAll again = depthAll ts := by
    rw [← depthAll_bareAll, hbare, reread, depthAll_rereadAll]
  exact ⟨again, hlayout.scan_eq (hdepth ▸ hlimit), hbare⟩

end Scan

end TagScript
