import TagScript.Proofs.Marks
import TagScript.Proofs.Rendering

/-!
# Comments in rendered scripts

A line comment ends at a line break, which no token holds. Rendering writes a line break behind
most tokens, but only a semicolon behind the clause of a `for` header, and only a blank in front
of an arrow. If a line comment ends the leaf before one of these, it swallows what follows.

Apart from that, rendering keeps code, strings and comments as they are: a script and what it is
written out as have the same marks exactly when nothing is swallowed.
-/

namespace TagScript

/-- A byte that neither continues a name nor makes a word a member of something. -/
def IsWordBreak (c : UInt8) : Prop := isNamePart c = false ∧ c ≠ '.'

/-- A byte that can belong to white space ends a word. -/
theorem Bytes.IsSpaceByte.isWordBreak {c : UInt8} (h : IsSpaceByte c) : IsWordBreak c := by
  have ha : Char.toUInt8 'a' = 97 ∧ Char.toUInt8 'z' = 122 ∧ Char.toUInt8 'A' = 65 ∧
      Char.toUInt8 'Z' = 90 ∧
      Char.toUInt8 '0' = 48 ∧ Char.toUInt8 '9' = 57 ∧ Char.toUInt8 '_' = 95 ∧
      Char.toUInt8 '$' = 36 ∧
      Char.toUInt8 '.' = 46 := by decide
  simp only [IsSpaceByte, isAsciiSpace, Bool.or_eq_true, Bool.and_eq_true, decide_eq_true_eq,
    UInt8.le_iff_toNat_le, ← UInt8.toNat_inj, UInt8.reduceToNat] at h
  simp only [IsWordBreak, isNamePart, isWord, isLetter, isDigit, ha, Bool.or_eq_false_iff,
    Bool.and_eq_false_iff, decide_eq_false_iff_not, Ne, UInt8.le_iff_toNat_le, ← UInt8.toNat_inj,
    UInt8.reduceToNat]
  omega

/-- A word is found in front of word breaks where it is found without them. -/
theorem Bytes.after?_append {word text breaks : Bytes} (hword : word.all isNamePart = true)
    (hbreaks : ∀ c ∈ breaks, IsWordBreak c) :
    after? word (text ++ breaks) = (after? word text).map (· ++ breaks) := by
  induction word generalizing text with
  | nil => simp [after?]
  | cons p word ih =>
    cases text with
    | nil =>
      cases breaks with
      | nil => rfl
      | cons c breaks =>
        have hne : p ≠ c := by
          rintro rfl
          have hpart := List.all_eq_true.1 hword p (List.mem_cons_self ..)
          rw [(hbreaks p (List.mem_cons_self ..)).1] at hpart
          exact Bool.noConfusion hpart
        simp [after?, hne]
    | cons c text =>
      simp only [List.cons_append, after?]
      split
      · exact ih (Bool.and_eq_true_iff.1 hword).2
      · rfl

/-- Word breaks in front of a text leave a `for` at its end free-standing or not. -/
theorem endsWithFor_append {text breaks : Bytes} (hbreaks : ∀ c ∈ breaks, IsWordBreak c) :
    endsWithFor (text ++ breaks) = endsWithFor text := by
  rw [endsWithFor, endsWithFor, Bytes.after?_append (by decide) hbreaks]
  cases Bytes.after? "rof" text with
  | none => rfl
  | some rest =>
    cases rest with
    | cons c rest => rfl
    | nil =>
      cases breaks with
      | nil => rfl
      | cons c breaks =>
        obtain ⟨hpart, hdot⟩ := hbreaks c (List.mem_cons_self ..)
        simp [startsFresh, hpart, hdot]

/-- Skipping gaps in front of a text and word breaks. -/
theorem Bytes.skipGaps_append (text : Bytes) {breaks : Bytes}
    (hbreaks : ∀ c ∈ breaks, IsWordBreak c) :
    ∃ more, skipGaps (text ++ breaks) = skipGaps text ++ more ∧ ∀ c ∈ more, IsWordBreak c := by
  rw [skipGaps, skipGaps, List.dropWhile_append]
  split
  next hempty =>
    refine ⟨breaks.dropWhile isGap, by simp [List.isEmpty_iff.1 hempty], fun c hc => ?_⟩
    exact hbreaks c ((List.dropWhile_sublist _).subset hc)
  next => exact ⟨breaks, rfl, hbreaks⟩

/-- Word breaks alone hold no `for`. -/
theorem endsWithFor_skipGaps {breaks : Bytes} (hbreaks : ∀ c ∈ breaks, IsWordBreak c) :
    endsWithFor (Bytes.skipGaps breaks) = false := by
  obtain ⟨more, hskip, hmore⟩ := Bytes.skipGaps_append [] hbreaks
  rw [← List.nil_append breaks, hskip, endsWithFor_append hmore]
  rfl

/-- Word breaks in front of a title do not change whether it opens the header of a `for` loop. -/
theorem isForHeader_append {breaks title : Bytes} (hbreaks : ∀ c ∈ breaks, IsWordBreak c)
    (hne : title ≠ []) (htitle : title.trim = title)
    (htrim : Bytes.trim (breaks ++ title) = breaks ++ title) :
    isForHeader (breaks ++ title) = isForHeader title := by
  have hback : ∀ c ∈ breaks.reverse, IsWordBreak c := fun c hc => hbreaks c (List.mem_reverse.1 hc)
  rw [isForHeader, isForHeader, htitle, htrim, List.reverse_append]
  cases hreverse : title.reverse with
  | nil => exact absurd (List.reverse_eq_nil_iff.1 hreverse) hne
  | cons c text =>
    obtain ⟨more, hskip, hmore⟩ := Bytes.skipGaps_append text hback
    have hawait : (utf8 "tiawa").all isNamePart = true := by decide
    simp only [List.cons_append, hskip, endsWithFor_append hmore, Bytes.after?_append hawait hmore]
    congr 2
    cases Bytes.after? "tiawa" (Bytes.skipGaps text) with
    | none => rfl
    | some rest =>
      cases rest with
      | cons gap rest =>
        obtain ⟨again, hagain, hbreak⟩ := Bytes.skipGaps_append rest hmore
        simp [hagain, endsWithFor_append hbreak]
      | nil =>
        cases more with
        | nil => rfl
        | cons gap more =>
          simp [endsWithFor_skipGaps fun d hd => hmore d (List.mem_cons_of_mem _ hd)]

namespace Token

/-- Whether a token is a leaf that ends in a line comment. -/
def endsInComment : Token → Bool
  | .leaf text _ => Mode.code.run text = .lineComment
  | .block .. => false

mutual

/-- Whether a line comment inside a token swallows what follows it when the token is written out. -/
def swallows : Token → Bool
  | .leaf .. => false
  | .block signature children _ => swallowsAll (isForHeader signature) false children

/-- Whether a line comment swallows what follows it when a sequence is written out. `commented` says
whether the token in front of the sequence ends in one. -/
def swallowsAll (header commented : Bool) : List Token → Bool
  | [] => false
  | t :: ts => (commented && (header || t.head.startsWith arrow)) || swallows t ||
      swallowsAll header (endsInComment t) ts

end

/-- Tokens as the scanner makes them: their texts are trimmed, and end in code or in a line comment.
Only the last leaf of a script may end inside a string or a block comment that is `cut` off. -/
inductive Readable : (header cut : Bool) → List Token → Prop where
  | nil {header cut : Bool} : Readable header cut []
  | last {header : Bool} {text : Bytes} {offset : Nat} (htrim : text.trim = text)
      (hne : text ≠ []) : Readable header true [.leaf text offset]
  | leaf {header cut : Bool} {text : Bytes} {offset : Nat} {ts : List Token}
      (htrim : text.trim = text)
      (hempty : text = [] → header = true) (hrun : (Mode.code.run text).LineBound)
      (hrest : Readable header cut ts) : Readable header cut (.leaf text offset :: ts)
  | block {header cut : Bool} {bracket : Bracket} {body : Bytes} {offset : Nat}
      {children ts : List Token}
      (htrim : Bytes.trim (body ++ [bracket.opener]) = body ++ [bracket.opener])
      (hrun : Mode.code.run body = .code)
      (hchildren : Readable (isForHeader (body ++ [bracket.opener])) false children)
      (hrest : Readable header cut ts) :
      Readable header cut (.block (body ++ [bracket.opener]) children offset :: ts)

end Token

/-- Brackets are plain bytes. -/
theorem Bracket.isPlain (b : Bracket) : Mode.IsPlain b.opener ∧ Mode.IsPlain b.closer := by
  cases b <;> decide

namespace Scan

open Token

/-- The tokens of a script have its marks. -/
theorem faithful_marks : Faithful Mode.code.marks where
  nil := Mode.marks_nil .code
  trim := Mode.marks_trim
  separated := by
    intro header text rest mode c hread hend
    have hrun := hread.run_eq
    obtain ⟨rfl, rfl⟩ | ⟨hmode, rfl⟩ := hend
    · rw [(Mode.marks_plain hrun (by decide) rest).1, Mode.marks_filler (by decide) (.inr rfl),
        List.nil_append]
    · exact (Mode.marks_line (hrun ▸ hmode) rest).1
  block := by
    intro header text inside after bracket hread hinside
    have hinsideRun := (hinside.reads after).run_eq
    rw [(Mode.marks_plain hread.run_eq bracket.isPlain.1 _).1,
      (Mode.marks_plain hread.run_eq bracket.isPlain.1 []).1,
      (Mode.marks_plain hinsideRun bracket.isPlain.2 _).1]
    simp

/-- Pending text that ends in code or in a line comment becomes a readable leaf. -/
theorem readable_flush_append {header cut : Bool} {text : Bytes} {position : Nat}
    {tokens : List Token} (hrun : (Mode.code.run text).LineBound)
    (hrest : Readable header cut tokens) :
    Readable header cut (flush text.reverse position ++ tokens) := by
  rw [flush, pendingText, List.reverse_reverse]
  split
  · exact hrest
  next hne =>
    exact .leaf (Bytes.trim_trim text) (fun hempty => absurd (List.isEmpty_iff.2 hempty) hne)
      (Mode.lineBound_run_trim hrun) hrest

/-- The end of a clause is readable. -/
theorem readable_endClause_append {cut : Bool} {clauses : Clauses} {text : Bytes} {position : Nat}
    {tokens : List Token} (hrun : (Mode.code.run text).LineBound)
    (hrest : Readable true cut tokens) :
    Readable true cut (endClause clauses text.reverse position ++ tokens) := by
  rw [endClause]
  split
  · split
    · exact hrest
    · exact .leaf rfl (fun _ => rfl) (.inl rfl) hrest
  · exact readable_flush_append hrun hrest

/-- The last text of a script is readable, wherever it ends. -/
theorem readable_flush {header : Bool} (text : Bytes) (position : Nat) :
    Readable header true (flush text.reverse position) := by
  rw [flush, pendingText, List.reverse_reverse]
  split
  · exact .nil
  next hne => exact .last (Bytes.trim_trim text) fun hempty => hne (List.isEmpty_iff.2 hempty)

/-- What ends a statement stands behind code or a line comment, and code follows it. -/
theorem EndsStatement.run_append {mode : Mode} {c : UInt8} {text rest : Bytes}
    (hend : EndsStatement mode c) (hrun : Mode.code.run text = mode) :
    (Mode.code.run text).LineBound ∧ Mode.code.run (text ++ c :: rest) = Mode.code.run rest := by
  obtain ⟨rfl, rfl⟩ | ⟨hmode, rfl⟩ := hend
  · exact ⟨.inl hrun, (Mode.marks_plain hrun (by decide) rest).2⟩
  · have hbound : (Mode.code.run text).LineBound := hrun ▸ hmode
    exact ⟨hbound, (Mode.marks_line hbound rest).2⟩

/-- The tokens of a text that is laid out are readable. -/
theorem Layout.readable {header cut : Bool} {clauses : Clauses} {position : Nat} {text : Bytes}
    {tokens : List Token} {pairs : List BracketPair}
    (h : Layout header clauses position text tokens pairs)
    (hsplit : clauses.split = true → header = true) (hheader : header = true → cut = false)
    (hcut : cut = false → Mode.code.run text = .code) : Readable header cut tokens := by
  induction h generalizing cut with
  | finish hread =>
    rw [← List.append_nil (ite ..)]
    split
    next h =>
      obtain rfl := hsplit h
      exact readable_endClause_append (.inl (hcut (hheader rfl))) .nil
    next =>
      cases cut with
      | true =>
        rw [List.append_nil]
        exact readable_flush _ _
      | false => exact readable_flush_append (.inl (hcut rfl)) .nil
  | clause hread _ ih =>
    obtain ⟨hbound, hrun⟩ := endsStatement_semicolon.run_append hread.run_eq
    exact readable_endClause_append hbound (ih (fun _ => rfl) hheader fun h => hrun ▸ hcut h)
  | statement hread hend _ ih =>
    obtain ⟨hbound, hrun⟩ := hend.run_append hread.run_eq
    exact readable_flush_append hbound (ih hsplit hheader fun h => hrun ▸ hcut h)
  | @block _ _ position text inside after bracket _ _ _ _ hread hinside _ _ ihChildren ihRest =>
    obtain ⟨lead, body, rfl, htitle, -, hlead, -⟩ := signature_spec bracket text position
    have hinsideRun := (hinside.reads after).run_eq
    have hbody : Mode.code.run body = .code := by
      rw [← (Mode.reads_space hlead.isSpaceByte).run_append, hread.run_eq]
    have htrim : Bytes.trim (body ++ [bracket.opener]) = body ++ [bracket.opener] := by
      rw [← htitle, pendingText, Bytes.trim_trim]
    have hafter : Mode.code.run
        (lead ++ body ++ bracket.opener :: (inside ++ bracket.closer :: after)) =
        Mode.code.run after := by
      rw [(Mode.marks_plain hread.run_eq bracket.isPlain.1 _).2,
        (Mode.marks_plain hinsideRun bracket.isPlain.2 _).2]
    rw [htitle] at ihChildren ⊢
    exact .block htrim hbody (ihChildren Bool.noConfusion (fun _ => rfl) fun _ => hinsideRun)
      (ihRest hsplit hheader fun h => hafter ▸ hcut h)

end Scan

namespace Token

open Mode

/-- What separates the clauses of a `for` header, or statements. -/
def separator (header : Bool) : UInt8 := if header then ';' else '\n'

/-- Entries, newest first, as they are written out. -/
def joined (header : Bool) (entries : List Bytes) : Bytes :=
  Bytes.join [separator header] entries.reverse

/-- The last of several pieces stands behind a separator. -/
theorem join_concat (c : UInt8) {pieces : List Bytes} (h : pieces ≠ []) (piece : Bytes) :
    Bytes.join [c] (pieces ++ [piece]) = Bytes.join [c] pieces ++ c :: piece := by
  rw [Bytes.join, Bytes.join]
  induction pieces with
  | nil => exact absurd rfl h
  | cons first pieces ih =>
    cases pieces with
    | nil => simp
    | cons next pieces =>
      rw [List.cons_append, List.cons_append, List.intercalate_cons_cons,
        ← List.cons_append, ih (by simp), List.intercalate_cons_cons]
      simp only [List.append_assoc]

/-- One entry is joined with nothing. -/
@[simp] theorem joined_singleton (header : Bool) (entry : Bytes) :
    joined header [entry] = entry := by
  simp [joined, Bytes.join]

/-- A new entry stands behind a separator. -/
theorem joined_cons (header : Bool) (entry : Bytes) {before : List Bytes} (h : before ≠ []) :
    joined header (entry :: before) = joined header before ++ separator header :: entry := by
  rw [joined, List.reverse_cons, join_concat _ (by simpa using h), joined]

/-- What continues the newest entry stands behind a blank. -/
theorem joined_extendNewest (header : Bool) (text : Bytes) {before : List Bytes} (h : before ≠ []) :
    joined header (extendNewest text before) = joined header before ++
      Char.toUInt8 ' ' :: text := by
  cases before with
  | nil => exact absurd rfl h
  | cons newest older =>
    rw [extendNewest_cons]
    cases older with
    | nil => rw [joined_singleton, joined_singleton]
    | cons entry older =>
      have hne : entry :: older ≠ [] := List.cons_ne_nil _ _
      rw [joined_cons _ _ hne, joined_cons _ _ hne, List.append_assoc, List.cons_append]

/-- Written text with the given marks that ends in code, or in a line comment if `commented`. -/
structure Settled (out : Bytes) (marked : List (UInt8 × ByteClass)) (commented : Bool) : Prop where
  marks_eq : Mode.code.marks out = marked
  run_eq : Mode.code.run out = if commented then .lineComment else .code

/-- Written text in which a line comment has swallowed a byte of code: the expected marks are those
of the text in front of that byte, and others that follow code. -/
def Swallowed (out : Bytes) (expected : List (UInt8 × ByteClass)) : Prop :=
  ∃ (front : Bytes) (c : UInt8) (rest : Bytes) (missing : List (UInt8 × ByteClass)),
    out = front ++ c :: rest ∧ Mode.code.run front = .lineComment ∧
    (c = ';' ∨ c = '=') ∧ expected = Mode.code.marks front ++ missing ∧ FollowsCode missing

variable {header commented : Bool} {out text entry : Bytes} {before : List Bytes} {c : UInt8}
  {marked expected : List (UInt8 × ByteClass)}

/-- Text settles in code or in a line comment. -/
theorem Settled.lineBound (h : Settled out marked commented) : (Mode.code.run out).LineBound := by
  rw [h.run_eq]
  cases commented
  · exact .inl rfl
  · exact .inr rfl

/-- A byte that leads to code behind settled text: a line break always, a semicolon or a blank
unless a comment is open. -/
def Leads (commented : Bool) (c : UInt8) : Prop :=
  c = '\n' ∨ commented = false ∧ (c = ';' ∨ c = ' ')

/-- What is written behind settled text and a byte that leads to code is read from code on. -/
theorem Settled.append (h : Settled out marked commented) (hc : Leads commented c) (text : Bytes) :
    Mode.code.marks (out ++ c :: text) = marked ++ Mode.code.marks text ∧
      Mode.code.run (out ++ c :: text) = Mode.code.run text := by
  rw [← h.marks_eq]
  rcases hc with rfl | ⟨rfl, hc⟩
  · exact marks_line h.lineBound text
  · have hplain : IsPlain c ∧ (isAsciiSpace c = true ∨ c = ';') := by
      rcases hc with rfl | rfl <;> decide
    have hcut := marks_plain h.run_eq hplain.1 text
    rwa [marks_filler hplain.1 hplain.2, List.nil_append] at hcut

/-- A byte that is swallowed stays swallowed. -/
theorem Swallowed.append (h : Swallowed out expected) (text : Bytes)
    (hmarked : FollowsCode marked) :
    Swallowed (out ++ text) (expected ++ marked) := by
  obtain ⟨front, c, rest, missing, rfl, hrun, hc, rfl, hmissing⟩ := h
  refine ⟨front, c, rest ++ text, missing ++ marked, ?_, hrun, hc, ?_, hmissing.append hmarked⟩
  · rw [List.append_assoc, List.cons_append]
  · rw [List.append_assoc]

/-- A byte is swallowed also when text is written in front. -/
theorem Settled.swallowed (h : Settled out marked commented) (hc : Leads commented c)
    (htext : Swallowed text expected) : Swallowed (out ++ c :: text) (marked ++ expected) := by
  obtain ⟨front, d, rest, missing, rfl, hrun, hd, rfl, hmissing⟩ := htext
  obtain ⟨hmarks, hfront⟩ := h.append hc front
  refine ⟨out ++ c :: front, d, rest, missing, ?_, hfront.trans hrun, hd, ?_, hmissing⟩
  · rw [List.append_assoc, List.cons_append]
  · rw [hmarks, List.append_assoc]

/-- Where a byte is swallowed the marks differ from the expected ones. -/
theorem Swallowed.marks_ne (h : Swallowed out expected) : Mode.code.marks out ≠ expected := by
  obtain ⟨front, c, rest, missing, rfl, hrun, hc, rfl, hmissing⟩ := h
  have hplain : IsPlain c ∧ isAsciiSpace c = false ∧ c ≠ '/' ∧ c ≠ '\n' := by
    rcases hc with rfl | rfl <;> decide
  have hread : Reads (fun _ _ _ => True) .code front _ (c :: rest) :=
    reads_of_lineBound (.inr hrun) hplain.1
  have hstep : ∀ next, Mode.lineComment.step c next = (.lineComment, false) := by
    intro next
    simp [step, hplain.2.2.2]
  have hmark : Mode.lineComment.marks [c] = [(c, .comment)] := by
    rw [marks_singleton hplain.1.1 (hstep none), if_neg]
    · rfl
    · simp [hplain.2.1, stepClass, byteClass]
  rw [hread.marks_append_ascii hplain.1.1, hrun, marks_cons hplain.1.1 (hstep _), hmark, Ne,
    List.append_cancel_left_eq]
  -- the swallowed byte is a comment now, but a comment that follows code starts with a slash
  rintro rfl
  exact hplain.2.2.1 (hmissing c rfl)

/-- Before the first entry nothing is written. -/
theorem Settled.of_nil (h : Settled (joined header []) marked commented) :
    marked = [] ∧ commented = false := by
  refine ⟨h.marks_eq.symm, ?_⟩
  cases commented with
  | false => rfl
  | true => exact Mode.noConfusion h.run_eq

/-- A comment that is open was written with an entry. -/
theorem Settled.before_ne_nil (h : Settled (joined header before) marked true) : before ≠ [] := by
  rintro rfl
  exact Bool.noConfusion h.of_nil.2

/-- The separator leads to code, unless a comment is open in a `for` header. -/
theorem leads_separator (h : commented = true → header = false) :
    Leads commented (separator header) := by
  cases commented with
  | true => exact .inl (by rw [h rfl]; rfl)
  | false =>
    cases header with
    | true => exact .inr ⟨rfl, .inl rfl⟩
    | false => exact .inl rfl

/-- A new entry is read from code on, unless a comment is open in a `for` header. -/
theorem Settled.cons (h : Settled (joined header before) marked commented)
    (hopen : commented = true → header = false) (entry : Bytes) :
    Mode.code.marks (joined header (entry :: before)) = marked ++ Mode.code.marks entry ∧
      Mode.code.run (joined header (entry :: before)) = Mode.code.run entry := by
  by_cases hbefore : before = []
  · subst hbefore
    obtain ⟨rfl, -⟩ := h.of_nil
    rw [joined_singleton, List.nil_append]
    exact ⟨rfl, rfl⟩
  · rw [joined_cons header entry hbefore]
    exact h.append (leads_separator hopen) entry

/-- What is swallowed in a new entry is swallowed in the whole. -/
theorem Settled.swallowed_cons (h : Settled (joined header before) marked commented)
    (hopen : commented = true → header = false) (hentry : Swallowed entry expected) :
    Swallowed (joined header (entry :: before)) (marked ++ expected) := by
  by_cases hbefore : before = []
  · subst hbefore
    obtain ⟨rfl, -⟩ := h.of_nil
    rwa [joined_singleton]
  · rw [joined_cons header entry hbefore]
    exact h.swallowed (leads_separator hopen) hentry

/-- What continues the newest entry is read from code on, unless a comment is open. -/
theorem Settled.extendNewest (h : Settled (joined header before) marked false)
    (hbefore : before ≠ []) (text : Bytes) :
    Mode.code.marks (joined header (extendNewest text before)) = marked ++ Mode.code.marks text ∧
      Mode.code.run (joined header (Token.extendNewest text before)) = Mode.code.run text := by
  rw [joined_extendNewest header text hbefore]
  exact h.append (.inr ⟨rfl, .inr rfl⟩) text

/-- A comment that is open in a `for` header swallows the semicolon in front of the next entry. -/
theorem Settled.cons_swallowed (h : Settled (joined true before) marked true) (entry : Bytes)
    (hexpected : FollowsCode expected) :
    Swallowed (joined true (entry :: before)) (marked ++ expected) := by
  have hbefore := h.before_ne_nil
  refine ⟨joined true before, Char.toUInt8 ';', entry, expected,
    joined_cons true entry hbefore, h.run_eq, .inl rfl, ?_, hexpected⟩
  rw [h.marks_eq]

/-- A blank does not end a line comment. -/
theorem Settled.blank (h : Settled out marked true) :
    Settled (out ++ [Char.toUInt8 ' ']) marked true := by
  have hread : Reads (fun _ _ _ => True) .code out _ [Char.toUInt8 ' '] :=
    reads_of_lineBound h.lineBound (by decide)
  have hblank : Mode.lineComment.marks [Char.toUInt8 ' '] = [] := by
    rw [marks_singleton (by decide) rfl, if_pos (.inl (by decide))]
  refine ⟨?_, ?_⟩
  · rw [hread.marks_append_ascii (by decide), h.run_eq, h.marks_eq, if_pos rfl,
      hblank, List.append_nil]
  · rw [hread.run_append, h.run_eq]
    rfl

/-- A comment that is open swallows an arrow that continues the entry. -/
theorem Settled.extendNewest_swallowed (h : Settled (joined header before) marked true)
    (harrow : text.startsWith arrow = true) (hexpected : FollowsCode expected) :
    Swallowed (joined header (Token.extendNewest text before)) (marked ++ expected) := by
  have hbefore := h.before_ne_nil
  have htext : text = Char.toUInt8 '=' :: Char.toUInt8 '>' :: text.drop 2 := eq_arrow_append harrow
  refine ⟨joined header before ++ [Char.toUInt8 ' '], Char.toUInt8 '=',
    Char.toUInt8 '>' :: text.drop 2, expected, ?_, h.blank.run_eq, .inr rfl, ?_, hexpected⟩
  · rw [joined_extendNewest header text hbefore, ← htext, List.append_assoc, List.singleton_append]
  · rw [h.blank.marks_eq]

/-- A new entry is written behind the others. -/
theorem joined_cons_append (header : Bool) (entry : Bytes) (before : List Bytes) :
    ∃ more, joined header (entry :: before) = joined header before ++ more := by
  by_cases hbefore : before = []
  · subst hbefore
    exact ⟨entry, joined_singleton header entry⟩
  · exact ⟨_, joined_cons header entry hbefore⟩

/-- What continues the newest entry is written behind all of them. -/
theorem joined_extendNewest_append (header : Bool) (text : Bytes) (before : List Bytes) :
    ∃ more, joined header (extendNewest text before) = joined header before ++ more := by
  by_cases hbefore : before = []
  · subst hbefore
    exact ⟨[], rfl⟩
  · exact ⟨_, joined_extendNewest header text hbefore⟩

/-- The entry of a leaf that the scanner made. -/
theorem entries_leaf {offset : Nat} (htrim : text.trim = text)
    (hempty : text = [] → header = true) : entries header before (.leaf text offset) =
      if text.startsWith arrow && !before.isEmpty then extendNewest text before
      else text :: before := by
  rw [entries, htrim]
  by_cases hnil : text = []
  · subst hnil
    have harrow : Bytes.startsWith [] arrow = false := by decide
    simp [hempty rfl, harrow]
  · simp [hnil]

/-- What a block is written out as, given the title that is shown. -/
def blockEntry (title signature : Bytes) (children : List Token) : Bytes :=
  title ++ Char.toUInt8 '\n' ::
    (joined (isForHeader title) (entriesAll (isForHeader title) [] children) ++
    Char.toUInt8 '\n' :: signatureCloser signature)

/-- The entries of a block that the scanner made. -/
theorem entries_block {signature : Bytes} {children : List Token} {offset : Nat}
    (htrim : signature.trim = signature) :
    entries header before (.block signature children offset) =
      if signature.startsWith arrow && !before.isEmpty then
        blockEntry (Bytes.trim (signature.drop 2)) signature children :: extendNewest arrow before
      else blockEntry signature signature children :: before := by
  have hseparator : ∀ clauses : Bool, (if clauses = true then (";" : Bytes) else "\n") =
      [separator clauses] := by
    intro clauses
    cases clauses <;> rfl
  rw [entries, htrim, lines_eq, hseparator]
  split
  · rfl
  · rfl

/-- A token adds to what is written. -/
theorem joined_entries_append (header : Bool) (before : List Bytes) (t : Token) :
    ∃ more, joined header (entries header before t) = joined header before ++ more := by
  cases t with
  | leaf text offset =>
    rw [entries]
    split
    · split
      · exact joined_cons_append ..
      · exact ⟨[], (List.append_nil _).symm⟩
    · split
      · exact joined_extendNewest_append ..
      · exact joined_cons_append ..
  | block signature children offset =>
    rw [entries]
    split
    · obtain ⟨first, hfirst⟩ := joined_extendNewest_append header arrow before
      obtain ⟨more, hmore⟩ := joined_cons_append header _ (extendNewest arrow before)
      exact ⟨first ++ more, by rw [hmore, hfirst, List.append_assoc]⟩
    · exact joined_cons_append ..

/-- A sequence of tokens adds to what is written. -/
theorem joined_entriesAll_append (header : Bool) (before : List Bytes) (ts : List Token) :
    ∃ more, joined header (entriesAll header before ts) = joined header before ++ more := by
  induction ts generalizing before with
  | nil => exact ⟨[], by rw [entriesAll, List.append_nil]⟩
  | cons t ts ih =>
    obtain ⟨first, hfirst⟩ := joined_entries_append header before t
    obtain ⟨more, hmore⟩ := ih (entries header before t)
    exact ⟨first ++ more, by rw [entriesAll, hmore, hfirst, List.append_assoc]⟩

/-- An arrow is code, and so is what follows it at first. -/
theorem marks_arrow_append (text : Bytes) :
    Mode.code.marks (arrow ++ text) = Mode.code.marks arrow ++ Mode.code.marks text ∧
      Mode.code.run (arrow ++ text) = Mode.code.run text := by
  have hsplit : ∀ rest, arrow ++ rest = [] ++ Char.toUInt8 '=' ::
      ([] ++ Char.toUInt8 '>' :: rest) := fun _ => rfl
  have hcut : ∀ rest, Mode.code.marks (arrow ++ rest) =
      Mode.code.marks [Char.toUInt8 '='] ++
      (Mode.code.marks [Char.toUInt8 '>'] ++ Mode.code.marks rest) := by
    intro rest
    rw [hsplit, (marks_plain rfl (by decide) _).1, (marks_plain rfl (by decide) _).1]
    rfl
  refine ⟨?_, ?_⟩
  · have harrow := hcut []
    rw [List.append_nil] at harrow
    rw [hcut, harrow]
    simp
  · rw [hsplit, (marks_plain rfl (by decide) _).2, (marks_plain rfl (by decide) _).2]

/-- The arrow at the start of a signature stands in front of its bracket. -/
theorem body_eq_arrow_append {bracket : Bracket} {body : Bytes}
    (harrow : Bytes.startsWith (body ++ [bracket.opener]) arrow = true) :
    ∃ back, body = arrow ++ back := by
  have hsignature := eq_arrow_append harrow
  have hopener : bracket.opener ≠ '=' ∧ bracket.opener ≠ '>' := by cases bracket <;> decide
  match body with
  | [] => exact absurd (List.cons.inj hsignature).1 hopener.1
  | [c] => exact absurd (List.cons.inj (List.cons.inj hsignature).2).1 hopener.2
  | c :: d :: back =>
    obtain ⟨hc, hrest⟩ := List.cons.inj hsignature
    exact ⟨back, by rw [hc, (List.cons.inj hrest).1]; rfl⟩

/-- A signature without the arrow at its start: it has the marks behind the arrow, and opens a `for`
header as before. -/
theorem title_spec {bracket : Bracket} {body : Bytes}
    (htrim : Bytes.trim (body ++ [bracket.opener]) = body ++ [bracket.opener])
    (hrun : Mode.code.run body = .code)
    (harrow : Bytes.startsWith (body ++ [bracket.opener]) arrow = true) :
    ∃ inner, Bytes.trim ((body ++ [bracket.opener]).drop 2) = inner ++ [bracket.opener] ∧
      Mode.code.run inner = .code ∧
      Mode.code.marks (body ++ [bracket.opener]) =
        Mode.code.marks arrow ++ Mode.code.marks (inner ++ [bracket.opener]) ∧
      isForHeader (inner ++ [bracket.opener]) = isForHeader (body ++ [bracket.opener]) := by
  obtain ⟨back, rfl⟩ := body_eq_arrow_append harrow
  have hdrop : (arrow ++ back ++ [bracket.opener]).drop 2 = back ++ [bracket.opener] := rfl
  obtain ⟨lead, inner, rfl, -, htitle, hlead, -⟩ := Bytes.trim_snoc back bracket.opener_ascii.2
  refine ⟨inner, by rw [hdrop, htitle], ?_, ?_, ?_⟩
  · rw [(marks_arrow_append _).2, (reads_space hlead.isSpaceByte).run_append] at hrun
    exact hrun
  · rw [List.append_assoc, (marks_arrow_append _).1, ← htitle, marks_trim]
  · have hbreaks : ∀ c ∈ arrow ++ lead, IsWordBreak c := by
      intro c hc
      rcases List.mem_append.1 hc with hc | hc
      · have hboth : arrow.all (fun d => !isNamePart d && d != Char.toUInt8 '.') = true := by decide
        simpa [IsWordBreak] using List.all_eq_true.1 hboth c hc
      · exact (hlead.isSpaceByte c hc).isWordBreak
    have hsplit : arrow ++ (lead ++ inner) ++ [bracket.opener] = (arrow ++ lead) ++
        (inner ++ [bracket.opener]) := by
      simp
    have htitleTrim : Bytes.trim (inner ++ [bracket.opener]) = inner ++ [bracket.opener] := by
      rw [← htitle, Bytes.trim_trim]
    rw [hsplit] at htrim ⊢
    exact (isForHeader_append hbreaks (by simp) htitleTrim htrim).symm

mutual

/-- The marks of a token follow code. -/
theorem followsCode_collect : (t : Token) → FollowsCode (collect Mode.code.marks t)
  | .leaf text _ => followsCode_marks text
  | .block signature children _ =>
    (followsCode_marks signature).append
      ((followsCode_collectAll children).append (followsCode_marks _))

/-- The marks of a sequence of tokens follow code. -/
theorem followsCode_collectAll : (ts : List Token) → FollowsCode (collectAll Mode.code.marks ts)
  | [] => followsCode_marks []
  | t :: ts => (followsCode_collect t).append (followsCode_collectAll ts)

end

/-- How text that was written out compares with the expected marks: something in it is `lost` to a
comment, or it has these marks. Unless it may be `cut` off, it ends in code or in a line comment. -/
structure Written (lost cut : Bool) (out : Bytes) (expected : List (UInt8 × ByteClass)) : Prop where
  swallowed : lost = true → Swallowed out expected
  marks_eq : lost = false → Mode.code.marks out = expected
  lineBound : lost = false → cut = false → (Mode.code.run out).LineBound

/-- A leaf behind settled text. -/
theorem Settled.leaf {offset : Nat} (h : Settled (joined header before) marked commented)
    (htrim : text.trim = text) (hempty : text = [] → header = true) :
    ((commented && (header || text.startsWith arrow)) = true →
      Swallowed (joined header (entries header before (.leaf text offset)))
        (marked ++ Mode.code.marks text)) ∧
    ((commented && (header || text.startsWith arrow)) = false →
      Mode.code.marks (joined header (entries header before (.leaf text offset))) =
        marked ++ Mode.code.marks text ∧
      Mode.code.run (joined header (entries header before (.leaf text offset))) =
        Mode.code.run text) := by
  rw [entries_leaf htrim hempty]
  have hfollows := followsCode_marks text
  refine ⟨fun hlost => ?_, fun hkept => ?_⟩
  · obtain ⟨rfl, hnext⟩ := Bool.and_eq_true_iff.1 hlost
    have hbefore := h.before_ne_nil
    cases harrow : text.startsWith arrow with
    | true =>
      rw [if_pos (by simp [hbefore])]
      exact h.extendNewest_swallowed harrow hfollows
    | false =>
      obtain rfl : header = true := by simpa [harrow] using hnext
      exact h.cons_swallowed text hfollows
  · split
    next hcontinues =>
      obtain ⟨harrow, hbefore⟩ := Bool.and_eq_true_iff.1 hcontinues
      obtain rfl : commented = false := by simpa [harrow] using hkept
      exact h.extendNewest (by simpa using hbefore) text
    next => exact h.cons (fun hcommented => by simp_all) text

/-- The entry of a block whose content was written out. -/
theorem Written.blockEntry {bracket : Bracket} {inner signature : Bytes}
    {children : List Token} {lost : Bool} (hrun : Mode.code.run inner = .code)
    (hcloser : signatureCloser signature = [bracket.closer])
    (h : Written lost false (joined (isForHeader (inner ++ [bracket.opener]))
      (entriesAll (isForHeader (inner ++ [bracket.opener])) [] children)) expected) :
    (lost = true → Swallowed (blockEntry (inner ++ [bracket.opener]) signature children)
      (Mode.code.marks (inner ++ [bracket.opener]) ++
        (expected ++ Mode.code.marks (signatureCloser signature)))) ∧
    (lost = false → Settled (Token.blockEntry (inner ++ [bracket.opener]) signature children)
      (Mode.code.marks (inner ++ [bracket.opener]) ++
        (expected ++ Mode.code.marks (signatureCloser signature)))
      false) := by
  have htitle : Settled (inner ++ [bracket.opener])
      (Mode.code.marks (inner ++ [bracket.opener])) false :=
    ⟨rfl, (marks_plain hrun bracket.isPlain.1 []).2⟩
  refine ⟨fun hlost => ?_, fun hkept => ?_⟩
  · exact htitle.swallowed (.inl rfl) ((h.swallowed hlost).append _ (followsCode_marks _))
  · obtain ⟨hmarks, hend⟩ := marks_line (h.lineBound hkept rfl) (signatureCloser signature)
    rw [h.marks_eq hkept] at hmarks
    obtain ⟨hmarks', hend'⟩ := htitle.append (.inl rfl)
      (joined (isForHeader (inner ++ [bracket.opener]))
        (entriesAll (isForHeader (inner ++ [bracket.opener])) [] children) ++
          Char.toUInt8 '\n' :: signatureCloser signature)
    refine ⟨by rw [Token.blockEntry, hmarks', hmarks], ?_⟩
    have hclosed : Mode.code.run [bracket.closer] = .code := by cases bracket <;> rfl
    rw [Token.blockEntry, hend', hend, hcloser, hclosed]
    rfl

/-- A signature that ends with an opening bracket is closed by the other one. -/
theorem signatureCloser_of_trim {bracket : Bracket} {body : Bytes}
    (htrim : Bytes.trim (body ++ [bracket.opener]) = body ++ [bracket.opener]) :
    signatureCloser (body ++ [bracket.opener]) = [bracket.closer] := by
  have hbracket : signatureBracket? (body ++ [bracket.opener]) = some bracket := by
    rw [signatureBracket?, htrim]
    simp
  rw [signatureCloser, hbracket]

/-- A block behind settled text, if nothing in front of it is swallowed. -/
theorem Settled.block {bracket : Bracket} {body : Bytes} {children : List Token}
    {offset : Nat} {lost : Bool} (h : Settled (joined header before) marked commented)
    (htrim : Bytes.trim (body ++ [bracket.opener]) = body ++ [bracket.opener])
    (hrun : Mode.code.run body = .code)
    (hkept : (commented && (header || Bytes.startsWith (body ++ [bracket.opener]) arrow)) = false)
    (hchildren : Written lost false (joined (isForHeader (body ++ [bracket.opener]))
      (entriesAll (isForHeader (body ++ [bracket.opener])) [] children))
        (collectAll Mode.code.marks children)) :
    (lost = true →
      Swallowed
        (joined header (entries header before (.block (body ++ [bracket.opener]) children offset)))
        (marked ++ collect Mode.code.marks (.block (body ++ [bracket.opener]) children offset))) ∧
    (lost = false →
      Settled
        (joined header (entries header before (.block (body ++ [bracket.opener]) children offset)))
        (marked ++ collect Mode.code.marks (.block (body ++ [bracket.opener]) children offset))
        false) := by
  have hcloser := signatureCloser_of_trim htrim
  rw [entries_block htrim, collect]
  split
  next hcontinues =>
    obtain ⟨harrow, hbefore⟩ := Bool.and_eq_true_iff.1 hcontinues
    obtain rfl : commented = false := by simpa [harrow] using hkept
    obtain ⟨inner, htitle, hinner, hmarks, hheader⟩ := title_spec htrim hrun harrow
    obtain ⟨harrowMarks, harrowRun⟩ := h.extendNewest (by simpa using hbefore) arrow
    have hsettled : Settled (joined header (Token.extendNewest arrow before))
        (marked ++ Mode.code.marks arrow) false := ⟨harrowMarks, harrowRun⟩
    rw [← hheader] at hchildren
    obtain ⟨hlost, hgood⟩ := hchildren.blockEntry hinner hcloser
    rw [htitle, hmarks, List.append_assoc (Mode.code.marks arrow), ← List.append_assoc marked]
    refine ⟨fun hl => hsettled.swallowed_cons Bool.noConfusion (hlost hl), fun hl => ?_⟩
    obtain ⟨hentry, hend⟩ := hsettled.cons Bool.noConfusion
      (Token.blockEntry (inner ++ [bracket.opener]) (body ++ [bracket.opener]) children)
    exact ⟨by rw [hentry, (hgood hl).marks_eq], hend.trans (hgood hl).run_eq⟩
  next =>
    have hopen : commented = true → header = false := by
      rintro rfl
      simpa using (Bool.or_eq_false_iff.1 (by simpa using hkept)).1
    obtain ⟨hlost, hgood⟩ := hchildren.blockEntry hrun hcloser
    refine ⟨fun hl => h.swallowed_cons hopen (hlost hl), fun hl => ?_⟩
    obtain ⟨hentry, hend⟩ := h.cons hopen
      (Token.blockEntry (body ++ [bracket.opener]) (body ++ [bracket.opener]) children)
    exact ⟨by rw [hentry, (hgood hl).marks_eq], hend.trans (hgood hl).run_eq⟩

/-- A block whose arrow, or whose semicolon in front, is swallowed. -/
theorem Settled.block_swallowed {signature : Bytes} {children : List Token} {offset : Nat}
    (h : Settled (joined header before) marked commented) (htrim : signature.trim = signature)
    (hlost : (commented && (header || signature.startsWith arrow)) = true)
    (hexpected : FollowsCode expected) :
    Swallowed (joined header (entries header before (.block signature children offset)))
      (marked ++ expected) := by
  obtain ⟨rfl, hnext⟩ := Bool.and_eq_true_iff.1 hlost
  have hbefore := h.before_ne_nil
  rw [entries_block htrim]
  cases harrow : signature.startsWith arrow with
  | true =>
    have hself : Bytes.startsWith arrow arrow = true := by decide
    have hnone : FollowsCode [] := followsCode_marks []
    rw [if_pos (by simp [hbefore])]
    obtain ⟨more, hmore⟩ := joined_cons_append header
      (blockEntry (Bytes.trim (signature.drop 2)) signature children)
      (Token.extendNewest arrow before)
    rw [hmore, ← List.append_nil (marked ++ expected)]
    exact (h.extendNewest_swallowed hself hexpected).append more hnone
  | false =>
    obtain rfl : header = true := by simpa [harrow] using hnext
    exact h.cons_swallowed _ hexpected

/-- A sequence is written out token by token: what its first token loses is lost, and otherwise the
rest decides. -/
theorem Written.cons {cut : Bool} {t : Token} {ts : List Token} {lost : Bool}
    (hlost : swallowsAll header commented (t :: ts) =
      (lost || swallowsAll header (endsInComment t) ts))
    (hswallowed : lost = true →
      Swallowed (joined header (entries header before t)) (marked ++ collect Mode.code.marks t))
    (hrest : lost = false → Written (swallowsAll header (endsInComment t) ts) cut
      (joined header (entriesAll header (entries header before t) ts))
      (marked ++ collect Mode.code.marks t ++ collectAll Mode.code.marks ts)) :
    Written (swallowsAll header commented (t :: ts)) cut
      (joined header (entriesAll header before (t :: ts)))
      (marked ++ collectAll Mode.code.marks (t :: ts)) := by
  rw [hlost, entriesAll, collectAll, ← List.append_assoc]
  cases lost with
  | false => exact hrest rfl
  | true =>
    obtain ⟨more, hmore⟩ := joined_entriesAll_append header (entries header before t) ts
    rw [hmore]
    exact ⟨fun _ => (hswallowed rfl).append more (followsCode_collectAll ts), Bool.noConfusion,
      Bool.noConfusion⟩

/-- Readable tokens are written out with their marks behind settled text, unless something is
swallowed. -/
theorem Readable.written {cut : Bool} {ts : List Token} (hread : Readable header cut ts)
    (h : Settled (joined header before) marked commented) :
    Written (swallowsAll header commented ts) cut (joined header (entriesAll header before ts))
      (marked ++ collectAll Mode.code.marks ts) := by
  induction hread generalizing before marked commented with
  | nil =>
    rw [entriesAll, collectAll, List.append_nil]
    exact ⟨Bool.noConfusion, fun _ => h.marks_eq, fun _ _ => h.lineBound⟩
  | @last header text offset htrim hne =>
    obtain ⟨hlost, hkept⟩ := h.leaf htrim fun hempty => absurd hempty hne
    refine Written.cons (by simp [swallowsAll, swallows, head]) hlost fun hk => ?_
    rw [entriesAll, collectAll, List.append_nil]
    exact ⟨Bool.noConfusion, fun _ => (hkept hk).1, fun _ hcut => Bool.noConfusion hcut⟩
  | @leaf header cut text offset ts htrim hempty hrun _ ih =>
    obtain ⟨hlost, hkept⟩ := h.leaf htrim hempty
    refine Written.cons (by simp [swallowsAll, swallows, head]) hlost fun hk =>
      ih ⟨(hkept hk).1, ?_⟩
    rw [(hkept hk).2]
    rcases hrun with hcode | hcomment
    · simp [endsInComment, hcode]
    · simp [endsInComment, hcomment]
  | @block header cut bracket body offset children ts htrim hrun _ _ ihChildren ihRest =>
    have hempty : Settled (joined (isForHeader (body ++ [bracket.opener])) []) [] false :=
      ⟨rfl, rfl⟩
    have hchildren := ihChildren hempty
    rw [List.nil_append] at hchildren
    -- what is lost in front of the block is told apart from what is lost inside it
    cases hfront : commented && (header || Bytes.startsWith (body ++ [bracket.opener]) arrow) with
    | true =>
      have hlost : swallowsAll header commented
          (.block (body ++ [bracket.opener]) children offset :: ts) =
          (true ||
            swallowsAll header
            (endsInComment (.block (body ++ [bracket.opener]) children offset)) ts) := by
        simp [swallowsAll, head, hfront]
      exact Written.cons hlost (fun _ => h.block_swallowed htrim hfront (followsCode_collect _))
        Bool.noConfusion
    | false =>
      obtain ⟨hlost, hkept⟩ := h.block htrim hrun hfront hchildren
      exact Written.cons (by simp [swallowsAll, swallows, head, hfront]) hlost
        fun hk => ihRest (hkept hk)

end Token

namespace Scan

open Token

/-- What a script is written out as, with the marks of the script unless something is swallowed. -/
theorem written_render {limit : Nat} {source : Bytes} {tokens : List Token}
    (h : scan limit source = .ok tokens) :
    Written (swallowsAll false false tokens) true (render tokens) (Mode.code.marks source) := by
  obtain ⟨pairs, hlayout⟩ := layout_of_scan h
  have hreadable : Readable false true tokens :=
    hlayout.readable Bool.noConfusion Bool.noConfusion Bool.noConfusion
  have hnothing : Settled (joined false []) [] false := ⟨rfl, rfl⟩
  have hwritten := hreadable.written hnothing
  rw [List.nil_append, hlayout.collectAll_eq faithful_marks] at hwritten
  exact hwritten

/-- Rendering keeps code, strings and comments apart exactly when no line comment stands where it
swallows what follows: the script and what it is written out as then have the same marks. -/
theorem marks_render_tokenize_iff {source : Bytes} {tokens : List Token}
    (h : tokenize source = .ok tokens) :
    Mode.code.marks (render tokens) = Mode.code.marks source ↔
      swallowsAll false false tokens = false := by
  have hwritten := written_render h
  constructor
  · intro hmarks
    cases hlost : swallowsAll false false tokens with
    | false => rfl
    | true => exact absurd hmarks (hwritten.swallowed hlost).marks_ne
  · exact hwritten.marks_eq

/-- Comments that end where a line break is written: between statements, and in the last clause of a
loop. -/
theorem marks_render_tokenize_iff_kept :
    tokenize "a//x\nfor(;;b//y\n)c" =
      .ok [.leaf "a//x" 0, .block "for(" [.leaf [] 9, .leaf [] 10, .leaf "b//y" 11] 5,
        .leaf "c" 17] ∧
    Mode.code.marks (render
        [.leaf "a//x" 0, .block "for(" [.leaf [] 9, .leaf [] 10, .leaf "b//y" 11] 5,
          .leaf "c" 17]) =
      Mode.code.marks "a//x\nfor(;;b//y\n)c" := by
  have h : tokenize "a//x\nfor(;;b//y\n)c" =
      .ok [.leaf "a//x" 0, .block "for(" [.leaf [] 9, .leaf [] 10, .leaf "b//y" 11] 5,
        .leaf "c" 17] := by decide +kernel
  exact ⟨h, (marks_render_tokenize_iff h).2 (by decide +kernel)⟩

/-- A comment in the first clause of a loop swallows the next one: the line break behind it is lost,
and the semicolon does not end it. -/
theorem marks_render_loop_ne :
    tokenize "for(a//x\n;b)" = .ok [.block "for(" [.leaf "a//x" 4, .leaf "b" 10] 0] ∧
    render [.block "for(" [.leaf "a//x" 4, .leaf "b" 10] 0] = "for(\na//x;b\n)" ∧
    Mode.code.marks "for(\na//x;b\n)" ≠ Mode.code.marks "for(a//x\n;b)" := by
  have h : tokenize "for(a//x\n;b)" =
      .ok [.block "for(" [.leaf "a//x" 4, .leaf "b" 10] 0] := by decide +kernel
  have hrender : render [.block "for(" [.leaf "a//x" 4, .leaf "b" 10] 0] = "for(\na//x;b\n)" := by
    decide +kernel
  refine ⟨h, hrender, ?_⟩
  rw [← hrender]
  exact ((written_render h).swallowed (by decide +kernel)).marks_ne

end Scan

end TagScript
