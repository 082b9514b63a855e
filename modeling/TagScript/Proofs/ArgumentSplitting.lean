import TagScript.Proofs.Arity
import TagScript.Proofs.TagStripping

/-!
# Where an argument list is split

An argument list should be split at the commas outside its string literals, and blank arguments
should not count. `Argument.outerArguments` says so with a reader that knows nothing but string
literals: a quote opens one, the same quote closes it, and a backslash inside takes the next byte
with it.

The list is split at the commas among its lexemes instead, and three things can go wrong. A list
that starts with a comma is split at every comma. A backslash before a line break is no escape to
a lexeme, so a string literal with one is not read as a whole. And an argument that is blank, but
holds other white space than blanks, tabs and line breaks, is kept. If nothing of this happens the
list is split as it should be.
-/

namespace TagScript

open Bytes

/-- Where a reader of an argument list stands. -/
inductive Literal where
  | outside
  | inside (quote : UInt8)
  /-- Behind a backslash inside a literal. -/
  | escaped (quote : UInt8)
  deriving DecidableEq, Repr

namespace Literal

/-- Where the reader stands after one more byte. -/
def step : Literal → UInt8 → Literal
  | .outside, c => if isQuote c then .inside c else .outside
  | .inside quote, c =>
    if c = '\\' then .escaped quote else if c = quote then .outside else .inside quote
  | .escaped quote, _ => .inside quote

/-- Where the reader stands after a text. If this is outside, every literal of the text is
closed. -/
def run (literal : Literal) (text : Bytes) : Literal := text.foldl step literal

/-- Whether the next byte is escaped. -/
def isEscaped : Literal → Bool
  | .escaped _ => true
  | _ => false

/-- Whether a backslash inside a literal stands before a line break. -/
def escapesLine (literal : Literal) : Bytes → Bool
  | [] => false
  | c :: text => (literal.isEscaped && c = '\n') || escapesLine (literal.step c) text

variable {literal : Literal} {text : Bytes}

/-- A text is read byte by byte. -/
theorem run_cons (literal : Literal) (c : UInt8) (text : Bytes) :
    literal.run (c :: text) = (literal.step c).run text := rfl

/-- A text that goes on is read from the state that its front leads to. -/
theorem run_append (literal : Literal) (text more : Bytes) :
    literal.run (text ++ more) = (literal.run text).run more := List.foldl_append

/-- A line break is escaped in a text where it is in one of its parts, each read in its place. -/
theorem escapesLine_append (literal : Literal) (text more : Bytes) :
    literal.escapesLine (text ++ more) =
      (literal.escapesLine text || (literal.run text).escapesLine more) := by
  induction text generalizing literal with
  | nil => rfl
  | cons c text ih => rw [List.cons_append, escapesLine, ih, escapesLine, run_cons, Bool.or_assoc]

/-- Without a quote a reader stays outside. -/
theorem run_outside (h : ∀ c ∈ text, isQuote c = false) : run .outside text = .outside := by
  induction text with
  | nil => rfl
  | cons c text ih =>
    rw [List.forall_mem_cons] at h
    rw [run_cons, step, h.1]
    exact ih h.2

end Literal

namespace Argument

/-- The pieces between the commas outside string literals. -/
def outerPieces (literal : Literal) : Bytes → List Bytes
  | [] => [[]]
  | c :: text =>
    if literal = .outside ∧ c = ',' then [] :: outerPieces .outside text
    else match outerPieces (literal.step c) text with
      | [] => [[c]]
      | piece :: rest => (c :: piece) :: rest

/-- What an argument list should be split into. -/
def outerArguments (text : Bytes) : List Bytes :=
  ((outerPieces .outside text).map trim).filter (!·.isEmpty)

/-- A text has an outer piece. -/
theorem outerPieces_ne_nil (literal : Literal) (text : Bytes) : outerPieces literal text ≠ [] := by
  cases text with
  | nil => simp [outerPieces]
  | cons c text =>
    rw [outerPieces]
    split
    · simp
    · split <;> simp

/-- A byte that is no comma outside of literals goes with the first piece behind it. -/
theorem outerPieces_cons {literal : Literal} {c : UInt8}
    (h : ¬ (literal = .outside ∧ c = Char.toUInt8 ',')) (text : Bytes) :
    ∃ first rest, outerPieces (literal.step c) text = first :: rest ∧
      outerPieces literal (c :: text) = (c :: first) :: rest := by
  obtain ⟨first, rest, hpieces⟩ :=
    List.exists_cons_of_ne_nil (outerPieces_ne_nil (literal.step c) text)
  exact ⟨first, rest, hpieces, by rw [outerPieces, if_neg h, hpieces]⟩

/-- Joined with commas, the pieces are the text. -/
theorem join_outerPieces (literal : Literal) (text : Bytes) :
    join [Char.toUInt8 ','] (outerPieces literal text) = text := by
  induction text generalizing literal with
  | nil => rfl
  | cons c text ih =>
    by_cases hcut : literal = .outside ∧ c = Char.toUInt8 ','
    · have hrest := ih .outside
      obtain ⟨first, rest, hpieces⟩ := List.exists_cons_of_ne_nil (outerPieces_ne_nil .outside text)
      rw [hpieces, Lexeme.join_eq] at hrest
      rw [outerPieces, if_pos hcut, hpieces, Lexeme.join_eq, hcut.2, ← hrest]
      rfl
    · obtain ⟨first, rest, hpieces, hcons⟩ := outerPieces_cons hcut text
      have hrest := ih (literal.step c)
      rw [hpieces, Lexeme.join_eq] at hrest
      rw [hcons, Lexeme.join_eq, ← hrest]
      rfl

/-- A quote is plain text and no white space. -/
theorem spec_of_isQuote {c : UInt8} (h : isQuote c = true) :
    ¬ IsSpaceByte c ∧ Lexeme.isBlankByte c = false ∧ ¬ 0x80 ≤ c := by
  simp only [isQuote, Bool.or_eq_true, decide_eq_true_eq] at h
  rcases h with (rfl | rfl) | rfl <;> decide

/-- Every comma of a text stands behind a quote. -/
def CommasOpened (text : Bytes) : Prop :=
  ∀ before after, text = before ++ Char.toUInt8 ',' :: after → ∃ c ∈ before, isQuote c = true

/-- Every comma of a text stands in front of a quote. -/
def CommasClosed (text : Bytes) : Prop :=
  ∀ before after, text = before ++ Char.toUInt8 ',' :: after → ∃ c ∈ after, isQuote c = true

/-- A comma is kept in a piece only behind the quote of its literal. -/
theorem commasOpened_of_outerPieces {literal : Literal} {text first : Bytes} {rest : List Bytes}
    (h : outerPieces literal text = first :: rest) :
    (literal = .outside → CommasOpened first) ∧ ∀ piece ∈ rest, CommasOpened piece := by
  induction text generalizing literal first rest with
  | nil =>
    obtain ⟨rfl, rfl⟩ := List.cons.inj h
    simp [CommasOpened]
  | cons c text ih =>
    by_cases hcut : literal = .outside ∧ c = Char.toUInt8 ','
    · rw [outerPieces, if_pos hcut] at h
      obtain ⟨rfl, rfl⟩ := List.cons.inj h
      obtain ⟨next, more, hnext⟩ := List.exists_cons_of_ne_nil (outerPieces_ne_nil .outside text)
      obtain ⟨hfirst, hrest⟩ := ih hnext
      rw [hnext, List.forall_mem_cons]
      exact ⟨by simp [CommasOpened], hfirst rfl, hrest⟩
    · obtain ⟨next, more, hnext, hcons⟩ := outerPieces_cons hcut text
      rw [hcons] at h
      obtain ⟨rfl, rfl⟩ := List.cons.inj h
      obtain ⟨hfirst, hrest⟩ := ih hnext
      refine ⟨fun houtside before after hpiece => ?_, hrest⟩
      subst houtside
      cases before with
      | nil => exact absurd ⟨rfl, (List.cons.inj hpiece).1⟩ hcut
      | cons d before =>
        obtain ⟨rfl, hbehind⟩ := List.cons.inj hpiece
        by_cases hquote : isQuote c = true
        · exact ⟨c, List.mem_cons_self .., hquote⟩
        · obtain ⟨q, hq, hquoted⟩ := hfirst (by simp [Literal.step, hquote]) before after hbehind
          exact ⟨q, List.mem_cons_of_mem _ hq, hquoted⟩

/-- In a list every comma that is kept stands behind a quote. -/
theorem commasOpened_of_mem_outerPieces {text piece : Bytes}
    (h : piece ∈ outerPieces .outside text) :
    CommasOpened piece := by
  obtain ⟨first, rest, hpieces⟩ := List.exists_cons_of_ne_nil (outerPieces_ne_nil .outside text)
  obtain ⟨hfirst, hrest⟩ := commasOpened_of_outerPieces hpieces
  rw [hpieces] at h
  rcases List.mem_cons.1 h with rfl | h
  · exact hfirst rfl
  · exact hrest piece h

/-- An argument with a comma in it is another one than the argument that is cut at this comma. -/
theorem arguments_ne {piece other more : Bytes} {rest behind : List Bytes}
    (hopened : CommasOpened other) (h : other = piece ++ Char.toUInt8 ',' :: more) :
    ((piece :: rest).map trim).filter (!·.isEmpty) ≠
      ((other :: behind).map trim).filter (!·.isEmpty) := by
  intro hlists
  have hcomma : ¬ IsSpaceByte (Char.toUInt8 ',') := by decide
  -- the quote in front of the comma keeps both from being blank
  obtain ⟨q, hq, hquote⟩ := hopened piece more h
  have hspace := (spec_of_isQuote hquote).1
  have hpiece : trim piece ≠ [] := List.ne_nil_of_mem (mem_trim hq hspace)
  have hother : trim other ≠ [] :=
    List.ne_nil_of_mem (mem_trim (h ▸ List.mem_append_left _ hq) hspace)
  rw [List.map_cons, List.map_cons, List.filter_cons_of_pos (by simpa using hpiece),
    List.filter_cons_of_pos (by simpa using hother)] at hlists
  have hcount := congrArg (List.count (Char.toUInt8 ',')) (List.cons.inj hlists).1
  rw [count_trim hcomma, count_trim hcomma, h, List.count_append, List.count_cons_self] at hcount
  omega

/-- If two joined texts are equal, the first pieces of both are, or one goes on behind a comma. -/
theorem first_piece_cases {piece other : Bytes} {rest behind : List Bytes}
    (h : piece ++ Lexeme.behind rest = other ++ Lexeme.behind behind) :
    piece = other ∧ Lexeme.behind rest = Lexeme.behind behind ∨
      (∃ more, other = piece ++ Char.toUInt8 ',' :: more) ∨
      ∃ more, piece = other ++ Char.toUInt8 ',' :: more := by
  have hhead : ∀ {texts : List Bytes} {c : UInt8} {more tail : Bytes},
      Lexeme.behind texts = c :: more ++ tail →
      c = Char.toUInt8 ',' := by
    intro texts c more tail heq
    cases texts with
    | nil => cases heq
    | cons text texts =>
      exact (List.cons.inj ((Lexeme.behind_eq (List.cons_ne_nil _ _)).symm.trans heq)).1.symm
  obtain ⟨more, rfl, hmore⟩ | ⟨more, rfl, hmore⟩ := List.append_eq_append_iff.1 h
  · cases more with
    | nil => exact .inl ⟨(List.append_nil _).symm, hmore⟩
    | cons c more => exact .inr (.inl ⟨more, by rw [hhead hmore]⟩)
  · cases more with
    | nil => exact .inl ⟨List.append_nil _, hmore.symm⟩
    | cons c more => exact .inr (.inr ⟨more, by rw [hhead hmore]⟩)

/-- A text can be cut into pieces in one way only, if these are to leave the same arguments. -/
theorem pieces_unique {pieces others : List Bytes} (hne : pieces ≠ []) (hothersNe : others ≠ [])
    (hopened : ∀ piece ∈ pieces, CommasOpened piece)
    (hothers : ∀ piece ∈ others, CommasOpened piece)
    (hjoin : join [Char.toUInt8 ','] pieces = join [Char.toUInt8 ','] others)
    (h : (pieces.map trim).filter (!·.isEmpty) = (others.map trim).filter (!·.isEmpty)) :
    pieces = others := by
  induction pieces generalizing others with
  | nil => exact absurd rfl hne
  | cons piece rest ih =>
    obtain ⟨other, behind, rfl⟩ := List.exists_cons_of_ne_nil hothersNe
    rw [List.forall_mem_cons] at hopened hothers
    rw [Lexeme.join_eq, Lexeme.join_eq] at hjoin
    rcases first_piece_cases hjoin with ⟨rfl, hrest⟩ | ⟨more, hmore⟩ | ⟨more, hmore⟩
    · have htail : (rest.map trim).filter (!·.isEmpty) = (behind.map trim).filter (!·.isEmpty) := by
        rw [List.map_cons, List.map_cons, List.filter_cons, List.filter_cons] at h
        split at h
        · exact (List.cons.inj h).2
        · exact h
      cases rest with
      | nil =>
        cases behind with
        | nil => rfl
        | cons text texts =>
          rw [Lexeme.behind_eq (List.cons_ne_nil text texts)] at hrest
          cases hrest
      | cons text texts =>
        cases behind with
        | nil =>
          rw [Lexeme.behind_eq (List.cons_ne_nil text texts)] at hrest
          cases hrest
        | cons next others =>
          rw [Lexeme.behind_eq (List.cons_ne_nil text texts),
            Lexeme.behind_eq (List.cons_ne_nil next others)] at hrest
          rw [ih (List.cons_ne_nil _ _) (List.cons_ne_nil _ _) hopened.2 hothers.2
            (List.cons.inj hrest).2 htail]
    · exact absurd h (arguments_ne hothers.1 hmore)
    · exact absurd h.symm (arguments_ne hopened.1 hmore)

/-- White space at the end of a text is dropped, code point by code point. -/
theorem dropSeparators_point {point : Bytes} (h : SpacePoint point) (text : Bytes) :
    dropSeparators (point.reverse ++ text) = dropSeparators text := by
  cases h with
  | one h => exact dropSeparators_cons (by rw [h, Bool.true_or]) text
  | @two a b h =>
    have hb : (isAsciiSpace b || decide (b = Char.toUInt8 ',')) = false := by
      simp only [isSpacePair, Bool.and_eq_true, Bool.or_eq_true, decide_eq_true_eq] at h
      obtain ⟨-, rfl | rfl⟩ := h <;> decide
    cases text with
    | nil => simp [dropSeparators, hb, h]
    | cons c text => simp [dropSeparators, hb, h]
  | @three a b c h =>
    have hc : isAsciiSpace c = false ∧ c ≠ Char.toUInt8 ',' ∧ isSpacePair b c = false := by
      have hcomma : (Char.toUInt8 ',').toNat = 44 := rfl
      simp only [isSpaceTriple, isAsciiSpace, isSpacePair, Bool.or_eq_true,
        Bool.and_eq_true, decide_eq_true_eq, Bool.or_eq_false_iff, Bool.and_eq_false_iff,
        decide_eq_false_iff_not, UInt8.le_iff_toNat_le, ne_eq,
        ← UInt8.toNat_inj, UInt8.reduceToNat, hcomma] at h ⊢
      omega
    simp [dropSeparators, hc.1, hc.2.1, hc.2.2, h]

/-- Nothing is dropped from a text that ends neither with white space nor with a comma. -/
theorem dropSeparators_reverse {text : Bytes} (h : trimEnd text = text)
    (hcomma : text.getLast? ≠ some (Char.toUInt8 ',')) :
    dropSeparators text.reverse = text.reverse := by
  have hpoint : ∀ {point : Bytes} (rest : Bytes), SpacePoint point →
      text.reverse ≠ point.reverse ++ rest := by
    intro point rest hpoint heq
    refine hpoint.trimEnd_ne rest.reverse ?_
    rw [← List.reverse_reverse point, ← List.reverse_append, ← heq, List.reverse_reverse, h]
  have hhead : ∀ {c rest}, text.reverse = c :: rest →
      ¬ (isAsciiSpace c || decide (c = Char.toUInt8 ',')) = true := by
    intro c rest heq hc
    rw [Bool.or_eq_true, decide_eq_true_eq] at hc
    rcases hc with hc | rfl
    · exact hpoint rest (.one hc) heq
    · rw [← List.head?_reverse, heq] at hcomma
      exact hcomma rfl
  match hback : text.reverse with
  | [] => rfl
  | [a] => rw [dropSeparators, if_neg (hhead hback)]
  | [b, a] => rw [dropSeparators, if_neg (hhead hback), if_neg fun h => hpoint [] (.two h) hback]
  | c :: b :: a :: rest =>
    rw [dropSeparators, if_neg (hhead hback), if_neg fun h => hpoint (a :: rest) (.two h) hback,
      if_neg fun h => hpoint rest (.three h) hback]

/-- What is left of a text when it is trimmed at its end goes on being closed. -/
theorem CommasClosed.of_append {text point : Bytes} (h : CommasClosed (text ++ point))
    (hpoint : SpacePoint point) :
    CommasClosed text := by
  rintro before after rfl
  obtain ⟨q, hq, hquote⟩ := h before (after ++ point) (by simp)
  rcases List.mem_append.1 hq with hq | hq
  · exact ⟨q, hq, hquote⟩
  · exact absurd (hpoint.isSpaceByte q hq) (spec_of_isQuote hquote).1

/-- At the end of a text only white space is dropped, if every comma in it is followed by a
quote. -/
theorem reverse_dropSeparators {text : Bytes} (h : CommasClosed text) :
    (dropSeparators text.reverse).reverse = trimEnd text := by
  induction text using trimEndInduction with
  | keep text hkeep =>
    rw [dropSeparators_reverse hkeep, List.reverse_reverse, hkeep]
    intro hlast
    obtain ⟨before, hbefore⟩ := List.getLast?_eq_some_iff.1 hlast
    obtain ⟨q, hq, -⟩ := h before [] hbefore
    cases hq
  | drop point lead hpoint ih =>
    rw [List.reverse_append, dropSeparators_point hpoint, ih (h.of_append hpoint),
      hpoint.trimEnd_append]

/-- What is left of an argument and the separators behind it is the trimmed argument. -/
theorem trimSeparators_append {text tail : Bytes} (h : CommasClosed text)
    (htail : ∀ c ∈ tail, (isAsciiSpace c || decide (c = Char.toUInt8 ',')) = true) :
    trimSeparators (text ++ tail) = trim text := by
  induction text using trimStartInduction with
  | keep text hkeep =>
    have hascii : ∀ c : UInt8, (isAsciiSpace c || decide (c = Char.toUInt8 ',')) = true →
        c < 0x80 := by
      intro c hc
      simp only [isAsciiSpace, Bool.or_eq_true, Bool.and_eq_true, decide_eq_true_eq] at hc
      rcases hc with (⟨-, hc⟩ | rfl) | rfl
      · exact UInt8.lt_of_le_of_lt hc (by decide)
      · decide
      · decide
    by_cases hne : text = []
    · obtain ⟨lead, hlead, -⟩ := trimStart_spec tail
      have hrest : ∀ c ∈ (trimStart tail).reverse,
          (isAsciiSpace c || decide (c = Char.toUInt8 ',')) = true :=
        fun c hc => htail c (hlead ▸ List.mem_append_right _ (List.mem_reverse.1 hc))
      have hdrop := dropSeparators_append hrest []
      rw [List.append_nil] at hdrop
      rw [hne, List.nil_append, trimSeparators, hdrop]
      rfl
    · have hstart : trimStart (text ++ tail) = text ++ tail := by
        cases tail with
        | nil => rw [List.append_nil, hkeep]
        | cons c tail =>
          exact trimStart_append_ascii hkeep hne (hascii c (htail c (List.mem_cons_self ..))) tail
      rw [trimSeparators, hstart, List.reverse_append, dropSeparators_append (by simpa using htail),
        reverse_dropSeparators h, trim, hkeep]
  | drop point rest hpoint ih =>
    rw [List.append_assoc, trimSeparators, hpoint.trimStart_append,
      ← trimSeparators, hpoint.trim_append]
    refine ih fun before after heq => ?_
    exact h (point ++ before) after (by rw [heq, List.append_assoc])

end Argument

/-- A string literal is read from quote to quote. -/
theorem Lexeme.text_of_string {offset : Nat} {text : Bytes} {lexeme : Lexeme}
    (h : lexeme ∈ allFrom offset text)
    (hkind : lexeme.kind = .string) : ∃ quote inside, isQuote quote = true ∧
    lexeme.text = quote :: (inside ++ [quote]) := by
  obtain ⟨before, c, rest, more, -, -, hfront, htext⟩ := eq_append_of_mem_allFrom h
  rw [hkind] at hfront
  cases hfront with
  | string hquote hrest =>
    obtain ⟨inside, after, rfl, rfl⟩ := eq_append_of_stringRest? hrest
    refine ⟨c, inside, hquote, ?_⟩
    rw [htext, List.take_length_add_append]
    rfl
  | single _ hmem => simp at hmem

namespace Argument

/-- Among lexemes without commas a comma stands inside a string literal, between its quotes. -/
theorem quotes_of_lexemes {offset : Nat} {text : Bytes} {lexemes : List Lexeme}
    (hread : ∀ lexeme ∈ lexemes, lexeme ∈ Lexeme.allFrom offset text)
    (hkinds : ∀ lexeme ∈ lexemes, lexeme.kind ≠ .comma)
    {before after : Bytes} (h : Lexeme.joined lexemes = before ++ Char.toUInt8 ',' :: after) :
    (∃ c ∈ before, isQuote c = true) ∧ ∃ c ∈ after, isQuote c = true := by
  induction lexemes generalizing before with
  | nil => simp [Lexeme.joined] at h
  | cons lexeme lexemes ih =>
    rw [List.forall_mem_cons] at hread hkinds
    rw [Lexeme.joined_cons] at h
    obtain ⟨more, rfl, hmore⟩ | ⟨more, htext, hmore⟩ := List.append_eq_append_iff.1 h
    · obtain ⟨⟨c, hc, hquote⟩, hafter⟩ := ih hread.2 hkinds.2 hmore
      exact ⟨⟨c, List.mem_append_right _ hc, hquote⟩, hafter⟩
    · cases more with
      | nil =>
        obtain ⟨⟨c, hc, -⟩, -⟩ := ih hread.2 hkinds.2 (hmore.symm.trans (List.nil_append _).symm)
        cases hc
      | cons d more =>
        obtain ⟨rfl, hafter⟩ := List.cons.inj hmore
        have hstring : lexeme.kind = .string := by
          by_contra hstring
          have hholds :=
            Lexeme.holds_of_mem_allFrom hread.1 (Char.toUInt8 ',') (by rw [htext]; simp)
          exact LexemeKind.ne_comma hholds hstring hkinds.1 rfl
        obtain ⟨quote, inside, hquote, hquoted⟩ := Lexeme.text_of_string hread.1 hstring
        rw [hquoted] at htext
        have hne : quote ≠ Char.toUInt8 ',' := by
          rintro rfl
          cases hquote
        constructor
        · cases before with
          | nil => exact absurd (List.cons.inj htext).1 hne
          | cons c before =>
            rw [(List.cons.inj htext).1] at hquote
            exact ⟨c, List.mem_cons_self .., hquote⟩
        · have hlast := congrArg List.getLast? htext
          rw [← List.cons_append, List.getLast?_concat, List.getLast?_append_cons] at hlast
          cases more with
          | nil => exact absurd (Option.some.inj hlast) hne
          | cons c more =>
            rw [List.getLast?_cons_cons] at hlast
            refine ⟨quote, ?_, hquote⟩
            rw [hafter]
            exact List.mem_append_left _ (List.mem_of_getLast? hlast.symm)

/-- No argument starts before the next comma. -/
theorem starts_false_append {group : List Lexeme} (h : ∀ lexeme ∈ group, lexeme.kind ≠ .comma)
    (rest : List Lexeme) :
    starts false (group ++ rest) = starts false rest := by
  induction group with
  | nil => rfl
  | cons lexeme group ih =>
    rw [List.forall_mem_cons] at h
    rw [List.cons_append, starts, if_neg h.1, if_neg Bool.false_ne_true, ih h.2]

/-- The next argument starts behind the commas and blanks in front of it, if there is one. -/
theorem exists_starts (suffix : List Lexeme) : ∃ separators rest, suffix = separators ++ rest ∧
    (∀ lexeme ∈ separators, lexeme.kind = .blank ∨ lexeme.kind = .comma) ∧
    (rest = [] ∧ starts true (suffix.filter (·.kind ≠ .blank)) = [] ∨ ∃ other after offsets,
      rest = other :: after ∧
      starts true (suffix.filter (·.kind ≠ .blank)) = other.offset :: offsets) := by
  induction suffix with
  | nil => exact ⟨[], [], rfl, by simp, .inl ⟨rfl, rfl⟩⟩
  | cons lexeme suffix ih =>
    obtain ⟨separators, rest, hsuffix, hkinds, hstarts⟩ := ih
    have hskip : (lexeme.kind = .blank ∨ lexeme.kind = .comma) →
        starts true ((lexeme :: suffix).filter (·.kind ≠ .blank)) =
        starts true (suffix.filter (·.kind ≠ .blank)) := by
      rintro (hkind | hkind)
      · rw [List.filter_cons_of_neg (by simp [hkind])]
      · rw [List.filter_cons_of_pos (by simp [hkind]), starts, if_pos hkind]
    by_cases hkind : lexeme.kind = .blank ∨ lexeme.kind = .comma
    · refine ⟨lexeme :: separators, rest, by rw [hsuffix, List.cons_append], ?_,
        by rwa [hskip hkind]⟩
      rw [List.forall_mem_cons]
      exact ⟨hkind, hkinds⟩
    · rw [not_or] at hkind
      refine ⟨[], lexeme :: suffix, rfl, by simp,
        .inr ⟨lexeme, suffix, starts false (suffix.filter (·.kind ≠ .blank)), rfl, ?_⟩⟩
      rw [List.filter_cons_of_pos (by simpa using hkind.1), starts, if_neg hkind.2, if_pos rfl]

/-- An argument is the trimmed text of its lexemes, whatever separators stand between it and the
next one. -/
theorem segments_cons {text : Bytes} {before group separators rest : List Lexeme} {first : Lexeme}
    {offsets : List Nat}
    (hall : Lexeme.all text = before ++ first :: (group ++ (separators ++ rest)))
    (hkinds : ∀ lexeme ∈ first :: group, lexeme.kind ≠ .comma)
    (hseparators : ∀ lexeme ∈ separators, lexeme.kind = .blank ∨ lexeme.kind = .comma)
    (hrest : rest = [] ∧ offsets = [] ∨ ∃ other after more, rest = other :: after ∧
      offsets = other.offset :: more) :
    segments text (first.offset :: offsets) = trim (Lexeme.joined (first :: group)) ::
      segments text offsets := by
  have hread : ∀ lexeme ∈ first :: (group ++ (separators ++ rest)), lexeme ∈ Lexeme.all text :=
      fun lexeme hlexeme => hall ▸ List.mem_append_right _ hlexeme
  rw [← List.cons_append, List.forall_mem_append, List.forall_mem_append] at hread
  have hclosed : CommasClosed (Lexeme.joined (first :: group)) := fun _ _ heq =>
    (quotes_of_lexemes hread.1 hkinds heq).2
  have htail := isSeparator_of_mem_joined hread.2.1 hseparators
  rcases hrest with ⟨rfl, rfl⟩ | ⟨other, after, more, rfl, rfl⟩
  · rw [segments, segments, drop_offset hall, List.append_nil, ← List.cons_append,
      Lexeme.joined_append, trimSeparators_append hclosed htail]
  · rw [← List.append_assoc] at hall
    rw [segments, take_offsets hall, ← Lexeme.joined_cons, ← List.cons_append, Lexeme.joined_append,
      trimSeparators_append hclosed htail]

/-- A group shows something exactly when one of its bytes is no blank. -/
theorem filter_eq_nil_iff {offset : Nat} {text : Bytes} {group : List Lexeme}
    (hread : ∀ lexeme ∈ group, lexeme ∈ Lexeme.allFrom offset text) :
    group.filter (·.kind ≠ .blank) = [] ↔ (Lexeme.joined group).all Lexeme.isBlankByte = true := by
  rw [List.all_eq_true]
  constructor
  · intro hnil
    exact Parameter.isBlankByte_of_mem_joined hread (by simpa using hnil)
  · intro hblank
    rw [List.filter_eq_nil_iff]
    intro lexeme hlexeme
    by_contra hvisible
    have hkind : lexeme.kind ≠ .blank := by simpa using hvisible
    have hbytes : ∀ c ∈ lexeme.text, Lexeme.isBlankByte c = true := fun c hc =>
      hblank c (List.mem_flatMap.2 ⟨lexeme, hlexeme, hc⟩)
    by_cases hstring : lexeme.kind = .string
    · obtain ⟨quote, inside, hquote, htext⟩ := Lexeme.text_of_string (hread lexeme hlexeme) hstring
      have hfirst := hbytes quote (by rw [htext]; exact List.mem_cons_self ..)
      rw [(spec_of_isQuote hquote).2.1] at hfirst
      cases hfirst
    · obtain ⟨c, rest, htext⟩ :=
        List.exists_cons_of_ne_nil (Lexeme.text_ne_nil (hread lexeme hlexeme))
      have hc : c ∈ lexeme.text := by rw [htext]; exact List.mem_cons_self ..
      have hfirst := hbytes c hc
      rw [LexemeKind.isBlankByte_eq_false (Lexeme.holds_of_mem_allFrom (hread lexeme hlexeme) c hc)
        hstring hkind] at hfirst
      cases hfirst

/-- The lexemes up to the next comma are an argument, if they show something. -/
theorem segments_append {text : Bytes} {before group tail : List Lexeme}
    (hall : Lexeme.all text = before ++ (group ++ tail))
    (hkinds : ∀ lexeme ∈ group, lexeme.kind ≠ .comma)
    (htail : ∀ lexeme ∈ tail.head?, lexeme.kind = .comma) :
    segments text (starts true ((group ++ tail).filter (·.kind ≠ .blank))) =
      (([Lexeme.joined group].filter (!·.all Lexeme.isBlankByte)).map trim) ++
        segments text (starts true (tail.filter (·.kind ≠ .blank))) := by
  have hread : ∀ lexeme ∈ group, lexeme ∈ Lexeme.allFrom 0 text := fun lexeme hlexeme => by
    rw [← Lexeme.all, hall]
    exact List.mem_append_right _ (List.mem_append_left _ hlexeme)
  rw [List.filter_append]
  cases hshown : group.filter (·.kind ≠ .blank) with
  | nil =>
    rw [List.filter_cons_of_neg (by simpa using (filter_eq_nil_iff hread).1 hshown)]
    rfl
  | cons first shown =>
    have hblank : ¬ (Lexeme.joined group).all Lexeme.isBlankByte = true := fun hblank => by
      rw [(filter_eq_nil_iff hread).2 hblank] at hshown
      cases hshown
    obtain ⟨gap, more, rfl, hgap, -, rfl⟩ := List.filter_eq_cons_iff.1 hshown
    rw [List.forall_mem_append] at hkinds hread
    -- behind the first lexeme no argument starts before the comma that ends this one
    have hrest : starts false (more.filter (·.kind ≠ .blank) ++ tail.filter (·.kind ≠ .blank)) =
        starts true (tail.filter (·.kind ≠ .blank)) := by
      rw [starts_false_append fun lexeme hlexeme => hkinds.2 lexeme
        (List.mem_cons_of_mem _ (List.mem_of_mem_filter hlexeme))]
      cases tail with
      | nil => rfl
      | cons comma tail =>
        have hcomma : comma.kind = .comma := htail comma rfl
        rw [List.filter_cons_of_pos (by simp [hcomma]), starts, starts,
          if_pos hcomma, if_pos hcomma]
    have hfirst : first.kind ≠ .comma := hkinds.2 first (List.mem_cons_self ..)
    obtain ⟨separators, rest, rfl, hseparators, hstarts⟩ := exists_starts tail
    have hlist : Lexeme.all text = (before ++ gap) ++ first :: (more ++ (separators ++ rest)) := by
      rw [hall]
      simp
    have hlead : ∀ c ∈ Lexeme.joined gap, isAsciiSpace c = true := fun c hc =>
      (Lexeme.isBlankByte_spec
        (Parameter.isBlankByte_of_mem_joined hread.1 (by simpa using hgap) c hc)).1
    rw [List.filter_cons_of_pos (by simpa using hblank), List.cons_append, starts,
      if_neg hfirst, if_pos rfl, hrest, segments_cons hlist hkinds.2 hseparators hstarts,
      Lexeme.joined_append, List.filter_nil, List.map_singleton,
      trim_blank_append hlead]
    rfl

/-- The arguments that start behind given lexemes are the trimmed texts of the groups that show
something. -/
theorem segments_groups {text : Bytes} {before suffix : List Lexeme}
    (hall : Lexeme.all text = before ++ suffix) :
    segments text (starts true (suffix.filter (·.kind ≠ .blank))) =
      (((Parameter.groups suffix).map Lexeme.joined).filter (!·.all Lexeme.isBlankByte)).map
        trim := by
  induction hlength : suffix.length using Nat.strongRecOn generalizing before suffix with
  | ind length ih =>
    rcases Parameter.groups_cases suffix
      with hgroups | ⟨group, comma, rest, hsuffix, hcomma, hgroups⟩
    · have hkinds :=
        Parameter.kind_ne_comma_of_mem_groups (hgroups ▸ List.mem_singleton_self suffix)
      have hnone : Lexeme.all text = before ++ (suffix ++ []) := by rw [hall, List.append_nil]
      have hsegments := segments_append hnone hkinds (by simp)
      rw [List.append_nil] at hsegments
      rw [hsegments, hgroups]
      exact List.append_nil _
    · have hkinds :=
        Parameter.kind_ne_comma_of_mem_groups (hgroups ▸ List.mem_cons_self (a := group))
      subst hsuffix
      have hbehind : Lexeme.all text = (before ++ group ++ [comma]) ++ rest := by
        rw [hall]
        simp
      have hshort : rest.length < length := by
        rw [← hlength, List.length_append, List.length_cons]
        omega
      have hskip : starts true ((comma :: rest).filter (·.kind ≠ .blank)) =
          starts true (rest.filter (·.kind ≠ .blank)) := by
        rw [List.filter_cons_of_pos (by simp [hcomma]), starts, if_pos hcomma]
      rw [segments_append hall hkinds (by simp [hcomma]), hgroups, hskip, ih _ hshort hbehind rfl,
        ← List.map_append, ← List.filter_append]
      rfl

/-- Without their places or with them, the lexemes of a text have the same groups of texts. -/
theorem parts_eq (text : Bytes) :
    Parameter.parts text = (Parameter.groups (Lexeme.all text)).map Lexeme.joined := by
  rw [Parameter.parts, Lexeme.spelling, Parameter.groups_map_unplaced, List.map_map]
  exact List.map_congr_left fun group _ => Lexeme.joined_unplaced group

/-- The arguments of a list that does not start with a comma are its trimmed parts, but for those
that hold blanks only. -/
theorem splitArguments_of_parts {text : Bytes} (hblank : text.isBlank = false)
    (hfirst : ∀ lexeme ∈ (Lexeme.visible text).head?, lexeme.kind ≠ .comma) :
    splitArguments text = ((Parameter.parts text).filter (!·.all Lexeme.isBlankByte)).map trim := by
  rw [splitArguments, if_neg (by simp [hblank]), parts_eq,
    ← segments_groups (List.nil_append _).symm, ← Lexeme.visible]
  cases hvisible : Lexeme.visible text with
  | nil => rfl
  | cons first rest =>
    rw [hvisible] at hfirst
    dsimp only
    rw [if_neg (hfirst first rfl)]

/-- The first visible lexeme is a comma exactly when the first part shows nothing. -/
theorem kind_eq_comma_iff {text : Bytes} {first : Lexeme} {rest : List Lexeme}
    (h : Lexeme.visible text = first :: rest) {part : Bytes} {parts : List Bytes}
    (hparts : Parameter.parts text = part :: parts) :
    first.kind = .comma ↔ part.all Lexeme.isBlankByte = true := by
  rw [parts_eq] at hparts
  obtain ⟨group, groups, hgroups, rfl, -⟩ := List.map_eq_cons_iff.1 hparts
  have hwithin := Parameter.infix_of_mem_groups (hgroups ▸ List.mem_cons_self (a := group))
  have hvisible := Parameter.groups_filter (Lexeme.all text)
  rw [← Lexeme.visible, h, hgroups, List.map_cons] at hvisible
  rw [← filter_eq_nil_iff fun lexeme hlexeme => hwithin.subset hlexeme]
  by_cases hcomma : first.kind = .comma
  · rw [Parameter.groups, if_pos hcomma] at hvisible
    rw [← (List.cons.inj hvisible).1]
    exact iff_of_true hcomma rfl
  · obtain ⟨next, more, -, hcons⟩ := Parameter.groups_cons hcomma rest
    rw [hcons] at hvisible
    rw [← (List.cons.inj hvisible).1]
    exact iff_of_false hcomma (List.cons_ne_nil _ _)

/-- A blank text in front of a comma leaves a blank argument, if all commas count. -/
theorem nil_mem_pieces {text more : Bytes} (hblank : trim text = [])
    (hcomma : Char.toUInt8 ',' ∉ text) :
    [] ∈ pieces (text ++ Char.toUInt8 ',' :: more) := by
  have hsplit : split ',' (text ++ Char.toUInt8 ',' :: more) = text :: split ',' more := by
    rw [split_append_cons, split_of_not_mem hcomma]
    rfl
  obtain ⟨next, rest, hnext⟩ := List.exists_cons_of_ne_nil (split_ne_nil ',' more)
  rw [pieces, hsplit, hnext]
  split
  · rw [List.dropLast_cons_cons, List.map_cons, hblank]
    exact List.mem_cons_self ..
  · rw [List.map_cons, hblank]
    exact List.mem_cons_self ..

/-- Nothing is left of blanks. -/
theorem trim_of_blanks {text : Bytes} (h : text.all Lexeme.isBlankByte = true) :
    trim text = [] := by
  have hspace : ∀ c ∈ text, isAsciiSpace c = true :=
    fun c hc => (Lexeme.isBlankByte_spec (List.all_eq_true.1 h c hc)).1
  rw [← List.append_nil text, trim_blank_append hspace]
  rfl

/-- Without the blank ones the trimmed pieces are those that show something, if blank ones hold
blanks only. -/
theorem map_trim_filter {pieces : List Bytes}
    (h : ∀ piece ∈ pieces, piece.isBlank = true → ∀ c ∈ piece, Lexeme.isBlankByte c = true) :
    (pieces.filter (!·.all Lexeme.isBlankByte)).map trim =
      (pieces.map trim).filter (!·.isEmpty) := by
  rw [List.filter_map]
  congr 1
  refine List.filter_congr fun piece hpiece => ?_
  rw [Function.comp_apply, Bool.not_inj_iff, Bool.eq_iff_iff, List.isEmpty_iff]
  refine ⟨trim_of_blanks, fun htrim => ?_⟩
  rw [List.all_eq_true]
  exact h piece hpiece (trim_eq_nil_iff.1 htrim)

/-- Only the first byte of a lexeme can be a quote, but for string literals. -/
theorem isQuote_of_front {c : UInt8} {rest : Bytes} {kind : LexemeKind} {more : Nat}
    (h : Lexeme.front c rest = (kind, more)) (hstring : kind ≠ .string) :
    ∀ b ∈ rest.take more, isQuote b = false := by
  intro b hb
  by_cases hother : kind = .other
  · subst hother
    cases Lexeme.fronts_of_front h with
    | single _ hmem => simp at hmem
    | other =>
      rw [Bool.eq_false_iff]
      exact fun hquote => (spec_of_isQuote hquote).2.2 (Utf8.le_of_mem_take_front b hb)
  · have hplain : ∀ kind : LexemeKind, kind ≠ .string → kind ≠ .other → ∀ b : UInt8,
        kind.holds b = true →
        isQuote b = false := by
      intro kind
      cases kind <;> decide +kernel
    exact hplain kind hstring hother b (Lexeme.holds_of_front h b (List.mem_cons_of_mem _ hb))

/-- A text that is one piece goes with the first piece of what follows it. -/
theorem outerPieces_append {literal : Literal} {text more first : Bytes} {rest : List Bytes}
    (h : outerPieces literal text = [text])
    (hmore : outerPieces (literal.run text) more = first :: rest) :
    outerPieces literal (text ++ more) = (text ++ first) :: rest := by
  induction text generalizing literal with
  | nil => exact hmore
  | cons c text ih =>
    have hcut : ¬ (literal = .outside ∧ c = Char.toUInt8 ',') := by
      intro hcut
      rw [outerPieces, if_pos hcut] at h
      cases (List.cons.inj h).1
    obtain ⟨piece, pieces, hpieces, hcons⟩ := outerPieces_cons hcut text
    rw [hcons] at h
    obtain ⟨hpiece, rfl⟩ := List.cons.inj h
    rw [(List.cons.inj hpiece).2] at hpieces
    rw [List.cons_append, outerPieces, if_neg hcut, ih hpieces hmore]
    rfl

/-- A text without quotes and commas is one piece, and leaves a reader outside of literals. -/
theorem outerPieces_of_plain {text : Bytes}
    (h : ∀ c ∈ text, isQuote c = false ∧ c ≠ Char.toUInt8 ',') :
    outerPieces .outside text = [text] ∧ Literal.run .outside text = .outside := by
  refine ⟨?_, Literal.run_outside fun c hc => (h c hc).1⟩
  induction text with
  | nil => rfl
  | cons c text ih =>
    rw [List.forall_mem_cons] at h
    rw [outerPieces, if_neg fun hcut => h.1.2 hcut.2, Literal.step, h.1.1,
      if_neg Bool.false_ne_true, ih h.2]

/-- Inside a literal no byte is cut off. -/
theorem outerPieces_of_ne {literal : Literal} {c : UInt8} {text : Bytes} (h : literal ≠ .outside)
    (htext : outerPieces (literal.step c) text = [text]) :
    outerPieces literal (c :: text) = [c :: text] := by
  rw [outerPieces, if_neg fun hcut => h hcut.1, htext]

/-- A literal is read to its end by its lexeme. -/
theorem outerPieces_of_stringRest? {quote : UInt8} {text : Bytes} {n : Nat}
    (hquote : isQuote quote = true) (h : Lexeme.stringRest? quote text = some n) :
    outerPieces (.inside quote) (text.take n) = [text.take n] ∧
      Literal.run (.inside quote) (text.take n) = .outside := by
  have hslash : quote ≠ Char.toUInt8 '\\' := by
    rintro rfl
    cases hquote
  have hclose : Literal.step (.inside quote) quote = .outside := by
    rw [Literal.step, if_neg hslash, if_pos rfl]
  have hlast : outerPieces (.inside quote) [quote] = [[quote]] ∧
      Literal.run (.inside quote) [quote] = .outside :=
    ⟨outerPieces_of_ne Literal.noConfusion rfl, hclose⟩
  fun_induction Lexeme.stringRest? quote text generalizing n with
  | case1 => cases h
  | case2 =>
    cases h
    exact hlast
  | case3 => cases h
  | case4 d text =>
    cases h
    exact hlast
  | case5 => cases h
  | case6 d text _ _ ih =>
    obtain ⟨m, hm, rfl⟩ := Option.map_eq_some_iff.1 h
    obtain ⟨hpieces, hrun⟩ := ih hm
    refine ⟨outerPieces_of_ne Literal.noConfusion ?_, hrun⟩
    exact outerPieces_of_ne Literal.noConfusion hpieces
  | case7 c d text hc hback ih =>
    obtain ⟨m, hm, rfl⟩ := Option.map_eq_some_iff.1 h
    obtain ⟨hpieces, hrun⟩ := ih hm
    have hstep : Literal.step (.inside quote) c = .inside quote := by
      rw [Literal.step, if_neg hback, if_neg hc]
    rw [List.take_succ_cons]
    refine ⟨outerPieces_of_ne Literal.noConfusion ?_, by rw [Literal.run_cons, hstep, hrun]⟩
    rw [hstep, hpieces]

/-- A literal that is closed, without a line break behind a backslash, is read to its end. -/
theorem isSome_stringRest? {quote : UInt8} {text : Bytes}
    (hclosed : Literal.run (.inside quote) text = .outside)
    (hline : Literal.escapesLine (.inside quote) text = false) :
    (Lexeme.stringRest? quote text).isSome = true := by
  fun_induction Lexeme.stringRest? quote text with
  | case1 => cases hclosed
  | case2 => rfl
  | case3 c hc =>
    rw [Literal.run_cons, Literal.step, if_neg hc] at hclosed
    split at hclosed <;> cases hclosed
  | case4 => rfl
  | case5 => cases hline
  | case6 d text _ hd ih =>
    rw [Option.isSome_map]
    rw [Literal.escapesLine, Literal.escapesLine, Bool.or_eq_false_iff, Bool.or_eq_false_iff]
      at hline
    exact ih hclosed hline.2.2
  | case7 c d text hc hback ih =>
    have hstep : Literal.step (.inside quote) c = .inside quote := by
      rw [Literal.step, if_neg hback, if_neg hc]
    rw [Literal.run_cons, hstep] at hclosed
    rw [Literal.escapesLine, hstep, Bool.or_eq_false_iff] at hline
    rw [Option.isSome_map]
    exact ih hclosed hline.2

/-- A lexeme that is no comma is one piece and leaves a reader outside of literals, in a text whose
literals are closed without line breaks behind backslashes. -/
theorem outerPieces_of_front {c : UInt8} {rest : Bytes} {kind : LexemeKind} {more : Nat}
    (h : Lexeme.front c rest = (kind, more)) (hkind : kind ≠ .comma)
    (hclosed : Literal.run .outside (c :: rest) = .outside)
    (hline : Literal.escapesLine .outside (c :: rest) = false) :
    outerPieces .outside (c :: rest.take more) = [c :: rest.take more] ∧
      Literal.run .outside (c :: rest.take more) = .outside := by
  by_cases hquote : isQuote c = true
  · have hstep : Literal.step .outside c = .inside c := by rw [Literal.step, if_pos hquote]
    have hcut : ¬ (Literal.outside = .outside ∧ c = Char.toUInt8 ',') := by
      rintro ⟨-, rfl⟩
      cases hquote
    rw [Literal.run_cons, hstep] at hclosed
    rw [Literal.escapesLine, hstep, Bool.or_eq_false_iff] at hline
    obtain ⟨n, hn⟩ := Option.isSome_iff_exists.1 (isSome_stringRest? hclosed hline.2)
    have hfront : Lexeme.front c rest = (.string, n) := by rw [Lexeme.front, if_pos hquote, hn]
    obtain ⟨-, rfl⟩ := Prod.mk.inj (h.symm.trans hfront)
    obtain ⟨hpieces, hrun⟩ := outerPieces_of_stringRest? hquote hn
    exact ⟨by rw [outerPieces, if_neg hcut, hstep, hpieces], by rw [Literal.run_cons, hstep, hrun]⟩
  · have hstring : kind ≠ .string := by
      rintro rfl
      cases Lexeme.fronts_of_front h with
      | string hstart => exact hquote hstart
      | single _ hmem => simp at hmem
    apply outerPieces_of_plain
    intro b hb
    refine ⟨?_, LexemeKind.ne_comma (Lexeme.holds_of_front h b hb) hstring hkind⟩
    rcases List.mem_cons.1 hb with rfl | hb
    · exact Bool.eq_false_iff.2 hquote
    · exact isQuote_of_front h hstring b hb

/-- The commas among the lexemes of a text are those outside of literals, if literals are closed
without line breaks behind backslashes. -/
theorem parts_eq_outerPieces {text : Bytes} (hclosed : Literal.run .outside text = .outside)
    (hline : Literal.escapesLine .outside text = false) :
    Parameter.parts text = outerPieces .outside text := by
  induction text using Lexeme.frontInduction with
  | nil =>
    rw [Parameter.parts, Lexeme.spelling_nil]
    rfl
  | cons c rest ih =>
    obtain ⟨kind, more, hfront⟩ : ∃ kind more, Lexeme.front c rest = (kind, more) := ⟨_, _, rfl⟩
    rw [hfront] at ih
    by_cases hkind : kind = .comma
    · subst hkind
      obtain rfl : c = Char.toUInt8 ',' :=
        of_decide_eq_true (Lexeme.holds_of_front hfront c (List.mem_cons_self ..))
      cases Lexeme.fronts_of_front hfront with
      | single =>
        have hrest := ih hclosed hline
        rw [List.drop_zero, Parameter.parts] at hrest
        rw [Parameter.parts, Lexeme.spelling_comma, Parameter.groups, if_pos rfl,
          List.map_cons, hrest, outerPieces, if_pos ⟨rfl, rfl⟩]
        rfl
    · obtain ⟨hpiece, hrun⟩ := outerPieces_of_front hfront hkind hclosed hline
      have htext : c :: rest = c :: rest.take more ++ rest.drop more := by
        rw [List.cons_append, List.take_append_drop]
      rw [htext, Literal.run_append, hrun] at hclosed
      rw [htext, Literal.escapesLine_append, hrun, Bool.or_eq_false_iff] at hline
      have hrest := ih hclosed hline.2
      have hplain : (⟨kind, c :: rest.take more, 0⟩ : Lexeme).kind ≠ .comma := hkind
      obtain ⟨first, others, hfirst, hcons⟩ :=
        Parameter.groups_cons hplain (Lexeme.spelling (rest.drop more))
      rw [Parameter.parts, hfirst, List.map_cons] at hrest
      rw [Parameter.parts, Lexeme.spelling_of_front hfront, hcons,
        List.map_cons, Lexeme.joined_cons]
      rw [htext, outerPieces_append hpiece (hrun ▸ hrest.symm)]

/-- A blank text is not cut. -/
theorem pieces_of_isBlank {text : Bytes} {pieces : List Bytes} (hne : pieces ≠ [])
    (hjoin : join [Char.toUInt8 ','] pieces = text) (h : text.isBlank = true) :
    pieces = [text] := by
  obtain ⟨first, rest, rfl⟩ := List.exists_cons_of_ne_nil hne
  rw [Lexeme.join_eq] at hjoin
  cases rest with
  | nil => rw [← hjoin, Lexeme.behind, List.flatMap_nil, List.append_nil]
  | cons next rest =>
    have hcomma : Char.toUInt8 ',' ∈ text := by
      rw [← hjoin, Lexeme.behind_eq (List.cons_ne_nil _ _)]
      exact List.mem_append_right _ (List.mem_cons_self ..)
    exact absurd (isSpaceByte_of_isBlank h _ hcomma) (by decide)

/-- A blank list has no arguments. -/
theorem outerArguments_of_isBlank {text : Bytes} (h : text.isBlank = true) :
    outerArguments text = [] := by
  rw [outerArguments, pieces_of_isBlank (outerPieces_ne_nil _ _) (join_outerPieces _ _) h,
    List.map_singleton, trim_eq_nil_iff.2 h]
  rfl

/-- In every part of a text commas stand inside literals. -/
theorem commasOpened_of_mem_parts {text part : Bytes} (h : part ∈ Parameter.parts text) :
    CommasOpened part := by
  rw [parts_eq] at h
  obtain ⟨group, hgroup, rfl⟩ := List.mem_map.1 h
  have hread : ∀ lexeme ∈ group, lexeme ∈ Lexeme.allFrom 0 text := fun lexeme hlexeme =>
    (Parameter.infix_of_mem_groups hgroup).subset hlexeme
  intro before after heq
  exact (quotes_of_lexemes hread (Parameter.kind_ne_comma_of_mem_groups hgroup) heq).1

/-- A list that starts with a comma has a blank argument. -/
theorem nil_mem_splitArguments {text : Bytes} {first : Lexeme} {rest : List Lexeme}
    (hblank : text.isBlank = false)
    (hvisible : Lexeme.visible text = first :: rest) (hfirst : first.kind = .comma) :
    [] ∈ splitArguments text := by
  obtain ⟨part, parts, hparts⟩ := List.exists_cons_of_ne_nil (Parameter.parts_ne_nil text)
  have hblanks := (kind_eq_comma_iff hvisible hparts).1 hfirst
  have hjoin := Parameter.join_parts text
  rw [hparts, Lexeme.join_eq] at hjoin
  rw [splitArguments, if_neg (by simp [hblank]), hvisible]
  dsimp only
  rw [if_pos hfirst]
  cases parts with
  | nil =>
    have hpart : part = text := (List.append_nil part).symm.trans hjoin
    rw [← hpart, trim_eq_nil_iff.1 (trim_of_blanks hblanks)] at hblank
    cases hblank
  | cons next parts =>
    rw [Lexeme.behind_eq (List.cons_ne_nil _ _)] at hjoin
    rw [← hjoin]
    apply nil_mem_pieces (trim_of_blanks hblanks)
    intro hcomma
    exact (Lexeme.isBlankByte_spec (List.all_eq_true.1 hblanks _ hcomma)).2.2.2 rfl

/-- A list that does not start with a comma has no blank arguments exactly when its blank parts hold
blanks only. -/
theorem nil_not_mem_map_trim_iff {parts : List Bytes} :
    [] ∉ (parts.filter (!·.all Lexeme.isBlankByte)).map trim ↔
      ∀ part ∈ parts, part.isBlank = true → ∀ c ∈ part, Lexeme.isBlankByte c = true := by
  simp only [List.mem_map, List.mem_filter, not_exists, not_and, and_imp, trim_eq_nil_iff]
  refine forall_congr' fun part => forall_congr' fun _ => ?_
  rw [Bool.not_eq_true', ← List.all_eq_true, ← Bool.not_eq_true]
  tauto

/-- **Where an argument list is split.** In a text whose literals are all closed, the arguments are
what they should be exactly when the text is blank, or when its lexemes are cut at the commas
outside literals, it does not start with a comma, and blank arguments hold no other white space than
blanks, tabs and line breaks. The lexemes are cut at these commas if no backslash inside a literal
stands before a line break. -/
theorem splitArguments_eq_outerArguments_iff {text : Bytes}
    (hclosed : Literal.run .outside text = .outside) :
    (splitArguments text = outerArguments text ↔ text.isBlank = true ∨
      Parameter.parts text = outerPieces .outside text ∧
      (∀ piece ∈ (outerPieces .outside text).head?, piece.isBlank = false) ∧
      ∀ piece ∈ outerPieces .outside text, piece.isBlank = true → ∀ c ∈ piece,
      Lexeme.isBlankByte c = true) ∧
    (Literal.escapesLine .outside text = false →
      Parameter.parts text = outerPieces .outside text) := by
  refine ⟨?_, parts_eq_outerPieces hclosed⟩
  by_cases hblank : text.isBlank = true
  · rw [outerArguments_of_isBlank hblank, splitArguments, if_pos hblank]
    exact iff_of_true rfl (.inl hblank)
  rw [Bool.not_eq_true] at hblank
  obtain ⟨first, rest, hvisible⟩ : ∃ first rest, Lexeme.visible text = first :: rest := by
    apply List.exists_cons_of_ne_nil
    intro hvisible
    rw [Parameter.isBlank_of_visible hvisible] at hblank
    cases hblank
  obtain ⟨part, parts, hparts⟩ := List.exists_cons_of_ne_nil (Parameter.parts_ne_nil text)
  have hcomma := kind_eq_comma_iff hvisible hparts
  have hsplit : first.kind ≠ .comma →
      splitArguments text = ((Parameter.parts text).filter (!·.all Lexeme.isBlankByte)).map trim :=
    fun hfirst => splitArguments_of_parts hblank (by simpa [hvisible] using hfirst)
  constructor
  · intro heq
    have hempty : [] ∉ splitArguments text := by
      rw [heq, outerArguments]
      simp
    have hfirst : first.kind ≠ .comma :=
      fun hfirst => hempty (nil_mem_splitArguments hblank hvisible hfirst)
    rw [hsplit hfirst] at hempty heq
    have hblanks := nil_not_mem_map_trim_iff.1 hempty
    rw [map_trim_filter hblanks] at heq
    have hpieces : Parameter.parts text = outerPieces .outside text :=
      pieces_unique (Parameter.parts_ne_nil text) (outerPieces_ne_nil _ _)
        (fun _ => commasOpened_of_mem_parts)
        (fun _ => commasOpened_of_mem_outerPieces)
        ((Parameter.join_parts text).trans (join_outerPieces _ _).symm) heq
    refine .inr ⟨hpieces, ?_, hpieces ▸ hblanks⟩
    rw [← hpieces, hparts]
    rintro _ ⟨⟩
    rw [← Bool.not_eq_true]
    intro hpart
    have hmem : part ∈ Parameter.parts text := hparts ▸ List.mem_cons_self ..
    exact hfirst (hcomma.2 (List.all_eq_true.2 (hblanks part hmem hpart)))
  · rintro (h | ⟨hpieces, hhead, hblanks⟩)
    · rw [hblank] at h
      cases h
    · have hfirst : first.kind ≠ .comma := by
        intro hfirst
        have hpart := hhead part (by rw [← hpieces, hparts]; rfl)
        rw [trim_eq_nil_iff.1 (trim_of_blanks (hcomma.1 hfirst))] at hpart
        cases hpart
      rw [hsplit hfirst, hpieces, map_trim_filter hblanks, outerArguments]

/-- A comma and a quote behind a backslash stay inside their literal, whatever blanks and commas
stand around it. -/
theorem splitArguments_eq_outerArguments_iff_escapes :
    let text : Bytes := "f(x),\t\"a\\\", b\" ,, [c\n] ,"
    Literal.run .outside text = .outside ∧ splitArguments text = outerArguments text ∧
      outerArguments text = ["f(x)", "\"a\\\", b\"", "[c\n]"] := by
  intro text
  have hclosed : Literal.run .outside text = .outside := by decide +kernel
  obtain ⟨hiff, hparts⟩ := splitArguments_eq_outerArguments_iff hclosed
  refine ⟨hclosed, hiff.2 (.inr ⟨hparts (by decide +kernel), ?_, ?_⟩), by decide +kernel⟩
  · decide +kernel
  · decide +kernel

/-- A list that starts with a comma is split inside a literal and has a blank argument. A literal
with a line break behind a backslash is split as well, and a vertical tab between two commas leaves
a blank argument. -/
theorem splitArguments_ne_outerArguments :
    (Literal.run .outside ",\"a, b\"" = .outside ∧ splitArguments ",\"a, b\"" = ["", "\"a", "b\""] ∧
      outerArguments ",\"a, b\"" = ["\"a, b\""]) ∧
    (Literal.run .outside "\"a\\\n, b\"" = .outside ∧
      splitArguments "\"a\\\n, b\"" = ["\"a\\", "b\""] ∧
      outerArguments "\"a\\\n, b\"" = ["\"a\\\n, b\""]) ∧
    Literal.run .outside "a,\x0b,b" = .outside ∧ splitArguments "a,\x0b,b" = ["a", "", "b"] ∧
      outerArguments "a,\x0b,b" = ["a", "b"] := by
  decide +kernel

end Argument

end TagScript
