import TagScript.Proofs.Reading
import TagScript.Proofs.Whitespace

/-!
# The marks of a text

The marks of a text are its bytes with their classes, without white space and without the
semicolons of code. They tell which parts of a script are code, strings and comments, whatever
its layout.

Marks are cut where a step of the reader ends between two code points. White space around a text
has no marks of its own and does not change those of the text, even when it stands in a string
that is never closed.
-/

namespace TagScript

namespace Bytes

/-- A byte that can belong to white space starts no string, no comment and no escape. -/
theorem IsSpaceByte.plain {c : UInt8} (h : IsSpaceByte c) :
    isQuote c = false ∧ c ≠ '/' ∧ c ≠ '*' ∧ c ≠ '\\' := by
  have hslash : ¬ IsSpaceByte '/' ∧ ¬ IsSpaceByte '*' ∧ ¬ IsSpaceByte '\\' := by decide
  have hquotes : ¬ IsSpaceByte 0x22 ∧ ¬ IsSpaceByte 0x27 ∧ ¬ IsSpaceByte 0x60 := by decide
  refine ⟨?_, ?_, ?_, ?_⟩
  · simp only [isQuote, Bool.or_eq_false_iff, decide_eq_false_iff_not]
    refine ⟨⟨?_, ?_⟩, ?_⟩ <;> rintro rfl
    · exact hquotes.1 h
    · exact hquotes.2.1 h
    · exact hquotes.2.2 h
  · rintro rfl
    exact hslash.1 h
  · rintro rfl
    exact hslash.2.1 h
  · rintro rfl
    exact hslash.2.2 h

end Bytes

namespace Mode

open Bytes

/-- Whether a byte with its class is marked: it is no white space and no semicolon of code. -/
def isMarked : (UInt8 × ByteClass) × Bool → Bool
  | (mark, space) => !space && mark ≠ (Char.toUInt8 ';', .code)

/-- The bytes of a text with their classes, without white space and the semicolons of code. -/
def marks (mode : Mode) (text : Bytes) : List (UInt8 × ByteClass) :=
  (((mode.classify text).zip (spaceMask text)).filter isMarked).map Prod.fst

variable {mode after final : Mode} {text rest : Bytes} {c : UInt8}
  {keeps : Mode → UInt8 → Mode → Prop}

/-- An empty text has no marks. -/
@[simp] theorem marks_nil (mode : Mode) : mode.marks [] = [] := rfl

/-- Marks are cut where a reading ends, if white space is cut there. -/
theorem Reads.marks_append (h : Reads keeps mode text final rest)
    (hmask : spaceMask (text ++ rest) = spaceMask text ++ spaceMask rest) :
    mode.marks (text ++ rest) = mode.marks text ++ final.marks rest := by
  have hlength : (mode.classify text).length = (spaceMask text).length := by simp
  rw [marks, h.classify_append, hmask, List.zip_append hlength, List.filter_append, List.map_append]
  rfl

/-- Marks are cut in front of an ASCII byte where a reading ends. -/
theorem Reads.marks_append_ascii (h : Reads keeps mode text final (c :: rest)) (hc : c < 0x80) :
    mode.marks (text ++ c :: rest) = mode.marks text ++ final.marks (c :: rest) :=
  h.marks_append (spaceMask_append (isCut_ascii hc rest))

/-- Marks are cut behind an ASCII byte that is read alone. -/
theorem marks_cons (hc : c < 0x80) (hstep : mode.step c text.head? = (after, false)) :
    mode.marks (c :: text) = mode.marks [c] ++ after.marks text := by
  have hread : Reads (fun _ _ _ => True) mode [c] after text := .one hstep trivial .nil
  exact hread.marks_append (spaceMask_ascii_append hc text)

/-- A single ASCII byte is marked unless it is white space or a semicolon of code. -/
theorem marks_singleton (hc : c < 0x80) (hstep : mode.step c none = (after, false)) :
    mode.marks [c] = if isAsciiSpace c = true ∨ (c, mode.stepClass after) =
      (Char.toUInt8 ';', .code) then []
      else [(c, mode.stepClass after)] := by
  have hhead : mode.step c ([] : Bytes).head? = (after, false) := hstep
  rw [marks, classify_cons_one hhead, spaceMask_ascii hc]
  by_cases hspace : isAsciiSpace c = true
  · simp [hspace, isMarked, classify]
  · by_cases hsemi : (c, mode.stepClass after) = (Char.toUInt8 ';', .code)
    · simp [hspace, hsemi, isMarked, classify]
    · simp [hspace, hsemi, isMarked, classify]

/-- White space is not marked, whatever its classes are. -/
theorem filter_isMarked_space (h : IsSpace text) (classified : List (UInt8 × ByteClass)) :
    (classified.zip (spaceMask text)).filter isMarked = [] := by
  rw [h, List.filter_eq_nil_iff]
  rintro ⟨mark, space⟩ hmem
  obtain rfl : space = true := List.eq_of_mem_replicate (List.of_mem_zip hmem).2
  simp [isMarked]

/-- White space has no marks. -/
theorem marks_of_isSpace (h : IsSpace text) : mode.marks text = [] := by
  rw [marks, filter_isMarked_space h, List.map_nil]

/-- White space in code leads to code. -/
theorem reads_space (h : ∀ c ∈ text, IsSpaceByte c) :
    Reads (fun _ _ _ => True) .code text .code rest := by
  induction text with
  | nil => exact .nil
  | cons c text ih =>
    have hplain := (h c (List.mem_cons_self ..)).plain
    exact .one (step_plain hplain.1 hplain.2.1 _) trivial
      (ih fun d hd => h d (List.mem_cons_of_mem _ hd))

/-- A byte at the end of a text is read alone in front of white space too, unless it escapes the
white space in a string that is never closed. -/
theorem step_space (hspace : ∀ c ∈ rest, IsSpaceByte c)
    (hstep : mode.step c text.head? = (after, false)) :
    mode.step c (text ++ rest).head? = (after, false) ∨
      ∃ quote d more, mode = .string quote ∧ text = [] ∧ rest = d :: more ∧
        mode.step c (some d) = (.string quote, true) := by
  rcases hnext : mode.step c (text ++ rest).head? with ⟨next, taken⟩
  cases taken with
  | false =>
    have halone := step_alone hnext
    rw [hstep] at halone
    exact .inl halone.symm
  | true =>
    cases text with
    | cons d text => exact absurd (hstep.symm.trans hnext) (by simp)
    | nil =>
      cases rest with
      | nil => exact absurd (hstep.symm.trans hnext) (by simp)
      | cons d more =>
        have hplain := (hspace d (List.mem_cons_self ..)).plain
        rcases eq_of_step_two hnext with
          ⟨quote, rfl, rfl, -⟩ | ⟨-, -, -, rfl⟩ | ⟨-, -, -, rfl⟩ | ⟨-, -, -, rfl⟩
        · exact .inr ⟨quote, d, more, rfl, rfl, rfl, hnext⟩
        · exact absurd rfl hplain.2.1
        · exact absurd rfl hplain.2.1
        · exact absurd rfl hplain.2.2.1

/-- White space behind a text does not change the classes of the text. -/
theorem classes_append_space (mode : Mode) (text : Bytes) (hspace : ∀ c ∈ rest, IsSpaceByte c) :
    ∃ more, mode.classes (text ++ rest) = mode.classes text ++ more := by
  induction mode, text using readInduction with
  | nil mode => exact ⟨mode.classes rest, rfl⟩
  | one mode after c text hstep ih =>
    rcases step_space hspace hstep with hnext | ⟨quote, d, more, rfl, rfl, rfl, hnext⟩
    · obtain ⟨more, hmore⟩ := ih
      refine ⟨more, ?_⟩
      rw [List.cons_append, classes_cons_one hnext, classes_cons_one hstep, hmore, List.cons_append]
    · refine ⟨.string :: Mode.classes (.string quote) more, ?_⟩
      rw [List.cons_append, List.nil_append, classes_cons_two hnext, classes_cons_one hstep]
      rfl
  | two mode after c d text hstep ih =>
    obtain ⟨more, hmore⟩ := ih
    refine ⟨more, ?_⟩
    rw [List.cons_append, List.cons_append, classes_cons_two hstep, classes_cons_two hstep, hmore,
      List.cons_append, List.cons_append]

/-- White space behind a text does not change the marks of the text. -/
theorem marks_append_space (hspace : IsSpace rest) (hcut : Utf8.IsCut rest) :
    mode.marks (text ++ rest) = mode.marks text := by
  obtain ⟨more, hmore⟩ := classes_append_space mode text hspace.isSpaceByte
  have hclassify : mode.classify (text ++ rest) = mode.classify text ++ rest.zip more := by
    rw [classify, hmore, List.zip_append (length_classes mode text).symm, classify]
  have hlength : (mode.classify text).length = (spaceMask text).length := by simp
  rw [marks, hclassify, spaceMask_append hcut, List.zip_append hlength, List.filter_append,
    filter_isMarked_space hspace, List.append_nil, marks]

/-- Trimming a text does not change its marks. -/
theorem marks_trim (text : Bytes) : Mode.code.marks text.trim = Mode.code.marks text := by
  obtain ⟨lead, tail, htext, -, hlead, htail, hmask, hcut⟩ := trim_spec text
  generalize text.trim = inner at htext hmask ⊢
  subst htext
  rw [(reads_space hlead.isSpaceByte).marks_append hmask, marks_of_isSpace hlead, List.nil_append,
    marks_append_space htail hcut]

/-- What a line break leads back to code from: code, or a comment that it ends. -/
def LineBound (mode : Mode) : Prop := mode = .code ∨ mode = .lineComment

instance (mode : Mode) : Decidable mode.LineBound := inferInstanceAs (Decidable (_ ∨ _))

/-- Only a quote becomes the quote of a string. -/
theorem step_isQuote {next : Option UInt8} {taken : Bool} (h : mode.step c next = (after, taken))
    (hquote : ∀ quote, mode = .string quote → isQuote quote = true) :
    ∀ quote, after = .string quote → isQuote quote = true := by
  rintro quote rfl
  cases mode <;> simp only [step] at h <;> grind

/-- White space closes neither a string nor a block comment. -/
theorem not_lineBound_run_space (hspace : ∀ c ∈ text, IsSpaceByte c)
    (hquote : ∀ quote, mode = .string quote → isQuote quote = true) (h : ¬ mode.LineBound) :
    ¬ (run mode text).LineBound := by
  induction text with
  | nil => exact h
  | cons c text ih =>
    obtain ⟨hplain, -, hstar, hescape⟩ := (hspace c (List.mem_cons_self ..)).plain
    have hstep : mode.step c text.head? = (mode, false) := by
      cases mode with
      | code => exact absurd (.inl rfl) h
      | lineComment => exact absurd (.inr rfl) h
      | blockComment => simp [step, hstar]
      | string quote =>
        have hne : c ≠ quote := by
          rintro rfl
          exact absurd (hquote c rfl) (by simp [hplain])
        simp [step, hescape, hne]
    rw [run_cons_one hstep]
    exact ih fun d hd => hspace d (List.mem_cons_of_mem _ hd)

/-- A text that is trimmed at its end ends in code or in a line comment if it did so before. -/
theorem lineBound_of_append_space (hspace : ∀ c ∈ rest, IsSpaceByte c)
    (hquote : ∀ quote, mode = .string quote → isQuote quote = true)
    (h : (run mode (text ++ rest)).LineBound) : (run mode text).LineBound := by
  induction mode, text using readInduction with
  | nil mode =>
    exact Decidable.byContradiction fun hopen => not_lineBound_run_space hspace hquote hopen h
  | one mode after c text hstep ih =>
    rw [run_cons_one hstep]
    rcases step_space hspace hstep with hnext | ⟨quote, d, more, rfl, rfl, rfl, hnext⟩
    · rw [List.cons_append, run_cons_one hnext] at h
      exact ih (step_isQuote hstep hquote) h
    · rw [List.cons_append, List.nil_append, run_cons_two hnext] at h
      have hopen : ¬ (Mode.string quote).LineBound := by simp [LineBound]
      exact absurd h
        (not_lineBound_run_space (fun e he => hspace e (List.mem_cons_of_mem _ he)) hquote hopen)
  | two mode after c d text hstep ih =>
    rw [List.cons_append, List.cons_append, run_cons_two hstep] at h
    rw [run_cons_two hstep]
    exact ih (step_isQuote hstep hquote) h

/-- Trimming a text keeps it from ending in a string or in a block comment. -/
theorem lineBound_run_trim (h : (run .code text).LineBound) : (run .code text.trim).LineBound := by
  obtain ⟨lead, tail, htext, -, hlead, htail, -, -⟩ := trim_spec text
  generalize text.trim = inner at htext ⊢
  subst htext
  rw [(reads_space hlead.isSpaceByte).run_append] at h
  exact lineBound_of_append_space htail.isSpaceByte (fun _ heq => Mode.noConfusion heq) h

/-- Marks that can follow code: a comment at their front starts with a slash. -/
def FollowsCode (marks : List (UInt8 × ByteClass)) : Prop :=
  ∀ c, marks.head? = some (c, .comment) → c = '/'

/-- Marks that follow code, and more of them. -/
theorem FollowsCode.append {front back : List (UInt8 × ByteClass)} (h : FollowsCode front)
    (hback : FollowsCode back) : FollowsCode (front ++ back) := by
  intro c hc
  cases front with
  | nil => exact hback c hc
  | cons mark front => exact h c hc

/-- In code a quote belongs to a string; only a slash can belong to a comment. -/
theorem classify_cons_quote_or_slash (h : ¬ (isQuote c = false ∧ c ≠ '/')) (text : Bytes) :
    ∃ k more, Mode.code.classify (c :: text) = (c, k) :: more ∧ (k = .comment → c = '/') := by
  cases hquote : isQuote c with
  | true =>
    have hstep : Mode.code.step c text.head? = (.string c, false) := by simp [step, hquote]
    exact ⟨_, _, classify_cons_one hstep, fun hk => ByteClass.noConfusion hk⟩
  | false =>
    have hslash : c = '/' := Decidable.byContradiction fun hne => h ⟨hquote, hne⟩
    cases hclasses : Mode.code.classes (c :: text) with
    | nil =>
      have hlength := length_classes .code (c :: text)
      rw [hclasses] at hlength
      exact Nat.noConfusion hlength
    | cons k more =>
      exact ⟨k, text.zip more, by rw [classify, hclasses, List.zip_cons_cons], fun _ => hslash⟩

/-- The marks of what is read from code on, with any white space left out. -/
theorem followsCode_filter {mask : List Bool}
    (hmask : ∀ c, (c, true) ∈ text.zip mask → IsSpaceByte c) :
    FollowsCode ((((Mode.code.classify text).zip mask).filter isMarked).map Prod.fst) := by
  induction text generalizing mask with
  | nil => simp [FollowsCode, classify]
  | cons c text ih =>
    cases mask with
    | nil => simp [FollowsCode]
    | cons space mask =>
      have hrest : ∀ d, (d, true) ∈ text.zip mask → IsSpaceByte d := fun d hd =>
        hmask d (List.mem_cons_of_mem _ hd)
      by_cases hplain : isQuote c = false ∧ c ≠ '/'
      · rw [classify_cons_plain hplain.1 hplain.2, List.zip_cons_cons, List.filter_cons]
        split
        · simp [FollowsCode]
        · exact ih hrest
      · -- a quote or a slash is no white space, so it is the first mark
        have hspace : space = false := by
          cases space with
          | false => rfl
          | true =>
            have hbyte := (hmask c (List.mem_cons_self ..)).plain
            exact absurd ⟨hbyte.1, hbyte.2.1⟩ hplain
        have hsemi : c ≠ ';' := by
          rintro rfl
          exact hplain (by decide)
        obtain ⟨k, more, hclassify, hcomment⟩ := classify_cons_quote_or_slash hplain text
        rw [hclassify, List.zip_cons_cons, List.filter_cons,
          if_pos (by simp [isMarked, hspace, hsemi])]
        intro d hd
        simp only [List.map_cons, List.head?_cons, Option.some.injEq, Prod.mk.injEq] at hd
        rw [← hd.1]
        exact hcomment hd.2

/-- The marks of a text follow code. -/
theorem followsCode_marks (text : Bytes) : FollowsCode (Mode.code.marks text) :=
  followsCode_filter fun _ h => isSpaceByte_of_mem_zip h

/-- An ASCII byte that starts neither a string nor a comment and is no part of a delimiter. -/
def IsPlain (c : UInt8) : Prop := c < 0x80 ∧ isQuote c = false ∧ c ≠ '/' ∧ c ≠ '*'

instance (c : UInt8) : Decidable (IsPlain c) := inferInstanceAs (Decidable (_ ∧ _))

/-- A text that ends in code or in a line comment is read as it is alone in front of a plain
byte. -/
theorem reads_of_lineBound (h : (run .code text).LineBound) (hc : IsPlain c) :
    Reads (fun _ _ _ => True) .code text (run .code text) (c :: rest) := by
  refine reads_of_run (by simp) (fun quote hquote => ?_) fun d hd => ?_
  · rw [hquote] at h
    simp [LineBound] at h
  · obtain rfl : c = d := by simpa using hd
    exact ⟨hc.2.2.1, hc.2.2.2⟩

/-- A plain byte of code stands for itself between what is before it and what is behind it. -/
theorem marks_plain (h : run .code text = .code) (hc : IsPlain c) (rest : Bytes) :
    Mode.code.marks (text ++ c :: rest) =
      Mode.code.marks text ++ (Mode.code.marks [c] ++ Mode.code.marks rest) ∧
    run .code (text ++ c :: rest) = run .code rest := by
  have hread : Reads (fun _ _ _ => True) .code text _ (c :: rest) := reads_of_lineBound (.inl h) hc
  have hstep := step_plain hc.2.1 hc.2.2.1 rest.head?
  rw [h] at hread
  exact ⟨by rw [hread.marks_append_ascii hc.1, marks_cons hc.1 hstep],
    by rw [hread.run_append, run_cons_one hstep]⟩

/-- White space and semicolons have no marks in code. -/
theorem marks_filler (hc : IsPlain c) (h : isAsciiSpace c = true ∨ c = ';') :
    Mode.code.marks [c] = [] := by
  rw [marks_singleton hc.1 (step_plain hc.2.1 hc.2.2.1 none), if_pos]
  exact h.imp_right fun heq => by rw [heq]; rfl

/-- A line break leads back to code from the end of code or of a line comment. -/
theorem marks_line (h : (run .code text).LineBound) (rest : Bytes) :
    Mode.code.marks (text ++ Char.toUInt8 '\n' :: rest) = Mode.code.marks text ++
      Mode.code.marks rest ∧
    run .code (text ++ Char.toUInt8 '\n' :: rest) = run .code rest := by
  have hread : Reads (fun _ _ _ => True) .code text _ (Char.toUInt8 '\n' :: rest) :=
    reads_of_lineBound h (by decide)
  have hstep : ∀ next, (run .code text).step '\n' next = (.code, false) := by
    intro next
    rcases h with hcode | hcomment
    · rw [hcode]
      exact step_plain (by decide) (by decide) next
    · rw [hcomment]
      rfl
  have hblank : (run .code text).marks ['\n'] = [] := by
    rw [marks_singleton (by decide) (hstep none), if_pos (.inl (by decide))]
  exact ⟨by rw [hread.marks_append_ascii (by decide), marks_cons (by decide) (hstep _),
    hblank, List.nil_append], by rw [hread.run_append, run_cons_one (hstep _)]⟩

end Mode

end TagScript
