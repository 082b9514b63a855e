import TagScript.Source.Mode

/-!
# Reading a script step by step

A reader takes one byte at a time, or two where a backslash or a comment delimiter takes the
next byte along. Each byte belongs to code, to a string or to a comment; delimiters belong to
what they delimit.

`Mode.Reads` cuts a text where one of the reader's steps ends. Its first part is then read as
it would be alone, and the rest as if it stood in front.
-/

namespace TagScript

/-- What a byte of a script belongs to. -/
inductive ByteClass where
  | code
  | string
  | comment
  deriving DecidableEq, Repr

namespace Mode

/-- What the bytes inside a mode belong to. -/
def byteClass : Mode → ByteClass
  | .code => .code
  | .string _ => .string
  | .lineComment => .comment
  | .blockComment => .comment

/-- What the bytes of one step belong to; a delimiter belongs to what it opens or closes. -/
def stepClass (before after : Mode) : ByteClass :=
  if before = .code then after.byteClass else before.byteClass

/-- The class of each byte of a text, read from the given mode on. -/
def classes (mode : Mode) : Bytes → List ByteClass
  | [] => []
  | [c] => [mode.stepClass (mode.step c none).1]
  | c :: d :: text =>
    match mode.step c (some d) with
    | (after, true) => mode.stepClass after :: mode.stepClass after :: classes after text
    | (after, false) => mode.stepClass after :: classes after (d :: text)

/-- Each byte of a text with its class. -/
def classify (mode : Mode) (text : Bytes) : List (UInt8 × ByteClass) := text.zip (mode.classes text)

/-- A byte with nothing behind it is read alone. -/
theorem step_none_snd (mode : Mode) (c : UInt8) : (mode.step c none).2 = false := by
  cases mode <;> simp only [step] <;> grind

/-- A byte read alone is read in the same way when nothing stands behind it. -/
theorem step_none_of_step {mode after : Mode} {c : UInt8} {next : Option UInt8}
    (h : mode.step c next = (after, false)) : mode.step c none = (after, false) := by
  cases mode <;> simp only [step] at h ⊢ <;> grind

/-- A byte read alone in front of a text and what follows is read alone in front of the text. -/
theorem step_alone {mode after : Mode} {c : UInt8} {text rest : Bytes}
    (h : mode.step c (text ++ rest).head? = (after, false)) :
    mode.step c text.head? = (after, false) := by
  cases text with
  | nil => exact step_none_of_step h
  | cons d text => exact h

/-- Only a backslash, a slash or a star reads the next byte along. -/
theorem eq_of_step_two {mode after : Mode} {c d : UInt8}
    (h : mode.step c (some d) = (after, true)) :
    (∃ quote, mode = .string quote ∧ after = .string quote ∧ c = '\\') ∨
      (mode = .blockComment ∧ after = .code ∧ c = '*' ∧ d = '/') ∨
      (mode = .code ∧ after = .lineComment ∧ c = '/' ∧ d = '/') ∨
      (mode = .code ∧ after = .blockComment ∧ c = '/' ∧ d = '*') := by
  cases mode <;> simp only [step] at h <;> grind

/-- In code, a byte that starts neither a string nor a comment is read alone and leads to code. -/
theorem step_plain {c : UInt8} (hquote : isQuote c = false) (hslash : c ≠ '/')
    (next : Option UInt8) :
    Mode.code.step c next = (.code, false) := by
  simp [step, hquote, hslash]

/-- The bytes of a step belong to code when the step stays in code, and only then. -/
theorem stepClass_eq_code_iff {before after : Mode} :
    before.stepClass after = .code ↔ before = .code ∧ after = .code := by
  cases before <;> cases after <;> simp [stepClass, byteClass]

/-- Bytes that are read together never belong to code. -/
theorem stepClass_two {mode after : Mode} {c d : UInt8} (h : mode.step c (some d) = (after, true)) :
    mode.stepClass after ≠ .code := by
  rw [Ne, stepClass_eq_code_iff]
  rintro ⟨rfl, rfl⟩
  rcases eq_of_step_two h with ⟨_, hmode, _⟩ | ⟨hmode, _⟩ | ⟨_, hafter, _⟩ | ⟨_, hafter, _⟩ <;>
    contradiction

/-- Every text is empty, or starts with one step of the reader. -/
theorem readInduction {motive : Mode → Bytes → Prop}
    (nil : ∀ mode, motive mode [])
    (one : ∀ mode after c text, mode.step c text.head? = (after, false) → motive after text →
      motive mode (c :: text))
    (two : ∀ mode after c d text, mode.step c (some d) = (after, true) → motive after text →
      motive mode (c :: d :: text))
    (mode : Mode) (text : Bytes) : motive mode text := by
  induction mode, text using run.induct with
  | case1 mode => exact nil mode
  | case2 mode c =>
    have hstep : mode.step c none = ((mode.step c none).1, false) :=
      Prod.ext rfl (step_none_snd mode c)
    exact one mode _ c [] hstep (nil _)
  | case3 mode c d text after hstep ih => exact two mode after c d text hstep ih
  | case4 mode c d text after hstep ih => exact one mode after c (d :: text) hstep ih

section Equations

variable {mode after : Mode} {c d : UInt8} {text : Bytes}

/-- The mode after a text whose first byte is read alone. -/
theorem run_cons_one (h : mode.step c text.head? = (after, false)) :
    run mode (c :: text) = run after text := by
  cases text with
  | nil => simp [run, show mode.step c none = (after, false) from h]
  | cons d text => simp [run, show mode.step c (some d) = (after, false) from h]

/-- The mode after a text whose first two bytes are read together. -/
theorem run_cons_two (h : mode.step c (some d) = (after, true)) :
    run mode (c :: d :: text) = run after text := by
  simp [run, h]

/-- The classes of a text whose first byte is read alone. -/
theorem classes_cons_one (h : mode.step c text.head? = (after, false)) :
    classes mode (c :: text) = mode.stepClass after :: classes after text := by
  cases text with
  | nil => simp [classes, show mode.step c none = (after, false) from h]
  | cons d text => simp [classes, show mode.step c (some d) = (after, false) from h]

/-- The classes of a text whose first two bytes are read together. -/
theorem classes_cons_two (h : mode.step c (some d) = (after, true)) :
    classes mode (c :: d :: text) = mode.stepClass after :: mode.stepClass after ::
      classes after text := by
  simp [classes, h]

end Equations

/-- Every byte has one class. -/
@[simp] theorem length_classes (mode : Mode) (text : Bytes) :
    (classes mode text).length = text.length := by
  induction mode, text using readInduction with
  | nil => rfl
  | one mode after c text hstep ih =>
    rw [classes_cons_one hstep, List.length_cons, ih, List.length_cons]
  | two mode after c d text hstep ih => simp [classes_cons_two hstep, ih]

/-- Classified text is as long as the text. -/
@[simp] theorem length_classify (mode : Mode) (text : Bytes) :
    (classify mode text).length = text.length := by
  simp [classify]

section Equations

variable {mode after : Mode} {c d : UInt8} {text : Bytes}

/-- Classified text whose first byte is read alone. -/
theorem classify_cons_one (h : mode.step c text.head? = (after, false)) :
    classify mode (c :: text) = (c, mode.stepClass after) :: classify after text := by
  rw [classify, classes_cons_one h, List.zip_cons_cons, classify]

/-- Classified text whose first two bytes are read together. -/
theorem classify_cons_two (h : mode.step c (some d) = (after, true)) :
    classify mode (c :: d :: text) =
      (c, mode.stepClass after) :: (d, mode.stepClass after) :: classify after text := by
  rw [classify, classes_cons_two h, List.zip_cons_cons, List.zip_cons_cons, classify]

/-- Classified text that starts with a plain byte of code. -/
theorem classify_cons_plain (hquote : isQuote c = false) (hslash : c ≠ '/') :
    classify .code (c :: text) = (c, .code) :: classify .code text :=
  classify_cons_one (step_plain hquote hslash _)

end Equations

/-- A reader in mode `before` with `text ++ rest` in front of it gets exactly through `text` and is
in mode `final` then. Every byte that is read alone satisfies `keeps`, which is told the modes
around it. -/
inductive Reads (keeps : Mode → UInt8 → Mode → Prop) : Mode → Bytes → Mode → Bytes → Prop where
  | nil {mode : Mode} {rest : Bytes} : Reads keeps mode [] mode rest
  | one {before after final : Mode} {c : UInt8} {text rest : Bytes}
      (hstep : before.step c (text ++ rest).head? = (after, false)) (hkeep : keeps before c after)
      (hread : Reads keeps after text final rest) : Reads keeps before (c :: text) final rest
  | two {before after final : Mode} {c d : UInt8} {text rest : Bytes}
      (hstep : before.step c (some d) = (after, true))
      (hread : Reads keeps after text final rest) : Reads keeps before (c :: d :: text) final rest

namespace Reads

variable {keeps : Mode → UInt8 → Mode → Prop} {before middle final : Mode} {text more rest : Bytes}

/-- Reading on after a reading. -/
theorem trans (first : Reads keeps before text middle (more ++ rest))
    (second : Reads keeps middle more final rest) :
    Reads keeps before (text ++ more) final rest := by
  generalize hall : more ++ rest = all at first
  induction first with
  | nil => exact second
  | one hstep hkeep _ ih =>
    subst hall
    refine one ?_ hkeep (ih second rfl)
    simpa only [List.append_eq, List.append_assoc] using hstep
  | two hstep _ ih => exact two hstep (ih second hall)

/-- The text that was read leads to the same mode when it stands alone. -/
theorem run_eq (read : Reads keeps before text final rest) : run before text = final := by
  induction read with
  | nil => rfl
  | one hstep _ _ ih => rw [run_cons_one (step_alone hstep), ih]
  | two hstep _ ih => rw [run_cons_two hstep, ih]

/-- The rest is read from the mode in which the text ends. -/
theorem run_append (read : Reads keeps before text final rest) :
    run before (text ++ rest) = run final rest := by
  induction read with
  | nil => rfl
  | one hstep _ _ ih => rw [List.cons_append, run_cons_one hstep, ih]
  | two hstep _ ih => rw [List.cons_append, List.cons_append, run_cons_two hstep, ih]

/-- The text has the classes that it has alone, the rest those from the mode in which the text
ends. -/
theorem classes_append (read : Reads keeps before text final rest) :
    classes before (text ++ rest) = classes before text ++ classes final rest := by
  induction read with
  | nil => rfl
  | one hstep _ _ ih =>
    rw [List.cons_append, classes_cons_one hstep, classes_cons_one (step_alone hstep), ih,
      List.cons_append]
  | two hstep _ ih =>
    rw [List.cons_append, List.cons_append, classes_cons_two hstep, classes_cons_two hstep, ih,
      List.cons_append, List.cons_append]

/-- Classifying a text and the rest behind it. -/
theorem classify_append (read : Reads keeps before text final rest) :
    classify before (text ++ rest) = classify before text ++ classify final rest := by
  rw [classify, read.classes_append, List.zip_append (length_classes before text).symm,
    classify, classify]

end Reads

/-- A byte that stands behind a text without changing how the text is read. -/
def IsSeparator (c : UInt8) : Prop := c ≠ '/' ∧ c ≠ '*'

instance (c : UInt8) : Decidable (IsSeparator c) := inferInstanceAs (Decidable (_ ∧ _))

/-- A backslash never becomes the quote of a string. -/
theorem step_ne_backslash {mode after : Mode} {c : UInt8} {next : Option UInt8} {taken : Bool}
    (h : mode.step c next = (after, taken)) (hmode : mode ≠ .string '\\') :
    after ≠ .string '\\' := by
  have hquote : isQuote '\\' = false := by decide
  rintro rfl
  cases mode <;> simp only [step] at h <;> grind

/-- A byte at the end of a text that ends outside strings is read alone, also when a separator
follows. -/
theorem step_separator {mode after : Mode} {c d : UInt8} (h : mode.step c none = (after, false))
    (hmode : mode ≠ .string '\\') (hafter : ∀ quote, after ≠ .string quote) (hsep : IsSeparator d) :
    mode.step c (some d) = (after, false) := by
  rcases hnext : mode.step c (some d) with ⟨next, taken⟩
  cases taken with
  | false => rw [← h, ← step_none_of_step hnext]
  | true =>
    rcases eq_of_step_two hnext with
      ⟨quote, rfl, -, rfl⟩ | ⟨-, -, -, rfl⟩ | ⟨-, -, -, rfl⟩ | ⟨-, -, -, rfl⟩
    · -- an open string stays open at a backslash that ends the text
      have hquote : ('\\' : UInt8) ≠ quote := fun heq => hmode (by rw [heq])
      simp only [step, Option.isSome_none, Bool.and_false, Bool.false_eq_true, if_false, hquote,
        Prod.mk.injEq, and_true] at h
      exact absurd h.symm (hafter quote)
    · exact absurd rfl hsep.1
    · exact absurd rfl hsep.1
    · exact absurd rfl hsep.2

/-- A text that ends outside strings is read as it is alone in front of anything that starts with
a separator. -/
theorem reads_of_run {mode : Mode} {text rest : Bytes} (hmode : mode ≠ .string '\\')
    (hfinal : ∀ quote, run mode text ≠ .string quote)
    (hrest : ∀ d, rest.head? = some d → IsSeparator d) :
    Reads (fun _ _ _ => True) mode text (run mode text) rest := by
  induction mode, text using readInduction with
  | nil mode => exact .nil
  | one mode after c text hstep ih =>
    rw [run_cons_one hstep] at hfinal ⊢
    refine .one ?_ trivial (ih (step_ne_backslash hstep hmode) hfinal)
    cases text with
    | cons d text => exact hstep
    | nil =>
      change mode.step c rest.head? = (after, false)
      cases hhead : rest.head? with
      | none => exact hstep
      | some d => exact step_separator hstep hmode hfinal (hrest d hhead)
  | two mode after c d text hstep ih =>
    rw [run_cons_two hstep] at hfinal ⊢
    exact .two hstep (ih (step_ne_backslash hstep hmode) hfinal)

end Mode

end TagScript
