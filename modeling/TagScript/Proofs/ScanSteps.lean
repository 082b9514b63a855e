import TagScript.Proofs.Pairing

/-!
# The steps of a scan

What the scanner does with the next bytes, one equation for each case: a byte joins the pending
text, a separator turns the pending text into a token, or an opening bracket starts a block.
`scanInduction` goes through a scan along these cases.
-/

namespace TagScript

namespace Scan

/-- Whether a byte that is read alone ends the text of a token. -/
def ends (header : Bool) (before : Mode) (c : UInt8) (after : Mode) : Bool :=
  match before, after with
  | .code, .code => (Bracket.ofOpener? c).isSome || c = ';' || (!header && c = '\n')
  | .lineComment, .code => !header
  | _, _ => false

/-- The bytes that stay in the text of a token. -/
def Kept (header : Bool) (before : Mode) (c : UInt8) (after : Mode) : Prop :=
  ends header before c after = false

/-- What ends a statement outside `for` headers: a semicolon, or a line break that may end a
comment. -/
def EndsStatement (mode : Mode) (c : UInt8) : Prop :=
  mode = .code ∧ c = ';' ∨ (mode = .code ∨ mode = .lineComment) ∧ c = '\n'

/-- A computation that succeeds after another one has its result to start from. -/
theorem ok_of_bind {ε α β : Type} {x : Except ε α} {f : α → Except ε β} {b : β}
    (h : x >>= f = .ok b) :
    ∃ a, x = .ok a ∧ f a = .ok b := by
  cases x with
  | error e => exact nomatch h
  | ok a => exact ⟨a, rfl, h⟩

/-- What ends the text of a token: an opening bracket, a semicolon in a `for` header, or what ends a
statement elsewhere. -/
theorem cases_of_ends {header : Bool} {mode next : Mode} {c : UInt8} {after : Option UInt8}
    {taken : Bool} (hstep : mode.step c after = (next, taken))
    (h : ends header mode c next = true) :
    (mode = .code ∧ ∃ bracket : Bracket, c = bracket.opener) ∨
      (mode = .code ∧ header = true ∧ c = ';') ∨ (header = false ∧ EndsStatement mode c) := by
  unfold ends at h
  split at h
  · simp only [Bool.or_eq_true, Option.isSome_iff_exists, decide_eq_true_eq, Bool.and_eq_true,
      Bool.not_eq_true'] at h
    obtain (⟨bracket, hopener⟩ | rfl) | ⟨rfl, rfl⟩ := h
    · exact .inl ⟨rfl, bracket, Bracket.opener_of_ofOpener? hopener⟩
    · cases header with
      | true => exact .inr (.inl ⟨rfl, rfl, rfl⟩)
      | false => exact .inr (.inr ⟨rfl, .inl ⟨rfl, rfl⟩⟩)
    · exact .inr (.inr ⟨rfl, .inr ⟨.inl rfl, rfl⟩⟩)
  · have hline : c = '\n' := by
      simp only [Mode.step] at hstep
      grind
    exact .inr (.inr ⟨by simpa using h, .inr ⟨.inr rfl, hline⟩⟩)
  · exact absurd h Bool.noConfusion

/-- What ends a statement is read alone and leads to code. -/
theorem EndsStatement.step {mode : Mode} {c : UInt8} (h : EndsStatement mode c)
    (next : Option UInt8) :
    mode.step c next = (.code, false) := by
  obtain ⟨rfl, rfl⟩ | ⟨rfl | rfl, rfl⟩ := h
  · exact Mode.step_plain (by decide) (by decide) next
  · exact Mode.step_plain (by decide) (by decide) next
  · rfl

/-- What ends a statement opens no bracket. -/
theorem EndsStatement.ofOpener?_eq_none {mode : Mode} {c : UInt8} (h : EndsStatement mode c) :
    Bracket.ofOpener? c = none := by
  obtain ⟨-, rfl⟩ | ⟨-, rfl⟩ := h <;> decide

/-- A byte that stays in the text of a token opens no bracket in code. -/
theorem Kept.ofOpener?_eq_none {header : Bool} {mode next : Mode} {c : UInt8}
    (h : Kept header mode c next)
    (hcode : mode.stepClass next = .code) : Bracket.ofOpener? c = none := by
  obtain ⟨rfl, rfl⟩ := Mode.stepClass_eq_code_iff.1 hcode
  simp only [Kept, ends, Bool.or_eq_false_iff, Option.isSome_eq_false_iff,
    Option.isNone_iff_eq_none] at h
  exact h.1.1

/-- What holds of the bytes that are kept in code holds of the code of a text. -/
theorem forall_code_of_reads {keeps : Mode → UInt8 → Mode → Prop}
    {p : UInt8 → Prop} {mode final : Mode} {text rest : Bytes}
    (h : Mode.Reads keeps mode text final rest) (hkeeps : ∀ c, keeps .code c .code → p c) :
    ∀ e ∈ mode.classify text, e.2 = .code → p e.1 := by
  induction h with
  | nil => simp [Mode.classify]
  | one hstep hkeep _ ih =>
    rw [Mode.classify_cons_one (Mode.step_alone hstep)]
    intro e he hcode
    rcases List.mem_cons.1 he with rfl | he
    · obtain ⟨rfl, rfl⟩ := Mode.stepClass_eq_code_iff.1 hcode
      exact hkeeps _ hkeep
    · exact ih e he hcode
  | two hstep _ ih =>
    rw [Mode.classify_cons_two hstep]
    intro e he hcode
    have hclass := Mode.stepClass_two hstep
    rcases List.mem_cons.1 he with rfl | he
    · exact absurd hcode hclass
    rcases List.mem_cons.1 he with rfl | he
    · exact absurd hcode hclass
    · exact ih e he hcode

/-- The text of a token opens no bracket in code. -/
theorem ofOpener?_of_reads {header : Bool} {mode final : Mode} {text rest : Bytes}
    (h : Mode.Reads (Kept header) mode text final rest) :
    ∀ e ∈ mode.classify text, e.2 = .code → Bracket.ofOpener? e.1 = none :=
  forall_code_of_reads h fun _ hkeep => hkeep.ofOpener?_eq_none rfl

section Equations

variable {limit level : Nat} {header : Bool} {clauses : Clauses}
  {mode next : Mode} {pending : Bytes} {position : Nat} {c d : UInt8} {text inside after : Bytes}
  {bracket : Bracket}

/-- At the end the pending text becomes the last token. -/
theorem tokensFrom_nil : tokensFrom limit level header clauses mode pending position [] =
    .ok (if clauses.split then endClause clauses pending position else flush pending position) := by
  rw [tokensFrom.eq_def]
  dsimp only
  split <;> rfl

/-- A bracket below the limit is refused. -/
theorem tokensFrom_tooDeep (hlevel : limit ≤ level) :
    tokensFrom limit level header clauses .code pending position (bracket.opener :: text) =
      .error ⟨.tooDeep, bracket.opener, position⟩ := by
  rw [tokensFrom.eq_def]
  simp [Mode.step_plain bracket.opener_plain.1 bracket.opener_plain.2, hlevel]

/-- A bracket without a closer is an error. -/
theorem tokensFrom_unmatched (hlevel : ¬ limit ≤ level)
    (h : splitAtCloser bracket 0 .code text = none) :
    tokensFrom limit level header clauses .code pending position (bracket.opener :: text) =
      .error ⟨.unmatched, bracket.opener, position⟩ := by
  rw [tokensFrom.eq_def]
  simp only [Mode.step_plain bracket.opener_plain.1 bracket.opener_plain.2,
    Bracket.ofOpener?_opener, hlevel, if_false]
  split
  · rfl
  next hsome => simp [h] at hsome

/-- A bracket with a closer becomes a block, and the scan goes on behind the closer. -/
theorem tokensFrom_block (hlevel : ¬ limit ≤ level)
    (h : splitAtCloser bracket 0 .code text = some (inside, after)) :
    tokensFrom limit level header clauses .code pending position (bracket.opener :: text) = (do
      let children ← tokensFrom limit (level + 1)
        (isForHeader (pendingText (bracket.opener :: pending))) {} .code [] (position + 1) inside
      let rest ← tokensFrom limit level header { clauses with filled := true } .code []
        (position + inside.length + 2) after
      return .block (pendingText (bracket.opener :: pending)) children
        (pendingOffset (bracket.opener :: pending) (position + 1)) :: rest) := by
  rw [tokensFrom.eq_def]
  simp only [Mode.step_plain bracket.opener_plain.1 bracket.opener_plain.2,
    Bracket.ofOpener?_opener, hlevel, if_false]
  split
  next hnone => simp [h] at hnone
  next hsome =>
    rw [h, Option.some.injEq, Prod.mk.injEq] at hsome
    obtain ⟨rfl, rfl⟩ := hsome
    rfl

/-- A semicolon in a `for` header ends a clause. -/
theorem tokensFrom_clause :
    tokensFrom limit level true clauses .code pending position (';' :: text) = (do
      let rest ← tokensFrom limit level true { split := true } .code [] (position + 1) text
      return endClause clauses pending position ++ rest) := by
  have hstep : Mode.code.step ';' text.head? = (.code, false) :=
    Mode.step_plain (by decide) (by decide) _
  have hopener : Bracket.ofOpener? ';' = none := by decide
  rw [tokensFrom.eq_def]
  simp [hstep, hopener]

/-- Outside `for` headers a separator ends a statement. -/
theorem tokensFrom_statement (hend : EndsStatement mode c) :
    tokensFrom limit level false clauses mode pending position (c :: text) = (do
      let rest ← tokensFrom limit level false clauses .code [] (position + 1) text
      return flush pending position ++ rest) := by
  rw [tokensFrom.eq_def]
  simp only [hend.step, hend.ofOpener?_eq_none]
  obtain ⟨rfl, rfl⟩ | ⟨rfl | rfl, rfl⟩ := hend <;> simp

/-- A byte that ends nothing joins the pending text. -/
theorem tokensFrom_one (hstep : mode.step c text.head? = (next, false))
    (hkeep : Kept header mode c next) :
    tokensFrom limit level header clauses mode pending position (c :: text) =
      tokensFrom limit level header clauses next (c :: pending) (position + 1) text := by
  rw [tokensFrom.eq_def]
  simp only [hstep]
  split
  next heq =>
    obtain ⟨rfl, -⟩ := Prod.mk.inj heq
    simp only [Kept, ends, Bool.or_eq_false_iff, Option.isSome_eq_false_iff,
      Option.isNone_iff_eq_none, decide_eq_false_iff_not] at hkeep
    obtain ⟨⟨hopener, hsemi⟩, hline⟩ := hkeep
    cases header with
    | true => simp [hopener, hsemi]
    | false =>
      have hline : c ≠ '\n' := by simpa using hline
      simp [hopener, hsemi, hline]
  next heq =>
    obtain ⟨rfl, -⟩ := Prod.mk.inj heq
    simp only [Kept, ends, Bool.not_eq_false'] at hkeep
    rw [if_pos hkeep]
  next heq => simp at heq
  next heq =>
    obtain ⟨rfl, -⟩ := Prod.mk.inj heq
    rfl

/-- Bytes that are read together join the pending text. -/
theorem tokensFrom_two (hstep : mode.step c (some d) = (next, true)) :
    tokensFrom limit level header clauses mode pending position (c :: d :: text) =
      tokensFrom limit level header clauses next (d :: c :: pending) (position + 2) text := by
  rw [tokensFrom.eq_def]
  simp only [List.head?_cons, hstep]
  obtain ⟨quote, rfl, rfl, -⟩ | ⟨rfl, rfl, -⟩ | ⟨rfl, rfl, -⟩ | ⟨rfl, rfl, -⟩ :=
    Mode.eq_of_step_two hstep <;> rfl

end Equations

/-- Induction along a scan. -/
theorem scanInduction {motive : Nat → Bool → Clauses → Mode → Bytes → Nat → Bytes → Prop}
    (finish : ∀ level header clauses mode pending position,
      motive level header clauses mode pending position [])
    (opener : ∀ level header clauses pending position (bracket : Bracket) text,
      (∀ inside after, splitAtCloser bracket 0 .code text = some (inside, after) →
        motive (level + 1) (isForHeader (pendingText (bracket.opener :: pending))) {} .code []
          (position + 1) inside ∧
        motive level header { clauses with filled := true } .code []
          (position + inside.length + 2) after) →
      motive level header clauses .code pending position (bracket.opener :: text))
    (clause : ∀ level clauses pending position text,
      motive level true { split := true } .code [] (position + 1) text →
      motive level true clauses .code pending position (';' :: text))
    (statement : ∀ level clauses mode pending position c text, EndsStatement mode c →
      motive level false clauses .code [] (position + 1) text →
      motive level false clauses mode pending position (c :: text))
    (one : ∀ level header clauses mode next pending position c text,
      mode.step c text.head? = (next, false) → Kept header mode c next →
      motive level header clauses next (c :: pending) (position + 1) text →
      motive level header clauses mode pending position (c :: text))
    (two : ∀ level header clauses mode next pending position c d text,
      mode.step c (some d) = (next, true) →
      motive level header clauses next (d :: c :: pending) (position + 2) text →
      motive level header clauses mode pending position (c :: d :: text))
    (level : Nat) (header : Bool) (clauses : Clauses) (mode : Mode)
      (pending : Bytes) (position : Nat)
    (text : Bytes) : motive level header clauses mode pending position text := by
  induction hlength : text.length using Nat.strongRecOn
    generalizing level header clauses mode pending position text with
  | _ n ih =>
    match text with
    | [] => exact finish ..
    | c :: text =>
      rw [List.length_cons] at hlength
      rcases hstep : mode.step c text.head? with ⟨next, taken⟩
      cases taken with
      | true =>
        cases text with
        | nil =>
          have hsnd := Mode.step_none_snd mode c
          rw [show mode.step c none = (next, true) from hstep] at hsnd
          exact absurd hsnd Bool.noConfusion
        | cons d text =>
          rw [List.length_cons] at hlength
          exact two _ _ _ _ _ _ _ _ _ _ hstep (ih text.length (by omega) _ _ _ _ _ _ _ rfl)
      | false =>
        cases hend : ends header mode c next with
        | false =>
          exact one _ _ _ _ _ _ _ _ _ hstep hend (ih text.length (by omega) _ _ _ _ _ _ _ rfl)
        | true =>
          rcases cases_of_ends hstep hend with ⟨rfl, bracket, rfl⟩
            | ⟨rfl, rfl, rfl⟩ | ⟨rfl, hstatement⟩
          · refine opener _ _ _ _ _ _ _ fun inside after hsplit => ?_
            obtain ⟨hinside, hafter⟩ := length_lt_of_splitAtCloser hsplit
            exact ⟨ih inside.length (by omega) _ _ _ _ _ _ _ rfl,
              ih after.length (by omega) _ _ _ _ _ _ _ rfl⟩
          · exact clause _ _ _ _ _ (ih text.length (by omega) _ _ _ _ _ _ _ rfl)
          · exact statement _ _ _ _ _ _ _ hstatement (ih text.length (by omega) _ _ _ _ _ _ _ rfl)

end Scan

end TagScript
