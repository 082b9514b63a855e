import TagScript.Proofs.CommentSafety

/-!
# Trees that can be scanned

What the scanner makes of a script is determined by its layout, so a text that is laid out as some
tokens is scanned as these tokens, if they nest within the limit.

The tokens themselves tell whether they can be the result of a scan: their texts are trimmed and
hold nothing that would end them, and between the brackets of a block the brackets of that kind
match. Such trees are called scannable, and scans yield no others.
-/

namespace TagScript

namespace Mode

open Bytes

variable {keeps : Mode → UInt8 → Mode → Prop} {mode final : Mode} {text lead tail rest : Bytes}

/-- Bytes in front of a text that start neither a string nor a comment can be left out. -/
theorem Reads.of_plain_append (hlead : ∀ c ∈ lead, isQuote c = false ∧ c ≠ '/')
    (h : Reads keeps .code (lead ++ text) final rest) : Reads keeps .code text final rest := by
  induction lead with
  | nil => exact h
  | cons c lead ih =>
    have hplain := hlead c (List.mem_cons_self ..)
    have hstep := step_plain hplain.1 hplain.2
    generalize hall : c :: lead ++ text = all at h
    cases h with
    | nil => simp at hall
    | one hread hkeep hrest =>
      rw [List.cons_append] at hall
      obtain ⟨rfl, rfl⟩ := List.cons.inj hall
      rw [hstep] at hread
      obtain ⟨rfl, -⟩ := Prod.mk.inj hread
      exact ih (fun d hd => hlead d (List.mem_cons_of_mem _ hd)) hrest
    | two hread hrest =>
      rw [List.cons_append] at hall
      obtain ⟨rfl, -⟩ := List.cons.inj hall
      rw [hstep] at hread
      exact absurd (Prod.mk.inj hread).2 Bool.noConfusion

/-- White space in front of a text that is read from code on can be left out. -/
theorem Reads.of_space_append (hlead : ∀ c ∈ lead, IsSpaceByte c)
    (h : Reads keeps .code (lead ++ text) final rest) : Reads keeps .code text final rest :=
  h.of_plain_append fun c hc => ⟨(hlead c hc).plain.1, (hlead c hc).plain.2.1⟩

/-- White space behind a text can be left out, also when it was escaped in a string. -/
theorem Reads.of_append_space (htail : ∀ c ∈ tail, IsSpaceByte c) (hmode : mode ≠ .string '\\')
    (hescape : ∀ quote, keeps (.string quote) '\\' (.string quote))
    (h : Reads keeps mode (text ++ tail) final rest) :
    ∃ middle, Reads keeps mode text middle [] := by
  generalize hall : text ++ tail = all at h
  induction h generalizing text with
  | nil =>
    obtain ⟨rfl, -⟩ := List.append_eq_nil_iff.1 hall
    exact ⟨_, .nil⟩
  | @one before after final c more rest hstep hkeep hread ih =>
    cases text with
    | nil => exact ⟨_, .nil⟩
    | cons d text =>
      rw [List.cons_append] at hall
      obtain ⟨rfl, rfl⟩ := List.cons.inj hall
      obtain ⟨middle, hmiddle⟩ := ih (step_ne_backslash hstep hmode) rfl
      refine ⟨middle, .one ?_ hkeep hmiddle⟩
      rw [List.append_nil]
      rw [List.append_assoc] at hstep
      exact step_alone hstep
  | @two before after final c d more rest hstep hread ih =>
    match text with
    | [] => exact ⟨_, .nil⟩
    | [e] =>
      rw [List.singleton_append] at hall
      obtain ⟨rfl, hmore⟩ := List.cons.inj hall
      have hplain := (htail d (hmore ▸ List.mem_cons_self ..)).plain
      rcases eq_of_step_two hstep with
        ⟨quote, rfl, -, rfl⟩ | ⟨-, -, -, rfl⟩ | ⟨-, -, -, rfl⟩ | ⟨-, -, -, rfl⟩
      · have hquote : ('\\' : UInt8) ≠ quote := fun heq => hmode (by rw [heq])
        exact ⟨.string quote, .one (by simp [step, hquote]) (hescape quote) .nil⟩
      · exact absurd rfl hplain.2.1
      · exact absurd rfl hplain.2.1
      · exact absurd rfl hplain.2.2.1
    | e :: f :: text =>
      rw [List.cons_append, List.cons_append] at hall
      obtain ⟨rfl, hmore⟩ := List.cons.inj hall
      obtain ⟨rfl, rfl⟩ := List.cons.inj hmore
      obtain ⟨middle, hmiddle⟩ := ih (step_ne_backslash hstep hmode) rfl
      exact ⟨middle, .two hstep hmiddle⟩

/-- What was read in front of other text is read in the same way alone. -/
theorem Reads.alone (h : Reads keeps mode text final rest) : Reads keeps mode text final [] := by
  induction h with
  | nil => exact .nil
  | one hstep hkeep _ ih => exact .one (by rw [List.append_nil]; exact step_alone hstep) hkeep ih
  | two hstep _ ih => exact .two hstep ih

/-- A text that ends outside strings is read in the same way in front of a separator. -/
theorem Reads.extend (h : Reads keeps mode text final []) (hmode : mode ≠ .string '\\')
    (hfinal : ∀ quote, final ≠ .string quote) (hrest : ∀ d, rest.head? = some d → IsSeparator d) :
    Reads keeps mode text final rest := by
  generalize hnothing : ([] : Bytes) = nothing at h
  induction h with
  | nil => exact .nil
  | @one before after final c text nothing hstep hkeep hread ih =>
    subst hnothing
    refine .one ?_ hkeep (ih (step_ne_backslash hstep hmode) hfinal rfl)
    cases text with
    | cons d text => exact hstep
    | nil =>
      change before.step c rest.head? = (after, false)
      cases hhead : rest.head? with
      | none => exact hstep
      | some d =>
        have hafter : after = final := hread.run_eq
        exact step_separator hstep hmode (hafter ▸ hfinal) (hrest d hhead)
  | two hstep _ ih => exact .two hstep (ih (step_ne_backslash hstep hmode) hfinal hnothing)

end Mode

namespace Token

/-- The depth of two sequences is that of the deeper one. -/
theorem depthAll_append (ts us : List Token) :
    depthAll (ts ++ us) = max (depthAll ts) (depthAll us) := by
  induction ts with
  | nil => simp [depthAll]
  | cons t ts ih => rw [List.cons_append, depthAll, ih, depthAll, Nat.max_assoc]

end Token

namespace Scan

open Token

/-- The pending text does not nest. -/
@[simp] theorem depthAll_flush (pending : Bytes) (position : Nat) :
    depthAll (flush pending position) = 0 := by
  unfold flush
  dsimp only
  split <;> simp [depthAll, depth]

/-- The end of a clause does not nest. -/
@[simp] theorem depthAll_endClause (clauses : Clauses) (pending : Bytes) (position : Nat) :
    depthAll (endClause clauses pending position) = 0 := by
  unfold endClause
  split
  · split <;> simp [depthAll, depth]
  · exact depthAll_flush pending position

/-- Text that stays in a token joins the pending text. -/
theorem tokensFrom_reads {limit level : Nat} {header : Bool} {clauses : Clauses}
    {before final : Mode} {pending : Bytes} {position : Nat} {text rest : Bytes}
    (h : Mode.Reads (Kept header) before text final rest) :
    tokensFrom limit level header clauses before pending position (text ++ rest) =
      tokensFrom limit level header clauses final (text.reverse ++ pending)
        (position + text.length) rest := by
  induction h generalizing pending position with
  | nil => rfl
  | one hstep hkeep _ ih =>
    rw [List.cons_append, tokensFrom_one hstep hkeep, ih, List.reverse_cons, List.append_assoc,
      List.singleton_append, List.length_cons, Nat.add_right_comm, Nat.add_assoc]
  | two hstep _ ih =>
    rw [List.cons_append, List.cons_append, tokensFrom_two hstep, ih]
    simp only [List.reverse_cons, List.append_assoc, List.singleton_append, List.length_cons]
    congr 1
    omega

/-- A text is scanned as the tokens that it is laid out as, if the limit leaves room for them. -/
theorem Layout.tokensFrom_eq {limit level : Nat} {header : Bool}
    {clauses : Clauses} {position : Nat} {text : Bytes} {tokens : List Token}
    {pairs : List BracketPair} (h : Layout header clauses position text tokens pairs)
    (hlimit : depthAll tokens ≤ limit - level) :
    tokensFrom limit level header clauses .code [] position text = .ok tokens := by
  induction h generalizing level with
  | @finish header clauses position text mode hread =>
    have hscan : tokensFrom limit level header clauses .code [] position (text ++ []) = _ :=
      tokensFrom_reads hread
    rw [List.append_nil, List.append_nil] at hscan
    rw [hscan, tokensFrom_nil]
  | clause hread _ ih =>
    rw [depthAll_append, depthAll_endClause, Nat.zero_max] at hlimit
    rw [tokensFrom_reads hread, tokensFrom_clause, ih hlimit, List.append_nil]
    rfl
  | statement hread hend _ ih =>
    rw [depthAll_append, depthAll_flush, Nat.zero_max] at hlimit
    rw [tokensFrom_reads hread, tokensFrom_statement hend, ih hlimit, List.append_nil]
    rfl
  | block hread hinside _ _ ihChildren ihRest =>
    rw [depthAll, depth, Nat.max_le] at hlimit
    obtain ⟨hinner, hrest⟩ := hlimit
    have hlevel : ¬ limit ≤ level := by omega
    rw [tokensFrom_reads hread, tokensFrom_block hlevel (hinside.splitAtCloser_append _),
      List.append_nil, ihChildren (by omega), ihRest hrest]
    rfl

/-- A script is scanned as the tokens that it is laid out as, if these nest within the limit. -/
theorem Layout.scan_eq {limit : Nat} {source : Bytes} {tokens : List Token}
    {pairs : List BracketPair} (h : Layout false {} 0 source tokens pairs)
    (hlimit : depthAll tokens ≤ limit) :
    scan limit source = .ok tokens := h.tokensFrom_eq hlimit

/-- The tokens of a scan nest within the limit. -/
theorem depthAll_le_of_tokensFrom {limit level : Nat} {header : Bool}
    {clauses : Clauses} {mode : Mode} {pending : Bytes} {position : Nat} {text : Bytes}
    {tokens : List Token}
    (h : tokensFrom limit level header clauses mode pending position text = .ok tokens) :
    depthAll tokens ≤ limit - level := by
  induction level, header, clauses, mode, pending, position, text using scanInduction
    generalizing tokens with
  | finish level header clauses mode pending position =>
    rw [tokensFrom_nil, Except.ok.injEq] at h
    subst h
    split <;> simp
  | opener level header clauses pending position bracket text ih =>
    by_cases hlevel : limit ≤ level
    · rw [tokensFrom_tooDeep hlevel] at h
      contradiction
    cases hsplit : splitAtCloser bracket 0 .code text with
    | none =>
      rw [tokensFrom_unmatched hlevel hsplit] at h
      contradiction
    | some parts =>
      obtain ⟨inside, after⟩ := parts
      rw [tokensFrom_block hlevel hsplit] at h
      obtain ⟨children, hchildren, h⟩ := ok_of_bind h
      obtain ⟨rest, hrest, h⟩ := ok_of_bind h
      cases h
      have hinner := (ih inside after hsplit).1 hchildren
      rw [depthAll, depth, Nat.max_le]
      exact ⟨by omega, (ih inside after hsplit).2 hrest⟩
  | clause level clauses pending position text ih =>
    rw [tokensFrom_clause] at h
    obtain ⟨rest, hrest, h⟩ := ok_of_bind h
    cases h
    rw [depthAll_append, depthAll_endClause, Nat.zero_max]
    exact ih hrest
  | statement level clauses mode pending position c text hend ih =>
    rw [tokensFrom_statement hend] at h
    obtain ⟨rest, hrest, h⟩ := ok_of_bind h
    cases h
    rw [depthAll_append, depthAll_flush, Nat.zero_max]
    exact ih hrest
  | one level header clauses mode next pending position c text hstep hkeep ih =>
    exact ih (tokensFrom_one hstep hkeep ▸ h)
  | two level header clauses mode next pending position c d text hstep ih =>
    exact ih (tokensFrom_two hstep ▸ h)

end Scan

/-- Whether the brackets of a kind match in classified text when `level` of them are open before it:
none is closed that was not opened, and none is left open. Other kinds are not looked at. -/
def Bracket.balanced (b : Bracket) : Nat → List (UInt8 × ByteClass) → Bool
  | level, [] => level = 0
  | level, e :: rest =>
    if e = (b.opener, .code) then b.balanced (level + 1) rest
    else if e = (b.closer, .code) then 0 < level && b.balanced (level - 1) rest
    else b.balanced level rest

namespace Bracket

variable {b : Bracket} {level : Nat} {c : UInt8} {k : ByteClass} {rest : List (UInt8 × ByteClass)}

/-- A byte that is no bracket of the kind in code does not count. -/
theorem balanced_cons (hopener : ¬ (k = .code ∧ c = b.opener))
    (hcloser : ¬ (k = .code ∧ c = b.closer)) :
    b.balanced level ((c, k) :: rest) = b.balanced level rest := by
  rw [balanced, if_neg, if_neg]
  · rintro h
    exact hcloser ⟨(Prod.mk.inj h).2, (Prod.mk.inj h).1⟩
  · rintro h
    exact hopener ⟨(Prod.mk.inj h).2, (Prod.mk.inj h).1⟩

/-- A byte outside code does not count. -/
theorem balanced_cons_of_ne_code (h : k ≠ .code) :
    b.balanced level ((c, k) :: rest) = b.balanced level rest :=
  balanced_cons (fun hk => h hk.1) fun hk => h hk.1

/-- A closing bracket closes one that is open. -/
theorem balanced_closer :
    b.balanced level ((b.closer, .code) :: rest) = (0 < level && b.balanced (level - 1) rest) := by
  have hne : (b.closer, ByteClass.code) ≠ (b.opener, .code) := fun h =>
    opener_ne_closer b b (Prod.mk.inj h).1.symm
  rw [balanced, if_neg hne, if_pos rfl]

/-- What a step over a byte that is no closer does to the number of open brackets. -/
theorem balanced_step {mode next : Mode} {after : Option UInt8} {taken : Bool}
    (hstep : mode.step c after = (next, taken)) (hclose : ¬ (mode = .code ∧ c = b.closer)) :
    b.balanced level ((c, mode.stepClass next) :: rest) =
      b.balanced (if mode = .code ∧ c = b.opener then level + 1 else level) rest := by
  have hcloser : ¬ (mode.stepClass next = .code ∧ c = b.closer) := fun h =>
    hclose ⟨(Mode.stepClass_eq_code_iff.1 h.1).1, h.2⟩
  split
  next hopen =>
    obtain ⟨hcode, rfl⟩ := (code_opener_iff hstep).2 hopen
    rw [hcode, balanced, if_pos rfl]
  next hopen => exact balanced_cons (fun h => hopen ((code_opener_iff hstep).1 h)) hcloser

/-- Brackets are no white space. -/
theorem closer_not_isSpaceByte (b : Bracket) : ¬ Bytes.IsSpaceByte b.closer := by
  cases b <;> unfold Bytes.IsSpaceByte <;> decide

/-- White space and semicolons do not count. -/
theorem balanced_filter {entries : List ((UInt8 × ByteClass) × Bool)}
    (hspace : ∀ e ∈ entries, e.2 = true → Bytes.IsSpaceByte e.1.1) :
    b.balanced level ((entries.filter Mode.isMarked).map Prod.fst) =
      b.balanced level (entries.map Prod.fst) := by
  induction entries generalizing level with
  | nil => rfl
  | cons e entries ih =>
    have hrest : ∀ {level}, b.balanced level ((entries.filter Mode.isMarked).map Prod.fst) =
        b.balanced level (entries.map Prod.fst) :=
        ih fun d hd => hspace d (List.mem_cons_of_mem _ hd)
    obtain ⟨⟨c, k⟩, space⟩ := e
    rw [List.filter_cons]
    split
    next =>
      simp only [List.map_cons, balanced, hrest]
    next hmarked =>
      have hnone : c ≠ b.opener ∧ c ≠ b.closer := by
        cases space with
        | true =>
          have hbyte := hspace _ (List.mem_cons_self ..) rfl
          exact ⟨fun h => b.opener_ascii.2 (h ▸ hbyte),
            fun h => b.closer_not_isSpaceByte (h ▸ hbyte)⟩
        | false =>
          obtain ⟨rfl, -⟩ : c = ';' ∧ k = .code := by simpa [Mode.isMarked] using hmarked
          cases b <;> decide
      rw [hrest, List.map_cons, balanced_cons (fun h => hnone.1 h.2) fun h => hnone.2 h.2]

/-- Brackets match in a text when they match among its marks. -/
theorem balanced_marks (b : Bracket) (level : Nat) (mode : Mode) (text : Bytes) :
    b.balanced level (mode.marks text) = b.balanced level (mode.classify text) := by
  have hlength : (mode.classify text).length = (Bytes.spaceMask text).length := by simp
  have hzip : ∀ e ∈ (mode.classify text).zip (Bytes.spaceMask text), e.2 = true →
      Bytes.IsSpaceByte e.1.1 := by
    rintro ⟨⟨c, k⟩, space⟩ hmem rfl
    apply @Bytes.isSpaceByte_of_mem_zip text
    obtain ⟨i, hi, heq⟩ := List.mem_iff_getElem.1 hmem
    refine List.mem_iff_getElem.2 ⟨i, by simpa using hi, ?_⟩
    simp only [Mode.classify, List.getElem_zip, Prod.mk.injEq] at heq ⊢
    exact ⟨heq.1.1, heq.2⟩
  rw [Mode.marks, balanced_filter hzip, List.map_fst_zip (Nat.le_of_eq hlength)]

end Bracket

namespace Scan

/-- What the search for a closer goes through is balanced. -/
theorem Encloses.balanced {b : Bracket} {level : Nat} {mode : Mode} {inside : Bytes}
    (h : Encloses b level mode inside) : b.balanced level (mode.classify inside) = true := by
  induction h with
  | nil => rfl
  | close _ ih =>
    rw [Mode.classify_cons_plain b.closer_plain.1 b.closer_plain.2, Bracket.balanced_closer]
    simpa using ih
  | one hopen hstep _ ih =>
    rw [Mode.classify_cons_one (Mode.step_alone hstep), Bracket.balanced_step hstep hopen, ih]
  | two _ hstep _ ih =>
    have hclass := Mode.stepClass_two hstep
    rw [Mode.classify_cons_two hstep, Bracket.balanced_cons_of_ne_code hclass,
      Bracket.balanced_cons_of_ne_code hclass, ih]

/-- A search goes through balanced text that ends in code. -/
theorem encloses_of_balanced {b : Bracket} {level : Nat} {mode : Mode} {inside : Bytes}
    (hread : Mode.Reads (fun _ _ _ => True) mode inside .code [b.closer])
    (h : b.balanced level (mode.classify inside) = true) : Encloses b level mode inside := by
  generalize hcode : Mode.code = final at hread
  generalize hcloser : [b.closer] = rest at hread
  induction hread generalizing level with
  | nil =>
    subst hcode
    obtain rfl : level = 0 := by simpa [Mode.classify, Bracket.balanced] using h
    exact .nil
  | @one mode next final c inside rest hstep _ _ ih =>
    subst hcloser
    rw [Mode.classify_cons_one (Mode.step_alone hstep)] at h
    by_cases hclose : mode = .code ∧ c = b.closer
    · obtain ⟨rfl, rfl⟩ := hclose
      obtain ⟨rfl, -⟩ := Bracket.step_closer hstep
      have hclass : Mode.code.stepClass .code = .code := rfl
      rw [hclass, Bracket.balanced_closer, Bool.and_eq_true, decide_eq_true_eq] at h
      obtain ⟨level, rfl⟩ := Nat.exists_eq_add_one_of_ne_zero (Nat.ne_of_gt h.1)
      exact .close (ih h.2 hcode rfl)
    · rw [Bracket.balanced_step hstep hclose] at h
      exact .one hclose hstep (ih h hcode rfl)
  | @two mode next final c d inside rest hstep _ ih =>
    have hclass := Mode.stepClass_two hstep
    have hclose : ¬ (mode = .code ∧ c = b.closer) := by
      rintro ⟨rfl, rfl⟩
      exact absurd (Bracket.step_closer hstep).2 Bool.noConfusion
    rw [Mode.classify_cons_two hstep, Bracket.balanced_cons_of_ne_code hclass,
      Bracket.balanced_cons_of_ne_code hclass] at h
    exact .two hclose hstep (ih h hcode hcloser)

end Scan

namespace Token

open Scan

/-- Tokens that a scan can yield: their texts are trimmed and hold nothing that would end them. They
end in code or in a line comment; only the last leaf of a script may be `cut` off inside something
else. The brackets of a block enclose its content, which is no single empty clause. -/
inductive Scannable : (header cut : Bool) → List Token → Prop where
  | nil {header cut : Bool} : Scannable header cut []
  | last {header : Bool} {text : Bytes} {offset : Nat} {mode : Mode} (htrim : text.trim = text)
      (hne : text ≠ []) (hread : Mode.Reads (Kept header) .code text mode []) :
      Scannable header true [.leaf text offset]
  | leaf {header cut : Bool} {text : Bytes} {offset : Nat} {mode : Mode} {ts : List Token}
      (htrim : text.trim = text) (hempty : text = [] → header = true)
      (hread : Mode.Reads (Kept header) .code text mode []) (hmode : mode.LineBound)
      (hrest : Scannable header cut ts) : Scannable header cut (.leaf text offset :: ts)
  | block {header cut : Bool} {bracket : Bracket} {body : Bytes} {offset : Nat}
      {children ts : List Token}
      (htrim : Bytes.trim (body ++ [bracket.opener]) = body ++ [bracket.opener])
      (hread : Mode.Reads (Kept header) .code body .code [])
      (hbalanced : bracket.balanced 0 (collectAll Mode.code.marks children) = true)
      (hclauses : ∀ position, children ≠ [.leaf [] position])
      (hchildren : Scannable (isForHeader (body ++ [bracket.opener])) false children)
      (hrest : Scannable header cut ts) :
      Scannable header cut (.block (body ++ [bracket.opener]) children offset :: ts)

/-- Scannable tokens are readable. -/
theorem Scannable.readable {header cut : Bool} {ts : List Token} (h : Scannable header cut ts) :
    Readable header cut ts := by
  induction h with
  | nil => exact .nil
  | last htrim hne _ => exact .last htrim hne
  | leaf htrim hempty hread hmode _ ih => exact .leaf htrim hempty (hread.run_eq ▸ hmode) ih
  | block htrim hread _ _ _ _ ihChildren ihRest => exact .block htrim hread.run_eq ihChildren ihRest

end Token

namespace Scan

open Token

variable {header cut : Bool} {clauses : Clauses} {position : Nat} {text rest : Bytes} {mode : Mode}
  {tokens : List Token} {pairs : List BracketPair}

/-- The trimmed text of a token is read as the whole was, and does not end inside a string or a
block comment if the whole did not. -/
theorem reads_trim (h : Mode.Reads (Kept header) .code text mode rest) :
    ∃ middle, Mode.Reads (Kept header) .code text.trim middle [] ∧
      ((Mode.code.run text).LineBound → middle.LineBound) := by
  obtain ⟨lead, tail, htext, -, hlead, htail, -, -⟩ := Bytes.trim_spec text
  have hbound := @Mode.lineBound_run_trim text
  rw [htext] at h
  obtain ⟨middle, hmiddle⟩ :=
    (h.of_space_append hlead.isSpaceByte).of_append_space htail.isSpaceByte (by simp) fun _ => rfl
  exact ⟨middle, hmiddle, fun hrun => hmiddle.run_eq ▸ hbound hrun⟩

/-- Pending text that ends in code or in a line comment becomes a scannable leaf. -/
theorem scannable_flush_append (hread : Mode.Reads (Kept header) .code text mode rest)
    (hrun : (Mode.code.run text).LineBound) (hrest : Scannable header cut tokens) :
    Scannable header cut (flush text.reverse position ++ tokens) := by
  obtain ⟨middle, hmiddle, hbound⟩ := reads_trim hread
  rw [flush, pendingText, List.reverse_reverse]
  split
  · exact hrest
  next hne =>
    exact .leaf (Bytes.trim_trim text)
      (fun hempty => absurd (List.isEmpty_iff.2 hempty) hne) hmiddle (hbound hrun) hrest

/-- The end of a clause is scannable. -/
theorem scannable_endClause_append (hread : Mode.Reads (Kept true) .code text mode rest)
    (hrun : (Mode.code.run text).LineBound) (hrest : Scannable true cut tokens) :
    Scannable true cut (endClause clauses text.reverse position ++ tokens) := by
  rw [endClause]
  split
  · split
    · exact hrest
    · exact .leaf rfl (fun _ => rfl) .nil (.inl rfl) hrest
  · exact scannable_flush_append hread hrun hrest

/-- The last text of a script is scannable, wherever it ends. -/
theorem scannable_flush (hread : Mode.Reads (Kept header) .code text mode rest) :
    Scannable header true (flush text.reverse position) := by
  obtain ⟨middle, hmiddle, -⟩ := reads_trim hread
  rw [flush, pendingText, List.reverse_reverse]
  split
  · exact .nil
  next hne =>
    exact .last (Bytes.trim_trim text) (fun hempty => hne (List.isEmpty_iff.2 hempty)) hmiddle

/-- The pending text never becomes an empty leaf. -/
theorem flush_ne_empty (pending : Bytes) (position offset : Nat) :
    flush pending position ≠ [.leaf [] offset] := by
  unfold flush
  dsimp only
  split
  · simp
  next hne =>
    intro h
    simp only [List.cons.injEq, Token.leaf.injEq, and_true] at h
    exact hne (List.isEmpty_iff.2 h.1)

/-- A clause that holds no token yet is closed with one. -/
theorem endClause_ne_nil {pending : Bytes} (hfilled : clauses.filled = false) :
    endClause clauses pending position ≠ [] := by
  unfold endClause
  split
  · simp [hfilled]
  next hne => exact hne

/-- Behind a semicolon there is a token. -/
theorem Layout.ne_nil (h : Layout header clauses position text tokens pairs)
    (hsplit : clauses.split = true) (hfilled : clauses.filled = false) : tokens ≠ [] := by
  induction h with
  | finish =>
    rw [if_pos hsplit]
    exact endClause_ne_nil hfilled
  | clause _ _ _ => exact List.append_ne_nil_of_left_ne_nil (endClause_ne_nil hfilled) _
  | statement _ _ _ ih => exact List.append_ne_nil_of_right_ne_nil _ (ih hsplit hfilled)
  | block => exact List.cons_ne_nil _ _

/-- No text is laid out as an empty leaf alone. -/
theorem Layout.ne_empty (h : Layout header clauses position text tokens pairs)
    (hsplit : clauses.split = false)
    (hfilled : clauses.filled = false) (offset : Nat) : tokens ≠ [.leaf [] offset] := by
  induction h with
  | finish =>
    rw [if_neg (by simp [hsplit])]
    exact flush_ne_empty _ _ offset
  | clause _ hrest _ =>
    intro heq
    rcases List.append_eq_singleton_iff.1 heq with ⟨hclause, -⟩ | ⟨-, hnil⟩
    · exact endClause_ne_nil hfilled hclause
    · exact hrest.ne_nil rfl rfl hnil
  | statement _ _ _ ih =>
    intro heq
    rcases List.append_eq_singleton_iff.1 heq with ⟨-, hrest⟩ | ⟨hflush, -⟩
    · exact ih hsplit hfilled hrest
    · exact flush_ne_empty _ _ offset hflush
  | block => simp

/-- The tokens of a text that is laid out are scannable. -/
theorem Layout.scannable (h : Layout header clauses position text tokens pairs)
    (hsplit : clauses.split = true → header = true) (hheader : header = true → cut = false)
    (hcut : cut = false → Mode.code.run text = .code) : Scannable header cut tokens := by
  induction h generalizing cut with
  | finish hread =>
    rw [← List.append_nil (ite ..)]
    split
    next h =>
      obtain rfl := hsplit h
      exact scannable_endClause_append hread (.inl (hcut (hheader rfl))) .nil
    next =>
      cases cut with
      | true =>
        rw [List.append_nil]
        exact scannable_flush hread
      | false => exact scannable_flush_append hread (.inl (hcut rfl)) .nil
  | clause hread _ ih =>
    obtain ⟨hbound, hrun⟩ := endsStatement_semicolon.run_append hread.run_eq
    exact scannable_endClause_append hread hbound (ih (fun _ => rfl) hheader fun h => hrun ▸ hcut h)
  | statement hread hend _ ih =>
    obtain ⟨hbound, hrun⟩ := hend.run_append hread.run_eq
    exact scannable_flush_append hread hbound (ih hsplit hheader fun h => hrun ▸ hcut h)
  | @block header _ position text inside after bracket _ _ _ _ hread hinside hchildren _
      ihChildren ihRest =>
    obtain ⟨lead, body, rfl, htitle, -, hlead, -⟩ := signature_spec bracket text position
    have hinsideRun := (hinside.reads after).run_eq
    have hbody := (hread.of_space_append hlead.isSpaceByte).alone
    have htrim : Bytes.trim (body ++ [bracket.opener]) = body ++ [bracket.opener] := by
      rw [← htitle, pendingText, Bytes.trim_trim]
    have hbalanced := hinside.balanced
    rw [← Bracket.balanced_marks, ← hchildren.collectAll_eq faithful_marks] at hbalanced
    have hafter : Mode.code.run
        (lead ++ body ++ bracket.opener :: (inside ++ bracket.closer :: after)) =
        Mode.code.run after := by
      rw [(Mode.marks_plain hread.run_eq bracket.isPlain.1 _).2,
        (Mode.marks_plain hinsideRun bracket.isPlain.2 _).2]
    have hclauses := hchildren.ne_empty rfl rfl
    rw [htitle] at ihChildren ⊢
    exact .block htrim hbody hbalanced hclauses
      (ihChildren Bool.noConfusion (fun _ => rfl) fun _ => hinsideRun)
      (ihRest hsplit hheader fun h => hafter ▸ hcut h)

/-- Scans yield scannable trees. -/
theorem scannable_of_scan {limit : Nat} {source : Bytes} (h : scan limit source = .ok tokens) :
    Scannable false true tokens := by
  obtain ⟨pairs, hlayout⟩ := layout_of_scan h
  exact hlayout.scannable Bool.noConfusion Bool.noConfusion Bool.noConfusion

end Scan

end TagScript
