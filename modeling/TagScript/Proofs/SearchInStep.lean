import Mathlib.Data.List.Nodup
import TagScript.Proofs.NestingLimit
import TagScript.Proofs.ScanRecords

/-!
# The search for closers and the scan stay in step

The search for the closer of a block runs up to where the content around the block stops; the scan
of the block's content runs up to the closer that was found, and goes in and out of the blocks
inside of it. A position has one mode all the same. A search that has the text of a scan and more
in front of it is led through the text by the scan, block by block (`InStep`): what the scan reads
alone, the search reads as it does with the rest behind it.

It is left to see which blocks a scan goes into. They are those of the brackets in code that it gets
past (`Enters`), each up to the closer that the search finds for it. That the scan of a block's
content ends in code shows without a record, too: a bracket that is put in the place of the closer
is refused there, and not taken for a part of a text or a comment.
-/

namespace TagScript

/-- Only a slash or a star can be read along in code and in comments. -/
theorem Mode.step_of_next {mode next : Mode} {c d e : UInt8} (hslash : e ≠ '/') (hstar : e ≠ '*')
    (h : mode.step c (some d) = (next, false)) : mode.step c (some e) = (next, false) := by
  cases mode <;> simp only [step] at h ⊢ <;> grind

namespace Mode.Reads

variable {keeps : Mode → UInt8 → Mode → Prop} {mode next final middle : Mode} {c d : UInt8}
  {text more rest : Bytes}

/-- What is read behind a byte that is read alone. -/
theorem tail_one (h : Reads keeps mode (c :: text) final rest)
    (hstep : mode.step c text.head? = (next, false)) :
    mode.step c (text ++ rest).head? = (next, false) ∧ Reads keeps next text final rest := by
  cases h with
  | one hstep' _ hread =>
    obtain ⟨rfl, -⟩ := Prod.mk.inj (hstep.symm.trans (step_alone hstep'))
    exact ⟨hstep', hread⟩
  | two hstep' => exact absurd (Prod.mk.inj (hstep.symm.trans hstep')).2 Bool.noConfusion

/-- What is read behind bytes that are read together. -/
theorem tail_two (h : Reads keeps mode (c :: d :: text) final rest)
    (hstep : mode.step c (some d) = (next, true)) :
    Reads keeps next text final rest := by
  cases h with
  | one hstep' => exact absurd (Prod.mk.inj (hstep.symm.trans hstep')).2 Bool.noConfusion
  | two hstep' hread =>
    obtain ⟨rfl, -⟩ := Prod.mk.inj (hstep.symm.trans hstep')
    exact hread

/-- What is read behind a part that is read by itself. -/
theorem behind (h : Reads keeps mode (text ++ more) final rest)
    (hfirst : Reads (fun _ _ _ => True) mode text middle (more ++ rest)) :
    Reads keeps middle more final rest := by
  generalize hall : more ++ rest = all at hfirst
  induction hfirst with
  | nil => exact h
  | one hstep _ _ ih =>
    subst hall
    rw [← List.append_assoc] at hstep
    exact ih (tail_one h (step_alone hstep)).2 rfl
  | two hstep _ ih => exact ih (tail_two h hstep) hall

/-- What is read in front of some byte is read alike in front of any byte that ends no comment
mark. -/
theorem of_next {e : UInt8} (hslash : e ≠ '/') (hstar : e ≠ '*')
    (h : Reads keeps mode text final (d :: rest)) :
    Reads keeps mode text final (e :: more) := by
  generalize hrest : d :: rest = all at h
  induction h with
  | nil => exact .nil
  | @one before after final c text rest hstep hkeep _ ih =>
    subst hrest
    refine .one ?_ hkeep (ih rfl)
    cases text with
    | nil => exact step_of_next hslash hstar hstep
    | cons => exact hstep
  | two hstep _ ih => exact .two hstep (ih hrest)

end Mode.Reads

namespace Scan

/-- How many blocks of a kind are open inside of `base`. -/
def openWithin (b : Bracket) (base around : List OpenBlock) : Nat :=
  around.countP (·.bracket = b) - base.countP (·.bracket = b)

/-- Where the search for the closer of a block stands when the scan of its content is at a moment:
at the same position, in the same mode, with the blocks of its kind counted that are open inside of
it. -/
def ScanMoment.sought (b : Bracket) (base : List OpenBlock) (m : ScanMoment) : SearchMoment :=
  ⟨openWithin b base m.around, m.position, m.mode⟩

/-- A scan of `text` and a search that has `text` and more in front of it keep in step. When the
scan gets through, it is in code, and the search is where the scan is all along; when it fails, the
search was so far. -/
structure InStep (b : Bracket) (base around : List OpenBlock) (mode : Mode)
    (position : Nat) (text tail : Bytes)
    (run : Recorded ScanMoment (Except ScanError (List Token))) : Prop where
  through : ∀ tokens, run.result = .ok tokens → ∃ before,
    run.moments = before ++ [⟨around, position + text.length, .code⟩] ∧
    recordSearch b (openWithin b base around) mode position (text ++ tail) =
      behind (before.map (·.sought b base)) text
        (recordSearch b (openWithin b base around) .code (position + text.length) tail)
  soFar : ∀ e, run.result = .error e → run.moments.map (·.sought b base) <+:
    (recordSearch b (openWithin b base around) mode position (text ++ tail)).moments

section InStep

variable {b : Bracket} {base around : List OpenBlock} {mode next : Mode}
  {position : Nat} {c d : UInt8} {text tail inside after : Bytes}
  {run : Recorded ScanMoment (Except ScanError (List Token))}

/-- A scan that came to its end is in step when the search went through the same moments and goes on
behind them. -/
theorem InStep.of_ok {tokens : List Token} (before : List ScanMoment)
    (hsearch : recordSearch b (openWithin b base around) mode position (text ++ tail) =
      behind (before.map (·.sought b base)) text
        (recordSearch b (openWithin b base around) .code (position + text.length) tail)) :
    InStep b base around mode position text tail
      ⟨.ok tokens, before ++ [⟨around, position + text.length, .code⟩]⟩ :=
  ⟨fun _ _ => ⟨before, rfl, hsearch⟩, nofun⟩

/-- A scan that failed is in step when the search went through the same moments. -/
theorem InStep.of_error {e : ScanError} {moments : List ScanMoment}
    (hsearch : moments.map (·.sought b base) <+:
      (recordSearch b (openWithin b base around) mode position (text ++ tail)).moments) :
    InStep b base around mode position text tail ⟨.error e, moments⟩ :=
  ⟨nofun, fun _ _ => hsearch⟩

/-- The tokens that are found do not matter. -/
theorem InStep.map (h : InStep b base around mode position text tail run)
    (f : List Token → List Token) :
    InStep b base around mode position text tail (run.map (·.map f)) := by
  obtain ⟨result, moments⟩ := run
  cases result with
  | ok tokens =>
    obtain ⟨before, rfl, hsearch⟩ := h.through tokens rfl
    exact .of_ok before hsearch
  | error e => exact .of_error (h.soFar e rfl)

/-- Both get through something else before. -/
theorem InStep.append (front : Bytes) (passed : List ScanMoment)
    (hsearch : recordSearch b (openWithin b base around) mode position (front ++ (text ++ tail)) =
      behind (passed.map (·.sought b base)) front
        (recordSearch b (openWithin b base around) next (position + front.length) (text ++ tail)))
    (h : InStep b base around next (position + front.length) text tail run) :
    InStep b base around mode position (front ++ text) tail
      ⟨run.result, passed ++ run.moments⟩ := by
  refine ⟨fun tokens htokens => ?_, fun e he => ?_⟩
  · obtain ⟨before, hmoments, hbehind⟩ := h.through tokens htokens
    refine ⟨passed ++ before, ?_, ?_⟩
    · rw [hmoments, List.length_append, Nat.add_assoc, List.append_assoc]
    · rw [List.append_assoc, hsearch, hbehind, behind_behind, List.length_append,
        Nat.add_assoc, List.map_append]
  · rw [List.append_assoc, hsearch, List.map_append]
    exact (List.prefix_append_right_inj _).2 (h.soFar e he)

/-- A byte that is read alone and opens no block. No closer of the kind stands alone in the text, so
it closes none either. -/
theorem InStep.one (hstep : mode.step c text.head? = (next, false))
    (hopener : ¬ (mode = .code ∧ c = b.opener))
    (hread : Mode.Reads (fun _ _ _ => True) mode (c :: text) .code tail)
    (halone : splitAtCloser b 0 mode (c :: text) = none)
    (ih : Mode.Reads (fun _ _ _ => True) next text .code tail → splitAtCloser b 0 next text = none →
      InStep b base around next (position + 1) text tail run) :
    InStep b base around mode position (c :: text) tail (run.visit ⟨around, position, mode⟩) := by
  have hclose : ¬ (mode = .code ∧ c = b.closer) := by
    rintro ⟨rfl, rfl⟩
    exact nomatch splitAtCloser_zero.symm.trans halone
  obtain ⟨hstep', hread'⟩ := hread.tail_one hstep
  rw [splitAtCloser_one hclose hstep, if_neg hopener, Option.map_eq_none_iff] at halone
  refine InStep.append [c] [⟨around, position, mode⟩] ?_ (ih hread' halone)
  rw [List.singleton_append, recordSearch_one hclose hstep', if_neg hopener]
  rfl

/-- Bytes that are read together. -/
theorem InStep.two (hstep : mode.step c (some d) = (next, true))
    (hread : Mode.Reads (fun _ _ _ => True) mode (c :: d :: text) .code tail)
    (halone : splitAtCloser b 0 mode (c :: d :: text) = none)
    (ih : Mode.Reads (fun _ _ _ => True) next text .code tail → splitAtCloser b 0 next text = none →
      InStep b base around next (position + 2) text tail run) :
    InStep b base around mode position (c :: d :: text) tail
      (run.visit ⟨around, position, mode⟩) := by
  rw [splitAtCloser_two hstep, Option.map_eq_none_iff] at halone
  exact InStep.append [c, d] [⟨around, position, mode⟩] (recordSearch_two hstep)
    (ih (hread.tail_two hstep) halone)

/-- One more block is open inside of `base`, and counts if it is of the kind. -/
theorem openWithin_cons (block : OpenBlock)
    (hbase : base.countP (·.bracket = b) ≤ around.countP (·.bracket = b)) :
    openWithin b base (block :: around) = openWithin b base around + if block.bracket =
      b then 1 else 0 := by
  simp only [openWithin, List.countP_cons, decide_eq_true_eq]
  omega

/-- A search that goes through a block whose content is scanned in step with it. -/
theorem InStep.recordSearch_block {block : OpenBlock} {children : List Token}
    (hbase : base.countP (·.bracket = b) ≤ around.countP (·.bracket = b))
    (h : InStep b base (block :: around) .code (position + 1) inside
      (block.bracket.closer :: tail) run)
    (hok : run.result = .ok children) :
    recordSearch b (openWithin b base around) .code position
        (block.bracket.opener :: (inside ++ block.bracket.closer :: tail)) =
      behind (⟨openWithin b base around, position, .code⟩ :: run.moments.map (·.sought b base))
        (block.bracket.opener :: (inside ++ [block.bracket.closer]))
        (recordSearch b (openWithin b base around) .code (position + inside.length + 2) tail) := by
  obtain ⟨before, hmoments, hsearch⟩ := h.through children hok
  have hposition : position + 1 + inside.length + 1 = position + inside.length + 2 := by omega
  rw [openWithin_cons block hbase] at hsearch
  rw [recordSearch_opener, hsearch, recordSearch_closer, behind_behind, behind_behind,
    hposition, hmoments, List.map_append, List.map_singleton, ScanMoment.sought,
    openWithin_cons block hbase]
  rfl

/-- No closer of the kind stands alone behind a block whose content is scanned, if none does from
its opener on. -/
theorem InStep.alone_behind {block : OpenBlock} {children : List Token}
    (h : InStep b around (block :: around) .code (position + 1) inside
      (block.bracket.closer :: after) run)
    (hok : run.result = .ok children) (halone : splitAtCloser b 0 .code
      (block.bracket.opener :: (inside ++ block.bracket.closer :: after)) = none) :
    splitAtCloser b 0 .code after = none := by
  have hsearch := h.recordSearch_block (Nat.le_refl _) hok
  rw [openWithin, Nat.sub_self] at hsearch
  have hresult := congrArg Recorded.result hsearch
  rw [recordSearch_result, halone, behind, recordSearch_result] at hresult
  exact Option.map_eq_none_iff.1 hresult.symm

/-- No closer of the kind stands alone in the content of a block, if none does from its opener
on. -/
theorem alone_content {bracket : Bracket} (hinside : Encloses bracket 0 .code inside)
    (halone : splitAtCloser b 0 .code
      (bracket.opener :: (inside ++ bracket.closer :: after)) = none) :
    splitAtCloser b 0 .code inside = none := by
  by_cases hb : bracket = b
  · exact hb ▸ hinside.splitAtCloser_inside
  have hopener : ¬ (Mode.code = .code ∧ bracket.opener = b.opener) :=
    fun h => hb (Bracket.opener_inj.1 h.2)
  rw [splitAtCloser_one (fun h => Bracket.opener_ne_closer _ _ h.2)
    (Mode.step_plain bracket.opener_plain.1 bracket.opener_plain.2 _), if_neg hopener,
    Option.map_eq_none_iff] at halone
  cases hsplit : splitAtCloser b 0 .code inside with
  | none => rfl
  | some parts =>
    -- a closer that is found in the content is found with more behind the content, too
    obtain ⟨l, r⟩ := parts
    rw [eq_append_of_splitAtCloser hsplit, List.append_assoc, List.cons_append,
      (encloses_of_splitAtCloser hsplit).splitAtCloser_append] at halone
    exact nomatch halone

/-- What is read behind a block. -/
theorem Encloses.reads_behind {bracket : Bracket} (hinside : Encloses bracket 0 .code inside)
    (h : Mode.Reads (fun _ _ _ => True) .code
      (bracket.opener :: (inside ++ bracket.closer :: after)) .code tail) :
    Mode.Reads (fun _ _ _ => True) .code after .code tail := by
  have hopened := (h.tail_one (Mode.step_plain bracket.opener_plain.1 bracket.opener_plain.2 _)).2
  have hread := hopened.behind (hinside.reads (after ++ tail))
  exact (hread.tail_one (Mode.step_plain bracket.closer_plain.1 bracket.closer_plain.2 _)).2

/-- A block whose content is scanned in step with a search for any block around it, whatever follows
its closer, and what is scanned behind it. -/
theorem InStep.block (block : OpenBlock)
    {content : Recorded ScanMoment (Except ScanError (List Token))}
    {f : List Token → List Token → List Token} (hinside : Encloses block.bracket 0 .code inside)
    (hbase : base.countP (·.bracket = b) ≤ around.countP (·.bracket = b))
    (hread : Mode.Reads (fun _ _ _ => True) .code
      (block.bracket.opener :: (inside ++ block.bracket.closer :: after)) .code tail)
    (halone : splitAtCloser b 0 .code
      (block.bracket.opener :: (inside ++ block.bracket.closer :: after)) = none)
    (hcontent : ∀ {base : List OpenBlock} {tail : Bytes},
      base.countP (·.bracket = b) ≤ (block :: around).countP (·.bracket = b) →
        splitAtCloser b 0 .code inside = none →
      InStep b base (block :: around) .code (position + 1) inside
        (block.bracket.closer :: tail) content)
    (hafter : Mode.Reads (fun _ _ _ => True) .code after .code tail →
      splitAtCloser b 0 .code after = none →
      InStep b base around .code (position + inside.length + 2) after tail run) :
    InStep b base around .code position
      (block.bracket.opener :: (inside ++ block.bracket.closer :: after)) tail
      (.visit ⟨around, position, .code⟩
        (content.andThen fun children => run.map (·.map (f children)))) := by
  have hcount : around.countP (·.bracket = b) ≤ (block :: around).countP (·.bracket = b) := by
    rw [List.countP_cons]
    exact Nat.le_add_right _ _
  have hinsideAlone := alone_content hinside halone
  have hthrough : InStep b base (block :: around) .code (position + 1) inside
      (block.bracket.closer :: (after ++ tail))
      content := hcontent (Nat.le_trans hbase hcount) hinsideAlone
  cases hresult : content.result with
  | error e =>
    rw [Recorded.andThen_of_error hresult]
    have hsoFar := hthrough.soFar e hresult
    rw [openWithin_cons block hbase] at hsoFar
    refine .of_error ?_
    rw [List.cons_append, recordSearch_opener, List.append_assoc, List.cons_append]
    exact (List.prefix_cons_inj _).2 hsoFar
  | ok children =>
    rw [Recorded.andThen_of_ok hresult]
    have hrest :=
      hafter (hinside.reads_behind hread)
      ((hcontent hcount hinsideAlone).alone_behind hresult halone)
    have hfront : block.bracket.opener :: (inside ++ block.bracket.closer :: after) =
        block.bracket.opener :: (inside ++ [block.bracket.closer]) ++ after := by simp
    have hposition : position +
        (block.bracket.opener :: (inside ++ [block.bracket.closer])).length =
        position + inside.length + 2 := by simp [Nat.add_assoc]
    rw [hfront]
    refine InStep.append _ (⟨around, position, .code⟩ :: content.moments) ?_
      (hposition ▸ hrest.map (f children))
    rw [hposition, List.cons_append, List.append_assoc, List.singleton_append]
    exact hthrough.recordSearch_block hbase hresult

/-- A bracket that the scan does not get past. -/
theorem InStep.opener_error (bracket : Bracket) (e : ScanError) :
    InStep b base around .code position (bracket.opener :: text) tail
      ⟨.error e, [⟨around, position, .code⟩]⟩ := by
  refine .of_error ?_
  rw [List.cons_append, recordSearch_opener]
  exact List.prefix_append [_] _

/-- What ends a statement opens no bracket. -/
theorem EndsStatement.ne_opener (h : EndsStatement mode c) (bracket : Bracket) :
    c ≠ bracket.opener := by
  rintro rfl
  exact nomatch (Bracket.ofOpener?_opener bracket).symm.trans h.ofOpener?_eq_none

/-- A byte that ends nothing is no opening bracket of code. -/
theorem Kept.not_opener {header : Bool} (h : Kept header mode c next)
    (hstep : mode.step c text.head? = (next, false))
    (bracket : Bracket) : ¬ (mode = .code ∧ c = bracket.opener) := by
  intro hopener
  have hnone := h.ofOpener?_eq_none ((Bracket.code_opener_iff hstep).2 hopener).1
  rw [hopener.2, Bracket.ofOpener?_opener] at hnone
  exact nomatch hnone

/-- A scan and a search keep in step through a text that is read as it is alone, and in which no
closer of the kind stands alone. -/
theorem inStep_recordFrom {limit : Nat} {header : Bool} {clauses : Clauses} {pending : Bytes}
    (hbase : base.countP (·.bracket = b) ≤ around.countP (·.bracket = b))
    (hread : Mode.Reads (fun _ _ _ => True) mode text .code tail)
    (halone : splitAtCloser b 0 mode text = none) :
    InStep b base around mode position text tail
      (recordFrom limit around header clauses mode pending position text) := by
  generalize hlevel : around.length = level
  induction level, header, clauses, mode, pending, position, text using scanInduction
    generalizing around base tail with
  | finish level header clauses mode pending position =>
    cases hread
    rw [recordFrom_nil]
    refine .of_ok [] ?_
    simp [behind]
  | opener level header clauses pending position bracket text ih =>
    by_cases hdeep : limit ≤ around.length
    · rw [recordFrom_tooDeep hdeep]
      exact .opener_error bracket _
    cases hsplit : splitAtCloser bracket 0 .code text with
    | none =>
      rw [recordFrom_unmatched hdeep hsplit]
      exact .opener_error bracket _
    | some parts =>
      obtain ⟨inside, after⟩ := parts
      obtain ⟨ihInside, ihAfter⟩ := ih inside after hsplit
      have hinside := encloses_of_splitAtCloser hsplit
      rw [recordFrom_block hdeep hsplit]
      obtain rfl := eq_append_of_splitAtCloser hsplit
      refine InStep.block (entered bracket pending position _ inside) hinside hbase hread halone
        (fun hcount hcontent => ihInside hcount (hinside.reads _) hcontent
          (congrArg (· + 1) hlevel))
        fun hread halone => ihAfter hbase hread halone hlevel
  | clause level clauses pending position text ih =>
    have hstep := endsStatement_semicolon.step text.head?
    rw [recordFrom_clause]
    exact .one hstep (fun h => endsStatement_semicolon.ne_opener b h.2) hread halone
        fun hread halone => (ih hbase hread halone hlevel).map _
  | statement level clauses mode pending position c text hend ih =>
    rw [recordFrom_statement hend]
    exact .one (hend.step _) (fun h => hend.ne_opener b h.2) hread halone fun hread halone =>
      (ih hbase hread halone hlevel).map _
  | one level header clauses mode next pending position c text hstep hkeep ih =>
    rw [recordFrom_one hstep hkeep]
    exact .one hstep (hkeep.not_opener hstep b) hread halone fun hread halone =>
      ih hbase hread halone hlevel
  | two level header clauses mode next pending position c d text hstep ih =>
    rw [recordFrom_two hstep]
    exact .two hstep hread halone fun hread halone => ih hbase hread halone hlevel

/-- A scan that gets through a text and is in code behind it takes an opening bracket there for
one. -/
theorem tokensFrom_append_opener {limit level stop : Nat} {header : Bool}
    {clauses : Clauses} {pending : Bytes} {bracket : Bracket} {tokens : List Token}
    (hread : Mode.Reads (fun _ _ _ => True) mode text .code [bracket.opener])
    (hstop : position + text.length = stop)
    (h : tokensFrom limit level header clauses mode pending position text = .ok tokens) :
    tokensFrom limit level header clauses mode pending position (text ++ [bracket.opener]) =
      .error ⟨if limit ≤ level then .tooDeep else .unmatched, bracket.opener, stop⟩ := by
  induction level, header, clauses, mode, pending, position, text using scanInduction
    generalizing tokens with
  | finish level header clauses mode pending position =>
    cases hread
    obtain rfl : position = stop := hstop
    by_cases hdeep : limit ≤ level
    · rw [if_pos hdeep]
      exact tokensFrom_tooDeep hdeep
    · rw [if_neg hdeep]
      exact tokensFrom_unmatched hdeep rfl
  | opener level header clauses pending position other text ih =>
    by_cases hdeep : limit ≤ level
    · exact nomatch (tokensFrom_tooDeep hdeep).symm.trans h
    cases hsplit : splitAtCloser other 0 .code text with
    | none => exact nomatch (tokensFrom_unmatched hdeep hsplit).symm.trans h
    | some parts =>
      obtain ⟨inside, after⟩ := parts
      obtain ⟨-, ihAfter⟩ := ih inside after hsplit
      have hinside := encloses_of_splitAtCloser hsplit
      rw [tokensFrom_block hdeep hsplit] at h
      obtain ⟨children, hchildren, h⟩ := ok_of_bind h
      obtain ⟨found, hfound, -⟩ := ok_of_bind h
      -- the block is closed where it was, so only what is behind it gets longer
      obtain rfl := eq_append_of_splitAtCloser hsplit
      rw [List.length_cons, List.length_append, List.length_cons] at hstop
      rw [List.cons_append, List.append_assoc, List.cons_append,
        tokensFrom_block hdeep (hinside.splitAtCloser_append _), hchildren,
        ihAfter (hinside.reads_behind hread) (by omega) hfound]
      rfl
  | clause level clauses pending position text ih =>
    rw [tokensFrom_clause] at h
    obtain ⟨found, hfound, -⟩ := ok_of_bind h
    have hrest := (hread.tail_one (endsStatement_semicolon.step _)).2
    rw [List.length_cons, ← Nat.add_assoc, Nat.add_right_comm] at hstop
    rw [List.cons_append, tokensFrom_clause, ih hrest hstop hfound]
    rfl
  | statement level clauses mode pending position c text hend ih =>
    rw [tokensFrom_statement hend] at h
    obtain ⟨found, hfound, -⟩ := ok_of_bind h
    have hrest := (hread.tail_one (hend.step _)).2
    rw [List.length_cons, ← Nat.add_assoc, Nat.add_right_comm] at hstop
    rw [List.cons_append, tokensFrom_statement hend, ih hrest hstop hfound]
    rfl
  | one level header clauses mode next pending position c text hstep hkeep ih =>
    rw [tokensFrom_one hstep hkeep] at h
    obtain ⟨hstep', hrest⟩ := hread.tail_one hstep
    rw [List.length_cons, ← Nat.add_assoc, Nat.add_right_comm] at hstop
    rw [List.cons_append, tokensFrom_one hstep' hkeep, ih hrest hstop h]
  | two level header clauses mode next pending position c d text hstep ih =>
    rw [tokensFrom_two hstep] at h
    rw [List.length_cons, List.length_cons, Nat.add_assoc, ← Nat.add_assoc, Nat.add_right_comm]
      at hstop
    rw [List.cons_append, List.cons_append, tokensFrom_two hstep, ih (hread.tail_two hstep) hstop h]

end InStep

/-- Where the content that a scan is in stops: at the closer of the innermost block, or at the end
of the script. -/
def contentStop (source : Bytes) (around : List OpenBlock) : Nat :=
  (around.head?.map (·.closes)).getD source.length

/-- The part of a script between the brackets of a block. -/
def OpenBlock.inside (source : Bytes) (block : OpenBlock) : Bytes :=
  (source.take block.closes).drop (block.opens + 1)

/-- The scan of the content of a block. -/
def OpenBlock.content (limit : Nat) (source : Bytes) (block : OpenBlock) (outer : List OpenBlock) :
    Recorded ScanMoment (Except ScanError (List Token)) :=
  recordFrom limit (block :: outer) block.header {} .code [] (block.opens + 1) (block.inside source)

/-- The search for the closer of a block, up to where the content around it stops. -/
def OpenBlock.search (source : Bytes) (block : OpenBlock) :
    Recorded SearchMoment (Option (Bytes × Bytes)) :=
  recordSearch block.bracket 0 .code (block.opens + 1)
    ((source.take block.stop).drop (block.opens + 1))

/-- A block that a scan goes into: its bracket stands in the script, its closer is the one that is
found up to where the content around it stops, and the moments of its content are among those of the
scan. -/
structure Entered (limit : Nat) (source : Bytes) (block : OpenBlock) (outer : List OpenBlock)
    (moments : List ScanMoment) : Prop where
  opener : source[block.opens]? = some block.bracket.opener
  stop : block.stop = contentStop source outer
  found : ∃ after,
    splitAtCloser block.bracket 0 .code ((source.take block.stop).drop (block.opens + 1)) =
    some (block.inside source, after)
  closes : block.closes = block.opens + 1 + (block.inside source).length
  content : (block.content limit source outer).moments <:+: moments

/-- What a scan has ahead: `text` stands at `position` and reaches to where the content stops. -/
structure Ahead (source : Bytes) (around : List OpenBlock) (position : Nat)
    (text : Bytes) : Prop where
  bytes : text <+: source.drop position
  stop : position + text.length = contentStop source around

section Entered

variable {limit : Nat} {source : Bytes} {outer around : List OpenBlock}
  {moments more : List ScanMoment} {header : Bool} {clauses : Clauses} {mode : Mode}
  {pending : Bytes} {position : Nat} {text inside after : Bytes}
  {bracket : Bracket}

/-- A block that was entered among some moments was entered among more. -/
theorem Entered.mono {block : OpenBlock} (h : Entered limit source block outer moments)
    (hmoments : moments <:+: more) : Entered limit source block outer more :=
  ⟨h.opener, h.stop, h.found, h.closes, h.content.trans hmoments⟩

/-- What stands at a position is a part of the script. -/
theorem drop_take_of_prefix {start : Nat} (h : text <+: source.drop start) :
    (source.take (start + text.length)).drop start = text := by
  rw [List.drop_take, Nat.add_sub_cancel_left]
  exact (List.prefix_iff_eq_take.1 h).symm

/-- One byte further on, what follows the byte is ahead. -/
theorem Ahead.tail {c : UInt8} (h : Ahead source around position (c :: text)) :
    Ahead source around (position + 1) text := by
  have hstop := h.stop
  rw [List.length_cons] at hstop
  exact ⟨(prefix_drop_append (List.singleton_append ▸ h.bytes)).2, by omega⟩

/-- What is ahead at a bracket whose closer is found: inside of the block, and behind it. -/
theorem Ahead.block (pending : Bytes) (h : Ahead source outer position (bracket.opener :: text))
    (hsplit : splitAtCloser bracket 0 .code text = some (inside, after)) :
    Ahead source (entered bracket pending position text inside :: outer) (position + 1) inside ∧
      Ahead source outer (position + inside.length + 2) after := by
  have hparts := eq_append_of_splitAtCloser hsplit
  obtain ⟨hinside, hcloser⟩ := prefix_drop_append (hparts ▸ h.tail.bytes)
  have hafter := (prefix_drop_append (List.singleton_append ▸ hcloser)).2
  have hstop := h.tail.stop
  rw [hparts, List.length_append, List.length_cons] at hstop
  rw [List.length_singleton, show position + 1 + inside.length + 1 = position + inside.length +
    2 by omega] at hafter
  exact ⟨⟨hinside, rfl⟩, ⟨hafter, by omega⟩⟩

/-- The block at a bracket whose closer is found is one that the scan goes into. -/
theorem Ahead.entered (h : Ahead source outer position (bracket.opener :: text))
    (hsplit : splitAtCloser bracket 0 .code text = some (inside, after)) :
    Entered limit source (entered bracket pending position text inside) outer
      (recordFrom limit (Scan.entered bracket pending position text inside :: outer)
        (Scan.entered bracket pending position text inside).header {} .code []
        (position + 1) inside).moments := by
  have htext : (source.take (position + 1 + text.length)).drop (position + 1) = text :=
    drop_take_of_prefix h.tail.bytes
  have hcontent : (Scan.entered bracket pending position text inside).inside source = inside :=
    drop_take_of_prefix (h.block pending hsplit).1.bytes
  refine ⟨getElem?_of_prefix_drop h.bytes, h.tail.stop, ⟨after, ?_⟩, ?_, ?_⟩
  · rw [hcontent]
    exact (congrArg _ htext).trans hsplit
  · rw [hcontent]
    rfl
  · rw [OpenBlock.content, hcontent]
    exact List.infix_rfl

/-- A moment at which a scan is in front of a bracket that it gets past: fewer blocks than the limit
are around it, and its closer is found up to where the content stops. -/
structure AtOpener (limit : Nat) (source : Bytes) (bracket : Bracket) (m : ScanMoment) : Prop where
  mode : m.mode = .code
  opener : source[m.position]? = some bracket.opener
  before : m.position < contentStop source m.around
  level : m.around.length < limit
  found : ∃ parts, splitAtCloser bracket 0 .code
    ((source.take (contentStop source m.around)).drop (m.position + 1)) = some parts

/-- In front of a byte that opens no bracket in code there is none to get past. -/
theorem Ahead.not_atOpener {c : UInt8} (h : Ahead source around position (c :: text))
    (hopener : ∀ bracket : Bracket, ¬ (mode = .code ∧ c = bracket.opener)) (bracket : Bracket) :
    ¬ AtOpener limit source bracket ⟨around, position, mode⟩ := by
  intro hat
  have hbyte := (getElem?_of_prefix_drop h.bytes).symm.trans hat.opener
  exact hopener bracket ⟨hat.mode, Option.some.inj hbyte⟩

/-- A bracket that a scan gets past stands in front of it, and its closer is found in what is
ahead. -/
theorem Ahead.atOpener {other : Bracket} (h : Ahead source around position (bracket.opener :: text))
    (hat : AtOpener limit source other ⟨around, position, .code⟩) :
    bracket = other ∧ ∃ parts, splitAtCloser bracket 0 .code text = some parts := by
  have hbyte := (getElem?_of_prefix_drop h.bytes).symm.trans hat.opener
  obtain rfl := Bracket.opener_inj.1 (Option.some.inj hbyte)
  obtain ⟨parts, hparts⟩ := hat.found
  dsimp only at hparts
  rw [← h.tail.stop, drop_take_of_prefix h.tail.bytes] at hparts
  exact ⟨rfl, parts, hparts⟩

/-- The blocks around the moments are those that were open before and those that the scan goes into,
and it goes into the block of every bracket that it gets past. -/
structure Enters (limit : Nat) (source : Bytes) (around : List OpenBlock)
    (moments : List ScanMoment) : Prop where
  only : ∀ m ∈ moments, ∀ block outer, block :: outer <:+ m.around →
    block :: outer <:+ around ∨ Entered limit source block outer moments
  all : ∀ m ∈ moments, ∀ bracket, AtOpener limit source bracket m →
    ∃ block, block.bracket = bracket ∧ block.opens = m.position ∧
    ⟨block :: m.around, m.position + 1, .code⟩ ∈ moments

/-- A moment at which the scan does not get past a bracket. -/
theorem Enters.single (h : ∀ bracket, ¬ AtOpener limit source bracket ⟨around, position, mode⟩) :
    Enters limit source around [⟨around, position, mode⟩] := by
  refine ⟨fun m hm block outer hblock => ?_, fun m hm bracket hat => ?_⟩
  · rw [List.mem_singleton.1 hm] at hblock
    exact .inl hblock
  · rw [List.mem_singleton.1 hm] at hat
    exact absurd hat (h bracket)

/-- Two runs of moments that go into the blocks of their brackets make one. -/
theorem Enters.append (h : Enters limit source around moments)
    (hmore : Enters limit source around more) :
    Enters limit source around (moments ++ more) := by
  refine ⟨fun m hm block outer hblock => ?_, fun m hm bracket hat => ?_⟩
  · rcases List.mem_append.1 hm with hm | hm
    · exact (h.only m hm block outer hblock).imp_right (·.mono (List.prefix_append ..).isInfix)
    · exact (hmore.only m hm block outer hblock).imp_right (·.mono (List.suffix_append ..).isInfix)
  · rcases List.mem_append.1 hm with hm | hm
    · obtain ⟨block, hbracket, hopens, hmem⟩ := h.all m hm bracket hat
      exact ⟨block, hbracket, hopens, List.mem_append_left _ hmem⟩
    · obtain ⟨block, hbracket, hopens, hmem⟩ := hmore.all m hm bracket hat
      exact ⟨block, hbracket, hopens, List.mem_append_right _ hmem⟩

/-- The moment in front of a bracket, and those of the content of its block. -/
theorem Enters.block {block : OpenBlock} (h : Enters limit source (block :: around) moments)
    (hblock : Entered limit source block around moments)
    (hstart : ⟨block :: around, block.opens + 1, .code⟩ ∈ moments) :
    Enters limit source around (⟨around, block.opens, .code⟩ :: moments) := by
  have hinfix : moments <:+: ⟨around, block.opens, .code⟩ :: moments :=
    (List.suffix_cons ..).isInfix
  refine ⟨fun m hm other outer hother => ?_, fun m hm bracket hat => ?_⟩
  · rcases List.mem_cons.1 hm with rfl | hm
    · exact .inl hother
    rcases h.only m hm other outer hother with hsuffix | hentered
    · rcases List.suffix_cons_iff.1 hsuffix with heq | hsuffix
      · obtain ⟨rfl, rfl⟩ := List.cons.inj heq
        exact .inr (hblock.mono hinfix)
      · exact .inl hsuffix
    · exact .inr (hentered.mono hinfix)
  · rcases List.mem_cons.1 hm with rfl | hm
    · have hopener := hblock.opener.symm.trans hat.opener
      exact ⟨block, Bracket.opener_inj.1 (Option.some.inj hopener), rfl,
        List.mem_cons_of_mem _ hstart⟩
    · obtain ⟨other, hbracket, hopens, hmem⟩ := h.all m hm bracket hat
      exact ⟨other, hbracket, hopens, List.mem_cons_of_mem _ hmem⟩

/-- A scan starts where it stands. -/
theorem mem_moments_recordFrom (limit : Nat) (around : List OpenBlock) (header : Bool)
    (clauses : Clauses) (mode : Mode) (pending : Bytes) (position : Nat) (text : Bytes) :
    ⟨around, position, mode⟩ ∈
      (recordFrom limit around header clauses mode pending position text).moments := by
  rw [recordFrom.eq_def]
  exact List.mem_cons_self ..

/-- A scan goes into the blocks whose brackets it gets past, and into no others. -/
theorem enters_recordFrom (h : Ahead source around position text) :
    Enters limit source around
      (recordFrom limit around header clauses mode pending position text).moments := by
  generalize hlevel : around.length = level
  induction level, header, clauses, mode, pending, position, text using scanInduction
    generalizing around with
  | finish level header clauses mode pending position =>
    rw [recordFrom_nil]
    refine .single fun bracket hat => Nat.lt_irrefl position ?_
    have hbefore := hat.before
    rwa [← h.stop] at hbefore
  | opener level header clauses pending position bracket text ih =>
    by_cases hdeep : limit ≤ around.length
    · rw [recordFrom_tooDeep hdeep]
      exact .single fun _ hat => absurd hat.level (Nat.not_lt.2 hdeep)
    cases hsplit : splitAtCloser bracket 0 .code text with
    | none =>
      rw [recordFrom_unmatched hdeep hsplit]
      refine .single fun other hat => ?_
      obtain ⟨-, parts, hparts⟩ := h.atOpener hat
      exact nomatch hsplit.symm.trans hparts
    | some parts =>
      obtain ⟨inside, after⟩ := parts
      obtain ⟨ihInside, ihAfter⟩ := ih inside after hsplit
      obtain ⟨hinside, hafter⟩ := h.block pending hsplit
      have hcontent := Enters.block (ihInside hinside (congrArg (· + 1) hlevel)) (h.entered hsplit)
        (mem_moments_recordFrom ..)
      rw [recordFrom_block hdeep hsplit, Recorded.visit_moments]
      -- what is behind the block is scanned only when the content is scanned without an error
      cases hresult : (recordFrom limit (entered bracket pending position text inside :: around)
          (entered bracket pending position text inside).header {} .code []
          (position + 1) inside).result with
      | error e =>
        rw [Recorded.andThen_of_error hresult]
        exact hcontent
      | ok children =>
        rw [Recorded.andThen_of_ok hresult]
        exact hcontent.append (ihAfter hafter hlevel)
  | clause level clauses pending position text ih =>
    rw [recordFrom_clause]
    exact (Enters.single
      (h.not_atOpener fun bracket hc => endsStatement_semicolon.ne_opener bracket hc.2)).append
      (ih h.tail hlevel)
  | statement level clauses mode pending position c text hend ih =>
    rw [recordFrom_statement hend]
    exact (Enters.single (h.not_atOpener fun bracket hc => hend.ne_opener bracket hc.2)).append
      (ih h.tail hlevel)
  | one level header clauses mode next pending position c text hstep hkeep ih =>
    rw [recordFrom_one hstep hkeep]
    exact (Enters.single (h.not_atOpener (hkeep.not_opener hstep))).append (ih h.tail hlevel)
  | two level header clauses mode next pending position c d text hstep ih =>
    rw [recordFrom_two hstep]
    refine (Enters.single (h.not_atOpener fun bracket hopener => ?_)).append (ih h.tail.tail hlevel)
    exact Mode.stepClass_two hstep ((Bracket.code_opener_iff hstep).2 hopener).1

/-- The content of a block is scanned in step with the search for its closer. -/
theorem Entered.inStep {block : OpenBlock} (h : Entered limit source block outer moments) : ∃ after,
    (source.take block.stop).drop (block.opens + 1) = block.inside source ++
      block.bracket.closer :: after ∧
    InStep block.bracket (block :: outer) (block :: outer) .code (block.opens + 1)
      (block.inside source)
      (block.bracket.closer :: after) (block.content limit source outer) := by
  obtain ⟨after, hfound⟩ := h.found
  have hinside := encloses_of_splitAtCloser hfound
  exact ⟨after, eq_append_of_splitAtCloser hfound,
    inStep_recordFrom (Nat.le_refl _) (hinside.reads after) hinside.splitAtCloser_inside⟩

/-- A scan that gets through the content of a block stands where the search for its closer stands,
and at last in code in front of the closer. -/
theorem Entered.content_through {block : OpenBlock} {children : List Token}
    (h : Entered limit source block outer moments)
    (hok : (block.content limit source outer).result = .ok children) :
    (block.content limit source outer).moments.getLast? =
      some ⟨block :: outer, block.closes, .code⟩ ∧
      (block.content limit source outer).moments.map (·.sought block.bracket (block :: outer)) =
        (block.search source).moments := by
  obtain ⟨after, htext, hinStep⟩ := h.inStep
  obtain ⟨before, hmoments, hsearch⟩ := hinStep.through children hok
  have hzero : openWithin block.bracket (block :: outer) (block :: outer) = 0 := Nat.sub_self _
  rw [hzero, recordSearch_found] at hsearch
  constructor
  · rw [hmoments, List.getLast?_concat, h.closes]
  · rw [OpenBlock.search, htext, hsearch, behind, hmoments, List.map_append, List.map_singleton,
      ScanMoment.sought, hzero]

/-- A bracket in the place of the closer is one of code for the scan of the content. -/
theorem Entered.content_append_opener {block : OpenBlock} {children : List Token}
    (h : Entered limit source block outer moments)
    (hok : (block.content limit source outer).result = .ok children) (bracket : Bracket) :
    tokensFrom limit (outer.length + 1) block.header {} .code [] (block.opens + 1)
        (block.inside source ++ [bracket.opener]) =
      .error ⟨if limit ≤ outer.length + 1 then .tooDeep else .unmatched,
        bracket.opener, block.closes⟩ := by
  obtain ⟨after, hfound⟩ := h.found
  have hread := (encloses_of_splitAtCloser hfound).reads after
  have hplain : bracket.opener ≠ '/' ∧ bracket.opener ≠ '*' := by cases bracket <;> decide
  rw [OpenBlock.content, recordFrom_result rfl] at hok
  exact tokensFrom_append_opener (hread.of_next hplain.1 hplain.2) h.closes.symm hok

/-- The search stands where the scan of the content stands, whether the scan fails or not. -/
theorem Entered.mem_search {block : OpenBlock} (h : Entered limit source block outer moments)
    {n : ScanMoment} (hn : n ∈ (block.content limit source outer).moments) :
    n.sought block.bracket (block :: outer) ∈ (block.search source).moments := by
  have hmem := List.mem_map_of_mem (f := (·.sought block.bracket (block :: outer))) hn
  cases hresult : (block.content limit source outer).result with
  | ok children => exact (h.content_through hresult).2 ▸ hmem
  | error e =>
    obtain ⟨after, htext, hinStep⟩ := h.inStep
    have hsoFar := hinStep.soFar e hresult
    rw [openWithin, Nat.sub_self, ← htext] at hsoFar
    exact hsoFar.subset hmem

/-- A search stands at one position once only. -/
theorem OpenBlock.search_inj {block : OpenBlock} {s t : SearchMoment}
    (hs : s ∈ (block.search source).moments)
    (ht : t ∈ (block.search source).moments) (h : s.position = t.position) : s = t := by
  have hpositions := (recordSearch_positions block.bracket 0 .code (block.opens + 1)
    ((source.take block.stop).drop (block.opens + 1))).2
  exact List.inj_on_of_nodup_map (List.pairwise_map.2 (hpositions.imp Nat.ne_of_lt)) hs ht h

end Entered

/-- The search for closers and the scan stay in step. A scan starts at the front of the script and
goes into the block of every bracket that it gets past, up to the closer that the search finds in
the content around the block. The search stands at every position at which the scan of the block's
content stands, nested blocks included, and only once: in the same mode, with as many brackets open
as the scan is inside of blocks of the kind. If the scan of the content does not fail, the two stand
at the same positions throughout, and the scan reaches the closer in code: there it would take an
opening bracket for one. -/
theorem search_in_step_with_scan (limit : Nat) (source : Bytes) :
    (recordScan limit source).result = scan limit source ∧
    ⟨[], 0, .code⟩ ∈ (recordScan limit source).moments ∧
    (∀ m ∈ (recordScan limit source).moments, ∀ bracket, AtOpener limit source bracket m → ∃ block,
      block.bracket = bracket ∧ block.opens = m.position ∧
        ⟨block :: m.around, m.position + 1, .code⟩ ∈ (recordScan limit source).moments) ∧
    ∀ m ∈ (recordScan limit source).moments, ∀ block outer, block :: outer <:+ m.around →
      Entered limit source block outer (recordScan limit source).moments ∧
      (block.search source).result =
        splitAtCloser block.bracket 0 .code ((source.take block.stop).drop (block.opens + 1)) ∧
      (block.content limit source outer).result =
        tokensFrom limit (outer.length + 1) block.header {} .code [] (block.opens + 1)
          (block.inside source) ∧
      (∀ children, (block.content limit source outer).result = .ok children →
        (block.content limit source outer).moments.getLast? =
          some ⟨block :: outer, block.closes, .code⟩ ∧
        (block.content limit source outer).moments.map (·.sought block.bracket (block :: outer)) =
          (block.search source).moments ∧
        ∀ bracket : Bracket, tokensFrom limit (outer.length + 1) block.header {} .code []
            (block.opens + 1) (block.inside source ++ [bracket.opener]) =
          .error ⟨if limit ≤ outer.length + 1 then .tooDeep else .unmatched,
            bracket.opener, block.closes⟩) ∧
      ∀ n ∈ (block.content limit source outer).moments,
        n.sought block.bracket (block :: outer) ∈ (block.search source).moments ∧
        ∀ s ∈ (block.search source).moments, s.position = n.position →
          s.mode = n.mode ∧ s.level = openWithin block.bracket (block :: outer) n.around := by
  have henters : Enters limit source [] (recordScan limit source).moments :=
    enters_recordFrom ⟨List.prefix_rfl, Nat.zero_add _⟩
  refine ⟨recordFrom_result rfl, mem_moments_recordFrom .., henters.all,
    fun m hm block outer hblock => ?_⟩
  have hentered : Entered limit source block outer (recordScan limit source).moments :=
    (henters.only m hm block outer hblock).resolve_left fun h => nomatch List.suffix_nil.1 h
  refine ⟨hentered, recordSearch_result .., recordFrom_result rfl, fun children hok => ?_,
    fun n hn => ?_⟩
  · obtain ⟨hlast, hmoments⟩ := hentered.content_through hok
    exact ⟨hlast, hmoments, hentered.content_append_opener hok⟩
  · have hmem := hentered.mem_search hn
    refine ⟨hmem, fun s hs hposition => ?_⟩
    obtain rfl := OpenBlock.search_inj hs hmem hposition
    exact ⟨rfl, rfl⟩

/-- A call with closers in a text, behind an escaped quote, and in a comment of a block inside. The
search for the closer of the call stands in front of the one in the comment as the scan does, and
has one more bracket open in front of the argument of the call inside. -/
theorem search_in_step_with_scan_call : ∃ (source : Bytes) (call block inner : OpenBlock),
    source = "f(\"\\\")\", \x7b/*)*/g(1)\x7d)" ∧
      [call.closes, block.closes, inner.closes] = [20, 19, 18] ∧
    ⟨[inner, block, call], 17, .code⟩ ∈ (recordScan 3 source).moments ∧
    (∃ other, other.bracket = .curly ∧ other.opens = 9 ∧
      ⟨[other, call], 10, .code⟩ ∈ (recordScan 3 source).moments) ∧
    (call.content 3 source []).moments.getLast? = some ⟨[call], 20, .code⟩ ∧
    (call.content 3 source []).moments.map (·.sought .round [call]) = (call.search source).moments ∧
    tokensFrom 3 1 call.header {} .code [] 2 (call.inside source ++ [Bracket.curly.opener]) =
      .error ⟨.unmatched, Bracket.curly.opener, 20⟩ ∧
    ⟨0, 12, .blockComment⟩ ∈ (call.search source).moments ∧
    ∀ s ∈ (call.search source).moments, s.position = 17 → s.mode = .code ∧ s.level = 1 := by
  have hm :
      ⟨[⟨.round, false, 16, 18, 19⟩, ⟨.curly, false, 9, 19, 20⟩, ⟨.round, false, 1, 20, 21⟩], 17,
        .code⟩ ∈
      (recordScan 3 "f(\"\\\")\", \x7b/*)*/g(1)\x7d)").moments := by decide +kernel
  have hopener : AtOpener 3 "f(\"\\\")\", \x7b/*)*/g(1)\x7d)" .curly
      ⟨[⟨.round, false, 1, 20, 21⟩], 9, .code⟩ :=
    ⟨rfl, by decide, by decide, by decide, Option.isSome_iff_exists.1 (by decide +kernel)⟩
  obtain ⟨-, -, hall, honly⟩ := search_in_step_with_scan 3 "f(\"\\\")\", \x7b/*)*/g(1)\x7d)"
  obtain ⟨-, -, -, hthrough, hsearch⟩ := honly _ hm ⟨.round, false, 1, 20, 21⟩ [] ⟨[_, _], rfl⟩
  obtain ⟨hlast, hmoments, hbracket⟩ :=
    hthrough [.block "\"\\\")\", \x7b" [.block "/*)*/g(" [.leaf "1" 17] 10] 2] (by decide +kernel)
  refine ⟨_, _, _, _, rfl, rfl, hm, hall _ (by decide +kernel) .curly hopener, hlast, hmoments,
    hbracket .curly, ?_, ?_⟩
  · exact (hsearch ⟨[⟨.curly, false, 9, 19, 20⟩, ⟨.round, false, 1, 20, 21⟩], 12, .blockComment⟩
      (by decide +kernel)).1
  · exact (hsearch ⟨[⟨.round, false, 16, 18, 19⟩, ⟨.curly, false, 9, 19, 20⟩,
      ⟨.round, false, 1, 20, 21⟩], 17, .code⟩ (by decide +kernel)).2

end Scan

end TagScript
