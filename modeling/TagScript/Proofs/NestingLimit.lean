import TagScript.Proofs.Scannable
import TagScript.Proofs.SessionBrackets

/-!
# Where a scan fails

A scan fails at one opening bracket. Which one is said here without the scanner: going through a
script from left to right, a bracket of code opens a block when its closer is found in the content
of the block around it, and the blocks around a position are those opened and not yet closed there.

A scan gets past a bracket when fewer blocks than the limit are around it and its closer is found.
It fails at the leftmost bracket that it does not get past, so a script that can be scanned at all
is scanned under exactly those limits that its tree respects, always as the same tree.
-/

namespace TagScript

/-- The bracket that opens at a position, if one does there in code. -/
def openerAt? (source : Bytes) (position : Nat) : Option Bracket :=
  match (Mode.code.classify source)[position]? with
  | some (c, .code) => Bracket.ofOpener? c
  | _ => none

/-- Where the bracket that opens at a position is closed, if its closer is found in front of
`stop`. -/
def closerBefore? (source : Bytes) (stop position : Nat) : Option Nat :=
  (openerAt? source position).bind fun bracket =>
    (Scan.splitAtCloser bracket 0 .code ((source.take stop).drop (position + 1))).map
        fun (inside, _) => position + 1 + inside.length

/-- Where the blocks around a position are closed, innermost first. A bracket opens a block if its
closer is found in front of the one that closes the block around it. -/
def closersAround (source : Bytes) : Nat → List Nat
  | 0 => []
  | position + 1 =>
    let around := closersAround source position
    if around.head? = some position then around.tail
    else (closerBefore? source (around.headD source.length) position).toList ++ around

/-- How many blocks are around a position. -/
def nesting (source : Bytes) (position : Nat) : Nat := (closersAround source position).length

/-- Where the bracket that opens at a position is closed in the content of the block around it. -/
def blockCloser? (source : Bytes) (position : Nat) : Option Nat :=
  closerBefore? source ((closersAround source position).headD source.length) position

section Openers

variable {source : Bytes} {position : Nat} {bracket : Bracket} {around : List Nat}

/-- A bracket opens where its opening byte stands in code. -/
theorem openerAt?_eq_some_iff : openerAt? source position = some bracket ↔
    (Mode.code.classify source)[position]? = some (bracket.opener, .code) := by
  unfold openerAt?
  split
  next c heq =>
    rw [heq, Option.some.injEq, Prod.mk.injEq, and_iff_left rfl]
    refine ⟨Bracket.opener_of_ofOpener?, ?_⟩
    rintro rfl
    exact Bracket.ofOpener?_opener bracket
  next hne => exact ⟨nofun, fun h => absurd h (hne bracket.opener)⟩

/-- A bracket opens at one of the positions of the script, where its opening byte stands. -/
theorem getElem?_of_openerAt? (h : openerAt? source position = some bracket) :
    source[position]? = some bracket.opener := by
  rw [openerAt?_eq_some_iff, Mode.classify, List.getElem?_zip_eq_some] at h
  exact h.1

/-- No bracket opens at a byte that opens none in code. -/
theorem openerAt?_eq_none {c : UInt8} {k : ByteClass}
    (hbyte : (Mode.code.classify source)[position]? = some (c, k))
    (h : k = .code → Bracket.ofOpener? c = none) : openerAt? source position = none := by
  unfold openerAt?
  rw [hbyte]
  cases k with
  | code => exact h rfl
  | string => rfl
  | comment => rfl

/-- In front of the closer of the block around it, a position adds the block that opens there. -/
theorem closersAround_succ (h : closersAround source position = around)
    (hstop : position < around.headD source.length) :
    closersAround source (position + 1) = (blockCloser? source position).toList ++ around := by
  have hhead : around.head? ≠ some position := by
    rintro heq
    rw [List.headD_eq_head?_getD, heq, Option.getD_some] at hstop
    exact Nat.lt_irrefl _ hstop
  rw [closersAround, blockCloser?, h, if_neg hhead]

/-- Behind its closer a block is left. -/
theorem closersAround_succ_close (h : closersAround source position = position :: around) :
    closersAround source (position + 1) = around := by
  rw [closersAround, h, List.head?_cons, if_pos rfl, List.tail_cons]

/-- Where no bracket opens, the blocks around the next position are the same. -/
theorem closersAround_succ_of_none (h : closersAround source position = around)
    (hstop : position < around.headD source.length) (hnone : openerAt? source position = none) :
    closersAround source (position + 1) = around := by
  rw [closersAround_succ h hstop, blockCloser?, closerBefore?, hnone]
  rfl

end Openers

namespace Scan

/-- A stretch of a script as a scan meets it: `text` stands at `position` and reaches to the end of
the content of the innermost block `around` it, and read from `mode` it is classified as in the
script. -/
structure Stretch (source : Bytes) (around : List Nat) (mode : Mode) (position : Nat)
    (text : Bytes) : Prop where
  blocks : closersAround source position = around
  stop : around.headD source.length = position + text.length
  classified : mode.classify text <+: (Mode.code.classify source).drop position

/-- What stands first at a position stands there. -/
theorem getElem?_of_prefix_drop {α : Type} {x : α} {xs whole : List α} {n : Nat}
    (h : x :: xs <+: whole.drop n) :
    whole[n]? = some x := by
  obtain ⟨rest, hrest⟩ := h
  rw [← Nat.add_zero n, ← List.getElem?_drop, ← hrest]
  rfl

namespace Stretch

variable {source : Bytes} {around : List Nat} {mode next : Mode} {position : Nat}
  {text inside after : Bytes} {c d : UInt8} {bracket : Bracket}

/-- The whole script is a stretch with no block around it. -/
theorem whole (source : Bytes) : Stretch source [] .code 0 source :=
  ⟨rfl, (Nat.zero_add _).symm, List.prefix_rfl⟩

/-- A stretch is what the script holds from its position to the end of the content. -/
theorem drop_take (h : Stretch source around mode position text) :
    (source.take (around.headD source.length)).drop position = text := by
  have hbytes := h.classified.map Prod.fst
  have hlength : ∀ (m : Mode) (t : Bytes), t.length ≤ (m.classes t).length :=
    fun m t => by rw [Mode.length_classes]
  rw [List.map_drop, Mode.classify, Mode.classify, List.map_fst_zip (hlength ..),
    List.map_fst_zip (hlength ..)] at hbytes
  rw [h.stop, List.drop_take, Nat.add_sub_cancel_left]
  exact (List.prefix_iff_eq_take.1 hbytes).symm

/-- The rest behind a byte that opens no bracket. -/
theorem tail {k : ByteClass} (hblocks : closersAround source position = around)
    (hstop : around.headD source.length = position + 1 + text.length)
    (hclassified : (c, k) :: mode.classify text <+: (Mode.code.classify source).drop position)
    (hopen : k = .code → Bracket.ofOpener? c = none) :
    openerAt? source position = none ∧ Stretch source around mode (position + 1) text := by
  have hnone := openerAt?_eq_none (getElem?_of_prefix_drop hclassified) hopen
  exact ⟨hnone, closersAround_succ_of_none hblocks (by omega) hnone, hstop,
    (prefix_drop_append (List.singleton_append ▸ hclassified)).2⟩

/-- The rest behind a byte that is read alone and opens no bracket in code. -/
theorem one (h : Stretch source around mode position (c :: text))
    (hstep : mode.step c text.head? = (next, false))
    (hopen : mode.stepClass next = .code → Bracket.ofOpener? c = none) :
    openerAt? source position = none ∧ Stretch source around next (position + 1) text := by
  have hclassified := h.classified
  rw [Mode.classify_cons_one hstep] at hclassified
  exact tail h.blocks (by rw [h.stop, List.length_cons]; omega) hclassified hopen

/-- The rest behind bytes that are read together; they open no bracket. -/
theorem two (h : Stretch source around mode position (c :: d :: text))
    (hstep : mode.step c (some d) = (next, true)) :
    openerAt? source position = none ∧ openerAt? source (position + 1) = none ∧
      Stretch source around next (position + 2) text := by
  have hclass := Mode.stepClass_two hstep
  have hclassified := h.classified
  rw [Mode.classify_cons_two hstep] at hclassified
  have hstop : around.headD source.length = position + 1 + 1 + text.length := by
    rw [h.stop, List.length_cons, List.length_cons]
    omega
  have hnone := openerAt?_eq_none (getElem?_of_prefix_drop hclassified)
    fun hcode => absurd hcode hclass
  have hfirst := closersAround_succ_of_none h.blocks (by omega) hnone
  rw [← List.singleton_append] at hclassified
  exact ⟨hnone, tail hfirst hstop (prefix_drop_append hclassified).2
    fun hcode => absurd hcode hclass⟩

/-- A bracket in front of a stretch opens there. -/
theorem openerAt?_eq (h : Stretch source around .code position (bracket.opener :: text)) :
    openerAt? source position = some bracket := by
  have hclassified := h.classified
  rw [Mode.classify_cons_plain bracket.opener_plain.1 bracket.opener_plain.2] at hclassified
  exact openerAt?_eq_some_iff.2 (getElem?_of_prefix_drop hclassified)

/-- The closer of a bracket in front of a stretch is searched in the rest of the stretch. -/
theorem blockCloser?_eq (h : Stretch source around .code position (bracket.opener :: text)) :
    blockCloser? source position =
      (splitAtCloser bracket 0 .code text).map fun parts => position + 1 + parts.1.length := by
  have hrest : (source.take (around.headD source.length)).drop (position + 1) = text := by
    rw [← List.drop_drop, h.drop_take, List.drop_one, List.tail_cons]
  rw [blockCloser?, h.blocks, closerBefore?, h.openerAt?_eq, Option.bind_some, hrest]

/-- The content of a block is a stretch of its own. -/
theorem content (h : Stretch source around .code position (bracket.opener :: text))
    (hsplit : splitAtCloser bracket 0 .code text = some (inside, after)) :
    Stretch source ((position + 1 + inside.length) :: around) .code (position + 1) inside := by
  have hclose := h.blockCloser?_eq
  rw [hsplit, Option.map_some] at hclose
  have hclassified := h.classified
  rw [Mode.classify_cons_plain bracket.opener_plain.1 bracket.opener_plain.2,
    eq_append_of_splitAtCloser hsplit,
    ((encloses_of_splitAtCloser hsplit).reads after).classify_append, ← List.singleton_append]
    at hclassified
  refine ⟨?_, rfl, (prefix_drop_append (prefix_drop_append hclassified).2).1⟩
  rw [closersAround_succ h.blocks (by rw [h.stop, List.length_cons]; omega), hclose]
  rfl

/-- What follows a block is the rest of the stretch, if the block is the innermost one around its
closer. -/
theorem behind (h : Stretch source around .code position (bracket.opener :: text))
    (hsplit : splitAtCloser bracket 0 .code text = some (inside, after))
    (hclose : closersAround source (position + 1 + inside.length) =
      (position + 1 + inside.length) :: around) :
    openerAt? source (position + 1 + inside.length) = none ∧
      Stretch source around .code (position + inside.length + 2) after := by
  have htext := eq_append_of_splitAtCloser hsplit
  have hnext : position + 1 + inside.length + 1 = position + inside.length + 2 := by omega
  have hclassified := h.classified
  rw [Mode.classify_cons_plain bracket.opener_plain.1 bracket.opener_plain.2, htext,
    ((encloses_of_splitAtCloser hsplit).reads after).classify_append,
    Mode.classify_cons_plain bracket.closer_plain.1 bracket.closer_plain.2, ← List.singleton_append]
      at hclassified
  have hcloser := (prefix_drop_append (prefix_drop_append hclassified).2).2
  rw [Mode.length_classify, List.length_singleton] at hcloser
  refine ⟨openerAt?_eq_none (getElem?_of_prefix_drop hcloser) fun _ => bracket.ofOpener?_closer,
    ?_, ?_, ?_⟩
  · rw [← hnext, closersAround_succ_close hclose]
  · rw [h.stop, htext, List.length_cons, List.length_append, List.length_cons]
    omega
  · rw [← hnext]
    exact (prefix_drop_append (List.singleton_append ▸ hcloser)).2

end Stretch

section Faults

variable {limit level : Nat} {header : Bool} {clauses : Clauses} {mode : Mode}
  {pending : Bytes} {source : Bytes} {around : List Nat} {position : Nat} {text : Bytes}
  {tokens : List Token} {e : ScanError}

/-- A bracket that a scan gets past: fewer blocks than the limit are around it, and its closer is
found in the content of the innermost one. -/
def Passable (limit : Nat) (source : Bytes) (position : Nat) : Prop :=
  nesting source position < limit ∧ ∃ close, blockCloser? source position = some close

/-- Every bracket that opens between two positions can be passed. -/
def PassableBetween (limit : Nat) (source : Bytes) (start stop : Nat) : Prop :=
  ∀ position, start ≤ position → position < stop → ∀ bracket,
    openerAt? source position = some bracket → Passable limit source position

/-- The error that names the bracket at a position, which is too deep or has no closer. -/
structure FailsAt (limit : Nat) (source : Bytes) (e : ScanError) (position : Nat) : Prop where
  offset : e.offset = position
  opener : ∃ bracket, openerAt? source position = some bracket ∧ e.opener = bracket.opener
  fault : nesting source position = limit ∧ e.fault = .tooDeep ∨
    nesting source position < limit ∧ blockCloser? source position = none ∧ e.fault = .unmatched

/-- Between a position and itself there is nothing to pass. -/
theorem PassableBetween.refl : PassableBetween limit source position position :=
  fun _ hlow hhigh => absurd hhigh (Nat.not_lt.2 hlow)

/-- A position is passed when the bracket that opens there is, if one does. -/
theorem PassableBetween.cons {start stop : Nat}
    (hstart : ∀ bracket, openerAt? source start = some bracket → Passable limit source start)
    (h : PassableBetween limit source (start + 1) stop) :
    PassableBetween limit source start stop := by
  intro position hlow hhigh bracket hopen
  rcases Nat.eq_or_lt_of_le hlow with rfl | hlow
  · exact hstart bracket hopen
  · exact h position hlow hhigh bracket hopen

/-- Where no bracket opens there is nothing to pass. -/
theorem PassableBetween.succ {start stop : Nat} (hnone : openerAt? source start = none)
    (h : PassableBetween limit source (start + 1) stop) : PassableBetween limit source start stop :=
  h.cons fun _ hopen => nomatch hnone ▸ hopen

/-- Two stretches are passed one after the other. -/
theorem PassableBetween.trans {start middle stop : Nat}
    (h : PassableBetween limit source start middle)
    (h' : PassableBetween limit source middle stop) : PassableBetween limit source start stop := by
  intro position hlow hhigh
  rcases Nat.lt_or_ge position middle with hlt | hge
  · exact h position hlow hlt
  · exact h' position hge hhigh

/-- What the result of a scan tells about the brackets between its start and the end of the content
that it goes through. A success passes them all and leaves all blocks that open there; a failure
passes those in front of the bracket that it names. -/
def Tells (limit : Nat) (source : Bytes) (around : List Nat) (start : Nat) :
    Except ScanError (List Token) → Prop
  | .ok _ => PassableBetween limit source start (around.headD source.length) ∧
      closersAround source (around.headD source.length) = around
  | .error e =>
    ∃ failing, start ≤ failing ∧ PassableBetween limit source start failing ∧
      FailsAt limit source e failing

/-- Positions that are passed may be added in front. -/
theorem Tells.prepend {start middle : Nat} {result : Except ScanError (List Token)}
    (hle : start ≤ middle) (hpass : PassableBetween limit source start middle)
    (h : Tells limit source around middle result) :
    Tells limit source around start result := by
  cases result with
  | ok tokens => exact ⟨hpass.trans h.1, h.2⟩
  | error e =>
    obtain ⟨failing, hlow, hbetween, hfails⟩ := h
    exact ⟨failing, Nat.le_trans hle hlow, hpass.trans hbetween, hfails⟩

/-- A position where no bracket opens may be added in front. -/
theorem Tells.succ {start : Nat} {result : Except ScanError (List Token)}
    (hnone : openerAt? source start = none) (h : Tells limit source around (start + 1) result) :
    Tells limit source around start result :=
  h.prepend (Nat.le_succ start) (.succ hnone .refl)

/-- The tokens of a success do not matter. -/
theorem Tells.bind {start : Nat} {result : Except ScanError (List Token)}
    {f : List Token → List Token} (h : Tells limit source around start result) :
    Tells limit source around start (do let tokens ← result; return f tokens) := by
  cases result with
  | ok tokens => exact h
  | error e => exact h

/-- A scan goes through the brackets of its text from left to right and fails at the first one that
it does not get past. -/
theorem tells_tokensFrom (h : Stretch source around mode position text)
    (hlevel : around.length = level) (hlimit : level ≤ limit) :
    Tells limit source around position
      (tokensFrom limit level header clauses mode pending position text) := by
  induction level, header, clauses, mode, pending, position, text using scanInduction
    generalizing around with
  | finish level header clauses mode pending position =>
    rw [tokensFrom_nil, Tells, h.stop]
    exact ⟨.refl, h.blocks⟩
  | opener level header clauses pending position bracket text ih =>
    have hnesting : nesting source position = level := by rw [nesting, h.blocks, hlevel]
    have hclose := h.blockCloser?_eq
    by_cases hdeep : limit ≤ level
    · rw [tokensFrom_tooDeep hdeep]
      exact ⟨position, Nat.le_refl _, .refl, rfl, ⟨bracket, h.openerAt?_eq, rfl⟩,
        .inl ⟨by omega, rfl⟩⟩
    cases hsplit : splitAtCloser bracket 0 .code text with
    | none =>
      rw [hsplit, Option.map_none] at hclose
      rw [tokensFrom_unmatched hdeep hsplit]
      exact ⟨position, Nat.le_refl _, .refl, rfl, ⟨bracket, h.openerAt?_eq, rfl⟩,
        .inr ⟨by omega, hclose, rfl⟩⟩
    | some parts =>
      obtain ⟨inside, after⟩ := parts
      rw [hsplit, Option.map_some] at hclose
      have hpass : Passable limit source position := ⟨by omega, _, hclose⟩
      obtain ⟨ihInside, ihAfter⟩ := ih inside after hsplit
      have hchildren := ihInside (h.content hsplit) (congrArg (· + 1) hlevel) (by omega)
      rw [tokensFrom_block hdeep hsplit]
      -- the scan goes on behind the closer only when it got through the content
      generalize tokensFrom limit (level + 1) _ {} .code [] (position + 1) inside =
        children at hchildren ⊢
      cases children with
      | error e => exact hchildren.prepend (Nat.le_succ _) (.cons (fun _ _ => hpass) .refl)
      | ok children =>
        obtain ⟨hinside, haround⟩ := hchildren
        obtain ⟨hcloser, hbehind⟩ := h.behind hsplit haround
        have hblock : PassableBetween limit source position (position + 1 + inside.length + 1) :=
          .cons (fun _ _ => hpass) (hinside.trans (.succ hcloser .refl))
        rw [show position + 1 + inside.length + 1 = position + inside.length + 2 by omega] at hblock
        exact ((ihAfter hbehind hlevel hlimit).prepend (by omega) hblock).bind
  | clause level clauses pending position text ih =>
    obtain ⟨hnone, htail⟩ := h.one (endsStatement_semicolon.step _) fun _ =>
      endsStatement_semicolon.ofOpener?_eq_none
    rw [tokensFrom_clause]
    exact ((ih htail hlevel hlimit).succ hnone).bind
  | statement level clauses mode pending position c text hend ih =>
    obtain ⟨hnone, htail⟩ := h.one (hend.step _) fun _ => hend.ofOpener?_eq_none
    rw [tokensFrom_statement hend]
    exact ((ih htail hlevel hlimit).succ hnone).bind
  | one level header clauses mode next pending position c text hstep hkeep ih =>
    obtain ⟨hnone, htail⟩ := h.one hstep hkeep.ofOpener?_eq_none
    rw [tokensFrom_one hstep hkeep]
    exact (ih htail hlevel hlimit).succ hnone
  | two level header clauses mode next pending position c d text hstep ih =>
    obtain ⟨hfirst, hsecond, htail⟩ := h.two hstep
    rw [tokensFrom_two hstep]
    exact ((ih htail hlevel hlimit).succ hsecond).succ hfirst

/-- The result of a scan tells about all brackets of the script. -/
theorem tells_scan (limit : Nat) (source : Bytes) : Tells limit source [] 0 (scan limit source) :=
  tells_tokensFrom (.whole source) rfl (Nat.zero_le limit)

/-- A bracket that a scan fails at is not passed. -/
theorem FailsAt.not_passable (h : FailsAt limit source e position) :
    ¬ Passable limit source position := by
  rintro ⟨hnesting, close, hclose⟩
  rcases h.fault with ⟨hlimit, -⟩ | ⟨-, hnone, -⟩
  · exact Nat.lt_irrefl limit (hlimit ▸ hnesting)
  · exact nomatch hnone ▸ hclose

/-- One bracket is the subject of one error. -/
theorem FailsAt.unique {f : ScanError} (he : FailsAt limit source e position)
    (hf : FailsAt limit source f position) :
    e = f := by
  obtain ⟨bracket, hopen, hopener⟩ := he.opener
  obtain ⟨other, hopen', hopener'⟩ := hf.opener
  obtain rfl : bracket = other := by simpa [hopen] using hopen'
  have hfault : e.fault = f.fault := by
    rcases he.fault with ⟨hlimit, hdeep⟩ | ⟨hlimit, -, hunmatched⟩ <;>
      rcases hf.fault with ⟨hlimit', hdeep'⟩ | ⟨hlimit', -, hunmatched'⟩
    · rw [hdeep, hdeep']
    · omega
    · omega
    · rw [hunmatched, hunmatched']
  have hoffset : e.offset = f.offset := he.offset.trans hf.offset.symm
  cases e
  cases f
  simp only [ScanError.mk.injEq]
  exact ⟨hfault, hopener.trans hopener'.symm, hoffset⟩

/-- A scan fails exactly at the leftmost bracket that it does not get past. -/
theorem scan_fails_iff : scan limit source = .error e ↔
    ∃ position, PassableBetween limit source 0 position ∧ FailsAt limit source e position := by
  have htells := tells_scan limit source
  generalize scan limit source = result at htells
  constructor
  · rintro rfl
    obtain ⟨position, -, hpass, hfails⟩ := htells
    exact ⟨position, hpass, hfails⟩
  · rintro ⟨position, hpass, hfails⟩
    obtain ⟨bracket, hopen, -⟩ := hfails.opener
    cases result with
    | ok tokens =>
      have hposition : position < source.length :=
        (List.getElem?_eq_some_iff.1 (getElem?_of_openerAt? hopen)).1
      exact absurd (htells.1 position (Nat.zero_le _) hposition bracket hopen) hfails.not_passable
    | error f =>
      obtain ⟨failing, -, hpass', hfails'⟩ := htells
      obtain ⟨bracket', hopen', -⟩ := hfails'.opener
      rcases Nat.lt_trichotomy position failing with hlt | rfl | hlt
      · exact absurd (hpass' position (Nat.zero_le _) hlt bracket hopen) hfails.not_passable
      · rw [hfails'.unique hfails]
      · exact absurd (hpass failing (Nat.zero_le _) hlt bracket' hopen') hfails'.not_passable

end Faults

open Token

/-- Errors name the leftmost failing bracket. Whatever the limit, a scan fails exactly when there is
a bracket of code with as many blocks around it as the limit, which is too deep, or else without a
closer in the content of the block around it, which is unmatched, while each bracket of code in
front of it has fewer blocks around it than the limit and has such a closer. The error names this
bracket. -/
theorem scan_eq_error_iff {limit : Nat} {source : Bytes} {e : ScanError} :
    scan limit source = .error e ↔
    ∃ (position : Nat) (bracket : Bracket), e.offset = position ∧ e.opener = bracket.opener ∧
      source[position]? = some e.opener ∧ openerAt? source position = some bracket ∧
      (∀ q < position, ∀ b, openerAt? source q = some b →
        nesting source q < limit ∧ ∃ close, blockCloser? source q = some close) ∧
      (nesting source position = limit ∧ e.fault = .tooDeep ∧
        e.fault.reason = utf8 "nesting too deep" ∨
        nesting source position < limit ∧ blockCloser? source position = none ∧
        e.fault = .unmatched ∧
          e.fault.reason = []) := by
  rw [scan_fails_iff]
  constructor
  · rintro ⟨position, hpass, hoffset, ⟨bracket, hopen, hopener⟩, hfault⟩
    refine ⟨position, bracket, hoffset, hopener, hopener ▸ getElem?_of_openerAt? hopen, hopen,
      fun q hq => hpass q (Nat.zero_le q) hq, ?_⟩
    rcases hfault with ⟨hlimit, hdeep⟩ | ⟨hlimit, hnone, hunmatched⟩
    · exact .inl ⟨hlimit, hdeep, hdeep ▸ rfl⟩
    · exact .inr ⟨hlimit, hnone, hunmatched, hunmatched ▸ rfl⟩
  · rintro ⟨position, bracket, hoffset, hopener, -, hopen, hpass, hfault⟩
    refine ⟨position, fun q _ => hpass q, hoffset, ⟨bracket, hopen, hopener⟩, ?_⟩
    rcases hfault with ⟨hlimit, hdeep, -⟩ | ⟨hlimit, hnone, hunmatched, -⟩
    · exact .inl ⟨hlimit, hdeep⟩
    · exact .inr ⟨hlimit, hnone, hunmatched⟩

/-- A bracket that is closed only behind the block around it is unmatched. -/
example : nesting "(\x7b)\x7d" 1 = 1 ∧ blockCloser? "(\x7b)\x7d" 1 = none ∧
    scan 2 "(\x7b)\x7d" = .error ⟨.unmatched, '\x7b', 1⟩ := by
  refine ⟨by decide, by decide, by decide +kernel⟩

/-- A script that can be scanned is scanned as one tree, under every limit that the tree
respects. -/
theorem scan_eq_ok_iff {limit other : Nat} {source : Bytes} {tokens : List Token}
    (h : scan limit source = .ok tokens) :
    scan other source = .ok tokens ↔ depthAll tokens ≤ other := by
  obtain ⟨pairs, hlayout⟩ := layout_of_scan h
  exact ⟨depthAll_le_of_tokensFrom, hlayout.scan_eq⟩

/-- Two limits under which a script can be scanned give the same tree. -/
theorem scan_ok_unique {limit other : Nat} {source : Bytes} {tokens found : List Token}
    (h : scan limit source = .ok tokens) (hfound : scan other source = .ok found) :
    found = tokens := by
  have htokens : scan (max (depthAll tokens) (depthAll found)) source = .ok tokens :=
    (scan_eq_ok_iff h).2 (Nat.le_max_left ..)
  rw [(scan_eq_ok_iff hfound).2 (Nat.le_max_right ..)] at htokens
  exact Except.ok.inj htokens

/-- The depth limit is exact. A script that can be scanned is scanned under exactly the limits that
its tree respects, as this tree, so a higher limit does not change a result. Any other limit is
refused at the leftmost bracket with as many blocks around it as the limit. -/
theorem scan_limit_exact {limit : Nat} {source : Bytes} {tokens : List Token}
    (h : scan limit source = .ok tokens) (other : Nat) :
    ((∃ found, scan other source = .ok found) ↔ depthAll tokens ≤ other) ∧
    (depthAll tokens ≤ other → scan other source = .ok tokens) ∧
    (other < depthAll tokens → ∃ (position : Nat) (bracket : Bracket),
      scan other source = .error ⟨.refused "nesting too deep", bracket.opener, position⟩ ∧
      openerAt? source position = some bracket ∧ nesting source position = other ∧
      ∀ q < position, ∀ b, openerAt? source q = some b → nesting source q ≠ other) ∧
    ∀ more found, other ≤ more → scan other source = .ok found → scan more source = .ok found := by
  refine ⟨⟨?_, fun hdepth => ⟨tokens, (scan_eq_ok_iff h).2 hdepth⟩⟩, (scan_eq_ok_iff h).2,
    fun hdepth => ?_, ?_⟩
  · rintro ⟨found, hfound⟩
    rw [← scan_ok_unique h hfound]
    exact (scan_eq_ok_iff hfound).1 hfound
  · cases hother : scan other source with
    | ok found =>
      have hle := (scan_eq_ok_iff h).1 (scan_ok_unique h hother ▸ hother)
      omega
    | error e =>
      obtain ⟨position, hpass, hfails⟩ := scan_fails_iff.1 hother
      obtain ⟨bracket, hopen, hopener⟩ := hfails.opener
      have hfault : e.fault = .tooDeep := fault_of_tokensFrom h hother
      refine ⟨position, bracket, ?_, hopen, ?_, fun q hq b hb => ?_⟩
      · obtain ⟨fault, opener, offset⟩ := e
        obtain ⟨rfl, rfl, rfl⟩ : fault = .tooDeep ∧ opener = bracket.opener ∧ offset = position :=
          ⟨hfault, hopener, hfails.offset⟩
        rfl
      · rcases hfails.fault with ⟨hlimit, -⟩ | ⟨-, -, hunmatched⟩
        · exact hlimit
        · exact nomatch hfault.symm.trans hunmatched
      · exact Nat.ne_of_lt (hpass q (Nat.zero_le q) hq b hb).1
  · intro more found hmore hfound
    exact (scan_eq_ok_iff hfound).2 (Nat.le_trans ((scan_eq_ok_iff hfound).1 hfound) hmore)

/-- A call in a block in a call, under a limit that its tree respects and under one that it does
not. -/
theorem scan_limit_exact_call :
    scan 3 "f(')', \x7bg(1)\x7d)" = .ok
      [.block "f(" [.block "')', \x7b" [.block "g(" [.leaf "1" 10] 8] 2] 0] ∧
    scan 5 "f(')', \x7bg(1)\x7d)" = scan 3 "f(')', \x7bg(1)\x7d)" ∧
    ∃ (position : Nat) (bracket : Bracket), scan 2 "f(')', \x7bg(1)\x7d)" =
        .error ⟨.refused "nesting too deep", bracket.opener, position⟩ ∧
      openerAt? "f(')', \x7bg(1)\x7d)" position = some bracket ∧
        nesting "f(')', \x7bg(1)\x7d)" position = 2 ∧
      ∀ q < position, ∀ b, openerAt? "f(')', \x7bg(1)\x7d)" q = some b →
        nesting "f(')', \x7bg(1)\x7d)" q ≠ 2 := by
  have h : scan 3 "f(')', \x7bg(1)\x7d)" = .ok
      [.block "f(" [.block "')', \x7b" [.block "g(" [.leaf "1" 10] 8] 2] 0] := by decide +kernel
  refine ⟨h, ?_, (scan_limit_exact h 2).2.2.1 (by decide)⟩
  rw [h]
  exact (scan_limit_exact h 5).2.1 (by decide)

end Scan

end TagScript
