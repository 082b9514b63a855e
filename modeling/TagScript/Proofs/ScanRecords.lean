import TagScript.Proofs.Layout

/-!
# Records of scans and searches

A scan goes into a block up to the closer that a search found before, so a script is read twice: by
the search for the closer, and by the scan of the content. To compare the two readings, both are
given here with a record of the moments at which they stand in front of a byte: the position, the
mode, and what is open. A record does not change what is found.

The equations for the recorded scan follow the cases of the scan, those for the recorded search are
for one step, and for the brackets of any block.
-/

namespace TagScript

/-- The result of a computation, with the moments that it went through. -/
structure Recorded (μ ρ : Type) where
  result : ρ
  moments : List μ

namespace Recorded

variable {μ ρ σ ε α β : Type}

/-- A computation that starts at the given moment. -/
def visit (moment : μ) (r : Recorded μ ρ) : Recorded μ ρ :=
  { r with moments := moment :: r.moments }

/-- The same moments with another result. -/
def map (f : ρ → σ) (r : Recorded μ ρ) : Recorded μ σ := { r with result := f r.result }

/-- One computation after another, which is not begun when the first one fails. -/
def andThen (first : Recorded μ (Except ε α)) (next : α → Recorded μ (Except ε β)) :
    Recorded μ (Except ε β) :=
  match first.result with
  | .error e => ⟨.error e, first.moments⟩
  | .ok a => ⟨(next a).result, first.moments ++ (next a).moments⟩

/-- Recording a moment leaves the result. -/
@[simp] theorem visit_result (moment : μ) (r : Recorded μ ρ) :
    (r.visit moment).result = r.result := rfl

/-- A moment is recorded in front of those that follow it. -/
@[simp] theorem visit_moments (moment : μ) (r : Recorded μ ρ) :
    (r.visit moment).moments = moment :: r.moments := rfl

/-- A result is changed as given. -/
@[simp] theorem map_result (f : ρ → σ) (r : Recorded μ ρ) : (r.map f).result = f r.result := rfl

/-- Changing a result leaves the moments. -/
@[simp] theorem map_moments (f : ρ → σ) (r : Recorded μ ρ) : (r.map f).moments = r.moments := rfl

/-- The result of two runs, one after the other, is that of the second if the first succeeds. -/
theorem andThen_result (first : Recorded μ (Except ε α)) (next : α → Recorded μ (Except ε β)) :
    (first.andThen next).result = first.result >>= fun a => (next a).result := by
  unfold andThen
  cases first.result <;> rfl

/-- A run that fails is not followed by another. -/
theorem andThen_of_error {first : Recorded μ (Except ε α)} {e : ε} (h : first.result = .error e)
    (next : α → Recorded μ (Except ε β)) : first.andThen next = ⟨.error e, first.moments⟩ := by
  rw [andThen, h]

/-- A run that succeeds is followed by the next, and its moments come first. -/
theorem andThen_of_ok {first : Recorded μ (Except ε α)} {a : α} (h : first.result = .ok a)
    (next : α → Recorded μ (Except ε β)) :
    first.andThen next = ⟨(next a).result, first.moments ++ (next a).moments⟩ := by
  rw [andThen, h]

end Recorded

namespace Scan

/-- A moment of the search for a closer: how many brackets of the kind are open besides the one that
is to be closed, where the search stands, and in which mode. -/
structure SearchMoment where
  level : Nat
  position : Nat
  mode : Mode
  deriving DecidableEq, Repr

/-- What a search found behind `text`, with the moments in front of it. -/
def behind (before : List SearchMoment) (text : Bytes)
    (r : Recorded SearchMoment (Option (Bytes × Bytes))) :
    Recorded SearchMoment (Option (Bytes × Bytes)) :=
  ⟨r.result.map fun (l, rest) => (text ++ l, rest), before ++ r.moments⟩

/-- The search for a closer with a record of the moments at which it stands in front of a byte. -/
def recordSearch (bracket : Bracket) (level : Nat) (mode : Mode) (position : Nat) :
    Bytes → Recorded SearchMoment (Option (Bytes × Bytes))
  | [] => ⟨none, []⟩
  | c :: text =>
    match mode.searchStep c text.head? with
    | (next, true) =>
      match text with
      | [] => ⟨none, [⟨level, position, mode⟩]⟩
      | d :: text =>
        behind [⟨level, position, mode⟩] [c, d]
          (recordSearch bracket level next (position + 2) text)
    | (next, false) =>
      if mode = .code ∧ c = bracket.opener then
        behind [⟨level, position, mode⟩] [c]
          (recordSearch bracket (level + 1) next (position + 1) text)
      else if mode = .code ∧ c = bracket.closer then
        match level with
        | 0 => ⟨some ([], text), [⟨0, position, mode⟩]⟩
        | level + 1 =>
          behind [⟨level + 1, position, mode⟩] [c]
            (recordSearch bracket level next (position + 1) text)
      else
        behind [⟨level, position, mode⟩] [c] (recordSearch bracket level next (position + 1) text)

/-- A block that a scan is inside of: its bracket, whether it is a `for` header, where it opens and
closes, and where the content around it stops, up to which its closer was searched. -/
structure OpenBlock where
  bracket : Bracket
  header : Bool
  opens : Nat
  closes : Nat
  stop : Nat
  deriving DecidableEq, Repr

/-- A moment of a scan: the blocks that it is inside of, innermost first, where it stands, and in
which mode. -/
structure ScanMoment where
  around : List OpenBlock
  position : Nat
  mode : Mode
  deriving DecidableEq, Repr

/-- The block that a scan goes into at a bracket in front of `text`, with its content `inside`. -/
def entered (bracket : Bracket) (pending : Bytes) (position : Nat)
    (text inside : Bytes) : OpenBlock :=
  { bracket, header := isForHeader (pendingText (bracket.opener :: pending)), opens := position
    closes := position + 1 + inside.length, stop := position + 1 + text.length }

/-- The scan inside of the given blocks, with a record of its moments: in front of each step, and at
the end of each content. -/
def recordFrom (limit : Nat) (around : List OpenBlock) (header : Bool)
    (clauses : Clauses) (mode : Mode) (pending : Bytes) (position : Nat) (text : Bytes) :
    Recorded ScanMoment (Except ScanError (List Token)) :=
  .visit ⟨around, position, mode⟩ <|
  match text with
  | [] =>
    ⟨.ok (if clauses.split then endClause clauses pending position else flush pending position), []⟩
  | c :: text =>
    match mode.step c text.head?, text with
    | (next, true), d :: text =>
      recordFrom limit around header clauses next (d :: c :: pending) (position + 2) text
    | (next, _), text =>
      if ends header mode c next then
        match Bracket.ofOpener? c with
        | some bracket =>
          if limit ≤ around.length then ⟨.error ⟨.tooDeep, c, position⟩, []⟩
          else match h : splitAtCloser bracket 0 .code text with
            | none => ⟨.error ⟨.unmatched, c, position⟩, []⟩
            | some (inside, after) =>
              let block := entered bracket pending position text inside
              (recordFrom limit (block :: around) block.header {} .code []
                  (position + 1) inside).andThen fun children =>
                (recordFrom limit around header { clauses with filled := true } .code []
                  (position + inside.length + 2)
                  after).map (·.map (.block (pendingText (c :: pending)) children
                    (pendingOffset (c :: pending) (position + 1)) :: ·))
        | none =>
          if header then
            (recordFrom limit around header { split := true } .code [] (position + 1) text).map
              (·.map (endClause clauses pending position ++ ·))
          else
            (recordFrom limit around header clauses .code [] (position + 1) text).map
              (·.map (flush pending position ++ ·))
      else recordFrom limit around header clauses next (c :: pending) (position + 1) text
termination_by text.length
decreasing_by
  all_goals simp only [List.length_cons]
  · omega
  · exact Nat.lt_succ_of_lt (length_lt_of_splitAtCloser h).1
  · exact Nat.lt_succ_of_lt (length_lt_of_splitAtCloser h).2
  all_goals omega

/-- The scan of a script with a record of its moments. -/
def recordScan (limit : Nat) (source : Bytes) :
    Recorded ScanMoment (Except ScanError (List Token)) :=
  recordFrom limit [] false {} .code [] 0 source

section Equations

variable {limit : Nat} {around : List OpenBlock} {header : Bool}
  {clauses : Clauses} {mode next : Mode} {pending : Bytes} {position : Nat} {c d : UInt8}
  {text inside after : Bytes} {bracket : Bracket}

/-- An opener in code ends the text of a token. -/
theorem ends_opener (header : Bool) (bracket : Bracket) :
    ends header .code bracket.opener .code = true := by
  simp [ends]

/-- At the end of the text one moment is left. -/
theorem recordFrom_nil : recordFrom limit around header clauses mode pending position [] =
    ⟨.ok (if clauses.split then endClause clauses pending position else flush pending position),
      [⟨around, position, mode⟩]⟩ := by
  rw [recordFrom]
  rfl

/-- Bytes that are read together. -/
theorem recordFrom_two (hstep : mode.step c (some d) = (next, true)) :
    recordFrom limit around header clauses mode pending position (c :: d :: text) =
      .visit ⟨around, position, mode⟩
        (recordFrom limit around header clauses next (d :: c :: pending) (position + 2) text) := by
  rw [recordFrom.eq_def]
  simp only [List.head?_cons, hstep]

/-- A byte that ends nothing. -/
theorem recordFrom_one (hstep : mode.step c text.head? = (next, false))
    (hkeep : Kept header mode c next) :
    recordFrom limit around header clauses mode pending position (c :: text) =
      .visit ⟨around, position, mode⟩
        (recordFrom limit around header clauses next (c :: pending) (position + 1) text) := by
  rw [recordFrom.eq_def]
  simp only [hstep, show ends header mode c next = false from hkeep]
  rfl

/-- A bracket that opens too deep is where the scan stops. -/
theorem recordFrom_tooDeep (hdeep : limit ≤ around.length) :
    recordFrom limit around header clauses .code pending position (bracket.opener :: text) =
      ⟨.error ⟨.tooDeep, bracket.opener, position⟩, [⟨around, position, .code⟩]⟩ := by
  rw [recordFrom.eq_def]
  simp only [Mode.step_plain bracket.opener_plain.1 bracket.opener_plain.2, ends_opener,
    Bracket.ofOpener?_opener, if_pos hdeep]
  rfl

/-- A bracket that is never closed is where the scan stops. -/
theorem recordFrom_unmatched (hdeep : ¬ limit ≤ around.length)
    (h : splitAtCloser bracket 0 .code text = none) :
    recordFrom limit around header clauses .code pending position (bracket.opener :: text) =
      ⟨.error ⟨.unmatched, bracket.opener, position⟩, [⟨around, position, .code⟩]⟩ := by
  rw [recordFrom.eq_def]
  simp only [Mode.step_plain bracket.opener_plain.1 bracket.opener_plain.2, ends_opener,
    Bracket.ofOpener?_opener, if_neg hdeep, if_true]
  split
  · rfl
  next hsome => simp [h] at hsome

/-- A bracket with a closer: the scan goes through the content, and on behind the closer if it got
through. -/
theorem recordFrom_block (hdeep : ¬ limit ≤ around.length)
    (h : splitAtCloser bracket 0 .code text = some (inside, after)) :
    recordFrom limit around header clauses .code pending position (bracket.opener :: text) =
      .visit ⟨around, position, .code⟩
        ((recordFrom limit (entered bracket pending position text inside :: around)
          (entered bracket pending position text inside).header {} .code []
          (position + 1) inside).andThen fun children =>
            (recordFrom limit around header { clauses with filled := true } .code []
              (position + inside.length + 2)
              after).map (·.map (.block (pendingText (bracket.opener :: pending)) children
                (pendingOffset (bracket.opener :: pending) (position + 1)) :: ·))) := by
  rw [recordFrom.eq_def]
  simp only [Mode.step_plain bracket.opener_plain.1 bracket.opener_plain.2, ends_opener,
    Bracket.ofOpener?_opener, if_neg hdeep, if_true]
  split
  next hnone => simp [h] at hnone
  next hsome =>
    rw [h, Option.some.injEq, Prod.mk.injEq] at hsome
    obtain ⟨rfl, rfl⟩ := hsome
    rfl

/-- A semicolon in a `for` header. -/
theorem recordFrom_clause :
    recordFrom limit around true clauses .code pending position (';' :: text) =
    .visit ⟨around, position, .code⟩
    ((recordFrom limit around true { split := true } .code [] (position + 1) text).map
      (·.map (endClause clauses pending position ++ ·))) := by
  have hends : ends true .code ';' .code = true := by decide
  rw [recordFrom.eq_def]
  simp only [endsStatement_semicolon.step, endsStatement_semicolon.ofOpener?_eq_none, hends]
  rfl

/-- What ends a statement. -/
theorem recordFrom_statement (hend : EndsStatement mode c) :
    recordFrom limit around false clauses mode pending position (c :: text) =
      .visit ⟨around, position, mode⟩
        ((recordFrom limit around false clauses .code [] (position + 1) text).map
        (·.map (flush pending position ++ ·))) := by
  have hends : ends false mode c .code = true := by
    obtain ⟨rfl, rfl⟩ | ⟨rfl | rfl, rfl⟩ := hend <;> decide
  rw [recordFrom.eq_def]
  simp only [hend.step, hend.ofOpener?_eq_none, hends]
  rfl

end Equations

section Results

variable {limit level : Nat} {around : List OpenBlock} {header : Bool}
  {clauses : Clauses} {mode : Mode} {pending : Bytes} {position : Nat}
  {text : Bytes} {bracket : Bracket}

/-- A recorded scan has the result of the scan. -/
theorem recordFrom_result (hlevel : around.length = level) :
    (recordFrom limit around header clauses mode pending position text).result =
      tokensFrom limit level header clauses mode pending position text := by
  have hmap : ∀ (result : Except ScanError (List Token)) (f : List Token → List Token),
      result.map f = (do let tokens ← result; return f tokens) :=
      fun result f => by cases result <;> rfl
  induction level, header, clauses, mode, pending, position, text using scanInduction
    generalizing around with
  | finish => rw [recordFrom_nil, tokensFrom_nil]
  | opener level header clauses pending position bracket text ih =>
    subst hlevel
    by_cases hdeep : limit ≤ around.length
    · rw [recordFrom_tooDeep hdeep, tokensFrom_tooDeep hdeep]
    cases hsplit : splitAtCloser bracket 0 .code text with
    | none => rw [recordFrom_unmatched hdeep hsplit, tokensFrom_unmatched hdeep hsplit]
    | some parts =>
      obtain ⟨inside, after⟩ := parts
      obtain ⟨ihInside, ihAfter⟩ := ih inside after hsplit
      rw [recordFrom_block hdeep hsplit, tokensFrom_block hdeep hsplit, Recorded.visit_result,
        Recorded.andThen_result]
      have hheader : (entered bracket pending position text inside).header =
          isForHeader (pendingText (bracket.opener :: pending)) := rfl
      rw [hheader, ihInside (List.length_cons ..)]
      simp only [Recorded.map_result, ihAfter rfl, hmap]
  | clause level clauses pending position text ih =>
    rw [recordFrom_clause, tokensFrom_clause, Recorded.visit_result, Recorded.map_result,
      ih hlevel, hmap]
  | statement level clauses mode pending position c text hend ih =>
    rw [recordFrom_statement hend, tokensFrom_statement hend, Recorded.visit_result,
      Recorded.map_result, ih hlevel, hmap]
  | one level header clauses mode next pending position c text hstep hkeep ih =>
    rw [recordFrom_one hstep hkeep, tokensFrom_one hstep hkeep, Recorded.visit_result, ih hlevel]
  | two level header clauses mode next pending position c d text hstep ih =>
    rw [recordFrom_two hstep, tokensFrom_two hstep, Recorded.visit_result, ih hlevel]

/-- A recorded search has the result of the search. -/
theorem recordSearch_result (bracket : Bracket) (level : Nat) (mode : Mode)
    (position : Nat) (text : Bytes) :
    (recordSearch bracket level mode position text).result =
      splitAtCloser bracket level mode text := by
  fun_induction recordSearch bracket level mode position text with
  | case1 => rfl
  | case2 level mode position c next hstep =>
    rw [splitAtCloser.eq_def]
    simp only [hstep]
  | case3 level mode position c next d text hstep ih =>
    rw [splitAtCloser.eq_def]
    simp only [hstep, behind, ih]
    rfl
  | case4 level mode position c text next hstep hopen ih =>
    rw [splitAtCloser.eq_def]
    simp only [hstep, if_pos hopen, behind, ih]
    rfl
  | case5 mode position c text next hstep hopen hclose =>
    rw [splitAtCloser.eq_def]
    simp only [hstep, if_neg hopen, if_pos hclose]
  | case6 mode position c text next hstep hopen hclose level ih =>
    rw [splitAtCloser.eq_def]
    simp only [hstep, if_neg hopen, if_pos hclose, behind, ih]
    rfl
  | case7 level mode position c text next hstep hopen hclose ih =>
    rw [splitAtCloser.eq_def]
    simp only [hstep, if_neg hopen, if_neg hclose, behind, ih]
    rfl

end Results

section Search

variable {b : Bracket} {level position : Nat} {mode next : Mode} {c d : UInt8} {text : Bytes}

/-- Two stretches that were passed make one. -/
theorem behind_behind (before before' : List SearchMoment) (text text' : Bytes)
    (r : Recorded SearchMoment (Option (Bytes × Bytes))) :
    behind before text (behind before' text' r) = behind (before ++ before') (text ++ text') r := by
  simp [behind, Function.comp_def]

/-- The search goes over a byte that is read alone. -/
theorem recordSearch_one (hclose : ¬ (mode = .code ∧ c = b.closer))
    (hstep : mode.step c text.head? = (next, false)) :
    recordSearch b level mode position (c :: text) = behind [⟨level, position, mode⟩] [c]
      (recordSearch b (if mode = .code ∧ c = b.opener then level + 1 else level)
        next (position + 1) text) := by
  rw [recordSearch.eq_def]
  cases text with
  | nil =>
    -- nothing is found behind the last byte, whether the search passes over more than it or not
    have hnil : ∀ k m p, recordSearch b k m p [] = ⟨none, []⟩ := fun _ _ _ => rfl
    simp only [if_neg hclose, hnil, behind, Option.map_none, List.append_nil, ite_self]
    split <;> rfl
  | cons d text =>
    rw [List.head?_cons, ← Mode.searchStep_some] at hstep
    simp only [List.head?_cons, hstep, if_neg hclose]
    split <;> rfl

/-- The search goes over bytes that are read together. -/
theorem recordSearch_two (hstep : mode.step c (some d) = (next, true)) :
    recordSearch b level mode position (c :: d :: text) = behind [⟨level, position, mode⟩] [c, d]
      (recordSearch b level next (position + 2) text) := by
  rw [← Mode.searchStep_some] at hstep
  rw [recordSearch.eq_def]
  simp only [List.head?_cons, hstep]

/-- An opening bracket counts if it is of the kind that is searched for. -/
theorem recordSearch_opener (b bracket : Bracket) (level position : Nat) (text : Bytes) :
    recordSearch b level .code position (bracket.opener :: text) =
      behind [⟨level, position, .code⟩] [bracket.opener]
      (recordSearch b (level + if bracket = b then 1 else 0) .code (position + 1) text) := by
  rw [recordSearch_one (fun h => Bracket.opener_ne_closer _ _ h.2)
    (Mode.step_plain bracket.opener_plain.1 bracket.opener_plain.2 _)]
  simp only [true_and, Bracket.opener_inj]
  split <;> rfl

/-- The closer of a bracket that counts is counted, too. -/
theorem recordSearch_closer (b bracket : Bracket) (level position : Nat) (text : Bytes) :
    recordSearch b (level + if bracket = b then 1 else 0) .code position (bracket.closer :: text) =
      behind [⟨level + if bracket = b then 1 else 0, position, .code⟩] [bracket.closer]
        (recordSearch b level .code (position + 1) text) := by
  by_cases hb : bracket = b
  · rw [if_pos hb, hb, recordSearch.eq_def]
    simp only [b.searchStep_closer, (Bracket.opener_ne_closer b b).symm,
      and_false, and_self, if_true, if_false]
  · have hne : bracket.closer ≠ b.opener := (Bracket.opener_ne_closer b bracket).symm
    rw [if_neg hb, recordSearch_one (fun h => hb (Bracket.closer_inj.1 h.2))
      (Mode.step_plain bracket.closer_plain.1 bracket.closer_plain.2 _)]
    simp only [hne, and_false, if_false, Nat.add_zero]

/-- The search ends in front of a closer when no more brackets are open. -/
theorem recordSearch_found (b : Bracket) (position : Nat) (text : Bytes) :
    recordSearch b 0 .code position (b.closer :: text) =
      ⟨some ([], text), [⟨0, position, .code⟩]⟩ := by
  rw [recordSearch.eq_def]
  simp only [b.searchStep_closer, (Bracket.opener_ne_closer b b).symm, and_false, and_self, if_true,
    if_false]

/-- One moment in front of moments that go forward from behind it. -/
theorem positions_behind {k : Nat} {moment : SearchMoment}
    {r : Recorded SearchMoment (Option (Bytes × Bytes))}
      (h : (∀ s ∈ r.moments, moment.position + (k + 1) ≤ s.position) ∧
      r.moments.Pairwise fun s t => s.position < t.position) :
    (∀ s ∈ (behind [moment] text r).moments, moment.position ≤ s.position) ∧
      (behind [moment] text r).moments.Pairwise fun s t => s.position < t.position := by
  obtain ⟨hle, hpair⟩ := h
  refine ⟨fun s hs => ?_, List.pairwise_cons.2 ⟨fun s hs => ?_, hpair⟩⟩
  · rcases List.mem_cons.1 hs with rfl | hs
    · exact Nat.le_refl _
    · exact Nat.le_trans (Nat.le_add_right _ _) (hle s hs)
  · exact Nat.lt_of_lt_of_le (Nat.lt_add_of_pos_right k.succ_pos) (hle s hs)

/-- A search goes forward: it stands at each position once. -/
theorem recordSearch_positions (b : Bracket) (level : Nat) (mode : Mode)
    (position : Nat) (text : Bytes) :
    (∀ s ∈ (recordSearch b level mode position text).moments, position ≤ s.position) ∧
      (recordSearch b level mode position text).moments.Pairwise fun s t =>
        s.position < t.position := by
  fun_induction recordSearch b level mode position text with
  | case1 => simp
  | case2 => simp
  | case3 level mode position c next d text hstep ih => exact positions_behind (k := 1) ih
  | case4 level mode position c text next hstep hopen ih => exact positions_behind (k := 0) ih
  | case5 => simp
  | case6 mode position c text next hstep hopen hclose level ih =>
    exact positions_behind (k := 0) ih
  | case7 level mode position c text next hstep hopen hclose ih =>
    exact positions_behind (k := 0) ih

end Search

end Scan

end TagScript
