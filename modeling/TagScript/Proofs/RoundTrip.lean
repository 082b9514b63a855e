import TagScript.Proofs.Lossless
import TagScript.Proofs.Rereading

/-!
# Writing, reading and writing again

Without arrows the tokens of a script come back as they were when they are written out and
scanned. With arrows they may come back joined to the text in front of them, and it is the text
that comes back: it is written out as before, unless an arrow follows an empty clause or stands
at the start of a block twice.

The two texts are compared from their start. Where they differ they do so at one byte, a separator
in one of them against a blank or the arrow itself in the other.
-/

namespace TagScript

namespace Token

open Bytes

variable {header cut : Bool} {ts : List Token}

/-- No text or signature of the tokens, nested ones included, starts with an arrow. -/
def ArrowFree (ts : List Token) : Prop := ∀ t ∈ all ts, t.head.startsWith arrow = false

instance : Decidable (ArrowFree ts) := inferInstanceAs (Decidable (∀ t ∈ all ts, _))

/-- In `for` headers a line comment ends the last child only. -/
def CommentsLast (ts : List Token) : Prop :=
  ∀ t ∈ all ts, isForHeader t.head = true → ∀ c ∈ t.children.dropLast, endsInComment c = false

instance : Decidable (CommentsLast ts) := inferInstanceAs (Decidable (∀ t ∈ all ts, _))

/-- What holds of all tokens holds of the first one, of what is inside it and of what follows. -/
theorem forall_all_cons {p : Token → Prop} {t : Token} :
    (∀ u ∈ all (t :: ts), p u) ↔ p t ∧ (∀ u ∈ all t.children, p u) ∧ ∀ u ∈ all ts, p u := by
  rw [all_cons, List.forall_mem_cons, List.forall_mem_append]

/-- Text that is not empty, or a clause that is, becomes a leaf. -/
theorem clauseEnd_eq {filled : Bool} {text : Bytes}
    (h : text = [] → header = true ∧ filled = false) :
    clauseEnd header filled text = [.leaf text 0] := by
  cases text with
  | nil =>
    obtain ⟨rfl, rfl⟩ := h rfl
    rfl
  | cons => rfl

/-- A leaf that does not continue the text in front of it. -/
theorem rereadAll_leaf {text : Bytes} (offset : Nat) {before : Bool}
    (h : (text.startsWith arrow && before) = false) (filled : Bool) (pending : Bytes) :
    rereadAll header before filled pending (.leaf text offset :: ts) =
      clauseEnd header filled pending ++ rereadAll header true false text ts := by
  rw [rereadAll, head, isBlock, if_neg Bool.false_ne_true, h, if_neg Bool.false_ne_true]

/-- Without arrows tokens are read back as they were, behind the pending text. -/
theorem Readable.rereadAll_eq (h : Readable header cut ts) (harrow : ArrowFree ts)
    (before filled : Bool) (pending : Bytes) :
    rereadAll header before filled pending ts = clauseEnd header filled pending ++ bareAll ts := by
  induction h generalizing before filled pending with
  | nil => rw [rereadAll, bareAll, List.append_nil]
  | @last header text offset htrim hne =>
    have hhead : text.startsWith arrow = false := (forall_all_cons.1 harrow).1
    rw [rereadAll_leaf offset (by rw [hhead, Bool.false_and]), rereadAll,
      clauseEnd_eq fun hempty => absurd hempty hne, bareAll, bare, bareAll]
  | @leaf header cut text offset ts htrim hempty hrun _ ih =>
    obtain ⟨hhead, -, hrest⟩ := forall_all_cons.1 harrow
    rw [head] at hhead
    rw [rereadAll_leaf offset (by rw [hhead, Bool.false_and]), ih hrest,
      clauseEnd_eq fun hnil => ⟨hempty hnil, rfl⟩, bareAll, bare, List.singleton_append]
  | @block header cut bracket body offset children ts htrim hrun _ _ ihChildren ihRest =>
    obtain ⟨hhead, hchildren, hrest⟩ := forall_all_cons.1 harrow
    rw [rereadAll, hhead, isBlock, Bool.false_and, if_pos rfl, if_neg Bool.false_ne_true, title,
      if_neg Bool.false_ne_true, head, rereadBlock, ihChildren hchildren,
      ihRest hrest, bareAll, bare,
      clauseEnd_filled, clauseEnd_filled, List.nil_append, List.nil_append]

/-- A child that has siblings behind it is not the last one. -/
theorem mem_dropLast_cons {t : Token} (h : ts ≠ []) : t ∈ (t :: ts).dropLast := by
  rw [List.dropLast_cons_of_ne_nil h]
  exact List.mem_cons_self ..

/-- What stands before the last child still does when there is one more child in front. -/
theorem mem_dropLast_of_mem {t c : Token} (h : c ∈ ts.dropLast) : c ∈ (t :: ts).dropLast := by
  have hne : ts ≠ [] := by
    rintro rfl
    exact List.not_mem_nil h
  rw [List.dropLast_cons_of_ne_nil hne]
  exact List.mem_cons_of_mem _ h

mutual

/-- Without arrows nothing inside a token is swallowed, if comments end the last clauses only. -/
theorem swallows_eq_false : (t : Token) → ArrowFree [t] → CommentsLast [t] → swallows t = false
  | .leaf .., _, _ => rfl
  | .block signature children offset, harrow, hlast => by
    obtain ⟨-, harrow, -⟩ := forall_all_cons.1 harrow
    obtain ⟨hheader, hlast, -⟩ := forall_all_cons.1 hlast
    exact swallowsAll_eq_false _ _ children harrow hlast (fun _ => Bool.noConfusion) hheader

/-- Without arrows nothing is swallowed, if comments end the last clauses only. -/
theorem swallowsAll_eq_false (header commented : Bool) :
    (ts : List Token) → ArrowFree ts → CommentsLast ts →
    (header = true → commented = true → ts = []) →
    (header = true → ∀ c ∈ ts.dropLast, endsInComment c = false) →
    swallowsAll header commented ts = false
  | [], _, _, _, _ => rfl
  | t :: ts, harrow, hlast, hcommented, hheader => by
    obtain ⟨hhead, hinner, hrest⟩ := forall_all_cons.1 harrow
    obtain ⟨hchildren, hlastInner, hlastRest⟩ := forall_all_cons.1 hlast
    have hfront : (commented && header) = false := by
      cases header with
      | false => exact Bool.and_false _
      | true =>
        cases commented with
        | false => rfl
        | true => exact absurd (hcommented rfl rfl) (List.cons_ne_nil _ _)
    have hfirst := swallows_eq_false t (forall_all_cons.2 ⟨hhead, hinner, by simp⟩)
      (forall_all_cons.2 ⟨hchildren, hlastInner, by simp⟩)
    have hends : header = true → endsInComment t = true → ts = [] := by
      intro h hends
      refine Decidable.byContradiction fun hne => ?_
      rw [hheader h t (mem_dropLast_cons hne)] at hends
      exact Bool.false_ne_true hends
    have hbehind :=
        swallowsAll_eq_false header (endsInComment t) ts hrest hlastRest hends fun h c hc =>
      hheader h c (mem_dropLast_of_mem hc)
    rw [swallowsAll, hhead, Bool.or_false, hfront, hfirst, hbehind]
    rfl

end

mutual

/-- Whether something inside a token is written out in another way when it was read back. -/
def stale : Token → Bool
  | .leaf .. => false
  | .block _ children _ => staleAll false false children

/-- Whether tokens are written out in another way when they were read back: an arrow stands behind
an empty clause, or once more behind the arrow of a block that joins the text in front of it.
`before` says whether there is a token in front, and `empty` whether it is an empty clause. -/
def staleAll (before empty : Bool) : List Token → Bool
  | [] => false
  | t :: ts => (t.head.startsWith arrow && before &&
      (empty || t.isBlock && (title true t.head).startsWith arrow)) || stale t ||
      staleAll true t.head.isEmpty ts

end

/-- Two texts that are equal up to a byte in which they differ. -/
def Differ (out again : Bytes) : Prop :=
  ∃ (front : Bytes) (c d : UInt8) (rest more : Bytes), out = front ++ c :: rest ∧
    again = front ++ d :: more ∧ c ≠ d

/-- How a text compares with what it was read back and written out as: it is the same unless
`stale`. -/
structure Agree (stale : Bool) (out again : Bytes) : Prop where
  eq_of_not : stale = false → out = again
  differ : stale = true → Differ out again

variable {out again more rest : Bytes} {first second : Bool}

/-- What differs still does when more is written behind it. -/
theorem Differ.append (h : Differ out again) (more rest : Bytes) :
    Differ (out ++ more) (again ++ rest) := by
  obtain ⟨front, c, d, x, y, rfl, rfl, hne⟩ := h
  exact ⟨front, c, d, x ++ more, y ++ rest, by simp, by simp, hne⟩

/-- What differs still does behind a common start. -/
theorem Differ.append_left (h : Differ out again) (front : Bytes) :
    Differ (front ++ out) (front ++ again) := by
  obtain ⟨common, c, d, x, y, rfl, rfl, hne⟩ := h
  exact ⟨front ++ common, c, d, x, y, by simp, by simp, hne⟩

/-- The same text is not stale. -/
theorem Agree.refl (out : Bytes) : Agree false out out := ⟨fun _ => rfl, Bool.noConfusion⟩

/-- Texts that differ are stale. -/
theorem Agree.of_differ (h : Differ out again) : Agree true out again :=
  ⟨Bool.noConfusion, fun _ => h⟩

/-- Two texts one after the other are stale where one of them is. -/
theorem Agree.append (h : Agree first out again) (hrest : Agree second more rest) :
    Agree (first || second) (out ++ more) (again ++ rest) := by
  cases first with
  | true => exact ⟨Bool.noConfusion, fun _ => (h.differ rfl).append more rest⟩
  | false =>
    obtain rfl := h.eq_of_not rfl
    exact ⟨fun hkept => by rw [hrest.eq_of_not hkept],
      fun hstale => (hrest.differ hstale).append_left out⟩

/-- A common start does not count. -/
theorem Agree.append_left (h : Agree first out again) (front : Bytes) :
    Agree first (front ++ out) (front ++ again) := (Agree.refl front).append h

/-- Only texts that are not stale are the same. -/
theorem Agree.iff (h : Agree first out again) : again = out ↔ first = false := by
  cases first with
  | false => exact ⟨fun _ => rfl, fun _ => (h.eq_of_not rfl).symm⟩
  | true =>
    obtain ⟨front, c, d, x, y, rfl, rfl, hne⟩ := h.differ rfl
    simp [hne.symm]

/-- Whether a text starts with an arrow is not changed by what stands behind it and a blank. -/
theorem startsWith_append_blank (text rest : Bytes) :
    Bytes.startsWith (text ++ Char.toUInt8 ' ' :: rest) arrow = text.startsWith arrow := by
  have harrow : arrow = [Char.toUInt8 '=', Char.toUInt8 '>'] := by decide
  have hblank : Char.toUInt8 '=' ≠ ' ' ∧ Char.toUInt8 '>' ≠ ' ' := by decide
  rw [harrow]
  match text with
  | [] => simp [Bytes.startsWith, after?, hblank.1]
  | [c] => simp [Bytes.startsWith, after?, hblank.2]
  | c :: d :: text =>
    simp only [Bytes.startsWith, after?, List.cons_append]
    split
    · split <;> rfl
    · rfl

/-- Pending text starts the first leaf that is read back. -/
theorem rereadAll_pending (header filled : Bool) (ts : List Token) {pending : Bytes}
    (h : pending ≠ []) :
    ∃ more rest, rereadAll header true filled pending ts = .leaf (pending ++ more) 0 :: rest := by
  have hend : clauseEnd header filled pending = [.leaf pending 0] :=
    clauseEnd_eq fun hnil => absurd hnil h
  induction ts generalizing pending with
  | nil => exact ⟨[], [], by rw [rereadAll, hend, List.append_nil]⟩
  | cons t ts ih =>
    have harrow := continued_ne_nil pending (by decide : arrow ≠ [])
    have hcontinued : ∀ text, continued pending text = pending ++ Char.toUInt8 ' ' :: text := by
      intro text
      rw [continued, if_neg (by simpa using h)]
    rw [rereadAll]
    split
    next =>
      split
      next =>
        rw [clauseEnd_eq fun hnil => absurd hnil harrow, hcontinued]
        exact ⟨_, _, rfl⟩
      next =>
        rw [hend]
        exact ⟨[], _, by rw [List.append_nil]; rfl⟩
    next =>
      split
      next =>
        have hne : pending ++ Char.toUInt8 ' ' :: t.head ≠ [] := by simp
        obtain ⟨more, rest, heq⟩ := ih hne (clauseEnd_eq fun hnil => absurd hnil hne)
        rw [hcontinued, heq, List.append_assoc]
        exact ⟨_, rest, rfl⟩
      next =>
        rw [hend]
        exact ⟨[], _, by rw [List.append_nil]; rfl⟩

/-- An arrow behind an empty clause: the clause and its semicolon are lost. -/
theorem Differ.of_arrow {text : Bytes} (harrow : text.startsWith arrow = true)
    (before : Bool) (offset : Nat) (more rest : Bytes) :
    Differ (gap true before ++ Char.toUInt8 ' ' :: more)
      (setOut true before (.leaf text offset) ++ rest) := by
  rw [setOut, harrow, Bool.true_and]
  cases before with
  | true => exact ⟨[], ';', ' ', _, _, rfl, rfl, by decide⟩
  | false =>
    rw [eq_arrow_append harrow]
    exact ⟨[], ' ', '=', _, _, rfl, rfl, by decide⟩

/-- What is written behind pending text is written again behind the leaf that it becomes. -/
def Resumed (header : Bool) (ts : List Token) : Prop :=
  ∀ (before filled : Bool) {pending : Bytes}, (pending = [] → header = true ∧ filled = false) →
    Agree (staleAll true pending.isEmpty ts) (setOutAll header before (.leaf pending 0 :: ts))
      (setOutAll header before (rereadAll header true filled pending ts))

/-- What is written first or behind a block is written again in the same place. -/
def Renewed (header : Bool) (ts : List Token) : Prop :=
  ∀ before, Agree (staleAll before false ts) (setOutAll header before ts)
    (setOutAll header before (rereadAll header before true [] ts))

/-- Nothing more is written. -/
theorem resumed_nil : Resumed header [] := by
  intro before filled pending h
  rw [rereadAll, clauseEnd_eq h]
  exact .refl _

/-- Text that joins pending text is written behind it and a blank. -/
theorem setOutAll_continued {pending : Bytes} (h : pending ≠ []) (before : Bool) (text : Bytes) :
    setOutAll header before (.leaf (continued pending text) 0 :: ts) =
      setOut header before (.leaf pending 0) ++
        (Char.toUInt8 ' ' :: text ++ setOutAll header true ts) := by
  rw [setOutAll, continued, if_neg (by simpa using h), setOut, setOut, startsWith_append_blank]
  split <;> simp

/-- An empty clause is written as nothing. -/
theorem setOut_empty (before : Bool) : setOut header before (.leaf [] 0) = gap header before := by
  rw [setOut, if_neg, List.append_nil]
  simp [show Bytes.startsWith [] arrow = false by decide]

/-- An arrow behind an empty clause that was lost is written in another way. -/
theorem Differ.of_empty {text : Bytes} (harrow : text.startsWith arrow = true)
    (before : Bool) (more : Bytes) (us : List Token) :
    Differ (setOut true before (.leaf [] 0) ++ Char.toUInt8 ' ' :: more)
      (setOutAll true before (.leaf text 0 :: us)) := by
  rw [setOut_empty, setOutAll]
  exact .of_arrow harrow before 0 more _

/-- A leaf that is written behind pending text. -/
theorem resumed_leaf {text : Bytes} (offset : Nat) (hempty : text = [] → header = true)
    (hrest : Resumed header ts) :
    Resumed header (.leaf text offset :: ts) := by
  intro before filled pending hpending
  cases harrow : text.startsWith arrow with
  | true =>
    have hne : text ≠ [] := by
      rintro rfl
      exact absurd harrow (by decide)
    have hwritten : setOutAll header before (.leaf pending 0 :: .leaf text offset :: ts) =
        setOut header before (.leaf pending 0) ++ Char.toUInt8 ' ' ::
        (text ++ setOutAll header true ts) := by
      rw [setOutAll, setOutAll, setOut, setOut, harrow]
      rfl
    have hreread : rereadAll header true filled pending (.leaf text offset :: ts) =
        rereadAll header true filled (continued pending text) ts := by
      rw [rereadAll, head, harrow]
      rfl
    rw [hwritten, hreread, staleAll, head, harrow]
    by_cases hnil : pending = []
    · obtain ⟨rfl, rfl⟩ := hpending hnil
      subst hnil
      -- the arrow starts the clause now, which used to be empty
      obtain ⟨more, rest, heq⟩ : ∃ more rest, rereadAll true true false (continued [] text) ts =
          .leaf (text ++ more) 0 :: rest := rereadAll_pending true false ts hne
      have hmore : Bytes.startsWith (text ++ more) arrow = true := by
        rw [eq_arrow_append harrow, List.append_assoc]
        rfl
      rw [heq]
      exact .of_differ (.of_empty hmore before _ rest)
    · have hcontinued := continued_ne_nil pending hne
      have hagree := hrest before filled fun hnil => absurd hnil hcontinued
      rw [setOutAll_continued hnil, List.isEmpty_eq_false_iff.2 hcontinued] at hagree
      rw [List.isEmpty_eq_false_iff.2 hnil, List.isEmpty_eq_false_iff.2 hne]
      exact hagree
  | false =>
    have hplain : (text.startsWith arrow && true) = false := by rw [harrow]; rfl
    rw [rereadAll_leaf offset hplain, clauseEnd_eq hpending, setOutAll, List.singleton_append,
      setOutAll, staleAll, head, harrow]
    have hagree := (hrest true false fun hnil => ⟨hempty hnil, rfl⟩).append_left
      (setOut header before (.leaf pending 0))
    exact hagree

/-- A leaf that is written first or behind a block. -/
theorem renewed_leaf {text : Bytes} (offset : Nat) (hempty : text = [] → header = true)
    (hrest : Resumed header ts) :
    Renewed header (.leaf text offset :: ts) := by
  intro before
  cases harrow : text.startsWith arrow && before with
  | true =>
    have hne : text ≠ [] := by
      rintro rfl
      exact absurd (Bool.and_eq_true_iff.1 harrow).1 (by decide)
    have hagree := hrest before true fun hnil => absurd hnil hne
    have hreread : rereadAll header before true [] (.leaf text offset :: ts) =
        rereadAll header true true text ts := by
      rw [rereadAll, head, harrow]
      rfl
    rw [hreread, staleAll, head, harrow]
    exact hagree
  | false =>
    have hagree := hrest before false fun hnil => ⟨hempty hnil, rfl⟩
    rw [rereadAll_leaf offset harrow, clauseEnd_filled, List.nil_append, staleAll, head, harrow]
    exact hagree

section Block

variable {bracket : Bracket} {body signature : Bytes} {children : List Token}
  (offset : Nat) {before : Bool}

/-- A block that does not continue the text in front of it. -/
theorem rereadAll_block (h : (signature.startsWith arrow && before) = false)
    (filled : Bool) (pending : Bytes) :
    rereadAll header before filled pending (.block signature children offset :: ts) =
      clauseEnd header filled pending ++ rereadBlock (title false signature)
        (.block signature children offset) ::
        rereadAll header true true [] ts := by
  rw [rereadAll, head, h]
  rfl

/-- A block whose arrow joins the text in front of it. -/
theorem rereadAll_arrow (h : signature.startsWith arrow = true) (filled : Bool) (pending : Bytes) :
    rereadAll header true filled pending (.block signature children offset :: ts) =
      .leaf (continued pending arrow) 0 :: rereadBlock (title true signature)
        (.block signature children offset) ::
        rereadAll header true true [] ts := by
  have hne := continued_ne_nil pending (by decide : arrow ≠ [])
  rw [rereadAll, head, h, isBlock, if_pos rfl, Bool.and_true, if_pos rfl,
    clauseEnd_eq fun hnil => absurd hnil hne, List.singleton_append]

/-- Where a block that was read back is written, if no arrow is left at its start. -/
theorem agree_block {continues : Bool}
    (htrim : Bytes.trim (body ++ [bracket.opener]) = body ++ [bracket.opener])
    (hread : Mode.Reads (Scan.Kept header) .code body .code [])
    (hcontinues : continues = true → Bytes.startsWith (body ++ [bracket.opener]) arrow = true)
    (htitle :
      (Bytes.startsWith (title continues (body ++ [bracket.opener])) arrow && before) = false)
    (hchildren : Renewed (isForHeader (body ++ [bracket.opener])) children)
    (hrest : Renewed header ts) :
    Agree (staleAll false false children || staleAll true false ts)
      (gap header before ++ (title continues (body ++ [bracket.opener]) ++
        (setOutContent (isForHeader (title continues (body ++ [bracket.opener]))) children ++
          signatureCloser (body ++ [bracket.opener]))) ++ setOutAll header true ts)
      (setOutAll header before (rereadBlock (title continues (body ++ [bracket.opener]))
        (.block (body ++ [bracket.opener]) children offset) ::
          rereadAll header true true [] ts)) := by
  obtain ⟨inner, hinner, hinnerTrim, -⟩ := title_append htrim hread hcontinues
  rw [← isForHeader_title htrim hread.run_eq hcontinues, hinner] at hchildren
  rw [hinner] at htitle
  rw [signatureCloser_of_trim htrim, hinner, rereadBlock, setOutAll, setOut_block, htitle, title,
    if_neg Bool.false_ne_true, if_neg Bool.false_ne_true, signatureCloser_of_trim hinnerTrim]
  have hcontent :=
    ((hchildren false).append (.refl [Char.toUInt8 '\n'])).append_left [Char.toUInt8 '\n']
  have hblock :=
    ((hcontent.append (.refl [bracket.closer])).append_left (inner ++ [bracket.opener])).append_left
    (gap header before)
  rw [Bool.or_false, Bool.or_false] at hblock
  exact hblock.append (hrest true)

/-- A block that does not continue the text in front of it is written as before. -/
theorem agree_plain (htrim : Bytes.trim (body ++ [bracket.opener]) = body ++ [bracket.opener])
    (hread : Mode.Reads (Scan.Kept header) .code body .code [])
    (hplain : (Bytes.startsWith (body ++ [bracket.opener]) arrow && before) = false)
    (hchildren : Renewed (isForHeader (body ++ [bracket.opener])) children)
    (hrest : Renewed header ts) (empty : Bool) :
    Agree (staleAll before empty (.block (body ++ [bracket.opener]) children offset :: ts))
      (setOutAll header before (.block (body ++ [bracket.opener]) children offset :: ts))
      (setOutAll header before (rereadBlock (title false (body ++ [bracket.opener]))
        (.block (body ++ [bracket.opener]) children offset) ::
          rereadAll header true true [] ts)) := by
  have hne : List.isEmpty (body ++ [bracket.opener]) = false := by simp
  rw [staleAll, head, hplain, hne, setOutAll, setOut_block, hplain]
  exact agree_block offset htrim hread Bool.noConfusion hplain hchildren hrest

/-- A block whose arrow has joined the text in front is written as before, unless there is one more
arrow. -/
theorem agree_arrow (htrim : Bytes.trim (body ++ [bracket.opener]) = body ++ [bracket.opener])
    (hread : Mode.Reads (Scan.Kept header) .code body .code [])
    (harrow : Bytes.startsWith (body ++ [bracket.opener]) arrow = true)
    (hchildren : Renewed (isForHeader (body ++ [bracket.opener])) children)
    (hrest : Renewed header ts) :
    Agree (staleAll true false (.block (body ++ [bracket.opener]) children offset :: ts))
      (setOutAll header true (.block (body ++ [bracket.opener]) children offset :: ts))
      (Char.toUInt8 ' ' :: arrow ++ setOutAll header true
        (rereadBlock (title true (body ++ [bracket.opener]))
          (.block (body ++ [bracket.opener]) children offset) ::
          rereadAll header true true [] ts)) := by
  have hne : List.isEmpty (body ++ [bracket.opener]) = false := by simp
  rw [staleAll, head, harrow, hne, setOutAll, setOut_block, harrow, Bool.and_true,
    if_pos rfl, List.append_assoc]
  refine Agree.append_left ?_ _
  cases htitle : Bytes.startsWith (title true (body ++ [bracket.opener])) arrow with
  | false =>
    exact agree_block offset htrim hread (fun _ => harrow) (by rw [htitle]; rfl) hchildren hrest
  | true =>
    -- the second arrow is now the first one of the block, and joins the text in front as well
    have hseparator : separator header ≠ ' ' := by cases header <;> decide
    rw [rereadBlock, setOutAll, setOut_block, htitle]
    exact .of_differ ⟨[], separator header, ' ', _, _, rfl, rfl, hseparator⟩

/-- A block that is written behind pending text. -/
theorem resumed_block (htrim : Bytes.trim (body ++ [bracket.opener]) = body ++ [bracket.opener])
    (hread : Mode.Reads (Scan.Kept header) .code body .code [])
    (hchildren : Renewed (isForHeader (body ++ [bracket.opener])) children)
    (hrest : Renewed header ts) :
    Resumed header (.block (body ++ [bracket.opener]) children offset :: ts) := by
  intro before filled pending hpending
  rw [setOutAll]
  cases harrow : Bytes.startsWith (body ++ [bracket.opener]) arrow with
  | false =>
    have hplain : (Bytes.startsWith (body ++ [bracket.opener]) arrow && true) = false := by
      rw [harrow]; rfl
    rw [rereadAll_block offset hplain, clauseEnd_eq hpending, List.singleton_append, setOutAll]
    exact (agree_plain offset htrim hread hplain hchildren hrest _).append_left _
  | true =>
    have hagree := agree_arrow offset htrim hread harrow hchildren hrest
    rw [rereadAll_arrow offset harrow]
    by_cases hnil : pending = []
    · obtain ⟨rfl, rfl⟩ := hpending hnil
      subst hnil
      have hstale : staleAll true true (.block (body ++ [bracket.opener]) children offset :: ts) =
          true := by
        simp [staleAll, head, harrow]
      rw [List.isEmpty_nil, hstale, setOutAll, setOut_block, harrow, Bool.and_true, if_pos rfl]
      exact .of_differ (.of_empty (by decide) before _ _)
    · rw [List.isEmpty_eq_false_iff.2 hnil, setOutAll_continued hnil]
      exact hagree.append_left _

/-- A block that is written first or behind another one. -/
theorem renewed_block (htrim : Bytes.trim (body ++ [bracket.opener]) = body ++ [bracket.opener])
    (hread : Mode.Reads (Scan.Kept header) .code body .code [])
    (hchildren : Renewed (isForHeader (body ++ [bracket.opener])) children)
    (hrest : Renewed header ts) :
    Renewed header (.block (body ++ [bracket.opener]) children offset :: ts) := by
  intro before
  cases harrow : Bytes.startsWith (body ++ [bracket.opener]) arrow && before with
  | false =>
    rw [rereadAll_block offset harrow, clauseEnd_filled, List.nil_append]
    exact agree_plain offset htrim hread harrow hchildren hrest false
  | true =>
    rw [Bool.and_eq_true] at harrow
    obtain ⟨harrow, rfl⟩ := harrow
    rw [rereadAll_arrow offset harrow]
    exact agree_arrow offset htrim hread harrow hchildren hrest

end Block

/-- Scannable tokens that were read back are written out as before where they are not stale. -/
theorem Scannable.resumed_renewed (h : Scannable header cut ts) :
    Resumed header ts ∧ Renewed header ts := by
  induction h with
  | nil =>
    refine ⟨resumed_nil, fun before => ?_⟩
    rw [rereadAll, clauseEnd_filled]
    exact .refl _
  | @last header text offset mode htrim hne hread =>
    have hempty : text = [] → header = true := fun hnil => absurd hnil hne
    exact ⟨resumed_leaf offset hempty resumed_nil, renewed_leaf offset hempty resumed_nil⟩
  | @leaf header cut text offset mode ts htrim hempty hread hmode hrest ih =>
    exact ⟨resumed_leaf offset hempty ih.1, renewed_leaf offset hempty ih.1⟩
  | @block header cut bracket body offset children ts htrim hread _ _ _ _ ihChildren ihRest =>
    exact ⟨resumed_block offset htrim hread ihChildren.2 ihRest.2,
      renewed_block offset htrim hread ihChildren.2 ihRest.2⟩

end Token

namespace Scan

open Token

/-- Scanning undoes writing on trees without arrows: if line comments end only the last children of
`for` headers, what the tokens are written out as is scanned as the same tokens. -/
theorem tokenize_render_same {source : Bytes} {tokens : List Token}
    (h : tokenize source = .ok tokens) (harrow : ArrowFree tokens) (hlast : CommentsLast tokens) :
    ∃ again, tokenize (render tokens) = .ok again ∧ sameAll again tokens = true := by
  have hscannable := scannable_of_scan h
  have hkept :=
    swallowsAll_eq_false false false tokens harrow hlast Bool.noConfusion Bool.noConfusion
  obtain ⟨again, hagain, hbare⟩ := scan_render hscannable hkept (depthAll_le_of_tokensFrom h)
  refine ⟨again, hagain, (sameAll_iff again tokens).2 ?_⟩
  rw [hbare, reread, hscannable.readable.rereadAll_eq harrow, clauseEnd_filled, List.nil_append]

/-- A loop with an empty clause and a comment in its last one, behind a call, and a string that is
cut off at the end. -/
theorem tokenize_render_same_loop :
    tokenize "f(a);for(;b //x\n)\x7bc;d\x7d'e" = .ok [.block "f(" [.leaf "a" 2] 0,
      .block "for(" [.leaf [] 9, .leaf "b //x" 10] 5, .block "\x7b" [.leaf "c" 18, .leaf "d" 20] 17,
      .leaf "'e" 22] ∧
    ∃ again,
        tokenize
        (render [.block "f(" [.leaf "a" 2] 0, .block "for(" [.leaf [] 9, .leaf "b //x" 10] 5,
        .block "\x7b" [.leaf "c" 18, .leaf "d" 20] 17, .leaf "'e" 22]) = .ok again ∧
      sameAll again [.block "f(" [.leaf "a" 2] 0, .block "for(" [.leaf [] 9, .leaf "b //x" 10] 5,
        .block "\x7b" [.leaf "c" 18, .leaf "d" 20] 17, .leaf "'e" 22] = true := by
  have h : tokenize "f(a);for(;b //x\n)\x7bc;d\x7d'e" = .ok [.block "f(" [.leaf "a" 2] 0,
      .block "for(" [.leaf [] 9, .leaf "b //x" 10] 5, .block "\x7b" [.leaf "c" 18, .leaf "d" 20] 17,
      .leaf "'e" 22] := by decide +kernel
  exact ⟨h, tokenize_render_same h (by decide +kernel) (by decide +kernel)⟩

/-- Tokens that were read back are written out as before exactly when they are not stale. -/
theorem render_reread_iff {limit : Nat} {ts again : List Token} (h : Scannable false true ts)
    (hscan : scan limit (render ts) = .ok again) (hbare : bareAll again = reread ts) :
    render again = render ts ↔ staleAll false false ts = false := by
  rw [(scannable_of_scan hscan).readable.render_eq, h.readable.render_eq, ← setOutAll_bareAll,
    hbare, reread]
  exact (h.resumed_renewed.2 false).iff

/-- If no line comment swallows anything, what a script is written out as can be scanned again, and
writing it out again gives the same exactly when no arrow is stale. -/
theorem render_tokenize_render_iff {source : Bytes} {tokens : List Token}
    (h : tokenize source = .ok tokens) (hkept : swallowsAll false false tokens = false) :
    ∃ again, tokenize (render tokens) = .ok again ∧
      (render again = render tokens ↔ staleAll false false tokens = false) := by
  have hscannable := scannable_of_scan h
  obtain ⟨again, hagain, hbare⟩ := scan_render hscannable hkept (depthAll_le_of_tokensFrom h)
  exact ⟨again, hagain, render_reread_iff hscannable hagain hbare⟩

/-- An arrow function whose arrow joins its parameter list, and comes back as a leaf of its own. -/
theorem render_tokenize_render_iff_arrow :
    tokenize "f(a) => \x7bb\x7d" =
      .ok [.block "f(" [.leaf "a" 2] 0, .block "=> \x7b" [.leaf "b" 9] 5] ∧
    swallowsAll false false
      [.block "f(" [.leaf "a" 2] 0, .block "=> \x7b" [.leaf "b" 9] 5] = false ∧
    ∃ again, tokenize (render [.block "f(" [.leaf "a" 2] 0, .block "=> \x7b" [.leaf "b" 9] 5]) =
      .ok again ∧
      (render again = render [.block "f(" [.leaf "a" 2] 0, .block "=> \x7b" [.leaf "b" 9] 5] ↔
        staleAll false false [.block "f(" [.leaf "a" 2] 0, .block "=> \x7b" [.leaf "b" 9] 5] =
          false) := by
  have h : tokenize "f(a) => \x7bb\x7d" =
      .ok [.block "f(" [.leaf "a" 2] 0, .block "=> \x7b" [.leaf "b" 9] 5] := by decide +kernel
  have hkept : swallowsAll false false
      [.block "f(" [.leaf "a" 2] 0, .block "=> \x7b" [.leaf "b" 9] 5] = false := by
    decide +kernel
  exact ⟨h, hkept, render_tokenize_render_iff h hkept⟩

/-- An arrow behind an empty clause is written behind a blank, which is not written again. -/
theorem render_tokenize_render_ne :
    tokenize "for(;=>b)" = .ok [.block "for(" [.leaf [] 4, .leaf "=>b" 5] 0] ∧
    render [.block "for(" [.leaf [] 4, .leaf "=>b" 5] 0] = "for(\n =>b\n)" ∧
    tokenize "for(\n =>b\n)" = .ok [.block "for(" [.leaf "=>b" 6] 0] ∧
    render [.block "for(" [.leaf "=>b" 6] 0] = "for(\n=>b\n)" := by
  refine ⟨?_, ?_, ?_, ?_⟩ <;> decide +kernel

end Scan

end TagScript
