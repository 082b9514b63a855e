import TagScript.Proofs.HighlightWire
import TagScript.Proofs.ParameterTags

/-!
# Highlights that overlap

The tokens of a script do not overlap, nor do the pieces that are found in one text by one search.
Two highlights overlap only where a text is searched twice.

A leaf is searched for parameter tags once for each declaring block around it, so the tags of a
declaration that stands inside another one are found twice. And a leaf of a declaring block is
searched for parameter tags even if it starts with a declaration tag. No tag of a parameter goes
past a colon or an equals sign, so what is found twice then lies in the type of the declaration tag.
-/

namespace TagScript

open Bytes

namespace Highlight

/-! ### Stretches -/

namespace Span

/-- Whether a stretch takes up the byte at a place. -/
def Holds (s : Span) (i : Nat) : Prop := s.start ≤ i ∧ i < s.start + s.length

/-- Two stretches that share no byte. -/
def Apart (a b : Span) : Prop := ∀ i, ¬ (a.Holds i ∧ b.Holds i)

/-- A stretch with bytes that lies between two places. -/
structure Within (start stop : Nat) (s : Span) : Prop where
  start_le : start ≤ s.start
  length_pos : 0 < s.length
  le_stop : s.start + s.length ≤ stop

variable {a b s : Span} {start stop start' stop' : Nat}

/-- A stretch that ends where another one starts is apart from it. -/
theorem apart_of_le (h : a.start + a.length ≤ b.start) : a.Apart b := by
  rintro i ⟨ha, hb⟩
  rw [Holds] at ha hb
  omega

/-- Being apart goes both ways. -/
theorem Apart.symm (h : a.Apart b) : b.Apart a := fun i hi => h i hi.symm

/-- Stretches in different parts of a text are apart. -/
theorem Within.apart (ha : a.Within start stop) (hb : b.Within start' stop')
    (h : stop ≤ start' ∨ stop' ≤ start) :
    a.Apart b := by
  rcases h with h | h
  · exact apart_of_le (ha.le_stop.trans (h.trans hb.start_le))
  · exact (apart_of_le (hb.le_stop.trans (h.trans ha.start_le))).symm

/-- A stretch that lies in another one is not apart from it. -/
theorem Within.not_apart (hs : s.Within a.start (a.start + a.length)) : ¬ a.Apart s := by
  intro hapart
  obtain ⟨hstart, hpos, hstop⟩ := hs
  exact hapart s.start ⟨⟨hstart, by omega⟩, Nat.le_refl _, by omega⟩

/-- A stretch between two places holds a byte, so it is not apart from itself. -/
theorem Within.not_apart_self (hs : s.Within start stop) : ¬ s.Apart s :=
  Within.not_apart ⟨Nat.le_refl _, hs.length_pos, Nat.le_refl _⟩

end Span

/-- A piece that is cut out of a text lies in it. -/
theorem Piece.CutFrom.within {p : Piece} {offset : Nat} {text : Bytes} (h : p.CutFrom offset text) :
    p.span.Within offset (offset + text.length) := by
  obtain ⟨hne, before, after, rfl, hoffset⟩ := h
  have hpos := List.length_pos_of_ne_nil hne
  refine ⟨?_, hpos, ?_⟩
  · simp only [Piece.span]
    omega
  · simp only [Piece.span, List.length_append]
    omega

/-! ### Where a search for parameter tags can be cut -/

section Search

variable {text tail : Bytes}

/-- A byte that starts a name may stand in a type. -/
theorem isTypePart_of_isNameStart {c : UInt8} (h : isNameStart c = true) : isTypePart c = true := by
  rw [isTypePart, Lexeme.isNamePart_of_isNameStart h, Bool.true_or]

/-- What may not stand in a type starts no name. -/
theorem isNameStart_eq_false {c : UInt8} (h : isTypePart c = false) : isNameStart c = false := by
  rw [Bool.eq_false_iff]
  intro hstart
  rw [isTypePart_of_isNameStart hstart] at h
  cases h

/-- A gap stands in no type. -/
theorem isTypePart_of_isGap {c : UInt8} (h : isGap c = true) : isTypePart c = false := by
  simp only [isGap, Bool.or_eq_true, decide_eq_true_eq] at h
  rcases h with (((rfl | rfl) | rfl) | rfl) | rfl <;> decide

/-- A text that no parameter tag goes on into. -/
structure EndsTags (tail : Bytes) : Prop where
  head : ∀ c ∈ tail.head?, isTypePart c = false
  mark : ∀ c ∈ (skipGaps tail).head?, c ≠ Char.toUInt8 '|' ∧ isNameStart c = false

/-- Gaps in front of a text are skipped, and those that follow as well if there is nothing else in
the text. -/
theorem skipGaps_append (text tail : Bytes) :
    skipGaps (text ++ tail) =
      if skipGaps text = [] then skipGaps tail else skipGaps text ++ tail := by
  rw [skipGaps, List.dropWhile_append, ← skipGaps, ← skipGaps]
  simp only [List.isEmpty_iff]

/-- A name ends with the text if nothing behind the text continues it. -/
theorem takeName?_append_tail (h : ∀ c ∈ tail.head?, isNamePart c = false) (text : Bytes) :
    takeName? (text ++ tail) = (takeName? text).map fun found => (found.1, found.2 ++ tail) := by
  cases text with
  | nil =>
    cases tail with
    | nil => rfl
    | cons c tail =>
      have hc : ¬ isNameStart c = true :=
        fun hstart => by simp [Lexeme.isNamePart_of_isNameStart hstart] at h
      exact if_neg hc
  | cons c text =>
    have hdrop : (text ++ tail).dropWhile isNamePart = text.dropWhile isNamePart ++ tail := by
      have hwhole : text.takeWhile isNamePart ++ (text ++ tail).dropWhile isNamePart =
          text.takeWhile isNamePart ++ (text.dropWhile isNamePart ++ tail) := by
        rw [← List.append_assoc, List.takeWhile_append_dropWhile, ← takeWhile_append_stop h,
          List.takeWhile_append_dropWhile]
      exact List.append_cancel_left hwhole
    rw [List.cons_append, takeName?, takeName?, takeWhile_append_stop h, hdrop]
    split <;> rfl

/-- A tag that is found in front of such a text is found without it. -/
theorem parameterTag?_append (h : EndsTags tail) (text : Bytes) :
    parameterTag? (text ++ tail) = parameterTag? text := by
  have hname : ∀ c ∈ tail.head?, isNamePart c = false :=
    fun c hc => (Bool.or_eq_false_iff.1 (h.head c hc)).1
  rw [parameterTag?, parameterTag?, takeName?_append_tail hname]
  cases takeName? text with
  | none => rfl
  | some found =>
    obtain ⟨name, behindName⟩ := found
    simp only [Option.map_some, Option.bind_eq_bind, Option.bind_some, skipGaps_append]
    cases skipGaps behindName with
    | nil =>
      have hnone : after? "|" (skipGaps tail) = none := by
        cases hmark : skipGaps tail with
        | nil => rfl
        | cons c rest => exact if_neg (Ne.symm (h.mark c (by rw [hmark]; rfl)).1)
      rw [if_pos rfl, hnone]
      rfl
    | cons d behindPipe =>
      rw [if_neg (List.cons_ne_nil _ _), List.cons_append]
      by_cases hpipe : Char.toUInt8 '|' = d
      · subst hpipe
        have hafter : ∀ rest : Bytes, after? "|" (Char.toUInt8 '|' :: rest) = some rest :=
          fun rest => rfl
        simp only [hafter, Option.bind_some, skipGaps_append]
        cases skipGaps behindPipe with
        | nil =>
          rw [if_pos rfl]
          cases hmark : skipGaps tail with
          | nil => rfl
          | cons c rest => simp [(h.mark c (by rw [hmark]; rfl)).2]
        | cons e typeOn =>
          have htype : (e :: typeOn ++ tail).takeWhile (fun c => isNamePart c || c = '.') =
              (e :: typeOn).takeWhile (fun c => isNamePart c || c = '.') :=
              takeWhile_append_stop h.head
          rw [if_neg (List.cons_ne_nil _ _), htype, List.length_append, List.length_append,
            Nat.add_sub_add_right]
          rfl
      · have hnone : ∀ rest : Bytes, after? "|" (d :: rest) = none := fun rest => if_neg hpipe
        rw [hnone, hnone]
        rfl

/-- What is found in front of such a text and in it is found one after the other. -/
theorem parameterSpans_append (h : EndsTags tail) {place skip : Nat} {text : Bytes}
    (hskip : skip ≤ text.length) : parameterSpans place skip (text ++ tail) =
      parameterSpans place skip text ++ parameterSpans (place + text.length) 0 tail := by
  induction text generalizing place skip with
  | nil =>
    obtain rfl : skip = 0 := Nat.le_zero.1 hskip
    rfl
  | cons c text ih =>
    have hplace : place + (c :: text).length = place + 1 + text.length := by
      rw [List.length_cons]
      omega
    cases skip with
    | succ skip =>
      rw [List.cons_append, parameterSpans, parameterSpans,
        ih (Nat.le_of_succ_le_succ hskip), hplace]
    | zero =>
      rw [List.cons_append, parameterSpans, ← List.cons_append, parameterTag?_append h,
        parameterSpans, hplace]
      cases hfound : parameterTag? (c :: text) with
      | none => exact ih (Nat.zero_le _)
      | some found =>
        obtain ⟨nameLength, typeStart, typeLength⟩ := found
        -- the tag fits into the text, and so does what is passed over because of it
        obtain ⟨tag⟩ := nonempty_parameterTag hfound
        have hlength := tag.length_le
        rw [parameterTag?_eq tag, Option.some.injEq, Prod.mk.injEq, Prod.mk.injEq] at hfound
        rw [ParameterTag.length, hfound.2.1, hfound.2.2, List.length_cons] at hlength
        dsimp only
        rw [ih (by omega), List.cons_append, List.cons_append]

/-- Nothing is found where no pipe is. -/
theorem parameterSpans_eq_nil (h : Char.toUInt8 '|' ∉ text) (place : Nat) :
    parameterSpans place 0 text = [] := by
  induction text generalizing place with
  | nil => rfl
  | cons c text ih =>
    have hnone : parameterTag? (c :: text) = none := by
      refine Option.eq_none_iff_forall_ne_some.2 fun found hfound => h ?_
      obtain ⟨tag⟩ := nonempty_parameterTag hfound
      rw [tag.text_eq]
      simp
    rw [parameterSpans, hnone]
    exact ih (fun hmem => h (List.mem_cons_of_mem _ hmem)) _

/-- Bytes that no name starts with are passed over. -/
theorem parameterSpans_append_left {lead : Bytes} (h : ∀ c ∈ lead, isNameStart c = false)
    (place : Nat) :
    parameterSpans place 0 (lead ++ text) = parameterSpans (place + lead.length) 0 text := by
  induction lead generalizing place with
  | nil => rfl
  | cons c lead ih =>
    have hnone : parameterTag? (c :: (lead ++ text)) = none := by
      rw [parameterTag?, takeName?, if_neg (by simp [h c List.mem_cons_self])]
      rfl
    rw [List.cons_append, parameterSpans, hnone]
    dsimp only
    rw [ih (fun d hd => h d (List.mem_cons_of_mem _ hd)), List.length_cons,
      Nat.add_right_comm, Nat.add_assoc]

/-- What is found lies in the text. -/
theorem within_of_mem_parameterSpans {place : Nat} {s : Span}
    (h : s ∈ parameterSpans place 0 text) :
    s.Within place (place + text.length) := by
  obtain ⟨pieces, hpieces⟩ := exists_parameterPieces place text
  rw [hpieces.parameterSpans_eq] at h
  obtain ⟨p, hp, rfl⟩ := List.mem_map.1 h
  exact (hpieces.cutFrom hp).within

/-- The pieces of a parameter tag stand one behind the other. -/
theorem ParameterTag.spec_of_mem_pieces (tag : ParameterTag text) (place : Nat) :
    ((tag.pieces place).map Piece.span).Pairwise Span.Apart ∧
      ∀ p ∈ tag.pieces place, p.span.start + p.span.length ≤ place + tag.length := by
  have hname : tag.name.length ≤ tag.typeStart := by
    rw [typeStart, List.length_append]
    omega
  rw [pieces]
  refine ⟨?_, fun p hp => ?_⟩
  · simp only [List.map_cons, List.map_nil, List.pairwise_pair]
    exact Span.apart_of_le (Nat.add_le_add_left hname place)
  · rw [List.mem_cons, List.mem_singleton] at hp
    rw [length]
    rcases hp with rfl | rfl
    · simp only [Piece.span]
      omega
    · simp only [Piece.span]
      omega

/-- What is found stands one behind the other. -/
theorem pairwise_parameterSpans (place : Nat) (text : Bytes) :
    (parameterSpans place 0 text).Pairwise Span.Apart := by
  obtain ⟨pieces, hpieces⟩ := exists_parameterPieces place text
  rw [hpieces.parameterSpans_eq]
  induction hpieces with
  | nil => exact List.Pairwise.nil
  | skip hnone hrest ih => exact ih
  | @tag offset text pieces tag hrest ih =>
    obtain ⟨hpieces, hstop⟩ := tag.spec_of_mem_pieces offset
    rw [List.map_append, List.pairwise_append]
    refine ⟨hpieces, ih, fun a ha b hb => ?_⟩
    obtain ⟨p, hp, rfl⟩ := List.mem_map.1 ha
    obtain ⟨q, hq, rfl⟩ := List.mem_map.1 hb
    exact Span.apart_of_le ((hstop p hp).trans (hrest.cutFrom hq).within.start_le)

/-- Whether a parameter tag starts somewhere in a text. -/
def HoldsParameterTag (text : Bytes) : Prop := ∃ rest, rest <:+ text ∧ Nonempty (ParameterTag rest)

/-- Something is found in a text that holds a parameter tag. -/
theorem parameterSpans_eq_nil_iff (place : Nat) (text : Bytes) :
    parameterSpans place 0 text = [] ↔ ¬ HoldsParameterTag text := by
  obtain ⟨pieces, hpieces⟩ := exists_parameterPieces place text
  rw [hpieces.parameterSpans_eq, List.map_eq_nil_iff]
  induction hpieces with
  | nil =>
    refine iff_of_true rfl ?_
    rintro ⟨rest, hrest, ⟨tag⟩⟩
    have hpos := tag.length_pos.trans_le (tag.length_le.trans hrest.length_le)
    exact absurd hpos (Nat.lt_irrefl 0)
  | @skip offset c text pieces hnone hrest ih =>
    rw [ih, not_iff_not]
    constructor
    · rintro ⟨rest, hsuffix, htag⟩
      exact ⟨rest, hsuffix.trans (List.suffix_cons c text), htag⟩
    · rintro ⟨rest, hsuffix, htag⟩
      rcases List.suffix_cons_iff.1 hsuffix with rfl | hsuffix
      · exact absurd hnone (not_isEmpty_iff.2 htag)
      · exact ⟨rest, hsuffix, htag⟩
  | @tag offset text pieces tag hrest ih =>
    exact iff_of_false (List.cons_ne_nil _ _) (not_not.2 ⟨text, List.suffix_rfl, ⟨tag⟩⟩)

end Search

/-! ### Both searches in one text -/

section Declarations

variable {head : Bytes}

/-- What stands in front of the type of a declaration tag, up to the colon. -/
def DeclarationTag.front (tag : DeclarationTag head) : Bytes :=
  tag.keyword ++ tag.beforeName ++ tag.name ++ tag.beforeColon

/-- Where the type of a declaration tag starts. -/
def DeclarationTag.typeStart (tag : DeclarationTag head) : Nat :=
  tag.front.length + 1 + tag.beforeType.length

/-- The stretches of a declaration tag: two in front of the type, and the type. -/
theorem DeclarationTag.spans_eq (tag : DeclarationTag head) (place : Nat) : ∃ keyword name,
    (tagSpans head).map (Span.shift place) =
    [keyword, name, ⟨place + tag.typeStart, tag.type.length, .type, false⟩] ∧
      keyword.start + keyword.length ≤ name.start ∧
        name.start + name.length ≤ place + tag.typeStart := by
  rw [tagSpans_eq tag, pieces]
  refine ⟨⟨place, tag.keyword.length, .keyword, false⟩,
    ⟨place + (tag.keyword ++ tag.beforeName).length, tag.name.length, .variable, true⟩, ?_, ?_, ?_⟩
  · simp only [List.map_cons, List.map_nil, Piece.span, typeStart, front, List.cons.injEq,
      Span.mk.injEq, and_true, true_and]
    omega
  · simp only [List.length_append]
    omega
  · simp only [typeStart, front, List.length_append]
    omega

/-- The pieces of a declaration tag stand one behind the other. -/
theorem pairwise_tagSpans (place : Nat) (head : Bytes) :
    ((tagSpans head).map (Span.shift place)).Pairwise Span.Apart := by
  by_cases hnil : tagSpans head = []
  · rw [hnil]
    exact List.Pairwise.nil
  · obtain ⟨tag⟩ := nonempty_declarationTag hnil
    obtain ⟨keyword, name, hspans, hkeyword, hname⟩ := tag.spans_eq place
    have htype : keyword.start + keyword.length ≤ place + tag.typeStart :=
      hkeyword.trans ((Nat.le_add_right _ _).trans hname)
    rw [hspans]
    simp only [List.pairwise_cons, List.mem_cons, List.not_mem_nil, or_false, forall_eq_or_imp,
      forall_eq, false_imp_iff, implies_true, List.Pairwise.nil, and_true]
    exact ⟨⟨Span.apart_of_le hkeyword, Span.apart_of_le htype⟩, Span.apart_of_le hname⟩

/-- What is found lies in the head. -/
theorem within_of_mem_tagSpans {place : Nat} {s : Span}
    (h : s ∈ (tagSpans head).map (Span.shift place)) :
    s.Within place (place + head.length) := by
  obtain ⟨tag, p, hp, rfl⟩ := mem_map_tagSpans_iff.1 h
  exact (tag.cutFrom hp).within

/-- No parameter tag goes past gaps and a mark that is part of none. -/
theorem endsTags_gaps (gaps : Bytes) (mark : UInt8) (rest : Bytes)
    (hgaps : ∀ c ∈ gaps, isGap c = true) (hpart : isTypePart mark = false)
    (hgap : isGap mark = false) (hpipe : mark ≠ Char.toUInt8 '|') :
    EndsTags (gaps ++ mark :: rest) := by
  refine ⟨fun c hc => ?_, fun c hc => ?_⟩
  · cases gaps with
    | nil => exact Option.some.inj hc ▸ hpart
    | cons gap gaps => exact Option.some.inj hc ▸ isTypePart_of_isGap (hgaps gap List.mem_cons_self)
  · have hhead : ∀ d ∈ (mark :: rest).head?, isGap d = false :=
      fun d hd => Option.some.inj hd ▸ hgap
    rw [skipGaps_gaps hgaps hhead] at hc
    exact Option.some.inj hc ▸ ⟨hpipe, isNameStart_eq_false hpart⟩

/-- In a head with a declaration tag, parameter tags are found in the type and behind it. -/
theorem DeclarationTag.parameterSpans_eq (tag : DeclarationTag head) (place : Nat) : ∃ later,
    parameterSpans place 0 head = parameterSpans (place + tag.typeStart) 0 tag.type ++ later ∧
      ∀ s ∈ later, place + tag.typeStart + tag.type.length ≤ s.start := by
  obtain ⟨⟨⟨hbeforeName, hbeforeColon⟩, hbeforeType⟩, hbeforeAssign⟩ :
      ((((∀ c ∈ tag.beforeName, isGap c = true) ∧ ∀ c ∈ tag.beforeColon, isGap c = true) ∧
        ∀ c ∈ tag.beforeType, isGap c = true) ∧ ∀ c ∈ tag.beforeAssign, isGap c = true) := by
    simpa only [List.forall_mem_append] using tag.gaps
  have hpipe : Char.toUInt8 '|' ∉ tag.front := by
    have hkeyword := isNamePart_of_isIdent (Tag.isIdent_keyword tag.keyword_mem)
    have hname := isNamePart_of_isIdent tag.name_isIdent
    have hpart : isNamePart (Char.toUInt8 '|') ≠ true := by decide
    have hgap : isGap (Char.toUInt8 '|') ≠ true := by decide
    rw [front, List.mem_append, List.mem_append, List.mem_append]
    rintro (((hmem | hmem) | hmem) | hmem)
    · exact hpart (hkeyword _ hmem)
    · exact hgap (hbeforeName _ hmem)
    · exact hpart (hname _ hmem)
    · exact hgap (hbeforeColon _ hmem)
  have hlead : ∀ c ∈ Char.toUInt8 ':' :: tag.beforeType, isNameStart c = false := by
    rw [List.forall_mem_cons]
    exact ⟨by decide, fun c hc => isNameStart_eq_false (isTypePart_of_isGap (hbeforeType c hc))⟩
  have hcolon : EndsTags (Char.toUInt8 ':' :: tag.beforeType ++
      (tag.type ++ (tag.beforeAssign ++ Char.toUInt8 '=' :: tag.rest))) :=
    endsTags_gaps [] (Char.toUInt8 ':') _ (List.forall_mem_nil _) (by decide)
      (by decide) (by decide)
  have hassign : EndsTags (tag.beforeAssign ++ Char.toUInt8 '=' :: tag.rest) :=
    endsTags_gaps tag.beforeAssign (Char.toUInt8 '=') _ hbeforeAssign (by decide)
      (by decide) (by decide)
  have hhead : head = tag.front ++ (Char.toUInt8 ':' :: tag.beforeType ++
      (tag.type ++ (tag.beforeAssign ++ Char.toUInt8 '=' :: tag.rest))) := by
    simpa [front] using tag.head_eq
  have hplace : place + tag.front.length + (Char.toUInt8 ':' :: tag.beforeType).length =
      place + tag.typeStart := by
    rw [typeStart, List.length_cons]
    omega
  refine ⟨parameterSpans (place + tag.typeStart + tag.type.length) 0
    (tag.beforeAssign ++ Char.toUInt8 '=' :: tag.rest),
    ?_, fun s hs => (within_of_mem_parameterSpans hs).start_le⟩
  calc parameterSpans place 0 head
      = parameterSpans place 0 (tag.front ++ (Char.toUInt8 ':' :: tag.beforeType ++
          (tag.type ++ (tag.beforeAssign ++ Char.toUInt8 '=' :: tag.rest)))) := congrArg _ hhead
    _ = parameterSpans (place + tag.front.length) 0 (Char.toUInt8 ':' :: tag.beforeType ++
          (tag.type ++ (tag.beforeAssign ++ Char.toUInt8 '=' :: tag.rest))) := by
        rw [parameterSpans_append hcolon (Nat.zero_le _), parameterSpans_eq_nil hpipe,
          List.nil_append]
    _ = parameterSpans (place + tag.typeStart) 0
      (tag.type ++ (tag.beforeAssign ++ Char.toUInt8 '=' :: tag.rest)) := by
        rw [parameterSpans_append_left hlead, hplace]
    _ = _ := parameterSpans_append hassign (Nat.zero_le _)

/-- The two searches in a head find what overlaps just when a parameter tag is in the type of the
declaration tag. -/
theorem DeclarationTag.apart_iff (tag : DeclarationTag head) (place : Nat) :
    (∀ a ∈ (tagSpans head).map (Span.shift place), ∀ b ∈ parameterSpans place 0 head, a.Apart b) ↔
      ¬ HoldsParameterTag tag.type := by
  obtain ⟨keyword, name, hspans, hkeyword, hname⟩ := tag.spans_eq place
  obtain ⟨later, hfound, hlater⟩ := tag.parameterSpans_eq place
  rw [hspans, hfound, ← parameterSpans_eq_nil_iff (place + tag.typeStart)]
  constructor
  · intro hapart
    refine List.eq_nil_iff_forall_not_mem.2 fun s hs => ?_
    have htype := hapart ⟨place + tag.typeStart, tag.type.length, .type, false⟩ (by simp) s
      (List.mem_append_left _ hs)
    exact (within_of_mem_parameterSpans hs).not_apart htype
  · intro hnone a ha b hb
    rw [hnone, List.nil_append] at hb
    have hbehind := hlater b hb
    refine Span.apart_of_le (Nat.le_trans ?_ hbehind)
    simp only [List.mem_cons, List.not_mem_nil, or_false] at ha
    rcases ha with rfl | rfl | rfl
    · omega
    · omega
    · exact Nat.le_refl _

end Declarations

end Highlight

namespace Token

/-- Tokens that end before the next one starts, those inside others included. -/
def Spaced (ts : List Token) : Prop := (all ts).Pairwise fun s t => s.stop ≤ t.offset

variable {t u : Token} {ts : List Token}

/-- Spaced tokens, told from the first one, what is inside it and what follows it. -/
theorem spaced_cons : Spaced (t :: ts) ↔ (∀ u ∈ all t.children ++ all ts, t.stop ≤ u.offset) ∧
    Spaced t.children ∧ Spaced ts ∧ ∀ s ∈ all t.children, ∀ u ∈ all ts, s.stop ≤ u.offset := by
  rw [Spaced, all_cons, List.pairwise_cons, List.pairwise_append]
  rfl

/-- The tokens of a script are spaced. -/
theorem spaced_of_scan {limit : Nat} {source : Bytes} {tokens : List Token}
    (h : scan limit source = .ok tokens) : Spaced tokens :=
  (Scan.covers_of_scan h).ordered.imp And.right

/-- The declaring blocks inside a token are those of its content. -/
theorem declarationsWithin_eq (t : Token) : declarationsWithin t = declarations t.children := by
  cases t with
  | leaf => rfl
  | block signature content offset => rw [declarationsWithin, declarations, children]

/-- Up to their order, the declaring blocks of a sequence are its first token if it declares, those
inside it, and those of the rest. -/
theorem declarations_cons_perm (t : Token) (ts : List Token) : (declarations (t :: ts)).Perm
    ((if t.declares ts.head? then [t] else []) ++
      (declarations t.children ++ declarations ts)) := by
  have hdeclaring : declaring (t :: ts) = (if t.declares ts.head? then [t] else []) ++
      declaring ts := by
    rw [declaring]
    split <;> rfl
  rw [declarations, hdeclaring, declarationsBelow, declarationsWithin_eq, List.append_assoc]
  refine List.Perm.append_left _ ?_
  rw [declarations.eq_def ts, ← List.append_assoc, ← List.append_assoc]
  exact List.Perm.append_right _ List.perm_append_comm

/-- The leaves inside a declaring block are leaves of the sequence. -/
theorem leavesAll_subset_of_mem_declarations (h : u ∈ declarations ts) :
    leavesAll u.children ⊆ leavesAll ts := by
  rw [leavesAll_eq, leavesAll_eq]
  exact List.filter_subset _ (all_subset_of_mem_declarations h)

end Token

namespace Highlight

open Token

/-- The stretches of the declaration tag of a token. -/
def tagsOf (t : Token) : List Span := (tagSpans t.head).map (Span.shift t.offset)

/-- The stretches of the parameter tags inside a block. -/
def parametersOf (block : Token) : List Span :=
  (leavesAll block.children).flatMap fun leaf => parameterSpans leaf.offset 0 leaf.head

/-- Declaration tags are searched in every token, and parameter tags in every declaring block. -/
theorem spans_eq (tokens : List Token) :
    spans tokens = (all tokens).flatMap tagsOf ++ (declarations tokens).flatMap parametersOf := by
  rw [spans, all, List.flatMap_map]
  congr 2
  funext block
  cases block <;> rfl

section Blocks

variable {block inner leaf t : Token} {ts : List Token} {s : Span}

/-- What is found in a block is found in one of its leaves. -/
theorem mem_parametersOf_iff : s ∈ parametersOf block ↔
    ∃ leaf ∈ leavesAll block.children, s ∈ parameterSpans leaf.offset 0 leaf.head :=
      List.mem_flatMap

/-- Nothing is found in a block whose leaves hold no parameter tag. -/
theorem parametersOf_eq_nil_iff :
    parametersOf block = [] ↔ ∀ leaf ∈ leavesAll block.children, ¬ HoldsParameterTag leaf.head := by
  rw [parametersOf, List.flatMap_eq_nil_iff]
  simp only [parameterSpans_eq_nil_iff]

/-- What is found in a declaring block is found in every block around it as well. -/
theorem parametersOf_subset (h : inner ∈ declarations block.children) :
    parametersOf inner ⊆ parametersOf block := by
  intro s hs
  obtain ⟨leaf, hleaf, hs⟩ := mem_parametersOf_iff.1 hs
  exact mem_parametersOf_iff.2 ⟨leaf, leavesAll_subset_of_mem_declarations h hleaf, hs⟩

/-- Blocks in which nothing is found that overlaps. -/
def BlocksApart (block inner : Token) : Prop := ∀ a ∈ parametersOf block,
    ∀ b ∈ parametersOf inner, a.Apart b

/-- Blocks are apart both ways. -/
theorem BlocksApart.symm (h : BlocksApart block inner) : BlocksApart inner block :=
  fun a ha b hb => (h b hb a ha).symm

/-- Blocks whose contents come one behind the other have nothing that overlaps. -/
theorem blocksApart_of_stop_le
    (h : ∀ s ∈ all block.children, ∀ u ∈ all inner.children, s.stop ≤ u.offset) :
    BlocksApart block inner := by
  intro a ha b hb
  obtain ⟨leaf, hleaf, ha⟩ := mem_parametersOf_iff.1 ha
  obtain ⟨leaf', hleaf', hb⟩ := mem_parametersOf_iff.1 hb
  exact (within_of_mem_parameterSpans ha).apart (within_of_mem_parameterSpans hb)
    (.inl (h leaf (leavesAll_subset _ hleaf) leaf' (leavesAll_subset _ hleaf')))

/-- A declaring block overlaps with one inside it unless nothing is found in the inner one. -/
theorem blocksApart_inner_iff (h : inner ∈ declarations block.children) :
    BlocksApart block inner ↔ parametersOf inner = [] := by
  constructor
  · intro hapart
    refine List.eq_nil_iff_forall_not_mem.2 fun s hs => ?_
    obtain ⟨leaf, -, hfound⟩ := mem_parametersOf_iff.1 hs
    exact (within_of_mem_parameterSpans hfound).not_apart_self
      (hapart s (parametersOf_subset h hs) s hs)
  · intro hnil a _ b hb
    rw [hnil] at hb
    exact absurd hb List.not_mem_nil

/-- Whether nothing is found in a declaring block that stands inside another one. -/
def NestedFree (ts : List Token) : Prop :=
  ∀ block ∈ declarations ts, ∀ inner ∈ declarations block.children, parametersOf inner = []

/-- Where a declaring block can stand inside another one: in the first token of a sequence, if this
declares, or both of them in its content, or both of them in the rest. -/
theorem nestedFree_cons : NestedFree (t :: ts) ↔
    (t.declares ts.head? = true → ∀ inner ∈ declarations t.children, parametersOf inner = []) ∧
      NestedFree t.children ∧ NestedFree ts := by
  have hmem : ∀ block, block ∈ declarations (t :: ts) ↔
      (t.declares ts.head? = true ∧ block = t) ∨ block ∈ declarations t.children ∨
      block ∈ declarations ts := by
    intro block
    rw [(declarations_cons_perm t ts).mem_iff, List.mem_append, List.mem_append]
    cases t.declares ts.head? <;> simp
  simp only [NestedFree, hmem, or_imp, forall_and, and_imp]
  exact Iff.and ⟨fun h hdeclares => h t hdeclares rfl, fun h block hdeclares heq => heq ▸
    h hdeclares⟩ Iff.rfl

mutual

/-- The declaring blocks inside a token overlap only where one is inside another. -/
theorem pairwise_declarations_children : (t : Token) → Spaced t.children →
    ((declarations t.children).Pairwise BlocksApart ↔ NestedFree t.children)
  | .leaf .., _ => iff_of_true List.Pairwise.nil fun _ hblock => absurd hblock List.not_mem_nil
  | .block _ content _, h => pairwise_declarations_iff content h

/-- The declaring blocks of a sequence overlap only where one is inside another. -/
theorem pairwise_declarations_iff : (ts : List Token) → Spaced ts →
    ((declarations ts).Pairwise BlocksApart ↔ NestedFree ts)
  | [], _ => iff_of_true List.Pairwise.nil fun _ hblock => absurd hblock List.not_mem_nil
  | t :: ts, h => by
    obtain ⟨-, hinside, hrest, hcross⟩ := spaced_cons.1 h
    have hbehind : ∀ block ∈ declarations t.children, ∀ inner ∈ declarations ts,
        BlocksApart block inner := by
      intro block hblock inner hinner
      exact blocksApart_of_stop_le fun s hs u hu =>
        hcross s (all_subset_of_mem_declarations hblock hs) u
        (all_subset_of_mem_declarations hinner hu)
    have hfirst : ∀ inner ∈ declarations ts, BlocksApart t inner := by
      intro inner hinner
      exact blocksApart_of_stop_le fun s hs u hu =>
        hcross s hs u (all_subset_of_mem_declarations hinner hu)
    rw [(declarations_cons_perm t ts).pairwise_iff BlocksApart.symm, List.pairwise_append,
      List.pairwise_append, pairwise_declarations_children t hinside,
      pairwise_declarations_iff ts hrest, nestedFree_cons]
    cases t.declares ts.head? with
    | false => simpa using fun _ _ => hbehind
    | true =>
      have hnested : (∀ inner ∈ declarations t.children, BlocksApart t inner) ↔
          ∀ inner ∈ declarations t.children, parametersOf inner = [] :=
        forall₂_congr fun inner hinner => blocksApart_inner_iff hinner
      simp only [if_true, List.pairwise_singleton, true_and, List.mem_singleton, forall_eq,
        List.mem_append, or_imp, forall_and, hnested, true_imp_iff]
      exact ⟨fun ⟨⟨hcontent, hlevel, _⟩, hinner, _⟩ => ⟨hinner, hcontent, hlevel⟩,
        fun ⟨hinner, hcontent, hlevel⟩ => ⟨⟨hcontent, hlevel, hbehind⟩, hinner, hfirst⟩⟩

end

mutual

/-- What is inside a declaring block inside a token is spaced as the content of the token is. -/
theorem spaced_of_mem_declarations_children : (t : Token) → Spaced t.children →
    block ∈ declarations t.children → Spaced block.children
  | .leaf .., _, hblock => absurd hblock List.not_mem_nil
  | .block _ content _, h, hblock => spaced_of_mem_declarations content h hblock

/-- What is inside a declaring block of a sequence is spaced as the sequence is. -/
theorem spaced_of_mem_declarations : (ts : List Token) → Spaced ts → block ∈ declarations ts →
    Spaced block.children
  | [], _, hblock => absurd hblock List.not_mem_nil
  | t :: ts, h, hblock => by
    obtain ⟨-, hinside, hrest, -⟩ := spaced_cons.1 h
    rw [(declarations_cons_perm t ts).mem_iff, List.mem_append, List.mem_append] at hblock
    rcases hblock with hblock | hblock | hblock
    · split at hblock
      · obtain rfl := List.mem_singleton.1 hblock
        exact hinside
      · exact absurd hblock List.not_mem_nil
    · exact spaced_of_mem_declarations_children t hinside hblock
    · exact spaced_of_mem_declarations ts hrest hblock

end

/-- What is found in one block stands one behind the other. -/
theorem pairwise_parametersOf (h : Spaced block.children) :
    (parametersOf block).Pairwise Span.Apart := by
  rw [parametersOf, List.pairwise_flatMap, leavesAll_eq]
  refine ⟨fun leaf _ => pairwise_parameterSpans leaf.offset leaf.head,
    (h.filter _).imp fun hstop a ha b hb => ?_⟩
  exact (within_of_mem_parameterSpans ha).apart (within_of_mem_parameterSpans hb) (.inl hstop)

/-- What is found in the heads of tokens stands one behind the other. -/
theorem pairwise_tagsOf (h : Spaced ts) : ((all ts).flatMap tagsOf).Pairwise Span.Apart := by
  rw [List.pairwise_flatMap]
  refine ⟨fun t _ => pairwise_tagSpans t.offset t.head, h.imp fun hstop a ha b hb => ?_⟩
  exact (within_of_mem_tagSpans ha).apart (within_of_mem_tagSpans hb) (.inl hstop)

/-- Different tokens of a script take up different bytes. -/
theorem stop_le_or_stop_le (h : Spaced ts) (ht : t ∈ all ts) (hleaf : leaf ∈ all ts)
    (hne : t ≠ leaf) :
    t.stop ≤ leaf.offset ∨ leaf.stop ≤ t.offset := by
  have hsymm : Std.Symm fun s u : Token => s.stop ≤ u.offset ∨ u.stop ≤ s.offset :=
    ⟨fun _ _ => Or.symm⟩
  have hpair : (all ts).Pairwise fun s u => s.stop ≤ u.offset ∨ u.stop ≤ s.offset := h.imp Or.inl
  exact hpair.forall ht hleaf hne

/-- Declaration tags and parameter tags overlap only in the type of a declaration tag. -/
theorem tagsOf_apart_iff (h : Spaced ts) :
    (∀ a ∈ (all ts).flatMap tagsOf, ∀ b ∈ (declarations ts).flatMap parametersOf, a.Apart b) ↔
      ∀ block ∈ declarations ts, ∀ leaf ∈ leavesAll block.children,
        ∀ tag : DeclarationTag leaf.head,
        ¬ HoldsParameterTag tag.type := by
  have hinside : ∀ block ∈ declarations ts, ∀ leaf ∈ leavesAll block.children, leaf ∈ all ts :=
    fun block hblock leaf hleaf => all_subset_of_mem_declarations hblock (leavesAll_subset _ hleaf)
  constructor
  · intro hapart block hblock leaf hleaf tag
    refine (tag.apart_iff leaf.offset).1 fun a ha b hb => hapart a ?_ b ?_
    · exact List.mem_flatMap.2 ⟨leaf, hinside block hblock leaf hleaf, ha⟩
    · exact List.mem_flatMap.2 ⟨block, hblock, mem_parametersOf_iff.2 ⟨leaf, hleaf, hb⟩⟩
  · intro hfree a ha b hb
    obtain ⟨t, ht, ha⟩ := List.mem_flatMap.1 ha
    obtain ⟨block, hblock, hb⟩ := List.mem_flatMap.1 hb
    obtain ⟨leaf, hleaf, hb⟩ := mem_parametersOf_iff.1 hb
    by_cases hsame : t = leaf
    · subst hsame
      obtain ⟨tag, -⟩ := mem_map_tagSpans_iff.1 ha
      exact (tag.apart_iff t.offset).2 (hfree block hblock t hleaf tag) a ha b hb
    · exact (within_of_mem_tagSpans ha).apart (within_of_mem_parameterSpans hb)
        (stop_le_or_stop_le h ht (hinside block hblock leaf hleaf) hsame)

end Blocks

/-- Whether each text is highlighted once: no leaf with a parameter tag stands in two declaring
blocks, and no leaf of a declaring block has a parameter tag in the type of its declaration tag. -/
structure FoundOnce (tokens : List Token) : Prop where
  nested : ∀ block ∈ declarations tokens, ∀ inner ∈ declarations block.children,
    ∀ leaf ∈ leavesAll inner.children, ¬ HoldsParameterTag leaf.head
  types : ∀ block ∈ declarations tokens, ∀ leaf ∈ leavesAll block.children,
    ∀ tag : DeclarationTag leaf.head, ¬ HoldsParameterTag tag.type

/-- The stretches to be highlighted overlap only where a text is found twice. -/
theorem pairwise_spans_iff {tokens : List Token} (h : Spaced tokens) :
    (spans tokens).Pairwise Span.Apart ↔ FoundOnce tokens := by
  have hnested : ((declarations tokens).flatMap parametersOf).Pairwise Span.Apart ↔
      ∀ block ∈ declarations tokens,
      ∀ inner ∈ declarations block.children, ∀ leaf ∈ leavesAll inner.children,
      ¬ HoldsParameterTag leaf.head := by
    have hblocks := pairwise_declarations_iff tokens h
    simp only [NestedFree, parametersOf_eq_nil_iff] at hblocks
    rw [List.pairwise_flatMap, ← hblocks]
    exact and_iff_right fun block hblock => pairwise_parametersOf
      (spaced_of_mem_declarations tokens h hblock)
  rw [spans_eq, List.pairwise_append, hnested, tagsOf_apart_iff h]
  exact ⟨fun ⟨_, hnested, htypes⟩ => ⟨hnested, htypes⟩,
    fun hfound => ⟨pairwise_tagsOf h, hfound.nested, hfound.types⟩⟩

/-! ### From stretches to highlights -/

/-- Where a highlight starts in a source: behind the lines before its line, at its character. -/
def start (source : Bytes) (h : Highlight) : Nat :=
  lineStart ((source.split '\n').take h.line.toNat) + h.character.toNat

/-- Whether a highlight covers the byte at a place. -/
def CoversByte (source : Bytes) (h : Highlight) (i : Nat) : Prop :=
  h.start source ≤ i ∧ i < h.start source + h.length.toNat

/-- Two highlights that cover no common byte. -/
def Apart (source : Bytes) (a b : Highlight) : Prop :=
  ∀ i, ¬ (a.CoversByte source i ∧ b.CoversByte source i)

section Cover

variable {source : Bytes}

/-- In a script of less than 2³² bytes the highlight of a piece covers its stretch. -/
theorem Piece.CutFrom.coversByte_iff {p : Piece} (hcut : p.CutFrom 0 source)
    (hlength : source.length < 2 ^ 32) :
    ∃ h, ofSpan source p.span = some h ∧ ∀ i, h.CoversByte source i ↔ p.span.Holds i := by
  obtain ⟨h, above, line, below, hspan, hline, hmarks⟩ := hcut.marks hlength
  refine ⟨h, hspan, fun i => ?_⟩
  rw [CoversByte, start, hmarks.line, hmarks.character, hmarks.length, hline.lines, List.take_left,
    Nat.add_sub_cancel' hline.start_le]
  rfl

/-- The highlights of a script of less than 2³² bytes overlap where the stretches do. -/
theorem pairwise_ofSource_iff {tokens : List Token} (hscan : tokenize source = .ok tokens)
    (hlength : source.length < 2 ^ 32) :
    (ofSource source).Pairwise (Apart source) ↔ (spans tokens).Pairwise Span.Apart := by
  have hhighlight : ∀ s ∈ spans tokens, ∃ h, ofSpan source s = some h ∧ ∀ i, h.CoversByte source i ↔
      s.Holds i := by
    intro s hs
    obtain ⟨p, hp, rfl⟩ := mem_spans_iff.1 hs
    exact (hp.cutFrom hscan).coversByte_iff hlength
  have hsymm : ∀ {a b : Highlight}, Apart source a b → Apart source b a := fun h i hi => h i hi.symm
  rw [ofSource, hscan]
  dsimp only
  rw [(List.mergeSort_perm _ _).pairwise_iff hsymm, List.pairwise_filterMap]
  refine List.Pairwise.iff_of_mem fun {a b} ha hb => ?_
  obtain ⟨ha', hofa, hcovera⟩ := hhighlight a ha
  obtain ⟨hb', hofb, hcoverb⟩ := hhighlight b hb
  simp [hofa, hofb, Apart, Span.Apart, hcovera, hcoverb]

end Cover

/-- The highlights of a script of less than 2³² bytes cover different bytes just when each text is
found once. -/
theorem highlights_apart_iff (source : Bytes) (hlength : source.length < 2 ^ 32) :
    (ofSource source).Pairwise (Apart source) ↔ ∀ tokens, tokenize source = .ok tokens →
      FoundOnce tokens := by
  cases hscan : tokenize source with
  | error e =>
    rw [ofSource, hscan]
    refine iff_of_true List.Pairwise.nil fun tokens htokens => ?_
    cases htokens
  | ok tokens =>
    rw [pairwise_ofSource_iff hscan hlength, pairwise_spans_iff (spaced_of_scan hscan)]
    exact ⟨fun hfound _ heq => Except.ok.inj heq ▸ hfound, fun hfound => hfound tokens rfl⟩

/-- A parameter tag behind the declaration tag of its leaf, and a declaration without tags inside
another one: nothing overlaps. -/
theorem highlights_apart_default :
    (utf8 "function f(let x : N = b|M; g = function(c) \x7b\x7d) \x7b\x7d").length < 2 ^ 32 ∧
    (∃ tokens,
      tokenize "function f(let x : N = b|M; g = function(c) \x7b\x7d) \x7b\x7d" = .ok tokens ∧
      (spans tokens).length = 5 ∧ (declarations tokens).length = 2) ∧
    (ofSource "function f(let x : N = b|M; g = function(c) \x7b\x7d) \x7b\x7d").Pairwise
      (Apart "function f(let x : N = b|M; g = function(c) \x7b\x7d) \x7b\x7d") := by
  have hlength : (utf8 "function f(let x : N = b|M; g = function(c) \x7b\x7d) \x7b\x7d").length <
      2 ^ 32 := by
    decide +kernel
  have hscan : tokenize "function f(let x : N = b|M; g = function(c) \x7b\x7d) \x7b\x7d" =
      .ok [.block "function f(" [.leaf "let x : N = b|M" 11,
        .block "g = function(" [.leaf "c" 41] 28, .block "\x7b" [] 44] 0,
        .block "\x7b" [] 48] := by decide +kernel
  refine ⟨hlength, ⟨_, hscan, by decide +kernel⟩, (highlights_apart_iff _ hlength).2
    fun tokens htokens => ?_⟩
  obtain rfl := Except.ok.inj (hscan.symm.trans htokens)
  have hnested : ∀ block ∈ declarations [.block "function f(" [.leaf "let x : N = b|M" 11,
      .block "g = function(" [.leaf "c" 41] 28, .block "\x7b" [] 44] 0, .block "\x7b" [] 48],
      ∀ inner ∈ declarations block.children, ∀ leaf ∈ leavesAll inner.children,
        parameterSpans 0 0 leaf.head = [] := by decide +kernel
  have htypes : ∀ block ∈ declarations [.block "function f(" [.leaf "let x : N = b|M" 11,
      .block "g = function(" [.leaf "c" 41] 28, .block "\x7b" [] 44] 0, .block "\x7b" [] 48],
      ∀ leaf ∈ leavesAll block.children, ∀ a ∈ (tagSpans leaf.head).map (Span.shift 0),
        ∀ b ∈ parameterSpans 0 0 leaf.head, a.start + a.length ≤ b.start := by decide +kernel
  refine ⟨fun block hblock inner hinner leaf hleaf => ?_, fun block hblock leaf hleaf tag => ?_⟩
  · exact (parameterSpans_eq_nil_iff 0 _).1 (hnested block hblock inner hinner leaf hleaf)
  · exact (tag.apart_iff 0).1 fun a ha b hb =>
      Span.apart_of_le (htypes block hblock leaf hleaf a ha b hb)

/-- The tagged parameter of a function that is the default of a parameter is highlighted twice, and
so is its type. -/
theorem highlights_not_apart :
    ofSource "function f(cb = function(a|N) \x7b\x7d) \x7b\x7d" = [⟨0, 25, 1, .parameter, true⟩,
      ⟨0, 25, 1, .parameter, true⟩, ⟨0, 27, 1, .type, false⟩, ⟨0, 27, 1, .type, false⟩] ∧
    ¬ (ofSource "function f(cb = function(a|N) \x7b\x7d) \x7b\x7d").Pairwise
      (Apart "function f(cb = function(a|N) \x7b\x7d) \x7b\x7d") := by
  have hscan : tokenize "function f(cb = function(a|N) \x7b\x7d) \x7b\x7d" =
      .ok [.block "function f(" [.block "cb = function(" [.leaf "a|N" 25] 11,
        .block "\x7b" [] 30] 0, .block "\x7b" [] 34] := by decide +kernel
  have hfound : (spans [.block "function f(" [.block "cb = function(" [.leaf "a|N" 25] 11,
        .block "\x7b" [] 30] 0, .block "\x7b" [] 34]).filterMap
        (ofSpan "function f(cb = function(a|N) \x7b\x7d) \x7b\x7d") =
      [⟨0, 25, 1, .parameter, true⟩, ⟨0, 27, 1, .type, false⟩, ⟨0, 25, 1, .parameter, true⟩,
        ⟨0, 27, 1, .type, false⟩] := by decide +kernel
  have hsource : ofSource "function f(cb = function(a|N) \x7b\x7d) \x7b\x7d" =
      [⟨0, 25, 1, .parameter, true⟩,
      ⟨0, 25, 1, .parameter, true⟩, ⟨0, 27, 1, .type, false⟩, ⟨0, 27, 1, .type, false⟩] := by
    rw [ofSource, hscan]
    dsimp only
    rw [hfound]
    simp [List.mergeSort, List.MergeSort.Internal.splitInTwo, le]
  refine ⟨hsource, fun hapart => ?_⟩
  rw [hsource] at hapart
  have hsame := (List.pairwise_cons.1 hapart).1 _ List.mem_cons_self
  exact hsame 25 ⟨⟨by decide +kernel, by decide +kernel⟩, by decide +kernel, by decide +kernel⟩

end Highlight

end TagScript
