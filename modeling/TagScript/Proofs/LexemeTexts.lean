import TagScript.Proofs.CleanPaths
import TagScript.Proofs.TagRemoval

/-!
# What lexemes are made of

The lexemes of a text, blanks included, are the text cut into pieces, and each kind of lexeme
holds its own kinds of bytes. Only a string literal can hold anything, so a text without one
reads the same as lexemes and with its blanks taken out.

White space at the ends of a text counts for none of the readings that trim it. It is taken
off one code point at a time, from either end.
-/

namespace TagScript

namespace Bytes

variable {text : Bytes}

/-- Behind its first byte a white space code point holds continuation bytes only. -/
theorem SpacePoint.isContinuation {lead more : Bytes} {c : UInt8}
    (h : SpacePoint (lead ++ c :: more)) (hlead : lead ≠ []) : Utf8.isContinuation c = true := by
  generalize hpoint : lead ++ c :: more = point at h
  cases h with
  | one => cases lead <;> simp_all
  | @two a b h =>
    obtain ⟨first, lead, rfl⟩ := List.exists_cons_of_ne_nil hlead
    have hmem : c ∈ [b] := by
      rw [← (List.cons.inj hpoint).2]
      simp
    simp only [isSpacePair, Bool.and_eq_true, Bool.or_eq_true, decide_eq_true_eq] at h
    rw [List.mem_singleton.1 hmem]
    obtain ⟨-, rfl | rfl⟩ := h <;> decide
  | @three a b d h =>
    obtain ⟨first, lead, rfl⟩ := List.exists_cons_of_ne_nil hlead
    have hmem : c ∈ [b, d] := by
      rw [← (List.cons.inj hpoint).2]
      simp
    obtain ⟨-, n, hthree, -⟩ := three?_of_isSpaceTriple h
    simp only [Utf8.three?] at hthree
    grind

/-- White space in front of a text is trimmed away. -/
theorem SpacePoint.trim_append {point : Bytes} (h : SpacePoint point) (text : Bytes) :
    trim (point ++ text) = trim text := by
  rw [trim, trim, h.trimStart_append]

/-- White space behind a text is trimmed away. -/
theorem SpacePoint.trim_append_right {point : Bytes} (h : SpacePoint point) (text : Bytes) :
    trim (text ++ point) = trim text := by
  induction text using trimStartInduction with
  | drop first rest hfirst ih => rw [List.append_assoc, hfirst.trim_append, hfirst.trim_append, ih]
  | keep text hkeep =>
    cases text with
    | nil => simpa using h.trim_append []
    | cons c text =>
      -- no code point at the start can reach into the one at the end
      have hstart : trimStart (c :: text ++ point) = c :: text ++ point := by
        rcases trimStart_cases (c :: text ++ point) with hstart | ⟨first, rest, hfirst, heq⟩
        · exact hstart
        · rcases List.append_eq_append_iff.1 heq with ⟨more, rfl, hpoint⟩ | ⟨more, hmore, -⟩
          · cases more with
            | nil => exact absurd hkeep (by simpa using hfirst.trimStart_ne [])
            | cons d more =>
              have hcut := h.isCut [] d (by simp [hpoint])
              rw [hfirst.isContinuation (List.cons_ne_nil _ _)] at hcut
              exact Bool.noConfusion hcut
          · rw [hmore] at hkeep
            exact absurd hkeep (hfirst.trimStart_ne more)
      rw [trim, hstart, h.trimEnd_append, trim, hkeep]

/-- Induction along the white space at both ends of a text. -/
theorem trimInduction {motive : Bytes → Prop} (keep : ∀ text, trim text = text → motive text)
    (front : ∀ point rest, SpacePoint point → motive rest → motive (point ++ rest))
    (back : ∀ point lead, SpacePoint point → motive lead → motive (lead ++ point)) (text : Bytes) :
    motive text := by
  induction text using trimStartInduction with
  | drop point rest hpoint ih => exact front point rest hpoint ih
  | keep text hstart =>
    induction text using trimEndInduction with
    | keep text hend => exact keep text (by rw [trim, hstart, hend])
    | drop point lead hpoint ih => exact back point lead hpoint (ih (trimStart_eq_of_append hstart))

/-- Trimming adds nothing to a text. -/
theorem trim_subset (text : Bytes) : trim text ⊆ text := by
  obtain ⟨lead, tail, htext, -⟩ := trim_spec text
  intro c hc
  rw [htext]
  simp [hc]

/-- A text without white space is kept. -/
theorem trim_eq_self (h : ∀ c ∈ text, ¬ IsSpaceByte c) : trim text = text := by
  have hpoint : ∀ {point}, SpacePoint point → point ⊆ text → False := by
    intro point hpoint hsub
    obtain ⟨c, hc⟩ := List.exists_mem_of_ne_nil point hpoint.ne_nil
    exact h c (hsub hc) (hpoint.isSpaceByte c hc)
  induction text using trimInduction with
  | keep text htrim => exact htrim
  | front point rest hspace _ => exact (hpoint hspace (by simp)).elim
  | back point lead hspace _ => exact (hpoint hspace (by simp)).elim

/-- A text without the separator goes with the first piece of what follows it. -/
theorem split_append_of_not_mem {c : UInt8} {lead : Bytes} (h : c ∉ lead) (text : Bytes) :
    ∃ first rest, split c text = first :: rest ∧
      split c (lead ++ text) = (lead ++ first) :: rest := by
  obtain ⟨init, last, first, rest, hlead, htext, happend⟩ := split_append c lead text
  rw [split_of_not_mem h, ← List.nil_append [lead]] at hlead
  obtain ⟨rfl, hlast⟩ := List.append_inj' hlead rfl
  rw [← List.singleton_inj.1 hlast] at happend
  exact ⟨first, rest, htext, happend⟩

end Bytes

/-- Whether a byte may stand in a lexeme of this kind. -/
def LexemeKind.holds : LexemeKind → UInt8 → Bool
  | .string, _ => true
  | .name, c => isNamePart c
  | .number, c => isWord c || c = '.'
  | .arrow, c => c = '=' || c = '>'
  | .operator, c => Lexeme.shortOperators.contains c || c = '=' || c = '|'
  | .pipe, c => c = '|'
  | .comma, c => c = ','
  | .colon, c => c = ':'
  | .assign, c => c = '='
  | .bracket, c => Lexeme.brackets.contains c
  | .blank, c => Lexeme.isBlankByte c
  | .other, c => !Lexeme.isBlankByte c && c ≠ ',' && c ≠ '=' && c ≠ '|'

namespace Lexeme

variable {c : UInt8} {text rest : Bytes} {kind : LexemeKind} {offset more : Nat} {lexeme : Lexeme}

/-- The four bytes that are blank. -/
theorem isBlankByte_iff : isBlankByte c = true ↔ c = 32 ∨ c = 9 ∨ c = 13 ∨ c = 10 := by
  simp [isBlankByte, or_assoc]

/-- The bytes of names, by their ranges. -/
theorem isNamePart_iff : isNamePart c = true ↔
    (97 ≤ c ∧ c ≤ 122) ∨ (65 ≤ c ∧ c ≤ 90) ∨ (48 ≤ c ∧ c ≤ 57) ∨ c = 95 ∨ c = 36 := by
  simp only [isNamePart, isWord, isLetter, isDigit, Bool.or_eq_true, Bool.and_eq_true,
    decide_eq_true_eq, or_assoc]
  rfl

/-- A blank is white space of one byte, and separates nothing. -/
theorem isBlankByte_spec (h : isBlankByte c = true) : isAsciiSpace c = true ∧ c < 0x80 ∧
    c ≠ '|' ∧ c ≠ ',' := by
  rcases isBlankByte_iff.1 h with rfl | rfl | rfl | rfl <;> decide

/-- A byte of a name is no white space, and separates nothing. -/
theorem isNamePart_spec (h : isNamePart c = true) : ¬ Bytes.IsSpaceByte c ∧ c ≠ '|' ∧ c ≠ ',' := by
  have hvalues : Char.toUInt8 '|' = 124 ∧ Char.toUInt8 ',' = 44 := by decide
  have hbounds := isNamePart_iff.1 h
  rw [Bytes.IsSpaceByte, isAsciiSpace, hvalues.1, hvalues.2]
  grind

/-- What may start a name may continue one. -/
theorem isNamePart_of_isNameStart (h : isNameStart c = true) : isNamePart c = true := by
  simp only [isNameStart, isNamePart, isWord, Bool.or_eq_true] at h ⊢
  tauto

/-- A byte beyond ASCII stands for itself. -/
theorem holds_other (h : 0x80 ≤ c) : LexemeKind.holds .other c = true := by
  have hne : ∀ d : UInt8, d < 0x80 → c ≠ d := fun d hd heq => UInt8.not_le.2 hd (heq ▸ h)
  have hblank : isBlankByte c = false := by
    rw [← Bool.not_eq_true]
    exact fun hc => UInt8.not_le.2 (isBlankByte_spec hc).2.1 h
  simp [LexemeKind.holds, hblank, hne (Char.toUInt8 ',') (by decide),
    hne (Char.toUInt8 '=') (by decide), hne (Char.toUInt8 '|') (by decide)]

/-- The long operators are made of what operators are made of. -/
theorem longOperators_spec : ∀ operator ∈ longOperators, operator ≠ [] ∧ ∀ b ∈ operator,
    LexemeKind.holds .operator b = true := by
  decide +kernel

/-- The bytes of a run of lexemes, blanks included, are the text that they are read from. -/
@[simp] theorem joined_allFrom (offset : Nat) (text : Bytes) :
    joined (allFrom offset text) = text := by
  rw [joined]
  fun_induction allFrom offset text with
  | case1 => rfl
  | case2 offset c rest kind more hfront ih =>
    rw [List.flatMap_cons, ih, List.cons_append, List.take_append_drop]

/-- The bytes that a lexeme takes as long as they are of one sort are of this sort. -/
theorem of_mem_take_takeWhile {p : UInt8 → Bool} :
    ∀ b ∈ rest.take (rest.takeWhile p).length, p b = true := by
  rw [← List.prefix_iff_eq_take.1 (List.takeWhile_prefix p)]
  exact fun b => List.mem_takeWhile_imp

/-- A long operator is read whole. -/
theorem take_of_startsWith {operator : Bytes} (hmem : operator ∈ longOperators)
    (hstart : Bytes.startsWith (c :: rest) operator = true) :
    c :: rest.take (operator.length - 1) = operator := by
  obtain ⟨after, hafter⟩ := Option.isSome_iff_exists.1 hstart
  obtain ⟨first, tail, rfl⟩ := List.exists_cons_of_ne_nil (longOperators_spec operator hmem).1
  obtain ⟨rfl, rfl⟩ := List.cons.inj (Bytes.eq_append_of_after? hafter)
  simp

/-- Every byte of a lexeme that is told from its first byte may stand in a lexeme of its kind. -/
theorem holds_shortFront (c : UInt8) (rest : Bytes) :
    ∀ b ∈ c :: rest.take (shortFront c rest).2, (shortFront c rest).1.holds b = true := by
  fun_cases shortFront c rest with
  | case7 _ _ _ _ _ _ hblank => exact List.forall_mem_cons.2 ⟨hblank, of_mem_take_takeWhile⟩
  | case8 _ hpipe hcomma _ hassign _ hblank =>
    refine List.forall_mem_cons.2 ⟨?_, fun b hb => holds_other (Utf8.le_of_mem_take_front b hb)⟩
    simp [LexemeKind.holds, hblank, hcomma, hassign, hpipe]
  | _ => simp_all [LexemeKind.holds]

/-- Every byte of a lexeme may stand in a lexeme of its kind. -/
theorem holds_front (c : UInt8) (rest : Bytes) :
    ∀ b ∈ c :: rest.take (front c rest).2, (front c rest).1.holds b = true := by
  have hdigits : ∀ c, isDigit c = true → LexemeKind.holds .number c = true := by
    intro c hc
    simp [LexemeKind.holds, isWord, hc]
  fun_cases front c rest with
  | case1 => exact fun _ _ => rfl
  | case2 _ hname =>
    exact List.forall_mem_cons.2 ⟨isNamePart_of_isNameStart hname, of_mem_take_takeWhile⟩
  | case3 _ _ hdigit => exact List.forall_mem_cons.2 ⟨hdigits c hdigit, of_mem_take_takeWhile⟩
  | case4 _ _ _ harrow =>
    have hbytes : utf8 "=>" = [Char.toUInt8 '=', Char.toUInt8 '>'] := by decide
    obtain ⟨after, hafter⟩ := Option.isSome_iff_exists.1 harrow
    rw [hbytes] at hafter
    obtain ⟨rfl, rfl⟩ := List.cons.inj (Bytes.eq_append_of_after? hafter)
    simp [LexemeKind.holds]
  | case5 _ _ _ _ operator hfind =>
    have hmem := List.mem_of_find?_eq_some hfind
    rw [take_of_startsWith hmem (List.find?_some hfind)]
    exact (longOperators_spec operator hmem).2
  | case6 => exact holds_shortFront c rest

/-- Every byte of a lexeme may stand in a lexeme of its kind. -/
theorem holds_of_front (h : front c rest = (kind, more)) : ∀ b ∈ c :: rest.take more,
    kind.holds b = true := by
  have hholds := holds_front c rest
  rwa [h] at hholds

/-- Every byte of a lexeme of a text may stand in a lexeme of its kind. -/
theorem holds_of_mem_allFrom (h : lexeme ∈ allFrom offset text) :
    ∀ b ∈ lexeme.text, lexeme.kind.holds b = true := by
  fun_induction allFrom offset text with
  | case1 => simp at h
  | case2 offset c rest kind more hfront ih =>
    rcases List.mem_cons.1 h with rfl | h
    · exact holds_of_front hfront
    · exact ih h

/-- A lexeme starts with a byte of the text that may stand in it. -/
theorem exists_holds (h : lexeme ∈ allFrom offset text) :
    ∃ c ∈ text, lexeme.kind.holds c = true := by
  obtain ⟨before, c, rest, more, rfl, -, -, htext⟩ := eq_append_of_mem_allFrom h
  exact ⟨c, by simp, holds_of_mem_allFrom h c (htext ▸ List.mem_cons_self ..)⟩

end Lexeme

namespace LexemeKind

variable {kind : LexemeKind} {c : UInt8}

/-- Blanks stand in strings and between lexemes. -/
theorem isBlankByte_eq_false (h : kind.holds c = true) (hstring : kind ≠ .string)
    (hblank : kind ≠ .blank) :
    Lexeme.isBlankByte c = false := by
  by_contra hbyte
  rw [Bool.not_eq_false, Lexeme.isBlankByte_iff] at hbyte
  revert h
  cases kind with
  | string => exact absurd rfl hstring
  | blank => exact absurd rfl hblank
  | _ => rcases hbyte with rfl | rfl | rfl | rfl <;> decide

/-- Commas stand in strings and on their own. -/
theorem ne_comma (h : kind.holds c = true) (hstring : kind ≠ .string)
    (hcomma : kind ≠ .comma) : c ≠ ',' := by
  rintro rfl
  revert h
  cases kind with
  | string => exact absurd rfl hstring
  | comma => exact absurd rfl hcomma
  | _ => decide

end LexemeKind

/-- The text without its blanks. -/
def Bytes.compact (text : Bytes) : Bytes := text.filter (!Lexeme.isBlankByte ·)

namespace Bytes

variable {text : Bytes} {c : UInt8}

/-- A text is compacted part by part. -/
@[simp] theorem compact_append (text more : Bytes) :
    compact (text ++ more) = compact text ++ compact more :=
  List.filter_append ..

/-- Compacting drops the blank bytes and keeps the others. -/
@[simp] theorem mem_compact : c ∈ compact text ↔ c ∈ text ∧ Lexeme.isBlankByte c = false := by
  simp [compact]

/-- A text of blanks holds nothing else. -/
theorem compact_eq_nil (h : ∀ c ∈ text, Lexeme.isBlankByte c = true) : compact text = [] := by
  rw [compact, List.filter_eq_nil_iff]
  simpa using h

/-- A text without blanks is kept. -/
theorem compact_eq_self (h : ∀ c ∈ text, Lexeme.isBlankByte c = false) : compact text = text := by
  rw [compact, List.filter_eq_self]
  simpa using h

/-- A white space code point is one blank, or it has none. -/
theorem SpacePoint.compact_eq {point : Bytes} (h : SpacePoint point) :
    compact point = [] ∨ compact point = point := by
  by_cases hblank : ∀ c ∈ point, Lexeme.isBlankByte c = false
  · exact .inr (compact_eq_self hblank)
  · simp only [not_forall, Bool.not_eq_false] at hblank
    obtain ⟨c, hmem, hc⟩ := hblank
    rw [h.eq_singleton hmem (Lexeme.isBlankByte_spec hc).2.1]
    exact .inl (compact_eq_nil (List.forall_mem_singleton.2 hc))

/-- Taking the blanks out of a text changes it by more than its ends if it has blanks between
them. -/
theorem trim_compact_eq_iff (text : Bytes) :
    trim (compact text) = trim text ↔ ∀ c ∈ trim text, Lexeme.isBlankByte c = false := by
  constructor
  · intro h c hc
    rw [← h] at hc
    exact (mem_compact.1 (trim_subset _ hc)).2
  · intro h
    induction text using trimInduction with
    | keep text htrim =>
      rw [htrim] at h
      rw [compact_eq_self h]
    | front point rest hpoint ih =>
      rw [hpoint.trim_append] at h ⊢
      rw [compact_append]
      rcases hpoint.compact_eq with hnil | hself
      · rw [hnil, List.nil_append, ih h]
      · rw [hself, hpoint.trim_append, ih h]
    | back point lead hpoint ih =>
      rw [hpoint.trim_append_right] at h ⊢
      rw [compact_append]
      rcases hpoint.compact_eq with hnil | hself
      · rw [hnil, List.append_nil, ih h]
      · rw [hself, hpoint.trim_append_right, ih h]

end Bytes

namespace Lexeme

variable {c : UInt8} {text rest : Bytes} {kind : LexemeKind} {offset more : Nat}

/-- A lexeme that is no string is all blanks or has none. -/
theorem compact_of_holds (h : ∀ b ∈ text, kind.holds b = true) (hstring : kind ≠ .string) :
    Bytes.compact text = if kind = .blank then [] else text := by
  split
  next hblank =>
    subst hblank
    exact Bytes.compact_eq_nil h
  next hblank =>
    exact Bytes.compact_eq_self fun b hb => LexemeKind.isBlankByte_eq_false (h b hb) hstring hblank

/-- Taking the blanks out of lexemes without strings leaves the visible ones. -/
theorem compact_joined {lexemes : List Lexeme}
    (h : ∀ lexeme ∈ lexemes, ∀ b ∈ lexeme.text, lexeme.kind.holds b = true)
    (hstring : ∀ lexeme ∈ lexemes, lexeme.kind ≠ .string) :
    Bytes.compact (joined lexemes) = joined (lexemes.filter (·.kind ≠ .blank)) := by
  induction lexemes with
  | nil => rfl
  | cons lexeme lexemes ih =>
    rw [List.forall_mem_cons] at h hstring
    have hfirst := compact_of_holds h.1 hstring.1
    rw [joined] at ih ⊢
    rw [List.flatMap_cons, Bytes.compact_append, hfirst, ih h.2 hstring.2]
    by_cases hblank : lexeme.kind = .blank <;> simp [hblank, joined]

/-- The visible lexemes of a text without strings are the text without its blanks. -/
theorem joined_visible (h : ∀ lexeme ∈ allFrom offset text, lexeme.kind ≠ .string) :
    joined ((allFrom offset text).filter (·.kind ≠ .blank)) = Bytes.compact text := by
  rw [← compact_joined (fun lexeme => holds_of_mem_allFrom) h, joined_allFrom]

end Lexeme

/-- The first single pipe of a text behind one without pipes. -/
theorem pipeIndex?_append_left {lead : Bytes} (h : ∀ c ∈ lead, c ≠ '|') (text : Bytes) :
    pipeIndex? (lead ++ text) = (pipeIndex? text).map (· + lead.length) := by
  induction lead with
  | nil => simp
  | cons c lead ih =>
    rw [List.forall_mem_cons] at h
    cases hrest : lead ++ text with
    | nil => simp_all [pipeIndex?]
    | cons d rest =>
      rw [List.cons_append, hrest, pipeIndex?, if_neg h.1, ← hrest, ih h.2, Option.map_map]
      rfl

/-- The first single pipe of a text stays the first if no other pipe follows the text. -/
theorem pipeIndex?_append_back {text tail : Bytes} {index : Nat} (h : pipeIndex? text = some index)
    (htail : tail.head? ≠ some (Char.toUInt8 '|')) : pipeIndex? (text ++ tail) = some index := by
  fun_induction pipeIndex? text generalizing index with
  | case1 => cases h
  | case2 =>
    cases tail with
    | nil => exact h
    | cons d tail =>
      have hd : d ≠ '|' := fun hd => htail (hd ▸ rfl)
      simpa [pipeIndex?, hd] using h
  | case3 => cases h
  | case4 text ih =>
    obtain ⟨found, hfound, rfl⟩ := Option.map_eq_some_iff.1 h
    simp [pipeIndex?, ih hfound]
  | case5 d text hd => simpa [pipeIndex?, hd] using h
  | case6 b d text hb ih =>
    obtain ⟨found, hfound, rfl⟩ := Option.map_eq_some_iff.1 h
    have hrest := ih hfound
    rw [List.cons_append] at hrest
    simp [pipeIndex?, hb, hrest]

/-- The text in front of the first single pipe and the text behind it. -/
def atPipe? (text : Bytes) : Option (Bytes × Bytes) :=
  (pipeIndex? text).map fun index => (text.take index, text.drop (index + 1))

section AtPipe

variable {text front back : Bytes}

/-- A text is not cut at a pipe just when it has no single pipe. -/
theorem atPipe?_eq_none_iff : atPipe? text = none ↔ pipeIndex? text = none := Option.map_eq_none_iff

/-- A text without pipes in front of another one goes with what stands before its pipe. -/
theorem atPipe?_append_left {lead : Bytes} (hlead : ∀ c ∈ lead, c ≠ '|') (text : Bytes) :
    atPipe? (lead ++ text) = (atPipe? text).map fun (front, back) => (lead ++ front, back) := by
  rw [atPipe?, pipeIndex?_append_left hlead, atPipe?, Option.map_map, Option.map_map]
  congr 1
  funext index
  have hsum : index + lead.length + 1 = lead.length + (index + 1) := by omega
  simp [List.take_append, List.drop_append, hsum]

/-- Two pipes at the front of a text go with what stands before its single pipe. -/
theorem atPipe?_double (text : Bytes) : atPipe? (Char.toUInt8 '|' :: Char.toUInt8 '|' :: text) =
    (atPipe? text).map fun (front, back) =>
    (Char.toUInt8 '|' :: Char.toUInt8 '|' :: front, back) := by
  rw [atPipe?, pipeIndex?, if_pos rfl, if_pos rfl, atPipe?, Option.map_map, Option.map_map]
  rfl

/-- What follows a text with a single pipe goes with what stands behind its pipe. -/
theorem atPipe?_append {tail : Bytes} (h : atPipe? text = some (front, back))
    (htail : tail.head? ≠ some (Char.toUInt8 '|')) :
    atPipe? (text ++ tail) = some (front, back ++ tail) := by
  obtain ⟨index, hindex, heq⟩ := Option.map_eq_some_iff.1 h
  obtain ⟨before, after, rfl, rfl⟩ := eq_append_of_pipeIndex? hindex
  cases heq
  rw [atPipe?, pipeIndex?_append_back hindex htail]
  simp

/-- A pipe that no other pipe follows, behind a text without pipes. -/
theorem atPipe?_append_pipe {lead : Bytes} (hlead : ∀ c ∈ lead, c ≠ '|')
    (hback : back.head? ≠ some (Char.toUInt8 '|')) :
    atPipe? (lead ++ Char.toUInt8 '|' :: back) = some (lead, back) := by
  have hpipe : atPipe? [Char.toUInt8 '|'] = some ([], []) := rfl
  rw [← List.singleton_append, atPipe?_append_left hlead, atPipe?_append hpipe hback]
  simp

end AtPipe

namespace Parameter

/-- How lexemes spell a parameter: a name, then a pipe and a type, and then nothing or a default. -/
inductive Spells : List Lexeme → Parameter → Prop where
  | bare {name : Lexeme} {rest : List Lexeme} (hname : name.kind = .name)
      (hend : endsWell rest = true) : Spells (name :: rest) ⟨name.text, []⟩
  | tagged {name pipe : Lexeme} {type rest : List Lexeme} (hname : name.kind = .name)
      (hpipe : pipe.kind = .pipe)
      (htype : ∀ lexeme ∈ type, isTypeLexeme lexeme = true) (hne : type ≠ [])
      (hend : endsWell rest = true) :
      Spells (name :: pipe :: (type ++ rest)) ⟨name.text, Lexeme.joined type⟩

/-- A parameter that is read as lexemes is spelled by them. -/
theorem spells_of_ofLexemes? {lexemes : List Lexeme} {parameter : Parameter}
    (h : ofLexemes? lexemes = some parameter) :
    Spells lexemes parameter := by
  match lexemes with
  | [] => cases h
  | [name] =>
    simp only [ofLexemes?, Option.ite_none_left_eq_some, not_not, Option.some.injEq] at h
    obtain ⟨hname, rfl⟩ := h
    exact .bare hname rfl
  | name :: second :: rest =>
    simp only [ofLexemes?, Option.ite_none_left_eq_some, not_not] at h
    obtain ⟨hname, h⟩ := h
    split at h
    next hpipe =>
      simp only [Option.ite_none_right_eq_some, Option.some.injEq,
        Bool.and_eq_true, Bool.not_eq_true', List.isEmpty_eq_false_iff] at h
      obtain ⟨⟨hne, hend⟩, rfl⟩ := h
      have hspells := Spells.tagged hname hpipe (fun _ => List.mem_takeWhile_imp) hne hend
      rwa [List.takeWhile_append_dropWhile] at hspells
    next hpipe =>
      simp only [Option.ite_none_right_eq_some, Option.some.injEq] at h
      obtain ⟨hend, rfl⟩ := h
      exact .bare hname hend

/-- The tag of a piece between commas: the text in front of its single pipe is the name, and the
text behind it, up to an equals sign, is the type. -/
def cutTag? (piece : Bytes) : Option Parameter :=
  (atPipe? piece).map fun (front, back) => ⟨Bytes.trim front, Bytes.trim (back.takeWhile (· ≠ '='))⟩

/-- A piece has no tag just when it is not cut at a pipe. -/
theorem cutTag?_eq_none_iff {piece : Bytes} : cutTag? piece = none ↔ atPipe? piece = none :=
  Option.map_eq_none_iff

/-- The parameter of a piece is its tag, if it has one. -/
theorem ofPiece_eq (piece : Bytes) : ofPiece piece = (cutTag? piece).getD ⟨piece, []⟩ := by
  rw [ofPiece, cutTag?, atPipe?]
  cases pipeIndex? piece <;> rfl

/-- White space in front of a piece does not count for its tag. -/
theorem cutTag?_append_left {point : Bytes} (hpoint : Bytes.SpacePoint point) (piece : Bytes) :
    cutTag? (point ++ piece) = cutTag? piece := by
  rw [cutTag?, atPipe?_append_left fun c hc => (hpoint.isSpaceByte c hc).ne_pipe,
    cutTag?, Option.map_map]
  congr 1
  funext parts
  simp [hpoint.trim_append]

/-- White space behind a text does not count for its part up to an equals sign. -/
theorem trim_takeWhile_append {point : Bytes} (hpoint : Bytes.SpacePoint point) (text : Bytes) :
    Bytes.trim ((text ++ point).takeWhile (· ≠ '=')) = Bytes.trim (text.takeWhile (· ≠ '=')) := by
  have hplain : ∀ c ∈ point, decide (c ≠ Char.toUInt8 '=') = true := by
    intro c hc
    refine decide_eq_true ?_
    rintro rfl
    exact absurd (hpoint.isSpaceByte _ hc) (by decide)
  rw [List.takeWhile_append]
  split
  next hall =>
    rw [List.takeWhile_eq_self_iff.2 hplain, hpoint.trim_append_right,
      List.Sublist.eq_of_length (List.takeWhile_sublist _) hall]
  next => rfl

/-- White space behind a piece does not count for its tag. -/
theorem cutTag?_append_right {point : Bytes} (hpoint : Bytes.SpacePoint point) (piece : Bytes) :
    cutTag? (piece ++ point) = cutTag? piece := by
  have hplain : ∀ c ∈ point, c ≠ '|' := fun c hc => (hpoint.isSpaceByte c hc).ne_pipe
  cases hcut : atPipe? piece with
  | none =>
    have hnone : atPipe? (piece ++ point) = none := by
      rwa [atPipe?_eq_none_iff, pipeIndex?_append_right piece hplain, ← atPipe?_eq_none_iff]
    rw [cutTag?, hnone, cutTag?, hcut]
  | some parts =>
    have hhead : point.head? ≠ some (Char.toUInt8 '|') :=
      fun hhead => hplain _ (List.mem_of_head? hhead) rfl
    rw [cutTag?, atPipe?_append hcut hhead, cutTag?, hcut, Option.map_some, Option.map_some]
    dsimp only
    rw [trim_takeWhile_append hpoint]

/-- White space around a piece does not count for its tag. -/
@[simp] theorem cutTag?_trim (piece : Bytes) : cutTag? piece.trim = cutTag? piece := by
  induction piece using Bytes.trimInduction with
  | keep piece htrim => rw [htrim]
  | front point rest hpoint ih => rw [hpoint.trim_append, ih, cutTag?_append_left hpoint]
  | back point lead hpoint ih => rw [hpoint.trim_append_right, ih, cutTag?_append_right hpoint]

end Parameter

end TagScript
