import Mathlib.Algebra.Order.BigOperators.Group.List
import Mathlib.Data.List.Forall2
import TagScript.Proofs.LexemeTexts

/-!
# Tags in pieces of text

A parameter tag is cut out of a piece between two commas. If a text is put together from lines
that each had their own pieces, the last piece of a line goes on in the first piece of the next
one, and the tag of the two together need not be the tags of both: it is the same, up to white
space, if one of them has a tag and the other one adds neither to its name nor to its type.
-/

namespace TagScript

open Utf8

namespace Bytes

variable {text more : Bytes} {c : UInt8}

/-- The bytes of a text that are not white space. -/
def solid (text : Bytes) : Bytes :=
  ((text.zip (spaceMask text)).filter fun (_, space) => !space).map Prod.fst

/-- An empty text has no solid bytes. -/
@[simp] theorem solid_nil : solid [] = [] := by simp [solid]

/-- Where the white space of a text can be cut, its solid bytes are cut. -/
theorem solid_of_mask (h : spaceMask (text ++ more) = spaceMask text ++ spaceMask more) :
    solid (text ++ more) = solid text ++ solid more := by
  rw [solid, h, List.zip_append (length_spaceMask text).symm, List.filter_append, List.map_append]
  rfl

/-- The solid bytes before an ASCII byte and behind it. -/
theorem solid_append_ascii (h : c < 0x80) (text rest : Bytes) :
    solid (text ++ c :: rest) = solid text ++ (solid [c] ++ solid rest) := by
  rw [solid_of_mask (spaceMask_append (isCut_ascii h rest)), ← List.singleton_append,
    solid_of_mask (spaceMask_ascii_append h rest)]

/-- White space has no solid bytes. -/
theorem solid_of_isSpace (h : IsSpace text) : solid text = [] := by
  rw [solid, h, List.map_eq_nil_iff, List.filter_eq_nil_iff]
  rintro ⟨c, space⟩ hmem
  obtain rfl : space = true := List.eq_of_mem_replicate (List.of_mem_zip hmem).2
  simp

/-- Trimming takes no solid byte away. -/
@[simp] theorem solid_trim (text : Bytes) : solid (trim text) = solid text := by
  induction text using trimInduction with
  | keep text htrim => rw [htrim]
  | front point rest hpoint ih =>
    rw [hpoint.trim_append, ih, solid_of_mask (by rw [hpoint.spaceMask_append, hpoint.isSpace]),
      solid_of_isSpace hpoint.isSpace, List.nil_append]
  | back point lead hpoint ih =>
    rw [hpoint.trim_append_right, ih,
      solid_of_mask (spaceMask_append (by simpa using hpoint.isCut [])),
      solid_of_isSpace hpoint.isSpace, List.append_nil]

/-- Only bytes of the text are solid. -/
theorem solid_subset (text : Bytes) : solid text ⊆ text := by
  intro c hc
  obtain ⟨⟨d, space⟩, hmem, rfl⟩ := List.mem_map.1 hc
  exact (List.of_mem_zip (List.mem_of_mem_filter hmem)).1

/-- Two bytes that are read as white space encode it. -/
theorem isSpacePair_of_two? {a b : UInt8} {n : Nat} (h : two? a b = some n)
    (hspace : isSpacePoint n = true) :
    isSpacePair a b = true := by
  simp only [two?, isContinuation, payload, Option.ite_none_right_eq_some,
    Option.some.injEq, Bool.and_eq_true, decide_eq_true_eq, UInt8.le_iff_toNat_le,
    UInt8.reduceToNat] at h
  simp only [isSpacePoint, Bool.and_eq_true, Bool.or_eq_true, decide_eq_true_eq] at hspace
  simp only [isSpacePair, Bool.and_eq_true, Bool.or_eq_true, decide_eq_true_eq,
    ← UInt8.toNat_inj, UInt8.reduceToNat]
  omega

/-- Three bytes that are read as white space encode it. -/
theorem isSpaceTriple_of_three? {a b c : UInt8} {n : Nat} (h : three? a b c = some n)
    (hspace : isSpacePoint n = true) :
    isSpaceTriple a b c = true := by
  simp only [three?, isContinuation, payload, Option.ite_none_right_eq_some,
    Option.some.injEq, Bool.and_eq_true, decide_eq_true_eq, UInt8.le_iff_toNat_le,
    UInt8.reduceToNat] at h
  simp only [isSpacePoint, Bool.and_eq_true, Bool.or_eq_true, decide_eq_true_eq, or_assoc] at hspace
  simp only [isSpaceTriple, Bool.and_eq_true, Bool.or_eq_true, decide_eq_true_eq, ← UInt8.toNat_inj,
    UInt8.le_iff_toNat_le, UInt8.reduceToNat]
  have hlow := of_decide_eq_true h.1.1.2
  have ha : a.toNat = 224 + n / 4096 := by omega
  have hb : b.toNat = 128 + n / 64 % 64 := by omega
  have hc : c.toNat = 128 + n % 64 := by omega
  obtain ⟨-, hn⟩ := h
  rw [hn] at hlow
  clear hn
  rcases hspace with h | h | h | h | h | h | h | h | h | h | h <;> omega

/-- No four bytes are read as white space. -/
theorem isSpacePoint_of_four? {a b c d : UInt8} {n : Nat} (h : four? a b c d = some n) :
    isSpacePoint n = false := by
  simp only [four?, Option.ite_none_right_eq_some, Option.some.injEq, Bool.and_eq_true,
    decide_eq_true_eq] at h
  rw [← Bool.not_eq_true]
  simp only [isSpacePoint, Bool.and_eq_true, Bool.or_eq_true, decide_eq_true_eq]
  omega

/-- A text that starts with a white space piece starts with a white space code point. -/
theorem exists_spacePoint_of_front {a : UInt8} {rest : Bytes}
    (h : (front a rest).1.isSpace = true) :
    ∃ point more, SpacePoint point ∧ a :: rest = point ++ more := by
  by_cases hascii : a < 0x80
  · have hmask := spaceMask_cons a rest
    rw [spaceMask_ascii hascii, h] at hmask
    exact ⟨[a], rest, .one (List.cons.inj hmask).1, rfl⟩
  · unfold front at h
    rw [if_neg hascii] at h
    match rest with
    | [] => exact Bool.noConfusion h
    | b :: rest =>
      dsimp only at h
      split at h
      next n htwo => exact ⟨[a, b], rest, .two (isSpacePair_of_two? htwo h), rfl⟩
      next =>
        match rest with
        | [] => exact Bool.noConfusion h
        | c :: rest =>
          dsimp only at h
          split at h
          next n hthree => exact ⟨[a, b, c], rest, .three (isSpaceTriple_of_three? hthree h), rfl⟩
          next =>
            match rest with
            | [] => exact Bool.noConfusion h
            | d :: rest =>
              dsimp only at h
              split at h
              next n hfour =>
                have hspace : isSpacePoint n = true := h
                rw [isSpacePoint_of_four? hfour] at hspace
                exact Bool.noConfusion hspace
              next => exact Bool.noConfusion h

/-- A text is blank if it has no solid bytes. -/
theorem solid_eq_nil_iff : solid text = [] ↔ text.isBlank = true := by
  rw [isBlank, List.isEmpty_iff]
  constructor
  · intro h
    induction text using trimStartInduction with
    | drop point rest hpoint ih =>
      rw [solid_of_mask (by rw [hpoint.spaceMask_append, hpoint.isSpace])] at h
      rw [hpoint.trimStart_append, ih (List.append_eq_nil_iff.1 h).2]
    | keep text hkeep =>
      cases text with
      | nil => rfl
      | cons a rest =>
        -- the first byte would be solid unless a white space code point starts with it
        have hspace : (front a rest).1.isSpace = true := by
          rw [solid, List.map_eq_nil_iff, spaceMask_cons, List.replicate_succ,
            List.cons_append, List.zip_cons_cons, List.filter_eq_nil_iff] at h
          simpa using h _ (List.mem_cons_self ..)
        obtain ⟨point, more, hpoint, heq⟩ := exists_spacePoint_of_front hspace
        rw [heq] at hkeep
        exact absurd hkeep (hpoint.trimStart_ne more)
  · intro h
    rw [← solid_trim, trim, h]
    rfl

/-- A text is blank if nothing is left of it when it is trimmed. -/
theorem trim_eq_nil_iff : trim text = [] ↔ text.isBlank = true := by
  constructor
  · intro h
    rw [← solid_eq_nil_iff, ← solid_trim, h, solid_nil]
  · intro h
    rw [trim, List.isEmpty_iff.1 h]
    rfl

/-- A blank text in front of another one is trimmed away. -/
theorem trim_append_of_isBlank {lead : Bytes} (h : lead.isBlank = true) (text : Bytes) :
    trim (lead ++ text) = trim text := by
  rw [isBlank, List.isEmpty_iff] at h
  induction lead using trimStartInduction with
  | keep lead hkeep =>
    rw [hkeep] at h
    rw [h, List.nil_append]
  | drop point rest hpoint ih =>
    rw [hpoint.trimStart_append] at h
    rw [List.append_assoc, hpoint.trim_append, ih h]

/-- The lines in front of a text. -/
def lines (parts : List Bytes) : Bytes := parts.flatMap fun part => part ++ [Char.toUInt8 '\n']

/-- The lines below a text. -/
def below (parts : List Bytes) : Bytes := parts.flatMap fun part => Char.toUInt8 '\n' :: part

/-- Without parts there are no lines. -/
@[simp] theorem lines_nil : lines [] = [] := rfl

/-- The first of the lines in front of a text. -/
theorem lines_cons_append (part : Bytes) (parts : List Bytes) (text : Bytes) :
    lines (part :: parts) ++ text = part ++ Char.toUInt8 '\n' :: (lines parts ++ text) := by
  simp [lines]

/-- A line break is not solid. -/
theorem solid_append_line (text rest : Bytes) :
    solid (text ++ Char.toUInt8 '\n' :: rest) = solid text ++ solid rest := by
  have hline : solid [Char.toUInt8 '\n'] = [] := by
    rw [solid_eq_nil_iff]
    decide
  rw [solid_append_ascii (by decide), hline, List.nil_append]

/-- The solid bytes of lines and of the text behind them. -/
theorem solid_lines_append (parts : List Bytes) (text : Bytes) :
    solid (lines parts ++ text) = parts.flatMap solid ++ solid text := by
  induction parts with
  | nil => rfl
  | cons part parts ih =>
    rw [lines_cons_append, solid_append_line, ih, List.flatMap_cons, List.append_assoc]

/-- Lines in front of a text are trimmed away if they are blank. -/
theorem trim_lines_append_iff (parts : List Bytes) (text : Bytes) :
    trim (lines parts ++ text) = trim text ↔ ∀ part ∈ parts, part.isBlank = true := by
  constructor
  · intro h
    have hsolid := congrArg solid h
    rw [solid_trim, solid_trim, solid_lines_append, List.append_left_eq_self,
      List.flatMap_eq_nil_iff] at hsolid
    exact fun part hpart => solid_eq_nil_iff.1 (hsolid part hpart)
  · intro h
    induction parts with
    | nil => rfl
    | cons part parts ih =>
      rw [List.forall_mem_cons] at h
      have hline : SpacePoint [Char.toUInt8 '\n'] := .one (by decide)
      rw [lines_cons_append, trim_append_of_isBlank h.1, ← List.singleton_append,
        hline.trim_append, ih h.2]

/-- The last piece of a text goes on in the first piece of the text behind it. -/
theorem split_append_eq {a b last first : Bytes} {init rest : List Bytes}
    (ha : a.split c = init ++ [last])
    (hb : b.split c = first :: rest) : (a ++ b).split c = init ++ (last ++ first) :: rest := by
  obtain ⟨init', last', first', rest', ha', hb', happend⟩ := split_append c a b
  obtain ⟨rfl, hlast⟩ := List.append_inj' (ha.symm.trans ha') rfl
  obtain ⟨rfl, rfl⟩ := List.cons.inj (hb.symm.trans hb')
  rw [happend, List.singleton_inj.1 hlast]

/-- The first of joined texts stands in front. -/
theorem join_cons (separator text : Bytes) (texts : List Bytes) :
    join separator (text :: texts) = text ++ texts.flatMap (separator ++ ·) := by
  rw [join]
  induction texts generalizing text with
  | nil => simp
  | cons next texts ih =>
    rw [List.intercalate_cons_cons, ih]
    simp

/-- Joined lines are one of them with those in front of it and those below it. -/
theorem join_lines (before : List Bytes) (part : Bytes) (behind : List Bytes) :
    join [Char.toUInt8 '\n'] (before ++ part :: behind) = lines before ++
      (part ++ below behind) := by
  induction before with
  | nil =>
    rw [List.nil_append, join_cons]
    rfl
  | cons first before ih =>
    rw [lines_cons_append, ← ih, List.cons_append, join_cons]
    cases before with
    | nil =>
      rw [List.nil_append, List.flatMap_cons, join_cons]
      rfl
    | cons second before =>
      rw [List.cons_append, List.flatMap_cons, join_cons]
      rfl

end Bytes

open Bytes

section Groups

variable {α β γ : Type} {R : β → γ → Prop} {f : α → List β} {g : α → List γ} {xs : List α}

/-- A list that is put together from longer groups is longer. -/
theorem length_flatMap_le (h : ∀ x ∈ xs, (f x).length ≤ (g x).length) :
    (xs.flatMap f).length ≤ (xs.flatMap g).length := by
  rw [List.length_flatMap, List.length_flatMap]
  exact List.sum_le_sum h

/-- Lists that are put together from groups are equally long only if all groups are, if no group of
the first one is longer. -/
theorem length_eq_of_flatMap (h : ∀ x ∈ xs, (f x).length ≤ (g x).length)
    (hlength : (xs.flatMap f).length = (xs.flatMap g).length) :
    ∀ x ∈ xs, (f x).length = (g x).length := by
  induction xs with
  | nil => simp
  | cons x xs ih =>
    rw [List.forall_mem_cons] at h ⊢
    rw [List.flatMap_cons, List.flatMap_cons, List.length_append, List.length_append] at hlength
    have hrest := length_flatMap_le h.2
    exact ⟨by omega, ih h.2 (by omega)⟩

/-- Lists that are put together from groups agree exactly when they agree in every group, if no
group of the first one is longer. -/
theorem forall₂_flatMap_iff (h : ∀ x ∈ xs, (f x).length ≤ (g x).length) :
    List.Forall₂ R (xs.flatMap f) (xs.flatMap g) ↔ ∀ x ∈ xs, List.Forall₂ R (f x) (g x) := by
  induction xs with
  | nil => simp
  | cons x xs ih =>
    rw [List.forall_mem_cons] at h
    rw [List.flatMap_cons, List.flatMap_cons, List.forall_mem_cons, ← ih h.2]
    constructor
    · intro hboth
      have hlength := length_eq_of_flatMap (List.forall_mem_cons.2 h) hboth.length_eq x
        (List.mem_cons_self ..)
      have hfirst := List.forall₂_take_append _ _ _ hboth
      have hbehind := List.forall₂_drop_append _ _ _ hboth
      rw [List.take_left' hlength] at hfirst
      rw [List.drop_left' hlength] at hbehind
      exact ⟨hfirst, hbehind⟩
    · exact fun hboth => List.rel_append hboth.1 hboth.2

end Groups

/-- The first single pipe behind a line without one. -/
theorem pipeIndex?_append_line {lead : Bytes} (h : pipeIndex? lead = none) (text : Bytes) :
    pipeIndex? (lead ++ Char.toUInt8 '\n' :: text) = (pipeIndex? text).map
      (· + (lead.length + 1)) := by
  have hline : Char.toUInt8 '\n' ≠ '|' := by decide
  have hfirst : pipeIndex? (Char.toUInt8 '\n' :: text) = (pipeIndex? text).map (· + 1) := by
    cases text <;> simp [pipeIndex?, hline]
  fun_induction pipeIndex? lead with
  | case1 => exact hfirst
  | case2 => cases h
  | case3 b hb => simp [pipeIndex?, hb, hfirst, Function.comp_def]
  | case4 lead ih =>
    rw [List.cons_append, List.cons_append, pipeIndex?, if_pos rfl, if_pos rfl,
      ih (Option.map_eq_none_iff.1 h), Option.map_map]
    rfl
  | case5 => cases h
  | case6 b d lead hb ih =>
    rw [List.cons_append, List.cons_append, pipeIndex?, if_neg hb, ← List.cons_append,
      ih (Option.map_eq_none_iff.1 h), Option.map_map]
    rfl

/-- Lines without a single pipe go with what stands before the pipe of the text behind them. -/
theorem atPipe?_lines_append {parts : List Bytes} (h : ∀ part ∈ parts, atPipe? part = none)
    (text : Bytes) :
    atPipe? (lines parts ++ text) = (atPipe? text).map fun (front, back) =>
      (lines parts ++ front, back) := by
  induction parts with
  | nil => simp
  | cons part parts ih =>
    rw [List.forall_mem_cons, atPipe?_eq_none_iff] at h
    have hline : ∀ rest, atPipe? (part ++ Char.toUInt8 '\n' :: rest) =
        (atPipe? rest).map fun (front, back) => (part ++ Char.toUInt8 '\n' :: front, back) := by
      intro rest
      rw [atPipe?, pipeIndex?_append_line h.1, atPipe?, Option.map_map, Option.map_map]
      congr 1
      funext index
      have hsum : index + (part.length + 1) + 1 = part.length + (index + 1 + 1) := by omega
      have hmore : index + (part.length + 1) - part.length = index + 1 := by omega
      have hle : part.length ≤ index + (part.length + 1) := by omega
      simp [List.take_append, List.drop_append, hsum, hmore, hle]
    rw [lines_cons_append, hline, ih h.2, Option.map_map]
    congr 1
    funext parts
    simp [lines_cons_append]

namespace Parameter

/-- Two parameters that are the same up to white space in their types. -/
structure Agrees (first second : Parameter) : Prop where
  name : first.name = second.name
  type : solid first.type = solid second.type

/-- Parameters agree one by one if they have the same names and the same types but for white
space. -/
theorem forall₂_agrees_iff {first second : List Parameter} : List.Forall₂ Agrees first second ↔
    first.map (fun parameter => (parameter.name, solid parameter.type)) =
      second.map fun parameter => (parameter.name, solid parameter.type) := by
  have hagrees : ∀ one other : Parameter, one.Agrees other ↔ (one.name, solid one.type) =
      (other.name, solid other.type) :=
    fun one other =>
      ⟨fun h => Prod.ext h.name h.type, fun h => ⟨congrArg Prod.fst h, congrArg Prod.snd h⟩⟩
  rw [← List.forall₂_eq_eq_eq, List.forall₂_map_left_iff, List.forall₂_map_right_iff]
  exact ⟨.imp fun one other => (hagrees one other).1, .imp fun one other => (hagrees one other).2⟩

/-- Whether a piece has no tag. -/
def lacksTag (piece : Bytes) : Bool := (atPipe? piece).isNone

/-- A piece lacks a tag just when none is cut from it. -/
theorem lacksTag_iff {piece : Bytes} : lacksTag piece = true ↔ cutTag? piece = none := by
  rw [lacksTag, Option.isNone_iff_eq_none, cutTag?_eq_none_iff]

/-- Whether the tag of some lines together is the tag that one of them has: no other one has a tag,
those in front of it are blank, and so are those below it up to an equals sign, unless one follows
the tag in its own line. -/
def wholeTag (parts : List Bytes) : Bool :=
  match parts.dropWhile lacksTag with
  | [] => true
  | tagged :: behind =>
    (parts.takeWhile lacksTag).all isBlank && behind.all lacksTag &&
      ((atPipe? tagged).any (fun (_, back) => back.contains '=') ||
        isBlank ((below behind).takeWhile (· ≠ '=')))

/-- Lines below a text add nothing to its part up to an equals sign if there is one in it, or if
they are blank up to the next one. -/
theorem solid_takeWhile_below_iff (back : Bytes) (parts : List Bytes) :
    solid ((back ++ below parts).takeWhile (· ≠ Char.toUInt8 '=')) =
      solid (back.takeWhile (· ≠ Char.toUInt8 '=')) ↔
      Char.toUInt8 '=' ∈ back ∨
      isBlank ((below parts).takeWhile (· ≠ Char.toUInt8 '=')) = true := by
  rw [List.takeWhile_append]
  by_cases hmem : Char.toUInt8 '=' ∈ back
  · have hlength : ¬ (back.takeWhile (· ≠ Char.toUInt8 '=')).length = back.length := by
      intro hlength
      have hself := List.Sublist.eq_of_length (List.takeWhile_sublist _) hlength
      rw [List.takeWhile_eq_self_iff] at hself
      simpa using hself _ hmem
    rw [if_neg hlength]
    simp [hmem]
  · have hself : back.takeWhile (· ≠ Char.toUInt8 '=') = back := by
      rw [List.takeWhile_eq_self_iff]
      intro c hc
      exact decide_eq_true fun heq => hmem (heq ▸ hc)
    rw [hself, if_pos rfl]
    cases parts with
    | nil => simp [below, isBlank, trimStart]
    | cons part parts =>
      have hline : (below (part :: parts)).takeWhile (· ≠ Char.toUInt8 '=') =
          Char.toUInt8 '\n' :: (part ++ below parts).takeWhile (· ≠ Char.toUInt8 '=') := by
        simp [below, show Char.toUInt8 '\n' ≠ Char.toUInt8 '=' by decide]
      have hsolid := solid_append_line [] ((part ++ below parts).takeWhile (· ≠ Char.toUInt8 '='))
      rw [List.nil_append] at hsolid
      rw [hline, solid_append_line, ← solid_eq_nil_iff, hsolid]
      simp [hmem]

/-- The tag of lines of which one is the first that has a tag. -/
theorem agrees_lines_iff {before : List Bytes} {tagged front back : Bytes}
    (hbefore : ∀ part ∈ before, cutTag? part = none) (htagged : atPipe? tagged = some (front, back))
    (behind : List Bytes) :
    List.Forall₂ Agrees (cutTag? (join [Char.toUInt8 '\n'] (before ++ tagged :: behind))).toList
        ((before ++ tagged :: behind).filterMap cutTag?) ↔
      (∀ part ∈ before, part.isBlank = true) ∧ (∀ part ∈ behind, cutTag? part = none) ∧
        (Char.toUInt8 '=' ∈ back ∨
          isBlank ((below behind).takeWhile (· ≠ Char.toUInt8 '=')) = true) := by
  have hhead : (below behind).head? ≠ some (Char.toUInt8 '|') := by
    cases behind <;> simp [below, show Char.toUInt8 '\n' ≠ Char.toUInt8 '|' by decide]
  have hnone : before.filterMap cutTag? = [] := List.filterMap_eq_nil_iff.2 hbefore
  have hjoined : cutTag? (join [Char.toUInt8 '\n'] (before ++ tagged :: behind)) =
      some ⟨trim (lines before ++ front), trim ((back ++ below behind).takeWhile (· ≠ '='))⟩ := by
    rw [join_lines, cutTag?, atPipe?_lines_append fun part hpart => cutTag?_eq_none_iff.1
      (hbefore part hpart), atPipe?_append htagged hhead]
    rfl
  have hown : cutTag? tagged = some ⟨trim front, trim (back.takeWhile (· ≠ '='))⟩ := by
    rw [cutTag?, htagged]
    rfl
  rw [hjoined, List.filterMap_append, hnone, List.nil_append, List.filterMap_cons_some hown,
    Option.toList_some, List.forall₂_cons, List.forall₂_nil_left_iff, List.filterMap_eq_nil_iff,
    ← trim_lines_append_iff before front,
    ← solid_takeWhile_below_iff]
  constructor
  · rintro ⟨hagrees, hbehind⟩
    have htype := hagrees.type
    rw [solid_trim, solid_trim] at htype
    exact ⟨hagrees.name, hbehind, htype⟩
  · rintro ⟨hname, hbehind, htype⟩
    refine ⟨⟨hname, ?_⟩, hbehind⟩
    rw [solid_trim, solid_trim]
    exact htype

/-- Lines have no tag together if none of them has one. -/
theorem cutTag?_join_eq_none_iff {parts : List Bytes} :
    cutTag? (join [Char.toUInt8 '\n'] parts) = none ↔ ∀ part ∈ parts, cutTag? part = none := by
  simp only [cutTag?_eq_none_iff, atPipe?_eq_none_iff]
  exact pipeIndex?_join (by decide) parts

/-- The tag of some lines together agrees with the tags of these lines exactly when it is whole. -/
theorem agrees_join_iff (parts : List Bytes) :
    List.Forall₂ Agrees (cutTag? (join [Char.toUInt8 '\n'] parts)).toList
      (parts.filterMap cutTag?) ↔
      wholeTag parts = true := by
  have hsplit : parts.takeWhile lacksTag ++ parts.dropWhile lacksTag = parts :=
    List.takeWhile_append_dropWhile
  have hbefore : ∀ part ∈ parts.takeWhile lacksTag, cutTag? part = none := fun part hpart =>
    lacksTag_iff.1 (List.mem_takeWhile_imp hpart)
  have hfirst := List.head?_dropWhile_not lacksTag parts
  rw [wholeTag]
  cases hdrop : parts.dropWhile lacksTag with
  | nil =>
    rw [hdrop, List.append_nil] at hsplit
    rw [hsplit] at hbefore
    rw [cutTag?_join_eq_none_iff.2 hbefore, List.filterMap_eq_nil_iff.2 hbefore]
    simp
  | cons tagged behind =>
    rw [hdrop] at hsplit hfirst
    have hhas : ¬ atPipe? tagged = none := by
      rw [← Option.isNone_iff_eq_none, Bool.not_eq_true]
      exact hfirst
    obtain ⟨⟨front, back⟩, hcut⟩ := Option.ne_none_iff_exists'.1 hhas
    have hlines := agrees_lines_iff hbefore hcut behind
    rw [hsplit] at hlines
    dsimp only
    rw [hlines, hcut]
    simp [lacksTag_iff, and_assoc]

/-- Some of these lines have a tag if all of them together do. -/
theorem length_join_le (parts : List Bytes) :
    (cutTag? (join [Char.toUInt8 '\n'] parts)).toList.length ≤
    (parts.filterMap cutTag?).length := by
  cases hjoined : cutTag? (join [Char.toUInt8 '\n'] parts) with
  | none => exact Nat.zero_le _
  | some tag =>
    refine List.length_pos_of_ne_nil fun hnil => ?_
    rw [cutTag?_join_eq_none_iff.2 (List.filterMap_eq_nil_iff.1 hnil)] at hjoined
    cases hjoined

/-- The pieces between commas of texts that are joined line by line, each as the pieces of the
single texts that it is made of. The last piece of a text goes on in the first one of the next
text. -/
def fragments : List Bytes → List (List Bytes)
  | [] => [[]]
  | text :: texts =>
    match fragments texts with
    | [] => []
    | first :: rest =>
      (text.split ',').dropLast.map (fun piece => [piece]) ++
        ((text.split ',').getLastD [] :: first) :: rest

/-- How a text goes on in the fragments of those behind it. -/
theorem fragments_cons (text : Bytes) (texts : List Bytes) : ∃ init last first rest,
    text.split ',' = init ++ [last] ∧ fragments texts = first :: rest ∧
      fragments (text :: texts) = init.map (fun piece => [piece]) ++ (last :: first) :: rest := by
  have hne : fragments texts ≠ [] := by
    induction texts with
    | nil => exact List.cons_ne_nil _ _
    | cons next texts ih =>
      obtain ⟨first, rest, hfragments⟩ := List.exists_cons_of_ne_nil ih
      simp [fragments, hfragments]
  obtain ⟨first, rest, hfragments⟩ := List.exists_cons_of_ne_nil hne
  refine ⟨(text.split ',').dropLast, (text.split ',').getLast (split_ne_nil ',' text), first, rest,
    (List.dropLast_append_getLast _).symm, hfragments, ?_⟩
  rw [fragments, hfragments, List.getLastD_eq_getLast?,
    List.getLast?_eq_some_getLast (split_ne_nil ',' text)]
  rfl

/-- The fragments of some texts have parts. -/
theorem ne_nil_of_mem_fragments {text : Bytes} {texts : List Bytes} :
    ∀ parts ∈ fragments (text :: texts), parts ≠ [] := by
  induction texts generalizing text with
  | nil =>
    obtain ⟨init, last, first, rest, -, hfragments, hcons⟩ := fragments_cons text []
    obtain ⟨rfl, rfl⟩ := List.cons.inj hfragments
    rw [hcons]
    simp [or_imp, forall_and]
  | cons next texts ih =>
    obtain ⟨init, last, first, rest, -, hfragments, hcons⟩ := fragments_cons text (next :: texts)
    have hrest : ∀ parts ∈ rest, parts ≠ [] := fun parts hparts =>
      ih parts (hfragments ▸ List.mem_cons_of_mem _ hparts)
    rw [hcons]
    simpa [or_imp, forall_and] using hrest

/-- The fragments of joined texts are their pieces between commas. -/
theorem map_join_fragments (texts : List Bytes) :
    (fragments texts).map (join [Char.toUInt8 '\n']) =
    (join [Char.toUInt8 '\n'] texts).split ',' := by
  have hpiece : ∀ pieces : List Bytes,
      pieces.map (join [Char.toUInt8 '\n'] ∘ fun piece => [piece]) = pieces := by
    intro pieces
    simp [join, Function.comp_def]
  induction texts with
  | nil => simp [fragments, join, split]
  | cons text texts ih =>
    obtain ⟨init, last, first, rest, hsplit, hfragments, hcons⟩ := fragments_cons text texts
    rw [hfragments, List.map_cons] at ih
    rw [hcons, List.map_append, List.map_map, hpiece, List.map_cons]
    cases texts with
    | nil =>
      obtain ⟨rfl, rfl⟩ := List.cons.inj hfragments
      simp [join, hsplit]
    | cons next texts =>
      -- the line break stands in front of the first piece of the texts behind
      obtain ⟨part, parts, rfl⟩ := List.exists_cons_of_ne_nil
        (ne_nil_of_mem_fragments first (hfragments ▸ List.mem_cons_self ..))
      obtain ⟨_, _, hbehind, hline⟩ :=
        split_append_of_not_mem (by decide : Char.toUInt8 ',' ∉ [Char.toUInt8 '\n'])
        (join [Char.toUInt8 '\n'] (next :: texts))
      rw [← ih] at hbehind
      obtain ⟨rfl, rfl⟩ := List.cons.inj hbehind
      have htext : join [Char.toUInt8 '\n'] (text :: next :: texts) =
          text ++ ([Char.toUInt8 '\n'] ++ join [Char.toUInt8 '\n'] (next :: texts)) := by
        simp [join, List.intercalate_cons_cons]
      rw [htext, split_append_eq hsplit hline]
      simp [join, List.intercalate_cons_cons]

/-- The parts of the fragments are the pieces of the single texts. -/
theorem flatten_fragments (texts : List Bytes) :
    (fragments texts).flatten = texts.flatMap (split ',') := by
  induction texts with
  | nil => rfl
  | cons text texts ih =>
    obtain ⟨init, last, first, rest, hsplit, hfragments, hcons⟩ := fragments_cons text texts
    rw [hfragments, List.flatten_cons] at ih
    rw [hcons, List.flatMap_cons, ← ih, hsplit]
    simp [← List.flatMap_def]

/-- The tags that are cut out of the pieces of a text. -/
def cutTags (text : Bytes) : List Parameter := (text.split ',').filterMap cutTag?

/-- The tags of joined texts, fragment by fragment. -/
theorem cutTags_join (texts : List Bytes) : cutTags (join [Char.toUInt8 '\n'] texts) =
    (fragments texts).flatMap fun parts => (cutTag? (join [Char.toUInt8 '\n'] parts)).toList := by
  rw [cutTags, ← map_join_fragments, List.filterMap_map, List.filterMap_eq_flatMap_toList]
  rfl

/-- The tags of single texts, fragment by fragment. -/
theorem flatMap_cutTags (texts : List Bytes) :
    texts.flatMap cutTags = (fragments texts).flatMap (List.filterMap cutTag?) := by
  rw [List.flatMap_def, List.flatMap_def, ← List.filterMap_flatten, flatten_fragments,
    List.filterMap_flatMap, List.flatMap_def]
  rfl

/-- Joining texts line by line cuts no tags out that the single texts do not have. -/
theorem length_cutTags_join_le (texts : List Bytes) :
    (cutTags (join [Char.toUInt8 '\n'] texts)).length ≤ (texts.flatMap cutTags).length := by
  rw [cutTags_join, flatMap_cutTags]
  exact length_flatMap_le fun parts _ => length_join_le parts

/-- The tags of joined texts agree with those of the single texts exactly when every tag is
whole. -/
theorem agrees_cutTags_join_iff (texts : List Bytes) :
    List.Forall₂ Agrees (cutTags (join [Char.toUInt8 '\n'] texts)) (texts.flatMap cutTags) ↔
      ∀ parts ∈ fragments texts, wholeTag parts = true := by
  rw [cutTags_join, flatMap_cutTags, forall₂_flatMap_iff fun parts _ => length_join_le parts]
  simp only [agrees_join_iff]

end Parameter

end TagScript
