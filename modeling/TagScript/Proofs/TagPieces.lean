import TagScript.Editor.Highlight
import TagScript.Proofs.LexemeContexts
import TagScript.Proofs.RecordingOrder
import TagScript.Proofs.Settled

/-!
# Which pieces of a script are highlighted

A head that starts with a declaration tag has its keyword, name and type highlighted. In the
content of a declaring block the parameter tags are searched from left to right, one behind the
other, and have their names and types highlighted.

Both kinds of tag are described by the pieces that they are put together from. The descriptions
leave no choice: a text starts with at most one tag of a kind, which is the one that is found.
-/

namespace TagScript

open Bytes

namespace Highlight

/-- A piece of a script to be highlighted, with the place where its text stands. -/
structure Piece where
  role : HighlightRole
  declares : Bool
  offset : Nat
  text : Bytes
  deriving DecidableEq, Repr

/-- The stretch that a piece takes up. -/
def Piece.span (p : Piece) : Span := ⟨p.offset, p.text.length, p.role, p.declares⟩

/-- A declaration tag at the front of a head: a keyword, a name behind it, and behind a colon a type
that reaches up to the gaps in front of the next equals sign. -/
structure DeclarationTag (head : Bytes) where
  keyword : Bytes
  beforeName : Bytes
  name : Bytes
  beforeColon : Bytes
  beforeType : Bytes
  type : Bytes
  beforeAssign : Bytes
  rest : Bytes
  head_eq : head = keyword ++ (beforeName ++ (name ++ (beforeColon ++ Char.toUInt8 ':' ::
    (beforeType ++ (type ++ (beforeAssign ++ Char.toUInt8 '=' :: rest))))))
  keyword_mem : keyword ∈ declarationKeywords
  beforeName_ne : beforeName ≠ []
  name_isIdent : name.isIdent = true
  gaps : ∀ c ∈ beforeName ++ beforeColon ++ beforeType ++ beforeAssign, isGap c = true
  type_ne : type ≠ []
  type_plain : Char.toUInt8 '=' ∉ type
  type_head : ∀ c ∈ type.head?, isGap c = false
  type_last : ∀ c ∈ type.getLast?, isGap c = false

/-- A byte that may continue the type of a parameter tag. -/
def isTypePart (c : UInt8) : Bool := isNamePart c || c = '.'

/-- A parameter tag at the front of a text: a name and behind a pipe a type that nothing
continues. -/
structure ParameterTag (text : Bytes) where
  name : Bytes
  beforePipe : Bytes
  beforeType : Bytes
  type : Bytes
  rest : Bytes
  text_eq : text = name ++ (beforePipe ++ Char.toUInt8 '|' :: (beforeType ++ (type ++ rest)))
  name_isIdent : name.isIdent = true
  gaps : ∀ c ∈ beforePipe ++ beforeType, isGap c = true
  type_head : ∃ c ∈ type.head?, isNameStart c = true
  type_parts : ∀ c ∈ type, isTypePart c = true
  rest_head : ∀ c ∈ rest.head?, isTypePart c = false

/-- Where the type of a parameter tag starts. -/
def ParameterTag.typeStart {text : Bytes} (tag : ParameterTag text) : Nat :=
  (tag.name ++ tag.beforePipe).length + 1 + tag.beforeType.length

/-- The length of a parameter tag. -/
def ParameterTag.length {text : Bytes} (tag : ParameterTag text) : Nat :=
  tag.typeStart + tag.type.length

/-- The pieces of a declaration tag in a head that starts at `offset`. -/
def DeclarationTag.pieces {head : Bytes} (tag : DeclarationTag head) (offset : Nat) : List Piece :=
  [⟨.keyword, false, offset, tag.keyword⟩,
    ⟨.variable, true, offset + (tag.keyword ++ tag.beforeName).length, tag.name⟩,
    ⟨.type, false,
      offset + (tag.keyword ++ tag.beforeName ++ tag.name ++ tag.beforeColon).length + 1 +
      tag.beforeType.length, tag.type⟩]

/-- The pieces of a parameter tag in a text that starts at `offset`. -/
def ParameterTag.pieces {text : Bytes} (tag : ParameterTag text) (offset : Nat) : List Piece :=
  [⟨.parameter, true, offset, tag.name⟩,
    ⟨.type, false, offset + tag.typeStart, tag.type⟩]

/-- The pieces of the parameter tags of a text that starts at `offset`. The leftmost tag comes
first, and the search goes on behind it. -/
inductive ParameterPieces : Nat → Bytes → List Piece → Prop where
  | nil {offset : Nat} : ParameterPieces offset [] []
  | skip {offset : Nat} {c : UInt8} {text : Bytes} {pieces : List Piece}
      (hnone : IsEmpty (ParameterTag (c :: text)))
      (hrest : ParameterPieces (offset + 1) text pieces) : ParameterPieces offset (c :: text) pieces
  | tag {offset : Nat} {text : Bytes} {pieces : List Piece} (tag : ParameterTag text)
      (hrest : ParameterPieces (offset + tag.length) tag.rest pieces) :
      ParameterPieces offset text (tag.pieces offset ++ pieces)

section Gaps

variable {gaps text : Bytes}

/-- Gaps are skipped in front of something else. -/
theorem skipGaps_gaps (hgaps : ∀ c ∈ gaps, isGap c = true)
    (htext : ∀ c ∈ text.head?, isGap c = false) :
    skipGaps (gaps ++ text) = text := by
  rw [skipGaps, List.dropWhile_append_of_pos hgaps]
  cases text with
  | nil => rfl
  | cons c text => rw [List.dropWhile_cons_of_neg (by simp [htext c rfl])]

/-- Gaps behind a text that ends with something else are taken off. -/
theorem trimGapsEnd_gaps (hgaps : ∀ c ∈ gaps, isGap c = true)
    (htext : ∀ c ∈ text.getLast?, isGap c = false) :
    trimGapsEnd (text ++ gaps) = text := by
  rw [trimGapsEnd, List.reverse_append, skipGaps_gaps (by simpa using hgaps) (by simpa using htext),
    List.reverse_reverse]

/-- A text is made up of the gaps at its front and what follows. -/
theorem skipGaps_spec (text : Bytes) : ∃ gaps, text = gaps ++ skipGaps text ∧
    (∀ c ∈ gaps, isGap c = true) ∧
    ∀ c ∈ (skipGaps text).head?, isGap c = false := by
  refine ⟨text.takeWhile isGap, List.takeWhile_append_dropWhile.symm,
    fun c => List.mem_takeWhile_imp, fun c hc => ?_⟩
  have hhead := List.head?_dropWhile_not isGap text
  rw [← skipGaps, Option.mem_def.1 hc] at hhead
  exact hhead

/-- A text is made up of what is left of it and the gaps at its end. -/
theorem trimGapsEnd_spec (text : Bytes) : ∃ gaps, text = trimGapsEnd text ++ gaps ∧
    (∀ c ∈ gaps, isGap c = true) ∧
    ∀ c ∈ (trimGapsEnd text).getLast?, isGap c = false := by
  obtain ⟨gaps, heq, hgaps, hhead⟩ := skipGaps_spec text.reverse
  refine ⟨gaps.reverse, ?_, by simpa using hgaps, ?_⟩
  · rw [trimGapsEnd, ← List.reverse_append, ← heq, List.reverse_reverse]
  · rwa [trimGapsEnd, List.getLast?_reverse]

end Gaps

section Declarations

variable {head : Bytes}

/-- What stands behind a name in a tag does not continue it. -/
theorem takeName?_gaps {name gaps rest : Bytes} {c : UInt8} (hname : name.isIdent = true)
    (hgaps : ∀ c ∈ gaps, isGap c = true) (hc : isNamePart c = false) :
    takeName? (name ++ (gaps ++ c :: rest)) = some (name, gaps ++ c :: rest) := by
  have hgap : ∀ c : UInt8, isGap c = true → isNamePart c = false := by decide +kernel
  cases gaps with
  | nil => exact takeName?_append hname hc rest
  | cons gap gaps => exact takeName?_append hname (hgap gap (hgaps gap (List.mem_cons_self ..))) _

/-- The keyword, name and type of a declaration tag are found. -/
theorem tagSpans_eq (tag : DeclarationTag head) (offset : Nat) :
    (tagSpans head).map (Span.shift offset) = (tag.pieces offset).map Piece.span := by
  obtain ⟨keyword, beforeName, name, beforeColon, beforeType, type, beforeAssign, rest, rfl,
    hkeyword, hne, hname, hgaps,
    htype, hplain, hfront, hlast⟩ := tag
  simp only [List.forall_mem_append] at hgaps
  obtain ⟨⟨⟨hbeforeName, hbeforeColon⟩, hbeforeType⟩, hbeforeAssign⟩ := hgaps
  simp only [DeclarationTag.pieces, Piece.span, List.map_cons, List.map_nil]
  generalize hbehindColon : beforeType ++ (type ++ (beforeAssign ++ Char.toUInt8 '=' :: rest)) =
    behindColon
  generalize hbehindName : beforeColon ++ Char.toUInt8 ':' :: behindColon = behindName
  have hgap : (beforeName ++ (name ++ behindName)).head?.any isGap = true := by
    cases beforeName with
    | nil => exact absurd rfl hne
    | cons c gaps => exact hbeforeName c (List.mem_cons_self ..)
  have hnameOn : skipGaps (beforeName ++ (name ++ behindName)) = name ++ behindName := by
    refine skipGaps_gaps hbeforeName fun c hc => ?_
    cases name with
    | nil => exact Bool.noConfusion hname
    | cons d name =>
      obtain rfl : d = c := by simpa using hc
      exact (Tag.isBlankByte_eq_false hname).2
  have htaken : takeName? (name ++ behindName) = some (name, behindName) :=
    hbehindName ▸ takeName?_gaps hname hbeforeColon (by decide)
  have hcolon : after? ":" (skipGaps behindName) = some behindColon := by
    rw [← hbehindName, skipGaps_gaps hbeforeColon (by simp; decide)]
    rfl
  have htypeOn : skipGaps behindColon = type ++ (beforeAssign ++ Char.toUInt8 '=' :: rest) := by
    rw [← hbehindColon]
    refine skipGaps_gaps hbeforeType fun c hc => hfront c ?_
    cases type with
    | nil => exact absurd rfl htype
    | cons d type => exact hc
  have hcut : cut? '=' (type ++ (beforeAssign ++ Char.toUInt8 '=' :: rest)) =
      some (type ++ beforeAssign, rest) := by
    rw [← List.append_assoc]
    refine cut?_append ?_ rest
    rw [List.mem_append, not_or]
    exact ⟨hplain, fun hmem => absurd (hbeforeAssign _ hmem) (by decide)⟩
  have htrim : trimGapsEnd (type ++ beforeAssign) = type := trimGapsEnd_gaps hbeforeAssign hlast
  have hsome : (!type.isEmpty) = true := by simpa using htype
  have hfound : tagSpans (keyword ++ (beforeName ++ (name ++ behindName))) =
      [⟨0, keyword.length, .keyword, false⟩,
        ⟨(keyword ++ (beforeName ++ (name ++ behindName))).length - (name ++ behindName).length,
          name.length, .variable, true⟩,
      ⟨(keyword ++ (beforeName ++ (name ++ behindName))).length -
        (type ++ (beforeAssign ++ Char.toUInt8 '=' :: rest)).length, type.length,
        .type, false⟩] := by
    simp only [tagSpans, takeKeyword?_append hkeyword, Option.bind_eq_bind, Option.bind_some,
      hgap, hnameOn, htaken, hcolon, htypeOn, hcut, htrim, hsome, guard_true]
    rfl
  rw [hfound, ← hbehindName, ← hbehindColon]
  simp only [List.map_cons, List.map_nil, Span.shift, List.length_append,
    List.length_cons, List.cons.injEq, Span.mk.injEq, and_true, true_and, Nat.add_zero]
  omega

/-- A text is cut at the first occurrence of a byte. -/
theorem not_mem_of_cut? {c : UInt8} {text left right : Bytes}
    (h : cut? c text = some (left, right)) : c ∉ left := by
  fun_induction cut? c text generalizing left right with
  | case1 => cases h
  | case2 =>
    cases h
    exact List.not_mem_nil
  | case3 b text hb ih =>
    obtain ⟨⟨l, r⟩, hcut, heq⟩ := Option.map_eq_some_iff.1 h
    cases heq
    rw [List.mem_cons, not_or]
    exact ⟨Ne.symm hb, ih hcut⟩

/-- A head in which something is found starts with a declaration tag. -/
theorem nonempty_declarationTag (h : tagSpans head ≠ []) : Nonempty (DeclarationTag head) := by
  have hsome : ∀ spans : Option (List Span), spans.getD [] ≠ [] → ∃ found, spans = some found
    | none, hne => absurd rfl hne
    | some found, _ => ⟨found, rfl⟩
  obtain ⟨found, hfound⟩ := hsome _ h
  obtain ⟨⟨keyword, behindKeyword⟩, hkeyword, hfound⟩ := Option.bind_eq_some_iff.1 hfound
  obtain ⟨⟨⟩, hgap, hfound⟩ := Option.bind_eq_some_iff.1 hfound
  obtain ⟨⟨name, behindName⟩, hname, hfound⟩ := Option.bind_eq_some_iff.1 hfound
  obtain ⟨behindColon, hcolon, hfound⟩ := Option.bind_eq_some_iff.1 hfound
  obtain ⟨⟨left, rest⟩, hcut, hfound⟩ := Option.bind_eq_some_iff.1 hfound
  obtain ⟨⟨⟩, htype, -⟩ := Option.bind_eq_some_iff.1 hfound
  rw [Option.guard_eq_some'] at hgap htype
  obtain ⟨hmem, rfl⟩ := takeKeyword?_spec hkeyword
  obtain ⟨beforeName, hbeforeName, hgapsName, hnameHead⟩ := skipGaps_spec behindKeyword
  obtain ⟨hident, hnameOn⟩ := takeName?_spec hname
  obtain ⟨beforeColon, hbeforeColon, hgapsColon, -⟩ := skipGaps_spec behindName
  obtain ⟨beforeType, hbeforeType, hgapsType, htypeHead⟩ := skipGaps_spec behindColon
  obtain ⟨beforeAssign, hbeforeAssign, hgapsAssign, htypeLast⟩ := trimGapsEnd_spec left
  have htypeOn := eq_append_of_cut? hcut
  have hplain := not_mem_of_cut? hcut
  rw [eq_append_of_after? hcolon] at hbeforeColon
  generalize trimGapsEnd left = type at *
  subst hbeforeAssign
  rw [htypeOn, List.append_assoc] at hbeforeType
  rw [hnameOn] at hbeforeName hnameHead
  have htypeNe : type ≠ [] := by simpa using htype
  refine ⟨⟨keyword, beforeName, name, beforeColon, beforeType, type, beforeAssign, rest, ?_,
    hmem, ?_, hident, ?_, htypeNe, fun hmem => hplain (List.mem_append_left _ hmem), ?_, htypeLast⟩⟩
  · rw [hbeforeName, hbeforeColon, hbeforeType]
    rfl
  · rintro rfl
    rw [hbeforeName, List.nil_append, Option.any_eq_true] at hgap
    obtain ⟨c, hc, hgap⟩ := hgap
    rw [hnameHead c hc] at hgap
    exact Bool.noConfusion hgap
  · simp only [List.forall_mem_append]
    exact ⟨⟨⟨hgapsName, hgapsColon⟩, hgapsType⟩, hgapsAssign⟩
  · rw [htypeOn] at htypeHead
    cases type with
    | nil => exact absurd rfl htypeNe
    | cons c type => exact htypeHead

/-- The declaration tags of a head are those that are found. -/
theorem mem_map_tagSpans_iff {span : Span} {offset : Nat} :
    span ∈ (tagSpans head).map (Span.shift offset) ↔
    ∃ tag : DeclarationTag head, ∃ p ∈ tag.pieces offset, p.span = span := by
  constructor
  · intro hspan
    have hne : tagSpans head ≠ [] := by
      intro hnil
      rw [hnil] at hspan
      exact List.not_mem_nil hspan
    obtain ⟨tag⟩ := nonempty_declarationTag hne
    rw [tagSpans_eq tag] at hspan
    exact ⟨tag, List.mem_map.1 hspan⟩
  · rintro ⟨tag, p, hp, rfl⟩
    rw [tagSpans_eq tag]
    exact List.mem_map_of_mem hp

end Declarations

section Parameters

variable {text : Bytes}

/-- A parameter tag at the front of a text is found with its parts. -/
theorem parameterTag?_eq (tag : ParameterTag text) :
    parameterTag? text = some (tag.name.length, tag.typeStart, tag.type.length) := by
  obtain ⟨name, beforePipe, beforeType, type, rest, rfl, hname, hgaps, ⟨first, hfirst, hstart⟩,
    hparts, hrest⟩ := tag
  obtain ⟨hbeforePipe, hbeforeType⟩ := List.forall_mem_append.1 hgaps
  have hgap : ∀ c : UInt8, isNameStart c = true → isGap c = false := by decide +kernel
  simp only [ParameterTag.typeStart]
  generalize hbehindPipe : beforeType ++ (type ++ rest) = behindPipe
  have htaken : takeName? (name ++ (beforePipe ++ Char.toUInt8 '|' :: behindPipe)) =
      some (name, beforePipe ++ Char.toUInt8 '|' :: behindPipe) :=
      takeName?_gaps hname hbeforePipe (by decide)
  have hpipe : after? "|" (skipGaps (beforePipe ++ Char.toUInt8 '|' :: behindPipe)) =
      some behindPipe := by
    rw [skipGaps_gaps hbeforePipe (by simp; decide)]
    rfl
  have hhead : (type ++ rest).head? = some first := by
    cases type with
    | nil => exact nomatch hfirst
    | cons c type => exact hfirst
  have htypeOn : skipGaps behindPipe = type ++ rest := by
    rw [← hbehindPipe]
    refine skipGaps_gaps hbeforeType fun c hc => ?_
    rw [hhead] at hc
    rw [← Option.mem_some.1 hc]
    exact hgap first hstart
  have htype : (type ++ rest).takeWhile (fun c => isNamePart c || c = '.') = type := by
    change (type ++ rest).takeWhile isTypePart = type
    rw [takeWhile_append_stop hrest, List.takeWhile_eq_self_iff.2 hparts]
  simp only [parameterTag?, htaken, hpipe, htypeOn, hhead, htype, hstart, Option.bind_eq_bind,
    Option.bind_some, guard_true]
  simp only [← hbehindPipe, List.length_append, List.length_cons]
  change some _ = some _
  congr 3
  omega

/-- A text in which a tag is found at the front starts with a parameter tag. -/
theorem nonempty_parameterTag {found : Nat × Nat × Nat} (h : parameterTag? text = some found) :
    Nonempty (ParameterTag text) := by
  obtain ⟨⟨name, behindName⟩, hname, h⟩ := Option.bind_eq_some_iff.1 h
  obtain ⟨behindPipe, hpipe, h⟩ := Option.bind_eq_some_iff.1 h
  obtain ⟨first, hfirst, h⟩ := Option.bind_eq_some_iff.1 h
  obtain ⟨⟨⟩, hstart, -⟩ := Option.bind_eq_some_iff.1 h
  rw [Option.guard_eq_some'] at hstart
  obtain ⟨hident, rfl⟩ := takeName?_spec hname
  obtain ⟨beforePipe, hbeforePipe, hgapsPipe, -⟩ := skipGaps_spec behindName
  obtain ⟨beforeType, hbeforeType, hgapsType, -⟩ := skipGaps_spec behindPipe
  rw [eq_append_of_after? hpipe] at hbeforePipe
  have hpart : ∀ c : UInt8, isNameStart c = true → isTypePart c = true := by decide +kernel
  generalize skipGaps behindPipe = typeOn at *
  have htypeOn : typeOn = typeOn.takeWhile isTypePart ++ typeOn.dropWhile isTypePart :=
    List.takeWhile_append_dropWhile.symm
  refine ⟨⟨name, beforePipe, beforeType, typeOn.takeWhile isTypePart,
    typeOn.dropWhile isTypePart, ?_, hident, List.forall_mem_append.2 ⟨hgapsPipe, hgapsType⟩,
    ⟨first, ?_, hstart⟩, fun c hc => List.mem_takeWhile_imp hc,
    fun c hc => ?_⟩⟩
  · rw [← htypeOn, ← hbeforeType, hbeforePipe]
    rfl
  · cases typeOn with
    | nil => exact nomatch hfirst
    | cons c typeOn =>
      obtain rfl := Option.some.inj hfirst
      rw [List.takeWhile_cons_of_pos (hpart c hstart)]
      rfl
  · have hhead := List.head?_dropWhile_not isTypePart typeOn
    rw [Option.mem_def.1 hc] at hhead
    exact hhead

/-- Bytes that belong to the tag before are passed over. -/
theorem parameterSpans_skip (place skip : Nat) (text : Bytes) :
    parameterSpans place skip text = parameterSpans (place + skip) 0 (text.drop skip) := by
  induction text generalizing place skip with
  | nil => rw [List.drop_nil, parameterSpans, parameterSpans]
  | cons c text ih =>
    cases skip with
    | zero => rfl
    | succ skip => rw [parameterSpans, ih, List.drop_succ_cons, Nat.add_assoc, Nat.add_comm 1]

namespace ParameterTag

variable (tag : ParameterTag text)

/-- Behind a tag stands its rest. -/
theorem drop_length : text.drop tag.length = tag.rest := by
  have hsplit : text =
      (tag.name ++ tag.beforePipe ++ [Char.toUInt8 '|'] ++ tag.beforeType ++ tag.type) ++
      tag.rest := by
    simpa using tag.text_eq
  have hlength : tag.length =
      (tag.name ++ tag.beforePipe ++ [Char.toUInt8 '|'] ++ tag.beforeType ++ tag.type).length := by
    simp only [length, typeStart, List.length_append, List.length_singleton]
  calc text.drop tag.length
      =
      (tag.name ++ tag.beforePipe ++ [Char.toUInt8 '|'] ++ tag.beforeType ++ tag.type ++
        tag.rest).drop tag.length :=
        congrArg (List.drop tag.length) hsplit
    _ = tag.rest := by rw [hlength, List.drop_left]

/-- A tag fits into the text. -/
theorem length_le : tag.length ≤ text.length := by
  have hlength := congrArg List.length tag.text_eq
  simp only [List.length_append, List.length_cons] at hlength
  rw [length, typeStart, List.length_append]
  omega

/-- A tag is not empty. -/
theorem length_pos : 0 < tag.length := by
  rw [length, typeStart]
  omega

end ParameterTag

/-- The search finds the pieces of the parameter tags. -/
theorem ParameterPieces.parameterSpans_eq {offset : Nat} {pieces : List Piece}
    (h : ParameterPieces offset text pieces) :
    parameterSpans offset 0 text = pieces.map Piece.span := by
  induction h with
  | nil => rfl
  | @skip offset c text pieces hempty _ ih =>
    have hnone : parameterTag? (c :: text) = none := by
      refine Option.eq_none_iff_forall_ne_some.2 fun found hfound => ?_
      exact hempty.elim (nonempty_parameterTag hfound).some
    rw [parameterSpans, hnone]
    exact ih
  | @tag offset text pieces tag _ ih =>
    have hfound := parameterTag?_eq tag
    cases text with
    | nil => exact nomatch hfound
    | cons c text =>
      obtain ⟨behind, hbehind⟩ := Nat.exists_eq_add_one_of_ne_zero tag.length_pos.ne'
      have hdrop := tag.drop_length
      rw [hbehind, List.drop_succ_cons] at hdrop
      rw [hbehind, Nat.add_comm behind, ← Nat.add_assoc] at ih
      have hskip : tag.typeStart + tag.type.length - 1 = behind := by
        rw [← ParameterTag.length, hbehind, Nat.add_sub_cancel]
      rw [parameterSpans, hfound]
      dsimp only
      rw [hskip, parameterSpans_skip, hdrop, ih]
      rfl

/-- Every text has its pieces. -/
theorem exists_parameterPieces (offset : Nat) (text : Bytes) :
    ∃ pieces, ParameterPieces offset text pieces := by
  induction hlength : text.length using Nat.strongRecOn generalizing offset text with
  | _ n ih =>
    cases text with
    | nil => exact ⟨[], .nil⟩
    | cons c text =>
      by_cases htag : Nonempty (ParameterTag (c :: text))
      · obtain ⟨tag⟩ := htag
        have hrest : tag.rest.length < n := by
          have hdrop := congrArg List.length tag.drop_length
          have hpos := tag.length_pos
          rw [List.length_drop] at hdrop
          rw [← hdrop, hlength]
          rw [List.length_cons] at hlength
          omega
        obtain ⟨pieces, hpieces⟩ := ih _ hrest (offset + tag.length) tag.rest rfl
        exact ⟨_, .tag tag hpieces⟩
      · obtain ⟨pieces, hpieces⟩ :=
          ih text.length (by rw [List.length_cons] at hlength; omega) (offset + 1) text rfl
        exact ⟨pieces, .skip (not_nonempty_iff.1 htag) hpieces⟩

end Parameters

/-- The pieces of a token tree that are highlighted: those of the declaration tags that its tokens
start with, and those of the parameter tags in the leaves of its declaring blocks. -/
inductive Highlighted (tokens : List Token) : Piece → Prop where
  | declaration {t : Token} {p : Piece} (ht : t ∈ Token.all tokens) (tag : DeclarationTag t.head)
      (hp : p ∈ tag.pieces t.offset) : Highlighted tokens p
  | parameter {block leaf : Token} {pieces : List Piece} {p : Piece}
      (hblock : block ∈ Token.declarations tokens)
      (hleaf : leaf ∈ Token.leavesAll block.children)
      (hpieces : ParameterPieces leaf.offset leaf.head pieces)
      (hp : p ∈ pieces) : Highlighted tokens p

/-- The stretches to be highlighted are those of the highlighted pieces. -/
theorem mem_spans_iff {tokens : List Token} {span : Span} :
    span ∈ spans tokens ↔ ∃ p, Highlighted tokens p ∧ p.span = span := by
  rw [spans, List.mem_append, List.mem_flatMap, List.mem_flatMap]
  constructor
  · rintro (⟨⟨level, t⟩, ht, hspan⟩ | ⟨block, hblock, hspan⟩)
    · obtain ⟨tag, p, hp, rfl⟩ := mem_map_tagSpans_iff.1 hspan
      exact ⟨p, .declaration (List.mem_map_of_mem ht) tag hp, rfl⟩
    · cases block with
      | leaf => exact absurd hspan List.not_mem_nil
      | block signature children offset =>
        obtain ⟨leaf, hleaf, hspan⟩ := List.mem_flatMap.1 hspan
        obtain ⟨pieces, hpieces⟩ := exists_parameterPieces leaf.offset leaf.head
        rw [hpieces.parameterSpans_eq] at hspan
        obtain ⟨p, hp, rfl⟩ := List.mem_map.1 hspan
        exact ⟨p, .parameter hblock hleaf hpieces hp, rfl⟩
  · rintro ⟨p, hpiece, rfl⟩
    cases hpiece with
    | @declaration t _ ht tag hp =>
      obtain ⟨⟨level, t⟩, hmem, rfl⟩ := List.mem_map.1 ht
      exact .inl ⟨(level, t), hmem, mem_map_tagSpans_iff.2 ⟨tag, p, hp, rfl⟩⟩
    | @parameter block leaf pieces _ hblock hleaf hpieces hp =>
      refine .inr ⟨block, hblock, ?_⟩
      cases block with
      | leaf => exact absurd hleaf List.not_mem_nil
      | block signature children offset =>
        refine List.mem_flatMap.2 ⟨leaf, hleaf, ?_⟩
        rw [hpieces.parameterSpans_eq]
        exact List.mem_map_of_mem hp

/-- A piece is cut out of a text that starts at `offset`, and it is not empty. -/
def Piece.CutFrom (p : Piece) (offset : Nat) (text : Bytes) : Prop :=
  p.text ≠ [] ∧ ∃ before after, text = before ++ (p.text ++ after) ∧
    p.offset = offset + before.length

section Cuts

variable {p : Piece} {offset : Nat} {text head : Bytes}

/-- A name is not empty. -/
theorem ne_nil_of_isIdent {name : Bytes} (h : name.isIdent = true) : name ≠ [] := by
  rintro rfl
  exact Bool.noConfusion h

/-- The pieces of a declaration tag are cut out of the head. -/
theorem DeclarationTag.cutFrom (tag : DeclarationTag head) (hp : p ∈ tag.pieces offset) :
    p.CutFrom offset head := by
  rw [pieces, List.mem_cons, List.mem_cons, List.mem_singleton] at hp
  rcases hp with rfl | rfl | rfl
  · exact ⟨ne_nil_of_isIdent (Tag.isIdent_keyword tag.keyword_mem), [], _, tag.head_eq, rfl⟩
  · exact ⟨ne_nil_of_isIdent tag.name_isIdent, tag.keyword ++ tag.beforeName, _,
      tag.head_eq.trans (List.append_assoc ..).symm, rfl⟩
  · refine ⟨tag.type_ne, tag.keyword ++ tag.beforeName ++ tag.name ++ tag.beforeColon ++
      [Char.toUInt8 ':'] ++ tag.beforeType, tag.beforeAssign ++ Char.toUInt8 '=' :: tag.rest, by
      simpa using tag.head_eq, ?_⟩
    simp only [List.length_append, List.length_singleton]
    omega

/-- The pieces of a parameter tag are cut out of the text. -/
theorem ParameterTag.cutFrom (tag : ParameterTag text) (hp : p ∈ tag.pieces offset) :
    p.CutFrom offset text := by
  rw [pieces, List.mem_cons, List.mem_singleton] at hp
  rcases hp with rfl | rfl
  · exact ⟨ne_nil_of_isIdent tag.name_isIdent, [], _, tag.text_eq, rfl⟩
  · have hne : tag.type ≠ [] := by
      intro hnil
      obtain ⟨c, hc, -⟩ := tag.type_head
      rw [hnil] at hc
      exact nomatch hc
    refine ⟨hne, tag.name ++ tag.beforePipe ++ [Char.toUInt8 '|'] ++ tag.beforeType, tag.rest,
      by simpa using tag.text_eq, ?_⟩
    simp only [typeStart, List.length_append, List.length_singleton]

/-- The pieces of the parameter tags of a text are cut out of it. -/
theorem ParameterPieces.cutFrom {pieces : List Piece} (h : ParameterPieces offset text pieces)
    (hp : p ∈ pieces) :
    p.CutFrom offset text := by
  induction h with
  | nil => exact absurd hp List.not_mem_nil
  | @skip offset c text pieces _ _ ih =>
    obtain ⟨hne, before, after, htext, hoffset⟩ := ih hp
    refine ⟨hne, c :: before, after, by rw [htext, List.cons_append], ?_⟩
    rw [hoffset, List.length_cons]
    omega
  | @tag offset text pieces tag _ ih =>
    rcases List.mem_append.1 hp with hp | hp
    · exact tag.cutFrom hp
    · obtain ⟨hne, before, after, hrest, hoffset⟩ := ih hp
      refine ⟨hne, text.take tag.length ++ before, after, ?_, ?_⟩
      · rw [List.append_assoc, ← hrest, ← tag.drop_length, List.take_append_drop]
      · rw [hoffset, List.length_append, List.length_take_of_le tag.length_le, Nat.add_assoc]

/-- A piece of what stands in a script is a piece of the script. -/
theorem Piece.CutFrom.source {source : Bytes} (h : p.CutFrom offset text)
    (htext : text <+: source.drop offset)
    (hoffset : offset ≤ source.length) : p.CutFrom 0 source := by
  obtain ⟨hne, before, after, rfl, hplace⟩ := h
  obtain ⟨rest, hrest⟩ := htext
  refine ⟨hne, source.take offset ++ before, after ++ rest, ?_, ?_⟩
  · calc source = source.take offset ++ source.drop offset :=
      (List.take_append_drop offset source).symm
      _ = source.take offset ++ before ++ (p.text ++ (after ++ rest)) := by
        rw [← hrest]
        simp only [List.append_assoc]
  · rw [List.length_append, List.length_take_of_le hoffset, Nat.zero_add, hplace]

end Cuts

end Highlight

namespace Token

variable {u : Token}

/-- The declaring blocks of a level stand on it. -/
theorem declaring_subset (ts : List Token) : declaring ts ⊆ ts := by
  induction ts with
  | nil => exact List.nil_subset _
  | cons t ts ih =>
    rw [declaring]
    split
    · exact List.cons_subset_cons t ih
    · exact List.subset_cons_of_subset t ih

mutual

/-- What is inside a declaring block of a token is inside the token. -/
theorem all_subset_of_mem_declarationsWithin : (t : Token) → u ∈ declarationsWithin t →
    all u.children ⊆ all t.children
  | .leaf .., hu => absurd hu List.not_mem_nil
  | .block _ children _, hu => by
    rcases List.mem_append.1 hu with hu | hu
    · exact fun v hv => mem_all_of_inside (declaring_subset children hu) hv
    · exact all_subset_of_mem_declarationsBelow children hu

/-- What is inside a declaring block below a level is inside the level. -/
theorem all_subset_of_mem_declarationsBelow : (ts : List Token) → u ∈ declarationsBelow ts →
    all u.children ⊆ all ts
  | [], hu => absurd hu List.not_mem_nil
  | t :: ts, hu => by
    rw [all_cons]
    rcases List.mem_append.1 hu with hu | hu
    · exact List.subset_cons_of_subset t
        (List.subset_append_of_subset_left _ (all_subset_of_mem_declarationsWithin t hu))
    · exact List.subset_cons_of_subset t
        (List.subset_append_of_subset_right _ (all_subset_of_mem_declarationsBelow ts hu))

end

/-- What is inside a declaring block of a script is inside the script. -/
theorem all_subset_of_mem_declarations {tokens : List Token} (hu : u ∈ declarations tokens) :
    all u.children ⊆ all tokens := by
  rcases List.mem_append.1 hu with hu | hu
  · exact fun v hv => mem_all_of_inside (declaring_subset tokens hu) hv
  · exact all_subset_of_mem_declarationsBelow tokens hu

end Token

namespace Highlight

/-- The highlighted pieces of a script are cut out of it. -/
theorem Highlighted.cutFrom {limit : Nat} {source : Bytes} {tokens : List Token} {p : Piece}
    (hscan : scan limit source = .ok tokens) (h : Highlighted tokens p) : p.CutFrom 0 source := by
  have hcovers := Scan.covers_of_scan hscan
  have hstands : ∀ t ∈ Token.all tokens, t.head <+: source.drop t.offset ∧
      t.offset ≤ source.length := by
    intro t ht
    have hstop := (hcovers.within t ht).2
    rw [Token.stop] at hstop
    exact ⟨hcovers.slice t ht ▸ List.take_prefix .., by omega⟩
  cases h with
  | @declaration t _ ht tag hp => exact (tag.cutFrom hp).source (hstands t ht).1 (hstands t ht).2
  | @parameter block leaf pieces _ hblock hleaf hpieces hp =>
    have ht := Token.all_subset_of_mem_declarations hblock (Token.leavesAll_subset _ hleaf)
    exact (hpieces.cutFrom hp).source (hstands leaf ht).1 (hstands leaf ht).2

end Highlight

end TagScript
