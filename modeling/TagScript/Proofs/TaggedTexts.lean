import TagScript.Proofs.ParameterTags
import TagScript.Proofs.QuoteClosing
import TagScript.Proofs.Settled

/-!
# The text of a parameter and what stripping leaves of it

Stripping works on the pieces between commas, without reading them as lexemes, and it trims every
piece. The text that a parameter is read from can be several pieces, since a default value may hold
commas. A text that spells a tagged parameter is divided into name, pipe, type and value
(`TaggedText`), and stripping should leave its name and its value.

If the tag of the parameter is the only one in its text, stripping does to the value what tidying
the text does to it, where tidying is to trim all pieces. So the stripped text is read as it should
be exactly when the tidied text is read as the text itself. If there is another tag, it is not.
-/

namespace TagScript

open Bytes

namespace Bytes

variable {c d : UInt8} {text : Bytes} {f : Bytes → Bytes}

/-- A text with its pieces between commas rewritten one by one. -/
def mapPieces (f : Bytes → Bytes) (text : Bytes) : Bytes :=
  join [Char.toUInt8 ','] ((text.split ',').map f)

/-- A text without white space around its commas and its ends. -/
def tidy (text : Bytes) : Bytes := mapPieces trim text

/-- A text has as many pieces as separators and one more. -/
theorem length_split (c : UInt8) (text : Bytes) : (split c text).length = text.count c + 1 := by
  fun_induction split c text with
  | case1 => rfl
  | case2 text ih => simp [ih]
  | case3 b text hb hnil => exact absurd hnil (split_ne_nil c text)
  | case4 b text hb piece pieces hsplit ih =>
    rw [hsplit] at ih
    rw [List.count_cons_of_ne hb, ← ih]
    rfl

section MapPieces

variable (hf : ∀ piece, Char.toUInt8 ',' ∉ piece → Char.toUInt8 ',' ∉ f piece)

include hf

/-- The pieces of the rewritten text are the rewritten pieces. -/
theorem split_mapPieces (text : Bytes) : split ',' (mapPieces f text) = (text.split ',').map f := by
  refine split_join (List.map_eq_nil_iff.not.2 (split_ne_nil _ _)) fun piece hpiece => ?_
  obtain ⟨piece, hmem, rfl⟩ := List.mem_map.1 hpiece
  exact hf piece (not_mem_of_mem_split hmem)

/-- The rewritten text has as many commas. -/
theorem count_mapPieces (text : Bytes) :
    (mapPieces f text).count (Char.toUInt8 ',') = text.count (Char.toUInt8 ',') := by
  have hlength := congrArg List.length (split_mapPieces hf text)
  rw [List.length_map, length_split, length_split] at hlength
  omega

/-- Texts that are joined with commas are rewritten one by one. -/
theorem mapPieces_join {texts : List Bytes} (h : texts ≠ []) :
    mapPieces f (join [Char.toUInt8 ','] texts) = join [Char.toUInt8 ',']
      (texts.map (mapPieces f)) := by
  have hsplit : split ',' (join [Char.toUInt8 ','] (texts.map (mapPieces f))) =
      (texts.flatMap (split ',')).map f := by
    rw [split_join_eq (List.map_eq_nil_iff.not.2 h), List.flatMap_map, List.map_flatMap]
    exact List.flatMap_congr fun text _ => split_mapPieces hf text
  rw [mapPieces, split_join_eq h, ← hsplit, join_split]

end MapPieces

/-- What stands in front of a byte that is no white space does not matter for how the rest is
trimmed. -/
theorem trim_append_cons (hd : ¬ IsSpaceByte d) (hc : ¬ IsSpaceByte c) (text rest : Bytes) :
    trim (d :: text ++ c :: rest) = d :: text ++ trim (c :: rest) := by
  induction rest using trimEndInduction with
  | keep rest hkeep =>
    have hend : ∀ lead, trimEnd (lead ++ c :: rest) = lead ++ c :: rest := by
      intro lead
      by_cases hne : rest = []
      · rw [hne, trimEnd_snoc hc]
      · exact trimEnd_append_ascii hkeep hne (UInt8.not_le.1 fun hle => hc (.inr hle)) lead
    have halone := hend []
    rw [List.nil_append] at halone
    rw [trim, trim, List.cons_append, trimStart_cons hd, trimStart_cons hc, halone,
      ← List.cons_append, hend]
  | drop point lead hpoint ih =>
    rw [← List.cons_append, ← List.append_assoc, hpoint.trim_append_right,
      hpoint.trim_append_right, ih]

/-- A byte that is not the separator is counted in the pieces. -/
theorem count_join (hc : c ≠ d) (pieces : List Bytes) :
    (join [d] pieces).count c = (pieces.map (List.count c)).sum := by
  rw [join]
  induction pieces with
  | nil => rfl
  | cons piece pieces ih =>
    cases pieces with
    | nil => simp
    | cons next pieces =>
      rw [List.intercalate_cons_cons, List.append_assoc, List.singleton_append, List.count_append,
        List.count_cons_of_ne (Ne.symm hc), ih]
      simp only [List.map_cons, List.sum_cons]

end Bytes

namespace Parameter

variable {piece text : Bytes} {c : UInt8}

/-- A piece without a tag is kept. -/
theorem stripPiece_of_lacksTag (h : lacksTag piece = true) : stripPiece piece = piece := by
  rw [lacksTag, Option.isNone_iff_eq_none, atPipe?_eq_none_iff] at h
  rw [stripPiece, h]

/-- Stripping a piece keeps its equals signs. -/
theorem count_stripPiece (piece : Bytes) :
    (stripPiece piece).count (Char.toUInt8 '=') = piece.count (Char.toUInt8 '=') := by
  cases hindex : pipeIndex? piece with
  | none => simp [stripPiece, hindex]
  | some index =>
    obtain ⟨front, back, rfl, rfl⟩ := eq_append_of_pipeIndex? hindex
    have htype : (back.takeWhile (· ≠ Char.toUInt8 '=')).count (Char.toUInt8 '=') = 0 :=
      List.count_eq_zero.2 fun hmem => by simpa using List.mem_takeWhile_imp hmem
    have hback : back.count (Char.toUInt8 '=') = (back.dropWhile (· ≠ Char.toUInt8 '=')).count
        (Char.toUInt8 '=') := by
      rw [← List.takeWhile_append_dropWhile (p := (· ≠ Char.toUInt8 '=')) (l := back),
        List.count_append, htype, Nat.zero_add, List.takeWhile_append_dropWhile]
    rw [stripPiece_append_pipe hindex, List.count_append, List.count_append, count_trim (by decide),
      List.count_cons_of_ne (by decide), hback]
    split
    next hnil => rw [hnil]
    next => rw [List.count_cons_of_ne (by decide), count_trim (by decide)]

/-- Stripping a piece brings in nothing but a blank. -/
theorem stripPiece_subset (piece : Bytes) : stripPiece piece ⊆ Char.toUInt8 ' ' :: piece := by
  cases hindex : pipeIndex? piece with
  | none => simp [stripPiece, hindex]
  | some index =>
    obtain ⟨front, back, rfl, rfl⟩ := eq_append_of_pipeIndex? hindex
    rw [stripPiece_append_pipe hindex]
    intro c hc
    rcases List.mem_append.1 hc with hc | hc
    · simp [trim_subset _ hc]
    · split at hc
      · cases hc
      · rcases List.mem_cons.1 hc with rfl | hc
        · exact List.mem_cons_self ..
        · simp [(List.dropWhile_sublist _).subset (trim_subset _ hc)]

/-- What stripping leaves of a piece, which is trimmed before. -/
def stripTrimmed (piece : Bytes) : Bytes := stripPiece piece.trim

/-- Trimming brings in no comma. -/
theorem comma_not_mem_trim (piece : Bytes) (h : Char.toUInt8 ',' ∉ piece) :
    Char.toUInt8 ',' ∉ trim piece :=
  fun hmem => h (trim_subset _ hmem)

/-- Stripping a piece brings in no comma. -/
theorem comma_not_mem_stripTrimmed (piece : Bytes) (h : Char.toUInt8 ',' ∉ piece) :
    Char.toUInt8 ',' ∉ stripTrimmed piece := by
  intro hmem
  rcases List.mem_cons.1 (stripPiece_subset _ hmem) with hblank | hmem
  · exact absurd hblank (by decide)
  · exact h (trim_subset _ hmem)

/-- A piece without a tag is only trimmed. -/
theorem stripTrimmed_of_lacksTag (h : lacksTag piece = true) : stripTrimmed piece = trim piece :=
  stripPiece_of_lacksTag (by rwa [lacksTag_iff, cutTag?_trim, ← lacksTag_iff])

/-- A text with a tag is stripped piece by piece. -/
theorem stripParameters_eq (h : lacksTag text = false) :
    stripParameters text = mapPieces stripTrimmed text := by
  have hcomma : utf8 "," = [Char.toUInt8 ','] := by decide
  have hindex : ¬ (pipeIndex? text).isNone = true := by
    rw [Option.isNone_iff_eq_none, ← atPipe?_eq_none_iff, ← Option.isNone_iff_eq_none,
      ← lacksTag, h]
    exact Bool.false_ne_true
  rw [stripParameters, if_neg hindex, hcomma]
  rfl

/-- A text without a tag is kept as it is. -/
theorem stripParameters_of_lacksTag (h : lacksTag text = true) : stripParameters text = text := by
  rw [lacksTag, Option.isNone_iff_eq_none, atPipe?_eq_none_iff] at h
  rw [stripParameters, h, Option.isNone_none, if_pos rfl]

/-- Pieces that keep all their marks have no tags. -/
theorem lacksTag_of_sum {pieces : List Bytes}
    (h : (pieces.map fun piece => (tagMarks (stripTrimmed piece)).length).sum =
      (pieces.map fun piece => (tagMarks piece).length).sum) : ∀ piece ∈ pieces,
    lacksTag piece = true := by
  have hle : ∀ piece ∈ pieces, (tagMarks (stripTrimmed piece)).length ≤
      (tagMarks piece).length := by
    intro piece _
    rw [← tagMarks_trim piece]
    exact (length_tagMarks_stripPiece piece.trim).1
  intro piece hpiece
  by_contra htag
  have hlt : (tagMarks (stripTrimmed piece)).length < (tagMarks piece).length := by
    rw [← tagMarks_trim piece]
    refine (length_tagMarks_stripPiece piece.trim).2 fun hindex => htag ?_
    rwa [lacksTag, Option.isNone_iff_eq_none, atPipe?_eq_none_iff, ← pipeIndex?_trim]
  exact (List.sum_lt_sum _ _ hle ⟨piece, hpiece, hlt⟩).ne h

/-- The marks of a text are its pipes and its colons. -/
theorem length_tagMarks (text : Bytes) :
    (tagMarks text).length = text.count (Char.toUInt8 '|') + text.count (Char.toUInt8 ':') := by
  induction text with
  | nil => rfl
  | cons c text ih =>
    rw [tagMarks] at ih ⊢
    by_cases hpipe : c = '|'
    · subst hpipe
      rw [List.filter_cons_of_pos (by decide), List.length_cons, ih, List.count_cons_self,
        List.count_cons_of_ne (by decide)]
      omega
    · by_cases hcolon : c = ':'
      · subst hcolon
        rw [List.filter_cons_of_pos (by decide), List.length_cons, ih, List.count_cons_self,
          List.count_cons_of_ne (by decide)]
        omega
      · rw [List.filter_cons_of_neg (by simp [hpipe, hcolon]), ih, List.count_cons_of_ne hpipe,
          List.count_cons_of_ne hcolon]

/-- Texts with the same visible lexemes have as many marks. -/
theorem length_tagMarks_of_sequence {first second : Bytes}
    (h : Lexeme.sequence first = Lexeme.sequence second) :
    (tagMarks first).length = (tagMarks second).length := by
  have hcount : ∀ c, Lexeme.isBlankByte c = false → first.count c = second.count c := fun c hc => by
    rw [← Lexeme.count_joined_sequence hc, h, Lexeme.count_joined_sequence hc]
  rw [length_tagMarks, length_tagMarks, hcount _ (by decide), hcount _ (by decide)]

/-- The marks of texts behind commas are counted text by text. -/
theorem length_tagMarks_behind (texts : List Bytes) :
    (tagMarks (Lexeme.behind texts)).length =
    (texts.map fun text => (tagMarks text).length).sum := by
  induction texts with
  | nil => rfl
  | cons text texts ih =>
    have hcons : Lexeme.behind (text :: texts) = Char.toUInt8 ',' ::
        (text ++ Lexeme.behind texts) := by simp [Lexeme.behind]
    rw [hcons, tagMarks_cons (by decide), tagMarks_append, List.length_append, ih,
      List.map_cons, List.sum_cons]

/-- Stripping keeps the equals signs of a text. -/
theorem count_assign_mapPieces (text : Bytes) :
    (mapPieces stripTrimmed text).count (Char.toUInt8 '=') = text.count (Char.toUInt8 '=') := by
  have hcount : List.count (Char.toUInt8 '=') ∘ stripTrimmed = List.count (Char.toUInt8 '=') := by
    funext piece
    rw [Function.comp_apply, stripTrimmed, count_stripPiece, count_trim (by decide)]
  have hsplit := count_join (by decide : Char.toUInt8 '=' ≠ ',') (text.split ',')
  rw [join_split] at hsplit
  rw [mapPieces, count_join (by decide), List.map_map, hcount, hsplit]

/-- The lexemes of a parameter without its pipe and its type. -/
def withoutTag : List Lexeme → List Lexeme
  | name :: second :: rest =>
    if second.kind = .pipe then name :: rest.dropWhile isTypeLexeme else name :: second :: rest
  | lexemes => lexemes

/-- The lexemes of a parameter list without the pipes and the types of its parameters. -/
def withoutTags (lexemes : List Lexeme) : List Lexeme :=
  List.intercalate [Lexeme.comma] ((groups lexemes).map withoutTag)

/-- The lexemes of a tagged parameter without its tag are its name and its default. -/
theorem withoutTag_tagged {name pipe : Lexeme} {type rest : List Lexeme} (hpipe : pipe.kind = .pipe)
    (htype : ∀ lexeme ∈ type, isTypeLexeme lexeme = true) (hend : endsWell rest = true) :
    withoutTag (name :: pipe :: (type ++ rest)) = name :: rest := by
  have hstop : rest.dropWhile isTypeLexeme = rest := by
    cases rest with
    | nil => rfl
    | cons assign rest =>
      have hassign := of_decide_eq_true (Bool.and_eq_true_iff.1 hend).1
      exact List.dropWhile_cons_of_neg (by simp [isTypeLexeme, hassign])
  rw [withoutTag, if_pos hpipe, List.dropWhile_append_of_pos htype, hstop]

/-- The lexemes of a parameter that is not tagged are kept. -/
theorem withoutTag_bare {name : Lexeme} {rest : List Lexeme} (hend : endsWell rest = true) :
    withoutTag (name :: rest) = name :: rest := by
  cases rest with
  | nil => rfl
  | cons assign rest =>
    have hassign := of_decide_eq_true (Bool.and_eq_true_iff.1 hend).1
    rw [withoutTag, if_neg (by simp [hassign])]

/-- A type and what follows it can be divided where the blanks behind the type end, or at its last
visible lexeme if nothing but blanks follows. -/
theorem exists_division {type rest : List Lexeme} (hne : type.filter (·.kind ≠ .blank) ≠ [])
    (hend : endsWell (rest.filter (·.kind ≠ .blank)) = true) : ∃ front value : List Lexeme,
      type ++ rest = front ++ value ∧
      front.filter (·.kind ≠ .blank) = type.filter (·.kind ≠ .blank) ∧
      value.filter (·.kind ≠ .blank) = rest.filter (·.kind ≠ .blank) ∧
      ((∃ assign more, value = assign :: more ∧ assign.kind = .assign) ∨
        (∀ lexeme ∈ value, lexeme.kind = .blank) ∧ ∃ last ∈ front.getLast?,
          last.kind ≠ .blank) := by
  have hblanks : ∀ {lexemes : List Lexeme}, lexemes.filter (·.kind ≠ .blank) = [] ↔
      ∀ lexeme ∈ lexemes, lexeme.kind = .blank := by
    simp [List.filter_eq_nil_iff]
  cases hrest : rest.filter (·.kind ≠ .blank) with
  | nil =>
    obtain ⟨init, last, hlast⟩ : ∃ init last, type.filter (·.kind ≠ .blank) = init ++ [last] :=
      ⟨_, _, (List.dropLast_append_getLast hne).symm⟩
    obtain ⟨start, _, rfl, hstart, htail⟩ := List.filter_eq_append_iff.1 hlast
    obtain ⟨gap, tail, rfl, -, hvisible, htail⟩ := List.filter_eq_cons_iff.1 htail
    refine ⟨start ++ (gap ++ [last]), tail ++ rest, by simp, ?_, ?_,
      .inr ⟨?_, last, by simp, by simpa using hvisible⟩⟩
    · simp only [List.filter_append, List.filter_cons, htail]
      rfl
    · rw [List.filter_append, htail, hrest]
      rfl
    · rw [← hblanks, List.filter_append, htail, hrest]
      rfl
  | cons assign more =>
    rw [hrest] at hend
    have hassign := of_decide_eq_true (Bool.and_eq_true_iff.1 hend).1
    obtain ⟨gap, more, rfl, hgap, -, hmore⟩ := List.filter_eq_cons_iff.1 hrest
    have hgapNil : gap.filter (·.kind ≠ .blank) = [] := hblanks.2 (by simpa using hgap)
    refine ⟨type ++ gap, assign :: more, by simp, ?_, ?_, .inl ⟨assign, more, rfl, hassign⟩⟩
    · rw [List.filter_append, hgapNil, List.append_nil]
    · rw [List.filter_cons_of_pos (by simp [hassign]), hmore]

/-- How a text spells a tagged parameter: name, pipe, type and value, with blanks around the name.
The value starts with its equals sign, or it is blank and the type ends with no white space. -/
structure TaggedText (text : Bytes) (parameter : Parameter) where
  lead : Bytes
  gap : Bytes
  type : Bytes
  value : Bytes
  text_eq : text = lead ++ ((parameter.name ++ gap ++ Char.toUInt8 '|' :: type) ++ value)
  lead_blank : ∀ c ∈ lead, Lexeme.isBlankByte c = true
  gap_blank : ∀ c ∈ gap, Lexeme.isBlankByte c = true
  name_ident : parameter.name.isIdent = true
  type_head : ∃ c ∈ type.head?, c ≠ Char.toUInt8 '|'
  type_plain : Lexeme.Plain type
  comma_not_mem : Char.toUInt8 ',' ∉ type
  assign_mem : Char.toUInt8 '=' ∈ type ↔ Char.toUInt8 '=' ∈ parameter.type
  apart : Lexeme.Apart value (parameter.name ++ gap ++ Char.toUInt8 '|' :: type)
  sequence_eq : Lexeme.sequence text =
    Lexeme.sequence (parameter.name ++ gap ++ Char.toUInt8 '|' :: type) ++ Lexeme.sequence value
  withoutTag_eq : withoutTag (Lexeme.sequence text) = ⟨.name, parameter.name, 0⟩ ::
    Lexeme.sequence value
  ends : (∃ rest, value = Char.toUInt8 '=' :: rest) ∨
    (∀ c ∈ value, Lexeme.isBlankByte c = true) ∧ Lexeme.sequence value = [] ∧
    ∃ c ∈ type.getLast?, ¬ IsSpaceByte c

/-- The visible lexemes of a text whose lexemes are known. -/
theorem sequence_of_spelling {lexemes : List Lexeme}
    (h : Lexeme.spelling text = lexemes.map Lexeme.unplaced) :
    Lexeme.sequence text = (lexemes.filter (·.kind ≠ .blank)).map Lexeme.unplaced := by
  rw [Lexeme.sequence_eq, h, List.filter_map]
  rfl

/-- A text whose lexemes are divided, with the parts read alone. -/
theorem division_of_all {front back : List Lexeme}
    (h : Lexeme.spelling text = (front ++ back).map Lexeme.unplaced) :
    text = Lexeme.joined front ++ Lexeme.joined back ∧
      Lexeme.Apart (Lexeme.joined back) (Lexeme.joined front) ∧
      Lexeme.spelling (Lexeme.joined front) = front.map Lexeme.unplaced ∧
      Lexeme.spelling (Lexeme.joined back) = back.map Lexeme.unplaced := by
  rw [List.map_append] at h
  have hparts := Lexeme.apart_of_spelling h
  rwa [Lexeme.joined_unplaced, Lexeme.joined_unplaced] at hparts

/-- The bytes of a type with blanks in it are neither quotes nor backslashes nor commas. -/
theorem plain_of_type {lexemes : List Lexeme} {offset : Nat}
    (hread : ∀ lexeme ∈ lexemes, lexeme ∈ Lexeme.allFrom offset text)
    (htype : ∀ lexeme ∈ lexemes, lexeme.kind ≠ .blank → isTypeLexeme lexeme = true) :
    Lexeme.Plain (Lexeme.joined lexemes) := by
  have hbytes : ∀ c, LexemeKind.holds .name c = true ∨ LexemeKind.holds .operator c = true ∨
      LexemeKind.holds .bracket c = true ∨ LexemeKind.holds .blank c = true → isQuote c = false ∧
      c ≠ Char.toUInt8 '\\' := by
    decide +kernel
  intro c hc
  obtain ⟨lexeme, hlexeme, hc⟩ := List.mem_flatMap.1 hc
  have hholds := Lexeme.holds_of_mem_allFrom (hread lexeme hlexeme) c hc
  refine hbytes c ?_
  by_cases hblank : lexeme.kind = .blank
  · rw [hblank] at hholds
    simp [hholds]
  · have hkind := of_decide_eq_true (htype lexeme hlexeme hblank)
    simp only [List.mem_cons, List.not_mem_nil, or_false] at hkind
    obtain hkind | hkind | hkind := hkind <;> rw [hkind] at hholds <;> simp [hholds]

/-- A type whose last lexeme is visible ends with no white space. -/
theorem getLast?_type {lexemes : List Lexeme} {last : Lexeme} {offset : Nat}
    (hread : ∀ lexeme ∈ lexemes, lexeme ∈ Lexeme.allFrom offset text)
    (htype : ∀ lexeme ∈ lexemes, lexeme.kind ≠ .blank → isTypeLexeme lexeme = true)
    (hlast : lexemes.getLast? = some last)
    (hkind : last.kind ≠ .blank) : ∃ c ∈ (Lexeme.joined lexemes).getLast?, ¬ IsSpaceByte c := by
  obtain ⟨init, rfl⟩ := List.getLast?_eq_some_iff.1 hlast
  have hmem : last ∈ init ++ [last] := by simp
  obtain ⟨c, hc⟩ : ∃ c, last.text.getLast? = some c :=
    ⟨_, List.getLast?_eq_some_getLast (Lexeme.text_ne_nil (hread last hmem))⟩
  have hjoined : Lexeme.joined (init ++ [last]) = Lexeme.joined init ++ last.text := by
    simp [Lexeme.joined]
  have hcLast : c ∈ last.text := List.mem_of_getLast? hc
  have hstring : last.kind ≠ .string := by
    intro heq
    have htypeKind := htype last hmem hkind
    simp [isTypeLexeme, heq] at htypeKind
  have hvisible :=
    LexemeKind.isBlankByte_eq_false
    (Lexeme.holds_of_mem_allFrom (hread last hmem) c hcLast) hstring hkind
  have hbytes := bytes_of_type hread htype c (hjoined ▸ List.mem_append_right _ hcLast)
  refine ⟨c, by rw [hjoined, List.getLast?_append, hc]; rfl, ?_⟩
  exact (hbytes.resolve_left (by simp [hvisible])).1

/-- A text that spells a tagged parameter is divided in this way. -/
theorem exists_taggedText {parameter : Parameter}
    (h : ofLexemes? (Lexeme.visible text) = some parameter)
    (htype : parameter.type ≠ []) : ∃ _ : TaggedText text parameter, True := by
  obtain ⟨name, pipe, lead, gap, type, rest, hall, hblank, hname, hpipe, hpart, hne, hend, rfl⟩ :=
    parts_of_spells (spells_of_ofLexemes? h) htype
  obtain ⟨front, value, hdivision, hfront, hvalue, hends⟩ := exists_division hne hend
  rw [hdivision] at hall
  have hread : ∀ lexeme ∈ lead ++ (name :: (gap ++ pipe :: front) ++ value),
      lexeme ∈ Lexeme.allFrom 0 text := by
    intro lexeme hlexeme
    rw [← Lexeme.all, hall]
    simpa using hlexeme
  have hspelling : Lexeme.spelling text = (lead ++ (name :: (gap ++ pipe :: front) ++ value)).map
      Lexeme.unplaced := by
    rw [Lexeme.spelling, hall]
    simp
  have hpart' : ∀ lexeme ∈ front, lexeme.kind ≠ .blank → isTypeLexeme lexeme = true := by
    intro lexeme hlexeme hkind
    have hmem : lexeme ∈ front.filter (·.kind ≠ .blank) :=
      List.mem_filter.2 ⟨hlexeme, by simpa using hkind⟩
    rw [hfront] at hmem
    exact hpart lexeme (List.mem_of_mem_filter hmem) hkind
  have hall' : Lexeme.allFrom 0 text = (lead ++ name :: gap) ++ pipe :: (front ++ value) := by
    rw [← Lexeme.all, hall]
    simp
  obtain ⟨hpipeText, hbehind⟩ := Lexeme.spec_of_pipe hall' hpipe
  have hjoined : Lexeme.joined (name :: (gap ++ pipe :: front)) =
      name.text ++ Lexeme.joined gap ++ Char.toUInt8 '|' :: Lexeme.joined front := by
    simp [Lexeme.joined_append, Lexeme.joined_cons, hpipeText]
  -- what stands in front of the value is read alone as it is read here, and so is the value
  obtain ⟨htext, -, -, hcore⟩ := division_of_all hspelling
  obtain ⟨hdivided, hapart, hhead, hrest⟩ := division_of_all hcore
  have hsequence := sequence_of_spelling hspelling
  have hsequenceValue := sequence_of_spelling hrest
  have hsequenceHead := sequence_of_spelling hhead
  rw [hjoined] at hdivided hapart hsequenceHead
  simp only [List.forall_mem_append, List.forall_mem_cons] at hread hblank
  obtain ⟨hleadRead, ⟨hnameRead, hgapRead, hpipeRead, hfrontRead⟩, hvalueRead⟩ := hread
  have hleadNil : lead.filter (·.kind ≠ .blank) = [] := by
    simpa [List.filter_eq_nil_iff] using hblank.1
  have hgapNil : gap.filter (·.kind ≠ .blank) = [] := by
    simpa [List.filter_eq_nil_iff] using hblank.2
  refine ⟨{
    lead := Lexeme.joined lead
    gap := Lexeme.joined gap
    type := Lexeme.joined front
    value := Lexeme.joined value
    text_eq := by rw [htext, hdivided]
    lead_blank := isBlankByte_of_mem_joined hleadRead hblank.1
    gap_blank := isBlankByte_of_mem_joined hgapRead hblank.2
    name_ident := Lexeme.isIdent_text hnameRead hname
    type_head := head_ne_pipe hfrontRead (hfront ▸ hne) hbehind
    type_plain := plain_of_type hfrontRead hpart'
    comma_not_mem := ?_
    assign_mem := ?_
    apart := hapart
    sequence_eq := ?_
    withoutTag_eq := ?_
    ends := ?_ }, trivial⟩
  · intro hmem
    rcases bytes_of_type hfrontRead hpart' _ hmem with hc | hc
    · exact absurd hc (by decide)
    · exact hc.2 rfl
  · rw [← hfront, Lexeme.mem_joined_filter hfrontRead (by decide)]
  · rw [hsequence, hsequenceHead, hsequenceValue, List.filter_append, hleadNil,
      List.nil_append, List.filter_append, List.map_append]
  · have htypes : ∀ lexeme ∈ (type.filter (·.kind ≠ .blank)).map Lexeme.unplaced,
        isTypeLexeme lexeme = true := by
      intro lexeme hlexeme
      obtain ⟨placed, hplaced, rfl⟩ := List.mem_map.1 hlexeme
      obtain ⟨hmem, hkind⟩ := List.mem_filter.1 hplaced
      exact hpart placed hmem (by simpa using hkind)
    have hshape : Lexeme.sequence text = name.unplaced :: pipe.unplaced ::
        ((type.filter (·.kind ≠ .blank)).map Lexeme.unplaced ++
          Lexeme.sequence (Lexeme.joined value)) := by
      rw [hsequence, hsequenceValue, ← hfront, List.filter_append, hleadNil,
        List.nil_append, List.filter_append, List.filter_cons_of_pos (by simp [hname]),
        List.filter_append, hgapNil, List.nil_append,
        List.filter_cons_of_pos (by simp [hpipe])]
      simp only [List.map_append, List.map_cons, List.cons_append]
    have hnamed : name.unplaced = ⟨.name, name.text, 0⟩ := by rw [Lexeme.unplaced, ← hname]
    have hpiped : pipe.unplaced.kind = .pipe := hpipe
    rw [hshape, withoutTag_tagged hpiped htypes, hnamed]
    rwa [hsequenceValue, endsWell_map_unplaced, hvalue]
  · rcases hends with ⟨assign, more, rfl, hassign⟩ | ⟨hblanks, last, hlast, hkind⟩
    · obtain ⟨c, htext, hc⟩ :=
        Lexeme.text_of_sign (hvalueRead assign (List.mem_cons_self ..)) (.inr hassign)
      rw [hassign] at hc
      exact .inl ⟨Lexeme.joined more, by rw [Lexeme.joined_cons, htext, of_decide_eq_true hc]; rfl⟩
    · have hnone : value.filter (·.kind ≠ .blank) = [] := by
        simpa [List.filter_eq_nil_iff] using hblanks
      exact .inr ⟨isBlankByte_of_mem_joined hvalueRead hblanks, by rw [hsequenceValue, hnone]; rfl,
        getLast?_type hfrontRead hpart' hlast hkind⟩

/-- A text without commas in front of another one belongs to its first piece. -/
theorem split_append_first {lead first : Bytes} {rest : List Bytes}
    (hlead : Char.toUInt8 ',' ∉ lead)
    (h : text.split ',' = first :: rest) : (lead ++ text).split ',' = (lead ++ first) :: rest := by
  obtain ⟨first', rest', hfirst, hsplit⟩ := split_append_of_not_mem hlead text
  obtain ⟨rfl, rfl⟩ := List.cons.inj (hfirst.symm.trans h)
  exact hsplit

/-- The first piece is rewritten and stands in front of the others. -/
theorem mapPieces_eq {first : Bytes} {rest : List Bytes} (h : text.split ',' = first :: rest)
    (f : Bytes → Bytes) :
    mapPieces f text = f first ++ Lexeme.behind (rest.map f) := by
  rw [mapPieces, h, List.map_cons, Lexeme.join_eq]

/-- A name is read as one lexeme in front of what cannot be part of it. -/
theorem front_name {rest tail : Bytes} {c : UInt8} (hname : Bytes.isIdent (c :: rest) = true)
    (htail : ∀ d ∈ tail.head?, isNamePart d = false) :
    Lexeme.front c (rest ++ tail) = (.name, rest.length) := by
  obtain ⟨hstart, hparts⟩ := Bool.and_eq_true_iff.1 hname
  have hall : ∀ d ∈ rest, isNamePart d = true := List.all_eq_true.1 hparts
  have hself : rest.takeWhile isNamePart = rest := by simpa using hall
  rw [Lexeme.front_of_isNameStart hstart, takeWhile_append_stop htail, hself]

/-- A name and the blank behind it are apart from an equals sign, and the name is their only visible
lexeme. -/
theorem sequence_name {name : Bytes} (hname : name.isIdent = true) (rest : Bytes) :
    Lexeme.Apart (Char.toUInt8 '=' :: rest) (name ++ [Char.toUInt8 ' ']) ∧
      Lexeme.sequence name = [⟨.name, name, 0⟩] ∧
      Lexeme.sequence (name ++ [Char.toUInt8 ' ']) = [⟨.name, name, 0⟩] := by
  obtain ⟨c, tail, rfl⟩ : ∃ c tail, name = c :: tail := List.exists_cons_of_ne_nil fun hnil => by
    simp [hnil, isIdent] at hname
  have halone := front_name hname (by simp : ∀ d ∈ ([] : Bytes).head?, isNamePart d = false)
  have hblank :=
    front_name hname (by simp; decide : ∀ d ∈ [Char.toUInt8 ' '].head?, isNamePart d = false)
  have hassign := front_name hname
    (by simp; decide : ∀ d ∈ (Char.toUInt8 ' ' :: Char.toUInt8 '=' :: rest).head?,
      isNamePart d = false)
  have hspelled : Lexeme.spelling [Char.toUInt8 ' '] = [⟨.blank, [Char.toUInt8 ' '], 0⟩] := by
    have hfront : Lexeme.front (Char.toUInt8 ' ') [] = (.blank, 0) := rfl
    rw [Lexeme.spelling_of_front hfront]
    simp
  rw [List.append_nil] at halone
  rw [List.cons_append]
  refine ⟨.cons ?_ ?_, ?_, ?_⟩
  · rw [hblank, ← hassign, List.append_assoc]
    rfl
  · rw [hblank, List.drop_left]
    exact .cons rfl .nil
  · rw [Lexeme.sequence_eq, Lexeme.spelling_of_front halone]
    simp
  · rw [Lexeme.sequence_eq, Lexeme.spelling_of_front hblank, List.drop_left,
      List.take_left, hspelled]
    rfl

namespace TaggedText

variable {parameter : Parameter} (tagged : TaggedText text parameter)

/-- Name, pipe and type. -/
def front : Bytes := parameter.name ++ tagged.gap ++ Char.toUInt8 '|' :: tagged.type

include tagged in
/-- The name of a parameter is made up of name bytes. -/
theorem name_part : ∀ c ∈ parameter.name, isNamePart c = true :=
  isNamePart_of_isIdent tagged.name_ident

/-- Name, pipe and type consist of name bytes, blanks, the pipe and the bytes of the type. -/
theorem mem_front {c : UInt8} (hc : c ∈ tagged.front) :
    (isNamePart c = true ∨ Lexeme.isBlankByte c = true ∨ c = Char.toUInt8 '|') ∨
      c ∈ tagged.type := by
  rw [front, List.append_assoc, List.mem_append, List.mem_append, List.mem_cons] at hc
  rcases hc with hc | hc | rfl | hc
  · exact .inl (.inl (tagged.name_part c hc))
  · exact .inl (.inr (.inl (tagged.gap_blank c hc)))
  · exact .inl (.inr (.inr rfl))
  · exact .inr hc

/-- What is no byte of the type of a parameter is no quote, backslash, comma or equals sign. -/
theorem bytes_front : ∀ c, isNamePart c = true ∨ Lexeme.isBlankByte c = true ∨
    c = Char.toUInt8 '|' →
    (isQuote c = false ∧ c ≠ Char.toUInt8 '\\') ∧ c ≠ Char.toUInt8 ',' ∧ c ≠ Char.toUInt8 '=' := by
  decide +kernel

/-- The front of a tagged text is plain. -/
theorem plain_front : Lexeme.Plain tagged.front := fun c hc =>
  (tagged.mem_front hc).elim (fun h => (bytes_front c h).1) fun h => tagged.type_plain c h

/-- The front of a tagged text holds no comma. -/
theorem comma_not_mem_front : Char.toUInt8 ',' ∉ tagged.front := fun hc =>
  (tagged.mem_front hc).elim (fun h => (bytes_front _ h).2.1 rfl) tagged.comma_not_mem

/-- The front of a tagged text holds an equals sign only in its type. -/
theorem assign_not_mem_front (h : Char.toUInt8 '=' ∉ parameter.type) :
    Char.toUInt8 '=' ∉ tagged.front := fun hc =>
  (tagged.mem_front hc).elim (fun h => (bytes_front _ h).2.2 rfl) (mt tagged.assign_mem.1 h)

/-- The name starts with no white space. -/
theorem exists_front_eq : ∃ c rest, tagged.front = c :: rest ∧ ¬ IsSpaceByte c := by
  have hne : parameter.name ≠ [] := by
    intro hnil
    have hname := tagged.name_ident
    rw [hnil] at hname
    cases hname
  obtain ⟨c, rest, hname⟩ := List.exists_cons_of_ne_nil hne
  have hc := tagged.name_part c (hname ▸ List.mem_cons_self ..)
  exact ⟨c, _, by rw [front, hname]; rfl, (Lexeme.isNamePart_spec hc).1⟩

/-- Stripping leaves the name of a parameter, and its default behind a blank. -/
theorem stripPiece_front (h : Char.toUInt8 '=' ∉ parameter.type) {value : Bytes}
    (hvalue : ∀ c ∈ value.head?, c = Char.toUInt8 '=') : stripPiece (tagged.front ++ value) =
      parameter.name ++ if value = [] then [] else Char.toUInt8 ' ' :: trim value := by
  obtain ⟨c, hc, hne⟩ := tagged.type_head
  obtain ⟨rest, htype⟩ := List.head?_eq_some_iff.1 hc
  have hplain : ∀ c ∈ parameter.name ++ tagged.gap, c ≠ Char.toUInt8 '|' := by
    intro c hc
    rcases List.mem_append.1 hc with hc | hc
    · exact (Lexeme.isNamePart_spec (tagged.name_part c hc)).2.1
    · exact (Lexeme.isBlankByte_spec (tagged.gap_blank c hc)).2.2.1
  have hindex : pipeIndex?
      ((parameter.name ++ tagged.gap) ++ Char.toUInt8 '|' :: (tagged.type ++ value)) =
      some (parameter.name ++ tagged.gap).length := by
    rw [pipeIndex?_append_left hplain, htype]
    simp [pipeIndex?, hne]
  have hassign : ∀ c ∈ tagged.type, decide (c ≠ Char.toUInt8 '=') = true := fun c hc =>
    decide_eq_true fun heq => h (tagged.assign_mem.1 (heq ▸ hc))
  have hdrop : value.dropWhile (· ≠ Char.toUInt8 '=') = value := by
    cases value with
    | nil => rfl
    | cons d value => rw [List.dropWhile_cons_of_neg (by simp [hvalue d rfl])]
  have hname : trim (parameter.name ++ tagged.gap) = parameter.name :=
    @trim_blanks [] _ _ (by simp) tagged.gap_blank tagged.name_part
  rw [front, List.append_assoc, List.cons_append, stripPiece_append_pipe hindex, hname,
    List.dropWhile_append_of_pos hassign, hdrop]

/-- The text of a parameter without a default is one piece. It is tidied to name, pipe and type, and
stripped to the name. -/
theorem strip_of_blank (hvalue : ∀ c ∈ tagged.value, Lexeme.isBlankByte c = true)
    (hlast : ∃ c ∈ tagged.type.getLast?, ¬ IsSpaceByte c) : text.split ',' = [text] ∧
      tidy text = tagged.front ∧
      (Char.toUInt8 '=' ∉ parameter.type → mapPieces stripTrimmed text = parameter.name) := by
  have hcomma : Char.toUInt8 ',' ∉ text := by
    rw [tagged.text_eq, ← front]
    intro hmem
    rcases List.mem_append.1 hmem with hmem | hmem
    · exact (Lexeme.isBlankByte_spec (tagged.lead_blank _ hmem)).2.2.2 rfl
    · rcases List.mem_append.1 hmem with hmem | hmem
      · exact tagged.comma_not_mem_front hmem
      · exact (Lexeme.isBlankByte_spec (hvalue _ hmem)).2.2.2 rfl
  have hone : ∀ f : Bytes → Bytes, mapPieces f text = f text := by
    intro f
    rw [mapPieces, split_of_not_mem hcomma]
    simp [join]
  have htrim : trim text = tagged.front := by
    obtain ⟨d, hd, hspace⟩ := hlast
    obtain ⟨init, htype⟩ := List.getLast?_eq_some_iff.1 hd
    have hend : tagged.front = (parameter.name ++ tagged.gap ++ Char.toUInt8 '|' :: init) ++
        [d] := by
      rw [front, htype]
      simp
    obtain ⟨c, rest, hfront, hc⟩ := tagged.exists_front_eq
    refine (congrArg trim tagged.text_eq).trans ?_
    rw [← front, trim_blank_append fun c hc => (Lexeme.isBlankByte_spec (tagged.lead_blank c hc)).1,
      trim_append_blanks hvalue, trim, hfront, trimStart_cons hc, ← hfront, hend,
      trimEnd_snoc hspace]
  refine ⟨split_of_not_mem hcomma, by rw [tidy, hone, htrim], fun hassign => ?_⟩
  have hstrip :=
    tagged.stripPiece_front hassign (by simp : ∀ c ∈ ([] : Bytes).head?, c = Char.toUInt8 '=')
  rw [hone, stripTrimmed, htrim]
  simpa using hstrip

/-- The text of a parameter with a default is tidied behind its type, and stripped up to the
default. -/
theorem strip_of_default {rest : Bytes} (hvalue : tagged.value = Char.toUInt8 '=' :: rest) :
    ∃ first more : Bytes, ∃ pieces,
    (text.split ',').tail = pieces ∧
      tagged.value.split ',' = (Char.toUInt8 '=' :: first) :: pieces ∧
      trim (Char.toUInt8 '=' :: first) = Char.toUInt8 '=' :: more ∧
      tidy text = tagged.front ++ (Char.toUInt8 '=' :: more ++ Lexeme.behind (pieces.map trim)) ∧
      (Char.toUInt8 '=' ∉ parameter.type → mapPieces stripTrimmed text =
        (parameter.name ++ [Char.toUInt8 ' ']) ++
        (Char.toUInt8 '=' :: more ++ Lexeme.behind (pieces.map stripTrimmed))) := by
  have hcomma : Char.toUInt8 ',' ∉ tagged.lead ++ tagged.front := by
    intro hmem
    rcases List.mem_append.1 hmem with hmem | hmem
    · exact (Lexeme.isBlankByte_spec (tagged.lead_blank _ hmem)).2.2.2 rfl
    · exact tagged.comma_not_mem_front hmem
  obtain ⟨first, pieces, hrest⟩ := List.exists_cons_of_ne_nil (split_ne_nil ',' rest)
  have hsplitValue : tagged.value.split ',' = (Char.toUInt8 '=' :: first) :: pieces := by
    rw [hvalue]
    exact split_append_first (by decide : Char.toUInt8 ',' ∉ [Char.toUInt8 '=']) hrest
  have hsplit : text.split ',' =
      (tagged.lead ++ tagged.front ++ Char.toUInt8 '=' :: first) :: pieces := by
    have htext : text = tagged.lead ++ tagged.front ++ tagged.value := by
      rw [List.append_assoc]
      exact tagged.text_eq
    exact (congrArg (split ',') htext).trans (split_append_first hcomma hsplitValue)
  have hassign : ¬ IsSpaceByte (Char.toUInt8 '=') := by decide
  obtain ⟨more, hmore⟩ := exists_trim_cons hassign first
  -- blanks in front of the name go, and the default is trimmed at its end
  have htrim : trim (tagged.lead ++ tagged.front ++ Char.toUInt8 '=' :: first) = tagged.front ++
      Char.toUInt8 '=' :: more := by
    obtain ⟨c, start, hfront, hc⟩ := tagged.exists_front_eq
    rw [List.append_assoc,
      trim_blank_append fun c hc => (Lexeme.isBlankByte_spec (tagged.lead_blank c hc)).1, hfront,
      trim_append_cons hc hassign, hmore]
  refine ⟨first, more, pieces, by rw [hsplit]; rfl, hsplitValue, hmore, ?_, fun htype => ?_⟩
  · rw [tidy, mapPieces_eq hsplit, htrim, List.append_assoc]
  · have hagain : trim (Char.toUInt8 '=' :: more) = Char.toUInt8 '=' :: more := by
      rw [← hmore, trim_trim]
    rw [mapPieces_eq hsplit, stripTrimmed, htrim, tagged.stripPiece_front htype (by simp),
      if_neg (List.cons_ne_nil _ _), hagain]
    simp

include tagged in
/-- Where its tag is the only one, the text of a parameter is stripped as it should be exactly when
tidying it does not change its lexemes, and the stripped text may be exchanged for the tidied
one. -/
theorem strip_of_soleTag (htype : parameter.type ≠ []) (hsole : soleTag text parameter = true) :
    Lexeme.Swaps (tidy text) (mapPieces stripTrimmed text) ∧
      (Lexeme.sequence (mapPieces stripTrimmed text) = withoutTag (Lexeme.sequence text) ↔
        Lexeme.sequence (tidy text) = Lexeme.sequence text) := by
  obtain ⟨hassign, hpieces⟩ : Char.toUInt8 '=' ∉ parameter.type ∧ ∀ piece ∈ (text.split ',').tail,
      lacksTag piece = true := by
    simpa [soleTag, htype] using hsole
  have hquotes : ∀ c ∈ tagged.front, isQuote c = false := fun c hc => (tagged.plain_front c hc).1
  have hname : ∀ c ∈ parameter.name ++ [Char.toUInt8 ' '], isQuote c = false ∧ c ≠ '\\' := by
    intro c hc
    refine (bytes_front c ?_).1
    rcases List.mem_append.1 hc with hc | hc
    · exact .inl (tagged.name_part c hc)
    · exact .inr (.inl (by rw [List.mem_singleton.1 hc]; decide))
  rcases tagged.ends with ⟨rest, hvalue⟩ | ⟨hvalue, hnone, hlast⟩
  · obtain ⟨first, more, pieces, htail, -, -, htidy, hstrip⟩ := tagged.strip_of_default hvalue
    have hsame : pieces.map stripTrimmed = pieces.map trim :=
      List.map_congr_left fun piece hpiece => stripTrimmed_of_lacksTag
        (hpieces piece (htail ▸ hpiece))
    rw [htidy, hstrip hassign, hsame, List.cons_append]
    generalize more ++ Lexeme.behind (pieces.map trim) = value
    have hapart : Lexeme.Apart (Char.toUInt8 '=' :: value) tagged.front :=
      Lexeme.Apart.of_assign (hvalue ▸ tagged.apart) hquotes
        (tagged.assign_not_mem_front hassign) value
    obtain ⟨hblank, -, hsequence⟩ := sequence_name tagged.name_ident value
    refine ⟨.intro tagged.plain_front hname hapart hblank, ?_⟩
    rw [hapart.sequence_append, hblank.sequence_append, hsequence, tagged.withoutTag_eq,
      tagged.sequence_eq, ← front, List.append_cancel_left_eq]
    simp
  · obtain ⟨-, htidy, hstrip⟩ := tagged.strip_of_blank hvalue hlast
    obtain ⟨-, hsequence, -⟩ := sequence_name tagged.name_ident []
    rw [htidy, hstrip hassign]
    refine ⟨?_, iff_of_true ?_ ?_⟩
    · have hswaps :=
        Lexeme.Swaps.intro tagged.plain_front (fun c hc => hname c (List.mem_append_left _ hc))
        (Lexeme.apart_nil tagged.front) (Lexeme.apart_nil parameter.name)
      rwa [List.append_nil, List.append_nil] at hswaps
    · rw [hsequence, tagged.withoutTag_eq, hnone]
    · rw [tagged.sequence_eq, hnone, List.append_nil, front]

include tagged in
/-- If nothing but its tag is taken out of the text of a parameter, it has no other one. -/
theorem soleTag_of_sequence (htype : parameter.type ≠ [])
    (h : Lexeme.sequence (mapPieces stripTrimmed text) = withoutTag (Lexeme.sequence text)) :
    soleTag text parameter = true := by
  rw [tagged.withoutTag_eq] at h
  have hassign : Char.toUInt8 '=' ∉ parameter.type := by
    -- stripping keeps the equals signs, and they all stand in the value
    have hcount := congrArg (fun lexemes => (Lexeme.joined lexemes).count (Char.toUInt8 '=')) h
    have htext := congrArg (List.count (Char.toUInt8 '=')) tagged.text_eq
    have hname : parameter.name.count (Char.toUInt8 '=') = 0 :=
      List.count_eq_zero.2 fun hmem => absurd (tagged.name_part _ hmem) (by decide)
    rw [Lexeme.count_joined_sequence (by decide), count_assign_mapPieces,
      Lexeme.joined_cons, List.count_append, Lexeme.count_joined_sequence (by decide), hname]
      at hcount
    rw [List.count_append, List.count_append, ← front] at htext
    have hfront : Char.toUInt8 '=' ∉ tagged.front := List.count_eq_zero.1 (by omega)
    exact fun hmem => hfront (by simp [front, tagged.assign_mem.2 hmem])
  have hpieces : ∀ piece ∈ (text.split ',').tail, lacksTag piece = true := by
    rcases tagged.ends with ⟨rest, hvalue⟩ | ⟨hvalue, -, hlast⟩
    · obtain ⟨first, more, pieces, htail, hsplit, htrim, -, hstrip⟩ :=
        tagged.strip_of_default hvalue
      obtain ⟨hapart, -, hsequence⟩ :=
        sequence_name tagged.name_ident (more ++ Lexeme.behind (pieces.map stripTrimmed))
      rw [hstrip hassign, List.cons_append, hapart.sequence_append, hsequence,
        List.singleton_append] at h
      have hmarks := length_tagMarks_of_sequence (List.cons.inj h).2
      have hjoin := join_split (Char.toUInt8 ',') tagged.value
      rw [hsplit, Lexeme.join_eq] at hjoin
      rw [← List.cons_append, ← htrim, ← hjoin, tagMarks_append, tagMarks_append,
        tagMarks_trim, List.length_append, List.length_append, length_tagMarks_behind,
        length_tagMarks_behind, List.map_map] at hmarks
      rw [htail]
      exact lacksTag_of_sum (Nat.add_left_cancel hmarks)
    · rw [(tagged.strip_of_blank hvalue hlast).1]
      simp
  simpa [soleTag, htype] using And.intro hassign hpieces

end TaggedText

/-- The lexemes of a parameter without a type are those without its tag. -/
theorem withoutTag_sequence {parameter : Parameter}
    (h : ofLexemes? (Lexeme.visible text) = some parameter)
    (htype : parameter.type = []) : withoutTag (Lexeme.sequence text) = Lexeme.sequence text := by
  have hspells := spells_of_ofLexemes? h
  rw [Lexeme.sequence]
  generalize hvisible : Lexeme.visible text = lexemes at hspells
  cases hspells with
  | bare hname hend => exact withoutTag_bare (by rwa [endsWell_map_unplaced])
  | @tagged name pipe type rest _ _ _ hne _ =>
    -- a type has a lexeme, and a lexeme has a byte
    obtain ⟨first, more, rfl⟩ := List.exists_cons_of_ne_nil hne
    have hread : first ∈ Lexeme.allFrom 0 text :=
      List.mem_of_mem_filter (hvisible ▸ (by simp) : first ∈ Lexeme.visible text)
    rw [Lexeme.joined_cons, List.append_eq_nil_iff] at htype
    exact absurd htype.1 (Lexeme.text_ne_nil hread)

/-- Stripping takes nothing but the tag out of the text of a parameter only if its tag is the only
one. If it is, the stripped text may be exchanged for the tidied one, and the lexemes of both are as
they should be or of none. -/
theorem strip_of_ofLexemes? {parameter : Parameter}
    (h : ofLexemes? (Lexeme.visible text) = some parameter) :
    (Lexeme.sequence (mapPieces stripTrimmed text) = withoutTag (Lexeme.sequence text) →
      soleTag text parameter = true) ∧
    (soleTag text parameter = true → Lexeme.Swaps (tidy text) (mapPieces stripTrimmed text) ∧
      (Lexeme.sequence (mapPieces stripTrimmed text) = withoutTag (Lexeme.sequence text) ↔
        Lexeme.sequence (tidy text) = Lexeme.sequence text)) := by
  by_cases htype : parameter.type = []
  · have hsole : soleTag text parameter = lacksTag text := by simp [soleTag, htype]
    rw [hsole, withoutTag_sequence h htype]
    constructor
    · intro hsequence
      have hmarks := length_tagMarks_of_sequence hsequence
      have hcomma : (Char.toUInt8 ',' = '|' || Char.toUInt8 ',' = ':') = false := by decide
      have hsplit := length_tagMarks_join hcomma (text.split ',')
      rw [join_split] at hsplit
      rw [mapPieces, length_tagMarks_join hcomma, hsplit, List.map_map] at hmarks
      rw [← cutTags_eq_nil_iff, cutTags, List.filterMap_eq_nil_iff]
      exact fun piece hpiece => lacksTag_iff.1 (lacksTag_of_sum hmarks piece hpiece)
    · intro hlacks
      rw [← cutTags_eq_nil_iff, cutTags, List.filterMap_eq_nil_iff] at hlacks
      have hsame : mapPieces stripTrimmed text = tidy text := by
        rw [tidy, mapPieces, mapPieces]
        congr 1
        exact List.map_congr_left fun piece hpiece => stripTrimmed_of_lacksTag
          (lacksTag_iff.2 (hlacks piece hpiece))
      rw [hsame]
      exact ⟨.refl _, Iff.rfl⟩
  · obtain ⟨tagged, -⟩ := exists_taggedText h htype
    exact ⟨tagged.soleTag_of_sequence htype, tagged.strip_of_soleTag htype⟩

end Parameter

end TagScript
