import TagScript.Proofs.TagCutting

/-!
# Parameters and the texts they are read from

Whether a parameter list is read as lexemes or split at its commas, each parameter comes from a
text of its own, and these texts are all of the list but for blank ones. A typed parameter has
the tag of the first piece of its text; the types can differ only if the one that is read as
lexemes holds an equals sign. A text can have further tags where a default value holds commas.
-/

namespace TagScript

open Bytes

namespace Bytes

variable {text : Bytes} {c : UInt8}

/-- The pieces of texts that are joined with the separator are the pieces of the single texts. -/
theorem split_join_eq {texts : List Bytes} (h : texts ≠ []) :
    split c (join [c] texts) = texts.flatMap (split c) := by
  rw [join]
  induction texts with
  | nil => exact absurd rfl h
  | cons text texts ih =>
    cases texts with
    | nil => simp
    | cons next texts =>
      have hrest := ih (List.cons_ne_nil _ _)
      rw [List.intercalate_cons_cons, List.append_assoc, List.singleton_append,
        split_append_cons, hrest]
      rfl

/-- A byte that cannot belong to white space is solid. -/
theorem mem_solid (hmem : c ∈ text) (hc : ¬ IsSpaceByte c) : c ∈ solid text := by
  obtain ⟨i, hi, rfl⟩ := List.getElem_of_mem hmem
  have hi' : i < (spaceMask text).length := by rwa [length_spaceMask]
  have hzip : (text[i], (spaceMask text)[i]) ∈ text.zip (spaceMask text) :=
    List.mem_iff_getElem.2 ⟨i, by simpa using hi, by simp⟩
  refine List.mem_map.2 ⟨_, List.mem_filter.2 ⟨hzip, ?_⟩, rfl⟩
  cases hmask : (spaceMask text)[i] with
  | false => rfl
  | true =>
    rw [hmask] at hzip
    exact absurd (isSpaceByte_of_mem_zip hzip) hc

/-- Where all white space is blanks, taking it out is taking the blanks out. -/
theorem solid_eq_compact (h : ∀ c ∈ text, Lexeme.isBlankByte c = true ∨ ¬ IsSpaceByte c) :
    solid text = compact text := by
  induction text with
  | nil => exact solid_nil
  | cons c text ih =>
    rw [List.forall_mem_cons] at h
    have hascii : c < 0x80 := h.1.elim (fun hc => (Lexeme.isBlankByte_spec hc).2.1) fun hc =>
      UInt8.not_le.1 fun hle => hc (.inr hle)
    have hspace : isAsciiSpace c = Lexeme.isBlankByte c := by
      rw [Bool.eq_iff_iff]
      exact ⟨fun hc => h.1.resolve_right fun hno => hno (.inl hc),
        fun hc => (Lexeme.isBlankByte_spec hc).1⟩
    have hmask : spaceMask (c :: text) = isAsciiSpace c :: spaceMask text :=
      spaceMask_ascii hascii text
    have hrest := ih h.2
    rw [solid, compact] at hrest
    rw [solid, hmask, hspace, List.zip_cons_cons, compact, List.filter_cons, List.filter_cons]
    cases Lexeme.isBlankByte c <;> simp [hrest]

/-- What is left of such a text without its blanks is solid. -/
theorem solid_compact (h : ∀ c ∈ text, Lexeme.isBlankByte c = true ∨ ¬ IsSpaceByte c) :
    solid (compact text) = compact text := by
  rw [solid_eq_compact, compact_eq_self]
  · exact fun c hc => (mem_compact.1 hc).2
  · intro c hc
    obtain ⟨hmem, hsolid⟩ := mem_compact.1 hc
    exact .inr ((h c hmem).resolve_left (by simp [hsolid]))

end Bytes

namespace Lexeme

variable {lexeme : Lexeme} {text : Bytes} {offset : Nat}

/-- The text of lexemes starts with that of the first. -/
theorem joined_cons (lexeme : Lexeme) (lexemes : List Lexeme) :
    joined (lexeme :: lexemes) = lexeme.text ++ joined lexemes := List.flatMap_cons ..

/-- The text of lexemes one behind the other is that of both. -/
theorem joined_append (lexemes more : List Lexeme) :
    joined (lexemes ++ more) = joined lexemes ++ joined more :=
  List.flatMap_append ..

/-- A lexeme is not empty. -/
theorem text_ne_nil (h : lexeme ∈ allFrom offset text) : lexeme.text ≠ [] := by
  obtain ⟨-, c, rest, more, -, -, -, htext⟩ := eq_append_of_mem_allFrom h
  rw [htext]
  exact List.cons_ne_nil _ _

/-- A comma is read as one byte. -/
theorem text_of_comma (h : lexeme ∈ allFrom offset text) (hkind : lexeme.kind = .comma) :
    lexeme.text = [Char.toUInt8 ','] := by
  have hholds := holds_of_mem_allFrom h
  obtain ⟨-, c, rest, more, -, -, hfronts, htext⟩ := eq_append_of_mem_allFrom h
  rw [hkind] at hfronts hholds
  cases hfronts with
  | single =>
    rw [htext, List.take_zero] at hholds ⊢
    rw [of_decide_eq_true (hholds c (List.mem_singleton_self c))]

/-- A pipe is read as one byte, and no other pipe follows it. -/
theorem spec_of_pipe {before after : List Lexeme} {pipe : Lexeme}
    (h : allFrom offset text = before ++ pipe :: after) (hpipe : pipe.kind = .pipe) :
    pipe.text = [Char.toUInt8 '|'] ∧ (joined after).head? ≠ some (Char.toUInt8 '|') := by
  fun_induction allFrom offset text generalizing before with
  | case1 => simp at h
  | case2 offset c rest kind more hfront ih =>
    cases before with
    | cons first before => exact ih (List.cons.inj h).2
    | nil =>
      obtain ⟨rfl, rfl⟩ := List.cons.inj h
      cases hpipe
      have hdouble : [Char.toUInt8 '|', Char.toUInt8 '|'] ∈ longOperators := by decide +kernel
      cases fronts_of_front hfront with
      | single _ hkind => simp at hkind
      | pipe hlong =>
        refine ⟨rfl, ?_⟩
        rw [joined_allFrom, List.drop_zero]
        intro hhead
        obtain ⟨tail, rfl⟩ := List.head?_eq_some_iff.1 hhead
        exact hlong _ hdouble rfl

end Lexeme

namespace Parameter

variable {lexemes group : List Lexeme} {parameter : Parameter} {text : Bytes} {offset : Nat}

/-- There is always a group. -/
theorem groups_ne_nil (lexemes : List Lexeme) : groups lexemes ≠ [] := by
  fun_induction groups lexemes <;> simp

/-- A lexeme that is no comma goes with the first group behind it. -/
theorem groups_cons {lexeme : Lexeme} (h : lexeme.kind ≠ .comma) (lexemes : List Lexeme) :
    ∃ first rest, groups lexemes = first :: rest ∧
      groups (lexeme :: lexemes) = (lexeme :: first) :: rest := by
  obtain ⟨first, rest, hgroups⟩ := List.exists_cons_of_ne_nil (groups_ne_nil lexemes)
  exact ⟨first, rest, hgroups, by rw [groups, if_neg h, hgroups]⟩

/-- The groups of visible lexemes are the visible lexemes of the groups. -/
theorem groups_filter (lexemes : List Lexeme) : groups (lexemes.filter (·.kind ≠ .blank)) =
    (groups lexemes).map (List.filter (·.kind ≠ .blank)) := by
  induction lexemes with
  | nil => rfl
  | cons lexeme lexemes ih =>
    by_cases hcomma : lexeme.kind = .comma
    · rw [List.filter_cons_of_pos (by simp [hcomma]), groups, if_pos hcomma,
        groups, if_pos hcomma, ih]
      rfl
    · obtain ⟨first, rest, hgroups, hcons⟩ := groups_cons hcomma lexemes
      rw [hgroups, List.map_cons] at ih
      rw [hcons, List.map_cons]
      by_cases hblank : lexeme.kind = .blank
      · rw [List.filter_cons_of_neg (by simp [hblank]),
          List.filter_cons_of_neg (by simp [hblank]), ih]
      · rw [List.filter_cons_of_pos (by simp [hblank]),
          List.filter_cons_of_pos (by simp [hblank]), groups, if_neg hcomma, ih]

/-- Joined with commas, the texts of the groups are the text of all lexemes. -/
theorem join_groups
    (h : ∀ lexeme ∈ lexemes, lexeme.kind = .comma → lexeme.text = [Char.toUInt8 ',']) :
    join [Char.toUInt8 ','] ((groups lexemes).map Lexeme.joined) = Lexeme.joined lexemes := by
  induction lexemes with
  | nil => simp [groups, join, Lexeme.joined]
  | cons lexeme lexemes ih =>
    rw [List.forall_mem_cons] at h
    have hrest := ih h.2
    by_cases hcomma : lexeme.kind = .comma
    · obtain ⟨first, rest, hgroups⟩ := List.exists_cons_of_ne_nil (groups_ne_nil lexemes)
      rw [hgroups, join, List.map_cons] at hrest
      rw [groups, if_pos hcomma, hgroups, List.map_cons, List.map_cons, join,
        List.intercalate_cons_cons, hrest, Lexeme.joined_cons, h.1 hcomma]
      rfl
    · obtain ⟨first, rest, hgroups, hcons⟩ := groups_cons hcomma lexemes
      rw [hgroups, List.map_cons, join_cons] at hrest
      rw [hcons, List.map_cons, join_cons, Lexeme.joined_cons, Lexeme.joined_cons,
        List.append_assoc, hrest]

/-- A group stands in the lexemes in one piece. -/
theorem infix_of_mem_groups (h : group ∈ groups lexemes) : group <:+: lexemes := by
  suffices hgroups : ∃ first rest, groups lexemes = first :: rest ∧ first <+: lexemes ∧
      ∀ group ∈ rest, group <:+: lexemes by
    obtain ⟨first, rest, hgroups, hfirst, hrest⟩ := hgroups
    rw [hgroups] at h
    rcases List.mem_cons.1 h with rfl | h
    · exact hfirst.isInfix
    · exact hrest group h
  clear h
  induction lexemes with
  | nil => exact ⟨[], [], rfl, List.nil_prefix, by simp⟩
  | cons lexeme lexemes ih =>
    obtain ⟨first, rest, hgroups, hfirst, hrest⟩ := ih
    have hwithin : ∀ group ∈ rest, group <:+: lexeme :: lexemes := fun group hgroup =>
      (hrest group hgroup).trans (List.suffix_cons ..).isInfix
    by_cases hcomma : lexeme.kind = .comma
    · refine ⟨[], first :: rest, by rw [groups, if_pos hcomma, hgroups], List.nil_prefix, ?_⟩
      exact List.forall_mem_cons.2 ⟨hfirst.isInfix.trans (List.suffix_cons ..).isInfix, hwithin⟩
    · exact ⟨lexeme :: first, rest, by rw [groups, if_neg hcomma, hgroups],
        List.cons_prefix_cons.2 ⟨rfl, hfirst⟩, hwithin⟩

/-- The bytes of lexemes that are blank are blanks. -/
theorem isBlankByte_of_mem_joined (hread : ∀ lexeme ∈ lexemes, lexeme ∈ Lexeme.allFrom offset text)
    (hblank : ∀ lexeme ∈ lexemes, lexeme.kind = .blank) : ∀ c ∈ Lexeme.joined lexemes,
      Lexeme.isBlankByte c = true := by
  intro c hc
  obtain ⟨lexeme, hlexeme, hc⟩ := List.mem_flatMap.1 hc
  have hholds := Lexeme.holds_of_mem_allFrom (hread lexeme hlexeme) c hc
  rwa [hblank lexeme hlexeme] at hholds

/-- The bytes of a type and of the blanks in it are blanks, or neither commas nor white space. -/
theorem bytes_of_type (hread : ∀ lexeme ∈ lexemes, lexeme ∈ Lexeme.allFrom offset text)
    (htype : ∀ lexeme ∈ lexemes, lexeme.kind ≠ .blank → isTypeLexeme lexeme = true) :
    ∀ c ∈ Lexeme.joined lexemes, Lexeme.isBlankByte c = true ∨ ¬ IsSpaceByte c ∧ c ≠ ',' := by
  have hbytes : ∀ c, LexemeKind.holds .name c = true ∨ LexemeKind.holds .operator c = true ∨
      LexemeKind.holds .bracket c = true → ¬ IsSpaceByte c ∧ c ≠ Char.toUInt8 ',' := by
      decide +kernel
  intro c hc
  obtain ⟨lexeme, hlexeme, hc⟩ := List.mem_flatMap.1 hc
  have hholds := Lexeme.holds_of_mem_allFrom (hread lexeme hlexeme) c hc
  by_cases hblank : lexeme.kind = .blank
  · rw [hblank] at hholds
    exact .inl hholds
  · have hkind := of_decide_eq_true (htype lexeme hlexeme hblank)
    simp only [List.mem_cons, List.not_mem_nil, or_false] at hkind
    refine .inr (hbytes c ?_)
    obtain hkind | hkind | hkind := hkind <;> rw [hkind] at hholds <;> simp [hholds]

/-- A type is spelled by what is left of its text without the blanks. -/
theorem compact_type (hread : ∀ lexeme ∈ lexemes, lexeme ∈ Lexeme.allFrom offset text)
    (htype : ∀ lexeme ∈ lexemes, lexeme.kind ≠ .blank → isTypeLexeme lexeme = true) :
    compact (Lexeme.joined lexemes) = Lexeme.joined (lexemes.filter (·.kind ≠ .blank)) := by
  refine Lexeme.compact_joined
    (fun lexeme hlexeme => Lexeme.holds_of_mem_allFrom (hread lexeme hlexeme)) ?_
  intro lexeme hlexeme hstring
  have hkind := htype lexeme hlexeme (by simp [hstring])
  rw [isTypeLexeme, hstring] at hkind
  exact absurd hkind (by decide)

/-- A type behind a pipe does not start with another pipe. -/
theorem head_ne_pipe {more : List Lexeme}
    (hread : ∀ lexeme ∈ lexemes, lexeme ∈ Lexeme.allFrom offset text)
    (hne : lexemes.filter (·.kind ≠ .blank) ≠ [])
    (hbehind : (Lexeme.joined (lexemes ++ more)).head? ≠ some (Char.toUInt8 '|')) :
    ∃ c ∈ (Lexeme.joined lexemes).head?, c ≠ Char.toUInt8 '|' := by
  cases lexemes with
  | nil => exact absurd rfl hne
  | cons lexeme lexemes =>
    obtain ⟨c, tail, htext⟩ :=
      List.exists_cons_of_ne_nil (Lexeme.text_ne_nil (hread lexeme (List.mem_cons_self ..)))
    rw [List.cons_append, Lexeme.joined_cons, htext] at hbehind
    rw [Lexeme.joined_cons, htext]
    exact ⟨c, rfl, fun heq => hbehind (heq ▸ rfl)⟩

/-- Only blanks stand between a type and the equals sign behind it. -/
theorem isBlankByte_of_endsWell (hread : ∀ lexeme ∈ lexemes, lexeme ∈ Lexeme.allFrom offset text)
    (hend : endsWell (lexemes.filter (·.kind ≠ .blank)) = true) :
    ∀ c ∈ (Lexeme.joined lexemes).takeWhile (· ≠ Char.toUInt8 '='),
      Lexeme.isBlankByte c = true := by
  induction lexemes with
  | nil => simp [Lexeme.joined]
  | cons lexeme lexemes ih =>
    rw [List.forall_mem_cons] at hread
    have hholds := Lexeme.holds_of_mem_allFrom hread.1
    rw [Lexeme.joined_cons]
    by_cases hblank : lexeme.kind = .blank
    · rw [List.filter_cons_of_neg (by simp [hblank])] at hend
      rw [hblank] at hholds
      have hplain : ∀ c ∈ lexeme.text, decide (c ≠ Char.toUInt8 '=') = true := by
        intro c hc
        refine decide_eq_true ?_
        rintro rfl
        exact absurd (hholds _ hc) (by decide)
      rw [List.takeWhile_append_of_pos hplain]
      intro c hc
      rcases List.mem_append.1 hc with hc | hc
      · exact hholds c hc
      · exact ih hread.2 hend c hc
    · rw [List.filter_cons_of_pos (by simp [hblank])] at hend
      have hassign := of_decide_eq_true (Bool.and_eq_true_iff.1 hend).1
      obtain ⟨c, tail, htext⟩ := List.exists_cons_of_ne_nil (Lexeme.text_ne_nil hread.1)
      rw [hassign, htext] at hholds
      rw [htext, of_decide_eq_true (hholds c (List.mem_cons_self ..))]
      simp

/-- Blanks behind a text are trimmed away. -/
theorem trim_append_blanks {tail : Bytes} (htail : ∀ c ∈ tail, Lexeme.isBlankByte c = true)
    (text : Bytes) :
    trim (text ++ tail) = trim text := by
  induction tail using List.reverseRecOn with
  | nil => rw [List.append_nil]
  | append_singleton tail c ih =>
    have hc : SpacePoint [c] := .one (Lexeme.isBlankByte_spec (htail c (by simp))).1
    rw [← List.append_assoc, hc.trim_append_right, ih fun d hd => htail d (by simp [hd])]

/-- Blanks around a name are trimmed away. -/
theorem trim_blanks {lead name tail : Bytes} (hlead : ∀ c ∈ lead, Lexeme.isBlankByte c = true)
    (htail : ∀ c ∈ tail, Lexeme.isBlankByte c = true) (hname : ∀ c ∈ name, isNamePart c = true) :
    trim (lead ++ (name ++ tail)) = name := by
  rw [trim_blank_append fun c hc => (Lexeme.isBlankByte_spec (hlead c hc)).1,
    trim_append_blanks htail]
  exact trim_eq_self fun c hc => (Lexeme.isNamePart_spec (hname c hc)).1

/-- The first piece of a text that reads name, pipe, type and what follows the type. -/
theorem cutTag?_first {lead name gap type value : Bytes}
    (hlead : ∀ c ∈ lead, Lexeme.isBlankByte c = true) (hname : ∀ c ∈ name, isNamePart c = true)
    (hgap : ∀ c ∈ gap, Lexeme.isBlankByte c = true) (hhead : ∃ c ∈ type.head?, c ≠ '|')
    (htype : ∀ c ∈ type, Lexeme.isBlankByte c = true ∨ ¬ IsSpaceByte c ∧ c ≠ ',')
    (hvalue : ∀ c ∈ value.takeWhile (· ≠ Char.toUInt8 '='), Lexeme.isBlankByte c = true) :
    ∃ first rest tag, (lead ++ (name ++ gap) ++ Char.toUInt8 '|' :: type ++ value).split ',' =
      first :: rest ∧
      cutTag? first = some tag ∧ (Char.toUInt8 '=' ∉ type → tag = ⟨name, trim type⟩) := by
  have hfront : ∀ c ∈ lead ++ (name ++ gap), c ≠ Char.toUInt8 '|' ∧ c ≠ Char.toUInt8 ',' := by
    intro c hc
    rcases List.mem_append.1 hc with hc | hc
    · exact (Lexeme.isBlankByte_spec (hlead c hc)).2.2
    · rcases List.mem_append.1 hc with hc | hc
      · exact (Lexeme.isNamePart_spec (hname c hc)).2
      · exact (Lexeme.isBlankByte_spec (hgap c hc)).2.2
  have hcomma : Char.toUInt8 ',' ∉ lead ++ (name ++ gap) ++ Char.toUInt8 '|' :: type := by
    intro hmem
    rcases List.mem_append.1 hmem with hmem | hmem
    · exact (hfront _ hmem).2 rfl
    · rcases List.mem_cons.1 hmem with hmem | hmem
      · exact absurd hmem (by decide)
      · exact (htype _ hmem).elim (fun hc => (Lexeme.isBlankByte_spec hc).2.2.2 rfl)
          fun hc => hc.2 rfl
  -- the value may hold commas, and its part up to the first one belongs to the piece
  obtain ⟨piece, rest, hpiece, hsplit⟩ := split_append_of_not_mem hcomma value
  have hback : (type ++ piece).head? ≠ some (Char.toUInt8 '|') := by
    obtain ⟨c, hc, hne⟩ := hhead
    rw [List.head?_append, hc]
    exact fun heq => hne (Option.some.inj heq)
  refine ⟨_, rest, ⟨trim (lead ++ (name ++ gap)), trim ((type ++ piece).takeWhile (· ≠ '='))⟩,
    hsplit, ?_, ?_⟩
  · rw [List.append_assoc, List.cons_append, cutTag?,
      atPipe?_append_pipe (fun c hc => (hfront c hc).1) hback]
    rfl
  · intro hassign
    have hself : ∀ c ∈ type, decide (c ≠ Char.toUInt8 '=') = true := fun c hc =>
      decide_eq_true fun heq => hassign (heq ▸ hc)
    have hshort : ∀ c ∈ piece.takeWhile (· ≠ Char.toUInt8 '='), Lexeme.isBlankByte c = true := by
      have hjoin := join_split (Char.toUInt8 ',') value
      rw [hpiece, join_cons] at hjoin
      intro c hc
      refine hvalue c ?_
      rw [← hjoin, List.takeWhile_append]
      split
      · exact List.mem_append_left _ ((List.takeWhile_sublist _).subset hc)
      · exact hc
    rw [trim_blanks hlead hgap hname, List.takeWhile_append_of_pos hself, trim_append_blanks hshort]

/-- How lexemes with blanks between them spell a typed parameter. -/
theorem parts_of_spells (hspells : Spells (group.filter (·.kind ≠ .blank)) parameter)
    (htype : parameter.type ≠ []) : ∃ name pipe : Lexeme, ∃ lead gap type rest : List Lexeme,
      group = lead ++ name :: (gap ++ pipe :: (type ++ rest)) ∧
        (∀ lexeme ∈ lead ++ gap, lexeme.kind = .blank) ∧
      name.kind = .name ∧ pipe.kind = .pipe ∧
      (∀ lexeme ∈ type, lexeme.kind ≠ .blank → isTypeLexeme lexeme = true) ∧
      type.filter (·.kind ≠ .blank) ≠ [] ∧
      endsWell (rest.filter (·.kind ≠ .blank)) = true ∧
      parameter = ⟨name.text, Lexeme.joined (type.filter (·.kind ≠ .blank))⟩ := by
  generalize hvisible : group.filter (·.kind ≠ .blank) = visible at hspells
  cases hspells with
  | bare => exact absurd rfl htype
  | @tagged name pipe type rest hname hpipe htypes hne hend =>
    obtain ⟨lead, _, rfl, hlead, -, hvisible⟩ := List.filter_eq_cons_iff.1 hvisible
    obtain ⟨gap, _, rfl, hgap, -, hvisible⟩ := List.filter_eq_cons_iff.1 hvisible
    obtain ⟨spelled, behind, rfl, rfl, rfl⟩ := List.filter_eq_append_iff.1 hvisible
    refine ⟨name, pipe, lead, gap, spelled, behind, rfl, ?_, hname, hpipe,
      fun lexeme hlexeme hkind => ?_, hne, hend, rfl⟩
    · simpa [or_imp, forall_and] using And.intro hlead hgap
    · exact htypes lexeme (List.mem_filter.2 ⟨hlexeme, by simpa using hkind⟩)

/-- A typed parameter that lexemes spell is the tag of the first piece of their text, and only the
blanks in its type are left out, unless its type holds an equals sign. -/
theorem cutTag?_of_group (hwithin : group <:+: Lexeme.allFrom offset text)
    (hspells : Spells (group.filter (·.kind ≠ .blank)) parameter) (htype : parameter.type ≠ []) :
    ∃ first rest tag spelled, (Lexeme.joined group).split ',' = first :: rest ∧
      cutTag? first = some tag ∧
      compact spelled = parameter.type ∧
      (∀ c ∈ spelled, Lexeme.isBlankByte c = true ∨ ¬ IsSpaceByte c ∧ c ≠ ',') ∧
      (Char.toUInt8 '=' ∉ parameter.type → tag = ⟨parameter.name, trim spelled⟩) := by
  obtain ⟨before, after, hall⟩ := hwithin
  obtain ⟨name, pipe, lead, gap, spelled, value, rfl, hblank, hname, hpipe,
      hpart, hne, hend, rfl⟩ :=
    parts_of_spells hspells htype
  have hread : ∀ lexeme ∈ lead ++ name :: (gap ++ pipe :: (spelled ++ value)),
      lexeme ∈ Lexeme.allFrom offset text := by
    intro lexeme hlexeme
    rw [← hall]
    exact List.mem_append_left _ (List.mem_append_right _ hlexeme)
  simp only [List.forall_mem_append, List.forall_mem_cons] at hread hblank
  obtain ⟨hleadRead, hnameRead, hgapRead, hpipeRead, hspelledRead, hvalueRead⟩ := hread
  have hall' : Lexeme.allFrom offset text =
      (before ++ (lead ++ name :: gap)) ++ pipe :: (spelled ++ (value ++ after)) := by
    rw [← hall]
    simp
  obtain ⟨hpipeText, hbehind⟩ := Lexeme.spec_of_pipe hall' hpipe
  have hjoined : Lexeme.joined (lead ++ name :: (gap ++ pipe :: (spelled ++ value))) =
      Lexeme.joined lead ++ (name.text ++ Lexeme.joined gap) ++ Char.toUInt8 '|' ::
      Lexeme.joined spelled ++
        Lexeme.joined value := by
    simp [Lexeme.joined_append, Lexeme.joined_cons, hpipeText]
  have hnameBytes := Lexeme.holds_of_mem_allFrom hnameRead
  rw [hname] at hnameBytes
  have htypeBytes := bytes_of_type hspelledRead hpart
  obtain ⟨first, rest, tag, hsplit, htag, hagrees⟩ := cutTag?_first
    (isBlankByte_of_mem_joined hleadRead hblank.1) hnameBytes
    (isBlankByte_of_mem_joined hgapRead hblank.2)
    (head_ne_pipe hspelledRead hne hbehind) htypeBytes (isBlankByte_of_endsWell hvalueRead hend)
  have hcompact := compact_type hspelledRead hpart
  refine ⟨first, rest, tag, Lexeme.joined spelled, hjoined ▸ hsplit, htag, hcompact,
    htypeBytes, fun hassign => ?_⟩
  rw [← hcompact] at hassign
  exact hagrees fun hmem => hassign (mem_compact.2 ⟨hmem, by decide⟩)

/-- How a text carries the tag of a parameter: the first of its pieces has a tag, and the parameter
is this one up to white space, unless its type holds an equals sign. -/
def Carries (text : Bytes) (parameter : Parameter) : Prop :=
  ∃ first rest tag, text.split ',' = first :: rest ∧ cutTag? first = some tag ∧
    (Char.toUInt8 '=' ∉ parameter.type → parameter.Agrees tag)

/-- A typed parameter that lexemes spell is carried by their text. -/
theorem carries_of_group (hwithin : group <:+: Lexeme.allFrom offset text)
    (hspells : Spells (group.filter (·.kind ≠ .blank)) parameter) (htype : parameter.type ≠ []) :
    Carries (Lexeme.joined group) parameter := by
  obtain ⟨first, rest, tag, spelled, hsplit, htag, hcompact, hbytes, hsame⟩ :=
    cutTag?_of_group hwithin hspells htype
  refine ⟨first, rest, tag, hsplit, htag, fun hassign => ?_⟩
  have hsolid : ∀ c ∈ spelled, Lexeme.isBlankByte c = true ∨ ¬ IsSpaceByte c :=
    fun c hc => (hbytes c hc).imp_right And.left
  rw [hsame hassign]
  refine ⟨rfl, ?_⟩
  rw [← hcompact, solid_compact hsolid, solid_trim, solid_eq_compact hsolid]

/-- A list that is read as lexemes has a parameter for every group that is not empty. -/
theorem eq_filterMap_of_listOfLexemes? {parameters : List Parameter}
    (h : listOfLexemes? lexemes = some parameters) :
    (groups lexemes).filterMap ofLexemes? = parameters ∧ ∀ group ∈ groups lexemes, group ≠ [] →
      ofLexemes? group ≠ none := by
  obtain ⟨first, rest, hgroups⟩ := List.exists_cons_of_ne_nil (groups_ne_nil lexemes)
  rw [listOfLexemes?, hgroups] at h
  obtain ⟨parameter, hparameter, h⟩ := Option.bind_eq_some_iff.1 h
  obtain ⟨others, hothers, h⟩ := Option.bind_eq_some_iff.1 h
  cases h
  have hread := map_of_mapM hothers
  have hmap : (rest.filter (!·.isEmpty)).filterMap ofLexemes? = others := by
    simpa using congrArg (List.filterMap id) hread
  have hall : ∀ group ∈ rest.filter (!·.isEmpty), ofLexemes? group ≠ none :=
      fun group hgroup hnone => by
    simpa [hread, hnone] using List.mem_map_of_mem (f := ofLexemes?) hgroup
  rw [hgroups, List.filterMap_cons_some hparameter, ← hmap, List.filterMap_filter]
  constructor
  · congr 1
    refine List.filterMap_congr fun group _ => ?_
    cases group <;> rfl
  · refine List.forall_mem_cons.2 ⟨fun _ => by simp [hparameter], fun group hgroup hne => ?_⟩
    exact hall group (List.mem_filter.2 ⟨hgroup, by simpa using hne⟩)

/-- The texts that the parameters of a list are read from, each with its parameter. -/
def reading (text : Bytes) : List (Bytes × Parameter) :=
  if (listOfLexemes? (Lexeme.visible text)).isSome then
    (groups (Lexeme.all text)).filterMap fun group =>
      (ofLexemes? (group.filter (·.kind ≠ .blank))).map fun parameter =>
        (Lexeme.joined group, parameter)
  else
    (text.split ',').filterMap fun piece =>
      if piece.isBlank then none else some (piece, ofPiece piece.trim)

/-- A list that is read as lexemes is not blank. -/
theorem isBlank_of_listOfLexemes? {parameters : List Parameter}
    (h : listOfLexemes? (Lexeme.visible text) = some parameters) : text.isBlank = false := by
  obtain ⟨first, rest, hgroups⟩ := List.exists_cons_of_ne_nil (groups_ne_nil (Lexeme.visible text))
  rw [listOfLexemes?, hgroups] at h
  obtain ⟨parameter, hparameter, -⟩ := Option.bind_eq_some_iff.1 h
  -- the first group starts with a name
  obtain ⟨name, hmem, hname⟩ : ∃ name ∈ first, name.kind = .name := by
    cases spells_of_ofLexemes? hparameter with
    | bare hname => exact ⟨_, List.mem_cons_self .., hname⟩
    | tagged hname => exact ⟨_, List.mem_cons_self .., hname⟩
  have hread : name ∈ Lexeme.allFrom 0 text :=
    List.mem_of_mem_filter (subset_of_mem_groups _ first (hgroups ▸ List.mem_cons_self ..) hmem)
  obtain ⟨c, hc, hholds⟩ := Lexeme.exists_holds hread
  rw [← Bool.not_eq_true]
  intro hblank
  rw [hname] at hholds
  exact (Lexeme.isNamePart_spec hholds).1 (isSpaceByte_of_isBlank hblank c hc)

/-- The parameters of a text are those that are read from its parts. -/
theorem decodeParameters_eq (text : Bytes) :
    decodeParameters text = (reading text).map Prod.snd := by
  rw [decodeParameters, reading]
  cases hlist : listOfLexemes? (Lexeme.visible text) with
  | some parameters =>
    rw [isBlank_of_listOfLexemes? hlist, ← (eq_filterMap_of_listOfLexemes? hlist).1,
      Lexeme.visible, groups_filter, List.filterMap_map]
    simp [List.map_filterMap, Function.comp_def]
  | none =>
    have hpieces : ∀ list : List Bytes, ((list.map trim).filter (!·.isEmpty)).map ofPiece =
        (list.filterMap fun piece =>
          if piece.isBlank then none else some (piece, ofPiece piece.trim)).map Prod.snd := by
      intro list
      induction list with
      | nil => rfl
      | cons piece list ih =>
        by_cases hblank : piece.isBlank = true
        · simp [trim_eq_nil_iff.2 hblank, hblank, ih]
        · have hne : trim piece ≠ [] := mt trim_eq_nil_iff.1 hblank
          simp [hne, hblank, ih]
    by_cases hblank : text.isBlank = true
    · have hplain : Char.toUInt8 ',' ∉ text := fun hmem =>
        absurd (isSpaceByte_of_isBlank hblank _ hmem) (by decide)
      simp [hblank, split_of_not_mem hplain]
    · rw [if_neg hblank]
      exact hpieces (text.split ',')

/-- A piece between commas has one tag at most. -/
theorem cutTags_of_not_mem (h : Char.toUInt8 ',' ∉ text) :
    cutTags text = (cutTag? text).toList := by
  rw [cutTags, split_of_not_mem h, List.filterMap_eq_flatMap_toList]
  simp

/-- White space has no tags. -/
theorem cutTags_of_space (h : ∀ c ∈ text, IsSpaceByte c) : cutTags text = [] := by
  have hcomma : Char.toUInt8 ',' ∉ text := fun hmem => absurd (h _ hmem) (by decide)
  have hpipe := pipeIndex?_append_of_forall (fun c hc => (h c hc).ne_pipe) []
  rw [List.append_nil] at hpipe
  have hnone : cutTag? text = none := by
    rw [cutTag?_eq_none_iff, atPipe?_eq_none_iff, hpipe]
    rfl
  rw [cutTags_of_not_mem hcomma, hnone]
  rfl

/-- The pieces of a text are those of the texts of its groups. -/
theorem split_groups (text : Bytes) :
    text.split ',' = (groups (Lexeme.all text)).flatMap fun group =>
      (Lexeme.joined group).split ',' := by
  have hjoin := join_groups fun lexeme (hlexeme : lexeme ∈ Lexeme.all text) =>
    Lexeme.text_of_comma hlexeme
  rw [Lexeme.all, Lexeme.joined_allFrom] at hjoin
  have hne : (groups (Lexeme.allFrom 0 text)).map Lexeme.joined ≠ [] :=
    List.map_eq_nil_iff.not.2 (groups_ne_nil _)
  have hsplit : split ','
      (join [Char.toUInt8 ','] ((groups (Lexeme.allFrom 0 text)).map Lexeme.joined)) = _ :=
    split_join_eq hne
  rwa [hjoin, List.flatMap_map] at hsplit

/-- The tags of a text are those of the texts that its parameters are read from. -/
theorem cutTags_eq (text : Bytes) :
    cutTags text = (reading text).flatMap fun (part, _) => cutTags part := by
  rw [reading]
  cases hlist : listOfLexemes? (Lexeme.visible text) with
  | some parameters =>
    rw [Option.isSome_some, if_pos rfl, List.filterMap_eq_flatMap_toList, List.flatMap_assoc,
      cutTags, split_groups, List.filterMap_flatMap]
    refine List.flatMap_congr fun group hgroup => ?_
    cases hspelled : ofLexemes? (group.filter (·.kind ≠ .blank)) with
    | some parameter => simp [cutTags]
    | none =>
      -- a group that spells no parameter has no visible lexemes
      have hmem : group.filter (·.kind ≠ .blank) ∈ groups (Lexeme.visible text) := by
        rw [Lexeme.visible, groups_filter]
        exact List.mem_map_of_mem hgroup
      have hnil : group.filter (·.kind ≠ .blank) = [] := by
        by_contra hne
        exact (eq_filterMap_of_listOfLexemes? hlist).2 _ hmem hne hspelled
      have hkinds : ∀ lexeme ∈ group, lexeme.kind = .blank := by
        simpa [List.filter_eq_nil_iff] using hnil
      have hread : ∀ lexeme ∈ group, lexeme ∈ Lexeme.allFrom 0 text :=
        (infix_of_mem_groups hgroup).subset
      exact cutTags_of_space fun c hc =>
        .inl (Lexeme.isBlankByte_spec (isBlankByte_of_mem_joined hread hkinds c hc)).1
  | none =>
    rw [Option.isSome_none, if_neg Bool.false_ne_true, List.filterMap_eq_flatMap_toList,
      List.flatMap_assoc, cutTags, List.filterMap_eq_flatMap_toList]
    refine List.flatMap_congr fun piece hpiece => ?_
    rw [← cutTags_of_not_mem (not_mem_of_mem_split hpiece)]
    by_cases hspace : piece.isBlank = true
    · simp [hspace, cutTags_of_space (isSpaceByte_of_isBlank hspace)]
    · simp [hspace]

/-- A typed parameter is carried by the text that it is read from. -/
theorem carries_of_mem_reading {part : Bytes} (h : (part, parameter) ∈ reading text)
    (htype : parameter.type ≠ []) :
    Carries part parameter := by
  rw [reading] at h
  split at h
  · obtain ⟨group, hgroup, h⟩ := List.mem_filterMap.1 h
    obtain ⟨spelled, hspelled, h⟩ := Option.map_eq_some_iff.1 h
    cases h
    exact carries_of_group (infix_of_mem_groups hgroup) (spells_of_ofLexemes? hspelled) htype
  · obtain ⟨piece, hpiece, h⟩ := List.mem_filterMap.1 h
    split at h
    · cases h
    · obtain ⟨rfl, rfl⟩ : piece = part ∧ ofPiece piece.trim = parameter := by simpa using h
      rw [ofPiece_eq, cutTag?_trim] at htype ⊢
      cases htag : cutTag? piece with
      | none =>
        rw [htag] at htype
        exact absurd rfl htype
      | some tag =>
        exact ⟨piece, [], tag, split_of_not_mem (not_mem_of_mem_split hpiece), htag,
          fun _ => ⟨rfl, rfl⟩⟩

/-- The type of a tag that is cut out holds no equals sign. -/
theorem assign_not_mem_of_cutTag? {tag : Parameter} (h : cutTag? text = some tag) :
    Char.toUInt8 '=' ∉ tag.type := by
  intro hmem
  obtain ⟨⟨front, back⟩, -, rfl⟩ := Option.map_eq_some_iff.1 h
  simpa using List.mem_takeWhile_imp (trim_subset _ hmem)

/-- Parameters that agree hold an equals sign in both types or in none. -/
theorem Agrees.assign_mem {other : Parameter} (h : parameter.Agrees other)
    (hmem : Char.toUInt8 '=' ∈ parameter.type) :
    Char.toUInt8 '=' ∈ other.type := by
  have hsolid := mem_solid hmem (by decide)
  rw [h.type] at hsolid
  exact solid_subset _ hsolid

/-- The parameter, if it is typed. -/
def typed (parameter : Parameter) : List Parameter := [parameter].filter (!·.type.isEmpty)

/-- Whether the text of a parameter has the tag of the parameter and no other one. -/
def soleTag (text : Bytes) (parameter : Parameter) : Bool :=
  if parameter.type.isEmpty then lacksTag text
  else !parameter.type.contains '=' && (text.split ',').tail.all lacksTag

/-- A text has no tags if it has no single pipe. -/
theorem cutTags_eq_nil_iff : cutTags text = [] ↔ lacksTag text = true := by
  rw [cutTags, List.filterMap_eq_nil_iff, lacksTag_iff, cutTag?_eq_none_iff, atPipe?_eq_none_iff]
  have hjoin := pipeIndex?_join (by decide : Char.toUInt8 ',' ≠ '|') (text.split ',')
  rw [join_split] at hjoin
  simp only [hjoin, cutTag?_eq_none_iff, atPipe?_eq_none_iff]

section Part

variable {part : Bytes} (hcarries : parameter.type ≠ [] → Carries part parameter)

include hcarries

/-- The text of a typed parameter has a tag. -/
theorem length_typed_le : (typed parameter).length ≤ (cutTags part).length := by
  by_cases htype : parameter.type = []
  · simp [typed, htype]
  · obtain ⟨first, rest, tag, hsplit, htag, -⟩ := hcarries htype
    simp [typed, htype, cutTags, hsplit, htag]

/-- The tags of a parameter's text agree with it exactly when its own is the only one. -/
theorem agrees_typed_iff : List.Forall₂ Agrees (typed parameter) (cutTags part) ↔
    soleTag part parameter = true := by
  by_cases htype : parameter.type = []
  · simp [typed, soleTag, htype, ← cutTags_eq_nil_iff]
  · obtain ⟨first, rest, tag, hsplit, htag, hagrees⟩ := hcarries htype
    have htyped : typed parameter = [parameter] := by simp [typed, htype]
    rw [htyped, cutTags, hsplit, List.filterMap_cons_some htag, List.forall₂_cons,
      List.forall₂_nil_left_iff, List.filterMap_eq_nil_iff]
    have hassign : parameter.Agrees tag ↔ Char.toUInt8 '=' ∉ parameter.type :=
      ⟨fun h hmem => assign_not_mem_of_cutTag? htag (h.assign_mem hmem), hagrees⟩
    simp [soleTag, htype, hsplit, hassign, lacksTag_iff]

/-- A typed parameter without an equals sign in its type agrees with the tag of its text, if there
is only one. -/
theorem agrees_typed_of_length (hlength : (typed parameter).length = (cutTags part).length)
    (hassign : Char.toUInt8 '=' ∉ parameter.type) :
    List.Forall₂ Agrees (typed parameter) (cutTags part) := by
  by_cases htype : parameter.type = []
  · have htyped : typed parameter = [] := by simp [typed, htype]
    rw [htyped] at hlength ⊢
    rw [List.eq_nil_of_length_eq_zero hlength.symm]
    exact .nil
  · obtain ⟨first, rest, tag, hsplit, htag, hagrees⟩ := hcarries htype
    have htyped : typed parameter = [parameter] := by simp [typed, htype]
    rw [htyped, cutTags, hsplit, List.filterMap_cons_some htag] at hlength ⊢
    rw [List.eq_nil_of_length_eq_zero (Nat.succ.inj hlength).symm]
    exact .cons (hagrees hassign) .nil

end Part

/-- The typed parameters of a text, part by part. -/
theorem filter_decodeParameters (text : Bytes) : (decodeParameters text).filter (!·.type.isEmpty) =
    (reading text).flatMap fun (_, parameter) => typed parameter := by
  rw [decodeParameters_eq]
  induction reading text with
  | nil => rfl
  | cons read rest ih =>
    rw [List.map_cons, List.flatMap_cons, ← ih, ← List.singleton_append, List.filter_append]
    rfl

/-- A text has no more typed parameters than tags. -/
theorem length_filter_decodeParameters_le (text : Bytes) :
    ((decodeParameters text).filter (!·.type.isEmpty)).length ≤ (cutTags text).length := by
  rw [filter_decodeParameters, cutTags_eq]
  exact length_flatMap_le fun _ hread => length_typed_le (carries_of_mem_reading hread)

/-- The typed parameters of a text agree with its tags exactly when in each text that a parameter is
read from the tag of the parameter is the only one. -/
theorem agrees_cutTags_iff (text : Bytes) :
    List.Forall₂ Agrees ((decodeParameters text).filter (!·.type.isEmpty)) (cutTags text) ↔
      ∀ read ∈ reading text, soleTag read.1 read.2 = true := by
  rw [filter_decodeParameters, cutTags_eq, forall₂_flatMap_iff fun _ hread => length_typed_le
    (carries_of_mem_reading hread)]
  exact forall₂_congr fun _ hread => agrees_typed_iff (carries_of_mem_reading hread)

/-- As many typed parameters as tags agree with them if no type holds an equals sign. -/
theorem agrees_cutTags_of_length
    (hlength : ((decodeParameters text).filter (!·.type.isEmpty)).length = (cutTags text).length)
    (hassign : ∀ parameter ∈ (decodeParameters text).filter (!·.type.isEmpty),
      Char.toUInt8 '=' ∉ parameter.type) :
    List.Forall₂ Agrees ((decodeParameters text).filter (!·.type.isEmpty)) (cutTags text) := by
  have hle : ∀ read ∈ reading text, (typed read.2).length ≤ (cutTags read.1).length :=
      fun _ hread => length_typed_le (carries_of_mem_reading hread)
  rw [filter_decodeParameters] at hlength hassign ⊢
  rw [cutTags_eq] at hlength ⊢
  rw [forall₂_flatMap_iff hle]
  intro read hread
  refine agrees_typed_of_length (carries_of_mem_reading hread)
    (length_eq_of_flatMap hle hlength read hread) ?_
  intro hmem
  have htyped : read.2 ∈ typed read.2 := by
    have hne : read.2.type ≠ [] := List.ne_nil_of_mem hmem
    simp [typed, hne]
  exact hassign read.2 (List.mem_flatMap.2 ⟨read, hread, htyped⟩) hmem

end Parameter

end TagScript
