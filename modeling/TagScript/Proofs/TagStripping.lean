import TagScript.Proofs.TaggedTexts

/-!
# What stripping leaves of a parameter list

Stripping should take the pipe and the type of every tagged parameter out of a list and leave the
other lexemes as they are. Two things can go wrong. A text that a parameter is read from can have a
single pipe that is not the pipe of the parameter, in a default value or in a string literal. And a
list that has a tag is tidied as well: white space around a comma goes, which matters where the
comma stands inside a string literal. If neither is the case, stripping takes out the tags and
nothing else.

The list is read part by part, where a part is the text between two commas that are lexemes. Parts
are stripped and tidied one by one, and a stripped part may be exchanged for the tidied one without
a quote being closed across a comma that was not before.
-/

namespace TagScript

open Bytes

namespace Parameter

variable {text : Bytes}

/-- A text without visible lexemes is tidied and stripped to nothing. -/
theorem strip_of_visible (h : Lexeme.visible text = []) :
    tidy text = [] ∧ mapPieces stripTrimmed text = [] := by
  have hblank := isBlank_of_visible h
  have hcomma : Char.toUInt8 ',' ∉ text :=
    fun hmem => absurd (isSpaceByte_of_isBlank hblank _ hmem) (by decide)
  have hpieces : text.split ',' = [text] := split_of_not_mem hcomma
  rw [tidy, mapPieces_eq hpieces, mapPieces_eq hpieces, stripTrimmed, trim_eq_nil_iff.2 hblank]
  exact ⟨rfl, rfl⟩

/-- The texts of the groups of a text. -/
def parts (text : Bytes) : List Bytes := (groups (Lexeme.spelling text)).map Lexeme.joined

/-- A text has a part. -/
theorem parts_ne_nil (text : Bytes) : parts text ≠ [] := List.map_eq_nil_iff.not.2 (groups_ne_nil _)

/-- The parts of a text make it up. -/
theorem join_parts (text : Bytes) : join [Char.toUInt8 ','] (parts text) = text :=
  Lexeme.join_groups_spelling text

/-- The visible lexemes of the parts are the groups of visible lexemes. -/
theorem groups_sequence (text : Bytes) :
    groups (Lexeme.sequence text) = (parts text).map Lexeme.sequence := by
  have hread := (Lexeme.apartAll_groups text).2
  rw [Lexeme.sequence_eq, groups_filter, parts, List.map_map]
  nth_rewrite 1 [← hread]
  rw [List.map_map]
  exact List.map_congr_left fun group _ => (Lexeme.sequence_eq _).symm

/-- Lexemes that stand in a text with commas between them are the commas and their groups. -/
theorem intercalate_groups_sequence (text : Bytes) :
    List.intercalate [Lexeme.comma] (groups (Lexeme.sequence text)) = Lexeme.sequence text := by
  refine intercalate_groups fun lexeme hlexeme hkind => ?_
  rw [Lexeme.sequence_eq] at hlexeme
  exact Lexeme.eq_comma_of_mem_spelling (List.mem_of_mem_filter hlexeme) hkind

/-- The parts of a text are rewritten to given lexemes exactly when they are apart and each of them
is. -/
theorem sequence_join_iff {f : Bytes → Bytes} {g : List Lexeme → List Lexeme}
    (hcount : ∀ part ∈ parts text, (f part).count (Char.toUInt8 ',') =
      (Lexeme.joined (g (Lexeme.sequence part))).count (Char.toUInt8 ','))
    (hplain : ∀ part ∈ parts text, ∀ lexeme ∈ g (Lexeme.sequence part), lexeme.kind ≠ .comma) :
    Lexeme.sequence (join [Char.toUInt8 ','] ((parts text).map f)) =
        List.intercalate [Lexeme.comma] ((groups (Lexeme.sequence text)).map g) ↔
      Lexeme.ApartAll ((parts text).map f) ∧ ∀ part ∈ parts text, Lexeme.sequence (f part) =
        g (Lexeme.sequence part) := by
  have hne : (parts text).map f ≠ [] := List.map_eq_nil_iff.not.2 (parts_ne_nil text)
  have hgroups : ∀ group ∈ (groups (Lexeme.sequence text)).map g, ∀ lexeme ∈ group,
      lexeme.kind ≠ .comma := by
    rw [groups_sequence, List.map_map]
    simpa using hplain
  have hcounts : ((parts text).map f).map (List.count (Char.toUInt8 ',')) =
      ((groups (Lexeme.sequence text)).map g).map fun group => (Lexeme.joined group).count
      (Char.toUInt8 ',') := by
    rw [groups_sequence, List.map_map, List.map_map, List.map_map]
    exact List.map_congr_left hcount
  have heach : ((parts text).map f).map Lexeme.sequence = (groups (Lexeme.sequence text)).map g ↔
      ∀ part ∈ parts text, Lexeme.sequence (f part) = g (Lexeme.sequence part) := by
    rw [groups_sequence, List.map_map, List.map_map, List.map_inj_left]
    rfl
  rw [← heach, ← Lexeme.groups_sequence_iff hne hgroups hcounts]
  constructor
  · intro h
    rw [h, groups_intercalate rfl (List.map_eq_nil_iff.not.2 (groups_ne_nil _)) hgroups]
  · intro h
    rw [← h, intercalate_groups_sequence]

/-- Without the tag there are no more lexemes. -/
theorem withoutTag_subset (lexemes : List Lexeme) : withoutTag lexemes ⊆ lexemes := by
  match lexemes with
  | [] => simp [withoutTag]
  | [name] => simp [withoutTag]
  | name :: second :: rest =>
    rw [withoutTag]
    split
    · refine List.cons_subset_cons _ ?_
      exact List.Subset.trans (List.dropWhile_sublist _).subset (List.subset_cons_self ..)
    · exact List.Subset.refl _

/-- A tag has no commas. -/
theorem count_withoutTag {lexemes : List Lexeme} (h : lexemes ⊆ Lexeme.spelling text) :
    (Lexeme.joined (withoutTag lexemes)).count (Char.toUInt8 ',') = (Lexeme.joined lexemes).count
    (Char.toUInt8 ',') := by
  have hnone : ∀ {dropped : List Lexeme}, dropped ⊆ Lexeme.spelling text →
      (∀ lexeme ∈ dropped, lexeme.kind ≠ .string ∧ lexeme.kind ≠ .comma) →
      (Lexeme.joined dropped).count (Char.toUInt8 ',') = 0 := by
    intro dropped hread hkinds
    refine List.count_eq_zero.2 fun hmem => ?_
    obtain ⟨lexeme, hlexeme, hmem⟩ := List.mem_flatMap.1 hmem
    obtain ⟨placed, hplaced, rfl⟩ := Lexeme.exists_of_mem_spelling (hread hlexeme)
    obtain ⟨hstring, hcomma⟩ := hkinds _ hlexeme
    exact LexemeKind.ne_comma (Lexeme.holds_of_mem_allFrom hplaced _ hmem) hstring hcomma rfl
  match lexemes with
  | [] => rfl
  | [name] => rfl
  | name :: second :: rest =>
    rw [withoutTag]
    split
    next hpipe =>
      obtain ⟨-, hsecond, hrest⟩ : name ∈ Lexeme.spelling text ∧ second ∈ Lexeme.spelling text ∧
          rest ⊆ Lexeme.spelling text := by
        simpa using h
      have htypes : (Lexeme.joined (rest.takeWhile isTypeLexeme)).count (Char.toUInt8 ',') = 0 := by
        refine hnone (List.Subset.trans (List.takeWhile_sublist _).subset hrest)
          fun lexeme hlexeme => ?_
        have htype : isTypeLexeme lexeme = true := List.mem_takeWhile_imp hlexeme
        have hkind := of_decide_eq_true htype
        constructor <;> (intro heq; simp [heq] at hkind)
      have hpiped : (Lexeme.joined [second]).count (Char.toUInt8 ',') = 0 :=
        hnone (by simpa using hsecond) (by simp [hpipe])
      have hdivided : name :: second :: rest =
          [name] ++ ([second] ++ (rest.takeWhile isTypeLexeme ++ rest.dropWhile isTypeLexeme)) := by
          simp
      rw [hdivided]
      simp only [Lexeme.joined_append, List.count_append, htypes, hpiped]
      rw [← List.singleton_append, Lexeme.joined_append, List.count_append]
      omega
    next => rfl

/-- Without pipes there are no tags. -/
theorem withoutTags_of_kind (h : ∀ lexeme ∈ Lexeme.sequence text, lexeme.kind ≠ .pipe) :
    withoutTags (Lexeme.sequence text) = Lexeme.sequence text := by
  have hkeep : ∀ group ∈ groups (Lexeme.sequence text), withoutTag group = group := by
    intro group hgroup
    have hkinds : ∀ lexeme ∈ group, lexeme.kind ≠ .pipe := fun lexeme hlexeme =>
      h lexeme (subset_of_mem_groups _ group hgroup hlexeme)
    match group with
    | [] => rfl
    | [name] => rfl
    | name :: second :: rest => rw [withoutTag, if_neg (hkinds second (by simp))]
  rw [withoutTags, List.map_congr_left hkeep, List.map_id', intercalate_groups_sequence]

/-- Whether a text is a parameter list: nothing, or parameters that are spelled as lexemes, with
commas between them. -/
def accepts (text : Bytes) : Bool :=
  (Lexeme.visible text).isEmpty || (listOfLexemes? (Lexeme.visible text)).isSome

/-- The parts of a text and their parameters are what its parameters are read from. -/
theorem forall_reading_iff (h : (listOfLexemes? (Lexeme.visible text)).isSome = true)
    {R : Bytes → Parameter → Prop} : (∀ read ∈ reading text, R read.1 read.2) ↔
      ∀ part ∈ parts text, ∀ parameter, ofLexemes? (Lexeme.visible part) = some parameter →
        R part parameter := by
  have hparts : parts text = (groups (Lexeme.all text)).map Lexeme.joined := by
    rw [parts, Lexeme.spelling, groups_map_unplaced, List.map_map]
    exact List.map_congr_left fun group _ => Lexeme.joined_unplaced group
  have hspelled : ∀ group ∈ groups (Lexeme.all text),
      ofLexemes? (Lexeme.visible (Lexeme.joined group)) =
      ofLexemes? (group.filter (·.kind ≠ .blank)) := by
    intro group hgroup
    have hread := (Lexeme.apartAll_groups text).2
    rw [Lexeme.spelling, groups_map_unplaced, List.map_map, List.map_inj_left] at hread
    have halone := hread group hgroup
    rw [Function.comp_apply, Lexeme.joined_unplaced] at halone
    rw [← ofLexemes?_map_unplaced, ← Lexeme.sequence, sequence_of_spelling halone,
      ofLexemes?_map_unplaced]
  rw [reading, if_pos h, hparts]
  constructor
  · intro hread part hpart parameter hparameter
    obtain ⟨group, hgroup, rfl⟩ := List.mem_map.1 hpart
    rw [hspelled group hgroup] at hparameter
    exact hread (Lexeme.joined group, parameter)
      (List.mem_filterMap.2 ⟨group, hgroup, by rw [hparameter]; rfl⟩)
  · intro hread read hmem
    obtain ⟨group, hgroup, hmem⟩ := List.mem_filterMap.1 hmem
    obtain ⟨parameter, hparameter, rfl⟩ := Option.map_eq_some_iff.1 hmem
    exact hread _ (List.mem_map_of_mem hgroup) parameter ((hspelled group hgroup).trans hparameter)

/-- The parts of a list have no visible lexemes or spell a parameter. -/
theorem spelled_of_mem_parts (h : (listOfLexemes? (Lexeme.visible text)).isSome = true)
    {part : Bytes} (hpart : part ∈ parts text) :
    Lexeme.visible part = [] ∨ ∃ parameter, ofLexemes? (Lexeme.visible part) = some parameter := by
  obtain ⟨parameters, hlist⟩ := Option.isSome_iff_exists.1 h
  rw [← listOfLexemes?_map_unplaced, ← Lexeme.sequence] at hlist
  have hmem : Lexeme.sequence part ∈ groups (Lexeme.sequence text) := by
    rw [groups_sequence]
    exact List.mem_map_of_mem hpart
  have hspelled := (eq_filterMap_of_listOfLexemes? hlist).2 _ hmem
  rw [Lexeme.sequence, ofLexemes?_map_unplaced] at hspelled
  by_cases hnil : Lexeme.visible part = []
  · exact .inl hnil
  · exact .inr (Option.ne_none_iff_exists'.1 (hspelled (List.map_eq_nil_iff.not.2 hnil)))

/-- A text without tags is kept, and it has no parameter with a type. -/
theorem sequence_of_lacksTag (h : lacksTag text = true) :
    Lexeme.sequence (stripParameters text) = withoutTags (Lexeme.sequence text) ∧
      ∀ read ∈ reading text, soleTag read.1 read.2 = true := by
  have hindex : pipeIndex? text = none := by
    rwa [lacksTag, Option.isNone_iff_eq_none, atPipe?_eq_none_iff] at h
  constructor
  · rw [stripParameters_of_lacksTag h, withoutTags_of_kind]
    intro lexeme hlexeme
    obtain ⟨placed, hplaced, rfl⟩ := List.mem_map.1 hlexeme
    exact Lexeme.kind_ne_pipe hindex placed (List.mem_of_mem_filter hplaced)
  · have htyped : (decodeParameters text).filter (!·.type.isEmpty) = [] := by
      rw [List.filter_eq_nil_iff]
      intro parameter hparameter
      simp [type_eq_nil_of_decodeParameters hindex parameter hparameter]
    rw [← agrees_cutTags_iff, htyped, cutTags_eq_nil_iff.2 h]
    exact .nil

/-- A list with a tag is read as lexemes. -/
theorem isSome_of_accepts (h : accepts text = true) (htag : lacksTag text = false) :
    (listOfLexemes? (Lexeme.visible text)).isSome = true := by
  refine (Bool.or_eq_true_iff.1 h).resolve_left fun hempty => ?_
  have hspace := isSpaceByte_of_isBlank (isBlank_of_visible (List.isEmpty_iff.1 hempty))
  rw [cutTags_eq_nil_iff.1 (cutTags_of_space hspace)] at htag
  exact Bool.noConfusion htag

/-- A list with a tag is stripped and tidied part by part: its lexemes are as they should be exactly
when this holds of each part and the rewritten parts are apart. -/
theorem sequence_iff_of_tag (htag : lacksTag text = false) :
    (Lexeme.sequence (stripParameters text) = withoutTags (Lexeme.sequence text) ↔
      Lexeme.ApartAll ((parts text).map (mapPieces stripTrimmed)) ∧
        ∀ part ∈ parts text, Lexeme.sequence (mapPieces stripTrimmed part) =
          withoutTag (Lexeme.sequence part)) ∧
    (Lexeme.sequence (tidy text) = Lexeme.sequence text ↔
      Lexeme.ApartAll ((parts text).map tidy) ∧ ∀ part ∈ parts text, Lexeme.sequence (tidy part) =
        Lexeme.sequence part) := by
  have hkinds : ∀ part ∈ parts text, ∀ lexeme ∈ Lexeme.sequence part, lexeme.kind ≠ .comma := by
    intro part hpart
    have hmem : Lexeme.sequence part ∈ groups (Lexeme.sequence text) := by
      rw [groups_sequence]
      exact List.mem_map_of_mem hpart
    exact kind_ne_comma_of_mem_groups hmem
  have hread : ∀ part, Lexeme.sequence part ⊆ Lexeme.spelling part := by
    intro part
    rw [Lexeme.sequence_eq]
    exact List.filter_subset_self _
  have hstrip := mapPieces_join comma_not_mem_stripTrimmed (parts_ne_nil text)
  have htidy : tidy (join [Char.toUInt8 ','] (parts text)) = join [Char.toUInt8 ',']
      ((parts text).map tidy) :=
    mapPieces_join comma_not_mem_trim (parts_ne_nil text)
  rw [join_parts] at hstrip htidy
  constructor
  · rw [stripParameters_eq htag, hstrip, withoutTags]
    refine sequence_join_iff (fun part _ => ?_) fun part hpart lexeme hlexeme => ?_
    · rw [count_mapPieces comma_not_mem_stripTrimmed, count_withoutTag (hread part),
        Lexeme.count_joined_sequence (by decide)]
    · exact hkinds part hpart lexeme (withoutTag_subset _ hlexeme)
  · have hself : List.intercalate [Lexeme.comma] ((groups (Lexeme.sequence text)).map id) =
        Lexeme.sequence text := by
      rw [List.map_id, intercalate_groups_sequence]
    rw [← hself, htidy]
    refine sequence_join_iff (fun part _ => ?_) hkinds
    rw [tidy, count_mapPieces comma_not_mem_trim, id, Lexeme.count_joined_sequence (by decide)]

section Reading

variable (hlist : (listOfLexemes? (Lexeme.visible text)).isSome = true)
  (hsole : ∀ read ∈ reading text, soleTag read.1 read.2 = true)

include hlist hsole

/-- Where the tags of parameters are the only ones, a part may be stripped or tidied to the same
effect. -/
theorem strip_of_mem_parts {part : Bytes} (hpart : part ∈ parts text) :
    Lexeme.Swaps (tidy part) (mapPieces stripTrimmed part) ∧
      (Lexeme.sequence (mapPieces stripTrimmed part) = withoutTag (Lexeme.sequence part) ↔
        Lexeme.sequence (tidy part) = Lexeme.sequence part) := by
  rcases spelled_of_mem_parts hlist hpart with hnil | ⟨parameter, hparameter⟩
  · obtain ⟨htidied, hstripped⟩ := strip_of_visible hnil
    rw [htidied, hstripped, Lexeme.sequence, Lexeme.sequence, hnil]
    exact ⟨.refl [], Iff.rfl⟩
  · have hread :=
      forall_reading_iff hlist (R := fun part parameter => soleTag part parameter = true)
    exact (strip_of_ofLexemes? hparameter).2 (hread.1 hsole part hpart parameter hparameter)

/-- Where the tags of parameters are the only ones, a list with a tag is stripped as it should be
exactly when tidying it does not change its lexemes. -/
theorem sequence_iff_of_soleTag (htag : lacksTag text = false) :
    Lexeme.sequence (stripParameters text) = withoutTags (Lexeme.sequence text) ↔
      Lexeme.sequence (tidy text) = Lexeme.sequence text := by
  have hswaps : List.Forall₂ Lexeme.Swaps ((parts text).map tidy)
      ((parts text).map (mapPieces stripTrimmed)) := by
    rw [List.forall₂_map_left_iff, List.forall₂_map_right_iff, List.forall₂_same]
    exact fun part hpart => (strip_of_mem_parts hlist hsole hpart).1
  obtain ⟨hstrip, htidy⟩ := sequence_iff_of_tag htag
  rw [hstrip, htidy, Lexeme.apartAll_iff hswaps]
  exact and_congr_right fun _ => forall₂_congr fun part hpart =>
    (strip_of_mem_parts hlist hsole hpart).2

end Reading

/-- Stripping a parameter list takes the pipes and the types of its parameters out and leaves all
other lexemes as they are exactly when each text that a parameter is read from has no tag but that
of the parameter, and the list has no tag or tidying it does not change its lexemes. -/
theorem sequence_stripParameters_iff (h : accepts text = true) :
    Lexeme.sequence (stripParameters text) = withoutTags (Lexeme.sequence text) ↔
      (∀ read ∈ reading text, soleTag read.1 read.2 = true) ∧
        (lacksTag text = true ∨ Lexeme.sequence (tidy text) = Lexeme.sequence text) := by
  cases htag : lacksTag text with
  | true =>
    obtain ⟨hsequence, hsole⟩ := sequence_of_lacksTag htag
    exact iff_of_true hsequence ⟨hsole, .inl rfl⟩
  | false =>
    have hlist := isSome_of_accepts h htag
    constructor
    · intro hsequence
      have hparts := ((sequence_iff_of_tag htag).1.1 hsequence).2
      have hsole : ∀ read ∈ reading text, soleTag read.1 read.2 = true :=
        (forall_reading_iff hlist).2
        fun part hpart parameter hparameter =>
        (strip_of_ofLexemes? hparameter).1 (hparts part hpart)
      exact ⟨hsole, .inr ((sequence_iff_of_soleTag hlist hsole htag).1 hsequence)⟩
    · rintro ⟨hsole, hnone | htidied⟩
      · cases hnone
      · exact (sequence_iff_of_soleTag hlist hsole htag).2 htidied

/-- Pipes and commas inside a default value are kept, with the tag in front of it taken out. -/
theorem sequence_stripParameters_iff_literal :
    let text : Bytes := "a |Array <N> = \"p|q,r\" , b = c||d"
    accepts text = true ∧ stripParameters text = "a = \"p|q,r\",b = c||d" ∧
      Lexeme.sequence (stripParameters text) = withoutTags (Lexeme.sequence text) := by
  intro text
  have haccepts : accepts text = true := by decide +kernel
  refine ⟨haccepts, by decide +kernel, (sequence_stripParameters_iff haccepts).2 ⟨?_, .inr ?_⟩⟩
  · decide +kernel
  · decide +kernel

/-- A blank behind a comma inside a string literal is lost, and so is what stands behind a pipe of a
default value. -/
theorem sequence_stripParameters_ne :
    (accepts "s|S = \"x, y\"" = true ∧ stripParameters "s|S = \"x, y\"" = "s = \"x,y\"" ∧
      withoutTags (Lexeme.sequence "s|S = \"x, y\"") = Lexeme.sequence "s = \"x, y\"" ∧
      Lexeme.sequence (stripParameters "s|S = \"x, y\"") ≠
      withoutTags (Lexeme.sequence "s|S = \"x, y\"")) ∧
    accepts "a = b|c" = true ∧ stripParameters "a = b|c" = "a = b" ∧
      Lexeme.sequence (stripParameters "a = b|c") ≠ withoutTags (Lexeme.sequence "a = b|c") := by
  decide +kernel

end Parameter

end TagScript
