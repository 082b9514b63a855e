import TagScript.Proofs.LexemeContexts

/-!
# Reading parameters one by one

A parameter list is read as lexemes or split at its commas, and one text that does not read as
lexemes switches the whole list. So two texts on the two sides of a comma are read together as
each is read alone exactly when both or none of them read as lexemes, or when splitting gives
the same parameters: without a default behind an untyped name, and without blanks or an equals
sign in a type.
-/

namespace TagScript

open Bytes

namespace Parameter

variable {text first second : Bytes} {parameter : Parameter}

/-- Whether a text that spells a parameter as lexemes stands for the same one as a piece between
commas: an untyped one has no default, and a type has neither blanks nor an equals sign inside. -/
def readsAlike (text : Bytes) : Bool :=
  match ofLexemes? (Lexeme.visible text) with
  | none => true
  | some parameter =>
    if parameter.type.isEmpty then !text.contains '='
    else !parameter.type.contains '=' && (cutTag? text).all fun tag =>
      !tag.type.any Lexeme.isBlankByte

/-- A text without commas is one group of lexemes. -/
theorem groups_visible (h : Char.toUInt8 ',' ∉ text) :
    groups (Lexeme.visible text) = [Lexeme.visible text] := by
  refine groups_eq_singleton fun lexeme hlexeme hkind => h ?_
  have hread : lexeme ∈ Lexeme.allFrom 0 text := List.mem_of_mem_filter hlexeme
  obtain ⟨c, hc, hholds⟩ := Lexeme.exists_holds hread
  rw [hkind] at hholds
  exact of_decide_eq_true hholds ▸ hc

/-- A text without commas declares one parameter. -/
theorem decodeParameters_single (hblank : text.isBlank = false) (hcomma : Char.toUInt8 ',' ∉ text) :
    decodeParameters text = [(ofLexemes? (Lexeme.visible text)).getD (ofPiece text.trim)] := by
  have hne : trim text ≠ [] := fun hnil => by simp [trim_eq_nil_iff.1 hnil] at hblank
  rw [decodeParameters, hblank, if_neg Bool.false_ne_true, listOfLexemes?,
    groups_visible hcomma, pieces, split_of_not_mem hcomma]
  cases hspelled : ofLexemes? (Lexeme.visible text) <;> simp [hne, hspelled]

/-- Two texts without quotes with a comma between them are read as lexemes one by one. -/
theorem sequence_append_comma (hquotes : ∀ c ∈ first, isQuote c = false) (second : Bytes) :
    Lexeme.sequence (first ++ Char.toUInt8 ',' :: second) =
      Lexeme.sequence first ++ Lexeme.comma :: Lexeme.sequence second := by
  have hstops : Lexeme.Stops (Char.toUInt8 ',' :: second) := by simp [Lexeme.Stops]
  rw [Lexeme.sequence_eq, (Lexeme.apart_of_forall hquotes hstops).spelling_append,
    Lexeme.spelling_comma, Lexeme.sequence_eq, Lexeme.sequence_eq, List.filter_append,
    List.filter_cons_of_pos (by simp)]
  rfl

/-- Two texts with a comma between them declare the two parameters that their lexemes spell, if both
spell one, and those of the pieces otherwise. -/
theorem decodeParameters_pair (hfirst : first.isBlank = false) (hsecond : second.isBlank = false)
    (hcommas : Char.toUInt8 ',' ∉ first ++ second)
    (hquotes : ∀ c ∈ first ++ second, isQuote c = false) :
    decodeParameters (first ++ Char.toUInt8 ',' :: second) =
      match ofLexemes? (Lexeme.visible first), ofLexemes? (Lexeme.visible second) with
      | some one, some other => [one, other]
      | _, _ => [ofPiece first.trim, ofPiece second.trim] := by
  obtain ⟨hcommaFirst, hcommaSecond⟩ := not_or.1 (mt List.mem_append.2 hcommas)
  have hblank : isBlank (first ++ Char.toUInt8 ',' :: second) = false := by
    rw [← Bool.not_eq_true]
    exact fun hblank =>
      absurd (isSpaceByte_of_isBlank hblank (Char.toUInt8 ',') (by simp)) (by decide)
  have htrim : ∀ {text : Bytes}, text.isBlank = false → trim text ≠ [] := fun hfalse hnil => by
    simp [trim_eq_nil_iff.1 hnil] at hfalse
  have hvisible : Lexeme.sequence second ≠ [] := fun hnil => by
    rw [Lexeme.sequence, List.map_eq_nil_iff] at hnil
    simp [isBlank_of_visible hnil] at hsecond
  have hone : ∀ {text : Bytes}, Char.toUInt8 ',' ∉ text → groups (Lexeme.sequence text) =
      [Lexeme.sequence text] := fun h => by
    rw [Lexeme.sequence, groups_map_unplaced, groups_visible h]
    rfl
  have hgroups : groups (Lexeme.sequence (first ++ Char.toUInt8 ',' :: second)) =
      [Lexeme.sequence first, Lexeme.sequence second] := by
    rw [sequence_append_comma (List.forall_mem_append.1 hquotes).1, groups_append_comma rfl,
      hone hcommaFirst, hone hcommaSecond]
    rfl
  have hlist : listOfLexemes? (Lexeme.visible (first ++ Char.toUInt8 ',' :: second)) =
      (ofLexemes? (Lexeme.visible first)).bind fun one => (ofLexemes? (Lexeme.visible second)).map
      fun other => [one, other] := by
    rw [← listOfLexemes?_map_unplaced, ← Lexeme.sequence, listOfLexemes?, hgroups,
      ← ofLexemes?_map_unplaced (Lexeme.visible first),
      ← ofLexemes?_map_unplaced (Lexeme.visible second), ← Lexeme.sequence, ← Lexeme.sequence]
    cases hone : ofLexemes? (Lexeme.sequence first) <;>
      cases hother : ofLexemes? (Lexeme.sequence second) <;> simp [hvisible, hone, hother]
  have hpieces : pieces (first ++ Char.toUInt8 ',' :: second) =
      [ofPiece first.trim, ofPiece second.trim] := by
    rw [pieces, split_append_cons, split_of_not_mem hcommaFirst, split_of_not_mem hcommaSecond]
    simp [htrim hfirst, htrim hsecond]
  rw [decodeParameters, hblank, if_neg Bool.false_ne_true, hlist, hpieces]
  cases ofLexemes? (Lexeme.visible first) <;> cases ofLexemes? (Lexeme.visible second) <;> rfl

/-- What stands in front of every single pipe of a piece is part of its name. -/
theorem mem_name_of_ofPiece {lead : Bytes} {c : UInt8} (hlead : ∀ d ∈ lead, d ≠ '|')
    (hmem : c ∈ lead) (hc : ¬ IsSpaceByte c)
    (more : Bytes) : c ∈ (ofPiece (trim (lead ++ more))).name := by
  rw [ofPiece_eq, cutTag?_trim, cutTag?, atPipe?_append_left hlead]
  cases atPipe? more with
  | none => exact mem_trim (List.mem_append_left _ hmem) hc
  | some parts => exact mem_trim (List.mem_append_left _ hmem) hc

/-- An untyped parameter is read from its lexemes as from its piece exactly when it has no
default. -/
theorem ofPiece_eq_iff_of_bare {name : Lexeme} {rest : List Lexeme}
    (hvisible : Lexeme.visible text = name :: rest) (hname : name.kind = .name)
    (hend : endsWell rest = true) :
    ofPiece text.trim = ⟨name.text, []⟩ ↔ Char.toUInt8 '=' ∉ text := by
  obtain ⟨lead, behind, hall, hlead, -, hbehind⟩ := List.filter_eq_cons_iff.1 hvisible
  have hread : ∀ lexeme ∈ lead ++ name :: behind, lexeme ∈ Lexeme.allFrom 0 text := by
    rw [← hall]
    exact fun _ hlexeme => hlexeme
  simp only [List.forall_mem_append, List.forall_mem_cons] at hread
  obtain ⟨hleadRead, hnameRead, hbehindRead⟩ := hread
  have htext : Lexeme.joined lead ++ (name.text ++ Lexeme.joined behind) = text := by
    rw [← Lexeme.joined_allFrom 0 text, ← Lexeme.all, hall, Lexeme.joined_append,
      Lexeme.joined_cons]
  have hblanks : ∀ {lexemes : List Lexeme}, (∀ lexeme ∈ lexemes, lexeme ∈ Lexeme.allFrom 0 text) →
      (∀ lexeme ∈ lexemes, ¬ decide (lexeme.kind ≠ .blank) = true) → ∀ c ∈ Lexeme.joined lexemes,
      Lexeme.isBlankByte c = true :=
    fun hread hblank => isBlankByte_of_mem_joined hread fun lexeme hlexeme => by
      simpa using hblank lexeme hlexeme
  have hsigns : ∀ d, Lexeme.isBlankByte d = true ∨ LexemeKind.holds .name d = true →
      d ≠ Char.toUInt8 '|' ∧ d ≠ Char.toUInt8 '=' := by decide +kernel
  have hleadBytes := hblanks hleadRead hlead
  have hnameBytes := Lexeme.holds_of_mem_allFrom hnameRead
  rw [hname] at hnameBytes
  cases rest with
  | nil =>
    have hbehindBytes := hblanks hbehindRead (List.filter_eq_nil_iff.1 hbehind)
    have hplain : ∀ c ∈ text, c ≠ '|' ∧ c ≠ '=' := by
      rw [← htext, List.forall_mem_append, List.forall_mem_append]
      exact ⟨fun c hc => hsigns c (.inl (hleadBytes c hc)),
        fun c hc => hsigns c (.inr (hnameBytes c hc)),
        fun c hc => hsigns c (.inl (hbehindBytes c hc))⟩
    have hnone : cutTag? text = none := by
      have hpipe := pipeIndex?_append_of_forall (fun c hc => (hplain c hc).1) []
      rw [List.append_nil] at hpipe
      rw [cutTag?_eq_none_iff, atPipe?_eq_none_iff, hpipe]
      rfl
    refine iff_of_true ?_ fun hmem => (hplain _ hmem).2 rfl
    rw [ofPiece_eq, cutTag?_trim, hnone, Option.getD_none, ← htext,
      trim_blanks hleadBytes hbehindBytes hnameBytes]
  | cons assign rest =>
    have hassign : assign.kind = .assign := of_decide_eq_true (Bool.and_eq_true_iff.1 hend).1
    obtain ⟨gap, more, rfl, hgap, -, -⟩ := List.filter_eq_cons_iff.1 hbehind
    simp only [List.forall_mem_append, List.forall_mem_cons] at hbehindRead
    obtain ⟨c, hassignText, hc⟩ := Lexeme.text_of_sign hbehindRead.2.1 (.inr hassign)
    rw [hassign] at hc
    obtain rfl := of_decide_eq_true hc
    have hgapBytes := hblanks hbehindRead.1 hgap
    have hfront :
        (Lexeme.joined lead ++ (name.text ++ (Lexeme.joined gap ++ [Char.toUInt8 '=']))) ++
        Lexeme.joined more = text := by
      rw [← htext, Lexeme.joined_append, Lexeme.joined_cons, hassignText]
      simp
    have hplain :
        ∀ d ∈ Lexeme.joined lead ++ (name.text ++ (Lexeme.joined gap ++ [Char.toUInt8 '='])),
        d ≠ '|' := by
      simp only [List.forall_mem_append, List.forall_mem_singleton]
      exact ⟨fun d hd => (hsigns d (.inl (hleadBytes d hd))).1,
        fun d hd => (hsigns d (.inr (hnameBytes d hd))).1,
        fun d hd => (hsigns d (.inl (hgapBytes d hd))).1, by decide⟩
    refine iff_of_false (fun heq => ?_) (not_not_intro (by rw [← hfront]; simp))
    have hmem := mem_name_of_ofPiece hplain (by simp : Char.toUInt8 '=' ∈ _) (by decide)
      (Lexeme.joined more)
    rw [hfront, heq] at hmem
    exact absurd (hnameBytes _ hmem) (by decide)

/-- A typed parameter is read from its lexemes as from its piece exactly when its type has neither
blanks nor an equals sign inside. -/
theorem ofPiece_eq_iff_of_typed {tag : Parameter} (hcomma : Char.toUInt8 ',' ∉ text)
    (h : ofLexemes? (Lexeme.visible text) = some parameter) (htype : parameter.type ≠ [])
    (htag : cutTag? text = some tag) :
    ofPiece text.trim = parameter ↔
      Char.toUInt8 '=' ∉ parameter.type ∧ ∀ c ∈ tag.type, Lexeme.isBlankByte c = false := by
  obtain ⟨first, rest, tag', spelled, hsplit, htag', hcompact, hbytes, hsame⟩ :=
    cutTag?_of_group List.infix_rfl (spells_of_ofLexemes? h) htype
  rw [Lexeme.joined_allFrom, split_of_not_mem hcomma] at hsplit
  obtain ⟨rfl, -⟩ := List.cons.inj hsplit
  obtain rfl := Option.some.inj (htag'.symm.trans htag)
  rw [ofPiece_eq, cutTag?_trim, htag, Option.getD_some]
  constructor
  · rintro rfl
    refine ⟨assign_not_mem_of_cutTag? htag, fun c hc => ?_⟩
    rw [← hcompact] at hc
    exact (mem_compact.1 hc).2
  · rintro ⟨hassign, hblank⟩
    have hcompactTrim : trim (compact spelled) = compact spelled := by
      refine trim_eq_self fun c hc => ?_
      obtain ⟨hmem, hc⟩ := mem_compact.1 hc
      exact ((hbytes c hmem).resolve_left (by simp [hc])).1
    rw [hsame hassign] at hblank ⊢
    rw [← (trim_compact_eq_iff spelled).2 hblank, hcompactTrim, hcompact]

/-- A text that spells a parameter as lexemes stands for the same one as a piece exactly when it
reads alike. -/
theorem ofPiece_eq_iff (hcomma : Char.toUInt8 ',' ∉ text)
    (h : ofLexemes? (Lexeme.visible text) = some parameter) :
    ofPiece text.trim = parameter ↔ readsAlike text = true := by
  by_cases htype : parameter.type = []
  · have hspells := spells_of_ofLexemes? h
    generalize hvisible : Lexeme.visible text = lexemes at hspells
    cases hspells with
    | @bare name rest hname hend =>
      rw [ofPiece_eq_iff_of_bare hvisible hname hend]
      simp [readsAlike, h]
    | @tagged name pipe type rest _ _ _ hne _ =>
      -- a type has lexemes, and a lexeme has bytes
      obtain ⟨first, type, rfl⟩ := List.exists_cons_of_ne_nil hne
      have hread : first ∈ Lexeme.allFrom 0 text :=
        List.mem_of_mem_filter (hvisible ▸ (by simp) : first ∈ Lexeme.visible text)
      exact absurd (List.append_eq_nil_iff.1 htype).1 (Lexeme.text_ne_nil hread)
  · obtain ⟨first, rest, tag, -, hsplit, htag, -⟩ :=
      cutTag?_of_group List.infix_rfl (spells_of_ofLexemes? h) htype
    rw [Lexeme.joined_allFrom, split_of_not_mem hcomma] at hsplit
    obtain ⟨rfl, -⟩ := List.cons.inj hsplit
    rw [ofPiece_eq_iff_of_typed hcomma h htype htag]
    simp [readsAlike, h, htype, htag]

/-- A comma separates two texts into parameters that are read as each is read alone exactly when
both or none of them spell a parameter as lexemes, or those that do read alike as a piece between
commas. -/
theorem decodeParameters_append_iff (hfirst : first.isBlank = false)
    (hsecond : second.isBlank = false) (hcommas : Char.toUInt8 ',' ∉ first ++ second)
    (hquotes : ∀ c ∈ first ++ second, isQuote c = false) :
    decodeParameters (first ++ "," ++ second) = decodeParameters first ++ decodeParameters second ↔
      (ofLexemes? (Lexeme.visible first)).isSome = (ofLexemes? (Lexeme.visible second)).isSome ∨
        readsAlike first = true ∧ readsAlike second = true := by
  have hcomma : utf8 "," = [Char.toUInt8 ','] := by decide
  obtain ⟨hcommaFirst, hcommaSecond⟩ := not_or.1 (mt List.mem_append.2 hcommas)
  rw [hcomma, List.append_assoc, List.singleton_append,
    decodeParameters_pair hfirst hsecond hcommas hquotes,
    decodeParameters_single hfirst hcommaFirst, decodeParameters_single hsecond hcommaSecond]
  cases hone : ofLexemes? (Lexeme.visible first) with
  | none =>
    cases hother : ofLexemes? (Lexeme.visible second) with
    | none => simp
    | some parameter => simp [ofPiece_eq_iff hcommaSecond hother, readsAlike, hone]
  | some parameter =>
    cases hother : ofLexemes? (Lexeme.visible second) with
    | none => simp [ofPiece_eq_iff hcommaFirst hone, readsAlike, hother]
    | some other => simp

/-- Blanks in a type do not matter behind a comma if both texts read as lexemes. -/
theorem decodeParameters_append_iff_default : decodeParameters ("a|A < B" ++ "," ++ "b = 1") =
    decodeParameters "a|A < B" ++ decodeParameters "b = 1" :=
  (decodeParameters_append_iff (by decide +kernel) (by decide +kernel) (by decide +kernel)
    (by decide +kernel)).2 (.inl (by decide +kernel))

/-- A parameter that does not read as lexemes puts the blanks back into the type of the one before
it. -/
theorem decodeParameters_append_ne : decodeParameters ("a|Array <N>" ++ "," ++ "...rest") =
      [⟨"a", "Array <N>"⟩, ⟨"...rest", []⟩] ∧
    decodeParameters "a|Array <N>" ++ decodeParameters "...rest" =
      [⟨"a", "Array<N>"⟩, ⟨"...rest", []⟩] := by
  decide +kernel

end Parameter

end TagScript
