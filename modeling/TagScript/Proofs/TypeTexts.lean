import TagScript.Proofs.LexemeTexts

/-!
# One type text in two places

A declaration and a parameter read their type text in the same two ways: as lexemes, which
takes the blanks out of it, or as the text between separators, which only trims it. They do
not take the same one for every text, since a declaration admits more kinds of lexemes, and a
parameter list is cut at its commas. So a type text means the same in both places exactly when
it holds no comma, does not turn the pipe before it into an operator, and is read in the same
way by both or has no blank inside.
-/

namespace TagScript

open Bytes

namespace Lexeme

variable {c : UInt8} {text rest : Bytes} {kind : LexemeKind} {offset more : Nat}

/-- A lexeme that is no string does not reach over a blank into an equals sign. -/
theorem le_length_of_front {lead : Bytes}
    (hfront : front c (lead ++ Char.toUInt8 '=' :: rest) = (kind, more)) (hstring : kind ≠ .string)
    (hlast : ∀ d ∈ (c :: lead).getLast?, isBlankByte d = true) :
    more ≤ lead.length := by
  by_contra hlong
  obtain ⟨n, hn⟩ : ∃ n, more - lead.length = n + 1 := Nat.exists_eq_succ_of_ne_zero (by omega)
  have htake : (lead ++ Char.toUInt8 '=' :: rest).take more = lead ++
      Char.toUInt8 '=' :: rest.take n := by
    rw [List.take_append, List.take_of_length_le (by omega), hn, List.take_succ_cons]
  have hholds := holds_of_front hfront
  rw [htake, ← List.cons_append] at hholds
  have hblank : kind = .blank := by
    by_contra hblank
    have hget := List.getLast?_eq_some_getLast (List.cons_ne_nil c lead)
    have hsolid := LexemeKind.isBlankByte_eq_false
      (hholds _ (List.mem_append_left _ (List.getLast_mem (List.cons_ne_nil c lead))))
      hstring hblank
    rw [hlast _ hget] at hsolid
    exact Bool.noConfusion hsolid
  have hassign := hholds (Char.toUInt8 '=') (by simp)
  rw [hblank] at hassign
  exact absurd hassign (by decide)

/-- The lexemes of a type that an equals sign follows are its text without the blanks. -/
theorem joined_takeWhile_type {type : Bytes} {first : Lexeme} {others : List Lexeme}
    (htype : Char.toUInt8 '=' ∉ type) (hlast : ∀ d ∈ type.getLast?, isBlankByte d = true)
    (hassign : front (Char.toUInt8 '=') rest = (.assign, 0)) (hfirst : first.kind = .assign)
    (h : ((allFrom offset (type ++ Char.toUInt8 '=' :: rest)).filter (·.kind ≠ .blank)).dropWhile
      Tag.isTypeLexeme = first :: others) :
    joined (((allFrom offset (type ++ Char.toUInt8 '=' :: rest)).filter (·.kind ≠ .blank)).takeWhile
      Tag.isTypeLexeme) = compact type := by
  generalize htext : type ++ Char.toUInt8 '=' :: rest = text at h ⊢
  fun_induction allFrom offset text generalizing type with
  | case1 => simp at htext
  | case2 offset c behind kind more hfront ih =>
    cases type with
    | nil =>
      obtain ⟨rfl, rfl⟩ := List.cons.inj htext
      obtain ⟨rfl, rfl⟩ := Prod.mk.inj (hassign.symm.trans hfront)
      rfl
    | cons d type =>
      rw [List.cons_append] at htext
      obtain ⟨rfl, rfl⟩ := List.cons.inj htext
      have hkind : kind ≠ .assign := by
        rintro rfl
        exact htype ((fronts_of_front hfront).eq_assign ▸ List.mem_cons_self ..)
      -- a string would be the lexeme that ends the type
      have hstring : kind ≠ .string := by
        rintro rfl
        obtain ⟨rfl, -⟩ := List.cons.inj h
        exact LexemeKind.noConfusion hfirst
      have hle := le_length_of_front hfront hstring hlast
      have hdrop : (type ++ Char.toUInt8 '=' :: rest).drop more = type.drop more ++
          Char.toUInt8 '=' :: rest :=
        List.drop_append_of_le_length hle
      have htake : (type ++ Char.toUInt8 '=' :: rest).take more = type.take more :=
        List.take_append_of_le_length hle
      have hsplit : d :: type = (d :: type.take more) ++ type.drop more := by simp
      have hcompact := compact_of_holds (holds_of_front hfront) hstring
      have htail : ∀ e ∈ (type.drop more).getLast?, isBlankByte e = true := by
        intro e he
        rw [List.getLast?_drop] at he
        split at he
        next => exact absurd he (Option.not_mem_none e)
        next hlong =>
          obtain ⟨init, hinit⟩ := List.getLast?_eq_some_iff.1 he
          exact hlast e (by rw [hinit, ← List.cons_append, List.getLast?_concat]; rfl)
      have hrest :=
        ih (fun hmem => htype (List.mem_cons_of_mem _ (List.mem_of_mem_drop hmem))) htail hdrop.symm
      rw [htake] at hcompact h ⊢
      rw [hsplit, compact_append, hcompact]
      by_cases hblank : kind = .blank
      · rw [List.filter_cons_of_neg (by simp [hblank])] at h ⊢
        rw [hrest h, if_pos hblank, List.nil_append]
      · rw [List.filter_cons_of_pos (by simp [hblank])] at h ⊢
        by_cases hpart : Tag.isTypeLexeme ⟨kind, d :: type.take more, offset⟩ = true
        · rw [List.dropWhile_cons_of_pos hpart] at h
          rw [List.takeWhile_cons_of_pos hpart, if_neg hblank, ← hrest h]
          rfl
        · rw [List.dropWhile_cons_of_neg hpart] at h
          obtain ⟨rfl, -⟩ := List.cons.inj h
          exact absurd hfirst hkind

end Lexeme

/-- A text is cut at the first of the bytes it is cut at. -/
theorem Bytes.cut?_append {c : UInt8} {left : Bytes} (h : c ∉ left) (right : Bytes) :
    cut? c (left ++ c :: right) = some (left, right) := by
  induction left with
  | nil => simp [cut?]
  | cons b left ih =>
    rw [List.mem_cons, not_or] at h
    simp [cut?, Ne.symm h.1, ih h.2]

namespace Tag

variable {keyword name type value : Bytes} {tag : Tag}

/-- A type text between the blanks around it. -/
def spaced (type : Bytes) : Bytes := [Char.toUInt8 ' '] ++ type ++ [Char.toUInt8 ' ']

/-- The blanks around a type text are trimmed away. -/
theorem trim_spaced (type : Bytes) : trim (spaced type) = trim type := by
  have hblank : SpacePoint [Char.toUInt8 ' '] := .one (by decide)
  rw [spaced, hblank.trim_append_right, hblank.trim_append]

/-- The blanks around a type text are taken out with those inside. -/
theorem compact_spaced (type : Bytes) : compact (spaced type) = compact type := by
  have hblank : compact [Char.toUInt8 ' '] = [] := by decide
  rw [spaced, compact_append, compact_append, hblank, List.nil_append, List.append_nil]

/-- The blanks around a type text are no equals signs. -/
theorem not_mem_spaced (h : Char.toUInt8 '=' ∉ type) : Char.toUInt8 '=' ∉ spaced type := by
  have hblank : Char.toUInt8 '=' ≠ ' ' := by decide
  simp [spaced, h, hblank]

/-- A declaration with its type tag. -/
def written (keyword name type value : Bytes) : Bytes :=
  keyword ++ " " ++ name ++ " : " ++ type ++ " = " ++ value

/-- A declaration with its type tag, byte by byte. -/
theorem written_eq (keyword name type value : Bytes) : written keyword name type value =
    keyword ++ Char.toUInt8 ' ' :: (name ++ Char.toUInt8 ' ' :: Char.toUInt8 ':' ::
      (spaced type ++ Char.toUInt8 '=' :: Char.toUInt8 ' ' :: value)) := by
  have hblank : utf8 " " = [Char.toUInt8 ' '] := by decide
  have hcolon : utf8 " : " = [Char.toUInt8 ' ', Char.toUInt8 ':', Char.toUInt8 ' '] := by decide
  have hassign : utf8 " = " = [Char.toUInt8 ' ', Char.toUInt8 '=', Char.toUInt8 ' '] := by decide
  simp [written, spaced, hblank, hcolon, hassign]

/-- A declaration reads keyword, name, colon, and what follows the colon. -/
theorem visible_written (hkeyword : keyword ∈ declarationKeywords) (hname : name.isIdent = true)
    (type value : Bytes) :
    ∃ first second third offset, Lexeme.visible (written keyword name type value) =
      first :: second :: third ::
      (Lexeme.allFrom offset (spaced type ++ Char.toUInt8 '=' :: Char.toUInt8 ' ' :: value)).filter
        (·.kind ≠ .blank) := by
  rw [written_eq, Lexeme.visible, Lexeme.all,
    Lexeme.allFrom_name (isIdent_keyword hkeyword) (by decide)]
  generalize spaced type ++ Char.toUInt8 '=' :: Char.toUInt8 ' ' :: value = behind
  have hcolon : Lexeme.front (Char.toUInt8 ':') behind = (.colon, 0) := rfl
  cases name with
  | nil => exact Bool.noConfusion hname
  | cons c name =>
    rw [List.cons_append, Lexeme.allFrom_blank (isBlankByte_eq_false hname).1, ← List.cons_append,
      Lexeme.allFrom_name hname (by decide), Lexeme.allFrom_blank (by decide),
      Lexeme.allFrom, hcolon]
    exact ⟨_, _, _, _, rfl⟩

/-- A declaration that is read as lexemes has its type text without the blanks. -/
theorem type_of_ofLexemes? (hkeyword : keyword ∈ declarationKeywords) (hname : name.isIdent = true)
    (htype : Char.toUInt8 '=' ∉ type)
    (h : ofLexemes? (written keyword name type value) = some tag) :
    tag.type = compact type := by
  obtain ⟨first, second, third, offset, hvisible⟩ := visible_written hkeyword hname type value
  have hlast : ∀ d ∈ (spaced type).getLast?, Lexeme.isBlankByte d = true := by
    intro d hd
    rw [spaced, List.getLast?_concat] at hd
    cases hd
    decide
  rw [ofLexemes?, hvisible] at h
  dsimp only at h
  split at h
  next head more assign others htake hdrop =>
    simp only [Option.ite_none_right_eq_some, Option.some.injEq, Bool.and_eq_true,
      decide_eq_true_eq] at h
    obtain ⟨⟨-, hassign⟩, rfl⟩ := h
    rw [← compact_spaced,
      ← Lexeme.joined_takeWhile_type (not_mem_spaced htype) hlast rfl hassign hdrop, htake]
  next => cases h

/-- A blank is skipped in front of a name. -/
theorem skipGaps_name (hname : name.isIdent = true) (rest : Bytes) :
    skipGaps (Char.toUInt8 ' ' :: (name ++ rest)) = name ++ rest := by
  rw [skipGaps, List.dropWhile_cons_of_pos (by decide)]
  cases name with
  | nil => exact Bool.noConfusion hname
  | cons c name =>
    rw [List.cons_append, List.dropWhile_cons_of_neg (by simp [(isBlankByte_eq_false hname).2])]

/-- A declaration that is split at its colon and its equals sign has its type text trimmed. -/
theorem type_of_ofSplit? (hkeyword : keyword ∈ declarationKeywords) (hname : name.isIdent = true)
    (htype : Char.toUInt8 '=' ∉ type) (h : ofSplit? (written keyword name type value) = some tag) :
    tag.type = trim type := by
  obtain ⟨⟨word, rest⟩, hword, h⟩ := Option.bind_eq_some_iff.1 h
  obtain ⟨-, -, h⟩ := Option.bind_eq_some_iff.1 h
  obtain ⟨⟨declared, behind⟩, hdeclared, h⟩ := Option.bind_eq_some_iff.1 h
  obtain ⟨spelled, hcolon, h⟩ := Option.bind_eq_some_iff.1 h
  obtain ⟨⟨left, right⟩, hcut, h⟩ := Option.bind_eq_some_iff.1 h
  obtain ⟨-, -, h⟩ := Option.bind_eq_some_iff.1 h
  cases h
  rw [written_eq, takeKeyword?_append hkeyword] at hword
  cases hword
  rw [skipGaps_name hname, takeName?_append hname (by decide)] at hdeclared
  cases hdeclared
  have hspelled : after? ":" (skipGaps (Char.toUInt8 ' ' :: Char.toUInt8 ':' ::
      (spaced type ++ Char.toUInt8 '=' :: Char.toUInt8 ' ' :: value))) =
        some (spaced type ++ Char.toUInt8 '=' :: Char.toUInt8 ' ' :: value) := rfl
  rw [hspelled] at hcolon
  cases hcolon
  rw [cut?_append (not_mem_spaced htype)] at hcut
  cases hcut
  exact trim_spaced type

/-- The type of a declaration is its type text, without the blanks if it is read as lexemes. -/
theorem type_of_parse? (hkeyword : keyword ∈ declarationKeywords) (hname : name.isIdent = true)
    (htype : Char.toUInt8 '=' ∉ type) (h : parse? (written keyword name type value) = some tag) :
    tag.type =
      if (ofLexemes? (written keyword name type value)).isSome then compact type
      else trim type := by
  rcases Option.or_eq_some_iff.1 h with h | ⟨hnone, h⟩
  · rw [h, type_of_ofLexemes? hkeyword hname htype h]
    rfl
  · rw [hnone, type_of_ofSplit? hkeyword hname htype h]
    rfl

end Tag

namespace Parameter

variable {name type : Bytes} {parameter : Parameter}

/-- A parameter with its type tag. -/
def written (name type : Bytes) : Bytes := name ++ "|" ++ type

/-- A parameter with its type tag, byte by byte. -/
theorem written_eq (name type : Bytes) : written name type = name ++ Char.toUInt8 '|' :: type := by
  have hpipe : utf8 "|" = [Char.toUInt8 '|'] := by decide
  rw [written, hpipe, List.append_assoc, List.singleton_append]

/-- A pipe that no other pipe follows is read as one. -/
theorem front_pipe (h : type.head? ≠ some (Char.toUInt8 '|')) :
    Lexeme.front (Char.toUInt8 '|') type = (.pipe, 0) := by
  have hoperators : ∀ operator ∈ Lexeme.longOperators,
      operator = [Char.toUInt8 '|', Char.toUInt8 '|'] ∨
      ∃ first ∈ operator.head?, first ≠ '|' := by decide +kernel
  have hlong : Lexeme.longOperators.find? (startsWith (Char.toUInt8 '|' :: type)) = none := by
    rw [List.find?_eq_none]
    intro operator hmem hstart
    obtain ⟨after, hafter⟩ := Option.isSome_iff_exists.1 hstart
    have htext := eq_append_of_after? hafter
    rcases hoperators operator hmem with rfl | ⟨first, hfirst, hne⟩
    · exact h (by rw [(List.cons.inj htext).2]; rfl)
    · have hhead := congrArg List.head? htext
      rw [List.head?_append, hfirst, Option.some_or, List.head?_cons] at hhead
      exact hne (Option.some.inj hhead).symm
  have harrow : startsWith (Char.toUInt8 '|' :: type) "=>" = false := rfl
  rw [Lexeme.front]
  simp only [harrow, hlong]
  rfl

/-- A parameter reads name and pipe, and what follows the pipe. -/
theorem visible_written (hname : name.isIdent = true)
    (htype : type.head? ≠ some (Char.toUInt8 '|')) :
    Lexeme.visible (written name type) = ⟨.name, name, 0⟩ ::
      ⟨.pipe, [Char.toUInt8 '|'], name.length⟩ ::
      (Lexeme.allFrom (name.length + 1) type).filter (·.kind ≠ .blank) := by
  rw [written_eq, Lexeme.visible, Lexeme.all, Lexeme.allFrom_name hname (by decide),
    Lexeme.allFrom, front_pipe htype]
  simp

/-- Lexemes without a comma are one group. -/
theorem groups_eq_singleton {lexemes : List Lexeme} (h : ∀ lexeme ∈ lexemes, lexeme.kind ≠ .comma) :
    groups lexemes = [lexemes] := by
  induction lexemes with
  | nil => rfl
  | cons lexeme lexemes ih =>
    rw [List.forall_mem_cons] at h
    rw [groups, if_neg h.1, ih h.2]

/-- A parameter that is read as lexemes has its type text without the blanks. -/
theorem eq_of_listOfLexemes? {parameters : List Parameter} (hname : name.isIdent = true)
    (hhead : type.head? ≠ some (Char.toUInt8 '|')) (hcomma : Char.toUInt8 ',' ∉ type)
    (hassign : Char.toUInt8 '=' ∉ type)
    (h : listOfLexemes? (Lexeme.visible (written name type)) = some parameters) :
    parameters = [⟨name, compact type⟩] := by
  have hread : ∀ lexeme ∈ Lexeme.allFrom (name.length + 1) type, lexeme.kind ≠ .comma ∧
      lexeme.kind ≠ .assign := by
    intro lexeme hlexeme
    obtain ⟨c, hc, hholds⟩ := Lexeme.exists_holds hlexeme
    constructor
    · intro hkind
      rw [hkind] at hholds
      exact hcomma (of_decide_eq_true hholds ▸ hc)
    · intro hkind
      rw [hkind] at hholds
      exact hassign (of_decide_eq_true hholds ▸ hc)
  have hkinds : ∀ lexeme ∈ Lexeme.visible (written name type), lexeme.kind ≠ .comma ∧
      lexeme.kind ≠ .assign := by
    rw [visible_written hname hhead]
    simpa using fun lexeme hlexeme _ => hread lexeme hlexeme
  rw [listOfLexemes?, groups_eq_singleton fun lexeme hlexeme => (hkinds lexeme hlexeme).1] at h
  obtain ⟨parameter, hparameter, h⟩ := Option.bind_eq_some_iff.1 h
  cases h
  have hspells := spells_of_ofLexemes? hparameter
  generalize hlexemes : Lexeme.visible (written name type) = lexemes at hspells hkinds
  rw [visible_written hname hhead] at hlexemes
  cases hspells with
  | @bare first rest _ hend =>
    obtain ⟨-, rfl⟩ := List.cons.inj hlexemes
    exact Bool.noConfusion hend
  | @tagged first pipe spelled rest _ _ htype hne hend =>
    obtain ⟨rfl, hrest⟩ := List.cons.inj hlexemes
    obtain ⟨-, hvisible⟩ := List.cons.inj hrest
    -- without an equals sign nothing follows the type
    cases rest with
    | cons assign rest =>
      exact absurd (of_decide_eq_true (Bool.and_eq_true_iff.1 hend).1) (hkinds assign (by simp)).2
    | nil =>
      rw [List.append_nil] at hvisible
      have hstring : ∀ lexeme ∈ Lexeme.allFrom (name.length + 1) type, lexeme.kind ≠ .string := by
        intro lexeme hlexeme hstring
        have hmem : lexeme ∈ spelled := by
          rw [← hvisible]
          exact List.mem_filter.2 ⟨hlexeme, by simp [hstring]⟩
        have hpart := htype lexeme hmem
        rw [isTypeLexeme, hstring] at hpart
        exact absurd hpart (by decide)
      rw [← hvisible, Lexeme.joined_visible hstring]
      rfl

/-- Every byte of a name may continue one. -/
theorem isNamePart_of_mem (hname : name.isIdent = true) : ∀ c ∈ name, isNamePart c = true := by
  cases name with
  | nil => simp
  | cons c name =>
    obtain ⟨hc, hparts⟩ := Bool.and_eq_true_iff.1 hname
    exact List.forall_mem_cons.2 ⟨Lexeme.isNamePart_of_isNameStart hc, List.all_eq_true.1 hparts⟩

/-- A name is not trimmed. -/
theorem trim_name (hname : name.isIdent = true) : trim name = name :=
  trim_eq_self fun c hc => (Lexeme.isNamePart_spec (isNamePart_of_mem hname c hc)).1

/-- A name holds no pipe. -/
theorem ne_pipe_of_name (hname : name.isIdent = true) : ∀ c ∈ name, c ≠ '|' :=
  fun c hc => (Lexeme.isNamePart_spec (isNamePart_of_mem hname c hc)).2.1

/-- A name holds no comma. -/
theorem comma_not_mem_name (hname : name.isIdent = true) : Char.toUInt8 ',' ∉ name :=
  fun hmem => (Lexeme.isNamePart_spec (isNamePart_of_mem hname _ hmem)).2.2 rfl

/-- A text with a pipe is not blank. -/
theorem trim_ne_nil_of_pipe {text : Bytes} (h : Char.toUInt8 '|' ∈ text) : trim text ≠ [] :=
  List.ne_nil_of_mem (mem_trim h (by decide))

/-- A text with a pipe is not blank. -/
theorem isBlank_of_pipe {text : Bytes} (h : Char.toUInt8 '|' ∈ text) : text.isBlank = false := by
  rw [← Bool.not_eq_true]
  intro hblank
  exact absurd (isSpaceByte_of_isBlank hblank _ h) (by decide)

/-- The single pipe behind a name. -/
theorem atPipe?_written (hname : name.isIdent = true)
    (hhead : type.head? ≠ some (Char.toUInt8 '|')) :
    atPipe? (written name type) = some (name, type) := by
  rw [written_eq, atPipe?_append_pipe (ne_pipe_of_name hname) hhead]

/-- A parameter is read as one if its type holds no comma and does not join the pipe. -/
theorem decodeParameters_written (hname : name.isIdent = true)
    (hhead : type.head? ≠ some (Char.toUInt8 '|')) (hcomma : Char.toUInt8 ',' ∉ type)
    (hassign : Char.toUInt8 '=' ∉ type) :
    decodeParameters (written name type) = [⟨name,
      if (listOfLexemes? (Lexeme.visible (written name type))).isSome then compact type
      else trim type⟩] := by
  have hpipe : Char.toUInt8 '|' ∈ written name type := by simp [written_eq]
  rw [decodeParameters, isBlank_of_pipe hpipe]
  cases hlist : listOfLexemes? (Lexeme.visible (written name type)) with
  | some parameters =>
    rw [eq_of_listOfLexemes? hname hhead hcomma hassign hlist]
    rfl
  | none =>
    have hplain : Char.toUInt8 ',' ∉ written name type := by
      have hne : Char.toUInt8 ',' ≠ '|' := by decide
      simp [written_eq, comma_not_mem_name hname, hcomma, hne]
    have hcut := atPipe?_written hname hhead
    have hall : type.takeWhile (· ≠ Char.toUInt8 '=') = type := by
      rw [List.takeWhile_eq_self_iff]
      intro c hc
      exact decide_eq_true fun heq => hassign (heq ▸ hc)
    have hpiece : ofPiece (trim (written name type)) = ⟨name, trim type⟩ := by
      rw [ofPiece_eq, cutTag?_trim, cutTag?, hcut, Option.map_some, Option.getD_some]
      dsimp only
      rw [hall, trim_name hname]
    simp [pieces, split_of_not_mem hplain, trim_ne_nil_of_pipe hpipe, hpiece]

/-- No type of a parameter holds a comma. -/
theorem comma_not_mem_type {text : Bytes} (h : parameter ∈ decodeParameters text) :
    Char.toUInt8 ',' ∉ parameter.type := by
  intro hmem
  rw [decodeParameters] at h
  split at h
  · simp at h
  · cases hlist : listOfLexemes? (Lexeme.visible text) with
    | some parameters =>
      rw [hlist, Option.getD_some] at h
      obtain ⟨group, hgroup, hspelled⟩ := spelled_of_mem_listOfLexemes? hlist parameter h
      cases spells_of_ofLexemes? hspelled with
      | bare => exact List.not_mem_nil hmem
      | tagged _ _ htype =>
        obtain ⟨lexeme, hlexeme, hc⟩ := List.mem_flatMap.1 hmem
        have hread : lexeme ∈ Lexeme.allFrom 0 text :=
          List.mem_of_mem_filter (hgroup (by simp [hlexeme]))
        have hkind : lexeme.kind ∈ [LexemeKind.name, .operator, .bracket] :=
          of_decide_eq_true (htype lexeme hlexeme)
        refine LexemeKind.ne_comma (Lexeme.holds_of_mem_allFrom hread _ hc) ?_ ?_ rfl <;>
          · intro heq
            simp [heq] at hkind
    | none =>
      rw [hlist, Option.getD_none] at h
      obtain ⟨piece, hpiece, rfl⟩ := List.mem_map.1 h
      obtain ⟨whole, hwhole, rfl⟩ := List.mem_map.1 (List.mem_of_mem_filter hpiece)
      rw [ofPiece] at hmem
      split at hmem
      · exact List.not_mem_nil hmem
      · have htail := (List.takeWhile_sublist _).subset (trim_subset _ hmem)
        exact not_mem_of_mem_split hwhole (trim_subset _ (List.mem_of_mem_drop htail))

/-- A list that starts with a name and an operator is not read as lexemes. -/
theorem listOfLexemes?_operator {first second : Lexeme} (hfirst : first.kind = .name)
    (hsecond : second.kind = .operator)
    (rest : List Lexeme) : listOfLexemes? (first :: second :: rest) = none := by
  rw [listOfLexemes?, groups, if_neg (by simp [hfirst]), groups, if_neg (by simp [hsecond])]
  cases groups rest <;> simp [ofLexemes?, endsWell, hfirst, hsecond]

/-- The name of a piece that starts with a name and two pipes holds these pipes. -/
theorem pipe_mem_ofPiece (hname : name.isIdent = true) (text : Bytes) :
    Char.toUInt8 '|' ∈
      (ofPiece (trim (name ++ Char.toUInt8 '|' :: Char.toUInt8 '|' :: text))).name := by
  have hcut :=
    atPipe?_append_left (ne_pipe_of_name hname) (Char.toUInt8 '|' :: Char.toUInt8 '|' :: text)
  rw [atPipe?_double, Option.map_map] at hcut
  generalize hpiece : name ++ Char.toUInt8 '|' :: Char.toUInt8 '|' :: text = piece at hcut ⊢
  cases hat : atPipe? text with
  | none =>
    rw [hat, Option.map_none] at hcut
    rw [ofPiece_eq, cutTag?_trim, cutTag?, hcut]
    exact mem_trim (by simp [← hpiece]) (by decide)
  | some parts =>
    rw [hat, Option.map_some] at hcut
    rw [ofPiece_eq, cutTag?_trim, cutTag?, hcut]
    exact mem_trim (by simp) (by decide)

/-- A name that two pipes follow is not the name of a parameter with a type tag. -/
theorem pipe_mem_name_of_double {read : Parameter} (hname : name.isIdent = true)
    (hhead : type.head? = some (Char.toUInt8 '|'))
    (h : decodeParameters (written name type) = [read]) :
    Char.toUInt8 '|' ∈ read.name := by
  obtain ⟨type, rfl⟩ := List.head?_eq_some_iff.1 hhead
  have hlist : listOfLexemes? (Lexeme.visible (written name (Char.toUInt8 '|' :: type))) =
      none := by
    have hoperator : Lexeme.front (Char.toUInt8 '|') (Char.toUInt8 '|' :: type) =
        (.operator, 1) := rfl
    rw [written_eq, Lexeme.visible, Lexeme.all, Lexeme.allFrom_name hname (by decide),
      Lexeme.allFrom, hoperator]
    exact listOfLexemes?_operator rfl rfl _
  have hpipe : Char.toUInt8 '|' ∈ written name (Char.toUInt8 '|' :: type) := by simp [written_eq]
  rw [decodeParameters, hlist, isBlank_of_pipe hpipe] at h
  -- the first piece starts with the name and both pipes
  have hlead : Char.toUInt8 ',' ∉ name ++ [Char.toUInt8 '|', Char.toUInt8 '|'] := by
    have hne : Char.toUInt8 ',' ≠ '|' := by decide
    simp [comma_not_mem_name hname, hne]
  obtain ⟨first, rest, -, hsplit⟩ := split_append_of_not_mem hlead type
  have hwritten : written name (Char.toUInt8 '|' :: type) = name ++
      [Char.toUInt8 '|', Char.toUInt8 '|'] ++ type := by
    simp [written_eq]
  have hne : (trim (name ++ [Char.toUInt8 '|', Char.toUInt8 '|'] ++ first)).isEmpty = false :=
    List.isEmpty_eq_false_iff.2 (trim_ne_nil_of_pipe (by simp))
  have hpieces : pieces (written name (Char.toUInt8 '|' :: type)) = [read] := h
  rw [hwritten, pieces, hsplit, List.map_cons, List.filter_cons_of_pos (by rw [hne]; rfl),
    List.map_cons] at hpieces
  rw [← (List.cons.inj hpieces).1, List.append_assoc]
  exact pipe_mem_ofPiece hname first

end Parameter

/-- Two readings of a type text agree if they are the same one or no blank stands inside it. -/
theorem trim_reading_iff (first second : Bool) (type : Bytes) :
    trim (if first then compact type else trim type) =
      trim (if second then compact type else trim type) ↔
      second = first ∨ ∀ c ∈ trim type, Lexeme.isBlankByte c = false := by
  cases first <;> cases second <;> simp [trim_compact_eq_iff, eq_comm (a := trim type)]

/-- A type text is read as the same type in a declaration and in a parameter exactly when it
holds no comma, does not start with a second pipe, and is read in the same way by both or has no
blank inside. -/
theorem type_text_agrees_iff {keyword name parameter type value : Bytes} {tag : Tag}
    (hkeyword : keyword ∈ declarationKeywords) (hname : name.isIdent = true)
    (hparameter : parameter.isIdent = true) (htype : Char.toUInt8 '=' ∉ type)
    (htag : Tag.parse? (Tag.written keyword name type value) = some tag) :
    (∃ read, decodeParameters (Parameter.written parameter type) = [⟨parameter, read⟩] ∧
      trim read = trim tag.type) ↔ Char.toUInt8 ',' ∉ type ∧ type.head? ≠ some (Char.toUInt8 '|') ∧
        ((Tag.ofLexemes? (Tag.written keyword name type value)).isSome =
            (Parameter.listOfLexemes? (Lexeme.visible (Parameter.written parameter type))).isSome ∨
          ∀ c ∈ trim type, Lexeme.isBlankByte c = false) := by
  have hrecorded := Tag.type_of_parse? hkeyword hname htype htag
  constructor
  · rintro ⟨read, hread, hsame⟩
    have hcomma : Char.toUInt8 ',' ∉ type := by
      intro hmem
      have hin : Char.toUInt8 ',' ∈ trim tag.type := by
        rw [hrecorded]
        split
        · exact mem_trim (mem_compact.2 ⟨hmem, by decide⟩) (by decide)
        · rw [trim_trim]
          exact mem_trim hmem (by decide)
      rw [← hsame] at hin
      exact Parameter.comma_not_mem_type (hread ▸ List.mem_singleton_self _) (trim_subset _ hin)
    have hhead : type.head? ≠ some (Char.toUInt8 '|') := by
      intro hhead
      exact Parameter.ne_pipe_of_name hparameter _
        (Parameter.pipe_mem_name_of_double hparameter hhead hread) rfl
    rw [Parameter.decodeParameters_written hparameter hhead hcomma htype] at hread
    cases hread
    rw [hrecorded] at hsame
    exact ⟨hcomma, hhead, (trim_reading_iff _ _ type).1 hsame⟩
  · rintro ⟨hcomma, hhead, hway⟩
    refine ⟨_, Parameter.decodeParameters_written hparameter hhead hcomma htype, ?_⟩
    rw [hrecorded]
    exact (trim_reading_iff _ _ type).2 hway

/-- Blanks in a type that both read as lexemes are taken out by both. -/
theorem type_text_agrees_iff_generic : ∃ read,
    decodeParameters (Parameter.written "p" "Array < Number >") = [⟨"p", read⟩] ∧
      trim read = trim "Array<Number>" := by
  have htag : Tag.parse? (Tag.written "const" "v" "Array < Number >" "1") =
      some ⟨"const", "v", "Array<Number>", "1"⟩ := by decide +kernel
  exact (type_text_agrees_iff (by decide) (by decide) (by decide) (by decide) htag).2
    ⟨by decide, by decide, .inl (by decide +kernel)⟩

/-- A type with a comma is one type in a declaration and two parameters in a parameter list. -/
theorem type_text_comma_differs :
    Tag.parse? (Tag.written "const" "v" "Map<String, Number>" "1") =
        some ⟨"const", "v", "Map<String, Number>", "1"⟩ ∧
      decodeParameters (Parameter.written "p" "Map<String, Number>") =
        [⟨"p", "Map<String"⟩, ⟨"Number>", []⟩] := by
  decide +kernel

end TagScript
