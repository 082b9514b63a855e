import TagScript.Proofs.LexemeContexts
import TagScript.Proofs.Settled
import TagScript.Proofs.TagRemoval
import TagScript.Proofs.TypeTexts

/-!
# Initialisers

A declaration tag stands in its text as a header: keyword, name, colon, type and equals sign, with
gaps in between. The value is what follows the equals sign behind the type. It is what follows the
first equals sign of the text exactly when the type was read without one: a type that stands
directly in front of its equals sign can take it for an operator, as `>=` in `Array<N>=b=c`, and
the value then starts behind the next one.

What is left of a declaration without its type carries no tag, whatever its name and its value are.
So tags are recorded and taken out of a level once and for all.
-/

namespace TagScript

open Bytes

/-- What follows the first of several equal bytes is more than what follows the last, even when both
are trimmed. -/
theorem Bytes.exists_first {c : UInt8} (hc : ¬ IsSpaceByte c) (text rest : Bytes) : ∃ left right,
    text ++ c :: rest = left ++ c :: right ∧ c ∉ left ∧ (trim rest = trim right ↔ c ∉ text) := by
  by_cases hmem : c ∈ text
  · obtain ⟨left, right, rfl, hleft⟩ := List.eq_append_cons_of_mem hmem
    refine ⟨left, right ++ c :: rest, by simp, hleft,
      iff_of_false (fun htrim => ?_) (not_not_intro hmem)⟩
    have hcount := congrArg (List.count c) htrim
    rw [count_trim hc, count_trim hc, List.count_append, List.count_cons_self] at hcount
    omega
  · exact ⟨text, rest, rfl, hmem, iff_of_true rfl hmem⟩

namespace Tag

variable {text : Bytes} {tag : Tag}

/-- How a text declares a tag: keyword, name, colon, type and equals sign in this order. Gaps may
stand in front of the keyword and behind the name, and one stands between them. The rest is the
value. -/
structure Header (text : Bytes) (tag : Tag) where
  lead : Bytes
  gap : Bytes
  tail : Bytes
  type : Bytes
  rest : Bytes
  text_eq : text = (lead ++ (tag.keyword ++ (gap ++ (tag.name ++ tail)))) ++
    Char.toUInt8 ':' :: (type ++ Char.toUInt8 '=' :: rest)
  isGap : ∀ c ∈ lead ++ (gap ++ tail), isGap c = true
  gap_ne_nil : gap ≠ []
  keyword : tag.keyword ∈ declarationKeywords
  name : tag.name.isIdent = true
  assign_mem_type : Char.toUInt8 '=' ∈ type ↔ Char.toUInt8 '=' ∈ tag.type
  value : tag.value = trim rest

/-- What is blank between lexemes is a gap between words. -/
theorem isGap_of_isBlankByte {c : UInt8} (h : Lexeme.isBlankByte c = true) : isGap c = true := by
  rcases Lexeme.isBlankByte_iff.1 h with rfl | rfl | rfl | rfl <;> decide

/-- The lexemes of a tag that is read as lexemes: blanks may stand anywhere between those that spell
it. -/
theorem lexemes_of_ofLexemes? (h : ofLexemes? text = some tag) :
    ∃ keyword name colon assign : Lexeme, ∃ lead gap tail type rest : List Lexeme,
      Lexeme.all text = lead ++
        keyword :: (gap ++ name :: (tail ++ colon :: (type ++ assign :: rest))) ∧
      (∀ lexeme ∈ lead ++ (gap ++ tail), lexeme.kind = .blank) ∧ name.kind = .name ∧
        colon.kind = .colon ∧
      assign.kind = .assign ∧ (∀ lexeme ∈ type, lexeme.kind ≠ .string) ∧
        type.filter (·.kind ≠ .blank) ≠ [] ∧ tag = {
        keyword := keyword.text
        name := name.text
        type := Lexeme.joined (type.filter (·.kind ≠ .blank))
        value := trim (text.drop (assign.offset + 1)) } := by
  rw [ofLexemes?] at h
  split at h
  next keyword name colon behind hvisible =>
    split at h
    next first more assign others htype hassign =>
      split at h
      next hkinds =>
        cases h
        simp only [Bool.and_eq_true, decide_eq_true_eq] at hkinds
        obtain ⟨⟨⟨-, hname⟩, hcolon⟩, hequals⟩ := hkinds
        have hbehind : behind = (first :: more) ++ assign :: others := by
          rw [← htype, ← hassign, List.takeWhile_append_dropWhile]
        rw [Lexeme.visible, hbehind] at hvisible
        obtain ⟨lead, _, hall, hlead, -, hvisible⟩ := List.filter_eq_cons_iff.1 hvisible
        obtain ⟨gap, _, rfl, hgap, -, hvisible⟩ := List.filter_eq_cons_iff.1 hvisible
        obtain ⟨tail, _, rfl, htail, -, hvisible⟩ := List.filter_eq_cons_iff.1 hvisible
        obtain ⟨spelled, _, rfl, hspelled, hvisible⟩ := List.filter_eq_append_iff.1 hvisible
        obtain ⟨space, rest, rfl, hspace, -, -⟩ := List.filter_eq_cons_iff.1 hvisible
        have hfilter : (spelled ++ space).filter (·.kind ≠ .blank) = first :: more := by
          rw [List.filter_append, hspelled, List.filter_eq_nil_iff.2 hspace, List.append_nil]
        refine ⟨keyword, name, colon, assign, lead, gap, tail, spelled ++ space, rest, ?_, ?_,
          hname, hcolon, hequals, ?_, ?_, by rw [hfilter]⟩
        · rw [hall, List.append_assoc]
        · simpa [or_imp, forall_and] using And.intro hlead (And.intro hgap htail)
        · intro lexeme hlexeme hstring
          have hvisible : lexeme ∈ first :: more :=
            hfilter ▸ List.mem_filter.2 ⟨hlexeme, by simp [hstring]⟩
          rw [← htype] at hvisible
          have hkind := List.mem_takeWhile_imp hvisible
          simp [isTypeLexeme, hstring] at hkind
        · rw [hfilter]
          exact List.cons_ne_nil _ _
      next => cases h
    next => cases h
  next => cases h

/-- A tag that is read as lexemes has a header, and its type is the one of the header without
blanks. -/
theorem exists_header_of_ofLexemes? (h : ofLexemes? text = some tag) :
    ∃ header : Header text tag, tag.type = compact header.type ∧ tag.type ≠ [] := by
  have hspells := spells_of_ofLexemes? h
  obtain ⟨keyword, name, colon, assign, lead, gap, tail, type, rest, hall, hblank, hname, hcolon,
    hassign, hstring, htype,
    rfl⟩ := lexemes_of_ofLexemes? h
  have hread :
      ∀ lexeme ∈ lead ++ keyword :: (gap ++ name :: (tail ++ colon :: (type ++ assign :: rest))),
      lexeme ∈ Lexeme.all text := fun lexeme hlexeme => hall ▸ hlexeme
  simp only [List.forall_mem_append, List.forall_mem_cons] at hread
  obtain ⟨hleadRead, -, hgapRead, -, htailRead, hcolonRead, htypeRead, hassignRead, -⟩ := hread
  obtain ⟨_, hcolonText, hcolonByte⟩ := Lexeme.text_of_sign hcolonRead (.inl hcolon)
  obtain ⟨_, hassignText, hassignByte⟩ := Lexeme.text_of_sign hassignRead (.inr hassign)
  rw [hcolon] at hcolonByte
  rw [hassign] at hassignByte
  obtain rfl := of_decide_eq_true hcolonByte
  obtain rfl := of_decide_eq_true hassignByte
  have htext : text = (Lexeme.joined lead ++ (keyword.text ++ (Lexeme.joined gap ++ (name.text ++
      Lexeme.joined tail)))) ++ Char.toUInt8 ':' ::
      (Lexeme.joined type ++ Char.toUInt8 '=' :: Lexeme.joined rest) := by
    rw [← Lexeme.joined_allFrom 0 text, ← Lexeme.all, hall]
    simp [Lexeme.joined_append, Lexeme.joined_cons, hcolonText, hassignText]
  have htypeText : Lexeme.joined (type.filter (·.kind ≠ .blank)) ≠ [] := by
    obtain ⟨lexeme, more, hmore⟩ := List.exists_cons_of_ne_nil htype
    have hlexeme : lexeme ∈ type := List.mem_of_mem_filter (hmore ▸ List.mem_cons_self ..)
    rw [hmore, Lexeme.joined_cons]
    exact List.append_ne_nil_of_left_ne_nil (Lexeme.text_ne_nil (htypeRead lexeme hlexeme)) _
  refine ⟨⟨_, _, _, _, _, htext, fun c hc => ?_, ?_, hspells.keyword, hspells.name, ?_, ?_⟩,
    ?_, htypeText⟩
  · have hgaps : ∀ lexeme ∈ lead ++ (gap ++ tail), lexeme ∈ Lexeme.all text := by
      simpa [or_imp, forall_and] using And.intro hleadRead (And.intro hgapRead htailRead)
    exact isGap_of_isBlankByte
      (Parameter.isBlankByte_of_mem_joined hgaps hblank c
        (by simpa [Lexeme.joined_append] using hc))
  · intro hnil
    cases gap with
    | nil => exact Lexeme.kind_ne_name hall (isIdent_keyword hspells.keyword) hname
    | cons blank gap =>
      rw [Lexeme.joined_cons] at hnil
      exact Lexeme.text_ne_nil (hgapRead blank (List.mem_cons_self ..))
        (List.append_eq_nil_iff.1 hnil).1
  · exact (Lexeme.mem_joined_filter htypeRead (by decide)).symm
  · have hbefore : Lexeme.all text =
        (lead ++ keyword :: (gap ++ name :: (tail ++ colon :: type))) ++ assign :: rest := by
      rw [hall]
      simp
    rw [← Lexeme.drop_of_all hbefore, hassignText]
    rfl
  · exact (Lexeme.compact_joined
      (fun lexeme hlexeme => Lexeme.holds_of_mem_allFrom (htypeRead lexeme hlexeme)) hstring).symm

/-- A tag of a text that is split at its colon and its first equals sign has a header, and its type
is the trimmed one. -/
theorem exists_header_of_ofSplit? (h : ofSplit? text = some tag) :
    ∃ header : Header text tag, tag.type = trim header.type ∧ tag.type ≠ [] := by
  have hspells := spells_of_ofSplit? h
  obtain ⟨⟨keyword, behind⟩, hkeyword, h⟩ := Option.bind_eq_some_iff.1 h
  obtain ⟨_, hguard, h⟩ := Option.bind_eq_some_iff.1 h
  obtain ⟨⟨name, declared⟩, hname, h⟩ := Option.bind_eq_some_iff.1 h
  obtain ⟨typed, hcolon, h⟩ := Option.bind_eq_some_iff.1 h
  obtain ⟨⟨type, rest⟩, hcut, h⟩ := Option.bind_eq_some_iff.1 h
  obtain ⟨_, hshown, h⟩ := Option.bind_eq_some_iff.1 h
  cases h
  have hgaps : ∀ text : Bytes, text.takeWhile isGap ++ skipGaps text = text :=
    fun _ => List.takeWhile_append_dropWhile
  have hcolon : skipGaps declared = Char.toUInt8 ':' :: typed := eq_append_of_after? hcolon
  refine ⟨⟨[], behind.takeWhile isGap, declared.takeWhile isGap, type, rest, ?_, ?_, ?_,
    hspells.keyword, hspells.name, ?_, rfl⟩, rfl, ?_⟩
  · have hbehind : behind = behind.takeWhile isGap ++ (name ++ (declared.takeWhile isGap ++
        Char.toUInt8 ':' :: (type ++ Char.toUInt8 '=' :: rest))) := by
      rw [← eq_append_of_cut? hcut, ← hcolon, hgaps, ← (takeName?_spec hname).2, hgaps]
    rw [(takeKeyword?_spec hkeyword).2]
    simpa using hbehind
  · intro c hc
    rcases List.mem_append.1 (by simpa using hc) with hc | hc <;> exact List.mem_takeWhile_imp hc
  · cases behind with
    | nil => simp [guard] at hguard
    | cons c behind =>
      have hc : isGap c = true := by
        by_contra hc
        simp [guard, hc] at hguard
      simp [hc]
  · exact ⟨fun hmem => mem_trim hmem (by decide), fun hmem => trim_subset _ hmem⟩
  · intro hnil
    have hblank : type.isBlank = true := trim_eq_nil_iff.1 hnil
    simp [guard, hblank] at hshown

/-- Every tag that a text carries has a header in it, and its type is the one of the header but for
white space. -/
theorem exists_typed_header (h : parse? text = some tag) : ∃ header : Header text tag,
    (tag.type = compact header.type ∨ tag.type = trim header.type) ∧ tag.type ≠ [] := by
  rcases Option.or_eq_some_iff.1 h with h | ⟨-, h⟩
  · obtain ⟨header, htype, hne⟩ := exists_header_of_ofLexemes? h
    exact ⟨header, .inl htype, hne⟩
  · obtain ⟨header, htype, hne⟩ := exists_header_of_ofSplit? h
    exact ⟨header, .inr htype, hne⟩

/-- Every tag that a text carries has a header in it. -/
theorem exists_header (h : parse? text = some tag) : Nonempty (Header text tag) := by
  obtain ⟨header, -⟩ := exists_typed_header h
  exact ⟨header⟩

/-- What follows the equals sign of a declaration without its type. -/
def initialiser (value : Bytes) : Bytes := if value.isEmpty then [] else " " ++ value

/-- The declaration without its type, up to the equals sign and behind it. -/
theorem stripped_eq_initialiser (tag : Tag) :
    tag.stripped = tag.keyword ++ " " ++ tag.name ++ " =" ++ initialiser tag.value := by
  have hassign : utf8 " = " = utf8 " =" ++ utf8 " " := by decide
  rw [stripped, initialiser]
  split
  · rw [List.append_nil]
  · rw [hassign]
    simp

/-- Different values are written differently. -/
theorem initialiser_inj {first second : Bytes} : initialiser first = initialiser second ↔
    first = second := by
  have hblank : utf8 " " = [Char.toUInt8 ' '] := by decide
  rw [initialiser, initialiser, hblank]
  cases first <;> cases second <;> simp

namespace Header

variable (header : Header text tag)

/-- Keyword and name with the gaps around them hold no equals sign. -/
theorem assign_not_mem_front :
    Char.toUInt8 '=' ∉ header.lead ++
      (tag.keyword ++ (header.gap ++ (tag.name ++ header.tail))) := by
  have hgap : ¬ Char.toUInt8 '=' ∈ header.lead ++ (header.gap ++ header.tail) := fun hmem =>
    absurd (header.isGap _ hmem) (by decide)
  have hname : ∀ {name : Bytes}, name.isIdent = true → Char.toUInt8 '=' ∉ name := fun hname hmem =>
    absurd (Parameter.isNamePart_of_mem hname _ hmem) (by decide)
  have hkeyword := hname (isIdent_keyword header.keyword)
  have hdeclared := hname header.name
  simp only [List.mem_append, not_or] at hgap ⊢
  exact ⟨hgap.1, hkeyword, hgap.2.1, hdeclared, hgap.2.2⟩

end Header

/-- A declaration is cut at its first equals sign behind keyword, name and colon. Its value is what
follows this sign, and stripping its type keeps just that, exactly when no equals sign was read into
the type. -/
theorem value_eq_initialiser_iff (h : parse? text = some tag) :
    ∃ header : Header text tag, ∃ type rest,
    cut? '=' text =
      some (header.lead ++ (tag.keyword ++ (header.gap ++ (tag.name ++ header.tail))) ++
      Char.toUInt8 ':' :: type, rest) ∧
    (tag.value = trim rest ↔ Char.toUInt8 '=' ∉ tag.type) ∧
    (tag.stripped = tag.keyword ++ " " ++ tag.name ++ " =" ++ initialiser (trim rest) ↔
      Char.toUInt8 '=' ∉ tag.type) := by
  obtain ⟨header⟩ := exists_header h
  have hstripped : ∀ rest, tag.stripped = tag.keyword ++ " " ++ tag.name ++ " =" ++
      initialiser (trim rest) ↔
      tag.value = trim rest := fun rest => by
    rw [stripped_eq_initialiser, List.append_cancel_left_eq, initialiser_inj]
  obtain ⟨type, rest, hsign, hplain, hvalue⟩ :=
    exists_first (by decide : ¬ IsSpaceByte '=') header.type header.rest
  refine ⟨header, type, rest, ?_, ?_⟩
  · have hfront : Char.toUInt8 '=' ∉ header.lead ++
        (tag.keyword ++ (header.gap ++ (tag.name ++ header.tail))) ++
        Char.toUInt8 ':' :: type := by
      rw [List.mem_append, List.mem_cons, not_or, not_or]
      exact ⟨header.assign_not_mem_front, by decide, hplain⟩
    have htext : text = header.lead ++ (tag.keyword ++ (header.gap ++ (tag.name ++ header.tail))) ++
        Char.toUInt8 ':' :: type ++ Char.toUInt8 '=' :: rest :=
        header.text_eq.trans (by rw [hsign]; simp)
    exact (congrArg (cut? '=') htext).trans (cut?_append hfront rest)
  · rw [hstripped, header.value, hvalue, header.assign_mem_type]
    exact ⟨Iff.rfl, Iff.rfl⟩

/-- Operators behind the equals sign belong to the value. -/
theorem value_eq_initialiser_iff_operators :
    ∃ header : Header "let a : N = b >= c == d" ⟨"let", "a", "N", "b >= c == d"⟩, ∃ type rest,
      cut? '=' "let a : N = b >= c == d" =
        some (header.lead ++ (utf8 "let" ++ (header.gap ++ (utf8 "a" ++ header.tail))) ++
        Char.toUInt8 ':' :: type, rest) ∧ trim rest = "b >= c == d" := by
  have hparse : parse? "let a : N = b >= c == d" = some ⟨"let", "a", "N", "b >= c == d"⟩ := by
    decide +kernel
  obtain ⟨header, type, rest, hcut, hvalue, -⟩ := value_eq_initialiser_iff hparse
  exact ⟨header, type, rest, hcut, (hvalue.2 (by decide)).symm⟩

/-- A type that ends in a bracket takes the equals sign behind it for an operator, and the first
part of the initialiser is read into the type. -/
theorem value_loses_initialiser :
    cut? '=' "let a : Array<N>=b=c" = some (utf8 "let a : Array<N>", utf8 "b=c") ∧
      parse? "let a : Array<N>=b=c" = some ⟨"let", "a", "Array<N>=b", "c"⟩ ∧
      stripped ⟨"let", "a", "Array<N>=b", "c"⟩ = "let a = c" := by
  decide +kernel

/-- **Stripping is final.** A text that carries a tag is a header with the value behind it. Its
keyword declares something, its name is a name, and its type is that of the header but for white
space. Without the type it carries no tag, so once the tags of a level are taken out, recording them
again records nothing and taking them out changes nothing. -/
theorem stripped_final (h : parse? text = some tag) :
    (∃ header : Header text tag, (tag.type = compact header.type ∨ tag.type = trim header.type) ∧
      tag.type ≠ []) ∧
    untagged text = tag.stripped ∧ parse? tag.stripped = none ∧
    ∀ (tags : TagMap) (tokens : List Token), recordTags tags (tokens.map Token.untag) = tags ∧
      (tokens.map Token.untag).map Token.untag = tokens.map Token.untag := by
  have hstripped : untagged text = tag.stripped := by rw [untagged, h]
  have hfinal : ∀ tokens : List Token, ∀ t ∈ tokens.map Token.untag, parse? t.head = none := by
    intro tokens t ht
    obtain ⟨u, -, rfl⟩ := List.mem_map.1 ht
    have hhead : u.untag.head = untagged u.head := by cases u <;> rfl
    rw [hhead]
    exact parse?_untagged u.head
  refine ⟨exists_typed_header h, hstripped, hstripped ▸ parse?_untagged text, fun tags tokens => ?_⟩
  exact ⟨Token.recordTags_eq (hfinal tokens) tags, Token.map_untag (hfinal tokens)⟩

/-- A declaration of a name that is a keyword, with an operator for its type and a value that starts
with an arrow. -/
theorem stripped_final_keyword :
    let tag : Tag := ⟨"const", "const", "==", "=> x"⟩
    parse? "const const : == = => x" = some tag ∧
      (∃ header : Header "const const : == = => x" tag,
        (tag.type = compact header.type ∨ tag.type = trim header.type) ∧ tag.type ≠ []) ∧
      tag.stripped = "const const = => x" ∧ parse? "const const = => x" = none := by
  intro tag
  have hparse : parse? "const const : == = => x" = some tag := by decide +kernel
  have hstripped : tag.stripped = "const const = => x" := by decide +kernel
  obtain ⟨hheader, -, hnone, -⟩ := stripped_final hparse
  exact ⟨hparse, hheader, hstripped, hstripped ▸ hnone⟩

end Tag

end TagScript
