import Mathlib.Data.FinEnum
import Mathlib.Data.List.TakeWhile
import TagScript.Proofs.Layout
import TagScript.Rule.Declaring
import TagScript.Rule.Stripping

/-!
# Reading tags

How declaration tags and parameter tags stand in a text: a declaration tag has a colon before the
equals sign that its value follows, a parameter tag has a single pipe. A text without a single pipe
declares no typed parameter, whether it is read as lexemes or split at its commas.

`Lexeme.Fronts` lists once how the lexeme at the front of a text is found.
-/

namespace TagScript

section Pipes

variable {c : UInt8} {text more : Bytes}

/-- Where another byte stands, single pipes are searched for on both sides of it. -/
theorem pipeIndex?_append_cons (hc : c ≠ '|') (text more : Bytes) :
    pipeIndex? (text ++ c :: more) = none ↔ pipeIndex? text = none ∧ pipeIndex? more = none := by
  fun_induction pipeIndex? text with
  | case1 => cases more <;> simp [pipeIndex?, hc]
  | case2 => simp [pipeIndex?, hc]
  | case3 d hd => cases more <;> simp [pipeIndex?, hd, hc]
  | case4 text ih => simp [pipeIndex?, ih]
  | case5 d text hd => simp [pipeIndex?, hd]
  | case6 b d text hb ih => simpa [pipeIndex?, hb] using ih

/-- Bytes that are no pipes do not matter in front of a text. -/
theorem pipeIndex?_append_of_forall (h : ∀ c ∈ text, c ≠ '|') (more : Bytes) :
    pipeIndex? (text ++ more) = none ↔ pipeIndex? more = none := by
  induction text with
  | nil => rfl
  | cons c text ih =>
    have hcons := pipeIndex?_append_cons (h c (List.mem_cons_self ..)) [] (text ++ more)
    rw [List.cons_append, ← ih fun d hd => h d (List.mem_cons_of_mem _ hd)]
    simpa [pipeIndex?] using hcons

/-- Bytes that are no pipes do not matter behind a text. -/
theorem pipeIndex?_append_right (text : Bytes) (h : ∀ c ∈ more, c ≠ '|') :
    pipeIndex? (text ++ more) = none ↔ pipeIndex? text = none := by
  cases more with
  | nil => rw [List.append_nil]
  | cons c more =>
    have hmore := pipeIndex?_append_of_forall (fun d hd => h d (List.mem_cons_of_mem _ hd)) []
    rw [List.append_nil] at hmore
    rw [pipeIndex?_append_cons (h c (List.mem_cons_self ..)), hmore]
    simp [pipeIndex?]

/-- White space is no pipe. -/
theorem Bytes.IsSpaceByte.ne_pipe (h : Bytes.IsSpaceByte c) : c ≠ '|' := by
  rintro rfl
  exact absurd h (by unfold Bytes.IsSpaceByte; decide)

/-- Trimming a text does not matter for its single pipes. -/
theorem pipeIndex?_trim (text : Bytes) : pipeIndex? text.trim = none ↔ pipeIndex? text = none := by
  obtain ⟨lead, tail, htext, -, hlead, htail, -⟩ := Bytes.trim_spec text
  generalize text.trim = inner at htext ⊢
  rw [htext, pipeIndex?_append_of_forall fun c hc => (hlead.isSpaceByte c hc).ne_pipe,
    pipeIndex?_append_right inner fun c hc => (htail.isSpaceByte c hc).ne_pipe]

/-- Pieces that are joined have a single pipe where one of them has. -/
theorem pipeIndex?_join (hc : c ≠ '|') (pieces : List Bytes) :
    pipeIndex? (Bytes.join [c] pieces) = none ↔ ∀ piece ∈ pieces, pipeIndex? piece = none := by
  rw [Bytes.join]
  induction pieces with
  | nil => simp [pipeIndex?]
  | cons piece pieces ih =>
    cases pieces with
    | nil => simp
    | cons next pieces =>
      rw [List.intercalate_cons_cons, List.append_assoc, List.singleton_append,
        pipeIndex?_append_cons hc, ih]
      simp only [List.forall_mem_cons]

/-- A text has a single pipe where one of the pieces between its commas has. -/
theorem pipeIndex?_split (text : Bytes) :
    pipeIndex? text = none ↔ ∀ piece ∈ text.split ',', pipeIndex? piece.trim = none := by
  have hjoin := pipeIndex?_join (by decide : Char.toUInt8 ',' ≠ '|') (text.split ',')
  rw [Bytes.join_split] at hjoin
  simp only [hjoin, pipeIndex?_trim]

/-- A single pipe that is found stands there. -/
theorem eq_append_of_pipeIndex? {index : Nat} (h : pipeIndex? text = some index) :
    ∃ before after, text = before ++ Char.toUInt8 '|' :: after ∧ before.length = index := by
  fun_induction pipeIndex? text generalizing index with
  | case1 => exact nomatch h
  | case2 => exact ⟨[], [], rfl, by simpa using h⟩
  | case3 => exact nomatch h
  | case4 text ih =>
    obtain ⟨found, hfound, rfl⟩ := Option.map_eq_some_iff.1 h
    obtain ⟨before, after, rfl, rfl⟩ := ih hfound
    exact ⟨Char.toUInt8 '|' :: Char.toUInt8 '|' :: before, after, rfl, rfl⟩
  | case5 d text hd => exact ⟨[], d :: text, rfl, by simpa using h⟩
  | case6 b d text hb ih =>
    obtain ⟨found, hfound, rfl⟩ := Option.map_eq_some_iff.1 h
    obtain ⟨before, after, heq, rfl⟩ := ih hfound
    exact ⟨b :: before, after, by rw [heq]; rfl, rfl⟩

/-- Behind bytes that are no pipes there is no single pipe, if there is none behind where they
start. -/
theorem pipeIndex?_drop_of_take {n : Nat} (h : pipeIndex? text = none)
    (htake : ∀ c ∈ text.take n, c ≠ '|') :
    pipeIndex? (text.drop n) = none := by
  rw [← List.take_append_drop n text] at h
  exact (pipeIndex?_append_of_forall htake _).1 h

/-- A run of other bytes holds no pipe. -/
theorem ne_pipe_of_takeWhile {p : UInt8 → Bool} (hp : p '|' = false) :
    ∀ c ∈ text.take (text.takeWhile p).length, c ≠ '|' := by
  rintro c hc rfl
  rw [← List.prefix_iff_eq_take.1 (List.takeWhile_prefix p)] at hc
  rw [List.mem_takeWhile_imp hc] at hp
  exact Bool.noConfusion hp

end Pipes

/-- A text that starts with a lead is made up of it and what follows. -/
theorem Bytes.eq_append_of_after? {lead text rest : Bytes}
    (h : Bytes.after? lead text = some rest) :
    text = lead ++ rest := by
  fun_induction Bytes.after? lead text with
  | case1 => simpa using h
  | case2 => exact nomatch h
  | case3 lead c text ih => rw [ih h]; rfl
  | case4 => exact nomatch h

/-- A text that is cut at a byte is made up of what stands before and behind it. -/
theorem Bytes.eq_append_of_cut? {c : UInt8} {text left right : Bytes}
    (h : Bytes.cut? c text = some (left, right)) :
    text = left ++ c :: right := by
  fun_induction Bytes.cut? c text generalizing left right with
  | case1 => exact nomatch h
  | case2 => cases h; rfl
  | case3 b text hb ih =>
    obtain ⟨⟨l, r⟩, hcut, heq⟩ := Option.map_eq_some_iff.1 h
    cases heq
    rw [ih hcut, List.cons_append]

/-- The name at the front of a text is one, and what is left follows it. -/
theorem Bytes.takeName?_spec {text name rest : Bytes}
    (h : Bytes.takeName? text = some (name, rest)) :
    name.isIdent = true ∧ text = name ++ rest := by
  cases text with
  | nil => simp [Bytes.takeName?] at h
  | cons c text =>
    simp only [Bytes.takeName?, Option.ite_none_right_eq_some] at h
    obtain ⟨hc, h⟩ := h
    cases h
    rw [Bytes.isIdent, hc, Bool.true_and, List.all_takeWhile, List.cons_append,
      List.takeWhile_append_dropWhile]
    exact ⟨rfl, rfl⟩

/-- The keyword at the front of a text is one, and what is left follows it. -/
theorem takeKeyword?_spec {text keyword rest : Bytes}
    (h : takeKeyword? text = some (keyword, rest)) :
    keyword ∈ declarationKeywords ∧ text = keyword ++ rest := by
  obtain ⟨word, hword, h⟩ := List.exists_of_findSome?_eq_some h
  obtain ⟨after, hafter, heq⟩ := Option.map_eq_some_iff.1 h
  cases heq
  exact ⟨hword, Bytes.eq_append_of_after? hafter⟩

/-- The bytes that a code point has behind its first one are no ASCII. -/
theorem Utf8.le_of_mem_take_front {c : UInt8} {rest : Bytes} :
    ∀ b ∈ rest.take (Utf8.front c rest).2, 0x80 ≤ b := by
  have htwo : ∀ {a b n}, Utf8.two? a b = some n → 0x80 ≤ b := by
    intro a b n h
    simp only [Utf8.two?, Utf8.isContinuation] at h
    grind
  have hthree : ∀ {a b d n}, Utf8.three? a b d = some n → 0x80 ≤ b ∧ 0x80 ≤ d := by
    intro a b d n h
    simp only [Utf8.three?, Utf8.isContinuation] at h
    grind
  have hfour : ∀ {a b d e n}, Utf8.four? a b d e = some n → 0x80 ≤ b ∧ 0x80 ≤ d ∧ 0x80 ≤ e := by
    intro a b d e n h
    simp only [Utf8.four?, Utf8.isContinuation] at h
    grind
  fun_cases Utf8.front c rest with
  | case1 => simp
  | case2 => simp
  | case3 _ b rest n h => simpa using htwo h
  | case4 => simp
  | case5 _ b _ d rest n h => simpa using hthree h
  | case6 => simp
  | case7 _ b _ d _ e rest n h => simpa using hfour h
  | case8 => simp

namespace Lexeme

variable {c : UInt8} {text rest : Bytes} {kind : LexemeKind} {offset more : Nat} {lexeme : Lexeme}

/-- The kind of a lexeme and how many bytes of the rest belong to it, one case for each way to find
them. -/
inductive Fronts : UInt8 → Bytes → LexemeKind → Nat → Prop where
  | string {c : UInt8} {rest : Bytes} {n : Nat} (hquote : isQuote c = true)
      (hrest : stringRest? c rest = some n) : Fronts c rest .string n
  | name {c : UInt8} {rest : Bytes} (hc : isNameStart c = true) :
      Fronts c rest .name (rest.takeWhile isNamePart).length
  | number {c : UInt8} {rest : Bytes} (hc : isDigit c = true) :
      Fronts c rest .number (rest.takeWhile fun c => isWord c || c = '.').length
  | arrow {c : UInt8} {rest : Bytes} (h : Bytes.startsWith (c :: rest) "=>" = true) :
    Fronts c rest .arrow 1
  | long {c : UInt8} {rest operator : Bytes} (hmem : operator ∈ longOperators)
      (hstart : Bytes.startsWith (c :: rest) operator = true) : Fronts c rest .operator
      (operator.length - 1)
  | pipe {rest : Bytes}
      (hlong : ∀ operator ∈ longOperators,
        ¬ Bytes.startsWith (Char.toUInt8 '|' :: rest) operator = true) :
      Fronts '|' rest .pipe 0
  | colon {rest : Bytes} : Fronts ':' rest .colon 0
  | assign {rest : Bytes} : Fronts '=' rest .assign 0
  | single {c : UInt8} {rest : Bytes} {kind : LexemeKind} (hc : c ≠ '|')
      (hkind : kind ∈ [.operator, .comma, .bracket]) : Fronts c rest kind 0
  | blank {c : UInt8} {rest : Bytes} (hc : isBlankByte c = true) :
      Fronts c rest .blank (rest.takeWhile isBlankByte).length
  | other {c : UInt8} {rest : Bytes} (hc : c ≠ '|') : Fronts c rest .other (Utf8.front c rest).2

/-- How a lexeme that is told from its first byte is found. -/
theorem fronts_shortFront
    (hlong : ∀ operator ∈ longOperators, ¬ Bytes.startsWith (c :: rest) operator = true) :
    Fronts c rest (shortFront c rest).1 (shortFront c rest).2 := by
  fun_cases shortFront c rest with
  | case1 hc =>
    refine .single ?_ (by simp)
    rintro rfl
    exact absurd hc (by decide)
  | case2 _ hc => subst hc; exact .pipe hlong
  | case3 _ hpipe => exact .single hpipe (by simp)
  | case4 _ _ _ hc => subst hc; exact .colon
  | case5 _ _ _ _ hc => subst hc; exact .assign
  | case6 _ hpipe => exact .single hpipe (by simp)
  | case7 _ _ _ _ _ _ hblank => exact .blank hblank
  | case8 _ hpipe => exact .other hpipe

/-- How the lexeme at the front of a text is found. -/
theorem fronts_front (c : UInt8) (rest : Bytes) :
    Fronts c rest (front c rest).1 (front c rest).2 := by
  fun_cases front c rest with
  | case1 n hstring =>
    split at hstring
    next hquote => exact .string hquote hstring
    next => exact nomatch hstring
  | case2 _ hname => exact .name hname
  | case3 _ _ hdigit => exact .number hdigit
  | case4 _ _ _ harrow => exact .arrow harrow
  | case5 _ _ _ _ operator hfind =>
    exact .long (List.mem_of_find?_eq_some hfind) (List.find?_some hfind)
  | case6 _ _ _ _ hfind => exact fronts_shortFront (List.find?_eq_none.1 hfind)

/-- How the lexeme at the front of a text is found, for its kind and length. -/
theorem fronts_of_front (h : front c rest = (kind, more)) : Fronts c rest kind more := by
  have hfronts := fronts_front c rest
  rwa [h] at hfronts

/-- A string literal reaches up to its closing quote. -/
theorem eq_append_of_stringRest? {quote : UInt8} {n : Nat} (h : stringRest? quote text = some n) :
    ∃ inside after, text = inside ++ quote :: after ∧ n = inside.length + 1 := by
  fun_induction stringRest? quote text generalizing n with
  | case1 => exact nomatch h
  | case2 => exact ⟨[], [], rfl, by simpa using h.symm⟩
  | case3 => exact nomatch h
  | case4 d text => exact ⟨[], d :: text, rfl, by simpa using h.symm⟩
  | case5 => exact nomatch h
  | case6 d text _ _ ih =>
    obtain ⟨m, hm, rfl⟩ := Option.map_eq_some_iff.1 h
    obtain ⟨inside, after, rfl, rfl⟩ := ih hm
    exact ⟨_ :: d :: inside, after, rfl, rfl⟩
  | case7 c d text _ _ ih =>
    obtain ⟨m, hm, rfl⟩ := Option.map_eq_some_iff.1 h
    obtain ⟨inside, after, heq, rfl⟩ := ih hm
    exact ⟨c :: inside, after, by rw [heq]; rfl, rfl⟩

/-- In a text without single pipes no lexeme is a pipe, and what follows it has no single pipes
either. -/
theorem Fronts.pipeIndex?_drop (h : Fronts c rest kind more)
    (hpipe : pipeIndex? (c :: rest) = none) :
    kind ≠ .pipe ∧ pipeIndex? (rest.drop more) = none := by
  have hrest : c ≠ '|' → pipeIndex? rest = none :=
    fun hc => ((pipeIndex?_append_cons hc [] rest).1 hpipe).2
  have hbehind : ∀ {n}, c ≠ '|' → (∀ b ∈ rest.take n, b ≠ '|') →
      pipeIndex? (rest.drop n) = none := fun hc =>
    pipeIndex?_drop_of_take (hrest hc)
  cases h with
  | string hquote hstring =>
    have hc : c ≠ '|' := by
      rintro rfl
      exact absurd hquote (by decide)
    obtain ⟨inside, after, rfl, rfl⟩ := eq_append_of_stringRest? hstring
    refine ⟨LexemeKind.noConfusion, ?_⟩
    rw [List.append_cons, List.drop_left' (by simp)]
    exact ((pipeIndex?_append_cons hc inside after).1 (hrest hc)).2
  | name hc =>
    refine ⟨LexemeKind.noConfusion, hbehind ?_ (ne_pipe_of_takeWhile (by decide))⟩
    rintro rfl
    exact absurd hc (by decide)
  | number hc =>
    refine ⟨LexemeKind.noConfusion, hbehind ?_ (ne_pipe_of_takeWhile (by decide))⟩
    rintro rfl
    exact absurd hc (by decide)
  | arrow harrow =>
    have hbytes : utf8 "=>" = [Char.toUInt8 '=', Char.toUInt8 '>'] := by decide
    obtain ⟨after, hafter⟩ := Option.isSome_iff_exists.1 harrow
    rw [hbytes] at hafter
    obtain ⟨rfl, rfl⟩ := List.cons.inj (Bytes.eq_append_of_after? hafter)
    refine ⟨LexemeKind.noConfusion, hbehind (by decide) fun b hb => ?_⟩
    obtain rfl : b = '>' := by simpa using hb
    decide
  | @long _ _ operator hmem hstart =>
    have hoperators : ∀ operator ∈ longOperators, operator = [Char.toUInt8 '|', Char.toUInt8 '|'] ∨
        operator ≠ [] ∧ ∀ c ∈ operator, c ≠ '|' := by decide +kernel
    obtain ⟨after, hafter⟩ := Option.isSome_iff_exists.1 hstart
    have htext := Bytes.eq_append_of_after? hafter
    rcases hoperators operator hmem with rfl | ⟨hne, hplain⟩
    · obtain ⟨rfl, rfl⟩ := List.cons.inj htext
      exact ⟨LexemeKind.noConfusion, by simpa [pipeIndex?] using hpipe⟩
    · obtain ⟨first, tail, rfl⟩ := List.exists_cons_of_ne_nil hne
      obtain ⟨rfl, rfl⟩ := List.cons.inj htext
      refine ⟨LexemeKind.noConfusion, hbehind (hplain c (List.mem_cons_self ..)) fun b hb => ?_⟩
      exact hplain b (List.mem_cons_of_mem _ (by simpa using hb))
  | pipe hlong =>
    have hdouble : [Char.toUInt8 '|', Char.toUInt8 '|'] ∈ longOperators := by decide +kernel
    cases rest with
    | nil => simp [pipeIndex?] at hpipe
    | cons d rest =>
      obtain rfl : d = '|' := by
        by_contra hd
        simp [pipeIndex?, hd] at hpipe
      exact absurd rfl (hlong _ hdouble)
  | colon => exact ⟨LexemeKind.noConfusion, hrest (by decide)⟩
  | assign => exact ⟨LexemeKind.noConfusion, hrest (by decide)⟩
  | single hc hkind => exact ⟨by rintro rfl; simp at hkind, hrest hc⟩
  | blank hc =>
    refine ⟨LexemeKind.noConfusion, hbehind ?_ (ne_pipe_of_takeWhile (by decide))⟩
    rintro rfl
    exact absurd hc (by decide)
  | other hc =>
    refine ⟨LexemeKind.noConfusion, hbehind hc ?_⟩
    rintro b hb rfl
    exact absurd (Utf8.le_of_mem_take_front _ hb) (by decide)

/-- A text without single pipes has no pipe among its lexemes. -/
theorem kind_ne_pipe (h : pipeIndex? text = none) : ∀ lexeme ∈ allFrom offset text,
    lexeme.kind ≠ .pipe := by
  fun_induction allFrom offset text with
  | case1 => simp
  | case2 offset c rest kind more hfront ih =>
    obtain ⟨hkind, hrest⟩ := (fronts_of_front hfront).pipeIndex?_drop h
    rw [List.forall_mem_cons]
    exact ⟨hkind, ih hrest⟩

/-- Where in a text a lexeme is read. -/
theorem eq_append_of_mem_allFrom (h : lexeme ∈ allFrom offset text) : ∃ before c rest more,
    text = before ++ c :: rest ∧ lexeme.offset = offset + before.length ∧
      Fronts c rest lexeme.kind more ∧
      lexeme.text = c :: rest.take more := by
  fun_induction allFrom offset text with
  | case1 => simp at h
  | case2 offset c rest kind more hfront ih =>
    rcases List.mem_cons.1 h with rfl | h
    · exact ⟨[], c, rest, more, rfl, rfl, fronts_of_front hfront, rfl⟩
    · obtain ⟨before, d, behind, n, hdrop, hoffset, hfronts, htext⟩ := ih h
      have hlength : more ≤ rest.length := by
        have hdropped := congrArg List.length hdrop
        rw [List.length_drop, List.length_append, List.length_cons] at hdropped
        omega
      refine ⟨c :: (rest.take more ++ before), d, behind, n, ?_, ?_, hfronts, htext⟩
      · rw [List.cons_append, List.append_assoc, ← hdrop, List.take_append_drop]
      · rw [hoffset, List.length_cons, List.length_append, List.length_take_of_le hlength]
        omega

/-- The lexemes of a text stand one behind the other. -/
theorem pairwise_allFrom (offset : Nat) (text : Bytes) :
    (allFrom offset text).Pairwise fun first second => first.offset < second.offset := by
  fun_induction allFrom offset text with
  | case1 => exact .nil
  | case2 offset c rest kind more hfront ih =>
    refine .cons (fun lexeme hlexeme => ?_) ih
    obtain ⟨before, -, -, -, -, hoffset, -⟩ := eq_append_of_mem_allFrom hlexeme
    dsimp only
    omega

/-- A colon is read as one. -/
theorem Fronts.eq_colon (h : Fronts c rest .colon more) : c = ':' := by
  cases h with
  | colon => rfl
  | single _ hkind => simp at hkind

/-- An equals sign is read as one. -/
theorem Fronts.eq_assign (h : Fronts c rest .assign more) : c = '=' := by
  cases h with
  | assign => rfl
  | single _ hkind => simp at hkind

/-- A name is read as one. -/
theorem Fronts.isIdent_name (h : Fronts c rest .name more) :
    Bytes.isIdent (c :: rest.take more) = true := by
  cases h with
  | name hc =>
    rw [← List.prefix_iff_eq_take.1 (List.takeWhile_prefix isNamePart),
      Bytes.isIdent, hc, Bool.true_and, List.all_takeWhile]
  | single _ hkind => simp at hkind

end Lexeme

namespace Tag

variable {text : Bytes} {tag : Tag}

/-- How a text spells a tag: a keyword and a name, and a colon before the equals sign that the value
follows. -/
structure Spells (text : Bytes) (tag : Tag) : Prop where
  keyword : tag.keyword ∈ declarationKeywords
  name : tag.name.isIdent = true
  value : ∃ before after, text = before ++ Char.toUInt8 '=' :: after ∧ Char.toUInt8 ':' ∈ before ∧
    tag.value = Bytes.trim after

/-- A tag that is read as lexemes. -/
theorem spells_of_ofLexemes? (h : ofLexemes? text = some tag) : Spells text tag := by
  rw [ofLexemes?] at h
  split at h
  next keyword name colon rest hvisible =>
    split at h
    next first more assign tail htype hassign =>
      split at h
      next hkinds =>
        cases h
        simp only [Bool.and_eq_true, decide_eq_true_eq] at hkinds
        obtain ⟨⟨⟨hkeyword, hname⟩, hcolon⟩, hequals⟩ := hkinds
        have hrest : assign ∈ rest :=
          (List.dropWhile_sublist _).subset (hassign ▸ List.mem_cons_self ..)
        have hmem : ∀ lexeme ∈ keyword :: name :: colon :: rest,
            lexeme ∈ Lexeme.allFrom 0 text := by
          intro lexeme hlexeme
          rw [← hvisible] at hlexeme
          exact List.mem_of_mem_filter hlexeme
        have hordered := (Lexeme.pairwise_allFrom 0 text).filter (·.kind ≠ .blank)
        have hbehind : colon.offset < assign.offset := by
          have hpairs : (keyword :: name :: colon :: rest).Pairwise
              fun first second => first.offset < second.offset := hvisible ▸ hordered
          simp only [List.pairwise_cons] at hpairs
          exact hpairs.2.2.1 assign hrest
        obtain ⟨_, c, _, n, -, -, hfronts, htext⟩ :=
          Lexeme.eq_append_of_mem_allFrom (hmem name (by simp))
        obtain ⟨lead, _, behind, _, hlead, hleadLength, hfrontsColon, -⟩ :=
          Lexeme.eq_append_of_mem_allFrom (hmem colon (by simp))
        obtain ⟨before, _, after, _, hbefore, hbeforeLength, hfrontsAssign, -⟩ :=
          Lexeme.eq_append_of_mem_allFrom (hmem assign (by simp [hrest]))
        rw [hname] at hfronts
        rw [hcolon] at hfrontsColon
        rw [hequals] at hfrontsAssign
        obtain rfl := hfrontsColon.eq_colon
        obtain rfl := hfrontsAssign.eq_assign
        refine ⟨hkeyword, htext ▸ hfronts.isIdent_name, before, after, hbefore, ?_, ?_⟩
        · have hat : text[lead.length]? = some (Char.toUInt8 ':') := by
            rw [hlead, List.getElem?_append_right (Nat.le_refl _), Nat.sub_self]
            rfl
          rw [hbefore, List.getElem?_append_left (by omega)] at hat
          exact List.mem_of_getElem? hat
        · rw [hbeforeLength, hbefore, Nat.zero_add, List.append_cons, List.drop_left' (by simp)]
      next => exact nomatch h
    next => exact nomatch h
  next => exact nomatch h

/-- A tag of a text that is split at its colon and its first equals sign. -/
theorem spells_of_ofSplit? (h : ofSplit? text = some tag) : Spells text tag := by
  obtain ⟨⟨keyword, rest⟩, hkeyword, h⟩ := Option.bind_eq_some_iff.1 h
  obtain ⟨-, -, h⟩ := Option.bind_eq_some_iff.1 h
  obtain ⟨⟨name, behind⟩, hname, h⟩ := Option.bind_eq_some_iff.1 h
  obtain ⟨declared, hcolon, h⟩ := Option.bind_eq_some_iff.1 h
  obtain ⟨⟨type, value⟩, hcut, h⟩ := Option.bind_eq_some_iff.1 h
  obtain ⟨-, -, h⟩ := Option.bind_eq_some_iff.1 h
  cases h
  obtain ⟨hmem, rfl⟩ := takeKeyword?_spec hkeyword
  obtain ⟨hident, hname⟩ := Bytes.takeName?_spec hname
  have hgaps : ∀ text : Bytes, text.takeWhile isGap ++ Bytes.skipGaps text = text := fun _ =>
    List.takeWhile_append_dropWhile
  have hcolon : Bytes.skipGaps behind = Char.toUInt8 ':' :: declared :=
    Bytes.eq_append_of_after? hcolon
  have hrest : rest = rest.takeWhile isGap ++ (name ++ (behind.takeWhile isGap ++
      Char.toUInt8 ':' :: (type ++ Char.toUInt8 '=' :: value))) := by
    rw [← Bytes.eq_append_of_cut? hcut, ← hcolon, hgaps, ← hname, hgaps]
  refine ⟨hmem, hident, keyword ++ (rest.takeWhile isGap ++ (name ++ (behind.takeWhile isGap ++
    Char.toUInt8 ':' :: type))), value, ?_, by simp, rfl⟩
  simpa using hrest

/-- A tag that a text carries is spelled by it. -/
theorem spells_of_parse? (h : parse? text = some tag) : Spells text tag := by
  rcases Option.or_eq_some_iff.1 h with h | ⟨-, h⟩
  · exact spells_of_ofLexemes? h
  · exact spells_of_ofSplit? h

end Tag

namespace Parameter

variable {lexemes : List Lexeme} {parameter : Parameter} {parameters : List Parameter}
  {text : Bytes}

/-- What a list is read as without failure are the readings of its members, in order. -/
theorem map_of_mapM {α β : Type} {f : α → Option β} {xs : List α} {ys : List β}
    (h : xs.mapM f = some ys) : xs.map f = ys.map some := by
  induction xs generalizing ys with
  | nil =>
    cases h
    rfl
  | cons x xs ih =>
    rw [List.mapM_cons] at h
    obtain ⟨y, hy, h⟩ := Option.bind_eq_some_iff.1 h
    obtain ⟨zs, hzs, h⟩ := Option.bind_eq_some_iff.1 h
    cases h
    rw [List.map_cons, List.map_cons, hy, ih hzs]

/-- Without a pipe a parameter carries no type. -/
theorem type_eq_nil_of_ofLexemes? (h : ofLexemes? lexemes = some parameter)
    (hpipe : ∀ lexeme ∈ lexemes, lexeme.kind ≠ .pipe) : parameter.type = [] := by
  match lexemes with
  | [] => exact nomatch h
  | [name] =>
    rw [ofLexemes?] at h
    split at h
    · exact nomatch h
    · rw [← Option.some.inj h]
  | name :: second :: rest =>
    have hsecond : second.kind ≠ .pipe := hpipe second (by simp)
    rw [ofLexemes?] at h
    split at h
    · exact nomatch h
    · split at h
      · rw [← Option.some.inj h]
      · exact nomatch h

/-- What stands between commas is part of the list. -/
theorem subset_of_mem_groups (lexemes : List Lexeme) :
    ∀ group ∈ groups lexemes, group ⊆ lexemes := by
  fun_induction groups lexemes with
  | case1 => simp
  | case2 lexeme rest _ ih =>
    rw [List.forall_mem_cons]
    exact ⟨List.nil_subset _, fun group hgroup => List.subset_cons_of_subset _ (ih group hgroup)⟩
  | case3 lexeme rest => simp
  | case4 lexeme rest _ group more hgroups ih =>
    rw [hgroups, List.forall_mem_cons] at ih
    rw [List.forall_mem_cons]
    exact ⟨List.cons_subset_cons _ ih.1, fun other hother => List.subset_cons_of_subset _
      (ih.2 other hother)⟩

/-- Each parameter of a list is spelled by lexemes of the list. -/
theorem spelled_of_mem_listOfLexemes? (h : listOfLexemes? lexemes = some parameters) :
    ∀ parameter ∈ parameters, ∃ group ⊆ lexemes, ofLexemes? group = some parameter := by
  have hgroups := subset_of_mem_groups lexemes
  rw [listOfLexemes?] at h
  split at h
  · rw [← Option.some.inj h]
    simp
  next first rest heq =>
    rw [heq, List.forall_mem_cons] at hgroups
    obtain ⟨parameter, hfirst, h⟩ := Option.bind_eq_some_iff.1 h
    obtain ⟨others, hothers, h⟩ := Option.bind_eq_some_iff.1 h
    rw [← Option.some.inj h, List.forall_mem_cons]
    refine ⟨⟨first, hgroups.1, hfirst⟩, fun other hother => ?_⟩
    have hread : some other ∈ others.map some := List.mem_map_of_mem hother
    rw [← map_of_mapM hothers] at hread
    obtain ⟨group, hgroup, hother⟩ := List.mem_map.1 hread
    exact ⟨group, hgroups.2 group (List.mem_of_mem_filter hgroup), hother⟩

/-- Without a pipe the parameters of a list carry no types. -/
theorem type_eq_nil_of_listOfLexemes? (h : listOfLexemes? lexemes = some parameters)
    (hpipe : ∀ lexeme ∈ lexemes, lexeme.kind ≠ .pipe) :
    ∀ parameter ∈ parameters, parameter.type = [] := by
  intro parameter hparameter
  obtain ⟨group, hgroup, hspelled⟩ := spelled_of_mem_listOfLexemes? h parameter hparameter
  exact type_eq_nil_of_ofLexemes? hspelled fun lexeme hlexeme => hpipe lexeme (hgroup hlexeme)

/-- A text without a single pipe declares no typed parameter. -/
theorem type_eq_nil_of_decodeParameters (h : pipeIndex? text = none) :
    ∀ parameter ∈ decodeParameters text, parameter.type = [] := by
  rw [decodeParameters]
  split
  · simp
  · cases hlist : listOfLexemes? (Lexeme.visible text) with
    | some parameters =>
      rw [Option.getD_some]
      refine type_eq_nil_of_listOfLexemes? hlist fun lexeme hlexeme => ?_
      exact Lexeme.kind_ne_pipe h lexeme (List.mem_of_mem_filter hlexeme)
    | none =>
      rw [Option.getD_none, pieces, List.forall_mem_map]
      intro piece hpiece
      obtain ⟨whole, hwhole, rfl⟩ := List.mem_map.1 (List.mem_of_mem_filter hpiece)
      rw [ofPiece, (pipeIndex?_split text).1 h whole hwhole]

end Parameter

/-- Content without a single pipe in its leaves declares no typed parameter. -/
theorem taggedParameters_eq_nil {content : List Token}
    (h : ∀ t ∈ Token.leavesAll content, pipeIndex? t.head = none) :
    taggedParameters content = [] := by
  have hline : ("\n" : Bytes) = [Char.toUInt8 '\n'] := by decide
  have hjoin : pipeIndex? (Bytes.join "\n" ((Token.leavesAll content).map Token.head)) = none := by
    rw [hline, pipeIndex?_join (by decide), List.forall_mem_map]
    exact h
  rw [taggedParameters, List.filter_eq_nil_iff]
  intro parameter hparameter
  simp [Parameter.type_eq_nil_of_decodeParameters hjoin parameter hparameter]

end TagScript
