import TagScript.Proofs.CallChecking
import TagScript.Proofs.Rewriting

/-!
# Which declaration tags are left

A check takes the declaration tags out of every level that it enters, and a declaration without
its tag carries no other one. It enters neither what a call passes nor what stands inside a
declaration. A call that passes is made of names and commas and has no place for a tag. So the
tags that are left, if the check passes, are those inside declarations, such as the parameter
list of a function with a function in a default value.
-/

namespace TagScript

open Token Bytes

/-- The name at the front of a text is taken off it. -/
theorem Bytes.takeName?_append {name : Bytes} {c : UInt8} (hname : name.isIdent = true)
    (hc : isNamePart c = false)
    (rest : Bytes) : takeName? (name ++ c :: rest) = some (name, c :: rest) := by
  cases name with
  | nil => exact Bool.noConfusion hname
  | cons first name =>
    obtain ⟨hfirst, hparts⟩ := Bool.and_eq_true_iff.1 hname
    have hpart := List.all_eq_true.1 hparts
    have hstop : ¬ isNamePart c = true := by simp [hc]
    rw [List.cons_append, takeName?, if_pos hfirst, List.takeWhile_append_of_pos hpart,
      List.takeWhile_cons_of_neg hstop, List.append_nil, List.dropWhile_append_of_pos hpart,
      List.dropWhile_cons_of_neg hstop]

namespace Lexeme

variable {c : UInt8}

/-- A name is read as one lexeme up to a byte that cannot continue it. -/
theorem allFrom_name {name : Bytes} (hname : name.isIdent = true) (hc : isNamePart c = false)
    (offset : Nat) (rest : Bytes) :
    allFrom offset (name ++ c :: rest) = ⟨.name, name, offset⟩ :: allFrom (offset + name.length)
      (c :: rest) := by
  have hquote : ∀ c : UInt8, isNameStart c = true → isQuote c = false := by decide +kernel
  cases name with
  | nil => exact Bool.noConfusion hname
  | cons first name =>
    have hfirst := (Bool.and_eq_true_iff.1 hname).1
    have htake : (name ++ c :: rest).takeWhile isNamePart = name := by
      have htaken := takeName?_append hname hc rest
      rw [List.cons_append, takeName?, if_pos hfirst] at htaken
      exact (List.cons.inj (Prod.mk.inj (Option.some.inj htaken)).1).2
    have hfront : front first (name ++ c :: rest) = (.name, name.length) := by
      simp [front, hquote first hfirst, hfirst, htake]
    rw [List.cons_append, allFrom, hfront]
    simp [Nat.add_assoc, Nat.add_comm 1]

/-- A blank in front of something else is read as one lexeme. -/
theorem allFrom_blank (hc : isBlankByte c = false) (offset : Nat) (rest : Bytes) :
    allFrom offset (Char.toUInt8 ' ' :: c :: rest) =
      ⟨.blank, [Char.toUInt8 ' '], offset⟩ :: allFrom (offset + 1) (c :: rest) := by
  have hfront : front (Char.toUInt8 ' ') (c :: rest) =
      (.blank, ((c :: rest).takeWhile isBlankByte).length) := rfl
  rw [List.takeWhile_cons_of_neg (by simp [hc])] at hfront
  rw [allFrom, hfront]
  rfl

end Lexeme

/-- A keyword is taken off the front of a text. -/
theorem takeKeyword?_append {keyword : Bytes} (h : keyword ∈ declarationKeywords) (rest : Bytes) :
    takeKeyword? (keyword ++ rest) = some (keyword, rest) := by
  simp only [declarationKeywords, List.mem_cons, List.not_mem_nil, or_false] at h
  obtain rfl | rfl | rfl := h <;> rfl

namespace Tag

variable {tag : Tag}

/-- The keywords of declarations are names. -/
theorem isIdent_keyword {keyword : Bytes} (h : keyword ∈ declarationKeywords) :
    keyword.isIdent = true := by
  revert keyword
  decide

/-- No name starts with a blank. -/
theorem isBlankByte_eq_false {name : Bytes} {c : UInt8} (h : Bytes.isIdent (c :: name) = true) :
    Lexeme.isBlankByte c = false ∧ isGap c = false := by
  have hstart : ∀ c : UInt8, isNameStart c = true → Lexeme.isBlankByte c = false ∧
      isGap c = false := by decide +kernel
  exact hstart c (Bool.and_eq_true_iff.1 h).1

/-- A declaration without its tag reads keyword, name and equals sign. -/
theorem visible_stripped (hkeyword : tag.keyword ∈ declarationKeywords)
    (hname : tag.name.isIdent = true) :
    ∃ keyword name assign rest, Lexeme.visible tag.stripped = keyword :: name :: assign :: rest ∧
      assign.kind = .assign := by
  rw [tag.stripped_eq, Lexeme.visible, Lexeme.all,
    Lexeme.allFrom_name (isIdent_keyword hkeyword) (by decide)]
  generalize hbehind : (if tag.value.isEmpty then [] else Char.toUInt8 ' ' :: tag.value) = behind
  have hassign : Lexeme.front (Char.toUInt8 '=') behind = (.assign, 0) := by
    rw [← hbehind]
    split <;> rfl
  cases hfirst : tag.name with
  | nil =>
    rw [hfirst] at hname
    exact Bool.noConfusion hname
  | cons first name =>
    rw [hfirst] at hname
    rw [List.cons_append, Lexeme.allFrom_blank (isBlankByte_eq_false hname).1, ← List.cons_append,
      Lexeme.allFrom_name hname (by decide), Lexeme.allFrom_blank (by decide),
      Lexeme.allFrom, hassign]
    exact ⟨_, _, _, _, rfl, rfl⟩

/-- A declaration without its tag is read as no tag. -/
theorem ofLexemes?_stripped (hkeyword : tag.keyword ∈ declarationKeywords)
    (hname : tag.name.isIdent = true) :
    ofLexemes? tag.stripped = none := by
  obtain ⟨keyword, name, assign, rest, hvisible, hassign⟩ := visible_stripped hkeyword hname
  rw [ofLexemes?, hvisible]
  dsimp only
  split
  · simp [hassign]
  · rfl

/-- A declaration without its tag has no colon to split it at. -/
theorem ofSplit?_stripped (hkeyword : tag.keyword ∈ declarationKeywords)
    (hname : tag.name.isIdent = true) :
    ofSplit? tag.stripped = none := by
  rw [ofSplit?, tag.stripped_eq, takeKeyword?_append hkeyword]
  generalize (if tag.value.isEmpty then [] else Char.toUInt8 ' ' :: tag.value) = behind
  have hcolon : Bytes.after? ":" (Bytes.skipGaps (Char.toUInt8 ' ' :: Char.toUInt8 '=' :: behind)) =
      none := rfl
  have hskip : Bytes.skipGaps
      (Char.toUInt8 ' ' :: (tag.name ++ Char.toUInt8 ' ' :: Char.toUInt8 '=' :: behind)) =
      tag.name ++ Char.toUInt8 ' ' :: Char.toUInt8 '=' :: behind := by
    rw [Bytes.skipGaps, List.dropWhile_cons_of_pos (by decide)]
    cases hfirst : tag.name with
    | nil =>
      rw [hfirst] at hname
      exact Bool.noConfusion hname
    | cons first name =>
      rw [hfirst] at hname
      rw [List.cons_append, List.dropWhile_cons_of_neg (by simp [(isBlankByte_eq_false hname).2])]
  simp [hskip, takeName?_append hname (by decide : isNamePart (Char.toUInt8 ' ') = false), hcolon]

end Tag

/-- A text without its declaration tag carries no other one. -/
theorem parse?_untagged (text : Bytes) : Tag.parse? (untagged text) = none := by
  rw [untagged]
  cases htag : Tag.parse? text with
  | none => exact htag
  | some tag =>
    have hspells := Tag.spells_of_parse? htag
    dsimp only
    rw [Tag.parse?, Tag.ofLexemes?_stripped hspells.keyword hspells.name,
      Tag.ofSplit?_stripped hspells.keyword hspells.name, Option.or_none]

/-- A blank text has no visible bytes. -/
theorem Bytes.isSpaceByte_of_isBlank {text : Bytes} (h : text.isBlank = true) :
    ∀ c ∈ text, IsSpaceByte c := by
  obtain ⟨lead, htext, hlead, -⟩ := trimStart_spec text
  rw [List.isEmpty_iff.1 h, List.append_nil] at htext
  exact htext ▸ hlead.isSpaceByte

/-- The pieces of a text hold all of its bytes but the separators. -/
theorem Bytes.exists_mem_split {c d : UInt8} {text : Bytes} (hmem : d ∈ text) (hne : d ≠ c) :
    ∃ piece ∈ text.split c, d ∈ piece := by
  fun_induction split c text with
  | case1 => simp at hmem
  | case2 text ih =>
    obtain ⟨piece, hpiece, hd⟩ := ih (List.mem_of_ne_of_mem hne hmem)
    exact ⟨piece, List.mem_cons_of_mem _ hpiece, hd⟩
  | case3 b text hb hnil ih => exact absurd hnil (split_ne_nil c text)
  | case4 b text hb piece rest hsplit ih =>
    rw [List.exists_mem_cons_iff]
    rcases List.mem_cons.1 hmem with rfl | hmem
    · exact .inl (List.mem_cons_self ..)
    · have hrest := ih hmem
      rw [hsplit, List.exists_mem_cons_iff] at hrest
      exact hrest.imp_left (List.mem_cons_of_mem _)

namespace Argument

variable {text : Bytes} {c : UInt8}

/-- Only white space and commas are dropped. -/
theorem mem_dropSeparators (hmem : c ∈ text) (hc : ¬ IsSpaceByte c) (hcomma : c ≠ ',') :
    c ∈ dropSeparators text := by
  have hone : ∀ {a}, (isAsciiSpace a || decide (a = Char.toUInt8 ',')) = true → c ≠ a := by
    rintro _ h rfl
    exact (Bool.or_eq_true_iff.1 h).elim (fun h => hc (.inl h)) fun h =>
      hcomma (of_decide_eq_true h)
  have hpoint : ∀ {point}, SpacePoint point → c ∉ point :=
    fun hpoint hmem => hc (hpoint.isSpaceByte c hmem)
  fun_induction dropSeparators text with
  | case1 => exact hmem
  | case2 a h => exact absurd (List.mem_singleton.1 hmem) (hone h)
  | case3 => exact hmem
  | case4 b a h ih => exact ih (List.mem_of_ne_of_mem (hone h) hmem)
  | case5 b a _ h => exact absurd (by simpa [or_comm] using hmem) (hpoint (.two h))
  | case6 => exact hmem
  | case7 d b a text h ih => exact ih (List.mem_of_ne_of_mem (hone h) hmem)
  | case8 d b a text _ h ih =>
    have hpair := hpoint (.two h)
    simp only [List.mem_cons, List.not_mem_nil, or_false, not_or] at hpair
    exact ih (List.mem_of_ne_of_mem hpair.1 (List.mem_of_ne_of_mem hpair.2 hmem))
  | case9 d b a text _ _ h ih =>
    have htriple := hpoint (.three h)
    simp only [List.mem_cons, List.not_mem_nil, or_false, not_or] at htriple
    exact ih (List.mem_of_ne_of_mem htriple.1 (List.mem_of_ne_of_mem htriple.2.1
      (List.mem_of_ne_of_mem htriple.2.2 hmem)))
  | case10 => exact hmem

/-- Only white space and commas are trimmed. -/
theorem mem_trimSeparators (hmem : c ∈ text) (hc : ¬ IsSpaceByte c) (hcomma : c ≠ ',') :
    c ∈ trimSeparators text := by
  obtain ⟨lead, htext, hlead, -⟩ := trimStart_spec text
  have hstart : c ∈ trimStart text := by
    rw [htext, List.mem_append] at hmem
    exact hmem.resolve_left fun h => hc (hlead.isSpaceByte c h)
  rw [trimSeparators, List.mem_reverse]
  exact mem_dropSeparators (List.mem_reverse.2 hstart) hc hcomma

/-- Every segment reaches up to the next one. -/
theorem exists_mem_segments (hc : ¬ IsSpaceByte c) (hcomma : c ≠ ',') (starts : List Nat) :
    ∀ start, c ∈ text.drop start → ∃ argument ∈ segments text (start :: starts), c ∈ argument := by
  induction starts with
  | nil =>
    intro start hmem
    exact ⟨_, List.mem_singleton.2 rfl, mem_trimSeparators hmem hc hcomma⟩
  | cons next starts ih =>
    intro start hmem
    rw [segments, List.exists_mem_cons_iff]
    rw [← List.take_append_drop (next - start) (text.drop start), List.mem_append,
      List.drop_drop] at hmem
    rcases hmem with hmem | hmem
    · exact .inl (mem_trimSeparators hmem hc hcomma)
    · exact .inr (ih next ((List.drop_sublist_drop_left text (by omega)).subset hmem))

/-- Pieces between commas reach up to each other. -/
theorem exists_mem_pieces (hmem : c ∈ text) (hc : ¬ IsSpaceByte c) (hcomma : c ≠ ',') :
    ∃ argument ∈ pieces text, c ∈ argument := by
  obtain ⟨piece, hpiece, hcpiece⟩ := exists_mem_split hmem hcomma
  rw [pieces]
  simp only [List.mem_map, exists_exists_and_eq_and]
  refine ⟨piece, ?_, mem_trim hcpiece hc⟩
  split
  next hblank =>
    -- the piece that is left out is blank, so it is another one
    have hne := split_ne_nil (Char.toUInt8 ',') text
    rw [List.getLast?_eq_some_getLast hne, Option.getD_some] at hblank
    rw [← List.dropLast_append_getLast hne, List.mem_append, List.mem_singleton] at hpiece
    refine hpiece.resolve_right fun hlast => hc ?_
    exact isSpaceByte_of_isBlank hblank c (hlast ▸ hcpiece)
  next => exact hpiece

end Argument

/-- White space alone stands in front of the first lexeme that a grammar reads. -/
theorem Lexeme.exists_lead (offset : Nat) (text : Bytes) : ∃ lead tail, text = lead ++ tail ∧
    (∀ c ∈ lead, IsSpaceByte c) ∧ match (allFrom offset text).filter (·.kind ≠ .blank) with
      | [] => tail = []
      | first :: _ => first.offset = offset + lead.length := by
  fun_induction allFrom offset text with
  | case1 => exact ⟨[], [], rfl, by simp, rfl⟩
  | case2 offset c rest kind more hfront ih =>
    by_cases hkind : kind = .blank
    · subst hkind
      obtain ⟨lead, tail, hrest, hlead, hfirst⟩ := ih
      have hspace : ∀ d : UInt8, isBlankByte d = true → IsSpaceByte d := by decide +kernel
      have hblank : (∀ d ∈ c :: rest.take more, IsSpaceByte d) ∧ more ≤ rest.length := by
        cases fronts_of_front hfront with
        | blank hc =>
          rw [← List.prefix_iff_eq_take.1 (List.takeWhile_prefix isBlankByte), List.forall_mem_cons]
          exact ⟨⟨hspace c hc, fun d hd => hspace d (List.mem_takeWhile_imp hd)⟩,
            (List.takeWhile_prefix _).length_le⟩
        | single _ hkind => simp at hkind
      refine ⟨c :: rest.take more ++ lead, tail, ?_, ?_, ?_⟩
      · rw [List.append_assoc, ← hrest, List.cons_append, List.take_append_drop]
      · exact fun d hd => (List.mem_append.1 hd).elim (hblank.1 d) (hlead d)
      · rw [List.filter_cons_of_neg (by simp), List.length_append, List.length_cons,
          List.length_take_of_le hblank.2]
        have hoffset : offset + (more + 1 + lead.length) = offset + 1 + more + lead.length := by
          omega
        rw [hoffset]
        exact hfirst
    · exact ⟨[], c :: rest, rfl, by simp, by simp [hkind]⟩

/-- The arguments hold all of the bytes between the brackets of a call but white space and
commas. -/
theorem exists_mem_splitArguments {text : Bytes} {c : UInt8} (hmem : c ∈ text)
    (hc : ¬ IsSpaceByte c) (hcomma : c ≠ ',') : ∃ argument ∈ splitArguments text, c ∈ argument := by
  obtain ⟨lead, tail, htext, hlead, hfirst⟩ := Lexeme.exists_lead 0 text
  have htail : c ∈ tail := by
    rw [htext, List.mem_append] at hmem
    exact hmem.resolve_left fun h => hc (hlead c h)
  rw [splitArguments]
  split
  next hblank => exact absurd (isSpaceByte_of_isBlank hblank c hmem) hc
  next =>
    rw [Lexeme.visible, Lexeme.all]
    split
    next hnil =>
      rw [hnil] at hfirst
      exact absurd htail (by simp [hfirst])
    next first rest hvisible =>
      rw [hvisible] at hfirst
      split
      next => exact Argument.exists_mem_pieces hmem hc hcomma
      next hkind =>
        rw [Argument.starts, if_neg hkind, if_pos rfl]
        refine Argument.exists_mem_segments hc hcomma _ first.offset ?_
        dsimp only at hfirst
        rw [hfirst, Nat.zero_add, htext, List.drop_left]
        exact htail

/-- Names hold no colon. -/
theorem Bytes.not_mem_of_isIdent {name : Bytes} (h : name.isIdent = true) :
    Char.toUInt8 ':' ∉ name := by
  intro hmem
  have hmark : Char.toUInt8 ':' ∈ tagMarks name := List.mem_filter.2 ⟨hmem, by decide⟩
  rw [tagMarks_of_isIdent h] at hmark
  exact nomatch hmark

/-- What is joined holds the bytes of its pieces. -/
theorem Bytes.mem_join {separator piece : Bytes} {pieces : List Bytes} {c : UInt8}
    (hpiece : piece ∈ pieces) (hc : c ∈ piece) : c ∈ join separator pieces := by
  rw [join]
  induction pieces with
  | nil => cases hpiece
  | cons first pieces ih =>
    cases pieces with
    | nil =>
      rw [List.intercalate_singleton, ← List.mem_singleton.1 hpiece]
      exact hc
    | cons next pieces =>
      rw [List.intercalate_cons_cons, List.append_assoc, List.mem_append, List.mem_append]
      rcases List.mem_cons.1 hpiece with rfl | hpiece
      · exact .inl hc
      · exact .inr (.inr (ih hpiece))

/-- Leaves have nothing inside them. -/
theorem Token.all_of_leaves {ts : List Token} (h : ∀ t ∈ ts, t.isBlock = false) : all ts = ts := by
  induction ts with
  | nil => rfl
  | cons t ts ih =>
    rw [List.forall_mem_cons] at h
    cases t with
    | leaf text offset => rw [all_cons, ih h.2, children, all_nil, List.nil_append]
    | block signature children offset => exact Bool.noConfusion h.1

/-- A call that passes has no place for a declaration tag. -/
theorem parse?_of_callFaults_eq_nil {tags : TagMap} {callee : Bytes} {rule : Rule}
    {content : List Token} {offset : Nat} (h : callFaults tags callee rule content offset = []) :
    ∀ t ∈ all content, Tag.parse? t.head = none := by
  obtain ⟨hleaves, harguments⟩ := callFaults_eq_nil_iff.1 h
  rw [all_of_leaves hleaves]
  intro t ht
  cases htag : Tag.parse? t.head with
  | none => rfl
  | some tag =>
    obtain ⟨before, after, hhead, hcolon, -⟩ := (Tag.spells_of_parse? htag).value
    have hmem : Char.toUInt8 ':' ∈ join "\n" (content.map head) :=
      mem_join (List.mem_map_of_mem ht) (hhead ▸ List.mem_append_left _ hcolon)
    obtain ⟨argument, hargument, hinside⟩ := exists_mem_splitArguments hmem (by decide) (by decide)
    have hident := ((List.forall₂_and_left _ _).1 harguments).1 argument hargument
    exact absurd hinside (not_mem_of_isIdent hident)

namespace Token

variable {p : Bytes → Prop}

mutual

/-- What is asked of the new texts of a token is asked of everything that it is rewritten to. -/
theorem Rewrites.forall_head_iff : {t u : Token} → Rewrites (fun _ _ _ => True) t u →
    (Rewrites (fun _ _ new => p new) t u ↔ p u.head ∧ ∀ v ∈ all u.children, p v.head)
  | .leaf .., .leaf .., h => by simp [Rewrites, h.2, head, children]
  | .block .., .block .., h => by
    rw [Rewrites, h.2.1.forall_head_iff, eq_true h.2.2, and_true]
    rfl

/-- What is asked of the new texts of tokens is asked of everything that they are rewritten to. -/
theorem RewritesAll.forall_head_iff : {ts us : List Token} → RewritesAll (fun _ _ _ => True) ts us →
    (RewritesAll (fun _ _ new => p new) ts us ↔ ∀ v ∈ all us, p v.head)
  | [], [], _ => by simp [RewritesAll]
  | _ :: _, _ :: _, h => by
    rw [RewritesAll, h.1.forall_head_iff, h.2.forall_head_iff, forall_all_cons, and_assoc]

end

end Token

/-- Which declaration tags are left by a check that passes: those that are still read inside a block
that is treated as a declaration once the parameter tags in it are stripped. Everywhere else none is
left. -/
theorem checkAndStrip_tagless_iff {options : CheckOptions} {tokens : List Token}
    (h : (checkAndStrip options tokens).2.failed = false) :
    (∀ t ∈ all (checkAndStrip options tokens).1, Tag.parse? t.head = none) ↔
      ∀ site, .meet site ∈ visits options tokens → site.treatment options = .declaration →
        ∀ t ∈ all site.content, Tag.parse? (stripParameters t.head) = none := by
  have hshape : RewritesAll (fun _ _ _ => True) tokens (checkAndStrip options tokens).1 :=
    sameShape_checkAndStrip options tokens
  refine (hshape.forall_head_iff (p := fun text => Tag.parse? text = none)).symm.trans ?_
  rw [rewritesAll_checkAndStrip options fun _ text => parse?_untagged text]
  refine forall_congr' fun site => imp_congr_right fun hmeet => ?_
  rw [Site.MayRewrite]
  split
  next hdeclaration => simp [hdeclaration]
  next rule hcall =>
    obtain ⟨past, future, hvisits⟩ := List.append_of_mem hmeet
    have hfaults := (failed_checkAndStrip_iff options tokens).1 h past site future hvisits
    rw [Site.faults, hcall] at hfaults
    dsimp only at hfaults
    simpa [hcall] using parse?_of_callFaults_eq_nil hfaults
  next hlevel => simp [hlevel]

/-- Tags on two levels and in a parameter list, and a call that passes. -/
theorem checkAndStrip_tagless_iff_call : ∃ tokens,
    tokenize "function f(a|N)\x7blet y : N = 2\x7d;let x : N = 1;f(x)" = .ok tokens ∧
    (checkAndStrip {} tokens).2.failed = false ∧
    (∀ t ∈ all (checkAndStrip {} tokens).1, Tag.parse? t.head = none) ∧
    ∀ site, .meet site ∈ visits {} tokens → site.treatment {} = .declaration →
      ∀ t ∈ all site.content, Tag.parse? (stripParameters t.head) = none := by
  have hscan : tokenize "function f(a|N)\x7blet y : N = 2\x7d;let x : N = 1;f(x)" =
      .ok [.block "function f(" [.leaf "a|N" 11] 0, .block "\x7b" [.leaf "let y : N = 2" 16] 15,
        .leaf "let x : N = 1" 31, .block "f(" [.leaf "x" 47] 45] := by decide +kernel
  have hpasses : (checkAndStrip {} [.block "function f(" [.leaf "a|N" 11] 0,
      .block "\x7b" [.leaf "let y : N = 2" 16] 15, .leaf "let x : N = 1" 31,
      .block "f(" [.leaf "x" 47] 45]).2.failed = false := by decide +kernel
  have htagless : ∀ t ∈ all (checkAndStrip {} [.block "function f(" [.leaf "a|N" 11] 0,
      .block "\x7b" [.leaf "let y : N = 2" 16] 15, .leaf "let x : N = 1" 31,
      .block "f(" [.leaf "x" 47] 45]).1,
      Tag.parse? t.head = none := by decide +kernel
  exact ⟨_, hscan, hpasses, htagless, (checkAndStrip_tagless_iff hpasses).1 htagless⟩

/-- A function in the default value of a parameter stands inside a declaration: the tags of its body
are left. -/
theorem checkAndStrip_tagless_ne : ∃ tokens,
    tokenize "function f(cb = function() \x7bconst x : N = 1\x7d) \x7b\x7d" = .ok tokens ∧
    (checkAndStrip {} tokens).2.failed = false ∧
    ∃ t ∈ all (checkAndStrip {} tokens).1, Tag.parse? t.head = some ⟨"const", "x", "N", "1"⟩ := by
  have hscan : tokenize "function f(cb = function() \x7bconst x : N = 1\x7d) \x7b\x7d" =
      .ok [.block "function f(" [.block "cb = function(" [] 11,
        .block "\x7b" [.leaf "const x : N = 1" 28] 27] 0, .block "\x7b" [] 46] := by decide +kernel
  refine ⟨_, hscan, ?_, ?_⟩ <;> decide +kernel

end TagScript
