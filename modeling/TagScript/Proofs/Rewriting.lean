import TagScript.Proofs.Visits

/-!
# How a check rewrites a tree

A check changes the texts of a tree and nothing else: every token keeps its kind, its offset and
the number of its children. Declaration tags are taken out wherever the walk comes by, parameter
tags inside the blocks that it treats as declarations, and what a call passes is left alone. So
anything that is asked of the old and the new texts is decided block by block, by the treatment
of each one.

The brackets of a tree are such a thing. The text in front of a bracket is rewritten with the
bracket in it, and a parameter tag that stands in the last piece of a signature, without a
default value behind it, takes the bracket along.
-/

namespace TagScript

namespace Token

mutual

/-- Whether a token is another one with a new text, and with new texts in what is inside it. How
the texts have to be related may depend on whether they are signatures. -/
def Rewrites (related : Bool → Bytes → Bytes → Prop) : (old new : Token) → Prop
  | .leaf s m, .leaf t n => related false s t ∧ m = n
  | .block s ts m, .block t us n => related true s t ∧ RewritesAll related ts us ∧ m = n
  | _, _ => False

/-- Whether tokens are others with new texts, one by one. -/
def RewritesAll (related : Bool → Bytes → Bytes → Prop) : (old new : List Token) → Prop
  | [], [] => True
  | t :: ts, u :: us => Rewrites related t u ∧ RewritesAll related ts us
  | _, _ => False

end

/-- Whether tokens have the same kinds, offsets and numbers of children as others, one by one. -/
def SameShape (old new : List Token) : Prop := RewritesAll (fun _ _ _ => True) old new

variable {related : Bool → Bytes → Bytes → Prop}

mutual

/-- A token may be kept if all its texts may. -/
theorem rewrites_self : (t : Token) →
    (Rewrites related t t ↔ related t.isBlock t.head t.head ∧ ∀ u ∈ all t.children,
      related u.isBlock u.head u.head)
  | .leaf .. => by simp [Rewrites, isBlock, head, children]
  | .block _ children _ => by
    rw [Rewrites, rewritesAll_self children, eq_self, and_true]
    rfl

/-- Tokens may be kept if all their texts may. -/
theorem rewritesAll_self : (ts : List Token) →
    (RewritesAll related ts ts ↔ ∀ u ∈ all ts, related u.isBlock u.head u.head)
  | [] => by simp [RewritesAll]
  | t :: ts => by rw [RewritesAll, rewrites_self t, rewritesAll_self ts, forall_all_cons, and_assoc]

end

mutual

/-- A token may be stripped if all its texts may. -/
theorem rewrites_strip : (t : Token) → (Rewrites related t t.strip ↔
    related t.isBlock t.head (stripParameters t.head) ∧
      ∀ u ∈ all t.children, related u.isBlock u.head (stripParameters u.head))
  | .leaf .. => by simp [strip, Rewrites, isBlock, head, children]
  | .block _ children _ => by
    rw [strip, Rewrites, rewritesAll_stripAll children, eq_self, and_true]
    rfl

/-- Tokens may be stripped if all their texts may. -/
theorem rewritesAll_stripAll : (ts : List Token) → (RewritesAll related ts (stripAll ts) ↔
    ∀ u ∈ all ts, related u.isBlock u.head (stripParameters u.head))
  | [] => by simp [stripAll, RewritesAll]
  | t :: ts => by
    rw [stripAll, RewritesAll, rewrites_strip t, rewritesAll_stripAll ts,
      forall_all_cons, and_assoc]

end

end Token

open Token

/-- Whether the content of a block may be treated as a walk treats it. -/
def Site.MayRewrite (related : Bool → Bytes → Bytes → Prop) (options : CheckOptions)
    (site : Site) : Prop :=
  match site.treatment options with
  | .declaration => ∀ t ∈ all site.content, related t.isBlock t.head (stripParameters t.head)
  | .call _ => ∀ t ∈ all site.content, related t.isBlock t.head t.head
  | .level => True

section Check

variable {related : Bool → Bytes → Bytes → Prop} (options : CheckOptions)

mutual

/-- What a check makes of a token is decided by the blocks that it meets in it. -/
theorem rewrites_checkToken (huntagged : ∀ isBlock text, related isBlock text (untagged text))
    (level : List Token) (outer : List (List Token)) (next : Option Token) :
    (t : Token) → (f : Findings) →
    (Rewrites related t
      (checkToken options (scopeAt options level outer) (t.untag.declares next) f t).1 ↔
      ∀ site, .meet site ∈ visitsToken options level outer next t → site.MayRewrite related options)
  | .leaf text offset, f => by simp [checkToken, visitsToken, Rewrites, huntagged]
  | .block signature children offset, f => by
    rw [checkToken_site, visitsToken]
    simp only [List.mem_cons, forall_eq_or_imp, Visit.meet.injEq]
    rw [Site.MayRewrite]
    dsimp only
    generalize Site.treatment options _ = treatment
    cases treatment with
    | declaration => simp [Rewrites, huntagged, rewritesAll_stripAll]
    | call rule => simp [Rewrites, huntagged, rewritesAll_self]
    | level =>
      rw [Rewrites, rewritesAll_checkTokens huntagged (children.map untag)
        (level :: outer) children _]
      simp [huntagged]

/-- What a check makes of a level is decided by the blocks that it meets on it. -/
theorem rewritesAll_checkTokens (huntagged : ∀ isBlock text, related isBlock text (untagged text))
    (level : List Token) (outer : List (List Token)) : (ts : List Token) → (f : Findings) →
    (RewritesAll related ts (checkTokens options (scopeAt options level outer) f ts).1 ↔
      ∀ site, .meet site ∈ visitsTokens options level outer ts → site.MayRewrite related options)
  | [], f => by simp [checkTokens, visitsTokens, RewritesAll]
  | t :: ts, f => by
    rw [checkTokens, visitsTokens]
    simp only [List.mem_append, or_imp, forall_and]
    rw [← rewrites_checkToken huntagged level outer (ts.head?.map untag) t f,
      ← rewritesAll_checkTokens huntagged level outer ts, RewritesAll]

end

/-- What a check makes of a tree is decided by the blocks that it meets. -/
theorem rewritesAll_checkAndStrip (huntagged : ∀ isBlock text, related isBlock text (untagged text))
    (tokens : List Token) : RewritesAll related tokens (checkAndStrip options tokens).1 ↔
      ∀ site, .meet site ∈ visits options tokens → site.MayRewrite related options := by
  rw [checkAndStrip_eq, visits]
  simp only [List.mem_cons, reduceCtorEq, false_or]
  exact rewritesAll_checkTokens options huntagged (tokens.map untag) [] tokens _

/-- A check changes texts only. -/
theorem sameShape_checkAndStrip (tokens : List Token) :
    SameShape tokens (checkAndStrip options tokens).1 := by
  rw [SameShape, rewritesAll_checkAndStrip options fun _ _ => trivial]
  intro site _
  rw [Site.MayRewrite]
  split <;> simp

end Check

namespace Bytes

/-- Trimming the end of what stands last in a text trims the text no further. -/
theorem trimEnd_append_trimEnd (front text : Bytes) :
    trimEnd (front ++ trimEnd text) = trimEnd (front ++ text) := by
  induction text using trimEndInduction with
  | keep text h => rw [h]
  | drop point lead hpoint ih =>
    rw [hpoint.trimEnd_append, ← List.append_assoc, hpoint.trimEnd_append, ih]

/-- Text that is trimmed away has no visible bytes. -/
theorem isSpaceByte_of_trimEnd_eq_nil {text : Bytes} (h : trimEnd text = []) :
    ∀ c ∈ text, IsSpaceByte c := by
  obtain ⟨tail, htext, hspace, -⟩ := trimEnd_spec text
  rw [h, List.nil_append] at htext
  exact htext ▸ hspace.isSpaceByte

/-- Only what is trimmed away stands behind the end that a text has when trimmed. -/
theorem exists_of_trimEnd_eq_snoc {text body : Bytes} {c : UInt8} (h : trimEnd text = body ++ [c]) :
    ∃ tail, text = body ++ c :: tail ∧ trimEnd tail = [] := by
  induction text using trimEndInduction with
  | keep text hkeep => exact ⟨[], hkeep ▸ h, rfl⟩
  | drop point lead hpoint ih =>
    rw [hpoint.trimEnd_append] at h
    obtain ⟨tail, rfl, htail⟩ := ih h
    exact ⟨tail ++ point, by simp, by rw [hpoint.trimEnd_append, htail]⟩

/-- A trimmed text ends with a visible byte if only white space stands behind that byte. -/
theorem getLast?_trim_eq_some_iff {text : Bytes} {c : UInt8} (hc : ¬ IsSpaceByte c) :
    text.trim.getLast? = some c ↔ ∃ body tail, text = body ++ c :: tail ∧ trimEnd tail = [] := by
  obtain ⟨lead, htext, hlead, -⟩ := trimStart_spec text
  constructor
  · intro h
    obtain ⟨body, hbody⟩ := List.getLast?_eq_some_iff.1 h
    obtain ⟨tail, hstart, htail⟩ := exists_of_trimEnd_eq_snoc hbody
    exact ⟨lead ++ body, tail, by rw [List.append_assoc, ← hstart, ← htext], htail⟩
  · rintro ⟨body, tail, heq, htail⟩
    -- the white space in front of the text cannot reach up to the visible byte.
    obtain ⟨inner, hinner⟩ : ∃ inner, trimStart text = inner ++ c :: tail := by
      rcases List.append_eq_append_iff.1 (htext.symm.trans heq) with ⟨inner, -, hstart⟩
        | ⟨more, hmore, hrest⟩
      · exact ⟨inner, hstart⟩
      · cases more with
        | nil => exact ⟨[], by simpa using hrest.symm⟩
        | cons d more =>
          obtain ⟨rfl, -⟩ := List.cons.inj hrest
          exact absurd (hlead.isSpaceByte c (by simp [hmore])) hc
    rw [trim, hinner, List.append_cons, ← trimEnd_append_trimEnd, htail,
      List.append_nil, trimEnd_snoc hc, List.getLast?_concat]

/-- A text that starts with a visible byte starts with it when trimmed. -/
theorem exists_trim_cons {c : UInt8} (hc : ¬ IsSpaceByte c) (text : Bytes) :
    ∃ rest, trim (c :: text) = c :: rest := by
  obtain ⟨lead, tail, htext, -, hlead, htail, -⟩ := trim_spec (c :: text)
  cases lead with
  | cons d lead =>
    obtain ⟨rfl, -⟩ := List.cons.inj htext
    exact absurd (hlead.isSpaceByte c (List.mem_cons_self ..)) hc
  | nil =>
    cases htrim : trim (c :: text) with
    | cons d rest =>
      rw [htrim] at htext
      exact ⟨rest, by rw [(List.cons.inj htext).1]⟩
    | nil =>
      rw [htrim, List.nil_append, List.nil_append] at htext
      exact absurd (htail.isSpaceByte c (htext ▸ List.mem_cons_self ..)) hc

end Bytes

open Bytes

/-- The bracket of a signature is the last visible byte. -/
theorem signatureBracket?_eq_some_iff {signature : Bytes} {bracket : Bracket} :
    signatureBracket? signature = some bracket ↔
      ∃ body tail, signature = body ++ bracket.opener :: tail ∧ trimEnd tail = [] := by
  have hopener : ∀ c, Bracket.ofOpener? c = some bracket ↔ c = bracket.opener := by
    cases bracket <;> unfold Bracket.ofOpener? <;> decide +kernel
  have hvisible : ¬ IsSpaceByte bracket.opener := bracket.opener_ascii.2
  rw [← getLast?_trim_eq_some_iff hvisible, signatureBracket?, Option.bind_eq_some_iff]
  constructor
  · rintro ⟨c, hc, hbracket⟩
    rwa [← (hopener c).1 hbracket]
  · exact fun h => ⟨bracket.opener, h, (hopener _).2 rfl⟩

/-- White space around a signature does not count for its bracket. -/
@[simp] theorem signatureBracket?_trim (signature : Bytes) :
    signatureBracket? signature.trim = signatureBracket? signature := by
  rw [signatureBracket?, trim_trim, signatureBracket?]

/-- What stands in front of a visible byte does not count for the bracket of a signature, if that
byte is no bracket. -/
theorem signatureBracket?_append_cons {c : UInt8} (hc : ¬ IsSpaceByte c)
    (hopener : Bracket.ofOpener? c = none)
    (front text : Bytes) : signatureBracket? (front ++ c :: text) = signatureBracket? text := by
  refine Option.ext fun bracket => ?_
  rw [signatureBracket?_eq_some_iff, signatureBracket?_eq_some_iff]
  constructor
  · rintro ⟨body, tail, heq, htail⟩
    have hne : c ≠ bracket.opener := by
      rintro rfl
      cases bracket <;> exact nomatch hopener
    rcases List.append_eq_append_iff.1 heq with ⟨more, -, hmore⟩ | ⟨more, -, hmore⟩
    · cases more with
      | nil => exact absurd (List.cons.inj hmore).1 hne
      | cons d more => exact ⟨more, tail, (List.cons.inj hmore).2, htail⟩
    · cases more with
      | nil => exact absurd (List.cons.inj hmore).1.symm hne
      | cons d more =>
        obtain ⟨-, rfl⟩ := List.cons.inj hmore
        exact absurd (isSpaceByte_of_trimEnd_eq_nil htail c (by simp)) hc
  · rintro ⟨body, tail, rfl, htail⟩
    exact ⟨front ++ c :: body, tail, by simp, htail⟩

/-- The bracket of a text with an equals sign is that of what follows the sign. -/
theorem signatureBracket?_assign (front text : Bytes) :
    signatureBracket? (front ++ Char.toUInt8 '=' :: text) = signatureBracket? text :=
  signatureBracket?_append_cons (by decide) (by decide) front text

/-- A declaration without its tag, byte by byte. -/
theorem Tag.stripped_eq (tag : Tag) : tag.stripped = tag.keyword ++ Char.toUInt8 ' ' :: (tag.name ++
    Char.toUInt8 ' ' :: Char.toUInt8 '=' ::
      if tag.value.isEmpty then [] else Char.toUInt8 ' ' :: tag.value) := by
  have hblank : utf8 " " = [Char.toUInt8 ' '] := by decide
  have hassign : utf8 " =" = [Char.toUInt8 ' ', Char.toUInt8 '='] := by decide
  have hvalue : utf8 " = " = [Char.toUInt8 ' ', Char.toUInt8 '=', Char.toUInt8 ' '] := by decide
  rw [Tag.stripped]
  split <;> simp [hblank, hassign, hvalue]

/-- A declaration tag stands in front of the equals sign, and so in front of the bracket. -/
theorem signatureBracket?_untagged (text : Bytes) :
    signatureBracket? (untagged text) = signatureBracket? text := by
  rw [untagged]
  cases htag : Tag.parse? text with
  | none => rfl
  | some tag =>
    obtain ⟨before, after, rfl, -, hvalue⟩ := (Tag.spells_of_parse? htag).value
    have hblank : signatureBracket?
        (if tag.value.isEmpty then [] else Char.toUInt8 ' ' :: tag.value) =
        signatureBracket? tag.value := by
      split
      next hempty => rw [List.isEmpty_iff.1 hempty]
      next =>
        have hspace : ∀ c ∈ [Char.toUInt8 ' '], isAsciiSpace c = true :=
          List.forall_mem_singleton.2 (by decide)
        rw [signatureBracket?, ← List.singleton_append, trim_blank_append hspace, signatureBracket?]
    dsimp only
    rw [tag.stripped_eq, List.append_cons, ← List.append_assoc, List.append_cons,
      signatureBracket?_assign, hblank, hvalue, signatureBracket?_trim, signatureBracket?_assign]

/-- The bracket of a text is that of its last piece between commas. -/
theorem signatureBracket?_join {pieces : List Bytes} (h : pieces ≠ []) :
    signatureBracket? (join [Char.toUInt8 ','] pieces) = signatureBracket? (pieces.getLast h) := by
  rw [join]
  induction pieces with
  | nil => exact absurd rfl h
  | cons piece pieces ih =>
    cases pieces with
    | nil => simp
    | cons next pieces =>
      rw [List.intercalate_cons_cons, List.append_assoc, List.singleton_append,
        signatureBracket?_append_cons (by decide) (by decide), ih (List.cons_ne_nil _ _),
        List.getLast_cons (List.cons_ne_nil _ _)]

/-- A piece without its parameter tag has the bracket behind the default value, or the one in front
of the tag if there is no default value. -/
theorem signatureBracket?_stripPiece (piece : Bytes) : signatureBracket? (stripPiece piece) =
    match pipeIndex? piece with
    | none => signatureBracket? piece
    | some index =>
      if Char.toUInt8 '=' ∈ piece.drop index then signatureBracket? piece
      else signatureBracket? (piece.take index) := by
  rw [stripPiece]
  cases pipeIndex? piece with
  | none => rfl
  | some index =>
    dsimp only
    by_cases hassign : Char.toUInt8 '=' ∈ piece.drop index
    · rw [if_pos hassign]
      obtain ⟨type, value, hdrop, htype⟩ := List.eq_append_cons_of_mem hassign
      have hvalue : (piece.drop index).dropWhile (fun (c : UInt8) => c ≠ '=') =
          Char.toUInt8 '=' :: value := by
        rw [hdrop, List.dropWhile_append_of_pos (by grind), List.dropWhile_cons_of_neg (by decide)]
      have hpiece : piece = piece.take index ++ (type ++ Char.toUInt8 '=' :: value) := by
        rw [← hdrop, List.take_append_drop]
      obtain ⟨rest, hrest⟩ := exists_trim_cons (by decide : ¬ IsSpaceByte (Char.toUInt8 '=')) value
      have hbracket : signatureBracket? rest = signatureBracket? value := by
        rw [← signatureBracket?_assign [] rest, List.nil_append, ← hrest, signatureBracket?_trim,
          ← signatureBracket?_assign [] value, List.nil_append]
      rw [hvalue]
      dsimp only
      rw [hrest, signatureBracket?_assign, hbracket]
      conv_rhs => rw [hpiece, ← List.append_assoc, signatureBracket?_assign]
    · have hvalue : (piece.drop index).dropWhile (fun (c : UInt8) => c ≠ '=') = [] := by
        rw [List.dropWhile_eq_nil_iff]
        exact fun c hc => decide_eq_true fun heq => hassign (heq ▸ hc)
      rw [if_neg hassign, hvalue]
      exact signatureBracket?_trim _

/-- Whether a signature keeps its bracket when parameter tags are stripped from it. The last piece
between commas counts: it carries no tag, or has a default value behind its tag, or has the bracket
of the signature in front of its tag as well. -/
def keepsBracket (signature : Bytes) : Bool :=
  let piece := Bytes.trim ((signature.split ',').getLast?.getD [])
  match pipeIndex? piece with
  | none => true
  | some index =>
    Char.toUInt8 '=' ∈ piece.drop index || signatureBracket? (piece.take index) =
      signatureBracket? signature

/-- When stripping parameter tags keeps the bracket of a signature. -/
theorem signatureBracket?_stripParameters_iff (signature : Bytes) :
    signatureBracket? (stripParameters signature) = signatureBracket? signature ↔
      keepsBracket signature = true := by
  have hcomma : utf8 "," = [Char.toUInt8 ','] := by decide
  have hne : signature.split ',' ≠ [] := split_ne_nil _ _
  have hlast : signatureBracket? signature =
      signatureBracket? ((signature.split ',').getLast hne).trim := by
    rw [signatureBracket?_trim, ← signatureBracket?_join hne, join_split]
  have hstrip : signatureBracket? (stripParameters signature) =
      signatureBracket? (stripPiece ((signature.split ',').getLast hne).trim) := by
    rw [stripParameters]
    split
    next hnone =>
      have hpiece := (pipeIndex?_split signature).1 (by simpa using hnone) _ (List.getLast_mem hne)
      rw [hlast, stripPiece, hpiece]
    next => rw [hcomma, signatureBracket?_join (by simpa using hne), List.getLast_map]
  rw [hstrip, signatureBracket?_stripPiece, keepsBracket, List.getLast?_eq_some_getLast hne,
    Option.getD_some, hlast]
  cases pipeIndex? ((signature.split ',').getLast hne).trim with
  | none => simp
  | some index =>
    dsimp only
    split <;> simp_all

namespace Token

/-- Whether a text has the bracket of another one if it is the signature of a block. -/
def SameBracket (isBlock : Bool) (old new : Bytes) : Prop :=
  isBlock = true → signatureBracket? new = signatureBracket? old

mutual

/-- The brackets of a token as they stand in a script. A block without a bracket has those of its
content only. -/
def brackets : Token → Bytes
  | .leaf .. => []
  | .block signature children _ =>
    match signatureBracket? signature with
    | some bracket => bracket.opener :: (bracketsAll children ++ [bracket.closer])
    | none => bracketsAll children

/-- The brackets of a sequence as they stand in a script. -/
def bracketsAll : List Token → Bytes
  | [] => []
  | t :: ts => brackets t ++ bracketsAll ts

end

mutual

/-- A token that keeps the brackets of its signatures keeps all of its brackets. -/
theorem Rewrites.brackets_eq : {t u : Token} → Rewrites SameBracket t u → brackets u = brackets t
  | .leaf .., .leaf .., _ => rfl
  | .block .., .block .., ⟨hbracket, hchildren, _⟩ => by
    rw [brackets, brackets, hbracket rfl, hchildren.bracketsAll_eq]

/-- Tokens that keep the brackets of their signatures keep all of their brackets. -/
theorem RewritesAll.bracketsAll_eq : {ts us : List Token} → RewritesAll SameBracket ts us →
    bracketsAll us = bracketsAll ts
  | [], [], _ => rfl
  | _ :: _, _ :: _, ⟨hfirst, hrest⟩ => by
    rw [bracketsAll, bracketsAll, hfirst.brackets_eq, hrest.bracketsAll_eq]

end

mutual

/-- Offsets do not count for brackets. -/
theorem brackets_bare : (t : Token) → brackets (bare t) = brackets t
  | .leaf .. => rfl
  | .block _ children _ => by rw [bare, brackets, brackets, bracketsAll_bareAll children]

/-- Offsets do not count for brackets. -/
theorem bracketsAll_bareAll : (ts : List Token) → bracketsAll (bareAll ts) = bracketsAll ts
  | [] => rfl
  | t :: ts => by rw [bareAll, bracketsAll, bracketsAll, brackets_bare t, bracketsAll_bareAll ts]

end

/-- Sequences have their brackets one after the other. -/
theorem bracketsAll_append (ts us : List Token) :
    bracketsAll (ts ++ us) = bracketsAll ts ++ bracketsAll us := by
  induction ts with
  | nil => rfl
  | cons t ts ih => rw [List.cons_append, bracketsAll, bracketsAll, ih, List.append_assoc]

/-- The end of a clause has no brackets. -/
theorem bracketsAll_clauseEnd (header filled : Bool) (pending : Bytes) :
    bracketsAll (clauseEnd header filled pending) = [] := by
  rw [clauseEnd]
  split
  · split <;> rfl
  · rfl

/-- A leaf that is read back has no brackets, wherever its text ends up. -/
theorem bracketsAll_rereadAll_leaf {header : Bool} {ts : List Token}
    (h : ∀ before filled pending, bracketsAll (rereadAll header before filled pending ts) =
      bracketsAll ts)
    (text : Bytes) (offset : Nat) (before filled : Bool) (pending : Bytes) :
    bracketsAll (rereadAll header before filled pending (.leaf text offset :: ts)) =
      bracketsAll ts := by
  have hleaf : ¬ (Token.leaf text offset).isBlock = true := Bool.false_ne_true
  rw [rereadAll, if_neg hleaf]
  split
  · exact h ..
  · rw [bracketsAll_append, bracketsAll_clauseEnd, h, List.nil_append]

/-- The title of a block ends with the bracket of its signature. -/
theorem signatureBracket?_title {bracket : Bracket} {body : Bytes}
    (htrim : Bytes.trim (body ++ [bracket.opener]) = body ++ [bracket.opener])
    (hrun : Mode.code.run body = .code) {continues : Bool}
    (hcontinues : continues = true → Bytes.startsWith (body ++ [bracket.opener]) arrow = true) :
    signatureBracket? (title continues (body ++ [bracket.opener])) = some bracket := by
  have hsnoc : ∀ front, signatureBracket? (front ++ [bracket.opener]) = some bracket :=
    fun front => signatureBracket?_eq_some_iff.2 ⟨front, [], rfl, rfl⟩
  cases continues with
  | false => exact hsnoc body
  | true =>
    obtain ⟨inner, htitle, -⟩ := title_spec htrim hrun (hcontinues rfl)
    rw [title, if_pos rfl, htitle, hsnoc]

/-- Tokens that are read back have the same brackets. -/
theorem Readable.bracketsAll_rereadAll {header cut : Bool} {ts : List Token}
    (h : Readable header cut ts) (before filled : Bool) (pending : Bytes) :
    bracketsAll (rereadAll header before filled pending ts) = bracketsAll ts := by
  induction h generalizing before filled pending with
  | nil => exact bracketsAll_clauseEnd ..
  | @last header text offset htrim hne =>
    have hnil : ∀ before filled pending, bracketsAll (rereadAll header before filled pending []) =
        bracketsAll [] :=
      fun _ => bracketsAll_clauseEnd header
    exact bracketsAll_rereadAll_leaf hnil ..
  | leaf htrim hempty hrun hrest ih => exact bracketsAll_rereadAll_leaf ih ..
  | @block header cut bracket body offset children ts htrim hrun hchildren hrest
      ihChildren ihRest =>
    have hcontinues : (Bytes.startsWith (body ++ [bracket.opener]) arrow && before) = true →
        Bytes.startsWith (body ++ [bracket.opener]) arrow = true :=
        fun h => (Bool.and_eq_true_iff.1 h).1
    have htitle := signatureBracket?_title htrim hrun hcontinues
    have hwhole := signatureBracket?_title htrim hrun (nofun : false = true → _)
    rw [title, if_neg Bool.false_ne_true] at hwhole
    have hblock : (Token.block (body ++ [bracket.opener]) children offset).isBlock = true := rfl
    rw [rereadAll, if_pos hblock, head, bracketsAll_append, bracketsAll_clauseEnd, List.nil_append,
      bracketsAll, ihRest, rereadBlock, brackets, htitle, isForHeader_title htrim hrun hcontinues,
      ihChildren, bracketsAll, brackets, hwhole]

end Token

/-- What a check does to the shape of a tree. Tokens keep their kinds, their offsets and the numbers
of their children. All blocks keep their brackets exactly when no parameter tag takes one along,
inside a block that is treated as a declaration. If they do, the script keeps its brackets as well:
where the new texts are of the shape that a scan yields, and no line comment swallows something,
what the tree is written out as can be scanned again and has the brackets of the old tree. -/
theorem checkAndStrip_brackets_iff (options : CheckOptions) (tokens : List Token) :
    SameShape tokens (checkAndStrip options tokens).1 ∧
    (RewritesAll SameBracket tokens (checkAndStrip options tokens).1 ↔
      ∀ site, .meet site ∈ visits options tokens → site.treatment options = .declaration →
        ∀ t ∈ all site.content, t.isBlock = true → keepsBracket t.head = true) ∧
    (RewritesAll SameBracket tokens (checkAndStrip options tokens).1 →
      Scannable false true (checkAndStrip options tokens).1 →
      swallowsAll false false (checkAndStrip options tokens).1 = false →
      ∀ limit, depthAll tokens ≤ limit →
        ∃ again, scan limit (render (checkAndStrip options tokens).1) = .ok again ∧
          bracketsAll again = bracketsAll tokens) := by
  refine ⟨sameShape_checkAndStrip options tokens, ?_,
    fun hkeeps hscannable hkept limit hlimit => ?_⟩
  · rw [rewritesAll_checkAndStrip options fun _ text _ => signatureBracket?_untagged text]
    refine forall_congr' fun site => imp_congr_right fun _ => ?_
    rw [Site.MayRewrite]
    split
    next hdeclaration => simp [hdeclaration, SameBracket, signatureBracket?_stripParameters_iff]
    next rule hcall => simp [hcall, SameBracket]
    next hlevel => simp [hlevel]
  · have hdepth : depthAll (checkAndStrip options tokens).1 = depthAll tokens :=
      depthAll_checkTokens ..
    obtain ⟨again, hscan, hbare⟩ := Scan.scan_render hscannable hkept (hdepth ▸ hlimit)
    refine ⟨again, hscan, ?_⟩
    rw [← bracketsAll_bareAll, hbare, reread, hscannable.readable.bracketsAll_rereadAll,
      hkeeps.bracketsAll_eq]

/-- A default value with a call in it: the tag in front of the value goes, and the bracket behind it
stays. -/
theorem checkAndStrip_brackets_iff_default :
    tokenize "function f(a|N = g(b)) \x7b\x7d" =
      .ok [.block "function f(" [.block "a|N = g(" [.leaf "b" 19] 11] 0, .block "\x7b" [] 23] ∧
    (checkAndStrip {} [.block "function f(" [.block "a|N = g(" [.leaf "b" 19] 11] 0,
      .block "\x7b" [] 23]).1 =
      [.block "function f(" [.block "a = g(" [.leaf "b" 19] 11] 0, .block "\x7b" [] 23] ∧
    ∃ again,
      scan 3
      (render [.block "function f(" [.block "a = g(" [.leaf "b" 19] 11] 0, .block "\x7b" [] 23]) =
        .ok again ∧ bracketsAll again = "(())\x7b\x7d" := by
  have hresult : (checkAndStrip {} [.block "function f(" [.block "a|N = g(" [.leaf "b" 19] 11] 0,
      .block "\x7b" [] 23]).1 =
      [.block "function f(" [.block "a = g(" [.leaf "b" 19] 11] 0, .block "\x7b" [] 23] := by
        decide +kernel
  -- with blanks inside the inner brackets the tokens are scanned as they are stripped
  have hscan : tokenize "function f(a = g(  b)) \x7b\x7d" =
      .ok [.block "function f(" [.block "a = g(" [.leaf "b" 19] 11] 0, .block "\x7b" [] 23] := by
      decide +kernel
  have hbrackets :=
    (checkAndStrip_brackets_iff {} [.block "function f(" [.block "a|N = g(" [.leaf "b" 19] 11] 0,
    .block "\x7b" [] 23]).2.2
  rw [hresult] at hbrackets
  have hkeeps : RewritesAll SameBracket
      [.block "function f(" [.block "a|N = g(" [.leaf "b" 19] 11] 0,
        .block "\x7b" [] 23] [.block "function f(" [.block "a = g(" [.leaf "b" 19] 11] 0,
          .block "\x7b" [] 23] := by
    simp only [RewritesAll, Rewrites, SameBracket]
    decide +kernel
  have hagain :=
    hbrackets hkeeps (Scan.scannable_of_scan hscan) (by decide +kernel) 3 (by decide +kernel)
  have hword : bracketsAll [.block "function f(" [.block "a|N = g(" [.leaf "b" 19] 11] 0,
      .block "\x7b" [] 23] =
      "(())\x7b\x7d" := by decide +kernel
  rw [hword] at hagain
  exact ⟨by decide +kernel, hresult, hagain⟩

/-- A pipe in a default value takes the bracket behind it along, and the call in the value is no
block with brackets any more. -/
theorem checkAndStrip_brackets_ne :
    ∃ tokens, tokenize "function f(a = b|g(1)) \x7b\x7d" = .ok tokens ∧
    (checkAndStrip {} tokens).2.failed = false ∧ bracketsAll tokens = "(())\x7b\x7d" ∧
    bracketsAll (checkAndStrip {} tokens).1 = "()\x7b\x7d" ∧
    ¬ RewritesAll SameBracket tokens (checkAndStrip {} tokens).1 := by
  have hscan : tokenize "function f(a = b|g(1)) \x7b\x7d" = .ok [.block "function f("
      [.block "a = b|g(" [.leaf "1" 19] 11] 0, .block "\x7b" [] 23] := by decide +kernel
  have hlost : bracketsAll
      (checkAndStrip {} [.block "function f(" [.block "a = b|g(" [.leaf "1" 19] 11] 0,
        .block "\x7b" [] 23]).1 ≠
      bracketsAll [.block "function f(" [.block "a = b|g(" [.leaf "1" 19] 11] 0,
      .block "\x7b" [] 23] := by decide +kernel
  refine ⟨_, hscan, ?_, ?_, ?_, fun hkeeps => hlost hkeeps.bracketsAll_eq⟩ <;> decide +kernel

end TagScript
