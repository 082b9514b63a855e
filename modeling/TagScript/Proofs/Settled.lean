import Mathlib.Algebra.GroupWithZero.Nat
import Mathlib.Algebra.Order.BigOperators.Group.List
import Mathlib.Algebra.Order.Group.Nat
import TagScript.Proofs.Lossless
import TagScript.Proofs.Rendering
import TagScript.Proofs.TagReading
import TagScript.Compile

/-!
# Trees with nothing to strip

A declaration tag takes a colon with it and a parameter tag takes a single pipe. Counting these
marks shows when a check strips something: never more marks are left than there were, and as many
only if nothing was stripped.

A tree is settled when a check finds nothing to strip in it. Such a tree passes every check and is
left as it is.
-/

namespace TagScript

namespace Bytes

/-- The pipes and colons of a text. -/
def tagMarks (text : Bytes) : Bytes := text.filter fun c => c = '|' || c = ':'

/-- An empty text has no tag marks. -/
@[simp] theorem tagMarks_nil : tagMarks [] = [] := rfl

/-- The tag marks of a text are those of its parts. -/
@[simp] theorem tagMarks_append (text more : Bytes) :
    tagMarks (text ++ more) = tagMarks text ++ tagMarks more :=
  List.filter_append ..

/-- A byte that is no mark does not count. -/
theorem tagMarks_cons {c : UInt8} (h : (c = '|' || c = ':') = false) (text : Bytes) :
    tagMarks (c :: text) = tagMarks text :=
  List.filter_cons_of_neg (by simpa using h)

/-- White space holds no marks. -/
theorem tagMarks_of_isSpace {text : Bytes} (h : IsSpace text) : tagMarks text = [] := by
  rw [tagMarks, List.filter_eq_nil_iff]
  intro c hc
  have hspace := h.isSpaceByte c hc
  have hcolon : c ≠ ':' := by
    rintro rfl
    exact absurd hspace (by decide)
  simp [hspace.ne_pipe, hcolon]

/-- Trimming a text takes no marks away. -/
@[simp] theorem tagMarks_trim (text : Bytes) : tagMarks text.trim = tagMarks text := by
  obtain ⟨lead, tail, htext, -, hlead, htail, -⟩ := trim_spec text
  generalize text.trim = inner at htext ⊢
  rw [htext, tagMarks_append, tagMarks_append, tagMarks_of_isSpace hlead, tagMarks_of_isSpace htail,
    List.append_nil, List.nil_append]

/-- Names hold no marks. -/
theorem tagMarks_of_isIdent {text : Bytes} (h : text.isIdent = true) : tagMarks text = [] := by
  have hpart : ∀ c, isNamePart c = true → (c = '|' || c = ':') = false := by
    intro c hc
    refine Bool.eq_false_iff.2 fun hmark => ?_
    rcases Bool.or_eq_true_iff.1 hmark with hmark | hmark
    · exact absurd (of_decide_eq_true hmark ▸ hc) (by decide)
    · exact absurd (of_decide_eq_true hmark ▸ hc) (by decide)
  have hstart : ∀ c, isNameStart c = true → isNamePart c = true := by
    intro c hc
    simp only [isNameStart, Bool.or_eq_true] at hc
    simp only [isNamePart, isWord, Bool.or_eq_true]
    rcases hc with (hletter | hunder) | hdollar
    · exact .inl (.inl (.inl hletter))
    · exact .inl (.inr hunder)
    · exact .inr hdollar
  cases text with
  | nil => exact Bool.noConfusion h
  | cons c text =>
    obtain ⟨hfirst, hrest⟩ := Bool.and_eq_true_iff.1 h
    rw [tagMarks_cons (hpart c (hstart c hfirst)), tagMarks, List.filter_eq_nil_iff]
    intro d hd
    rw [hpart d (List.all_eq_true.1 hrest d hd)]
    exact Bool.false_ne_true

/-- Pieces that are joined keep their marks. -/
theorem length_tagMarks_join {c : UInt8} (hc : (c = '|' || c = ':') = false) (pieces : List Bytes) :
    (tagMarks (join [c] pieces)).length =
    (pieces.map fun piece => (tagMarks piece).length).sum := by
  rw [join]
  induction pieces with
  | nil => rfl
  | cons piece pieces ih =>
    cases pieces with
    | nil => simp
    | cons next pieces =>
      rw [List.intercalate_cons_cons, List.append_assoc, List.singleton_append,
        tagMarks_append, tagMarks_cons hc, List.length_append, ih]
      simp only [List.map_cons, List.sum_cons]

end Bytes

open Bytes

/-- A piece loses a mark when a parameter tag is stripped from it, and gains none. -/
theorem length_tagMarks_stripPiece (piece : Bytes) :
    (tagMarks (stripPiece piece)).length ≤ (tagMarks piece).length ∧
    (pipeIndex? piece ≠ none → (tagMarks (stripPiece piece)).length < (tagMarks piece).length) := by
  cases hindex : pipeIndex? piece with
  | none => simp [stripPiece, hindex]
  | some index =>
    obtain ⟨before, after, rfl, rfl⟩ := eq_append_of_pipeIndex? hindex
    have hpipe : (tagMarks (before ++ Char.toUInt8 '|' :: after)).length =
        (tagMarks before).length + ((tagMarks after).length + 1) := by
      rw [tagMarks_append, List.length_append]
      rfl
    have hvalue : (tagMarks (after.dropWhile fun (c : UInt8) => c ≠ '=')).length ≤
        (tagMarks after).length :=
      ((List.dropWhile_sublist _).filter _).length_le
    have hdrop : ((before ++ Char.toUInt8 '|' :: after).drop before.length).dropWhile
        (fun (c : UInt8) => c ≠ '=') =
        after.dropWhile fun (c : UInt8) => c ≠ '=' := by
      rw [List.drop_left, List.dropWhile_cons_of_pos (by decide)]
    have hlt : (tagMarks (stripPiece (before ++ Char.toUInt8 '|' :: after))).length <
        (tagMarks (before ++ Char.toUInt8 '|' :: after)).length := by
      rw [stripPiece, hindex, hpipe]
      dsimp only
      rw [List.take_left, hdrop]
      split
      · rw [tagMarks_trim]
        omega
      next hne =>
        have hblank : tagMarks " " = [] := by decide
        rw [tagMarks_append, tagMarks_append, tagMarks_trim, tagMarks_trim, hblank, List.append_nil,
          List.length_append]
        omega
    exact ⟨hlt.le, fun _ => hlt⟩

/-- A text loses marks when parameter tags are stripped from it, and gains none. -/
theorem length_tagMarks_stripParameters (text : Bytes) :
    (tagMarks (stripParameters text)).length ≤ (tagMarks text).length ∧
      (pipeIndex? text ≠ none → (tagMarks (stripParameters text)).length <
        (tagMarks text).length) := by
  rw [stripParameters]
  cases hindex : pipeIndex? text with
  | none => simp
  | some index =>
    have hcomma : ("," : Bytes) = [Char.toUInt8 ','] := by decide
    have hsome : ∃ piece ∈ text.split ',', pipeIndex? piece.trim ≠ none := by
      by_contra hall
      have hnone := (pipeIndex?_split text).2 fun piece hpiece => by_contra fun hpipe =>
        hall ⟨piece, hpiece, hpipe⟩
      rw [hnone] at hindex
      exact nomatch hindex
    have hsplit :=
      length_tagMarks_join (by decide : (Char.toUInt8 ',' = '|' || Char.toUInt8 ',' = ':') = false)
      (text.split ',')
    rw [join_split] at hsplit
    have hlt :
        (tagMarks (join "," ((text.split ',').map fun piece => stripPiece piece.trim))).length <
        (tagMarks text).length := by
      rw [hcomma, length_tagMarks_join (by decide), hsplit, List.map_map]
      refine List.sum_lt_sum _ _ (fun piece _ => ?_) ?_
      · have hle := (length_tagMarks_stripPiece piece.trim).1
        rwa [tagMarks_trim] at hle
      · obtain ⟨piece, hpiece, hpipe⟩ := hsome
        have hlt := (length_tagMarks_stripPiece piece.trim).2 hpipe
        rw [tagMarks_trim] at hlt
        exact ⟨piece, hpiece, hlt⟩
    exact ⟨hlt.le, fun _ => hlt⟩

/-- A text loses a mark when a declaration tag is stripped from it, and gains none. -/
theorem length_tagMarks_untagged (text : Bytes) :
    (tagMarks (untagged text)).length ≤ (tagMarks text).length ∧
    (Tag.parse? text ≠ none → (tagMarks (untagged text)).length < (tagMarks text).length) := by
  rw [untagged]
  cases hparse : Tag.parse? text with
  | none => simp
  | some tag =>
    obtain ⟨hkeyword, hname, before, after, rfl, hcolon, hvalue⟩ := Tag.spells_of_parse? hparse
    have hkeywords : ∀ keyword ∈ declarationKeywords, tagMarks keyword = [] := by decide
    have hglue : tagMarks " " = [] ∧ tagMarks " =" = [] ∧ tagMarks " = " = [] := by decide
    have hstripped : (tagMarks tag.stripped).length ≤ (tagMarks after).length := by
      rw [Tag.stripped]
      split
      · simp [hkeywords _ hkeyword, tagMarks_of_isIdent hname, hglue]
      · simp [hkeywords _ hkeyword, tagMarks_of_isIdent hname, hglue, hvalue]
    have hbefore : 0 < (tagMarks before).length :=
      List.length_pos_of_mem (List.mem_filter.2 ⟨hcolon, by decide⟩)
    have htext : (tagMarks (before ++ Char.toUInt8 '=' :: after)).length =
        (tagMarks before).length + (tagMarks after).length := by
      rw [tagMarks_append, tagMarks_cons (by decide), List.length_append]
    have hlt : (tagMarks tag.stripped).length <
        (tagMarks (before ++ Char.toUInt8 '=' :: after)).length := by omega
    exact ⟨hlt.le, fun _ => hlt⟩

/-- What can be seen of a text has all of its marks. -/
theorem Bytes.tagMarks_visible (text : Bytes) : tagMarks text.visible = tagMarks text := by
  have hvisible : ∀ e ∈ text.zip (spaceMask text), (e.1 = '|' || e.1 = ':') = true →
      (!e.2 && e.1 ≠ ';') = true := by
    rintro ⟨c, space⟩ hmem hmark
    have hspace : ¬ IsSpaceByte c ∧ c ≠ ';' := by
      rcases Bool.or_eq_true_iff.1 hmark with hc | hc
      · obtain rfl : c = '|' := of_decide_eq_true hc
        exact ⟨by decide, by decide⟩
      · obtain rfl : c = ':' := of_decide_eq_true hc
        exact ⟨by decide, by decide⟩
    cases space with
    | true => exact absurd (isSpaceByte_of_mem_zip hmem) hspace.1
    | false => simpa using hspace.2
  have htext : (text.zip (spaceMask text)).map Prod.fst = text :=
    List.map_fst_zip (length_spaceMask text).ge
  conv_rhs => rw [← htext]
  rw [visible, tagMarks, tagMarks, List.filter_map, List.filter_map, List.filter_filter]
  congr 1
  refine List.filter_congr fun e he => ?_
  have hboth := hvisible e he
  simp only [Function.comp_apply]
  cases hmark : (decide (e.1 = '|') || decide (e.1 = ':')) with
  | true => rw [hboth hmark, Bool.true_and]
  | false => rw [Bool.false_and]

namespace Token

open Bytes

variable {ts : List Token}

/-- How many marks there are in the texts of tokens. -/
def tagCount (ts : List Token) : Nat := (collectAll tagMarks ts).length

/-- No tokens carry no tags. -/
@[simp] theorem tagCount_nil : tagCount [] = 0 := rfl

/-- Tokens count one by one. -/
theorem tagCount_cons (t : Token) (ts : List Token) :
    tagCount (t :: ts) = tagCount [t] + tagCount ts := by
  simp [tagCount, collectAll]

/-- A leaf counts with its text. -/
theorem tagCount_leaf (text : Bytes) (offset : Nat) :
    tagCount [.leaf text offset] = (tagMarks text).length := by
  simp [tagCount, collectAll, collect]

/-- A block counts with its signature and its content. -/
theorem tagCount_block (signature : Bytes) (children : List Token) (offset : Nat) :
    tagCount [.block signature children offset] = (tagMarks signature).length +
      tagCount children := by
  have hcloser : tagMarks (signatureCloser signature) = [] := by
    rw [signatureCloser]
    split
    next bracket _ => cases bracket <;> decide
    next => decide
  simp [tagCount, collectAll, collect, hcloser]

mutual

/-- Stripping parameter tags from a token leaves fewer marks, unless there is no single pipe in
it. -/
theorem tagCount_strip : (t : Token) → tagCount [strip t] ≤ tagCount [t] ∧
    (tagCount [strip t] = tagCount [t] → ∀ u ∈ all [t], pipeIndex? u.head = none)
  | .leaf text offset => by
    obtain ⟨hle, hlt⟩ := length_tagMarks_stripParameters text
    rw [strip, tagCount_leaf, tagCount_leaf, all_cons]
    refine ⟨hle, fun heq => ?_⟩
    have hpipe : pipeIndex? text = none := by_contra fun hpipe => (hlt hpipe).ne heq
    simpa [children, head] using hpipe
  | .block signature children offset => by
    obtain ⟨hle, hlt⟩ := length_tagMarks_stripParameters signature
    obtain ⟨hbelow, hchildren⟩ := tagCount_stripAll children
    rw [strip, tagCount_block, tagCount_block, all_cons]
    refine ⟨Nat.add_le_add hle hbelow, fun heq => ?_⟩
    have hpipe : pipeIndex? signature = none := by
      by_contra hpipe
      have hless := hlt hpipe
      omega
    rw [List.forall_mem_cons, all_nil, List.append_nil]
    exact ⟨hpipe, hchildren (by omega)⟩

/-- Stripping parameter tags from tokens leaves fewer marks, unless there is no single pipe in
them. -/
theorem tagCount_stripAll : (ts : List Token) → tagCount (stripAll ts) ≤ tagCount ts ∧
    (tagCount (stripAll ts) = tagCount ts → ∀ u ∈ all ts, pipeIndex? u.head = none)
  | [] => by simp [stripAll]
  | t :: ts => by
    obtain ⟨hle, hfirst⟩ := tagCount_strip t
    obtain ⟨hbehind, hrest⟩ := tagCount_stripAll ts
    rw [stripAll, tagCount_cons, tagCount_cons t]
    refine ⟨Nat.add_le_add hle hbehind, fun heq => ?_⟩
    rw [← List.singleton_append, all_append, List.forall_mem_append]
    exact ⟨hfirst (by omega), hrest (by omega)⟩

end

mutual

/-- A token without single pipes is not changed by stripping. -/
theorem strip_eq : (t : Token) → (∀ u ∈ all [t], pipeIndex? u.head = none) → strip t = t
  | .leaf text offset, h => by
    have hpipe : pipeIndex? (head (.leaf text offset)) = none := h _ (by simp [all_cons])
    rw [head] at hpipe
    rw [strip, stripParameters, hpipe]
    rfl
  | .block signature children offset, h => by
    rw [all_cons, List.forall_mem_cons, all_nil, List.append_nil] at h
    have hpipe : pipeIndex? signature = none := h.1
    rw [strip, stripParameters, hpipe, stripAll_eq children h.2]
    rfl

/-- Tokens without single pipes are not changed by stripping. -/
theorem stripAll_eq : (ts : List Token) → (∀ u ∈ all ts, pipeIndex? u.head = none) →
    stripAll ts = ts
  | [], _ => rfl
  | t :: ts, h => by
    rw [← List.singleton_append, all_append, List.forall_mem_append] at h
    rw [stripAll, strip_eq t h.1, stripAll_eq ts h.2]

end

mutual

/-- The leaves of a token are among its tokens. -/
theorem leaves_subset : (t : Token) → leaves t ⊆ all [t]
  | .leaf text offset => by simp [leaves, all_cons]
  | .block signature children offset => by
    rw [leaves, all_cons, all_nil, List.append_nil]
    exact List.subset_cons_of_subset _ (leavesAll_subset children)

/-- The leaves of tokens are among them. -/
theorem leavesAll_subset : (ts : List Token) → leavesAll ts ⊆ all ts
  | [] => List.nil_subset _
  | t :: ts => by
    rw [leavesAll, ← List.singleton_append, all_append]
    exact List.append_subset.2 ⟨List.subset_append_of_subset_left _ (leaves_subset t),
      List.subset_append_of_subset_right _ (leavesAll_subset ts)⟩

end

/-- A text without a tag is kept. -/
theorem untag_eq {t : Token} (h : Tag.parse? t.head = none) : t.untag = t := by
  rw [untag, untagged, h]
  cases t <;> rfl

/-- A level without tags is kept. -/
theorem map_untag (h : ∀ t ∈ ts, Tag.parse? t.head = none) : ts.map untag = ts := by
  rw [List.map_congr_left fun t ht => untag_eq (h t ht), List.map_id']

/-- A level without tags that declares only content without single pipes declares no rules. -/
theorem declaredRules_eq_nil (hheads : ∀ t ∈ ts, Tag.parse? t.head = none)
    (hpipes : ∀ t ∈ declaring ts, ∀ u ∈ all t.children, pipeIndex? u.head = none) :
    declaredRules (ts.map untag) = [] := by
  rw [map_untag hheads, declaredRules, List.filterMap_eq_nil_iff]
  intro t ht
  cases t with
  | leaf => rfl
  | block signature children offset =>
    have hnone : taggedParameters children = [] :=
      taggedParameters_eq_nil fun u hu => hpipes _ ht u (leavesAll_subset children hu)
    rw [rule?, hnone]
    cases ruleName? signature <;> rfl

/-- Recording a level without tags changes nothing. -/
theorem recordTags_eq (h : ∀ t ∈ ts, Tag.parse? t.head = none) (tags : TagMap) :
    recordTags tags ts = tags := by
  rw [recordTags]
  induction ts with
  | nil => rfl
  | cons t ts ih =>
    rw [List.foldl_cons, h t (List.mem_cons_self ..)]
    exact ih fun u hu => h u (List.mem_cons_of_mem _ hu)

end Token

open Token

variable {options : CheckOptions} {scope : Scope} {f : Findings} {ts : List Token}

/-- No call is checked against a rule. -/
def Scope.Quiet (scope : Scope) : Prop := ∀ name, scope.lookup? name = none

/-- No rules are visible at first. -/
theorem Scope.quiet_nil : Scope.Quiet [] := by
  intro name
  rw [Scope.lookup?]
  split <;> rfl

/-- A level without rules stays quiet. -/
theorem Scope.Quiet.cons (h : scope.Quiet) : Scope.Quiet ([] :: scope) := by
  intro name
  have hname := h name
  rw [Scope.lookup?] at hname ⊢
  split
  · rfl
  next hne =>
    rw [if_neg hne] at hname
    exact hname

/-- Without tags and rules on a level nothing is found when it is entered, and no rules become
visible. -/
theorem enterLevel_eq (hscope : scope.Quiet) (hheads : ∀ t ∈ ts, Tag.parse? t.head = none)
    (hrules : declaredRules (ts.map untag) = []) (options : CheckOptions) (f : Findings) :
    ∃ inner : Scope, enterLevel options scope ts f = (inner, f) ∧ inner.Quiet := by
  have henclosing : Scope.Quiet (if options.inheritRules then scope else []) := by
    split
    · exact hscope
    · exact Scope.quiet_nil
  refine ⟨_, ?_, henclosing.cons⟩
  rw [enterLevel, hrules, recordTags_eq hheads]
  simp [recordParameters, RuleTable.ofRules]

mutual

/-- Whether a check finds nothing to strip in a token of a level, given whether it is a declaring
block. -/
def Token.settled (declares : Bool) : Token → Bool
  | .leaf text _ => (Tag.parse? text).isNone
  | .block signature children _ => (Tag.parse? signature).isNone &&
      if declares then (all children).all fun t => (pipeIndex? t.head).isNone
      else Token.settledAll children

/-- Whether a check finds nothing to strip on a level. -/
def Token.settledAll : List Token → Bool
  | [] => true
  | t :: ts => Token.settled (t.declares ts.head?) t && Token.settledAll ts

end

/-- What a check leaves of a block: the content is stripped, kept, or checked as a level of its
own. -/
theorem checkToken_block (options : CheckOptions) (scope : Scope) (declares : Bool)
    (f : Findings) (signature : Bytes) (children : List Token) (offset : Nat) : ∃ content,
    (checkToken options scope declares f (.block signature children offset)).1 =
        .block (untagged signature) content offset ∧
      (content = stripAll children ∨ content = children ∨
        ∃ inner g, content = (checkTokens options inner g children).1) := by
  rw [checkToken]
  split
  · exact ⟨_, rfl, .inl rfl⟩
  · dsimp only
    split
    · split
      · exact ⟨_, rfl, .inl rfl⟩
      · exact ⟨_, rfl, .inr (.inl rfl)⟩
    · exact ⟨_, rfl, .inr (.inr ⟨_, _, rfl⟩)⟩

/-- A block whose call is not checked is a level of its own. -/
theorem checkToken_level (hscope : scope.Quiet) (options : CheckOptions)
    (f : Findings) (signature : Bytes) (children : List Token) (offset : Nat) :
    checkToken options scope false f (.block signature children offset) =
      (.block (untagged signature) (checkTokens options (enterLevel options scope children f).1
          (enterLevel options scope children f).2 children).1 offset,
        (checkTokens options (enterLevel options scope children f).1
          (enterLevel options scope children f).2 children).2) := by
  rw [checkToken, if_neg Bool.false_ne_true]
  dsimp only
  rw [hscope]

/-- A declaring block is stripped. -/
theorem checkToken_declaring (options : CheckOptions) (scope : Scope)
    (f : Findings) (signature : Bytes) (children : List Token) (offset : Nat) :
    checkToken options scope true f (.block signature children offset) =
      (.block (untagged signature) (stripAll children) offset, f) := by
  rw [checkToken, if_pos rfl]

mutual

/-- A check takes from a token at least the marks that its tag has. -/
theorem tagCount_checkToken (options : CheckOptions) (scope : Scope) (declares : Bool)
    (f : Findings) : (t : Token) →
    tagCount [(checkToken options scope declares f t).1] + (tagMarks t.head).length ≤
      tagCount [t] + (tagMarks (untagged t.head)).length
  | .leaf text offset => by
    rw [checkToken, tagCount_leaf, tagCount_leaf, head, Nat.add_comm]
  | .block signature children offset => by
    obtain ⟨content, heq, hcontent⟩ :=
      checkToken_block options scope declares f signature children offset
    have hle : tagCount content ≤ tagCount children := by
      rcases hcontent with rfl | rfl | ⟨inner, g, rfl⟩
      · exact (tagCount_stripAll children).1
      · exact Nat.le_refl _
      · exact tagCount_checkTokens options inner g children
    rw [heq, tagCount_block, tagCount_block, head]
    omega

/-- A check never adds a mark to the tokens of a level. -/
theorem tagCount_checkTokens (options : CheckOptions) (scope : Scope) (f : Findings) :
    (ts : List Token) → tagCount (checkTokens options scope f ts).1 ≤ tagCount ts
  | [] => Nat.le_refl _
  | t :: ts => by
    have hfirst := tagCount_checkToken options scope (t.untag.declares (ts.head?.map untag)) f t
    have huntagged := (length_tagMarks_untagged t.head).1
    rw [checkTokens, tagCount_cons, tagCount_cons t]
    exact Nat.add_le_add (by omega) (tagCount_checkTokens options scope _ ts)

end

/-- Where the first token of a level and those behind it keep their marks in a check: the first one
carries no tag. -/
theorem tagCount_checkTokens_cons {t : Token}
    (h : tagCount (checkTokens options scope f (t :: ts)).1 = tagCount (t :: ts)) :
    ∃ g, Tag.parse? t.head = none ∧ tagCount (checkTokens options scope g ts).1 = tagCount ts ∧
      tagCount [(checkToken options scope (t.declares (ts.head?.map untag)) f t).1] =
        tagCount [t] := by
  have hfirst := tagCount_checkToken options scope (t.untag.declares (ts.head?.map untag)) f t
  have huntagged := length_tagMarks_untagged t.head
  have hrest := tagCount_checkTokens options scope
    (checkToken options scope (t.untag.declares (ts.head?.map untag)) f t).2 ts
  rw [checkTokens, tagCount_cons, tagCount_cons t] at h
  have hparse : Tag.parse? t.head = none := by
    by_contra htag
    have hlt := huntagged.2 htag
    omega
  rw [untag_eq hparse] at h hfirst hrest
  refine ⟨(checkToken options scope (t.declares (ts.head?.map untag)) f t).2, hparse, ?_, ?_⟩ <;>
    omega

/-- A level that keeps its marks in a check carries no tags, and declares only content without
single pipes. -/
theorem level_of_tagCount (h : tagCount (checkTokens options scope f ts).1 = tagCount ts) :
    (∀ t ∈ ts, Tag.parse? t.head = none) ∧ ∀ t ∈ declaring ts, ∀ u ∈ all t.children,
      pipeIndex? u.head = none := by
  induction ts generalizing f with
  | nil => simp [declaring]
  | cons t ts ih =>
    obtain ⟨g, hparse, hrest, hfirst⟩ := tagCount_checkTokens_cons h
    obtain ⟨hheads, hpipes⟩ := ih hrest
    rw [← List.head?_map, map_untag hheads] at hfirst
    refine ⟨List.forall_mem_cons.2 ⟨hparse, hheads⟩, ?_⟩
    rw [declaring]
    split
    next hdeclares =>
      refine List.forall_mem_cons.2 ⟨?_, hpipes⟩
      rw [hdeclares] at hfirst
      cases t with
      | leaf => exact Bool.noConfusion hdeclares
      | block signature children offset =>
        rw [checkToken_declaring, untagged, show Tag.parse? signature = none from hparse,
          tagCount_block, tagCount_block] at hfirst
        exact (tagCount_stripAll children).2 (Nat.add_left_cancel hfirst)
    next => exact hpipes

mutual

/-- A token without a tag that keeps its marks in a check is settled. -/
theorem settled_of_tagCount {scope : Scope} (hscope : scope.Quiet) {declares : Bool}
    (f : Findings) : (t : Token) →
    Tag.parse? t.head = none → tagCount [(checkToken options scope declares f t).1] = tagCount [t] →
    Token.settled declares t = true
  | .leaf text offset, hparse, _ => by
    rw [head] at hparse
    rw [Token.settled, hparse]
    rfl
  | .block signature children offset, hparse, h => by
    rw [head] at hparse
    rw [Token.settled, hparse, Option.isNone_none, Bool.true_and]
    cases declares with
    | true =>
      rw [checkToken_declaring, tagCount_block, tagCount_block, untagged, hparse] at h
      rw [if_pos rfl, List.all_eq_true]
      simpa using (tagCount_stripAll children).2 (Nat.add_left_cancel h)
    | false =>
      rw [checkToken_level hscope, tagCount_block, tagCount_block, untagged, hparse] at h
      have hchildren := Nat.add_left_cancel h
      obtain ⟨hheads, hpipes⟩ := level_of_tagCount hchildren
      obtain ⟨inner, hlevel, hinner⟩ :=
        enterLevel_eq hscope hheads (declaredRules_eq_nil hheads hpipes) options f
      rw [hlevel] at hchildren
      exact settledAll_of_tagCount hinner f children hchildren

/-- A level that keeps its marks in a check is settled. -/
theorem settledAll_of_tagCount {scope : Scope} (hscope : scope.Quiet) (f : Findings) :
    (ts : List Token) →
    tagCount (checkTokens options scope f ts).1 = tagCount ts → Token.settledAll ts = true
  | [], _ => rfl
  | t :: ts, h => by
    obtain ⟨g, hparse, hrest, hfirst⟩ := tagCount_checkTokens_cons h
    rw [← List.head?_map, map_untag (level_of_tagCount hrest).1] at hfirst
    rw [Token.settledAll, settled_of_tagCount hscope f t hparse hfirst,
      settledAll_of_tagCount hscope g ts hrest]
    rfl

end

/-- A settled level carries no tags, and declares only content without single pipes. -/
theorem level_of_settledAll (h : Token.settledAll ts = true) :
    (∀ t ∈ ts, Tag.parse? t.head = none) ∧ ∀ t ∈ declaring ts, ∀ u ∈ all t.children,
      pipeIndex? u.head = none := by
  induction ts with
  | nil => simp [declaring]
  | cons t ts ih =>
    rw [Token.settledAll, Bool.and_eq_true] at h
    obtain ⟨hheads, hpipes⟩ := ih h.2
    have hfirst : Tag.parse? t.head = none ∧
        (t.declares ts.head? = true → ∀ u ∈ all t.children, pipeIndex? u.head = none) := by
      cases t with
      | leaf text offset =>
        rw [Token.settled, Option.isNone_iff_eq_none] at h
        exact ⟨h.1, Bool.noConfusion⟩
      | block signature children offset =>
        rw [Token.settled, Bool.and_eq_true, Option.isNone_iff_eq_none] at h
        refine ⟨h.1.1, fun hdeclares => ?_⟩
        rw [hdeclares, if_pos rfl, List.all_eq_true] at h
        exact fun u hu => Option.isNone_iff_eq_none.1 (h.1.2 u hu)
    refine ⟨List.forall_mem_cons.2 ⟨hfirst.1, hheads⟩, ?_⟩
    rw [declaring]
    split
    next hdeclares => exact List.forall_mem_cons.2 ⟨hfirst.2 hdeclares, hpipes⟩
    next => exact hpipes

mutual

/-- A settled token is left as it is. -/
theorem checkToken_of_settled {scope : Scope} (hscope : scope.Quiet) {declares : Bool}
    (f : Findings) : (t : Token) →
    Token.settled declares t = true → checkToken options scope declares f t = (t, f)
  | .leaf text offset, h => by
    rw [Token.settled, Option.isNone_iff_eq_none] at h
    rw [checkToken, untagged, h]
  | .block signature children offset, h => by
    rw [Token.settled, Bool.and_eq_true, Option.isNone_iff_eq_none] at h
    cases declares with
    | true =>
      rw [if_pos rfl, List.all_eq_true] at h
      rw [checkToken_declaring, untagged, h.1, stripAll_eq children (by simpa using h.2)]
    | false =>
      rw [if_neg Bool.false_ne_true] at h
      obtain ⟨hheads, hpipes⟩ := level_of_settledAll h.2
      obtain ⟨inner, hlevel, hinner⟩ :=
        enterLevel_eq hscope hheads (declaredRules_eq_nil hheads hpipes) options f
      rw [checkToken_level hscope, hlevel, checkTokens_of_settled hinner f children h.2,
        untagged, h.1]

/-- A settled level is left as it is. -/
theorem checkTokens_of_settled {scope : Scope} (hscope : scope.Quiet) (f : Findings) :
    (ts : List Token) → Token.settledAll ts = true → checkTokens options scope f ts = (ts, f)
  | [], _ => rfl
  | t :: ts, h => by
    have hheads := (level_of_settledAll h).1
    rw [List.forall_mem_cons] at hheads
    rw [Token.settledAll, Bool.and_eq_true] at h
    rw [checkTokens, ← List.head?_map, map_untag hheads.2, untag_eq hheads.1]
    dsimp only
    rw [checkToken_of_settled hscope f t h.1, checkTokens_of_settled hscope f ts h.2]

end

/-- A settled tree passes every check and is left as it is. -/
theorem checkAndStrip_of_settled (options : CheckOptions) (h : Token.settledAll ts = true) :
    checkAndStrip options ts = (ts, {}) := by
  obtain ⟨hheads, hpipes⟩ := level_of_settledAll h
  obtain ⟨inner, hlevel, hinner⟩ :=
    enterLevel_eq Scope.quiet_nil hheads (declaredRules_eq_nil hheads hpipes) options {}
  rw [checkAndStrip, checkFrom, hlevel]
  exact checkTokens_of_settled hinner {} ts h

/-- A tree that keeps its marks in a check is settled. -/
theorem settledAll_of_checkAndStrip (h : tagCount (checkAndStrip options ts).1 = tagCount ts) :
    Token.settledAll ts = true := by
  rw [checkAndStrip, checkFrom] at h
  obtain ⟨hheads, hpipes⟩ := level_of_tagCount h
  obtain ⟨inner, hlevel, hinner⟩ :=
    enterLevel_eq Scope.quiet_nil hheads (declaredRules_eq_nil hheads hpipes) options {}
  rw [hlevel] at h
  exact settledAll_of_tagCount hinner {} ts h

mutual

/-- A token without tags is settled when the blocks that declare have no single pipes in their
content. -/
theorem settled_of_untagged {declares : Bool} :
    (t : Token) → (∀ u ∈ all [t], Tag.parse? u.head = none) →
    (declares = true → ∀ u ∈ all t.children, pipeIndex? u.head = none) →
    (∀ b ∈ declarationsWithin t, ∀ u ∈ all b.children, pipeIndex? u.head = none) →
    Token.settled declares t = true
  | .leaf text offset, htags, _, _ => by
    have htag : Tag.parse? text = none := htags (.leaf text offset) (by simp [all_cons])
    rw [Token.settled, htag]
    rfl
  | .block signature children offset, htags, hpipes, hbelow => by
    rw [all_cons, List.forall_mem_cons, all_nil, List.append_nil] at htags
    have htag : Tag.parse? signature = none := htags.1
    rw [declarationsWithin, List.forall_mem_append] at hbelow
    rw [Token.settled, htag, Option.isNone_none, Bool.true_and]
    split
    next hdeclares =>
      rw [List.all_eq_true]
      exact fun u hu => Option.isNone_iff_eq_none.2 (hpipes hdeclares u hu)
    next => exact settledAll_of_untagged children htags.2 hbelow.1 hbelow.2

/-- Tokens without tags are settled when the blocks that declare have no single pipes in their
content. -/
theorem settledAll_of_untagged : (ts : List Token) → (∀ u ∈ all ts, Tag.parse? u.head = none) →
    (∀ b ∈ declaring ts, ∀ u ∈ all b.children, pipeIndex? u.head = none) →
    (∀ b ∈ declarationsBelow ts, ∀ u ∈ all b.children, pipeIndex? u.head = none) →
    Token.settledAll ts = true
  | [], _, _, _ => rfl
  | t :: ts, htags, hpipes, hbelow => by
    rw [← List.singleton_append, all_append, List.forall_mem_append] at htags
    rw [declarationsBelow, List.forall_mem_append] at hbelow
    have hfirst : t.declares ts.head? = true → ∀ u ∈ all t.children, pipeIndex? u.head = none := by
      intro hdeclares
      rw [declaring, if_pos hdeclares] at hpipes
      exact hpipes t (List.mem_cons_self ..)
    have hrest : ∀ b ∈ declaring ts, ∀ u ∈ all b.children, pipeIndex? u.head = none := by
      intro b hb
      refine hpipes b ?_
      rw [declaring]
      split
      · exact List.mem_cons_of_mem _ hb
      · exact hb
    rw [Token.settledAll, settled_of_untagged t htags.1 hfirst hbelow.1,
      settledAll_of_untagged ts htags.2 hrest hbelow.2]
    rfl

end

/-- A tree in which no token carries a tag, and no declaring block has a single pipe in its content,
passes every check and is left as it is, single pipes elsewhere included; nothing is recorded. -/
theorem checkAndStrip_untagged {tokens : List Token}
    (htags : ∀ t ∈ all tokens, Tag.parse? t.head = none)
    (hpipes : ∀ b ∈ declarations tokens, ∀ t ∈ all b.children, pipeIndex? t.head = none)
    (options : CheckOptions) :
    (checkAndStrip options tokens).2.failed = false ∧
      (checkAndStrip options tokens).2.diagnostics = [] ∧
      (checkAndStrip options tokens).2.tags = {} ∧ (checkAndStrip options tokens).2.rules = [] ∧
      (checkAndStrip options tokens).1 = tokens := by
  rw [declarations, List.forall_mem_append] at hpipes
  rw [checkAndStrip_of_settled options (settledAll_of_untagged tokens htags hpipes.1 hpipes.2)]
  exact ⟨rfl, rfl, rfl, rfl, rfl⟩

/-- A function with a double pipe in a default value, called with a single pipe in an argument. -/
theorem checkAndStrip_untagged_pipes :
    (∀ t ∈ all [.block "function f(" [.leaf "a = b || c" 11] 0,
      .block "\x7b" [.leaf "return a|1" 23] 22,
      .block "f(" [.leaf "x|y" 36] 34], Tag.parse? t.head = none) ∧
    (∀ b ∈ declarations [.block "function f(" [.leaf "a = b || c" 11] 0,
      .block "\x7b" [.leaf "return a|1" 23] 22,
      .block "f(" [.leaf "x|y" 36] 34], ∀ t ∈ all b.children, pipeIndex? t.head = none) ∧
    (checkAndStrip { inheritRules := true } [.block "function f(" [.leaf "a = b || c" 11] 0,
        .block "\x7b" [.leaf "return a|1" 23] 22, .block "f(" [.leaf "x|y" 36] 34]).2.failed =
          false ∧
    (checkAndStrip { inheritRules := true } [.block "function f(" [.leaf "a = b || c" 11] 0,
        .block "\x7b" [.leaf "return a|1" 23] 22, .block "f(" [.leaf "x|y" 36] 34]).1 =
      [.block "function f(" [.leaf "a = b || c" 11] 0, .block "\x7b" [.leaf "return a|1" 23] 22,
        .block "f(" [.leaf "x|y" 36] 34] := by
  have htags : ∀ t ∈ all [.block "function f(" [.leaf "a = b || c" 11] 0,
      .block "\x7b" [.leaf "return a|1" 23] 22, .block "f(" [.leaf "x|y" 36] 34],
      Tag.parse? t.head = none := by
    decide +kernel
  have hpipes : ∀ b ∈ declarations [.block "function f(" [.leaf "a = b || c" 11] 0,
      .block "\x7b" [.leaf "return a|1" 23] 22, .block "f(" [.leaf "x|y" 36] 34],
      ∀ t ∈ all b.children, pipeIndex? t.head = none := by decide +kernel
  have hkept := checkAndStrip_untagged htags hpipes { inheritRules := true }
  exact ⟨htags, hpipes, hkept.1, hkept.2.2.2.2⟩

end TagScript
