import TagScript.Proofs.ParameterReading
import TagScript.Proofs.Rewriting

/-!
# Rules and the tags that are stripped

The parameters of a rule are read from the leaves inside a declaring block, all of them joined
line by line. Tags are stripped from every text inside the block, each on its own, and from the
signatures of blocks as well. So the parameters of a rule are the tags that are stripped exactly
when three things hold: no signature inside has a tag, no tag goes on in another leaf, and where
a parameter is read there is no tag but its own.
-/

namespace TagScript

open Token Bytes Parameter

namespace Parameter

/-- What is left of a piece when its tag is taken out: the pipe and the type go, the name stays, and
so does the value from its equals sign on. -/
inductive Untagged : Bytes → Option Parameter → Bytes → Prop
  | bare {piece : Bytes} (hpipe : atPipe? piece = none) : Untagged piece none piece
  | tagged {piece front type value : Bytes} (hpipe : atPipe? piece = some (front, type ++ value))
      (htype : Char.toUInt8 '=' ∉ type) (hvalue : ∀ c ∈ value.head?, c = Char.toUInt8 '=') :
      Untagged piece (some ⟨trim front, trim type⟩)
        (trim front ++ if value = [] then [] else Char.toUInt8 ' ' :: trim value)

/-- Stripping keeps what stands before a pipe, and what stands behind it from an equals sign on. -/
theorem stripPiece_append_pipe {front back : Bytes}
    (h : pipeIndex? (front ++ Char.toUInt8 '|' :: back) = some front.length) :
    stripPiece (front ++ Char.toUInt8 '|' :: back) = trim front ++
      if back.dropWhile (· ≠ Char.toUInt8 '=') = [] then []
      else Char.toUInt8 ' ' :: trim (back.dropWhile (· ≠ Char.toUInt8 '=')) := by
  have hdrop : (Char.toUInt8 '|' :: back).dropWhile (· ≠ Char.toUInt8 '=') =
      back.dropWhile (· ≠ Char.toUInt8 '=') :=
    List.dropWhile_cons_of_pos (by decide)
  have hblank : utf8 " " = [Char.toUInt8 ' '] := by decide
  rw [stripPiece, h]
  dsimp only
  rw [List.take_left, List.drop_left, hdrop, hblank]
  cases back.dropWhile (· ≠ Char.toUInt8 '=') <;> simp

/-- Stripping takes the tag out of a piece. -/
theorem untagged_stripPiece (piece : Bytes) :
    Untagged piece (cutTag? piece) (stripPiece piece) := by
  cases hindex : pipeIndex? piece with
  | none =>
    have hpipe : atPipe? piece = none := atPipe?_eq_none_iff.2 hindex
    rw [cutTag?_eq_none_iff.2 hpipe, stripPiece, hindex]
    exact .bare hpipe
  | some index =>
    obtain ⟨front, back, rfl, rfl⟩ := eq_append_of_pipeIndex? hindex
    have hpipe : atPipe? (front ++ Char.toUInt8 '|' :: back) = some (front, back) := by
      simp [atPipe?, hindex]
    rw [stripPiece_append_pipe hindex, cutTag?, hpipe]
    -- the type ends in front of the first equals sign behind the pipe
    refine .tagged ?_ ?_ ?_
    · rw [List.takeWhile_append_dropWhile, hpipe]
    · exact fun hmem => by simpa using List.mem_takeWhile_imp hmem
    · intro c hc
      have hhead := List.head?_dropWhile_not (· ≠ Char.toUInt8 '=') back
      rw [hc] at hhead
      simpa using hhead

/-- What is left of a text when the tags are taken out of its pieces, each trimmed before. A text
without tags is kept as it is. -/
def Removes (text : Bytes) (tags : List Parameter) (rest : Bytes) : Prop :=
  lacksTag text = true ∧ tags = [] ∧ rest = text ∨ ∃ cuts : List (Option Parameter × Bytes),
    List.Forall₂ (fun piece cut => Untagged (trim piece) cut.1 cut.2) (text.split ',') cuts ∧
      tags = cuts.filterMap Prod.fst ∧ rest = join [Char.toUInt8 ','] (cuts.map Prod.snd)

/-- Stripping takes the tags out of a text. -/
theorem removes_stripParameters (text : Bytes) :
    Removes text (cutTags text) (stripParameters text) := by
  have hcomma : utf8 "," = [Char.toUInt8 ','] := by decide
  cases hindex : pipeIndex? text with
  | none =>
    left
    have hlacks : lacksTag text = true := by
      rw [lacksTag, atPipe?_eq_none_iff.2 hindex, Option.isNone_none]
    refine ⟨hlacks, cutTags_eq_nil_iff.2 hlacks, ?_⟩
    rw [stripParameters, hindex, Option.isNone_none, if_pos rfl]
  | some index =>
    right
    refine ⟨(text.split ',').map fun piece => (cutTag? piece, stripPiece piece.trim), ?_, ?_, ?_⟩
    · rw [List.forall₂_map_right_iff, List.forall₂_same]
      intro piece _
      have hpiece := untagged_stripPiece piece.trim
      rwa [cutTag?_trim] at hpiece
    · rw [List.filterMap_map]
      rfl
    · rw [stripParameters, hindex, hcomma, List.map_map]
      rfl

end Parameter

mutual

/-- The leaves of a token are what it holds that is no block. -/
theorem Token.leaves_eq : (t : Token) → leaves t = (t :: all t.children).filter fun t => !t.isBlock
  | .leaf text offset => rfl
  | .block signature children offset => by
    rw [leaves, leavesAll_eq children]
    rfl

/-- The leaves of a sequence are what it holds that is no block. -/
theorem Token.leavesAll_eq : (ts : List Token) → leavesAll ts = (all ts).filter fun t => !t.isBlock
  | [] => rfl
  | t :: ts => by
    rw [leavesAll, Token.leaves_eq t, leavesAll_eq ts, all_cons, ← List.filter_append]
    rfl

end

/-- The tags that are stripped from a sequence and everything inside it, in source order. -/
def removedTags (content : List Token) : List Parameter :=
  (all content).flatMap fun t => cutTags t.head

/-- The texts of the leaves of a sequence. -/
def leafTexts (content : List Token) : List Bytes := (leavesAll content).map Token.head

/-- The tags of the leaves are the tags of everything that is no block. -/
theorem flatMap_leafTexts (content : List Token) : (leafTexts content).flatMap cutTags =
    (all content).flatMap fun t => if t.isBlock then [] else cutTags t.head := by
  rw [leafTexts, Token.leavesAll_eq, List.flatMap_map]
  induction all content with
  | nil => rfl
  | cons t ts ih =>
    rw [List.flatMap_cons, ← ih]
    cases hblock : t.isBlock <;> simp [hblock]

section Leaves

variable {content : List Token}

/-- What stands in a leaf is counted with everything. -/
theorem length_unless_block_le (t : Token) : (if t.isBlock then [] else cutTags t.head).length ≤
    (cutTags t.head).length := by
  split
  · exact Nat.zero_le _
  · exact Nat.le_refl _

/-- The leaves have no more tags than everything. -/
theorem length_leafTexts_le (content : List Token) :
    ((leafTexts content).flatMap cutTags).length ≤ (removedTags content).length := by
  rw [flatMap_leafTexts]
  exact length_flatMap_le fun t _ => length_unless_block_le t

/-- If the signatures have no tags, all tags are those of the leaves. -/
theorem removedTags_eq (h : ∀ t ∈ all content, t.isBlock = true → lacksTag t.head = true) :
    removedTags content = (leafTexts content).flatMap cutTags := by
  rw [flatMap_leafTexts, removedTags]
  refine List.flatMap_congr fun t ht => ?_
  split
  next hblock => exact cutTags_eq_nil_iff.2 (h t ht hblock)
  next => rfl

/-- If all tags are those of the leaves, the signatures have none. -/
theorem lacksTag_of_length
    (h : ((leafTexts content).flatMap cutTags).length = (removedTags content).length) :
    ∀ t ∈ all content, t.isBlock = true → lacksTag t.head = true := by
  rw [flatMap_leafTexts] at h
  intro t ht hblock
  have hlength := length_eq_of_flatMap (fun t _ => length_unless_block_le t) h t ht
  rw [if_pos hblock] at hlength
  exact cutTags_eq_nil_iff.1 (List.eq_nil_of_length_eq_zero hlength.symm)

end Leaves

/-- Parameters that agree with tags that are stripped have no equals sign in their types. -/
theorem assign_not_mem_of_agrees {content : List Token} {parameters : List Parameter}
    (h : List.Forall₂ Agrees parameters (removedTags content)) :
    ∀ parameter ∈ parameters, Char.toUInt8 '=' ∉ parameter.type := by
  intro parameter hparameter hmem
  have hshape :=
    List.mem_map_of_mem (f := fun parameter => (parameter.name, solid parameter.type)) hparameter
  rw [forall₂_agrees_iff.1 h] at hshape
  obtain ⟨tag, htag, heq⟩ := List.mem_map.1 hshape
  obtain ⟨t, -, htag⟩ := List.mem_flatMap.1 htag
  obtain ⟨piece, -, hpiece⟩ := List.mem_filterMap.1 htag
  have hagrees : parameter.Agrees tag := ⟨congrArg Prod.fst heq.symm, congrArg Prod.snd heq.symm⟩
  exact assign_not_mem_of_cutTag? hpiece (hagrees.assign_mem hmem)

/-- The parameters of a rule are the typed parameters of the leaves, joined line by line. -/
theorem parameters_of_rule? {signature : Bytes} {children : List Token} {offset : Nat} {rule : Rule}
    (h : (Token.block signature children offset).rule? = some rule) : rule.parameters =
      (decodeParameters (join [Char.toUInt8 '\n'] (leafTexts children))).filter
      (!·.type.isEmpty) := by
  have hline : utf8 "\n" = [Char.toUInt8 '\n'] := by decide
  obtain ⟨name, -, h⟩ := Option.bind_eq_some_iff.1 h
  obtain ⟨-, -, h⟩ := Option.bind_eq_some_iff.1 h
  cases h
  rw [taggedParameters, hline]
  rfl

/-- Stripping takes the tags out of every text inside a block. The parameters of the rule of the
block are these tags, up to white space in their types, exactly when no signature inside the block
has a tag, no tag goes on in another leaf, and the texts that parameters are read from have no tags
but theirs. -/
theorem rule_parameters_agree_iff {signature : Bytes} {children : List Token}
    {offset : Nat} {rule : Rule}
    (hrule : (Token.block signature children offset).rule? = some rule) :
    RewritesAll (fun _ text rest => Removes text (cutTags text) rest) children (stripAll children) ∧
    (List.Forall₂ Agrees rule.parameters (removedTags children) ↔
      (∀ t ∈ all children, t.isBlock = true → lacksTag t.head = true) ∧
      (∀ parts ∈ fragments (leafTexts children), wholeTag parts = true) ∧
      ∀ read ∈ reading (join [Char.toUInt8 '\n'] (leafTexts children)),
      soleTag read.1 read.2 = true) := by
  refine ⟨rewritesAll_stripAll children |>.2 fun t _ => removes_stripParameters t.head, ?_⟩
  rw [parameters_of_rule? hrule, ← agrees_cutTags_join_iff, ← agrees_cutTags_iff]
  have htyped := length_filter_decodeParameters_le (join [Char.toUInt8 '\n'] (leafTexts children))
  have hjoined := length_cutTags_join_le (leafTexts children)
  have hleaves := length_leafTexts_le children
  constructor
  · intro h
    -- the four lists can only get longer, so where the first and the last agree, all have the same
    -- length
    have hlength := h.length_eq
    have hread := agrees_cutTags_of_length (hlength.trans (by omega)) (assign_not_mem_of_agrees h)
    have hsignatures : ∀ t ∈ all children, t.isBlock = true → lacksTag t.head = true :=
      lacksTag_of_length (by omega)
    refine ⟨hsignatures, ?_, hread⟩
    rw [removedTags_eq hsignatures] at h
    rw [forall₂_agrees_iff] at h hread ⊢
    exact hread.symm.trans h
  · rintro ⟨hsignatures, hwhole, hread⟩
    rw [removedTags_eq hsignatures]
    rw [forall₂_agrees_iff] at hwhole hread ⊢
    exact hread.trans hwhole

/-- A type is read without the white space that is stripped with it, and a group between two tags
changes neither. -/
theorem rule_parameters_agree_iff_group :
    let children : List Token :=
      [.leaf "a|A <N> =1," 11, .block "g(" [.leaf "x" 25] 23, .leaf ", b|M" 27]
    tokenize "function f(a|A <N> =1,\ng(x), b|M)" = .ok [.block "function f(" children 0] ∧
      (Token.block "function f(" children 0).rule? =
      some ⟨"f", [⟨"a", "A<N>"⟩, ⟨"b", "M"⟩], children, 0⟩ ∧
      List.Forall₂ Agrees [⟨"a", "A<N>"⟩, ⟨"b", "M"⟩] (removedTags children) := by
  intro children
  have hname : ruleName? "function f(" = some "f" := by decide +kernel
  have hparameters : taggedParameters children = [⟨"a", "A<N>"⟩, ⟨"b", "M"⟩] := by decide +kernel
  have hrule : (Token.block "function f(" children 0).rule? =
      some ⟨"f", [⟨"a", "A<N>"⟩, ⟨"b", "M"⟩], children, 0⟩ := by
    simp [Token.rule?, hname, hparameters]
  refine ⟨by decide +kernel, hrule, (rule_parameters_agree_iff hrule).2.2 ⟨?_, ?_, ?_⟩⟩
  · decide +kernel
  · decide +kernel
  · decide +kernel

/-- The tag of a parameter whose default value is a call stands in the signature of the call, and so
it is stripped but is no parameter of the rule. -/
theorem rule_parameters_call_default :
    let children : List Token := [.block "a|N = g(" [.leaf "1" 19] 11, .leaf ", b|M" 21]
    tokenize "function f(a|N = g(1), b|M) \x7b\x7d" =
      .ok [.block "function f(" children 0, .block "\x7b" [] 28] ∧
      (Token.block "function f(" children 0).rule? = some ⟨"f", [⟨"b", "M"⟩], children, 0⟩ ∧
      removedTags children = [⟨"a", "N"⟩, ⟨"b", "M"⟩] ∧
      ¬ List.Forall₂ Agrees [⟨"b", "M"⟩] (removedTags children) := by
  intro children
  have hname : ruleName? "function f(" = some "f" := by decide +kernel
  have hparameters : taggedParameters children = [⟨"b", "M"⟩] := by decide +kernel
  have htags : removedTags children = [⟨"a", "N"⟩, ⟨"b", "M"⟩] := by decide +kernel
  refine ⟨by decide +kernel, by simp [Token.rule?, hname, hparameters], htags, fun h => ?_⟩
  have hlength := h.length_eq
  rw [htags] at hlength
  simp at hlength

end TagScript
