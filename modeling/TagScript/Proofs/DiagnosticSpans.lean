import TagScript.Proofs.ArgumentPlaces
import TagScript.Proofs.Initialisers
import TagScript.Proofs.OptionEffects
import TagScript.Proofs.SessionBrackets

/-!
# Where diagnostics lie in a script

A diagnostic spans a number of bytes from an offset on. The offset is that of a bracket, of a
call, of an argument or of a block that a call passes, and the number of bytes is one, the length
of an argument or that of the name that is called. All of this lies in the script with one
exception: a block that a call passes is reported at its own offset, but with the length of the
name of the call, and near the end of a script this name can be longer than what is left of it.
-/

namespace TagScript

open Bytes Token Scan

/-- Where a part of a text is found it fits into the text. -/
theorem Bytes.length_of_find? {part text : Bytes} {index : Nat} (h : find? part text = some index) :
    index + part.length ≤ text.length := by
  fun_induction find? part text generalizing index with
  | case1 hempty =>
    cases h
    rw [List.isEmpty_iff.1 hempty]
    exact Nat.le_refl 0
  | case2 => cases h
  | case3 c text hstart =>
    cases h
    obtain ⟨rest, hrest⟩ := Option.isSome_iff_exists.1 hstart
    rw [eq_append_of_after? hrest, List.length_append]
    omega
  | case4 c text _ ih =>
    obtain ⟨found, hfound, rfl⟩ := Option.map_eq_some_iff.1 h
    have := ih hfound
    rw [List.length_cons]
    omega

/-- Trimming makes no text longer. -/
theorem Bytes.length_trim_le (text : Bytes) : text.trim.length ≤ text.length := by
  obtain ⟨lead, tail, htext, -⟩ := trim_spec text
  have hlength := congrArg List.length htext
  rw [List.length_append, List.length_append] at hlength
  omega

/-- How long joined texts are, with one byte between any two of them. -/
theorem Bytes.length_join (c : UInt8) (texts : List Bytes) :
    (join [c] texts).length = (texts.map fun text => text.length + 1).sum - 1 := by
  cases texts with
  | nil => rfl
  | cons text texts =>
    rw [join_cons, List.length_append, List.length_flatMap, List.map_cons, List.sum_cons]
    have hbehind : (texts.map fun text => ([c] ++ text).length) = texts.map
        fun text => text.length + 1 :=
      List.map_congr_left fun text _ => List.length_cons
    rw [hbehind]
    omega

/-- A scan fails at a byte of what it was given. -/
theorem Scan.offset_of_tokensFrom {limit level : Nat} {header : Bool} {clauses : Clauses}
    {mode : Mode} {pending : Bytes} {position : Nat} {text : Bytes} {e : ScanError}
    (h : tokensFrom limit level header clauses mode pending position text = .error e) :
    position ≤ e.offset ∧ e.offset < position + text.length := by
  induction level, header, clauses, mode, pending, position, text using scanInduction with
  | finish level header clauses mode pending position =>
    rw [tokensFrom_nil] at h
    cases h
  | opener level header clauses pending position bracket text ih =>
    have hhere : e.offset = position → position ≤ e.offset ∧
        e.offset < position + (bracket.opener :: text).length := by
      intro hoffset
      rw [hoffset, List.length_cons]
      omega
    by_cases hlevel : limit ≤ level
    · rw [tokensFrom_tooDeep hlevel, Except.error.injEq] at h
      exact hhere (by rw [← h])
    cases hsplit : splitAtCloser bracket 0 .code text with
    | none =>
      rw [tokensFrom_unmatched hlevel hsplit, Except.error.injEq] at h
      exact hhere (by rw [← h])
    | some parts =>
      obtain ⟨inside, after⟩ := parts
      have hlength := congrArg List.length (eq_append_of_splitAtCloser hsplit)
      rw [List.length_append, List.length_cons] at hlength
      rw [List.length_cons]
      rw [tokensFrom_block hlevel hsplit] at h
      rcases error_of_bind h with hinside | ⟨_, -, h⟩
      · have := (ih inside after hsplit).1 hinside
        omega
      rcases error_of_bind h with hafter | ⟨_, -, h⟩
      · have := (ih inside after hsplit).2 hafter
        omega
      · cases h
  | clause level clauses pending position text ih =>
    rw [tokensFrom_clause] at h
    rcases error_of_bind h with htext | ⟨_, -, h⟩
    · have := ih htext
      rw [List.length_cons]
      omega
    · cases h
  | statement level clauses mode pending position c text hend ih =>
    rw [tokensFrom_statement hend] at h
    rcases error_of_bind h with htext | ⟨_, -, h⟩
    · have := ih htext
      rw [List.length_cons]
      omega
    · cases h
  | one level header clauses mode next pending position c text hstep hkeep ih =>
    rw [tokensFrom_one hstep hkeep] at h
    have := ih h
    rw [List.length_cons]
    omega
  | two level header clauses mode next pending position c d text hstep ih =>
    rw [tokensFrom_two hstep] at h
    have := ih h
    rw [List.length_cons, List.length_cons]
    omega

/-- The room that the texts of tokens take when each is ended by one more byte. -/
def Token.room (tokens : List Token) : Nat := (tokens.map fun t => t.head.length + 1).sum

/-- Tokens one behind the other take up the room of both. -/
theorem Token.room_append (ts us : List Token) : room (ts ++ us) = room ts + room us := by
  rw [room, List.map_append, List.sum_append, room, room]

/-- The pending text takes no more room than it was read from. -/
theorem Scan.room_flush_le (text : Bytes) (position : Nat) :
    room (flush text.reverse position) ≤ text.length + 1 := by
  have hlength := length_trim_le text
  rw [flush]
  split
  · exact Nat.zero_le _
  · rw [pendingText, List.reverse_reverse]
    exact Nat.succ_le_succ hlength

/-- The end of a clause takes no more room than it was read from. -/
theorem Scan.room_endClause_le (clauses : Clauses) (text : Bytes) (position : Nat) :
    room (endClause clauses text.reverse position) ≤ text.length + 1 := by
  have hflush := room_flush_le text position
  rw [endClause]
  split
  · split
    · exact Nat.zero_le _
    · exact Nat.succ_le_succ (Nat.zero_le _)
  · exact hflush

/-- The tokens of a text take no more room than the text does. -/
theorem Scan.Layout.room_le {header : Bool} {clauses : Clauses} {position : Nat} {text : Bytes}
    {tokens : List Token}
    {pairs : List BracketPair} (h : Layout header clauses position text tokens pairs) :
    room tokens ≤ text.length + 1 := by
  induction h with
  | finish =>
    split
    · exact room_endClause_le ..
    · exact room_flush_le ..
  | @clause clauses position text rest tokens pairs _ _ ih =>
    have hclause := room_endClause_le clauses text (position + text.length)
    rw [room_append, List.length_append, List.length_cons]
    omega
  | @statement clauses position text rest mode c tokens pairs _ _ _ ih =>
    have hflush := room_flush_le text (position + text.length)
    rw [room_append, List.length_append, List.length_cons]
    omega
  | @block header clauses position text inside after bracket children tokens inner
      pairs _ _ _ _ _ ih =>
    have hsignature : (pendingText (bracket.opener :: text.reverse)).length ≤ text.length + 1 := by
      obtain ⟨lead, body, hbody, hpending, -⟩ := signature_spec bracket text 0
      rw [hpending, hbody, List.length_append, List.length_append, List.length_singleton]
      omega
    have hroom : ∀ t, room (t :: tokens) = t.head.length + 1 + room tokens := fun _ => List.sum_cons
    rw [hroom, head, List.length_append, List.length_cons, List.length_append, List.length_cons]
    omega

/-- A declaration without its type is not longer. -/
theorem length_untagged_le (text : Bytes) : (untagged text).length ≤ text.length := by
  rw [untagged]
  split
  next tag htag =>
    obtain ⟨header, htype, hne⟩ := Tag.exists_typed_header htag
    have hlength := congrArg List.length header.text_eq
    have hgap := List.length_pos_of_ne_nil header.gap_ne_nil
    have hvalue := length_trim_le header.rest
    rw [← header.value] at hvalue
    -- what is put behind the equals sign is one blank, and the type that is left out is at least as
    -- long
    have htypeLength : 0 < header.type.length := by
      apply List.length_pos_of_ne_nil
      intro hnil
      rw [hnil] at htype
      exact hne (htype.elim id id)
    rw [Tag.stripped_eq_initialiser]
    have hinitialiser : (Tag.initialiser tag.value).length ≤ tag.value.length + 1 := by
      rw [Tag.initialiser]
      split
      · exact Nat.zero_le _
      · exact Nat.le_of_eq List.length_cons
    have hblank : (utf8 " ").length = 1 := by decide
    have hequals : (utf8 " =").length = 2 := by decide
    simp only [List.length_append, List.length_cons] at hlength ⊢
    omega
  · exact Nat.le_refl _

/-- The name before the bracket of a signature is part of it. -/
theorem length_of_callee? {signature name : Bytes} (h : callee? signature = some name) :
    name.length ≤ signature.length := by
  rw [callee?] at h
  split at h
  next => cases h
  next c text hsignature =>
    rw [Option.ite_none_right_eq_some, Option.some.injEq] at h
    have hname := (List.takeWhile_sublist isNamePart (l := skipGaps text)).length_le
    have hgaps := (List.dropWhile_sublist isGap (l := text)).length_le
    have hlength := congrArg List.length hsignature
    rw [List.length_reverse, List.length_cons] at hlength
    rw [← h.2, List.length_reverse]
    rw [skipGaps] at hname ⊢
    omega

/-- The name at the front of a signature is part of it. -/
theorem length_of_leadingName? {signature name : Bytes} (h : leadingName? signature = some name) :
    name.length ≤ signature.length := by
  rw [leadingName?] at h
  obtain ⟨⟨found, rest⟩, hread, heq⟩ := Option.map_eq_some_iff.1 h
  have hfound : found = name := heq
  subst hfound
  rcases Option.or_eq_some_iff.1 hread with hdeclared | ⟨-, hname⟩
  · obtain ⟨⟨keyword, behind⟩, hkeyword, hdeclared⟩ := Option.bind_eq_some_iff.1 hdeclared
    obtain ⟨_, -, hname⟩ := Option.bind_eq_some_iff.1 hdeclared
    have hgaps := (List.dropWhile_sublist isGap (l := behind)).length_le
    have hlength := congrArg List.length (takeName?_spec hname).2
    rw [skipGaps, List.length_append] at hlength
    rw [(takeKeyword?_spec hkeyword).2, List.length_append]
    omega
  · rw [(takeName?_spec hname).2, List.length_append]
    omega

/-- The name that a signature calls is part of it. -/
theorem length_callName_le (signature : Bytes) :
    (callName signature).length ≤ signature.length := by
  have htrim := length_trim_le signature
  rw [callName]
  cases hname : ((callee? signature.trim).filter _).or _ with
  | none => exact Nat.zero_le _
  | some name =>
    rcases Option.or_eq_some_iff.1 hname with hname | ⟨-, hname⟩
    · have := length_of_callee? (Option.filter_eq_some_iff.1 hname).1
      rw [Option.getD_some]
      omega
    · have := length_of_leadingName? (Option.filter_eq_some_iff.1 hname).1
      rw [Option.getD_some]
      omega

section Arguments

variable {bound : Nat} {leaves : List (Bytes × Nat)}

/-- An argument that is found lies in its leaf, and so does what is left behind it. -/
theorem locateArgument_le (argument : Bytes) (h : ∀ leaf ∈ leaves, leaf.2 + leaf.1.length ≤ bound) :
    (∀ offset ∈ (locateArgument argument leaves).1, offset + argument.length ≤ bound) ∧
      ∀ leaf ∈ (locateArgument argument leaves).2, leaf.2 + leaf.1.length ≤ bound := by
  induction leaves with
  | nil => exact ⟨by simp [locateArgument], by simp [locateArgument]⟩
  | cons leaf leaves ih =>
    obtain ⟨text, start⟩ := leaf
    rw [List.forall_mem_cons] at h
    rw [locateArgument]
    cases hfind : find? argument text with
    | none => exact ih h.2
    | some index =>
      have hlength := length_of_find? hfind
      have hstop : start + text.length ≤ bound := h.1
      constructor
      · rintro offset ⟨⟩
        omega
      · rw [List.forall_mem_cons]
        refine ⟨?_, h.2⟩
        dsimp only
        rw [List.length_drop]
        omega

/-- An argument lies in the leaves at the offset that it is given, or it is given that of the
call. -/
theorem argumentOffsets_le (fallback : Nat) (arguments : List Bytes)
    (h : ∀ leaf ∈ leaves, leaf.2 + leaf.1.length ≤ bound) :
    ∀ entry ∈ arguments.zip (argumentOffsets fallback arguments leaves),
      entry.2 + entry.1.length ≤ bound ∨ entry.2 = fallback := by
  induction arguments generalizing leaves with
  | nil => simp
  | cons argument arguments ih =>
    rw [argumentOffsets]
    split
    · rw [List.zip_cons_cons, List.forall_mem_cons]
      exact ⟨.inr rfl, ih h⟩
    · obtain ⟨hfound, hleft⟩ := locateArgument_le argument h
      dsimp only
      rw [List.zip_cons_cons, List.forall_mem_cons]
      refine ⟨?_, ih hleft⟩
      cases hoffset : (locateArgument argument leaves).1 with
      | none => exact .inr rfl
      | some offset => exact .inl (hfound offset hoffset)

/-- What is laid out in a text lies in it. -/
theorem Argument.Laid.within {position : Nat} {text : Bytes} {placed : List (Bytes × Nat)}
    (h : Laid position text placed) :
    ∀ entry ∈ placed, position ≤ entry.2 ∧ entry.2 + entry.1.length ≤ position + text.length := by
  induction h with
  | gap =>
    intro entry hentry
    cases hentry
  | argument _ _ _ _ ih =>
    rw [List.forall_mem_cons, List.length_append, List.length_append]
    refine ⟨⟨by omega, by dsimp only; omega⟩, fun entry hentry => ?_⟩
    have := ih entry hentry
    omega

/-- No argument is longer than the text that it is split from. -/
theorem length_le_of_mem_splitArguments {text argument : Bytes}
    (h : argument ∈ splitArguments text) :
    argument.length ≤ text.length := by
  cases argument with
  | nil => exact Nat.zero_le _
  | cons c argument =>
    have hmem : c :: argument ∈ (splitArguments text).filter (!·.isEmpty) :=
      List.mem_filter.2 ⟨h, rfl⟩
    rw [Argument.filter_splitArguments] at hmem
    obtain ⟨entry, hentry, heq⟩ := List.mem_map.1 hmem
    obtain ⟨hne, hjoin, hopened⟩ := Argument.cuts_spec text
    have hlaid := Argument.laid_places hne hopened 0
    rw [hjoin] at hlaid
    have := hlaid.within entry hentry
    rw [← heq]
    omega

end Arguments

section Calls

variable {options : CheckOptions} {site : Site}

mutual

/-- A block that is met inside a token is a block of the token. -/
theorem block_of_mem_visitsToken (level : List Token) (outer : List (List Token))
    (next : Option Token) : (t : Token) → .meet site ∈ visitsToken options level outer next t →
    ∃ signature, site.signature = untagged signature ∧
    .block signature site.content site.offset ∈ all [t]
  | .leaf .., h => by simp [visitsToken] at h
  | .block signature children offset, h => by
    rw [visitsToken] at h
    generalize Site.treatment options _ = treatment at h
    rw [all_cons, all_nil, List.append_nil]
    rcases List.mem_cons.1 h with h | h
    · cases h
      exact ⟨signature, rfl, List.mem_cons_self⟩
    · cases treatment with
      | declaration => cases h
      | call rule => cases h
      | level =>
        obtain ⟨inner, hinner, hmem⟩ :=
          block_of_mem_visitsTokens (children.map untag) (level :: outer) children
            (by simpa using h)
        exact ⟨inner, hinner, List.mem_cons_of_mem _ hmem⟩

/-- A block that is met inside tokens is a block of theirs. -/
theorem block_of_mem_visitsTokens (level : List Token) (outer : List (List Token)) :
    (ts : List Token) → .meet site ∈ visitsTokens options level outer ts →
    ∃ signature, site.signature = untagged signature ∧
    .block signature site.content site.offset ∈ all ts
  | [], h => by simp [visitsTokens] at h
  | t :: ts, h => by
    rw [visitsTokens, List.mem_append] at h
    rw [← List.singleton_append, all_append]
    rcases h with h | h
    · obtain ⟨signature, hsignature, hmem⟩ := block_of_mem_visitsToken level outer _ t h
      exact ⟨signature, hsignature, List.mem_append_left _ hmem⟩
    · obtain ⟨signature, hsignature, hmem⟩ := block_of_mem_visitsTokens level outer ts h
      exact ⟨signature, hsignature, List.mem_append_right _ hmem⟩

end

/-- A diagnostic spans bytes in front of `bound` only. -/
structure Diagnostic.Within (bound : Nat) (d : Diagnostic) : Prop where
  offset : 0 ≤ d.position.offset
  length : 0 ≤ d.length
  stop : d.position.offset + d.length ≤ bound

/-- What is wrong with an argument is found in it. -/
theorem within_of_argumentFault? {tags : TagMap} {callee argument : Bytes}
    {index offset bound : Nat} {parameter : Parameter} {d : Diagnostic}
    (h : argumentFault? tags callee index argument offset parameter = some d)
    (hbound : offset + argument.length ≤ bound) : d.Within bound := by
  have hargument : ∀ d : Diagnostic, d.position.offset = offset → d.length = argument.length →
      d.Within bound :=
    fun d hoffset hlength => ⟨by omega, by omega, by omega⟩
  rw [argumentFault?] at h
  split at h
  next =>
    cases h
    exact hargument _ rfl rfl
  next hident =>
    split at h
    next =>
      cases h
      exact hargument _ rfl rfl
    next =>
      split at h
      next => cases h
      next =>
        cases h
        -- a mismatch spans one byte, and a name has one
        have hpos : 0 < argument.length := by
          apply List.length_pos_of_ne_nil
          rintro rfl
          exact hident rfl
        have hoffset : (offset : Int) + 1 ≤ bound := by omega
        exact ⟨Int.natCast_nonneg offset, Int.one_nonneg, hoffset⟩

/-- What is wrong with arguments is found in them. -/
theorem within_of_mem_argumentFaults {tags : TagMap} {callee : Bytes} {bound index : Nat}
    {arguments : List (Bytes × Nat)} {parameters : List Parameter} {d : Diagnostic}
    (h : d ∈ argumentFaults tags callee index arguments parameters)
    (hbound : ∀ entry ∈ arguments, entry.2 + entry.1.length ≤ bound) : d.Within bound := by
  fun_induction argumentFaults tags callee index arguments parameters with
  | case1 index argument offset arguments parameter parameters ih =>
    rw [List.forall_mem_cons] at hbound
    rcases List.mem_append.1 h with h | h
    · exact within_of_argumentFault? (Option.mem_toList.1 h) hbound.1
    · exact ih h hbound.2
  | case2 => cases h

variable {limit : Nat} {source : Bytes} {tokens : List Token} {call : Token}

/-- What a block of a script holds ends in front of the end of the script. -/
theorem stop_lt_of_mem_children (h : scan limit source = .ok tokens) (hcall : call ∈ all tokens)
    (hblock : call.isBlock = true) : ∀ t ∈ call.children, t.stop < source.length := by
  intro t ht
  obtain ⟨pairs, hlayout⟩ := layout_of_scan h
  obtain ⟨bracket, close, -, hclose, -, -, hinside⟩ :=
    (Argument.covers_of_layout hlayout).nested call hcall hblock
  have := (hinside t (subset_all _ ht)).2.1
  omega

/-- The arguments of a call of a script lie in the script, those that are not found included. -/
theorem callArguments_le (h : scan limit source = .ok tokens) (hcall : call ∈ all tokens)
    (hblock : call.isBlock = true) :
    ∀ entry ∈ callArguments call.children call.offset,
      entry.2 + entry.1.length ≤ source.length := by
  intro entry hentry
  have hleaves : ∀ leaf ∈ call.children.map fun t => (t.head, t.offset),
      leaf.2 + leaf.1.length ≤ source.length := by
    intro leaf hleaf
    obtain ⟨t, ht, rfl⟩ := List.mem_map.1 hleaf
    exact Nat.le_of_lt (stop_lt_of_mem_children h hcall hblock t ht)
  rcases argumentOffsets_le call.offset _ hleaves entry hentry with hfound | hmissed
  · exact hfound
  · -- an argument that is not found is no longer than what stands between the brackets
    obtain ⟨bracket, before, inside, after, inner, hsource, hbefore, hlayout, -⟩ :=
      Argument.exists_inside h hcall hblock
    have hargument := length_le_of_mem_splitArguments (List.of_mem_zip hentry).1
    have hjoin : (join "\n" (call.children.map head)).length = room call.children - 1 := by
      have hlines := length_join (Char.toUInt8 '\n') (call.children.map head)
      rw [List.map_map] at hlines
      exact hlines
    have hroom := hlayout.room_le
    have hopens : call.offset ≤ call.opens + 1 := by
      rw [opens, stop]
      omega
    have hlength := congrArg List.length hsource
    rw [List.length_append, List.length_cons, List.length_append, List.length_cons] at hlength
    omega

/-- What is wrong with a call of a script is found in the script, unless it is about a block that
the call passes. -/
theorem callFaults_cases {tags : TagMap} {rule : Rule} {d : Diagnostic}
    (h : scan limit source = .ok tokens) (hcall : call ∈ all tokens) (hblock : call.isBlock = true)
    (hd : d ∈ callFaults tags (callName (untagged call.head)) rule call.children call.offset) :
    d.Within source.length ∨ ∃ value, call.children.find? isBlock = some value ∧
      d = .rawValue (callName (untagged call.head)) { offset := value.offset } := by
  rw [callFaults] at hd
  split at hd
  next value hvalue => exact .inr ⟨value, hvalue, List.mem_singleton.1 hd⟩
  next hleaves =>
    left
    rcases List.mem_append.1 hd with harity | hargument
    · split at harity
      next => cases harity
      next =>
        rw [List.mem_singleton.1 harity]
        have hname := length_callName_le (untagged call.head)
        have hhead := length_untagged_le call.head
        obtain ⟨pairs, hlayout⟩ := layout_of_scan h
        have hstop := ((Argument.covers_of_layout hlayout).within call hcall).2
        rw [stop] at hstop
        have hspan : (call.offset : Int) + (callName (untagged call.head)).length ≤ source.length :=
          by omega
        exact ⟨Int.natCast_nonneg _, Int.natCast_nonneg _, hspan⟩
    · exact within_of_mem_argumentFaults hargument (callArguments_le h hcall hblock)

end Calls

/-- Counting lines from one on leads to no line before. -/
theorem Position.le_advance (line column : Nat) (text : Bytes) :
    line ≤ (advance line column text).1 := by
  induction text generalizing line column with
  | nil => exact Nat.le_refl line
  | cons c text ih =>
    rw [advance]
    split
    · exact Nat.le_of_succ_le (ih (line + 1) 1)
    · exact ih line (column + 1)

/-- An offset in a script has a known position. -/
theorem Position.ofOffset_spec (source : Bytes) {offset : Int} (hlow : 0 ≤ offset)
    (hhigh : offset ≤ source.length) :
    (ofOffset source offset).known = true ∧ (ofOffset source offset).offset = offset := by
  have hline := le_advance 1 1 (source.take offset.toNat)
  have hinside : ¬ (decide (offset < 0) || decide ((source.length : Int) < offset)) = true := by
    rw [Bool.or_eq_true, decide_eq_true_iff, decide_eq_true_iff]
    omega
  rw [ofOffset, if_neg hinside]
  exact ⟨decide_eq_true (by dsimp only; omega), rfl⟩

namespace Diagnostic

/-- A diagnostic has the line and the column of its offset, and this lies in the script. -/
structure Located (source : Bytes) (d : Diagnostic) : Prop where
  known : d.position.known = true
  position : d.position = .ofOffset source d.position.offset
  nonneg : 0 ≤ d.position.offset

/-- A diagnostic is about a block that a call passes, and less is left of the script from this block
on than the name of the call is long. -/
def Overhangs (options : CompileOptions) (source : Bytes) (d : Diagnostic) : Prop :=
  ∃ tokens call value, scan (nestingLimit options.maxDepth) source = .ok tokens ∧
    call ∈ all tokens ∧ call.children.find? isBlock = some value ∧
    d = rawValue (callName (untagged call.head)) (.ofOffset source value.offset) ∧
    source.length < value.offset + (callName (untagged call.head)).length

variable {source : Bytes} {d : Diagnostic}

/-- A diagnostic whose position is taken from an offset in the script. -/
theorem located_of_position {offset : Int} (h : d.position = .ofOffset source offset)
    (hlow : 0 ≤ offset)
    (hhigh : offset ≤ source.length) : d.Located source ∧ d.position.offset = offset := by
  obtain ⟨hknown, hoffset⟩ := Position.ofOffset_spec source hlow hhigh
  rw [← h] at hknown hoffset
  exact ⟨⟨hknown, by rw [hoffset, h], by omega⟩, hoffset⟩

/-- The diagnostic of a scan that fails is about one byte of the script. -/
theorem located_ofScanError {limit : Nat} {e : ScanError} (h : scan limit source = .error e)
    (maxDepth : Int) : (ofScanError source e maxDepth).Located source ∧
      (ofScanError source e maxDepth).position.offset + (ofScanError source e maxDepth).length ≤
        source.length := by
  have hoffset := offset_of_tokensFrom h
  have hspan : (ofScanError source e maxDepth).position = .ofOffset source e.offset ∧
      (ofScanError source e maxDepth).length = 1 := by
    rw [ofScanError]
    cases e.fault with
    | unmatched => exact ⟨rfl, rfl⟩
    | refused reason => exact ⟨rfl, rfl⟩
  obtain ⟨hlocated, heq⟩ := located_of_position hspan.1 (by omega) (by omega)
  exact ⟨hlocated, by omega⟩

/-- What a check keeps was raised. -/
theorem mem_of_mem_kept {options : CheckOptions} {raised : List Diagnostic}
    (h : d ∈ options.kept raised) : d ∈ raised := by
  rw [CheckOptions.kept] at h
  split at h
  · exact List.mem_of_mem_take h
  · exact h

/-- A diagnostic of a script that can be split is about a call of it. -/
theorem exists_call_of_mem_compile {options : CompileOptions} {tokens : List Token}
    (hscan : scan (nestingLimit options.maxDepth) source = .ok tokens)
    (h : d ∈ (compile options source).diagnostics) :
    ∃ call ∈ all tokens, call.isBlock = true ∧ ∃ tags rule raised, d = locate source raised ∧
      raised ∈ callFaults tags (callName (untagged call.head)) rule call.children call.offset := by
  rw [diagnostics_compile_of_scan hscan, (hasRaised_checkAndStrip ..).kept] at h
  obtain ⟨raised, hkept, rfl⟩ := List.mem_map.1 h
  obtain ⟨past, site, future, hvisits, hfault⟩ := mem_faultsFrom.1 (mem_of_mem_kept hkept)
  obtain ⟨rule, -, hraised⟩ := Site.mem_faults.1 hfault
  have hmeet : .meet site ∈ visits options.toCheckOptions tokens := by
    rw [hvisits]
    exact List.mem_append_right _ List.mem_cons_self
  rw [visits] at hmeet
  obtain ⟨signature, hsignature, hblock⟩ :=
    block_of_mem_visitsTokens _ _ tokens (by simpa using hmeet)
  rw [hsignature] at hraised
  exact ⟨_, hblock, rfl, _, rule, raised, rfl, hraised⟩

/-- A diagnostic that overhangs reaches behind the end of the script. -/
theorem Overhangs.lt {options : CompileOptions} (h : d.Overhangs options source) :
    source.length < d.position.offset + d.length := by
  obtain ⟨tokens, call, value, hscan, hcall, hvalue, rfl, hlong⟩ := h
  have hmem := List.mem_of_find?_eq_some hvalue
  have hblock : call.isBlock = true := by
    cases call with
    | leaf => cases hmem
    | block => rfl
  have hstop := stop_lt_of_mem_children hscan hcall hblock value hmem
  rw [stop] at hstop
  have hoffset := (Position.ofOffset_spec source (Int.natCast_nonneg value.offset) (by omega)).2
  have hspan : (source.length : Int) < value.offset + (callName (untagged call.head)).length := by
    omega
  rw [← hoffset] at hspan
  exact hspan

/-- What is raised about a call has a known position when it is reported, and it lies in the script
or overhangs. -/
theorem located_of_mem_callFaults {options : CompileOptions} {tokens : List Token}
    {call : Token} {tags : TagMap} {rule : Rule}
    (hscan : scan (nestingLimit options.maxDepth) source = .ok tokens) (hcall : call ∈ all tokens)
    (hblock : call.isBlock = true)
    (hd : d ∈ callFaults tags (callName (untagged call.head)) rule call.children call.offset) :
    (locate source d).Located source ∧
      ((locate source d).position.offset + (locate source d).length ≤ source.length ∨
        (locate source d).Overhangs options source) := by
  have hlength : (locate source d).length = d.length := rfl
  rcases callFaults_cases hscan hcall hblock hd with hwithin | ⟨value, hvalue, rfl⟩
  · obtain ⟨hlow, hnonneg, hstop⟩ := hwithin
    obtain ⟨hlocated, hoffset⟩ := located_of_position (d := locate source d) rfl hlow (by omega)
    refine ⟨hlocated, .inl ?_⟩
    rw [hoffset, hlength]
    exact hstop
  · have hstop :=
      stop_lt_of_mem_children hscan hcall hblock value (List.mem_of_find?_eq_some hvalue)
    rw [stop] at hstop
    have hhigh : (value.offset : Int) ≤ source.length := by omega
    obtain ⟨hlocated, hoffset⟩ := located_of_position
      (d :=
        locate source (.rawValue (callName (untagged call.head)) { offset := value.offset })) rfl
      (Int.natCast_nonneg value.offset) hhigh
    refine ⟨hlocated, ?_⟩
    by_cases hlong : source.length < value.offset + (callName (untagged call.head)).length
    · exact .inr ⟨tokens, call, value, hscan, hcall, hvalue, rfl, hlong⟩
    · have hspan : (value.offset : Int) + (callName (untagged call.head)).length ≤ source.length :=
        by omega
      left
      rw [hoffset, hlength]
      exact hspan

/-- **Where diagnostics lie.** Every diagnostic of a script has a known position, that of its
offset, and the bytes that it spans are all in the script, with one exception: it may be about a
block that a call passes, while the name of the call is longer than what is left of the script from
this block on. -/
theorem located_of_mem_compile (options : CompileOptions) (source : Bytes) :
    ∀ d ∈ (compile options source).diagnostics, d.Located source ∧
      (d.position.offset + d.length ≤ source.length ↔ ¬ d.Overhangs options source) := by
  intro d hd
  suffices h : d.Located source ∧
      (d.position.offset + d.length ≤ source.length ∨ d.Overhangs options source) by
    refine ⟨h.1, fun hspan hlong => ?_, h.2.resolve_right⟩
    have := hlong.lt
    omega
  cases hscan : scan (nestingLimit options.maxDepth) source with
  | error e =>
    have hdiagnostic : d = ofScanError source e options.maxDepth := by
      rw [compile, hscan] at hd
      exact List.mem_singleton.1 hd
    obtain ⟨hlocated, hspan⟩ := located_ofScanError hscan options.maxDepth
    rw [hdiagnostic]
    exact ⟨hlocated, .inl hspan⟩
  | ok tokens =>
    obtain ⟨call, hcall, hblock, tags, rule, raised, rfl, hraised⟩ :=
      exists_call_of_mem_compile hscan hd
    exact located_of_mem_callFaults hscan hcall hblock hraised

/-- The argument of the call lies in two leaves and is not found, so the diagnostic starts with the
call and spans as many bytes from there on as the argument has. -/
theorem located_of_mem_compile_missed :
    (compile {} "function f(a|N)\x7b\x7d;f(1\n+2)").diagnostics =
      [untaggedArgument "f" "1\n+2" 1 { line := 1, column := 19, offset := 18 }] ∧
    (utf8 "function f(a|N)\x7b\x7d;f(1\n+2)").length = 25 ∧
    Located "function f(a|N)\x7b\x7d;f(1\n+2)"
    (untaggedArgument "f" "1\n+2" 1 { line := 1, column := 19, offset := 18 }) ∧
    ¬ Overhangs {} "function f(a|N)\x7b\x7d;f(1\n+2)"
      (untaggedArgument "f" "1\n+2" 1 { line := 1, column := 19, offset := 18 }) := by
  have hall : (compile {} "function f(a|N)\x7b\x7d;f(1\n+2)").diagnostics =
      [untaggedArgument "f" "1\n+2" 1 { line := 1, column := 19, offset := 18 }] := by
      decide +kernel
  have hmem : untaggedArgument "f" "1\n+2" 1 { line := 1, column := 19, offset := 18 } ∈
      (compile {} "function f(a|N)\x7b\x7d;f(1\n+2)").diagnostics := by
    rw [hall]
    exact List.mem_singleton_self _
  obtain ⟨hlocated, hspan⟩ := located_of_mem_compile {} _ _ hmem
  exact ⟨hall, by decide +kernel, hlocated, hspan.1 (by decide +kernel)⟩

/-- A call at the end of a script passes a block: from the block on there are three bytes, and the
diagnostic spans four. -/
theorem not_diagnostics_in_script :
    (compile {} "function func(a|N) \x7b\x7d\nfunc(\x7b\x7d)").diagnostics =
      [rawValue "func" { line := 2, column := 6, offset := 27 }] ∧
    ¬ ∀ d ∈ (compile {} "function func(a|N) \x7b\x7d\nfunc(\x7b\x7d)").diagnostics,
      d.position.offset + d.length ≤ (utf8 "function func(a|N) \x7b\x7d\nfunc(\x7b\x7d)").length :=
  ⟨by decide +kernel, by decide +kernel⟩

end Diagnostic

end TagScript
