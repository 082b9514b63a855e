import TagScript.Proofs.Visits

/-!
# What a checked call must satisfy

A check passes exactly when every call that it meets passes: the content of the call is all
leaves, it has one argument for each parameter of the rule, every argument is a name, and the
type that was last recorded for this name is the type of the parameter.

A typed parameter never has a blank type. That is why a name recorded with a blank type, which
counts as missing, could not have passed anyway.
-/

namespace TagScript

open Token Bytes

/-- Trimming takes no byte away that cannot belong to white space. -/
theorem Bytes.mem_trim {text : Bytes} {c : UInt8} (hmem : c ∈ text) (hc : ¬ IsSpaceByte c) :
    c ∈ text.trim := by
  obtain ⟨lead, tail, htext, -, hlead, htail, -⟩ := trim_spec text
  rw [htext, List.mem_append, List.mem_append] at hmem
  exact (hmem.resolve_left fun h => hc (hlead.isSpaceByte c h)).resolve_right fun h =>
    hc (htail.isSpaceByte c h)

/-- An operator and a bracket that are told from their first byte start with no white space. -/
theorem Lexeme.not_isSpaceByte_of_shortFront (c : UInt8) (rest : Bytes)
    (h : (shortFront c rest).1 ∈ [LexemeKind.name, .operator, .bracket]) : ¬ IsSpaceByte c := by
  have hshort : ∀ c ∈ shortOperators ++ brackets, ¬ IsSpaceByte c := by decide +kernel
  revert h
  fun_cases shortFront c rest with
  | case1 hc => exact fun _ => hshort c (List.mem_append_left _ (by simpa using hc))
  | case6 _ _ _ _ _ hc => exact fun _ => hshort c (List.mem_append_right _ (by simpa using hc))
  | _ => simp

/-- A name, an operator and a bracket start with no white space. -/
theorem Lexeme.not_isSpaceByte_of_front (c : UInt8) (rest : Bytes)
    (h : (front c rest).1 ∈ [LexemeKind.name, .operator, .bracket]) : ¬ IsSpaceByte c := by
  have hnames : ∀ c : UInt8, isNameStart c = true → ¬ IsSpaceByte c := by decide +kernel
  have hlong : ∀ operator ∈ longOperators, ∃ first ∈ operator.head?, ¬ IsSpaceByte first := by
    decide +kernel
  revert h
  fun_cases front c rest with
  | case2 _ hname => exact fun _ => hnames c hname
  | case5 _ _ _ _ operator hfind =>
    intro _
    obtain ⟨first, hfirst, hvisible⟩ := hlong operator (List.mem_of_find?_eq_some hfind)
    have hstart : startsWith (c :: rest) operator = true := List.find?_some hfind
    obtain ⟨after, hafter⟩ := Option.isSome_iff_exists.1 hstart
    have hhead := congrArg List.head? (eq_append_of_after? hafter)
    rw [List.head?_append, hfirst, Option.some_or, List.head?_cons] at hhead
    exact Option.some.inj hhead ▸ hvisible
  | case6 => exact not_isSpaceByte_of_shortFront c rest
  | _ => simp

/-- A name, an operator and a bracket are not blank. -/
theorem Lexeme.exists_visible_of_mem_allFrom {text : Bytes} {offset : Nat} {lexeme : Lexeme}
    (h : lexeme ∈ allFrom offset text)
    (hkind : lexeme.kind ∈ [LexemeKind.name, .operator, .bracket]) :
    ∃ c ∈ lexeme.text, ¬ IsSpaceByte c := by
  fun_induction allFrom offset text with
  | case1 => simp at h
  | case2 offset c rest kind more hfront ih =>
    rcases List.mem_cons.1 h with rfl | h
    · refine ⟨c, List.mem_cons_self .., not_isSpaceByte_of_front c rest ?_⟩
      rw [hfront]
      exact hkind
    · exact ih h

namespace Parameter

/-- A typed parameter that is read as lexemes has no blank type. -/
theorem trim_type_ne_nil_of_ofLexemes? {lexemes : List Lexeme} {parameter : Parameter}
    {text : Bytes} {offset : Nat} (h : ofLexemes? lexemes = some parameter)
    (hsub : lexemes ⊆ Lexeme.allFrom offset text)
    (htype : parameter.type ≠ []) : parameter.type.trim ≠ [] := by
  match lexemes with
  | [] => exact nomatch h
  | [name] =>
    simp only [ofLexemes?, Option.ite_none_left_eq_some, Option.some.injEq] at h
    exact absurd (h.2 ▸ rfl) htype
  | name :: second :: rest =>
    simp only [ofLexemes?, Option.ite_none_left_eq_some] at h
    obtain ⟨-, h⟩ := h
    split at h
    · simp only [Option.ite_none_right_eq_some, Option.some.injEq,
        Bool.and_eq_true, Bool.not_eq_true', List.isEmpty_eq_false_iff] at h
      obtain ⟨⟨hne, -⟩, rfl⟩ := h
      -- the first lexeme of the type shows
      obtain ⟨first, more, htake⟩ := List.exists_cons_of_ne_nil hne
      have hfirst : first ∈ rest.takeWhile isTypeLexeme := htake ▸ List.mem_cons_self ..
      have hrest : first ∈ rest := (List.takeWhile_sublist _).subset hfirst
      have hkind : first.kind ∈ [LexemeKind.name, .operator, .bracket] := by
        simpa [isTypeLexeme] using List.mem_takeWhile_imp hfirst
      obtain ⟨c, hc, hvisible⟩ :=
        Lexeme.exists_visible_of_mem_allFrom (hsub (by simp [hrest])) hkind
      exact List.ne_nil_of_mem (mem_trim (List.mem_flatMap.2 ⟨first, hfirst, hc⟩) hvisible)
    · simp only [Option.ite_none_right_eq_some, Option.some.injEq] at h
      exact absurd (h.2 ▸ rfl) htype

/-- A typed parameter has no blank type. -/
theorem trim_type_ne_nil {text : Bytes} {parameter : Parameter}
    (h : parameter ∈ decodeParameters text)
    (htype : parameter.type ≠ []) : parameter.type.trim ≠ [] := by
  rw [decodeParameters] at h
  split at h
  · simp at h
  · cases hlist : listOfLexemes? (Lexeme.visible text) with
    | some parameters =>
      rw [hlist, Option.getD_some] at h
      obtain ⟨group, hgroup, hspelled⟩ := spelled_of_mem_listOfLexemes? hlist parameter h
      exact trim_type_ne_nil_of_ofLexemes? hspelled
        (fun _ hlexeme => List.mem_of_mem_filter (hgroup hlexeme)) htype
    | none =>
      rw [hlist, Option.getD_none] at h
      obtain ⟨piece, -, rfl⟩ := List.mem_map.1 h
      rw [ofPiece] at htype ⊢
      split at htype
      · exact absurd rfl htype
      · rwa [trim_trim]

end Parameter

namespace TagMap

/-- Recording a type changes what is recorded under its name, and nothing else. -/
theorem lookup_insert (name type other : Bytes) (bindings : List (Bytes × Bytes)) :
    (insert name type bindings).lookup other =
      if other = name then some type else bindings.lookup other := by
  by_cases h : other = name
  · subst h
    rw [if_pos rfl]
    fun_induction insert other type bindings with
    | case1 => exact List.lookup_cons_self
    | case2 t rest => exact List.lookup_cons_self
    | case3 n t rest hne hle => exact List.lookup_cons_self
    | case4 n t rest hne hle ih => rw [List.lookup_cons, beq_false_of_ne (Ne.symm hne), ih]
  · rw [if_neg h]
    have hname : (other == name) = false := beq_false_of_ne h
    fun_induction insert name type bindings with
    | case1 => rw [List.lookup_cons, hname]
    | case2 t rest => rw [List.lookup_cons, hname, List.lookup_cons, hname]
    | case3 n t rest hne hle => rw [List.lookup_cons, hname]
    | case4 n t rest hne hle ih => rw [List.lookup_cons, ih, List.lookup_cons]

end TagMap

/-- The declaration tags of a level that is entered. -/
def Visit.tags : Visit → List Tag
  | .enter level => level.filterMap fun t => Tag.parse? t.head
  | .meet _ => []

/-- The declaration tags that visits record, in their order. -/
def recordedTags (visits : List Visit) : List Tag := visits.flatMap Visit.tags

/-- The last of the tags that declare a name. -/
def lastTag? (tags : List Tag) (name : Bytes) : Option Tag := (tags.filter (·.name = name)).getLast?

/-- Of tags that are recorded the last one of a name counts. -/
theorem TagMap.lookup_foldl_define (tags : List Tag) (name : Bytes) :
    (tags.foldl (fun map tag => map.define tag.name tag.type) ({} : TagMap)).bindings.lookup name =
      (lastTag? tags name).map fun tag => tag.type.trim := by
  induction tags using List.reverseRecOn with
  | nil => rfl
  | append_singleton tags tag ih =>
    rw [List.foldl_append, List.foldl_cons, List.foldl_nil, define, lookup_insert,
      ih, lastTag?, lastTag?, List.filter_append]
    by_cases h : name = tag.name
    · simp [h]
    · simp [h, Ne.symm h]

/-- The tags of a level are recorded one after the other. -/
theorem recordTags_eq_foldl (tags : TagMap) (level : List Token) : recordTags tags level =
    (level.filterMap fun t => Tag.parse? t.head).foldl
    (fun map tag => map.define tag.name tag.type) tags := by
  rw [recordTags, List.foldl_filterMap]
  congr 1
  funext map t
  cases Tag.parse? t.head <;> rfl

/-- Without the parameters of rules, visits record the declaration tags. -/
theorem tagsAfter_eq {options : CheckOptions} (hparameters : options.tagParameters = false)
    (tags : TagMap) (visits : List Visit) : tagsAfter options tags visits =
      (recordedTags visits).foldl (fun map tag => map.define tag.name tag.type) tags := by
  induction visits generalizing tags with
  | nil => rfl
  | cons visit visits ih =>
    have htags : recordedTags (visit :: visits) = visit.tags ++ recordedTags visits :=
      List.flatMap_cons
    rw [tagsAfter, List.foldl_cons, ← tagsAfter, ih, htags, List.foldl_append]
    cases visit with
    | enter level =>
      rw [Visit.record, hparameters, if_neg Bool.false_ne_true, Visit.tags, recordTags_eq_foldl]
    | meet site => rfl

/-- The type that is looked up is the one recorded last, unless it is blank. -/
theorem lookup?_tagsAfter {options : CheckOptions} (hparameters : options.tagParameters = false)
    (visits : List Visit) (name : Bytes) : (tagsAfter options {} visits).lookup? name =
      ((lastTag? (recordedTags visits) name).map fun tag => tag.type.trim).filter (!·.isEmpty) := by
  rw [TagMap.lookup?, tagsAfter_eq hparameters, TagMap.lookup_foldl_define]

section Faults

variable {tags : TagMap} {callee : Bytes}

/-- An argument has no fault when it is a name with the recorded type of its parameter. -/
theorem argumentFault?_eq_none_iff {index offset : Nat} {argument : Bytes} {parameter : Parameter} :
    argumentFault? tags callee index argument offset parameter = none ↔ argument.isIdent = true ∧
      ∃ type, tags.lookup? argument = some type ∧ type.trim = parameter.type.trim := by
  rw [argumentFault?]
  cases argument.isIdent with
  | false => simp
  | true => cases tags.lookup? argument <;> simp

/-- Arguments, one for each parameter, have no fault when none of them has. -/
theorem argumentFaults_eq_nil_iff {index : Nat} {arguments : List (Bytes × Nat)}
    {parameters : List Parameter} (hlength : arguments.length = parameters.length) :
    argumentFaults tags callee index arguments parameters = [] ↔
      List.Forall₂ (fun argument parameter => Bytes.isIdent argument = true ∧
        ∃ type, tags.lookup? argument = some type ∧ type.trim = parameter.type.trim)
        (arguments.map Prod.fst) parameters := by
  induction arguments generalizing index parameters with
  | nil =>
    obtain rfl := List.length_eq_zero_iff.1 hlength.symm
    simp [argumentFaults]
  | cons first arguments ih =>
    obtain ⟨argument, offset⟩ := first
    cases parameters with
    | nil => exact nomatch hlength
    | cons parameter parameters =>
      rw [argumentFaults, List.append_eq_nil_iff, Option.toList_eq_nil_iff,
        argumentFault?_eq_none_iff, ih (Nat.succ.inj hlength), List.map_cons, List.forall₂_cons]

/-- Every argument is given an offset. -/
theorem length_argumentOffsets (fallback : Nat) (arguments : List Bytes)
    (leaves : List (Bytes × Nat)) :
    (argumentOffsets fallback arguments leaves).length = arguments.length := by
  fun_induction argumentOffsets fallback arguments leaves <;> simp_all

/-- The arguments of a call are those that its text is split into. -/
theorem map_fst_callArguments (content : List Token) (offset : Nat) :
    (callArguments content offset).map Prod.fst =
      splitArguments (join "\n" (content.map head)) := by
  rw [callArguments]
  exact List.map_fst_zip (length_argumentOffsets ..).ge

/-- When nothing is wrong with a call. -/
theorem callFaults_eq_nil_iff {rule : Rule} {content : List Token} {offset : Nat} :
    callFaults tags callee rule content offset = [] ↔ (∀ t ∈ content, t.isBlock = false) ∧
      List.Forall₂ (fun argument parameter => Bytes.isIdent argument = true ∧
        ∃ type, tags.lookup? argument = some type ∧ type.trim = parameter.type.trim)
        (splitArguments (join "\n" (content.map head))) rule.parameters := by
  rw [callFaults]
  split
  next block hblock =>
    have hmem := List.mem_of_find?_eq_some hblock
    have hisBlock := List.find?_some hblock
    simp only [List.cons_ne_self, false_iff, not_and]
    intro hleaves
    rw [hleaves block hmem] at hisBlock
    exact Bool.noConfusion hisBlock
  next hnone =>
    have hleaves : ∀ t ∈ content, t.isBlock = false := by simpa using List.find?_eq_none.1 hnone
    rw [← map_fst_callArguments content offset]
    dsimp only
    split
    next hlength =>
      rw [List.nil_append, argumentFaults_eq_nil_iff hlength]
      exact ⟨fun h => ⟨hleaves, h⟩, fun h => h.2⟩
    next hlength =>
      refine ⟨fun h => (nomatch h), fun h => absurd ?_ hlength⟩
      rw [← h.2.length_eq, List.length_map]

end Faults

/-- A block that is checked as a call: it declares nothing, its level declares a rule of its name,
and its content is not that of the declaration. -/
structure Site.Calls (site : Site) (rule : Rule) : Prop where
  plain : site.declares = false
  named : levelRule? site.level (callName site.signature) = some rule
  differs : sameAll site.content rule.declaration = false

/-- What the content of a call must satisfy when certain tags were recorded before: it is all
leaves, and there is one argument for each parameter, a name whose last tag has the type of the
parameter. -/
structure Passes (recorded : List Tag) (rule : Rule) (content : List Token) : Prop where
  leaves : ∀ t ∈ content, t.isBlock = false
  arguments : List.Forall₂ (fun argument parameter => Bytes.isIdent argument = true ∧
      ∃ tag, lastTag? recorded argument = some tag ∧ tag.type.trim = parameter.type.trim)
    (splitArguments (join "\n" (content.map head))) rule.parameters

namespace Site

variable {options : CheckOptions} {site : Site} {rule : Rule}

/-- If only the rules of a level count on it, a block is checked as a call of one of these. -/
theorem treatment_eq_call_iff (hinherit : options.inheritRules = false) :
    site.treatment options = .call rule ↔ site.Calls rule := by
  have hrule : site.rule? options = levelRule? site.level (callName site.signature) := by
    rw [rule?, hinherit, if_neg Bool.false_ne_true, Option.or_none]
  rw [treatment, hrule]
  constructor
  · intro h
    split at h
    · cases h
    next hplain =>
      split at h
      · cases h
      next found hnamed =>
        split at h
        · cases h
        next hdiffers =>
          cases h
          exact ⟨by simpa using hplain, hnamed, by simpa using hdiffers⟩
  · rintro ⟨hplain, hnamed, hdiffers⟩
    rw [hplain, hnamed]
    simp [hdiffers]

/-- The faults of a block are those of a call. -/
theorem mem_faults {tags : TagMap} {d : Diagnostic} : d ∈ site.faults options tags ↔ ∃ rule,
    site.treatment options = .call rule ∧
      d ∈ callFaults tags (callName site.signature) rule site.content site.offset := by
  rw [faults]
  cases site.treatment options <;> simp

/-- The rule of a call has parameters with types that are not blank. -/
theorem Calls.trim_type_ne_nil (h : site.Calls rule) : ∀ parameter ∈ rule.parameters,
    parameter.type.trim ≠ [] := by
  intro parameter hparameter
  rw [(spec_of_mem_declaredRules (rule_of_levelRule? h.named).2).2, taggedParameters,
    List.mem_filter] at hparameter
  exact Parameter.trim_type_ne_nil hparameter.1 (by simpa using hparameter.2)

/-- Nothing is wrong with a call that passes, and something is with every other one. -/
theorem Calls.callFaults_eq_nil_iff (h : site.Calls rule)
    (hparameters : options.tagParameters = false) (past : List Visit) :
    callFaults (tagsAfter options {} past) (callName site.signature) rule site.content site.offset =
      [] ↔ Passes (recordedTags past) rule site.content := by
  have hargument : ∀ argument, ∀ parameter ∈ rule.parameters,
      ((∃ type, (tagsAfter options {} past).lookup? argument = some type ∧
        type.trim = parameter.type.trim) ↔
        ∃ tag, lastTag? (recordedTags past) argument = some tag ∧
        tag.type.trim = parameter.type.trim) := by
    intro argument parameter hparameter
    rw [lookup?_tagsAfter hparameters]
    cases lastTag? (recordedTags past) argument with
    | none => simp
    | some tag =>
      -- a blank type is no type, but then it is not that of the parameter
      have hblank := h.trim_type_ne_nil parameter hparameter
      by_cases htype : tag.type.trim = []
      · simp [htype, Ne.symm hblank]
      · simp [htype]
  have hcontent : Passes (recordedTags past) rule site.content ↔
      (∀ t ∈ site.content, t.isBlock = false) ∧
      List.Forall₂ (fun argument parameter => Bytes.isIdent argument = true ∧
        ∃ tag, lastTag? (recordedTags past) argument = some tag ∧
        tag.type.trim = parameter.type.trim)
      (splitArguments (join "\n" (site.content.map head))) rule.parameters :=
    ⟨fun h => ⟨h.leaves, h.arguments⟩, fun h => ⟨h.1, h.2⟩⟩
  rw [hcontent, TagScript.callFaults_eq_nil_iff, List.forall₂_iff_zip, List.forall₂_iff_zip]
  refine and_congr_right fun _ => and_congr_right fun _ => ?_
  refine ⟨fun hall argument parameter hmem => ?_, fun hall argument parameter hmem => ?_⟩
  · rw [← hargument argument parameter (List.of_mem_zip hmem).2]
    exact hall hmem
  · rw [hargument argument parameter (List.of_mem_zip hmem).2]
    exact hall hmem

end Site

/-- The tokens of a sequence are among all that are inside it. -/
theorem Token.subset_all (ts : List Token) : ts ⊆ all ts := by
  induction ts with
  | nil => exact List.nil_subset _
  | cons t ts ih =>
    rw [all_cons]
    exact List.cons_subset_cons _ (List.subset_append_of_subset_right _ ih)

mutual

/-- The levels that are entered inside a token consist of tokens inside it. -/
theorem subset_of_mem_visitsToken (options : CheckOptions) (level : List Token)
    (outer : List (List Token)) (next : Option Token) {entered : List Token} : (t : Token) →
    .enter entered ∈ visitsToken options level outer next t → entered ⊆ all [t]
  | .leaf .., h => by simp [visitsToken] at h
  | .block signature children offset, h => by
    rw [visitsToken] at h
    generalize Site.treatment options _ = treatment at h
    rw [all_cons, all_nil, List.append_nil]
    refine List.subset_cons_of_subset _ ?_
    cases treatment with
    | declaration => simp at h
    | call rule => simp at h
    | level =>
      simp only [List.mem_cons, reduceCtorEq, false_or, Visit.enter.injEq] at h
      rcases h with rfl | h
      · exact subset_all entered
      · exact subset_of_mem_visitsTokens options (children.map untag) (level :: outer) children h

/-- The levels that are entered inside tokens consist of tokens inside them. -/
theorem subset_of_mem_visitsTokens (options : CheckOptions) (level : List Token)
    (outer : List (List Token)) {entered : List Token} :
    (ts : List Token) → .enter entered ∈ visitsTokens options level outer ts → entered ⊆ all ts
  | [], h => by simp [visitsTokens] at h
  | t :: ts, h => by
    rw [visitsTokens, List.mem_append] at h
    rw [← List.singleton_append, all_append]
    rcases h with h | h
    · exact List.subset_append_of_subset_left _
        (subset_of_mem_visitsToken options level outer _ t h)
    · exact List.subset_append_of_subset_right _
        (subset_of_mem_visitsTokens options level outer ts h)

end

/-- The tags that a check records are carried by tokens of the tree. -/
theorem exists_of_mem_recordedTags {options : CheckOptions} {tokens : List Token}
    {past future : List Visit} {tag : Tag} (hvisits : visits options tokens = past ++ future)
    (h : tag ∈ recordedTags past) :
    ∃ t ∈ all tokens, Tag.parse? t.head = some tag := by
  obtain ⟨visit, hvisit, htag⟩ := List.mem_flatMap.1 h
  cases visit with
  | meet site => simp [Visit.tags] at htag
  | enter level =>
    obtain ⟨t, ht, hparse⟩ := List.mem_filterMap.1 htag
    refine ⟨t, ?_, hparse⟩
    have hentered : .enter level ∈ visits options tokens := hvisits ▸ List.mem_append_left _ hvisit
    rcases List.mem_cons.1 hentered with heq | hentered
    · cases heq
      exact subset_all tokens ht
    · exact subset_of_mem_visitsTokens options _ _ tokens hentered ht

/-- A check passes exactly when every call that it meets passes, under the tags recorded until then.
What it raises is what is wrong with the calls that do not pass, each diagnostic with one of them.
Where a call passes, every argument is a name that some tagged declaration of the script gives the
type of the parameter. -/
theorem checkAndStrip_passes_iff {options : CheckOptions} (hinherit : options.inheritRules = false)
    (hparameters : options.tagParameters = false) (tokens : List Token) :
    ((checkAndStrip options tokens).2.failed = false ↔
      ∀ (past : List Visit) (site : Site) (future : List Visit) (rule : Rule),
        visits options tokens = past ++ .meet site :: future → site.Calls rule →
          Passes (recordedTags past) rule site.content) ∧
    (checkAndStrip options tokens).2.HasRaised options
      (faultsFrom options {} (visits options tokens)) ∧
    (∀ d ∈ faultsFrom options {} (visits options tokens),
      ∃ (past : List Visit) (site : Site) (future : List Visit) (rule : Rule),
        visits options tokens = past ++ .meet site :: future ∧ site.Calls rule ∧
          ¬ Passes (recordedTags past) rule site.content ∧
            d ∈ callFaults (tagsAfter options {} past) (callName site.signature) rule
              site.content site.offset) ∧
    ∀ (past : List Visit) (site : Site) (future : List Visit) (rule : Rule),
      visits options tokens = past ++ .meet site :: future → site.Calls rule →
      Passes (recordedTags past) rule site.content →
        ∀ e ∈ (splitArguments (join "\n" (site.content.map head))).zip rule.parameters,
          ∃ t ∈ all tokens,
          ∃ tag, Tag.parse? t.head = some tag ∧ tag.name = e.1 ∧ tag.type.trim = e.2.type.trim := by
  refine ⟨?_, hasRaised_checkAndStrip options tokens, fun d hd => ?_, ?_⟩
  · rw [failed_checkAndStrip_iff]
    constructor
    · intro h past site future rule hvisits hcalls
      rw [← hcalls.callFaults_eq_nil_iff hparameters past, List.eq_nil_iff_forall_not_mem]
      intro d hd
      have hfault := Site.mem_faults.2 ⟨rule, (Site.treatment_eq_call_iff hinherit).2 hcalls, hd⟩
      rw [h past site future hvisits] at hfault
      exact List.not_mem_nil hfault
    · intro h past site future hvisits
      rw [List.eq_nil_iff_forall_not_mem]
      intro d hd
      obtain ⟨rule, htreatment, hd⟩ := Site.mem_faults.1 hd
      have hcalls := (Site.treatment_eq_call_iff hinherit).1 htreatment
      rw [(hcalls.callFaults_eq_nil_iff hparameters past).2
        (h past site future rule hvisits hcalls)] at hd
      exact List.not_mem_nil hd
  · obtain ⟨past, site, future, hvisits, hd⟩ := mem_faultsFrom.1 hd
    obtain ⟨rule, htreatment, hd⟩ := Site.mem_faults.1 hd
    have hcalls := (Site.treatment_eq_call_iff hinherit).1 htreatment
    refine ⟨past, site, future, rule, hvisits, hcalls, fun hpasses => ?_, hd⟩
    rw [(hcalls.callFaults_eq_nil_iff hparameters past).2 hpasses] at hd
    exact List.not_mem_nil hd
  · intro past site future rule hvisits _ hpasses e he
    obtain ⟨-, tag, htag, htype⟩ := (List.forall₂_iff_zip.1 hpasses.arguments).2 he
    obtain ⟨hmem, hname⟩ := List.mem_filter.1 (List.mem_of_getLast? htag)
    obtain ⟨t, ht, hparse⟩ := exists_of_mem_recordedTags hvisits hmem
    exact ⟨t, ht, tag, hparse, by simpa using hname, htype⟩

/-- A call that passes: the name that it is given was declared with the type of the parameter. -/
theorem checkAndStrip_passes_iff_call : ∃ tokens past site rule,
    tokenize "function f(a|N)\x7b\x7d;let x : N = 1;f(x)" = .ok tokens ∧
      (checkAndStrip {} tokens).2.failed = false ∧
    visits {} tokens = past ++ [.meet site] ∧ site.Calls rule ∧ rule.parameters = [⟨"a", "N"⟩] ∧
    site.content.map head = [utf8 "x"] ∧ Passes (recordedTags past) rule site.content := by
  have hscan : tokenize "function f(a|N)\x7b\x7d;let x : N = 1;f(x)" =
      .ok [.block "function f(" [.leaf "a|N" 11] 0, .block "\x7b" [] 15, .leaf "let x : N = 1" 18,
        .block "f(" [.leaf "x" 34] 32] := by decide +kernel
  have hpassed : (checkAndStrip {} [.block "function f(" [.leaf "a|N" 11] 0, .block "\x7b" [] 15,
      .leaf "let x : N = 1" 18, .block "f(" [.leaf "x" 34] 32]).2.failed =
      false := by decide +kernel
  have hlast : (visits {} [.block "function f(" [.leaf "a|N" 11] 0, .block "\x7b" [] 15,
      .leaf "let x : N = 1" 18, .block "f(" [.leaf "x" 34] 32]).getLast? = some (.meet {
        level :=
          [.block "function f(" [.leaf "a|N" 11] 0, .block "\x7b" [] 15, .leaf "let x = 1" 18,
          .block "f(" [.leaf "x" 34] 32]
        outer := []
        next := none
        signature := "f("
        content := [.leaf "x" 34]
        offset := 32 }) := by decide +kernel
  have hcalls : Site.Calls {
      level := [.block "function f(" [.leaf "a|N" 11] 0, .block "\x7b" [] 15, .leaf "let x = 1" 18,
        .block "f(" [.leaf "x" 34] 32]
      outer := []
      next := none
      signature := "f("
      content := [.leaf "x" 34]
      offset := 32 }
      { name := "f", parameters := [⟨"a", "N"⟩], declaration := [.leaf "a|N" 11], offset := 0 } :=
    ⟨by decide +kernel, by decide +kernel, by decide +kernel⟩
  have hvisits := (List.dropLast_append_getLast? _ hlast).symm
  exact ⟨_, _, _, _, hscan, hpassed, hvisits, hcalls, rfl, rfl,
    (checkAndStrip_passes_iff rfl rfl _).1.1 hpassed _ _ [] _ hvisits hcalls⟩

end TagScript
