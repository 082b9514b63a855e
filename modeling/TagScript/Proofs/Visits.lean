import TagScript.Proofs.Recompile

/-!
# The visits of a walk

A check walks the levels of a tree in a fixed order: it enters a level, meets the blocks of the
level one by one, and walks the content of a block before it meets the next one. Neither the
order nor what is done with a block depends on what was found before.

So the walk is a list of visits, and the findings of a check are these visits taken one after
the other: entering a level records its tags and rules, meeting a call raises what is wrong with
it, and nothing else is found.
-/

namespace TagScript

open Token

/-- The rule that a level declares under a name; of several the last one counts. -/
def levelRule? (level : List Token) (name : Bytes) : Option Rule :=
  ((declaredRules level).filter (·.name = name)).getLast?

/-- A block where a walk meets it, without its declaration tag. -/
structure Site where
  /-- The siblings of the block and the block itself, all without their declaration tags. -/
  level : List Token
  /-- The levels around this one, the innermost first. -/
  outer : List (List Token)
  /-- What follows the block on its level. -/
  next : Option Token
  signature : Bytes
  content : List Token
  offset : Nat
  deriving DecidableEq

/-- What a walk does with the content of a block. -/
inductive Treatment where
  /-- It is stripped: the block declares parameters, or repeats the declaration of its rule. -/
  | declaration
  /-- It is checked as the arguments of a call. -/
  | call (rule : Rule)
  /-- It is walked as a level of its own. -/
  | level
  deriving DecidableEq

namespace Site

/-- Whether the block declares parameters. -/
def declares (site : Site) : Bool :=
  (Token.block site.signature site.content site.offset).declares site.next

/-- The rule that the block is held against: the one of its name on its own level, or else on the
innermost of the levels around it if these count. -/
def rule? (options : CheckOptions) (site : Site) : Option Rule :=
  (levelRule? site.level (callName site.signature)).or
    (if options.inheritRules then site.outer.findSome? (levelRule? · (callName site.signature))
     else none)

/-- What is done with the content of the block. -/
def treatment (options : CheckOptions) (site : Site) : Treatment :=
  if site.declares then .declaration
  else match site.rule? options with
    | none => .level
    | some rule => if sameAll site.content rule.declaration then .declaration else .call rule

/-- What is wrong with the block if it is a call, under the types recorded so far. -/
def faults (options : CheckOptions) (tags : TagMap) (site : Site) : List Diagnostic :=
  match site.treatment options with
  | .call rule => callFaults tags (callName site.signature) rule site.content site.offset
  | _ => []

end Site

/-- One thing that a walk does. -/
inductive Visit where
  /-- It enters a level, which still has its declaration tags. -/
  | enter (level : List Token)
  /-- It meets a block. -/
  | meet (site : Site)
  deriving DecidableEq

mutual

/-- The visits to a token and to what is inside it. -/
def visitsToken (options : CheckOptions) (level : List Token) (outer : List (List Token))
    (next : Option Token) : Token → List Visit
  | .leaf .. => []
  | .block signature children offset =>
    let site : Site :=
      { level, outer, next, signature := untagged signature, content := children, offset }
    .meet site :: match site.treatment options with
      | .level =>
        .enter children :: visitsTokens options (children.map untag) (level :: outer) children
      | _ => []

/-- The visits to tokens of a level. -/
def visitsTokens (options : CheckOptions) (level : List Token) (outer : List (List Token)) :
    List Token → List Visit
  | [] => []
  | t :: ts =>
    visitsToken options level outer (ts.head?.map untag) t ++ visitsTokens options level outer ts

end

/-- The visits that a check makes to a tree, in their order. -/
def visits (options : CheckOptions) (tokens : List Token) : List Visit :=
  .enter tokens :: visitsTokens options (tokens.map untag) [] tokens

section Rules

variable {level : List Token} {name : Bytes} {rule : Rule}

/-- Of the rules in a table the last one of a name is found. -/
theorem RuleTable.find?_ofRules (rules : List Rule) (name : Bytes) :
    (RuleTable.ofRules rules).find? name = (rules.filter (·.name = name)).getLast? := by
  induction rules using List.reverseRecOn with
  | nil => rfl
  | append_singleton rules rule ih =>
    have hdefine : RuleTable.ofRules (rules ++ [rule]) =
        rule :: (RuleTable.ofRules rules).filter (·.name ≠ rule.name) := by
      rw [RuleTable.ofRules, List.foldl_append]
      rfl
    rw [hdefine, RuleTable.find?, List.filter_append]
    by_cases hname : rule.name = name
    · simp [hname]
    · have hkept : ∀ other : Rule,
          (!decide (other.name = rule.name) && decide (other.name = name)) =
          decide (other.name = name) := by
        intro other
        by_cases hother : other.name = name
        · simp [hother, Ne.symm hname]
        · simp [hother]
      rw [List.find?_cons_of_neg (by simpa using hname), List.find?_filter]
      rw [RuleTable.find?] at ih
      simpa [hname, hkept] using ih

/-- A rule is declared by a block of the level. -/
theorem rule_of_levelRule? (h : levelRule? level name = some rule) :
    rule.name = name ∧ rule ∈ declaredRules level := by
  have hmem := List.mem_filter.1 (List.mem_of_getLast? h)
  exact ⟨by simpa using hmem.2, hmem.1⟩

/-- What a declared rule is made of: a name and the tagged parameters of its declaration. -/
theorem spec_of_mem_declaredRules (h : rule ∈ declaredRules level) :
    rule.name.isIdent = true ∧ rule.parameters = taggedParameters rule.declaration := by
  obtain ⟨t, -, hrule⟩ := List.mem_filterMap.1 h
  cases t with
  | leaf => exact nomatch hrule
  | block signature children offset =>
    obtain ⟨found, hname, hrule⟩ := Option.bind_eq_some_iff.1 hrule
    obtain ⟨-, -, hrule⟩ := Option.bind_eq_some_iff.1 hrule
    cases hrule
    exact ⟨(Option.filter_eq_some_iff.1 hname).2, rfl⟩

/-- No rule has an empty name. -/
theorem levelRule?_nil (level : List Token) : levelRule? level [] = none := by
  cases h : levelRule? level [] with
  | none => rfl
  | some rule =>
    obtain ⟨hname, hmem⟩ := rule_of_levelRule? h
    have hident := (spec_of_mem_declaredRules hmem).1
    rw [hname] at hident
    exact Bool.noConfusion hident

end Rules

/-- The tables that are visible on a level. -/
def scopeAt (options : CheckOptions) (level : List Token) (outer : List (List Token)) : Scope :=
  RuleTable.ofRules (declaredRules level) ::
    if options.inheritRules then outer.map fun level =>
    RuleTable.ofRules (declaredRules level) else []

/-- The rule that a block is held against is the one that is looked up. -/
theorem lookup?_scopeAt (options : CheckOptions) (site : Site) :
    (scopeAt options site.level site.outer).lookup? (callName site.signature) =
      site.rule? options := by
  have hfind : ∀ level name, (RuleTable.ofRules (declaredRules level)).find? name =
      levelRule? level name :=
    fun level name => RuleTable.find?_ofRules (declaredRules level) name
  have hempty : site.outer.findSome? (levelRule? · []) = none :=
    List.findSome?_eq_none_iff.2 fun level _ => levelRule?_nil level
  rw [Scope.lookup?, Site.rule?, scopeAt]
  generalize callName site.signature = name
  cases name with
  | nil =>
    rw [levelRule?_nil, hempty, ite_self]
    rfl
  | cons c name =>
    rw [if_neg (by simp), List.findSome?_cons, hfind]
    cases levelRule? site.level (c :: name) with
    | some rule => rfl
    | none =>
      cases options.inheritRules with
      | false => rfl
      | true =>
        simp only [if_true, List.findSome?_map, Function.comp_def, hfind]
        rfl

/-- Entering a level changes the findings in the same way wherever it stands. -/
def Findings.enter (options : CheckOptions) (f : Findings) (level : List Token) : Findings :=
  (enterLevel options [] level f).2

/-- A level that is entered has the rules of the levels around it behind its own. -/
theorem enterLevel_scopeAt (options : CheckOptions) (level : List Token) (outer : List (List Token))
    (children : List Token) (f : Findings) :
    enterLevel options (scopeAt options level outer) children f =
      (scopeAt options (children.map untag) (level :: outer), f.enter options children) := by
  rw [enterLevel, Findings.enter, enterLevel, scopeAt, scopeAt]
  cases options.inheritRules <;> rfl

/-- At first no rules are visible but those of the level itself. -/
theorem enterLevel_nil (options : CheckOptions) (tokens : List Token) (f : Findings) :
    enterLevel options [] tokens f =
      (scopeAt options (tokens.map untag) [], f.enter options tokens) := by
  rw [enterLevel, Findings.enter, enterLevel, scopeAt]
  cases options.inheritRules <;> rfl

/-- A check treats a tree as a level without others around it. -/
theorem checkAndStrip_eq (options : CheckOptions) (tokens : List Token) :
    checkAndStrip options tokens =
    checkTokens options (scopeAt options (tokens.map untag) [])
    (Findings.enter options {} tokens) tokens := by
  rw [checkAndStrip, checkFrom, enterLevel_nil]

/-- What a check makes of a block, for each treatment of its content. -/
theorem checkToken_site (options : CheckOptions) (level : List Token) (outer : List (List Token))
    (next : Option Token) (f : Findings) (signature : Bytes) (children : List Token)
    (offset : Nat) :
    checkToken options (scopeAt options level outer)
        ((Token.block signature children offset).untag.declares next) f
        (.block signature children offset) =
      match Site.treatment options
        { level, outer, next, signature := untagged signature, content := children, offset } with
      | .declaration => (.block (untagged signature) (stripAll children) offset, f)
      | .call rule => (.block (untagged signature) children offset,
          f.raiseAll options
            (callFaults f.tags (callName (untagged signature)) rule children offset))
      | .level =>
        (.block (untagged signature)
            (checkTokens options (scopeAt options (children.map untag) (level :: outer))
            (f.enter options children) children).1 offset,
          (checkTokens options (scopeAt options (children.map untag) (level :: outer))
            (f.enter options children) children).2) := by
  have hlookup := lookup?_scopeAt options
    { level, outer, next, signature := untagged signature, content := children, offset }
  dsimp only at hlookup
  rw [checkToken, Site.treatment]
  simp only [hlookup, enterLevel_scopeAt]
  split
  next hdeclares =>
    rw [if_pos]
    exact hdeclares
  next hplain =>
    rw [if_neg]
    · cases Site.rule? options _ with
      | none => rfl
      | some rule =>
        dsimp only
        split <;> rfl
    · exact hplain

/-- What was found when a visit is made. -/
def Findings.visit (options : CheckOptions) (f : Findings) : Visit → Findings
  | .enter level => f.enter options level
  | .meet site => f.raiseAll options (site.faults options f.tags)

mutual

/-- What a check finds in a token is found by the visits to it. -/
theorem snd_checkToken (options : CheckOptions) (level : List Token) (outer : List (List Token))
    (next : Option Token) : (t : Token) → (f : Findings) →
      (checkToken options (scopeAt options level outer) (t.untag.declares next) f t).2 =
      (visitsToken options level outer next t).foldl (Findings.visit options) f
  | .leaf .., f => by rw [checkToken, visitsToken, List.foldl_nil]
  | .block signature children offset, f => by
    rw [checkToken_site, visitsToken, List.foldl_cons, Findings.visit, Site.faults]
    dsimp only
    generalize Site.treatment options _ = treatment
    cases treatment with
    | declaration => rfl
    | call rule => rfl
    | level => exact snd_checkTokens options (children.map untag) (level :: outer) children _

/-- What a check finds on a level is found by the visits to its tokens. -/
theorem snd_checkTokens (options : CheckOptions) (level : List Token) (outer : List (List Token)) :
    (ts : List Token) → (f : Findings) →
      (checkTokens options (scopeAt options level outer) f ts).2 =
      (visitsTokens options level outer ts).foldl (Findings.visit options) f
  | [], f => rfl
  | t :: ts, f => by
    rw [checkTokens, visitsTokens, List.foldl_append,
      ← snd_checkToken options level outer (ts.head?.map untag) t f]
    exact snd_checkTokens options level outer ts _

end

/-- The findings of a check are those of its visits, one after the other. -/
theorem snd_checkAndStrip (options : CheckOptions) (tokens : List Token) :
    (checkAndStrip options tokens).2 = (visits options tokens).foldl
    (Findings.visit options) {} := by
  rw [checkAndStrip_eq]
  exact snd_checkTokens options (tokens.map untag) [] tokens _

/-- The types that are recorded when a visit is made. -/
def Visit.record (options : CheckOptions) (tags : TagMap) : Visit → TagMap
  | .enter level =>
    if options.tagParameters then recordParameters (recordTags tags level)
      (declaredRules (level.map untag))
    else recordTags tags level
  | .meet _ => tags

/-- The types that are recorded after visits. -/
def tagsAfter (options : CheckOptions) (tags : TagMap) (visits : List Visit) : TagMap :=
  visits.foldl (Visit.record options) tags

/-- What is wrong with the calls among visits, one after the other. -/
def faultsFrom (options : CheckOptions) (tags : TagMap) : List Visit → List Diagnostic
  | [] => []
  | .enter level :: rest => faultsFrom options (Visit.record options tags (.enter level)) rest
  | .meet site :: rest => site.faults options tags ++ faultsFrom options tags rest

/-- What is wrong with later calls depends on the types recorded by the earlier visits. -/
theorem faultsFrom_append (options : CheckOptions) (tags : TagMap) (past future : List Visit) :
    faultsFrom options tags (past ++ future) =
      faultsFrom options tags past ++ faultsFrom options (tagsAfter options tags past) future := by
  induction past generalizing tags with
  | nil => rfl
  | cons visit past ih =>
    cases visit with
    | enter level => exact ih _
    | meet site =>
      rw [List.cons_append, faultsFrom, faultsFrom, ih, List.append_assoc]
      rfl

/-- A fault is that of one block, under the types recorded when the block is met. -/
theorem mem_faultsFrom {options : CheckOptions} {tags : TagMap} {visits : List Visit}
    {d : Diagnostic} :
    d ∈ faultsFrom options tags visits ↔ ∃ past site future, visits = past ++ .meet site :: future ∧
      d ∈ site.faults options (tagsAfter options tags past) := by
  induction visits generalizing tags with
  | nil => simp [faultsFrom]
  | cons visit rest ih =>
    have hcons : (∃ past site future, visit :: rest = past ++ .meet site :: future ∧
        d ∈ site.faults options (tagsAfter options tags past)) ↔
        (∃ site, visit = .meet site ∧ d ∈ site.faults options tags) ∨
          ∃ past site future, rest = past ++ .meet site :: future ∧
            d ∈ site.faults options (tagsAfter options (visit.record options tags) past) := by
      constructor
      · rintro ⟨past, site, future, heq, hd⟩
        cases past with
        | nil => exact .inl ⟨site, (List.cons.inj heq).1, hd⟩
        | cons first past =>
          obtain ⟨rfl, rfl⟩ := List.cons.inj heq
          exact .inr ⟨past, site, future, rfl, hd⟩
      · rintro (⟨site, rfl, hd⟩ | ⟨past, site, future, rfl, hd⟩)
        · exact ⟨[], site, rest, rfl, hd⟩
        · exact ⟨visit :: past, site, future, rfl, hd⟩
    rw [hcons, ← ih]
    cases visit with
    | enter level => simp [faultsFrom]
    | meet site => simp [faultsFrom, Visit.record]

/-- The rules that are collected when a visit is made. -/
def Visit.rules : Visit → List Rule
  | .enter level => declaredRules (level.map untag)
  | .meet _ => []

/-- The diagnostics that are kept of those that were raised: the first ones if there is a cap. -/
def CheckOptions.kept (options : CheckOptions) (raised : List Diagnostic) : List Diagnostic :=
  if 0 < options.maxDiagnostics then raised.take options.maxDiagnostics.toNat else raised

/-- The diagnostics that were raised: all of them are counted, and the first ones kept. -/
structure Findings.HasRaised (options : CheckOptions) (f : Findings)
    (raised : List Diagnostic) : Prop where
  count : f.raised = raised.length
  kept : f.diagnostics = options.kept raised

namespace Findings

variable {options : CheckOptions} {f : Findings} {raised : List Diagnostic}

/-- Raising a diagnostic records no type. -/
theorem tags_raiseAll (options : CheckOptions) (f : Findings) (ds : List Diagnostic) :
    (f.raiseAll options ds).tags = f.tags := by
  rw [raiseAll]
  induction ds generalizing f with
  | nil => rfl
  | cons d ds ih =>
    rw [List.foldl_cons, ih, raise]
    split <;> rfl

/-- Raising a diagnostic collects no rule. -/
theorem rules_raiseAll (options : CheckOptions) (f : Findings) (ds : List Diagnostic) :
    (f.raiseAll options ds).rules = f.rules := by
  rw [raiseAll]
  induction ds generalizing f with
  | nil => rfl
  | cons d ds ih =>
    rw [List.foldl_cons, ih, raise]
    split <;> rfl

/-- Visits record types one after the other. -/
theorem tags_visits (options : CheckOptions) (f : Findings) (visits : List Visit) :
    (visits.foldl (visit options) f).tags = tagsAfter options f.tags visits := by
  induction visits generalizing f with
  | nil => rfl
  | cons first visits ih =>
    rw [List.foldl_cons, ih, tagsAfter, tagsAfter, List.foldl_cons]
    cases first with
    | enter level => rfl
    | meet site => rw [visit, tags_raiseAll, Visit.record]

/-- Visits collect rules one after the other. -/
theorem rules_visits (options : CheckOptions) (f : Findings) (visits : List Visit) :
    (visits.foldl (visit options) f).rules = f.rules ++ visits.flatMap Visit.rules := by
  induction visits generalizing f with
  | nil => exact (List.append_nil _).symm
  | cons first visits ih =>
    rw [List.foldl_cons, ih, List.flatMap_cons, ← List.append_assoc]
    cases first with
    | enter level => rfl
    | meet site => rw [visit, rules_raiseAll, Visit.rules, List.append_nil]

/-- One more diagnostic is counted, and kept if there is room. -/
theorem HasRaised.raise (h : f.HasRaised options raised) (d : Diagnostic) :
    (f.raise options d).HasRaised options (raised ++ [d]) := by
  have hcount : f.raised + 1 = (raised ++ [d]).length := by rw [h.count, List.length_append]; rfl
  have hkept := h.kept
  rw [CheckOptions.kept] at hkept
  rw [Findings.raise]
  split
  next hfull =>
    simp only [Bool.and_eq_true, decide_eq_true_eq] at hfull
    have hroom : options.maxDiagnostics.toNat ≤ raised.length := by
      rw [hkept, if_pos hfull.1, List.length_take] at hfull
      omega
    refine ⟨hcount, ?_⟩
    rw [CheckOptions.kept, if_pos hfull.1, List.take_append_of_le_length hroom]
    rw [if_pos hfull.1] at hkept
    exact hkept
  next hroom =>
    refine ⟨hcount, ?_⟩
    rw [CheckOptions.kept]
    split
    next hcap =>
      rw [if_pos hcap] at hkept
      have hlength : raised.length < options.maxDiagnostics.toNat := by
        simp only [Bool.and_eq_true, decide_eq_true_eq, not_and, not_le] at hroom
        have hlt := hroom hcap
        rw [hkept, List.length_take] at hlt
        omega
      rw [List.take_of_length_le (by rw [List.length_append, List.length_singleton]; omega)]
      rw [List.take_of_length_le hlength.le] at hkept
      exact congrArg (· ++ [d]) hkept
    next hcap =>
      rw [if_neg hcap] at hkept
      exact congrArg (· ++ [d]) hkept

/-- Diagnostics are raised in order. -/
theorem HasRaised.raiseAll (h : f.HasRaised options raised) (ds : List Diagnostic) :
    (f.raiseAll options ds).HasRaised options (raised ++ ds) := by
  rw [Findings.raiseAll]
  induction ds generalizing f raised with
  | nil => rwa [List.append_nil]
  | cons d ds ih =>
    rw [List.foldl_cons, List.append_cons]
    exact ih (h.raise d)

/-- Visits raise what is wrong with the calls among them. -/
theorem HasRaised.visits (h : f.HasRaised options raised) (visits : List Visit) :
    (visits.foldl (visit options) f).HasRaised options
    (raised ++ faultsFrom options f.tags visits) := by
  induction visits generalizing f raised with
  | nil => rwa [faultsFrom, List.append_nil]
  | cons visit visits ih =>
    rw [List.foldl_cons]
    cases visit with
    | enter level => exact ih ⟨h.count, h.kept⟩
    | meet site =>
      have hrest := ih (h.raiseAll (site.faults options f.tags))
      rw [tags_raiseAll, List.append_assoc] at hrest
      exact hrest

/-- A check fails when it raises something, whatever the cap keeps of it. -/
theorem HasRaised.failed_eq_false_iff (h : f.HasRaised options raised) :
    f.failed = false ↔ raised = [] := by
  rw [failed, h.count, decide_eq_false_iff_not, not_lt, Nat.le_zero, List.length_eq_zero_iff]

end Findings

/-- The types that a check records are those of its visits. -/
theorem tags_checkAndStrip (options : CheckOptions) (tokens : List Token) :
    (checkAndStrip options tokens).2.tags = tagsAfter options {} (visits options tokens) := by
  rw [snd_checkAndStrip, Findings.tags_visits]

/-- The rules that a check collects are those of its visits. -/
theorem rules_checkAndStrip (options : CheckOptions) (tokens : List Token) :
    (checkAndStrip options tokens).2.rules = (visits options tokens).flatMap Visit.rules := by
  rw [snd_checkAndStrip, Findings.rules_visits]
  exact List.nil_append _

/-- What a check raises is what is wrong with the calls that it meets. -/
theorem hasRaised_checkAndStrip (options : CheckOptions) (tokens : List Token) :
    (checkAndStrip options tokens).2.HasRaised options
    (faultsFrom options {} (visits options tokens)) := by
  have hnothing : Findings.HasRaised options {} [] := ⟨rfl, by rw [CheckOptions.kept]; simp⟩
  rw [snd_checkAndStrip]
  exact hnothing.visits (visits options tokens)

/-- A check passes when nothing is wrong with any call that it meets. -/
theorem failed_checkAndStrip_iff (options : CheckOptions) (tokens : List Token) :
    (checkAndStrip options tokens).2.failed = false ↔ ∀ past site future,
      visits options tokens = past ++ .meet site :: future →
        site.faults options (tagsAfter options {} past) = [] := by
  rw [(hasRaised_checkAndStrip options tokens).failed_eq_false_iff, List.eq_nil_iff_forall_not_mem]
  simp only [mem_faultsFrom, List.eq_nil_iff_forall_not_mem]
  constructor
  · intro h past site future heq d hd
    exact h d ⟨past, site, future, heq, hd⟩
  · rintro h d ⟨past, site, future, heq, hd⟩
    exact h past site future heq d hd

end TagScript
