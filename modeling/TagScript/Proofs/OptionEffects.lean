import TagScript.Proofs.TagRemoval

/-!
# What the options of a check change

Two checks of one tree are compared that differ in an option. How a block is treated depends on
whether rules are inherited, and on no other option and on nothing that was found before. Checks
that agree on this make the same visits, so they collect the same rules and leave the same tree.
Recording parameters can only change the types that are recorded and the faults that follow from
them, and a cap can only change how many of the raised diagnostics are kept.

If rules are inherited, some blocks are checked as calls that would be levels of their own
otherwise. A call that passes has neither blocks nor declaration tags in its content. Walked as a
level, this content yields nothing, so a script that passes with inherited rules passes without.
-/

namespace TagScript

open Token

section SameRules

variable {a b : CheckOptions}

/-- How a block is treated depends on whether rules are inherited only. -/
theorem Site.treatment_congr (h : a.inheritRules = b.inheritRules) (site : Site) :
    site.treatment a = site.treatment b := by
  rw [treatment, treatment, rule?, rule?, h]

mutual

/-- Which visits are made to a token depends on whether rules are inherited only. -/
theorem visitsToken_congr (h : a.inheritRules = b.inheritRules) (level : List Token)
    (outer : List (List Token)) (next : Option Token) :
    (t : Token) → visitsToken a level outer next t = visitsToken b level outer next t
  | .leaf .. => by rw [visitsToken, visitsToken]
  | .block _ children _ => by
    rw [visitsToken, visitsToken, Site.treatment_congr h,
      visitsTokens_congr h (children.map untag) (level :: outer) children]

/-- Which visits are made to tokens depends on whether rules are inherited only. -/
theorem visitsTokens_congr (h : a.inheritRules = b.inheritRules) (level : List Token)
    (outer : List (List Token)) : (ts : List Token) → visitsTokens a level outer ts =
      visitsTokens b level outer ts
  | [] => by rw [visitsTokens, visitsTokens]
  | t :: ts => by
    rw [visitsTokens, visitsTokens, visitsToken_congr h level outer _ t,
      visitsTokens_congr h level outer ts]

end

/-- Which visits a check makes depends on whether rules are inherited only. -/
theorem visits_congr (h : a.inheritRules = b.inheritRules) (tokens : List Token) :
    visits a tokens = visits b tokens := by
  rw [visits, visits, visitsTokens_congr h]

mutual

/-- What is left of a token depends on whether rules are inherited, and not on what was found
before. -/
theorem fst_checkToken_congr (h : a.inheritRules = b.inheritRules) (level : List Token)
    (outer : List (List Token)) (next : Option Token) : (t : Token) → (f g : Findings) →
    (checkToken a (scopeAt a level outer) (t.untag.declares next) f t).1 =
      (checkToken b (scopeAt b level outer) (t.untag.declares next) g t).1
  | .leaf .., f, g => by rw [checkToken, checkToken]
  | .block signature children offset, f, g => by
    rw [checkToken_site, checkToken_site, Site.treatment_congr h]
    generalize Site.treatment b _ = treatment
    cases treatment with
    | declaration => rfl
    | call rule => rfl
    | level =>
      dsimp only
      rw [fst_checkTokens_congr h (children.map untag) (level :: outer) children _
        (g.enter b children)]

/-- What is left of a level depends on whether rules are inherited, and not on what was found
before. -/
theorem fst_checkTokens_congr (h : a.inheritRules = b.inheritRules) (level : List Token)
    (outer : List (List Token)) : (ts : List Token) → (f g : Findings) →
    (checkTokens a (scopeAt a level outer) f ts).1 = (checkTokens b (scopeAt b level outer) g ts).1
  | [], f, g => by rw [checkTokens, checkTokens]
  | t :: ts, f, g => by
    rw [checkTokens, checkTokens]
    dsimp only
    rw [fst_checkToken_congr h level outer _ t f g, fst_checkTokens_congr h level outer ts]

end

/-- What a check leaves of a tree depends on whether rules are inherited only. -/
theorem fst_checkAndStrip_congr (h : a.inheritRules = b.inheritRules) (tokens : List Token) :
    (checkAndStrip a tokens).1 = (checkAndStrip b tokens).1 := by
  rw [checkAndStrip_eq, checkAndStrip_eq]
  exact fst_checkTokens_congr h (tokens.map untag) [] tokens _ _

/-- Which rules a check collects depends on whether rules are inherited only. -/
theorem rules_checkAndStrip_congr (h : a.inheritRules = b.inheritRules) (tokens : List Token) :
    (checkAndStrip a tokens).2.rules = (checkAndStrip b tokens).2.rules := by
  rw [rules_checkAndStrip, rules_checkAndStrip, visits_congr h]

/-- What is found when a level is entered depends on whether parameters are recorded only. -/
theorem Findings.enter_congr (h : a.tagParameters = b.tagParameters) (f : Findings)
    (level : List Token) :
    f.enter a level = f.enter b level := by
  rw [enter, enter, enterLevel, enterLevel, h]

/-- Which types visits record depends on whether parameters are recorded only. -/
theorem tagsAfter_congr (h : a.tagParameters = b.tagParameters) (tags : TagMap)
    (visits : List Visit) :
    tagsAfter a tags visits = tagsAfter b tags visits := by
  induction visits generalizing tags with
  | nil => rfl
  | cons visit visits ih =>
    have hrecord : visit.record a tags = visit.record b tags := by
      cases visit with
      | enter level => rw [Visit.record, Visit.record, h]
      | meet site => rfl
    exact (ih _).trans (congrArg (tagsAfter b · visits) hrecord)

/-- A cap has no part in what is wrong with calls. -/
theorem faultsFrom_congr (hinherit : a.inheritRules = b.inheritRules)
    (hparameters : a.tagParameters = b.tagParameters) (tags : TagMap) (visits : List Visit) :
    faultsFrom a tags visits = faultsFrom b tags visits := by
  induction visits generalizing tags with
  | nil => rfl
  | cons visit visits ih =>
    cases visit with
    | enter level => rw [faultsFrom, faultsFrom, ih, Visit.record, Visit.record, hparameters]
    | meet site =>
      rw [faultsFrom, faultsFrom, ih, Site.faults, Site.faults, Site.treatment_congr hinherit]

end SameRules

section Compile

variable {options : CompileOptions} {source : Bytes} {tokens : List Token}

/-- A cap keeps something of what was raised. -/
theorem CheckOptions.kept_eq_nil_iff (options : CheckOptions) (raised : List Diagnostic) :
    options.kept raised = [] ↔ raised = [] := by
  rw [kept]
  split
  next hcap =>
    rw [List.take_eq_nil_iff]
    apply or_iff_right
    omega
  next => rfl

/-- The diagnostics of a script that can be split are those that its check keeps, with their lines
and columns. -/
theorem diagnostics_compile_of_scan (h : scan (nestingLimit options.maxDepth) source = .ok tokens) :
    (compile options source).diagnostics =
      (checkAndStrip options.toCheckOptions tokens).2.diagnostics.map
      (Diagnostic.locate source) := by
  have hraised := hasRaised_checkAndStrip options.toCheckOptions tokens
  rw [compile, h]
  dsimp only
  split
  next => rfl
  next hpassed =>
    -- nothing was raised, so nothing is kept
    rw [Bool.not_eq_true, hraised.failed_eq_false_iff] at hpassed
    rw [hraised.kept, hpassed, (CheckOptions.kept_eq_nil_iff _ _).2 rfl]
    rfl

/-- A script that can be split fails if its check does. -/
theorem failed_compile_of_scan (h : scan (nestingLimit options.maxDepth) source = .ok tokens) :
    (compile options source).failed = (checkAndStrip options.toCheckOptions tokens).2.failed := by
  have hraised := hasRaised_checkAndStrip options.toCheckOptions tokens
  rw [Compiled.failed, diagnostics_compile_of_scan h, List.isEmpty_map,
    Bool.eq_iff_iff, Bool.not_eq_true', List.isEmpty_eq_false_iff,
    ← Bool.not_eq_false (Findings.failed _)]
  apply not_congr
  rw [hraised.kept, CheckOptions.kept_eq_nil_iff, hraised.failed_eq_false_iff]

end Compile

/-- With a cap a check finds the same and leaves the same tree, but keeps the first diagnostics
only. -/
theorem checkAndStrip_capped (capped full : CheckOptions)
    (hinherit : capped.inheritRules = full.inheritRules)
    (hparameters : capped.tagParameters = full.tagParameters) (hcap : 0 < capped.maxDiagnostics)
    (hfull : full.maxDiagnostics = 0) (tokens : List Token) :
    checkAndStrip capped tokens =
      ((checkAndStrip full tokens).1, { (checkAndStrip full tokens).2 with
        diagnostics :=
        (checkAndStrip full tokens).2.diagnostics.take capped.maxDiagnostics.toNat }) := by
  have hcapped := hasRaised_checkAndStrip capped tokens
  have hall := hasRaised_checkAndStrip full tokens
  rw [visits_congr hinherit, faultsFrom_congr hinherit hparameters] at hcapped
  apply Prod.ext
  · exact fst_checkAndStrip_congr hinherit tokens
  · apply Findings.ext
    · rw [tags_checkAndStrip, tags_checkAndStrip, visits_congr hinherit,
        tagsAfter_congr hparameters]
    · exact rules_checkAndStrip_congr hinherit tokens
    · have hnone : ¬ 0 < full.maxDiagnostics := by omega
      rw [hcapped.kept, hall.kept, CheckOptions.kept, if_pos hcap, CheckOptions.kept, if_neg hnone]
    · rw [hcapped.count, hall.count]

/-- A cap on diagnostics truncates them and does nothing else: of all that are reported without it
the first ones are, and apart from this compiling yields the same. In particular a script that fails
without the cap fails with it. -/
theorem compile_capped (options : CompileOptions) {cap : Int} (hcap : 0 < cap) (source : Bytes) :
    compile { options with maxDiagnostics := cap } source =
      { compile { options with maxDiagnostics := 0 } source with
        diagnostics :=
          (compile { options with maxDiagnostics := 0 } source).diagnostics.take cap.toNat } ∧
    (compile { options with maxDiagnostics := cap } source).failed =
      (compile { options with maxDiagnostics := 0 } source).failed := by
  have hcompile : compile { options with maxDiagnostics := cap } source =
      { compile { options with maxDiagnostics := 0 } source with
        diagnostics :=
          (compile { options with maxDiagnostics := 0 } source).diagnostics.take cap.toNat } := by
    rw [compile, compile]
    cases scan (nestingLimit options.maxDepth) source with
    | error e =>
      dsimp only
      rw [List.take_of_length_le]
      rw [List.length_singleton]
      omega
    | ok tokens =>
      dsimp only
      rw [checkAndStrip_capped { options.toCheckOptions with maxDiagnostics := cap }
        { options.toCheckOptions with maxDiagnostics := 0 } rfl rfl hcap rfl]
      generalize checkAndStrip _ tokens = checked
      dsimp only [Findings.failed]
      by_cases hraised : 0 < checked.2.raised
      · simp only [hraised, decide_true, if_true, List.map_take]
      · simp only [hraised, decide_false, Bool.false_eq_true, if_false, List.take_nil]
  refine ⟨hcompile, ?_⟩
  rw [hcompile, Compiled.failed, Compiled.failed, Bool.eq_iff_iff]
  simp only [Bool.not_eq_true', List.isEmpty_eq_false_iff, ne_eq, List.take_eq_nil_iff]
  apply not_congr
  apply or_iff_right
  omega

/-- Two calls without tagged variables: the first fault is reported, and the second one is only
counted. -/
theorem compile_capped_calls :
    (compile { maxDiagnostics := 1 } "function f(a|N)\x7b\x7d;f(1);f(2)").diagnostics.length = 1 ∧
    (compile {} "function f(a|N)\x7b\x7d;f(1);f(2)").diagnostics.length = 2 ∧
    (compile { maxDiagnostics := 1 } "function f(a|N)\x7b\x7d;f(1);f(2)").diagnostics =
      (compile {} "function f(a|N)\x7b\x7d;f(1);f(2)").diagnostics.take 1 ∧
    (compile { maxDiagnostics := 1 } "function f(a|N)\x7b\x7d;f(1);f(2)").failed = true := by
  have hcapped := compile_capped {} (by decide : (0 : Int) < 1) "function f(a|N)\x7b\x7d;f(1);f(2)"
  have hall : (compile {} "function f(a|N)\x7b\x7d;f(1);f(2)").failed = true := by decide +kernel
  refine ⟨by decide +kernel, by decide +kernel, congrArg Compiled.diagnostics hcapped.1,
    hcapped.2.trans hall⟩

/-- Recording parameters has no part in what is written. Checks that differ in that leave the same
tree and collect the same rules, whether or not they pass, so if a script is compiled either way the
outputs are equal. -/
theorem checkAndStrip_tagParameters (options : CompileOptions) (a b : Bool) :
    (∀ tokens,
      (checkAndStrip { options.toCheckOptions with tagParameters := a } tokens).1 =
        (checkAndStrip { options.toCheckOptions with tagParameters := b } tokens).1 ∧
      (checkAndStrip { options.toCheckOptions with tagParameters := a } tokens).2.rules =
        (checkAndStrip { options.toCheckOptions with tagParameters := b } tokens).2.rules) ∧
    ∀ source, (compile { options with tagParameters := a } source).failed = false →
      (compile { options with tagParameters := b } source).failed = false →
      (compile { options with tagParameters := a } source).output =
        (compile { options with tagParameters := b } source).output := by
  have htree : ∀ tokens,
      (checkAndStrip { options.toCheckOptions with tagParameters := a } tokens).1 =
      (checkAndStrip { options.toCheckOptions with tagParameters := b } tokens).1 := by
    intro tokens
    apply fst_checkAndStrip_congr
    rfl
  constructor
  · intro tokens
    refine ⟨htree tokens, ?_⟩
    apply rules_checkAndStrip_congr
    rfl
  · intro source hfirst hsecond
    cases hscan : scan (nestingLimit options.maxDepth) source with
    | error e =>
      rw [compile, hscan] at hfirst
      exact Bool.noConfusion hfirst
    | ok tokens =>
      have hscanFirst : scan (nestingLimit { options with tagParameters := a }.maxDepth) source =
          .ok tokens := hscan
      have hscanSecond : scan (nestingLimit { options with tagParameters := b }.maxDepth) source =
          .ok tokens := hscan
      rw [failed_compile_of_scan hscanFirst] at hfirst
      rw [failed_compile_of_scan hscanSecond] at hsecond
      rw [output_compile_of_scan hscanFirst, output_compile_of_scan hscanSecond, hfirst, hsecond]
      exact congrArg render (htree tokens)

/-- A script that passes either way: the parameter is recorded once more, and the output is the
same. -/
theorem checkAndStrip_tagParameters_call :
    (compile { tagParameters := true } "function f(a|N)\x7b\x7d;let x : N = 1;f(x)").failed =
      false ∧
    (compile {} "function f(a|N)\x7b\x7d;let x : N = 1;f(x)").failed = false ∧
    (compile { tagParameters := true } "function f(a|N)\x7b\x7d;let x : N = 1;f(x)").tags =
      some ⟨[("a", "N"), ("x", "N")]⟩ ∧
    (compile {} "function f(a|N)\x7b\x7d;let x : N = 1;f(x)").tags = some ⟨[("x", "N")]⟩ ∧
    (compile { tagParameters := true } "function f(a|N)\x7b\x7d;let x : N = 1;f(x)").output =
      (compile {} "function f(a|N)\x7b\x7d;let x : N = 1;f(x)").output := by
  have hrecorded :
      (compile { tagParameters := true } "function f(a|N)\x7b\x7d;let x : N = 1;f(x)").failed =
      false := by
    decide +kernel
  have hplain : (compile {} "function f(a|N)\x7b\x7d;let x : N = 1;f(x)").failed = false := by
    decide +kernel
  exact ⟨hrecorded, hplain, by decide +kernel, by decide +kernel,
    (checkAndStrip_tagParameters {} true false).2 _ hrecorded hplain⟩

section Inherit

/-- Leaves without declaration tags have nothing to strip. -/
theorem Token.settledAll_of_leaves {ts : List Token} (hleaves : ∀ t ∈ ts, t.isBlock = false)
    (htags : ∀ t ∈ ts, Tag.parse? t.head = none) : settledAll ts = true := by
  induction ts with
  | nil => rfl
  | cons t ts ih =>
    rw [List.forall_mem_cons] at hleaves htags
    cases t with
    | leaf text offset =>
      rw [settledAll, settled, ih hleaves.2 htags.2, Bool.and_true, Option.isNone_iff_eq_none]
      exact htags.1
    | block signature children offset => exact Bool.noConfusion hleaves.1

/-- The content of a call that passes, walked as a level of its own, is left as it is, and nothing
is found in it. -/
theorem checkTokens_of_callFaults_eq_nil {options : CheckOptions}
    (hinherit : options.inheritRules = false) {tags : TagMap} {callee : Bytes} {rule : Rule}
    {content : List Token} {offset : Nat}
    (h : callFaults tags callee rule content offset = []) (outer : List (List Token))
    (f : Findings) :
    checkTokens options (scopeAt options (content.map untag) outer)
      (f.enter options content) content =
      (content, f) := by
  have hleaves := (callFaults_eq_nil_iff.1 h).1
  have htags := parse?_of_callFaults_eq_nil h
  rw [all_of_leaves hleaves] at htags
  have hsettled := settledAll_of_leaves hleaves htags
  have hrules := declaredRules_eq_nil htags (level_of_settledAll hsettled).2
  obtain ⟨inner, henter, hquiet⟩ := enterLevel_eq Scope.quiet_nil htags hrules options f
  rw [enterLevel_nil, Prod.mk.injEq] at henter
  have hscope : scopeAt options (content.map untag) outer = inner := by
    rw [← henter.1, scopeAt, scopeAt, hinherit]
    rfl
  rw [hscope, henter.2]
  exact checkTokens_of_settled hquiet f content hsettled

namespace Site

/-- The rule of an enclosing level that the block is held against if its own level has none of its
name. -/
def inherited? (site : Site) : Option Rule :=
  match levelRule? site.level (callName site.signature) with
  | some _ => none
  | none => site.outer.findSome? (levelRule? · (callName site.signature))

/-- Whether the block declares nothing, but its content is that of the declaration of an inherited
rule. -/
def repeatsInherited (site : Site) : Bool :=
  !site.declares && site.inherited?.any fun rule => sameAll site.content rule.declaration

variable {on off : CheckOptions}

/-- What inheriting rules changes for a block that repeats no inherited declaration: it may become a
call. -/
theorem treatment_inherit (hon : on.inheritRules = true)
    (hoff : off.inheritRules = false) {site : Site} (h : site.repeatsInherited = false) :
    site.treatment off = site.treatment on ∨
      ∃ rule, site.treatment on = .call rule ∧ site.treatment off = .level := by
  rw [treatment, treatment, rule?, rule?, hon, hoff, if_pos rfl, if_neg Bool.false_ne_true,
    Option.or_none]
  rw [repeatsInherited, inherited?] at h
  cases hdeclares : site.declares with
  | true => exact .inl rfl
  | false =>
    cases hown : levelRule? site.level (callName site.signature) with
    | some rule => exact .inl rfl
    | none =>
      cases houter : site.outer.findSome? (levelRule? · (callName site.signature)) with
      | none => exact .inl rfl
      | some rule =>
        have hdiffers : sameAll site.content rule.declaration = false := by
          simpa [hdeclares, hown, houter] using h
        apply Or.inr
        refine ⟨rule, ?_, rfl⟩
        simp [hdiffers]

end Site

variable {on off : CheckOptions}

mutual

/-- A token in which nothing is wrong with inherited rules is treated in the same way without. -/
theorem checkToken_inherit (hon : on.inheritRules = true) (hoff : off.inheritRules = false)
    (hparameters : off.tagParameters = on.tagParameters) (level : List Token)
    (outer : List (List Token)) (next : Option Token) : (t : Token) → (f : Findings) →
    (∀ site, .meet site ∈ visitsToken on level outer next t → site.repeatsInherited = false) →
    faultsFrom on f.tags (visitsToken on level outer next t) = [] →
    checkToken off (scopeAt off level outer) (t.untag.declares next) f t =
      checkToken on (scopeAt on level outer) (t.untag.declares next) f t
  | .leaf .., f, _, _ => by rw [checkToken, checkToken]
  | .block signature children offset, f, hrepeats, hfaults => by
    rw [visitsToken] at hrepeats hfaults
    rw [faultsFrom, List.append_eq_nil_iff, Site.faults] at hfaults
    rw [checkToken_site, checkToken_site]
    rcases Site.treatment_inherit hon hoff (hrepeats _ (List.mem_cons_self ..))
      with hsame | ⟨rule, hcall, hlevel⟩
    · rw [hsame]
      revert hrepeats hfaults
      generalize Site.treatment on _ = treatment
      cases treatment with
      | declaration => intros; rfl
      | call rule =>
        intro _ hfaults
        dsimp only at hfaults ⊢
        rw [hfaults.1]
        rfl
      | level =>
        intro hrepeats hfaults
        dsimp only at hfaults ⊢
        have hinside :=
          checkTokens_inherit hon hoff hparameters (children.map untag) (level :: outer) children
          (f.enter on children) (fun site hsite => hrepeats site (by simp [hsite])) hfaults.2
        rw [Findings.enter_congr hparameters, hinside]
    · rw [hcall] at hfaults
      rw [hcall, hlevel]
      dsimp only at hfaults ⊢
      rw [checkTokens_of_callFaults_eq_nil hoff hfaults.1, hfaults.1]
      rfl

/-- A level in which nothing is wrong with inherited rules is treated in the same way without. -/
theorem checkTokens_inherit (hon : on.inheritRules = true) (hoff : off.inheritRules = false)
    (hparameters : off.tagParameters = on.tagParameters) (level : List Token)
    (outer : List (List Token)) :
    (ts : List Token) → (f : Findings) →
    (∀ site, .meet site ∈ visitsTokens on level outer ts → site.repeatsInherited = false) →
    faultsFrom on f.tags (visitsTokens on level outer ts) = [] →
    checkTokens off (scopeAt off level outer) f ts = checkTokens on (scopeAt on level outer) f ts
  | [], f, _, _ => by rw [checkTokens, checkTokens]
  | t :: ts, f, hrepeats, hfaults => by
    rw [visitsTokens] at hrepeats hfaults
    rw [faultsFrom_append, List.append_eq_nil_iff] at hfaults
    have hfirst := checkToken_inherit hon hoff hparameters level outer (ts.head?.map untag) t f
      (fun site hsite => hrepeats site (List.mem_append_left _ hsite)) hfaults.1
    have htags :
        (checkToken on (scopeAt on level outer)
          (t.untag.declares (ts.head?.map untag)) f t).2.tags =
        tagsAfter on f.tags (visitsToken on level outer (ts.head?.map untag) t) := by
      rw [snd_checkToken, Findings.tags_visits]
    rw [← htags] at hfaults
    rw [checkTokens, checkTokens]
    dsimp only
    rw [hfirst, checkTokens_inherit hon hoff hparameters level outer ts _
      (fun site hsite => hrepeats site (List.mem_append_right _ hsite)) hfaults.2]

end

end Inherit

/-- Inheriting rules only adds checks. If a check passes with inherited rules, and no block that
declares nothing repeats the declaration of an inherited rule, it passes without them as well,
leaves the same tree, records the same types and collects the same rules. -/
theorem checkAndStrip_inheritRules (options : CheckOptions) (tokens : List Token)
    (hpasses : (checkAndStrip { options with inheritRules := true } tokens).2.failed = false)
    (hrepeats : ∀ site, .meet site ∈ visits { options with inheritRules := true } tokens →
      site.repeatsInherited = false) :
    (checkAndStrip { options with inheritRules := false } tokens).2.failed = false ∧
    (checkAndStrip { options with inheritRules := false } tokens).1 =
      (checkAndStrip { options with inheritRules := true } tokens).1 ∧
    (checkAndStrip { options with inheritRules := false } tokens).2.tags =
      (checkAndStrip { options with inheritRules := true } tokens).2.tags ∧
    (checkAndStrip { options with inheritRules := false } tokens).2.rules =
      (checkAndStrip { options with inheritRules := true } tokens).2.rules := by
  have hfaults :=
    (hasRaised_checkAndStrip { options with inheritRules := true } tokens).failed_eq_false_iff.1
    hpasses
  have hsame : checkAndStrip { options with inheritRules := false } tokens =
      checkAndStrip { options with inheritRules := true } tokens := by
    rw [checkAndStrip_eq, checkAndStrip_eq]
    apply checkTokens_inherit
    · rfl
    · rfl
    · rfl
    · exact fun site hsite => hrepeats site (List.mem_cons_of_mem _ hsite)
    · exact hfaults
  rw [hsame]
  exact ⟨hpasses, rfl, rfl, rfl⟩

/-- A call inside a block of a rule declared outside: with inherited rules it is checked and passes,
and without them its content is a level on which nothing is found. -/
theorem checkAndStrip_inheritRules_call : ∃ tokens,
    tokenize "function f(a|N)\x7b\x7d;let x : N = 1;\x7bf(x)\x7d" = .ok tokens ∧
    visits { inheritRules := true } tokens ≠ visits {} tokens ∧
    (checkAndStrip { inheritRules := true } tokens).2.failed = false ∧
    (∀ site, .meet site ∈ visits { inheritRules := true } tokens → site.repeatsInherited = false) ∧
    (checkAndStrip {} tokens).2.failed = false ∧
    (checkAndStrip {} tokens).1 = (checkAndStrip { inheritRules := true } tokens).1 ∧
    (checkAndStrip {} tokens).2.tags = (checkAndStrip { inheritRules := true } tokens).2.tags ∧
    (checkAndStrip {} tokens).2.rules =
    (checkAndStrip { inheritRules := true } tokens).2.rules := by
  have hscan : tokenize "function f(a|N)\x7b\x7d;let x : N = 1;\x7bf(x)\x7d" =
      .ok [.block "function f(" [.leaf "a|N" 11] 0, .block "\x7b" [] 15, .leaf "let x : N = 1" 18,
        .block "\x7b" [.block "f(" [.leaf "x" 35] 33] 32] := by decide +kernel
  have hpasses :
      (checkAndStrip { inheritRules := true }
        [.block "function f(" [.leaf "a|N" 11] 0, .block "\x7b" [] 15,
          .leaf "let x : N = 1" 18, .block "\x7b" [.block "f(" [.leaf "x" 35] 33] 32]).2.failed =
      false := by decide +kernel
  have hrepeats :
      ∀ visit ∈ visits { inheritRules := true } [.block "function f(" [.leaf "a|N" 11] 0,
        .block "\x7b" [] 15, .leaf "let x : N = 1" 18,
        .block "\x7b" [.block "f(" [.leaf "x" 35] 33] 32],
      visit.casesOn (motive := fun _ => Bool) (fun _ => false) Site.repeatsInherited = false := by
      decide +kernel
  exact ⟨_, hscan, by decide +kernel, hpasses, fun site => hrepeats (.meet site),
    checkAndStrip_inheritRules {} _ hpasses fun site => hrepeats (.meet site)⟩

end TagScript
