import TagScript.Proofs.BuildOrder
import TagScript.Proofs.OpenDocuments
import TagScript.Proofs.RecordingOrder

/-!
# What completion offers

A document offers the names that were recorded and the rules that were collected, each name once and
in order. The rules come level by level, with those of the script itself first. Sorting them keeps
those of one name as they are, and of these the first is shown.

A call is held against the last rule of its name on its level. So what is shown for a name that the
script itself declares is what its calls are held against just when the first and the last
declaration of the name read alike.
-/

namespace TagScript

open Token

/-- Strict bytewise order is the strict order of lists. -/
theorem Bytes.lt_iff (a b : Bytes) : Bytes.lt a b = true ↔ a < b := by
  rw [Bytes.lt, Bool.not_eq_true', ← Bool.not_eq_true, Bytes.le_iff, List.not_le]

/-- Texts in order that differ are in strict order. -/
theorem Bytes.lt_of_le_of_ne {a b : Bytes} (hle : a ≤ b) (hne : a ≠ b) : a < b := by
  rw [← List.not_le]
  exact fun hge => hne (List.le_antisymm hle hge)

namespace TagMap

/-- The names of bindings, each once and in order. -/
def Ordered (bindings : List (Bytes × Bytes)) : Prop := (bindings.map Prod.fst).Pairwise (· < ·)

/-- A binding is put in its place. -/
theorem Ordered.insert {bindings : List (Bytes × Bytes)} (h : Ordered bindings)
    (name type : Bytes) :
    Ordered (insert name type bindings) := by
  fun_induction TagMap.insert name type bindings with
  | case1 => exact List.pairwise_singleton _ _
  | case2 t rest => exact h
  | case3 n t rest hne hle =>
    rw [Bytes.le_iff] at hle
    have hlt : name < n := Bytes.lt_of_le_of_ne hle (Ne.symm hne)
    refine List.pairwise_cons.2 ⟨fun other hother => ?_, h⟩
    rcases List.mem_cons.1 hother with rfl | hother
    · exact hlt
    · exact List.lt_trans hlt ((List.pairwise_cons.1 h).1 other hother)
  | case4 n t rest hne hle ih =>
    rw [Bytes.le_iff, List.not_le] at hle
    obtain ⟨hfirst, hrest⟩ := List.pairwise_cons.1 h
    refine List.pairwise_cons.2 ⟨fun other hother => ?_, ih hrest⟩
    obtain ⟨value, hvalue⟩ := KeyedList.mem_keys_iff.1 hother
    rw [lookup_insert] at hvalue
    split at hvalue
    next heq => exact heq ▸ hle
    next => exact hfirst other (KeyedList.mem_keys_iff.2 ⟨value, hvalue⟩)

/-- Recorded tags are in order. -/
theorem ordered_foldl_define (tags : List Tag) {map : TagMap} (h : Ordered map.bindings) :
    Ordered (tags.foldl (fun map tag => map.define tag.name tag.type) map).bindings := by
  induction tags generalizing map with
  | nil => exact h
  | cons tag tags ih => exact ih (h.insert tag.name tag.type.trim)

end TagMap

namespace Completion

/-- The order in which rules are offered. -/
def ruleLe (a b : Rule) : Bool := Bytes.le a.name b.name

/-- The order of rules is transitive. -/
theorem ruleLe_trans (a b c : Rule) (hab : ruleLe a b = true) (hbc : ruleLe b c = true) :
    ruleLe a c = true := by
  rw [ruleLe, Bytes.le_iff] at hab hbc ⊢
  exact List.le_trans hab hbc

/-- Any two rules are in order one way or the other. -/
theorem ruleLe_total (a b : Rule) : (ruleLe a b || ruleLe b a) = true := by
  rw [ruleLe, ruleLe, Bool.or_eq_true, Bytes.le_iff, Bytes.le_iff]
  exact List.le_total _ _

/-- Sorting does not change which rule of a name comes first. -/
theorem find?_mergeSort (rules : List Rule) (name : Bytes) :
    (rules.mergeSort ruleLe).find? (·.name = name) = rules.find? (·.name = name) := by
  have hsame : (rules.filter (·.name = name)).Pairwise fun a b => ruleLe a b = true := by
    refine List.pairwise_of_forall_mem_list fun a ha b hb => ?_
    have hname : a.name = b.name := by simp_all
    rw [ruleLe, hname, Bytes.le_iff]
    exact List.le_refl _
  -- the rules of the name keep their order, and sorting adds none to them
  have hsublist : (rules.filter (·.name = name)).Sublist
      ((rules.mergeSort ruleLe).filter (·.name = name)) := by
    simpa using (List.sublist_mergeSort ruleLe_trans ruleLe_total hsame List.filter_sublist).filter
      (·.name = name)
  have hlength := ((List.mergeSort_perm rules ruleLe).filter (·.name = name)).length_eq
  rw [← List.head?_filter, ← List.head?_filter, hsublist.eq_of_length hlength.symm]

/-- Of sorted rules the first one of each name is kept. -/
theorem firstOfEachName_spec {rules : List Rule} (h : rules.Pairwise fun a b => ruleLe a b = true) :
    ((firstOfEachName rules).map Rule.name).Pairwise (· < ·) ∧
      ∀ rule, rule ∈ firstOfEachName rules ↔ rules.find? (·.name = rule.name) = some rule := by
  fun_induction firstOfEachName rules with
  | case1 => exact ⟨.nil, fun rule => by simp⟩
  | case2 rule =>
    refine ⟨List.pairwise_singleton _ _, fun other => ?_⟩
    rw [List.mem_singleton, List.find?_cons, List.find?_nil]
    by_cases hname : rule.name = other.name
    · simp [hname, eq_comm]
    · have hother : other ≠ rule := fun heq => hname (heq ▸ rfl)
      simp [hname, hother]
  | case3 rule next rest heq ih =>
    obtain ⟨hsorted, hmem⟩ := ih (h.sublist (.cons_cons _ (.cons _ (List.Sublist.refl _))))
    refine ⟨hsorted, fun other => (hmem other).trans ?_⟩
    rw [List.find?_cons, List.find?_cons, List.find?_cons, heq]
    split <;> rfl
  | case4 rule next rest hne ih =>
    obtain ⟨hfirst, hrest⟩ := List.pairwise_cons.1 h
    obtain ⟨hsorted, hmem⟩ := ih hrest
    have hbehind : ∀ other ∈ next :: rest, rule.name < other.name := by
      have hnext : rule.name < next.name :=
        Bytes.lt_of_le_of_ne ((Bytes.le_iff _ _).1 (hfirst next List.mem_cons_self)) hne
      intro other hother
      rcases List.mem_cons.1 hother with rfl | hother
      · exact hnext
      · have hle := (Bytes.le_iff _ _).1 ((List.pairwise_cons.1 hrest).1 other hother)
        rw [← List.not_le] at hnext ⊢
        exact fun hge => hnext (List.le_trans hle hge)
    have hkept : ∀ other ∈ firstOfEachName (next :: rest), other ∈ next :: rest :=
        fun other hother => List.mem_of_find?_eq_some ((hmem other).1 hother)
    refine ⟨List.pairwise_cons.2 ⟨fun name hname => ?_, hsorted⟩, fun other => ?_⟩
    · obtain ⟨other, hother, rfl⟩ := List.mem_map.1 hname
      exact hbehind other (hkept other hother)
    · rw [List.mem_cons, List.find?_cons, hmem]
      by_cases hname : rule.name = other.name
      · have hnot : (next :: rest).find? (·.name = other.name) ≠ some other := fun hfind =>
          List.lt_irrefl _ (hname ▸ hbehind other (List.mem_of_find?_eq_some hfind))
        rw [decide_eq_true hname]
        exact (or_iff_left hnot).trans
          ⟨fun heq => congrArg some heq.symm, fun heq => (Option.some.inj heq).symm⟩
      · have hother : other ≠ rule := fun heq => hname (heq ▸ rfl)
        simp [hname, hother]

end Completion

/-- Items of one kind that offer each of some names once and in order. -/
structure Offers (items : List Completion) (kind : CompletionKind)
    (isName : Bytes → Prop) : Prop where
  kinds : ∀ item ∈ items, item.kind = kind
  sorted : (items.map Completion.label).Pairwise fun a b => Bytes.lt a b = true
  names : ∀ name, name ∈ items.map Completion.label ↔ isName name

namespace Completion

/-- The items for recorded types. -/
def taggedItems (tags : TagMap) : List Completion :=
  tags.names.map fun name => ⟨name, .variable, (tags.lookup? name).getD []⟩

/-- The items for collected rules. -/
def ruleItems (rules : List Rule) : List Completion :=
  (firstOfEachName (rules.mergeSort ruleLe)).map fun rule =>
    ⟨rule.name, .function, parametersText rule⟩

/-- Recorded types are offered by their names. -/
theorem offers_taggedItems {tags : TagMap} (h : TagMap.Ordered tags.bindings) :
    Offers (taggedItems tags) .variable fun name => ∃ type,
      tags.bindings.lookup name = some type := by
  have hlabels : (taggedItems tags).map Completion.label = tags.bindings.map Prod.fst := by
    simp [taggedItems, TagMap.names]
  refine ⟨fun item hitem => ?_, ?_, fun name => ?_⟩
  · obtain ⟨name, -, rfl⟩ := List.mem_map.1 hitem
    rfl
  · rw [hlabels]
    exact List.Pairwise.imp (fun hlt => (Bytes.lt_iff _ _).2 hlt) h
  · rw [hlabels, KeyedList.mem_keys_iff]

/-- For each name of a rule the first one is offered. -/
theorem mem_ruleItems {rules : List Rule} {item : Completion} : item ∈ ruleItems rules ↔
    ∃ rule, rules.find? (·.name = item.label) = some rule ∧
      item = ⟨rule.name, .function, parametersText rule⟩ := by
  have hspec := (firstOfEachName_spec (List.pairwise_mergeSort ruleLe_trans ruleLe_total rules)).2
  rw [ruleItems, List.mem_map]
  constructor
  · rintro ⟨rule, hrule, rfl⟩
    exact ⟨rule, find?_mergeSort rules rule.name ▸ (hspec rule).1 hrule, rfl⟩
  · rintro ⟨rule, hfind, rfl⟩
    exact ⟨rule, (hspec rule).2 ((find?_mergeSort rules rule.name).trans hfind), rfl⟩

/-- Rules are offered by their names. -/
theorem offers_ruleItems (rules : List Rule) :
    Offers (ruleItems rules) .function fun name => ∃ rule ∈ rules, rule.name = name := by
  have hsorted := (firstOfEachName_spec (List.pairwise_mergeSort ruleLe_trans ruleLe_total rules)).1
  refine ⟨fun item hitem => ?_, ?_, fun name => ?_⟩
  · obtain ⟨rule, -, rfl⟩ := mem_ruleItems.1 hitem
    rfl
  · rw [ruleItems, List.map_map]
    exact List.Pairwise.imp (fun hlt => (Bytes.lt_iff _ _).2 hlt) hsorted
  · rw [List.mem_map]
    constructor
    · rintro ⟨item, hitem, rfl⟩
      obtain ⟨rule, hfind, rfl⟩ := mem_ruleItems.1 hitem
      exact ⟨rule, List.mem_of_find?_eq_some hfind, rfl⟩
    · rintro ⟨rule, hrule, rfl⟩
      have hsome : (rules.find? (·.name = rule.name)).isSome = true :=
        List.find?_isSome.2 ⟨rule, hrule, by simp⟩
      obtain ⟨first, hfirst⟩ := Option.isSome_iff_exists.1 hsome
      have hname : first.name = rule.name := by simpa using List.find?_some hfirst
      exact ⟨⟨first.name, .function, parametersText first⟩,
        mem_ruleItems.2 ⟨first, hname ▸ hfirst, rfl⟩, hname⟩

end Completion

/-- A text that can be split is recorded and collected from whether or not it passes the check. -/
theorem compile_of_scan {options : CompileOptions} {text : Bytes} {tokens : List Token}
    (h : scan (nestingLimit options.maxDepth) text = .ok tokens) :
    (compile options text).tags = some (checkAndStrip options.toCheckOptions tokens).2.tags ∧
      (compile options text).rules = (checkAndStrip options.toCheckOptions tokens).2.rules := by
  rw [compile, h]
  dsimp only
  split <;> exact ⟨rfl, rfl⟩

/-- A document with a text that can be split offers what the check of this text has found. -/
theorem Workspace.completions_update {w : Workspace} {text : Bytes} {tokens : List Token}
    (h : scan (nestingLimit w.options.maxDepth) text = .ok tokens) (path : Bytes) :
    (w.update path text).1.completions path =
      Completion.taggedItems (checkAndStrip w.options.toCheckOptions tokens).2.tags ++
        Completion.ruleItems (checkAndStrip w.options.toCheckOptions tokens).2.rules := by
  obtain ⟨htags, hrules⟩ := compile_of_scan h
  rw [completions, result?_update, if_pos rfl, compiled_of_tags htags]
  simp only [Completion.ofCompiled, htags, hrules]
  rfl

/-- What a call on the level of the script itself is held against is the last rule of its name
there. -/
theorem lookup?_enterLevel (options : CheckOptions) (tokens : List Token)
    (f : Findings) (name : Bytes) :
    (enterLevel options [] tokens f).1.lookup? name = levelRule? (tokens.map untag) name := by
  rw [enterLevel_nil, scopeAt, Scope.lookup?, List.map_nil, ite_self, List.findSome?_cons,
    RuleTable.find?_ofRules, ← levelRule?]
  cases name with
  | nil => exact (levelRule?_nil _).symm
  | cons c name =>
    rw [if_neg (by simp)]
    cases levelRule? (tokens.map untag) (c :: name) with
    | none => rfl
    | some rule => rfl

/-- A name has a recorded type when a tagged declaration of it is recorded. -/
theorem exists_recordedType?_iff (options : CheckOptions) (tokens : List Token) (name : Bytes) :
    (∃ type, (recordedDeclarations options tokens name).getLast?.bind recordedType? = some type) ↔
      ∃ t ∈ enteredTokens (visits options tokens), t.tagsName name = true := by
  constructor
  · rintro ⟨type, htype⟩
    obtain ⟨last, hlast, -⟩ := Option.bind_eq_some_iff.1 htype
    exact ⟨last, List.mem_filter.1 (List.mem_of_getLast? hlast)⟩
  · rintro ⟨t, ht, htags⟩
    have hne : recordedDeclarations options tokens name ≠ [] :=
      List.ne_nil_of_mem (List.mem_filter.2 ⟨ht, htags⟩)
    obtain ⟨last, hlast⟩ := Option.isSome_iff_exists.1 (List.getLast?_isSome.2 hne)
    have hnames := (List.mem_filter.1 (List.mem_of_getLast? hlast)).2
    obtain ⟨tag, htag, -⟩ := (Option.any_eq_true ..).1 hnames
    exact ⟨tag.type.trim, by rw [hlast, Option.bind_some, recordedType?, htag, Option.map_some]⟩

/-- Of the rules that a check collects, the first one of a name that the script itself declares is
one of the script itself. -/
theorem find?_rules_visits (options : CheckOptions) {tokens : List Token}
    {name : Bytes} {rule : Rule} (h : levelRule? (tokens.map untag) name = some rule) :
    ∃ first, (declaredRules (tokens.map untag)).find? (·.name = name) = some first ∧
      ((visits options tokens).flatMap Visit.rules).find? (·.name = name) = some first := by
  obtain ⟨hname, hmem⟩ := rule_of_levelRule? h
  have hsome : ((declaredRules (tokens.map untag)).find? (·.name = name)).isSome = true :=
    List.find?_isSome.2 ⟨rule, hmem, by simpa using hname⟩
  obtain ⟨first, hfirst⟩ := Option.isSome_iff_exists.1 hsome
  refine ⟨first, hfirst, ?_⟩
  rw [visits, List.flatMap_cons, Visit.rules, List.find?_append, hfirst, Option.some_or]

/-- Completion offers each recorded name once and each name of a rule once, both in order, and a
recorded name with the type of its last recorded declaration. Where the script itself declares rules
of a name, the one that calls in the script itself are held against is shown just when the first of
these rules reads like it. -/
theorem completions_show_enforced_iff {w : Workspace}
    (hparameters : w.options.tagParameters = false) {text : Bytes} {tokens : List Token}
    (hscan : scan (nestingLimit w.options.maxDepth) text = .ok tokens) (path : Bytes) :
    ∃ tagged declared, (w.update path text).1.completions path = tagged ++ declared ∧
      Offers tagged .variable (fun name =>
        ∃ t ∈ enteredTokens (visits w.options.toCheckOptions tokens), t.tagsName name = true) ∧
      (∀ item ∈ tagged, item.detail =
        ((recordedDeclarations w.options.toCheckOptions tokens item.label).getLast?.bind
          recordedType?).getD []) ∧
      Offers declared .function (fun name =>
        ∃ rule ∈ (visits w.options.toCheckOptions tokens).flatMap Visit.rules, rule.name = name) ∧
      ∀ name rule, (enterLevel w.options.toCheckOptions [] tokens {}).1.lookup? name = some rule →
        (⟨name, .function, Completion.parametersText rule⟩ ∈ declared ↔
          ((declaredRules (tokens.map untag)).find? (·.name = name)).map Completion.parametersText =
            some (Completion.parametersText rule)) := by
  have hlookup := lookup_tags_checkAndStrip hparameters tokens
  have hrules := rules_checkAndStrip w.options.toCheckOptions tokens
  have hordered : TagMap.Ordered
      (checkAndStrip w.options.toCheckOptions tokens).2.tags.bindings := by
    rw [tags_checkAndStrip, tagsAfter_eq hparameters]
    exact TagMap.ordered_foldl_define _ List.Pairwise.nil
  have htagged := Completion.offers_taggedItems hordered
  refine ⟨_, _, Workspace.completions_update hscan path, { htagged with names := fun name => ?_ },
    fun item hitem => ?_, hrules ▸ Completion.offers_ruleItems _, fun name rule hrule => ?_⟩
  · rw [htagged.names, hlookup]
    exact exists_recordedType?_iff ..
  · obtain ⟨name, -, rfl⟩ := List.mem_map.1 hitem
    rw [TagMap.lookup?, hlookup]
    cases (recordedDeclarations w.options.toCheckOptions tokens name).getLast?.bind
      recordedType? with
    | none => rfl
    | some type => cases type <;> rfl
  · rw [lookup?_enterLevel] at hrule
    obtain ⟨first, hfirst, hcollected⟩ := find?_rules_visits w.options.toCheckOptions hrule
    have hname : first.name = name := by simpa using List.find?_some hfirst
    rw [hrules, Completion.mem_ruleItems, hfirst, hcollected]
    simp [hname, eq_comm]

/-- A name that the script itself declares once and a block declares again: shown is the rule of the
script itself. -/
theorem completions_show_enforced_nested : ∃ tokens rule,
    scan (nestingLimit 0) "function f(a|N) \x7b\nfunction f(b|M) \x7b\x7d\x7d" = .ok tokens ∧
    (enterLevel {} [] tokens {}).1.lookup? "f" = some rule ∧
    Completion.parametersText rule = "(a|N)" ∧
    ⟨"f", .function, Completion.parametersText rule⟩ ∈
      (({} : Workspace).update "/a"
        "function f(a|N) \x7b\nfunction f(b|M) \x7b\x7d\x7d").1.completions "/a" := by
  have hscan : scan (nestingLimit 0) "function f(a|N) \x7b\nfunction f(b|M) \x7b\x7d\x7d" =
      .ok [.block "function f(" [.leaf "a|N" 11] 0,
        .block "\x7b" [.block "function f(" [.leaf "b|M" 29] 18, .block "\x7b" [] 34] 16] := by
        decide +kernel
  obtain ⟨tagged, declared, hitems, -, -, -, hshown⟩ :=
    completions_show_enforced_iff (w := {}) rfl hscan "/a"
  have hrule : (enterLevel {} [] [.block "function f(" [.leaf "a|N" 11] 0,
      .block "\x7b" [.block "function f(" [.leaf "b|M" 29] 18, .block "\x7b" [] 34] 16]
      {}).1.lookup? "f" =
        some ⟨"f", [⟨"a", "N"⟩], [.leaf "a|N" 11], 0⟩ := by decide +kernel
  refine ⟨_, _, hscan, hrule, by decide +kernel, ?_⟩
  rw [hitems]
  exact List.mem_append_right _ ((hshown _ _ hrule).2 (by decide +kernel))

/-- A script that declares a name twice and calls it with what the later declaration asks for. -/
def declaredTwice : Bytes :=
  "function f(a|N) \x7b\x7d\nfunction f(b|M) \x7b\x7d\nlet x : M = 1\nf(x)"

/-- Where the script itself declares a name twice, a call that fits the later rule passes, and the
earlier rule is shown. -/
theorem completions_show_other : ∃ tokens rule, scan (nestingLimit 0) declaredTwice = .ok tokens ∧
    (enterLevel {} [] tokens {}).1.lookup? "f" = some rule ∧
      Completion.parametersText rule = "(b|M)" ∧
    (compile {} declaredTwice).diagnostics = [] ∧
    (({} : Workspace).update "/a" declaredTwice).1.completions "/a" =
      [⟨"x", .variable, "M"⟩, ⟨"f", .function, "(a|N)"⟩] := by
  have hscan : scan (nestingLimit 0) declaredTwice =
      .ok [.block "function f(" [.leaf "a|N" 11] 0, .block "\x7b" [] 16,
        .block "function f(" [.leaf "b|M" 30] 19,
        .block "\x7b" [] 35, .leaf "let x : M = 1" 38, .block "f(" [.leaf "x" 54] 52] := by
        decide +kernel
  have hrules : (checkAndStrip {} [.block "function f(" [.leaf "a|N" 11] 0, .block "\x7b" [] 16,
      .block "function f(" [.leaf "b|M" 30] 19, .block "\x7b" [] 35, .leaf "let x : M = 1" 38,
      .block "f(" [.leaf "x" 54] 52]).2.rules =
        [⟨"f", [⟨"a", "N"⟩], [.leaf "a|N" 11], 0⟩, ⟨"f", [⟨"b", "M"⟩], [.leaf "b|M" 30], 19⟩] := by
        decide +kernel
  refine ⟨_, ⟨"f", [⟨"b", "M"⟩], [.leaf "b|M" 30], 19⟩, hscan, by decide +kernel,
    by decide +kernel, by decide +kernel, ?_⟩
  rw [Workspace.completions_update hscan, Completion.ruleItems, hrules,
    List.mergeSort_of_pairwise (by decide +kernel), Completion.firstOfEachName, if_pos rfl,
    Completion.firstOfEachName]
  decide +kernel

end TagScript
