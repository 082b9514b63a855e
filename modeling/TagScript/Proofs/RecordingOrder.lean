import TagScript.Proofs.CallChecking

/-!
# The order in which declarations are recorded

A check records the tags of a whole level before it walks into the blocks of this level. What
stands inside a block is recorded after everything on the level of the block, and so after what
stands behind the block. This is neither the order of the script nor preorder.

Of two declarations the one behind the other is recorded last, unless the other one stands inside
a block in front of it. So a name has the type of its last declaration in the script exactly when no
other declaration of the name stands inside a block in front of this one.
-/

namespace TagScript

open Token

namespace Token

mutual

/-- Whether `inner` stands inside a block in front of `behind`, both of them inside the token: on
the level of `behind` there is the block and then `behind` itself. -/
def insideBefore (inner behind : Token) : Token → Bool
  | .leaf .. => false
  | .block _ children _ => insideBeforeAll inner behind children

/-- Whether `inner` stands inside a block in front of `behind`, both of them among the tokens or
inside them. -/
def insideBeforeAll (inner behind : Token) : List Token → Bool
  | [] => false
  | t :: ts => (inner ∈ all t.children && behind ∈ ts) || insideBefore inner behind t ||
      insideBeforeAll inner behind ts

end

/-- Whether tokens stand in the order of their offsets, those inside others included. -/
def Increasing (ts : List Token) : Prop := (all ts).Pairwise fun s t => s.offset < t.offset

variable {inner behind t : Token} {ts : List Token}

/-- A token stands in front of what is inside it, and this in front of what follows. -/
theorem increasing_cons :
    Increasing (t :: ts) ↔ (∀ u ∈ all t.children ++ all ts, t.offset < u.offset) ∧
    Increasing t.children ∧ Increasing ts ∧ ∀ s ∈ all t.children, ∀ u ∈ all ts,
    s.offset < u.offset := by
  rw [Increasing, all_cons, List.pairwise_cons, List.pairwise_append]
  rfl

/-- What is inside a token is nowhere behind it. -/
theorem Increasing.not_mem_of_mem (h : Increasing (t :: ts)) {u : Token} (hu : u ∈ all t.children) :
    u ∉ all ts := by
  intro hmem
  have hlt := (increasing_cons.1 h).2.2.2 u hu u hmem
  omega

/-- What is inside a token of a sequence is inside the sequence. -/
theorem mem_all_of_inside {u : Token} (ht : t ∈ ts) (hu : u ∈ all t.children) : u ∈ all ts := by
  obtain ⟨front, back, rfl⟩ := List.append_of_mem ht
  rw [all_append, all_cons]
  simp [hu]

/-- What is inside a token of a level is not on the level. -/
theorem Increasing.not_mem_of_inside (h : Increasing ts) {u : Token} (ht : t ∈ ts)
    (hu : u ∈ all t.children) :
    u ∉ ts := by
  induction ts with
  | nil => exact List.not_mem_nil
  | cons first ts ih =>
    obtain ⟨hfirst, -, hrest, -⟩ := increasing_cons.1 h
    have hne : u ∈ all first.children ++ all ts → u ≠ first := by
      rintro hmem rfl
      have hlt := hfirst u hmem
      omega
    rw [List.mem_cons, not_or]
    rcases List.mem_cons.1 ht with rfl | ht
    · exact ⟨hne (List.mem_append_left _ hu), fun hmem => h.not_mem_of_mem hu (subset_all ts hmem)⟩
    · exact ⟨hne (List.mem_append_right _ (mem_all_of_inside ht hu)), ih hrest ht⟩

/-- A token has on its levels what its content has. -/
theorem insideBefore_eq (inner behind t : Token) :
    insideBefore inner behind t = insideBeforeAll inner behind t.children := by
  cases t with
  | leaf => rfl
  | block signature content offset => rw [insideBefore, children]

mutual

/-- Where a token is inside a block in front of another one, the two stand in this order. -/
theorem spec_of_insideBefore : (t : Token) → Increasing t.children →
    insideBefore inner behind t = true →
    inner ∈ all t.children ∧ behind ∈ all t.children ∧ inner.offset < behind.offset
  | .leaf .., _, h => by simp [insideBefore] at h
  | .block _ content _, hincreasing, h => by
    rw [insideBefore] at h
    exact spec_of_insideBeforeAll content hincreasing h

/-- Where a token is inside a block in front of another one, the two stand in this order. -/
theorem spec_of_insideBeforeAll : (ts : List Token) → Increasing ts →
    insideBeforeAll inner behind ts = true →
    inner ∈ all ts ∧ behind ∈ all ts ∧ inner.offset < behind.offset
  | [], _, h => by simp [insideBeforeAll] at h
  | t :: ts, hincreasing, h => by
    obtain ⟨-, hinside, hrest, hcross⟩ := increasing_cons.1 hincreasing
    rw [insideBeforeAll, Bool.or_eq_true, Bool.or_eq_true, Bool.and_eq_true, decide_eq_true_eq,
      decide_eq_true_eq] at h
    rw [all_cons]
    rcases h with (⟨hinner, hbehind⟩ | h) | h
    · have hmem := subset_all ts hbehind
      exact ⟨by simp [hinner], by simp [hmem], hcross inner hinner behind hmem⟩
    · obtain ⟨hinner, hbehind, hlt⟩ := spec_of_insideBefore t hinside h
      exact ⟨by simp [hinner], by simp [hbehind], hlt⟩
    · obtain ⟨hinner, hbehind, hlt⟩ := spec_of_insideBeforeAll ts hrest h
      exact ⟨by simp [hinner], by simp [hbehind], hlt⟩

end

/-- Where a token can be inside a block in front of another one: in the first token of a sequence,
with the other one behind this token, or both of them in its content, or both of them in the
rest. -/
theorem insideBeforeAll_cons : insideBeforeAll inner behind (t :: ts) = true ↔
    (inner ∈ all t.children ∧ behind ∈ ts) ∨
    insideBeforeAll inner behind t.children = true ∨ insideBeforeAll inner behind ts = true := by
  rw [insideBeforeAll, insideBefore_eq, Bool.or_eq_true, Bool.or_eq_true,
    Bool.and_eq_true, decide_eq_true_eq, decide_eq_true_eq, or_assoc]

/-- The order in which a walk comes by two tokens: as they stand in the script, but what is inside a
block comes after what stands behind the block on its level. -/
def WalkedBefore (tokens : List Token) (s t : Token) : Prop :=
  insideBeforeAll t s tokens = true ∨ s.offset < t.offset ∧ ¬ insideBeforeAll s t tokens = true

section Order

variable {s u : Token} (h : Increasing (t :: ts))

include h

/-- The first token of a sequence comes first. -/
theorem walkedBefore_first (hu : u ∈ all t.children ++ all ts) : WalkedBefore (t :: ts) t u := by
  obtain ⟨hfirst, hinside, hrest, -⟩ := increasing_cons.1 h
  have hself : t ∉ all t.children ++ all ts := fun hmem => (hfirst t hmem).false
  rw [List.mem_append, not_or] at hself
  refine .inr ⟨hfirst u hu, fun hbefore => ?_⟩
  rcases insideBeforeAll_cons.1 hbefore with ⟨hmem, -⟩ | hbefore | hbefore
  · exact hself.1 hmem
  · exact hself.1 (spec_of_insideBeforeAll _ hinside hbefore).1
  · exact hself.2 (spec_of_insideBeforeAll _ hrest hbefore).1

/-- What is inside the first token comes before what is inside the others. -/
theorem walkedBefore_across (hs : s ∈ all t.children) (hu : u ∈ all ts) (hlevel : u ∉ ts) :
    WalkedBefore (t :: ts) s u := by
  obtain ⟨-, hinside, hrest, hcross⟩ := increasing_cons.1 h
  refine .inr ⟨hcross s hs u hu, fun hbefore => ?_⟩
  rcases insideBeforeAll_cons.1 hbefore with ⟨-, hmem⟩ | hbefore | hbefore
  · exact hlevel hmem
  · exact h.not_mem_of_mem (spec_of_insideBeforeAll _ hinside hbefore).2.1 hu
  · exact h.not_mem_of_mem hs (spec_of_insideBeforeAll _ hrest hbefore).1

/-- In what order two tokens inside the first one come is a matter of its content. -/
theorem WalkedBefore.of_children (hs : s ∈ all t.children) (hu : u ∈ all t.children)
    (hwalked : WalkedBefore t.children s u) : WalkedBefore (t :: ts) s u := by
  refine hwalked.imp (fun hbefore => insideBeforeAll_cons.2 (.inr (.inl hbefore)))
    (And.imp_right ?_)
  intro hnot hbefore
  rcases insideBeforeAll_cons.1 hbefore with ⟨-, hmem⟩ | hbefore | hbefore
  · exact h.not_mem_of_mem hu (subset_all ts hmem)
  · exact hnot hbefore
  · exact h.not_mem_of_mem hs (spec_of_insideBeforeAll _ (increasing_cons.1 h).2.2.1 hbefore).1

/-- In what order two tokens behind the first one come is a matter of the rest. -/
theorem WalkedBefore.of_rest (hs : s ∈ all ts) (hwalked : WalkedBefore ts s u) :
    WalkedBefore (t :: ts) s u := by
  refine hwalked.imp (fun hbefore => insideBeforeAll_cons.2 (.inr (.inr hbefore)))
    (And.imp_right ?_)
  intro hnot hbefore
  rcases insideBeforeAll_cons.1 hbefore with ⟨hmem, -⟩ | hbefore | hbefore
  · exact h.not_mem_of_mem hmem hs
  · exact h.not_mem_of_mem (spec_of_insideBeforeAll _ (increasing_cons.1 h).2.1 hbefore).1 hs
  · exact hnot hbefore

end Order

/-- Of tokens in the order of a walk, the last one is the one behind all others in the script or
stands inside a block in front of it. It is the one behind all others if none of them stands so. -/
theorem getLast?_of_walked {tokens : List Token} (hincreasing : Increasing tokens)
    (horder : ts.Pairwise (WalkedBefore tokens)) {last : Token} (hlast : last ∈ ts)
    (hmax : ∀ t ∈ ts, t.offset ≤ last.offset) :
    (∃ winner, ts.getLast? = some winner ∧
      (winner = last ∨ insideBeforeAll winner last tokens = true)) ∧
      (ts.getLast? = some last ↔ ∀ t ∈ ts, insideBeforeAll t last tokens = false) := by
  obtain ⟨front, winner, rfl⟩ := (List.eq_nil_or_concat' ts).resolve_left (List.ne_nil_of_mem hlast)
  have hwalked : ∀ t ∈ front, WalkedBefore tokens t winner := fun t ht =>
    (List.pairwise_append.1 horder).2.2 t ht winner (List.mem_singleton_self _)
  have hwinner : winner = last ∨ insideBeforeAll winner last tokens = true := by
    rcases List.mem_append.1 hlast with hfront | hself
    · rcases hwalked last hfront with hbefore | ⟨hlt, -⟩
      · exact .inr hbefore
      · have hle := hmax winner (by simp)
        omega
    · exact .inl (List.mem_singleton.1 hself).symm
  rw [List.getLast?_concat]
  refine ⟨⟨winner, rfl, hwinner⟩, ?_⟩
  constructor
  · intro heq t ht
    obtain rfl := Option.some.inj heq
    rw [← Bool.not_eq_true]
    intro hbefore
    have hlt := (spec_of_insideBeforeAll tokens hincreasing hbefore).2.2
    rcases List.mem_append.1 ht with hfront | hself
    · rcases hwalked t hfront with hafter | ⟨-, hnot⟩
      · have hgt := (spec_of_insideBeforeAll tokens hincreasing hafter).2.2
        omega
      · exact hnot hbefore
    · rw [List.mem_singleton.1 hself] at hlt
      omega
  · intro hnone
    rcases hwinner with rfl | hbefore
    · rfl
    · rw [hnone winner (by simp)] at hbefore
      exact Bool.noConfusion hbefore

end Token

/-- The tokens of a level that is entered. -/
def Visit.entered : Visit → List Token
  | .enter level => level
  | .meet _ => []

/-- The tokens of the levels that are entered, in the order of the visits. -/
def enteredTokens (visits : List Visit) : List Token := visits.flatMap Visit.entered

section Walk

variable (options : CheckOptions)

/-- Entered inside a token are the levels of its content, or none. -/
theorem enteredTokens_visitsToken (level : List Token) (outer : List (List Token))
    (next : Option Token) (t : Token) :
    enteredTokens (visitsToken options level outer next t) = [] ∨
      enteredTokens (visitsToken options level outer next t) =
        t.children ++
          enteredTokens
          (visitsTokens options (t.children.map untag) (level :: outer) t.children) := by
  cases t with
  | leaf text offset =>
    rw [visitsToken]
    exact .inl rfl
  | block signature content offset =>
    rw [visitsToken]
    generalize Site.treatment options _ = treatment
    cases treatment with
    | declaration => exact .inl rfl
    | call rule => exact .inl rfl
    | level => exact .inr rfl

variable {level ts : List Token} {outer : List (List Token)} {next : Option Token} {t u : Token}

/-- What is entered inside a token stands inside it. -/
theorem mem_all_of_mem_enteredTokens
    (h : u ∈ enteredTokens (visitsToken options level outer next t)) :
    u ∈ all t.children := by
  rcases enteredTokens_visitsToken options level outer next t with hnone | hlevel
  · rw [hnone] at h
    exact nomatch h
  · rw [hlevel, List.mem_append] at h
    rcases h with h | h
    · exact subset_all t.children h
    · obtain ⟨visit, hvisit, hu⟩ := List.mem_flatMap.1 h
      cases visit with
      | enter entered => exact subset_of_mem_visitsTokens options _ _ t.children hvisit hu
      | meet site => exact nomatch hu

/-- What is entered inside tokens stands inside one of them. -/
theorem exists_of_mem_enteredTokens (h : u ∈ enteredTokens (visitsTokens options level outer ts)) :
    ∃ t ∈ ts, u ∈ all t.children := by
  induction ts with
  | nil =>
    rw [visitsTokens] at h
    exact nomatch h
  | cons t ts ih =>
    rw [visitsTokens, enteredTokens, List.flatMap_append, List.mem_append] at h
    rw [List.exists_mem_cons_iff]
    exact h.imp (mem_all_of_mem_enteredTokens options) ih

mutual

/-- The order in which a walk comes by the tokens of the levels inside a token. -/
theorem pairwise_visitsToken (level : List Token) (outer : List (List Token))
    (next : Option Token) : (t : Token) → Increasing t.children →
    (enteredTokens (visitsToken options level outer next t)).Pairwise (WalkedBefore t.children)
  | .leaf .., _ => by
    rw [visitsToken]
    exact List.Pairwise.nil
  | .block signature content offset, h => by
    have hcontent := pairwise_visitsTokens (content.map untag) (level :: outer) content h
    rcases enteredTokens_visitsToken options level outer next (.block signature content offset)
      with hnone | hlevel
    · rw [hnone]
      exact List.Pairwise.nil
    · rw [hlevel]
      exact hcontent

/-- The order in which a walk comes by the tokens of a level and of the levels inside them. -/
theorem pairwise_visitsTokens (level : List Token) (outer : List (List Token)) :
    (ts : List Token) → Increasing ts →
    (ts ++ enteredTokens (visitsTokens options level outer ts)).Pairwise (WalkedBefore ts)
  | [], _ => by
    rw [visitsTokens]
    exact List.Pairwise.nil
  | t :: ts, h => by
    obtain ⟨hfirst, hinside, hrest, hcross⟩ := increasing_cons.1 h
    have hcontent := pairwise_visitsToken level outer (ts.head?.map untag) t hinside
    have hlevel := pairwise_visitsTokens level outer ts hrest
    have hbehind : ∀ {u}, u ∈ enteredTokens (visitsTokens options level outer ts) →
        u ∈ all ts ∧ u ∉ ts := by
      intro u hu
      obtain ⟨b, hb, hmem⟩ := exists_of_mem_enteredTokens options hu
      exact ⟨mem_all_of_inside hb hmem, hrest.not_mem_of_inside hb hmem⟩
    have hmem : ∀ {u}, u ∈ ts ++ enteredTokens (visitsTokens options level outer ts) →
        u ∈ all ts := by
      intro u hu
      exact (List.mem_append.1 hu).elim (fun hu => subset_all ts hu) fun hu => (hbehind hu).1
    have hlifted := hlevel.imp_of_mem fun hs _ hwalked => hwalked.of_rest h (hmem hs)
    obtain ⟨hsiblings, hnested, hboth⟩ := List.pairwise_append.1 hlifted
    rw [visitsTokens, enteredTokens, List.flatMap_append, List.cons_append, List.pairwise_cons,
      List.pairwise_append, List.pairwise_append]
    refine ⟨fun u hu => walkedBefore_first h ?_, hsiblings, ⟨?_, hnested, fun s hs u hu => ?_⟩,
      fun s hs u hu => ?_⟩
    · rw [List.mem_append, List.mem_append] at hu
      rw [List.mem_append]
      rcases hu with hu | hu | hu
      · exact .inr (subset_all ts hu)
      · exact .inl (mem_all_of_mem_enteredTokens options hu)
      · exact .inr (hbehind hu).1
    · exact hcontent.imp_of_mem fun hs hu hwalked => hwalked.of_children h
        (mem_all_of_mem_enteredTokens options hs) (mem_all_of_mem_enteredTokens options hu)
    · exact walkedBefore_across h (mem_all_of_mem_enteredTokens options hs)
        (hbehind hu).1 (hbehind hu).2
    · rcases List.mem_append.1 hu with hu | hu
      · -- `s` is on the level, behind the block that `u` is inside of
        exact .inl (insideBeforeAll_cons.2 (.inl ⟨mem_all_of_mem_enteredTokens options hu, hs⟩))
      · exact hboth s hs u hu

end

/-- The order in which a check comes by the tokens of the levels that it enters. -/
theorem pairwise_visits {tokens : List Token} (h : Increasing tokens) :
    (enteredTokens (visits options tokens)).Pairwise (WalkedBefore tokens) :=
  pairwise_visitsTokens options (tokens.map untag) [] tokens h

end Walk

/-- The tokens of a script account for all of it, wherever its brackets are closed. -/
theorem Scan.covers_of_scan {limit : Nat} {source : Bytes} {tokens : List Token}
    (h : scan limit source = .ok tokens) :
    Covers source (fun _ _ => True) 0 (0 + source.length) tokens := by
  obtain ⟨pairs, hlayout⟩ := layout_of_scan h
  have hoccurs : Occurs source 0 source := ⟨List.prefix_rfl, List.prefix_rfl⟩
  exact hlayout.covers hoccurs fun _ _ => trivial

/-- The tokens of a script stand in the order of their offsets. -/
theorem Scan.increasing_of_scan {limit : Nat} {source : Bytes} {tokens : List Token}
    (h : scan limit source = .ok tokens) : Increasing tokens :=
  (covers_of_scan h).ordered.imp And.left

/-- Whether a token is a tagged declaration of a name. -/
def Token.tagsName (name : Bytes) (t : Token) : Bool := (Tag.parse? t.head).any (·.name = name)

/-- The type that a token records, if it is a tagged declaration. -/
def Token.recordedType? (t : Token) : Option Bytes :=
  (Tag.parse? t.head).map fun tag => tag.type.trim

/-- The tagged declarations of a name that a check records, in the order in which it does so. -/
def recordedDeclarations (options : CheckOptions) (tokens : List Token)
    (name : Bytes) : List Token :=
  (enteredTokens (visits options tokens)).filter (tagsName name)

/-- The last tag of a name is that of its last declaration. -/
theorem lastTag?_filterMap (ts : List Token) (name : Bytes) :
    lastTag? (ts.filterMap fun t => Tag.parse? t.head) name =
      (ts.filter (tagsName name)).getLast?.bind fun t => Tag.parse? t.head := by
  induction ts using List.reverseRecOn with
  | nil => rfl
  | append_singleton ts t ih =>
    rw [lastTag?] at ih ⊢
    rw [List.filterMap_append, List.filter_append, List.filter_append]
    cases htag : Tag.parse? t.head with
    | none => simpa [tagsName, htag] using ih
    | some tag =>
      by_cases hname : tag.name = name
      · simp [tagsName, htag, hname]
      · simpa [tagsName, htag, hname] using ih

/-- Without the parameters of rules, the type of a name is the one that its last recorded
declaration has. -/
theorem lookup_tags_checkAndStrip {options : CheckOptions}
    (hparameters : options.tagParameters = false) (tokens : List Token) (name : Bytes) :
    (checkAndStrip options tokens).2.tags.bindings.lookup name =
      (recordedDeclarations options tokens name).getLast?.bind recordedType? := by
  have htags : recordedTags (visits options tokens) =
      (enteredTokens (visits options tokens)).filterMap fun t => Tag.parse? t.head := by
    rw [recordedTags, enteredTokens, List.filterMap_flatMap]
    congr 1
    funext visit
    cases visit <;> rfl
  rw [tags_checkAndStrip, tagsAfter_eq hparameters, TagMap.lookup_foldl_define,
    htags, lastTag?_filterMap, Option.map_bind]
  rfl

/-- Which declaration gives a name its type. It is the one recorded last. Let `last` be the
declaration of the name that comes last in the script, among those that are recorded. The one
recorded last is `last` itself, or it stands inside a block in front of `last`; and it is `last`
exactly when no recorded declaration of the name stands so. -/
theorem lookup_checkAndStrip_iff {options : CheckOptions}
    (hparameters : options.tagParameters = false) {limit : Nat} {source : Bytes}
    {tokens : List Token} (hscan : scan limit source = .ok tokens) (name : Bytes) :
    (checkAndStrip options tokens).2.tags.bindings.lookup name =
      (recordedDeclarations options tokens name).getLast?.bind recordedType? ∧
    ∀ last ∈ recordedDeclarations options tokens name,
      (∀ t ∈ recordedDeclarations options tokens name, t.offset ≤ last.offset) →
      (∃ winner, (recordedDeclarations options tokens name).getLast? = some winner ∧
        (winner = last ∨ insideBeforeAll winner last tokens = true)) ∧
      ((recordedDeclarations options tokens name).getLast? = some last ↔
        ∀ t ∈ recordedDeclarations options tokens name, insideBeforeAll t last tokens = false) := by
  have hincreasing := Scan.increasing_of_scan hscan
  have horder : (recordedDeclarations options tokens name).Pairwise (WalkedBefore tokens) :=
    (pairwise_visits options hincreasing).filter _
  exact ⟨lookup_tags_checkAndStrip hparameters tokens name,
    fun last => getLast?_of_walked hincreasing horder⟩

/-- A name is declared again inside a block behind its first declaration: the later declaration
counts. -/
theorem lookup_checkAndStrip_iff_behind :
    ∃ tokens, tokenize "let x : A = 1\n\x7blet x : B = 2\x7d" = .ok tokens ∧
    recordedDeclarations {} tokens "x" = [.leaf "let x : A = 1" 0, .leaf "let x : B = 2" 15] ∧
    (∀ t ∈ recordedDeclarations {} tokens "x",
      insideBeforeAll t (.leaf "let x : B = 2" 15) tokens = false) ∧
    (recordedDeclarations {} tokens "x").getLast? = some (.leaf "let x : B = 2" 15) ∧
    (checkAndStrip {} tokens).2.tags.bindings.lookup (utf8 "x") = some (utf8 "B") := by
  have hscan : tokenize "let x : A = 1\n\x7blet x : B = 2\x7d" =
      .ok [.leaf "let x : A = 1" 0, .block "\x7b" [.leaf "let x : B = 2" 15] 14] := by
    decide +kernel
  have hrecorded : recordedDeclarations {}
      [.leaf "let x : A = 1" 0, .block "\x7b" [.leaf "let x : B = 2" 15] 14] "x" =
      [.leaf "let x : A = 1" 0, .leaf "let x : B = 2" 15] := by decide +kernel
  have hnone :
      ∀ t ∈ recordedDeclarations {}
      [.leaf "let x : A = 1" 0, .block "\x7b" [.leaf "let x : B = 2" 15] 14] "x",
      insideBeforeAll t (.leaf "let x : B = 2" 15)
        [.leaf "let x : A = 1" 0, .block "\x7b" [.leaf "let x : B = 2" 15] 14] = false := by
        decide +kernel
  obtain ⟨hlookup, hlast⟩ :=
    lookup_checkAndStrip_iff (rfl : CheckOptions.tagParameters {} = false) hscan "x"
  have hwinner :=
    (hlast (.leaf "let x : B = 2" 15) (by simp [hrecorded]) (by simp [hrecorded, offset])).2.2 hnone
  refine ⟨_, hscan, hrecorded, hnone, hwinner, ?_⟩
  rw [hlookup, hwinner]
  decide +kernel

/-- A name is declared inside a block in front of its last declaration: the declaration inside the
block is recorded last, and the name has its type. -/
theorem lookup_checkAndStrip_ne :
    ∃ tokens, tokenize "\x7blet x : A = 1\x7d\nlet x : B = 2" = .ok tokens ∧
    recordedDeclarations {} tokens "x" = [.leaf "let x : B = 2" 16, .leaf "let x : A = 1" 1] ∧
    (checkAndStrip {} tokens).2.tags.bindings.lookup (utf8 "x") = some (utf8 "A") := by
  have hscan : tokenize "\x7blet x : A = 1\x7d\nlet x : B = 2" =
      .ok [.block "\x7b" [.leaf "let x : A = 1" 1] 0, .leaf "let x : B = 2" 16] := by decide +kernel
  exact ⟨_, hscan, by decide +kernel, by decide +kernel⟩

end TagScript
