import TagScript.Proofs.CallChecking
import TagScript.Proofs.LexemeContexts

/-!
# What a call is counted against

A rule keeps the parameters of its declaration that are tagged, and a call is held against the
rule. So the number of its arguments is compared with the number of tagged parameters, and each
argument is compared with the tagged parameter at its own position among these, whatever untagged
parameters stand between them. Of several declarations of a name on one level the last one that
has a tagged parameter counts.

The arguments of a call that lists names are these names, one by one.
-/

namespace TagScript

open Token Bytes

namespace Argument

variable {c : UInt8} {name tail : Bytes}

/-- Separators at the end of a text are dropped. -/
theorem dropSeparators_cons (hc : (isAsciiSpace c || decide (c = Char.toUInt8 ',')) = true)
    (text : Bytes) :
    dropSeparators (c :: text) = dropSeparators text := by
  match text with
  | [] => simp only [dropSeparators, if_pos hc]
  | [a] => simp only [dropSeparators, if_pos hc]
  | b :: a :: text => simp only [dropSeparators, if_pos hc]

/-- All separators at the end of a text are dropped. -/
theorem dropSeparators_append
    (htail : ∀ c ∈ tail, (isAsciiSpace c || decide (c = Char.toUInt8 ',')) = true) (text : Bytes) :
    dropSeparators (tail ++ text) = dropSeparators text := by
  induction tail with
  | nil => rfl
  | cons c tail ih =>
    rw [List.forall_mem_cons] at htail
    rw [List.cons_append, dropSeparators_cons htail.1, ih htail.2]

/-- Nothing is dropped from a text that ends with a byte of a name. -/
theorem dropSeparators_of_isNamePart (hc : isNamePart c = true) (text : Bytes) :
    dropSeparators (c :: text) = c :: text := by
  have hone : ∀ c, isNamePart c = true → (isAsciiSpace c || decide (c = Char.toUInt8 ',')) =
      false := by decide +kernel
  have hascii : c < 0x80 := UInt8.not_le.1 fun hle => (Lexeme.isNamePart_spec hc).1 (.inr hle)
  have hpair : ∀ a, isSpacePair a c = false := fun a => Bool.eq_false_iff.2 fun h => by
    simpa using (SpacePoint.two h).eq_singleton (by simp) hascii
  have htriple : ∀ a b, isSpaceTriple a b c = false := fun a b => Bool.eq_false_iff.2 fun h => by
    simpa using (SpacePoint.three h).eq_singleton (by simp) hascii
  match text with
  | [] => simp [dropSeparators, hone c hc]
  | [a] => simp [dropSeparators, hone c hc, hpair]
  | b :: a :: text => simp [dropSeparators, hone c hc, hpair, htriple]

/-- A name is what is left of it and the separators behind it. -/
theorem trimSeparators_name (hname : name.isIdent = true)
    (htail : ∀ c ∈ tail, (isAsciiSpace c || decide (c = Char.toUInt8 ',')) = true) :
    trimSeparators (name ++ tail) = name := by
  have hparts := isNamePart_of_isIdent hname
  have hne : name ≠ [] := by
    rintro rfl
    cases hname
  obtain ⟨first, rest, hfirst⟩ := List.exists_cons_of_ne_nil hne
  have hstart : trimStart (name ++ tail) = name ++ tail := by
    rw [hfirst]
    exact trimStart_cons
      (Lexeme.isNamePart_spec (hparts first (hfirst ▸ List.mem_cons_self ..))).1 _
  obtain ⟨last, more, hlast⟩ := List.exists_cons_of_ne_nil (List.reverse_ne_nil_iff.2 hne)
  have hmem : last ∈ name := List.mem_reverse.1 (hlast ▸ List.mem_cons_self ..)
  rw [trimSeparators, hstart, List.reverse_append,
    dropSeparators_append (by simpa using htail), hlast,
    dropSeparators_of_isNamePart (hparts last hmem), ← hlast, List.reverse_reverse]

/-- The lexemes of names with commas between them. -/
def written (names : List Bytes) : List Lexeme :=
  List.intercalate [Lexeme.comma] (names.map fun name => [⟨.name, name, 0⟩])

/-- The first of several names, and what follows it. -/
theorem written_cons (name : Bytes) (names : List Bytes) : written (name :: names) =
    ⟨.name, name, 0⟩ :: if names = [] then [] else Lexeme.comma :: written names := by
  cases names with
  | nil => rfl
  | cons next names =>
    rw [written, List.map_cons, List.map_cons, List.intercalate_cons_cons]
    rfl

/-- Every name is among the lexemes. -/
theorem mem_written {name : Bytes} {names : List Bytes} (h : name ∈ names) :
    ⟨.name, name, 0⟩ ∈ written names := by
  induction names with
  | nil => cases h
  | cons first names ih =>
    rw [written_cons]
    rcases List.mem_cons.1 h with rfl | h
    · exact List.mem_cons_self ..
    · rw [if_neg (List.ne_nil_of_mem h)]
      exact List.mem_cons_of_mem _ (List.mem_cons_of_mem _ (ih h))

/-- From a lexeme on stands its text and that of those that follow it. -/
theorem drop_offset {text : Bytes} {before after : List Lexeme} {lexeme : Lexeme}
    (h : Lexeme.all text = before ++ lexeme :: after) :
    text.drop lexeme.offset = Lexeme.joined (lexeme :: after) := by
  have htext : text = Lexeme.joined before ++ Lexeme.joined (lexeme :: after) := by
    rw [← Lexeme.joined_append, ← h, Lexeme.all, Lexeme.joined_allFrom]
  rw [Lexeme.offset_of_allFrom h, Nat.zero_add]
  nth_rewrite 1 [htext]
  exact List.drop_left

/-- Between the offsets of two lexemes stand the first of them and those between them. -/
theorem take_offsets {text : Bytes} {before between after : List Lexeme} {lexeme other : Lexeme}
    (h : Lexeme.all text = before ++ lexeme :: (between ++ other :: after)) :
    (text.drop lexeme.offset).take (other.offset - lexeme.offset) = lexeme.text ++
      Lexeme.joined between := by
  have hlater : Lexeme.all text = (before ++ lexeme :: between) ++ other :: after := by
    simpa using h
  have hlength : other.offset - lexeme.offset = (lexeme.text ++ Lexeme.joined between).length := by
    rw [Lexeme.offset_of_allFrom hlater, Lexeme.offset_of_allFrom h, Lexeme.joined_append,
      Lexeme.joined_cons, List.length_append]
    omega
  rw [drop_offset h, Lexeme.joined_cons, Lexeme.joined_append, ← List.append_assoc,
    hlength, List.take_left]

/-- The first visible lexeme and the blanks in front of it. -/
theorem exists_first_visible {suffix rest : List Lexeme} {first : Lexeme}
    (h : (suffix.filter (·.kind ≠ .blank)).map Lexeme.unplaced = first :: rest) : ∃ gap lexeme tail,
      suffix = gap ++ lexeme :: tail ∧ (∀ blank ∈ gap, blank.kind = .blank) ∧
        lexeme.unplaced = first ∧
      (tail.filter (·.kind ≠ .blank)).map Lexeme.unplaced = rest ∧
      suffix.filter (·.kind ≠ .blank) = lexeme :: tail.filter (·.kind ≠ .blank) := by
  obtain ⟨lexeme, visible, hvisible, hfirst, hrest⟩ := List.map_eq_cons_iff.1 h
  obtain ⟨gap, tail, rfl, hgap, -, rfl⟩ := List.filter_eq_cons_iff.1 hvisible
  exact ⟨gap, lexeme, tail, rfl, by simpa using hgap, hfirst, hrest, hvisible⟩

/-- The bytes of blanks and commas are separators. -/
theorem isSeparator_of_mem_joined {text : Bytes} {lexemes : List Lexeme}
    (hread : ∀ lexeme ∈ lexemes, lexeme ∈ Lexeme.all text)
    (hkinds : ∀ lexeme ∈ lexemes, lexeme.kind = .blank ∨ lexeme.kind = .comma) :
    ∀ c ∈ Lexeme.joined lexemes, (isAsciiSpace c || decide (c = Char.toUInt8 ',')) = true := by
  intro c hc
  obtain ⟨lexeme, hlexeme, hc⟩ := List.mem_flatMap.1 hc
  have hholds := Lexeme.holds_of_mem_allFrom (hread lexeme hlexeme) c hc
  rw [Bool.or_eq_true]
  rcases hkinds lexeme hlexeme with hkind | hkind <;> rw [hkind] at hholds
  · exact .inl (Lexeme.isBlankByte_spec hholds).1
  · exact .inr hholds

/-- An argument starts at a name, and the next one behind the comma. -/
theorem starts_name {name : Lexeme} (hname : name.kind = .name) (rest : List Lexeme) :
    starts true (name :: rest) = name.offset :: starts false rest := by
  rw [starts, if_neg (by simp [hname]), if_pos rfl]

/-- The arguments that start at names with commas between them are these names. -/
theorem segments_starts {text : Bytes} {before suffix : List Lexeme} (name : Bytes)
    (names : List Bytes) (hall : Lexeme.all text = before ++ suffix)
    (hnames : (suffix.filter (·.kind ≠ .blank)).map Lexeme.unplaced = written (name :: names)) :
    segments text (starts true (suffix.filter (·.kind ≠ .blank))) = name :: names := by
  induction names generalizing name before suffix with
  | nil =>
    rw [written_cons, if_pos rfl] at hnames
    obtain ⟨gap, lexeme, tail, rfl, -, hlexeme, htail, hvisible⟩ := exists_first_visible hnames
    have hkind : lexeme.kind = .name := congrArg Lexeme.kind hlexeme
    have hname : lexeme.text = name := congrArg Lexeme.text hlexeme
    have hlist : Lexeme.all text = (before ++ gap) ++ lexeme :: tail := by simpa using hall
    have hread : ∀ other ∈ lexeme :: tail, other ∈ Lexeme.all text := fun other hother => by
      rw [hlist]
      exact List.mem_append_right _ hother
    rw [List.map_eq_nil_iff] at htail
    have hblanks : ∀ blank ∈ tail, blank.kind = .blank ∨ blank.kind = .comma := fun blank hblank =>
      .inl (by simpa using List.filter_eq_nil_iff.1 htail blank hblank)
    rw [List.forall_mem_cons] at hread
    have hident : name.isIdent = true := hname ▸ Lexeme.isIdent_text hread.1 hkind
    rw [hvisible, starts_name hkind, htail, starts, segments, drop_offset hlist,
      Lexeme.joined_cons, hname,
      trimSeparators_name hident (isSeparator_of_mem_joined hread.2 hblanks)]
  | cons next names ih =>
    rw [written_cons, if_neg (List.cons_ne_nil _ _)] at hnames
    obtain ⟨gap, lexeme, tail, rfl, -, hlexeme, htail, hvisible⟩ := exists_first_visible hnames
    obtain ⟨space, comma, rest, rfl, hspace, hcomma, hrest, hbehind⟩ := exists_first_visible htail
    have hkind : lexeme.kind = .name := congrArg Lexeme.kind hlexeme
    have hname : lexeme.text = name := congrArg Lexeme.text hlexeme
    have hcommaKind : comma.kind = .comma := congrArg Lexeme.kind hcomma
    have hbefore : Lexeme.all text = (before ++ gap ++ lexeme :: (space ++ [comma])) ++ rest := by
      simpa using hall
    have hothers := ih next hbefore hrest
    -- the next name ends the argument, with the comma and the blanks around it in between
    rw [written_cons] at hrest
    obtain ⟨lead, other, tail, rfl, hlead, hother, -, hothersVisible⟩ := exists_first_visible hrest
    have hotherKind : other.kind = .name := congrArg Lexeme.kind hother
    have hlist : Lexeme.all text = (before ++ gap) ++
        lexeme :: (space ++ comma :: lead ++ other :: tail) := by
      simpa using hall
    have hread : ∀ read ∈ lexeme :: (space ++ comma :: lead), read ∈ Lexeme.all text :=
        fun read hmem => by
      rw [hlist, ← List.cons_append]
      exact List.mem_append_right _ (List.mem_append_left _ hmem)
    rw [List.forall_mem_cons] at hread
    have hident : name.isIdent = true := hname ▸ Lexeme.isIdent_text hread.1 hkind
    have hkinds : ∀ between ∈ space ++ comma :: lead, between.kind = .blank ∨
        between.kind = .comma := by
      intro between hbetween
      rcases List.mem_append.1 hbetween with hmem | hmem
      · exact .inl (hspace between hmem)
      · rcases List.mem_cons.1 hmem with rfl | hmem
        · exact .inr hcommaKind
        · exact .inl (hlead between hmem)
    rw [hothersVisible, starts_name hotherKind] at hothers
    rw [hvisible, starts_name hkind, hbehind, starts, if_pos hcommaKind, hothersVisible,
      starts_name hotherKind, segments, take_offsets hlist, hname,
      trimSeparators_name hident (isSeparator_of_mem_joined hread.2 hkinds), hothers]

/-- The arguments of a list of names are the names. -/
theorem splitArguments_of_written {text : Bytes} {names : List Bytes}
    (h : Lexeme.sequence text = written names) :
    splitArguments text = names := by
  rw [Lexeme.sequence] at h
  rw [splitArguments]
  cases names with
  | nil =>
    rw [written, List.map_nil, List.intercalate_nil, List.map_eq_nil_iff] at h
    rw [Parameter.isBlank_of_visible h, if_pos rfl]
  | cons name names =>
    have hsegments := segments_starts name names (List.nil_append _).symm h
    rw [written_cons] at h
    obtain ⟨first, rest, hvisible, hfirst, -⟩ := List.map_eq_cons_iff.1 h
    have hkind : first.kind = .name := congrArg Lexeme.kind hfirst
    have hblank : ¬ text.isBlank = true := by
      intro hblank
      have hread : first ∈ Lexeme.allFrom 0 text :=
        List.mem_of_mem_filter (hvisible ▸ List.mem_cons_self ..)
      obtain ⟨c, hc, hholds⟩ := Lexeme.exists_holds hread
      rw [hkind] at hholds
      exact (Lexeme.isNamePart_spec hholds).1 (isSpaceByte_of_isBlank hblank c hc)
    rw [if_neg hblank, hvisible]
    dsimp only
    rw [if_neg (by simp [hkind]), ← hvisible]
    exact hsegments

/-- The names of a list of names are names. -/
theorem isIdent_of_written {text : Bytes} {names : List Bytes}
    (h : Lexeme.sequence text = written names) :
    ∀ name ∈ names, name.isIdent = true := by
  intro name hname
  have hmem : (⟨.name, name, 0⟩ : Lexeme) ∈ Lexeme.sequence text := h ▸ mem_written hname
  obtain ⟨lexeme, hlexeme, heq⟩ := List.mem_map.1 hmem
  have htext : lexeme.text = name := congrArg Lexeme.text heq
  exact htext ▸ Lexeme.isIdent_text (List.mem_of_mem_filter hlexeme) (congrArg Lexeme.kind heq)

end Argument

section Comparisons

variable {tags : TagMap} {callee : Bytes}

/-- What comparing the recorded type of a name with the type of a parameter raises. -/
def comparison? (tags : TagMap) (callee : Bytes) (position : Nat) (argument : Bytes × Nat)
    (parameter : Parameter) : Option Diagnostic :=
  match tags.lookup? argument.1 with
  | none =>
    some <| .unresolvedVariable argument.1 { offset := argument.2 }
      (similarNames argument.1 tags.names)
  | some type =>
    if type.trim = parameter.type.trim then none
    else
      some <| .typeMismatch callee position parameter.name parameter.type type
        { offset := argument.2 }

/-- What comparing arguments with parameters one by one raises, as far as there are both. Positions
start at `first`. -/
def comparisons (tags : TagMap) (callee : Bytes) (first : Nat) (arguments : List (Bytes × Nat))
    (parameters : List Parameter) : List Diagnostic :=
  ((arguments.zip parameters).zipIdx first).filterMap fun ((argument, parameter), position) =>
    comparison? tags callee position argument parameter

/-- Arguments that are names are compared with the parameters at their positions. -/
theorem argumentFaults_eq {first : Nat} {arguments : List (Bytes × Nat)}
    {parameters : List Parameter} (h : ∀ argument ∈ arguments, argument.1.isIdent = true) :
    argumentFaults tags callee first arguments parameters =
      comparisons tags callee first arguments parameters := by
  induction arguments generalizing first parameters with
  | nil => rfl
  | cons argument arguments ih =>
    cases parameters with
    | nil => simp [argumentFaults, comparisons]
    | cons parameter parameters =>
      rw [List.forall_mem_cons] at h
      have hfault : argumentFault? tags callee first argument.1 argument.2 parameter =
          comparison? tags callee first argument parameter := by
        simp only [argumentFault?, h.1, Bool.not_true, Bool.false_eq_true, if_false]
        rfl
      rw [argumentFaults, hfault, ih h.2, comparisons, comparisons,
        List.zip_cons_cons, List.zipIdx_cons]
      cases hcomparison : comparison? tags callee first argument parameter <;> simp [hcomparison]

/-- A comparison does not complain about the number of arguments. -/
theorem kind_ne_arity {first : Nat} {arguments : List (Bytes × Nat)} {parameters : List Parameter} :
    ∀ d ∈ comparisons tags callee first arguments parameters, d.kind ≠ .arity := by
  intro d hd
  obtain ⟨⟨⟨argument, parameter⟩, position⟩, -, hd⟩ := List.mem_filterMap.1 hd
  dsimp only at hd
  rw [comparison?] at hd
  split at hd
  · cases hd
    exact DiagnosticKind.noConfusion
  · split at hd
    · cases hd
    · cases hd
      exact DiagnosticKind.noConfusion

end Comparisons

/-- What the number of arguments raises. -/
def arityFaults (callee : Bytes) (expected actual offset : Nat) : List Diagnostic :=
  if actual = expected then [] else [.arityMismatch callee expected actual { offset }]

/-- A call that lists names is counted against the parameters of its rule, and each name is compared
with the parameter at its position. -/
theorem callFaults_of_written {tags : TagMap} {callee list : Bytes} {names : List Bytes}
    {rule : Rule} {start offset : Nat} (h : Lexeme.sequence list = Argument.written names) :
    (callArguments [.leaf list start] offset).map Prod.fst = names ∧
    callFaults tags callee rule [.leaf list start] offset =
    arityFaults callee rule.parameters.length names.length offset ++
      comparisons tags callee 1 (callArguments [.leaf list start] offset) rule.parameters := by
  have hnames : (callArguments [.leaf list start] offset).map Prod.fst = names := by
    have hjoin : join "\n" ([Token.leaf list start].map head) = list := by simp [join, head]
    rw [map_fst_callArguments, hjoin, Argument.splitArguments_of_written h]
  have hlength : (callArguments [.leaf list start] offset).length = names.length := by
    rw [← hnames, List.length_map]
  have hidents : ∀ argument ∈ callArguments [.leaf list start] offset, argument.1.isIdent = true :=
      fun argument hmem =>
        Argument.isIdent_of_written h argument.1 (hnames ▸ List.mem_map_of_mem hmem)
  refine ⟨hnames, ?_⟩
  rw [callFaults, List.find?_cons_of_neg (by simp [isBlock]), List.find?_nil]
  dsimp only
  rw [argumentFaults_eq hidents, hlength]
  rfl

/-- What stands in front of tokens does not change which of them declare parameters. -/
theorem declaring_append (before after : List Token) :
    ∃ front, declaring (before ++ after) = front ++ declaring after := by
  induction before with
  | nil => exact ⟨[], rfl⟩
  | cons t before ih =>
    obtain ⟨front, hfront⟩ := ih
    rw [List.cons_append, declaring]
    split
    · exact ⟨t :: front, by rw [hfront]; rfl⟩
    · exact ⟨front, hfront⟩

/-- The last block of a level that declares a name gives the rule of the name. -/
theorem levelRule?_of_declares {before after : List Token} {block : Token} {rule : Rule}
    (hdeclares : block.declares after.head? = true) (hrule : block.rule? = some rule)
    (hlast : ∀ other ∈ declaredRules after, other.name ≠ rule.name) :
    levelRule? (before ++ block :: after) rule.name = some rule := by
  obtain ⟨front, hfront⟩ := declaring_append before (block :: after)
  have hnone : (declaredRules after).filter (·.name = rule.name) = [] :=
    List.filter_eq_nil_iff.2 fun other hother => by simpa using hlast other hother
  rw [declaredRules] at hnone
  rw [levelRule?, declaredRules, hfront, declaring, if_pos hdeclares, List.filterMap_append,
    List.filterMap_cons_some hrule, List.filter_append, List.filter_cons_of_pos (by simp), hnone,
    List.getLast?_append]
  rfl

/-- A function that a level declares, with its parameters in one leaf and spelled as lexemes, some
of them tagged. No later one of its name on the level has a rule. -/
structure NamedDeclaration (level : List Token) where
  before : List Token
  signature : Bytes
  text : Bytes
  start : Nat
  offset : Nat
  after : List Token
  name : Bytes
  parameters : List Parameter
  level_eq : level = before ++ .block signature [.leaf text start] offset :: after
  declares : (Token.block signature [.leaf text start] offset).declares after.head? = true
  named : ruleName? signature = some name
  spelled : Parameter.listOfLexemes? (Lexeme.visible text) = some parameters
  typed : ∃ parameter ∈ parameters, parameter.type ≠ []
  last : ∀ rule ∈ declaredRules after, rule.name ≠ name

namespace NamedDeclaration

variable {level : List Token} (declaration : NamedDeclaration level)

/-- The parameters that are tagged, in their order. -/
def tagged : List Parameter := declaration.parameters.filter (!·.type.isEmpty)

/-- The rule of the declaration keeps its tagged parameters. -/
def rule : Rule :=
  ⟨declaration.name, declaration.tagged, [.leaf declaration.text declaration.start],
      declaration.offset⟩

/-- The tagged parameters are read from the leaf. -/
theorem taggedParameters_eq : taggedParameters [.leaf declaration.text declaration.start] =
    declaration.tagged := by
  have hjoin : join "\n" ((leavesAll [.leaf declaration.text declaration.start]).map head) =
      declaration.text := by
    simp [leavesAll, leaves, join, head]
  rw [taggedParameters, hjoin, decodeParameters,
    Parameter.isBlank_of_listOfLexemes? declaration.spelled, declaration.spelled]
  rfl

/-- The declaration gives the rule of its name. -/
theorem levelRule?_eq : levelRule? level declaration.name = some declaration.rule := by
  have hne : declaration.tagged ≠ [] := by
    obtain ⟨parameter, hmem, htype⟩ := declaration.typed
    exact List.ne_nil_of_mem (List.mem_filter.2 ⟨hmem, by simpa using htype⟩)
  have hrule :
      (Token.block declaration.signature [.leaf declaration.text declaration.start]
        declaration.offset).rule? =
      some declaration.rule := by
    simp [Token.rule?, declaration.named, declaration.taggedParameters_eq, hne, rule]
  exact (congrArg (levelRule? · declaration.name) declaration.level_eq).trans
    (levelRule?_of_declares declaration.declares hrule declaration.last)

end NamedDeclaration

/-- A block that calls what a sibling declares, with a list of names in one leaf that is not the
leaf of the declaration. -/
structure NameCall (site : Site) (declaration : NamedDeclaration site.level) where
  list : Bytes
  start : Nat
  names : List Bytes
  content_eq : site.content = [.leaf list start]
  plain : site.declares = false
  named : callName site.signature = declaration.name
  differs : list ≠ declaration.text
  lists : Lexeme.sequence list = Argument.written names

/-- A call of names is checked against the rule of the declaration. -/
theorem NameCall.treatment_eq {site : Site} {declaration : NamedDeclaration site.level}
    (call : NameCall site declaration)
    (options : CheckOptions) : site.treatment options = .call declaration.rule := by
  have hdiffers : sameAll site.content declaration.rule.declaration = false := by
    rw [call.content_eq, NamedDeclaration.rule]
    simp [sameAll, same, call.differs]
  have hrule : site.rule? options = some declaration.rule := by
    rw [Site.rule?, call.named, declaration.levelRule?_eq, Option.some_or]
  rw [Site.treatment, call.plain, hrule]
  simp [hdiffers]

/-- A call that lists names raises that their number is wrong exactly when it is not the number of
the tagged parameters of the declaration. Each name is compared with the tagged parameter at its own
position among these. Nothing else is raised for the call. -/
theorem call_raises_arity_iff {options : CheckOptions} {tokens : List Token}
    {past future : List Visit} {site : Site}
    (hvisits : visits options tokens = past ++ .meet site :: future)
    (declaration : NamedDeclaration site.level) (call : NameCall site declaration) :
    let tags := tagsAfter options {} past
    let arguments := callArguments site.content site.offset
    let raised :=
      arityFaults declaration.name declaration.tagged.length call.names.length site.offset ++
      comparisons tags declaration.name 1 arguments declaration.tagged
    arguments.map Prod.fst = call.names ∧
    (checkAndStrip options tokens).2.HasRaised options
      (faultsFrom options {} past ++ (raised ++ faultsFrom options tags future)) ∧
    ((∃ d ∈ raised, d.kind = .arity) ↔ call.names.length ≠ declaration.tagged.length) := by
  intro tags arguments raised
  obtain ⟨hnames, hfaults⟩ :=
    @callFaults_of_written tags declaration.name call.list call.names declaration.rule
    call.start site.offset call.lists
  rw [← call.content_eq] at hnames hfaults
  have hraised : site.faults options tags = raised := by
    rw [Site.faults, call.treatment_eq]
    dsimp only
    rw [call.named, hfaults]
    rfl
  refine ⟨hnames, ?_, ?_⟩
  · have hall := hasRaised_checkAndStrip options tokens
    rwa [hvisits, faultsFrom_append, faultsFrom, hraised] at hall
  · constructor
    · rintro ⟨d, hd, hkind⟩ hlength
      rw [List.mem_append, arityFaults, if_pos hlength] at hd
      exact kind_ne_arity d (hd.resolve_left List.not_mem_nil) hkind
    · intro hlength
      refine ⟨.arityMismatch declaration.name declaration.tagged.length call.names.length
        { offset := site.offset }, List.mem_append_left _ ?_, rfl⟩
      rw [arityFaults, if_neg hlength]
      exact List.mem_singleton_self _

/-- Untagged parameters do not count: two names are enough for the two tagged parameters, and the
second name is compared with the fourth parameter. -/
theorem call_raises_arity_iff_mixed : ∃ tokens,
    tokenize "function f(a, b|N, c, d|M = 1)\x7b\x7d;let x : N = 1;let y : K = 2;f(x, y)" =
      .ok tokens ∧
      (checkAndStrip {} tokens).2.HasRaised {}
      [.typeMismatch "f" 2 "d" "M" "K" { offset := 66 }] := by
  let level : List Token :=
    [.block "function f(" [.leaf "a, b|N, c, d|M = 1" 11] 0, .block "\x7b" [] 30,
    .leaf "let x = 1" 33, .leaf "let y = 2" 47, .block "f(" [.leaf "x, y" 63] 61]
  let tokens : List Token :=
    [.block "function f(" [.leaf "a, b|N, c, d|M = 1" 11] 0, .block "\x7b" [] 30,
    .leaf "let x : N = 1" 33, .leaf "let y : K = 2" 47, .block "f(" [.leaf "x, y" 63] 61]
  let site : Site :=
    { level, outer := [], next := none, signature := "f(", content := [.leaf "x, y" 63],
      offset := 61 }
  have hlast : (visits {} tokens).getLast? = some (.meet site) := by decide +kernel
  have hvisits := (List.dropLast_append_getLast? _ hlast).symm
  let declaration : NamedDeclaration site.level := {
    before := []
    signature := "function f("
    text := "a, b|N, c, d|M = 1"
    start := 11
    offset := 0
    after := level.tail
    name := "f"
    parameters := [⟨"a", []⟩, ⟨"b", "N"⟩, ⟨"c", []⟩, ⟨"d", "M"⟩]
    level_eq := rfl
    declares := by decide +kernel
    named := by decide +kernel
    spelled := by decide +kernel
    typed := ⟨⟨"b", "N"⟩, by simp, by decide⟩
    last := by decide +kernel }
  let call : NameCall site declaration := {
    list := "x, y"
    start := 63
    names := ["x", "y"]
    content_eq := rfl
    plain := by decide +kernel
    named := by decide +kernel
    differs := by decide
    lists := by decide +kernel }
  refine ⟨tokens, by decide +kernel, ?_⟩
  convert (call_raises_arity_iff hvisits declaration call).2.1 using 1
  decide +kernel

/-- A call with a name for each of two parameters is rejected if one of them is not tagged, and the
first name is compared with the second parameter. Nor does a call have the right number of names if
a later declaration takes another number. -/
theorem call_raises_arity_mixed :
    (∃ tokens, tokenize "function f(a, b|N) \x7b\x7d\nlet x : N = 1\nlet y : M = 2\nf(y, x)" =
      .ok tokens ∧
      Parameter.listOfLexemes? (Lexeme.visible "a, b|N") = some [⟨"a", []⟩, ⟨"b", "N"⟩] ∧
      (checkAndStrip {} tokens).2.diagnostics =
        [.arityMismatch "f" 1 2 { offset := 50 },
          .typeMismatch "f" 1 "b" "N" "M" { offset := 52 }]) ∧
    ∃ tokens,
      tokenize "function f(a|N) \x7b\x7d\nfunction f(a|N, b|M) \x7b\x7d\nlet x : N = 1\nf(x)" =
      .ok tokens ∧
      (checkAndStrip {} tokens).2.diagnostics = [.arityMismatch "f" 2 1 { offset := 57 }] := by
  constructor
  · refine ⟨[.block "function f(" [.leaf "a, b|N" 11] 0, .block "\x7b" [] 19,
      .leaf "let x : N = 1" 22, .leaf "let y : M = 2" 36, .block "f(" [.leaf "y, x" 52] 50],
      by decide +kernel, ?_, ?_⟩
    · decide +kernel
    · decide +kernel
  · refine ⟨[.block "function f(" [.leaf "a|N" 11] 0, .block "\x7b" [] 16,
      .block "function f(" [.leaf "a|N, b|M" 30] 19, .block "\x7b" [] 40, .leaf "let x : N = 1" 43,
      .block "f(" [.leaf "x" 59] 57], by decide +kernel, ?_⟩
    decide +kernel

end TagScript
