import TagScript.Proofs.BuildSteps

/-!
# What a build leaves alone

A build writes where its targets are. A copied file has its target strictly below the output root,
and so has a script when the extension of targets has no slash and is not the way up. Then nothing
outside the output root changes, but for missing directories above it. An extension with a slash can
lead a target anywhere: cleaning the target takes its steps upwards out of the output root.
-/

namespace TagScript

namespace Build

/-- Two trees that differ at most strictly below a place. -/
def OnlyBelow (out : List Bytes) (s t : FileTree) : Prop :=
  ∀ place, ¬ StrictlyBelow out place → t.find? place = s.find? place

variable {c : Config} {m : Machine} {kind : NodeKind} {root out path : Path}

/-! ### Targets -/

/-- A configuration without a fault has an extension for what it writes. -/
theorem isExtension_targetExt (h : c.fault? = none) : Config.isExtension c.targetExt = true := by
  by_contra hbad
  unfold Config.fault? at h
  repeat' split at h
  all_goals simp_all

/-- An extension without a slash that is not the way up makes a name of what it is put to. -/
theorem isName_append_extension {stem ext : Bytes} (hext : Config.isExtension ext = true)
    (hslash : ('/' : Char).toUInt8 ∉ ext) (hup : ext ≠ upName)
    (hstem : ('/' : Char).toUInt8 ∉ stem) :
    IsName (stem ++ ext) := by
  have hlength : 2 ≤ (stem ++ ext).length := by
    simp only [Config.isExtension, Bool.and_eq_true, decide_eq_true_eq] at hext
    rw [List.length_append]
    exact hext.2.trans (Nat.le_add_left _ _)
  refine ⟨fun hnil => ?_, fun hself => ?_, fun heq => ?_, fun hmem => ?_⟩
  · rw [hnil] at hlength
    exact absurd hlength (by decide)
  · rw [hself] at hlength
    exact absurd hlength (by decide)
  · have htotal : stem.length + ext.length = 2 := by rw [← List.length_append, heq]; rfl
    have hnil : stem = [] := by
      simp only [Config.isExtension, Bool.and_eq_true, decide_eq_true_eq] at hext
      exact List.length_eq_zero_iff.1 (by omega)
    exact hup (by simpa [hnil] using heq)
  · exact (List.mem_append.1 hmem).elim hstem hslash

/-- A copy goes strictly below the output root, and a script too if its new extension cannot lead
out of a directory. -/
theorem LeadsTo.strictlyBelow_target {rest : List Bytes} (h : LeadsTo root path rest)
    (hout : out.IsPlace) (hext : Config.isExtension c.targetExt = true)
    (hslash : ('/' : Char).toUInt8 ∉ c.targetExt)
    (hup : c.targetExt ≠ upName) : StrictlyBelow out.parts (target c root out path).parts := by
  have happend : ∀ {more : List Bytes}, more ≠ [] → StrictlyBelow out.parts (out.parts ++ more) :=
      fun hne => ⟨List.prefix_append _ _, by simpa using hne⟩
  unfold target
  split
  case isFalse =>
    rw [h.parts_copyTarget hout]
    exact happend h.ne_nil
  case isTrue =>
    obtain ⟨tail, htail⟩ := Bytes.dropTail_prefix c.sourceExt (relativeText root path)
    obtain ⟨init, last, first, more, hstem, -, hwhole⟩ := Bytes.split_append ('/' : Char).toUInt8
      (Bytes.dropTail c.sourceExt (relativeText root path)) tail
    obtain ⟨init', last', first', more', hstem', hext', hnew⟩ :=
      Bytes.split_append ('/' : Char).toUInt8
      (Bytes.dropTail c.sourceExt (relativeText root path)) c.targetExt
    obtain ⟨rfl, hlast⟩ := List.append_inj' (hstem.symm.trans hstem') rfl
    obtain ⟨rfl, -⟩ := List.cons.inj hlast
    -- only the last piece changes: what the extension is put to holds no slash
    rw [Bytes.split_eq_splitOn, List.splitOn_eq_singleton hslash] at hext'
    obtain ⟨rfl, rfl⟩ := List.cons.inj hext'
    rw [htail, h.split_relativeText] at hwhole
    have hnames : ∀ part ∈ init ++ [last ++ c.targetExt], IsName part := by
      intro part hpart
      rcases List.mem_append.1 hpart with hpart | hpart
      · exact h.names part (hwhole ▸ List.mem_append_left _ hpart)
      · rw [List.mem_singleton.1 hpart]
        have hpiece : ('/' : Char).toUInt8 ∉ last :=
          Bytes.not_mem_of_mem_split (hstem.symm ▸ List.mem_append_right init List.mem_cons_self)
        exact isName_append_extension hext hslash hup hpiece
    have hspelled :
        (Path.ofText (Bytes.dropTail c.sourceExt (relativeText root path) ++ c.targetExt)).parts =
        init ++ [last ++ c.targetExt] := by
      rw [parts_ofText (hnew.symm ▸ hnames), hnew]
    rw [scriptTarget, hout.parts_join (hspelled.symm ▸ hnames), hspelled]
    exact happend (by simp)

/-- The targets of an input lie strictly below the output root if the new extension cannot lead out
of a directory. -/
theorem Begun.strictlyBelow_target (h : Begun c m kind) (hpath : path ∈ filesOf c m kind)
    (hslash : ('/' : Char).toUInt8 ∉ c.targetExt) (hup : c.targetExt ≠ upName) :
    StrictlyBelow (c.outPath m).parts
      (target c (rootOf (c.inputPath m) kind) (c.outPath m) path).parts := by
  obtain ⟨rest, hleads⟩ := h.exists_leadsTo hpath
  exact hleads.strictlyBelow_target h.out (isExtension_targetExt h.accepted) hslash hup

/-! ### One step -/

/-- What saving the result for a file can do to a tree. -/
theorem saved_target {t : FileTree} (hout : out.IsPlace) (ht : t.WellFormed)
    (c : Config) (root path : Path) (result : Bytes) :
    Saved (target c root out path).parts result t
      (save (saveProblem c path) (target c root out path) result t) := by
  have htarget := isPlace_target hout c root path
  have hsaved : Saved (target c root out path).parts result t
      (save (saveProblem c path) ⟨true, (target c root out path).parts⟩ result t) :=
      save_spec ht htarget.names
  rwa [← htarget.eq_mk] at hsaved

/-- The way to a directory that was emptied goes through directories. -/
theorem Emptied.directory_of_prefix {out place : List Bytes} {t : FileTree} (h : Emptied out t)
    (hplace : place <+: out) : t.find? place = some .directory := by
  obtain ⟨rest, rfl⟩ := hplace
  by_cases hrest : rest = []
  · simpa [hrest] using h.directory
  · exact h.formed.directory_of_find? h.directory hrest

/-- Saving strictly below a directory changes nothing elsewhere. -/
theorem onlyBelow_save {asProblem : Path → FileError → FileProblem} {content : Bytes}
    {out place : List Bytes} {t : FileTree} (h : t.WellFormed)
    (hplace : ∀ part ∈ place, IsName part)
    (hout : ∀ other, other <+: out → t.find? other = some .directory)
    (hbelow : StrictlyBelow out place) :
    OnlyBelow out t (save asProblem ⟨true, place⟩ content t).2 := by
  intro other hother
  rcases (save_spec h hplace : Saved place content t (save asProblem ⟨true, place⟩ content t)).find
      other with
    hsame | ⟨hpre, -, ⟨-, hnone, -⟩ | ⟨rfl, -, -⟩⟩
  · exact hsame
  · have hdirectory := hout other ((hbelow.prefix_or hpre).resolve_right hother)
    exact nomatch hnone.symm.trans hdirectory
  · exact absurd hbelow hother

/-- A file whose target is strictly below the output root changes nothing elsewhere when it is built
first. -/
theorem onlyBelow_buildOne {fresh : Machine} (hout : out.IsPlace)
    (hfresh : Emptied out.parts fresh.tree)
    (hbelow : StrictlyBelow out.parts (target c root out path).parts) :
    OnlyBelow out.parts fresh.tree (buildOne c root out path fresh).2.tree := by
  have htarget := isPlace_target hout c root path
  rw [tree_buildOne]
  cases written? c fresh path with
  | none => exact fun _ _ => rfl
  | some result =>
    dsimp only
    rw [htarget.eq_mk]
    exact onlyBelow_save hfresh.formed htarget.names (fun _ => hfresh.directory_of_prefix) hbelow

/-- A step keeps a tree well-formed, and keeps its directories. -/
theorem buildOne_keeps (hout : out.IsPlace) (hm : m.tree.WellFormed) (c : Config)
    (root path : Path) : (buildOne c root out path m).2.tree.WellFormed ∧
      ∀ place, m.tree.find? place = some .directory →
        (buildOne c root out path m).2.tree.find? place = some .directory := by
  rw [tree_buildOne]
  cases written? c m path with
  | none => exact ⟨hm, fun _ => id⟩
  | some result =>
    have hsaved := saved_target hout hm c root path result
    refine ⟨hsaved.formed, fun place hplace => ?_⟩
    rcases hsaved.find place with hsame | ⟨-, -, ⟨-, hnone, -⟩ | ⟨-, hfree, -⟩⟩
    · rw [hsame, hplace]
    · exact nomatch hplace.symm.trans hnone
    · exact absurd hplace hfree

/-- Outside the output root, a step does on a machine what it does on one where the output root is
empty. -/
theorem find?_buildOne_outside {fresh : Machine} (hout : out.IsPlace)
    (hfresh : Emptied out.parts fresh.tree) (hm : m.tree.WellFormed)
    (honly : OnlyBelow out.parts fresh.tree m.tree)
    (hsource : IsSource out.parts fresh.tree path) {place : List Bytes}
    (hplace : ¬ StrictlyBelow out.parts place) :
    (buildOne c root out path m).2.tree.find? place =
      (buildOne c root out path fresh).2.tree.find? place := by
  obtain ⟨content, hfile⟩ := hsource.file
  have hread : m.readFile path = fresh.readFile path :=
    readFile_congr hfresh.formed hm hsource.place hfile
      ((honly _ fun hbelow => hsource.outside hbelow.1).trans hfile)
  have htarget := isPlace_target hout c root path
  rw [tree_buildOne, tree_buildOne, written?_congr hread]
  cases written? c fresh path with
  | none => exact honly place hplace
  | some result =>
    dsimp only
    rw [htarget.eq_mk]
    by_cases hbelow : StrictlyBelow out.parts (target c root out path).parts
    · have hdirectories : ∀ other, other <+: out.parts → m.tree.find? other = some .directory := by
        intro other hother
        rw [honly other (not_strictlyBelow_above hother)]
        exact hfresh.directory_of_prefix hother
      rw [onlyBelow_save hm htarget.names hdirectories hbelow place hplace, honly place hplace]
      exact (onlyBelow_save hfresh.formed htarget.names (fun _ => hfresh.directory_of_prefix)
        hbelow place hplace).symm
    · -- a target elsewhere is reached without coming through the output root
      have hway : ∀ other, other <+: (target c root out path).parts →
          m.tree.find? other = fresh.tree.find? other :=
        fun other hother => honly other fun hin => hbelow (hin.of_prefix hother)
      by_cases hpre : place <+: (target c root out path).parts
      · exact (save_agree hfresh.formed hm htarget.names fun other hother => .inl
          (hway other hother)).2 place hpre
      · rw [find?_save_off_way hm htarget.names hpre,
          find?_save_off_way hfresh.formed htarget.names hpre]
        exact honly place hplace

/-! ### The course of a build -/

/-- The machine before each file and after the last one. -/
def course (c : Config) (root out : Path) : List Path → Machine → List Machine
  | [], m => [m]
  | path :: files, m => m :: course c root out files (buildOne c root out path m).2

/-- The machine that a course starts from is on it. -/
theorem mem_course_self (c : Config) (root out : Path) (files : List Path) (m : Machine) :
    m ∈ course c root out files m := by
  cases files <;> simp [course]

/-- The machine that a build leaves is on its course. -/
theorem buildAll_mem_course (c : Config) (root out : Path) (files : List Path) (m : Machine) :
    (buildAll c root out files m).2 ∈ course c root out files m := by
  induction files generalizing m with
  | nil => simp [course, buildAll_nil]
  | cons path files ih =>
    rw [buildAll_cons, course]
    exact List.mem_cons_of_mem _ (ih _)

/-- A run keeps a tree well-formed, and keeps its directories. -/
theorem course_keeps (hout : out.IsPlace) {files : List Path} (hm : m.tree.WellFormed)
    {state : Machine} (hstate : state ∈ course c root out files m) :
    state.tree.WellFormed ∧
      ∀ place, m.tree.find? place = some .directory → state.tree.find? place = some .directory := by
  induction files generalizing m with
  | nil =>
    obtain rfl := List.mem_singleton.1 hstate
    exact ⟨hm, fun _ => id⟩
  | cons path files ih =>
    obtain ⟨hformed, hkept⟩ := buildOne_keeps hout hm c root path
    rcases List.mem_cons.1 hstate with rfl | hstate
    · exact ⟨hm, fun _ => id⟩
    · obtain ⟨hstate, hrest⟩ := ih hformed hstate
      exact ⟨hstate, fun place hplace => hrest place (hkept place hplace)⟩

/-- A run changes nothing outside the output root, just when no file does that is built first. -/
theorem onlyBelow_course_iff {fresh : Machine} (hout : out.IsPlace)
    (hfresh : Emptied out.parts fresh.tree) (hm : m.tree.WellFormed)
    (honly : OnlyBelow out.parts fresh.tree m.tree) {files : List Path}
    (hfiles : ∀ path ∈ files, IsSource out.parts fresh.tree path) :
    (∀ state ∈ course c root out files m, OnlyBelow out.parts fresh.tree state.tree) ↔
      ∀ path ∈ files, OnlyBelow out.parts fresh.tree (buildOne c root out path fresh).2.tree := by
  induction files generalizing m with
  | nil => simpa [course] using honly
  | cons path files ih =>
    rw [List.forall_mem_cons] at hfiles
    have hstep : OnlyBelow out.parts fresh.tree (buildOne c root out path m).2.tree ↔
        OnlyBelow out.parts fresh.tree (buildOne c root out path fresh).2.tree := by
      refine forall_congr' fun place => imp_congr_right fun hplace => ?_
      rw [find?_buildOne_outside hout hfresh hm honly hfiles.1 hplace]
    have hformed := (buildOne_keeps hout hm c root path).1
    rw [course, List.forall_mem_cons, List.forall_mem_cons, ← hstep]
    constructor
    · rintro ⟨-, hrest⟩
      have hnext := hrest _ (mem_course_self _ _ _ _ _)
      exact ⟨hnext, (ih hformed hnext hfiles.2).1 hrest⟩
    · rintro ⟨hnext, hrest⟩
      exact ⟨honly, (ih hformed hnext hfiles.2).2 hrest⟩

/-- What a build may do to the files of a machine: what it makes or changes lies strictly below the
output root, but for the root itself and missing directories above it; what it removes lies within
the output root; and what lies at the input or below it stays as it is. -/
structure Contained (c : Config) (m : Machine) (t : FileTree) : Prop where
  made : ∀ place node, t.find? place = some node → m.tree.find? place ≠ some node →
    StrictlyBelow (c.outPath m).parts place ∨
      place <+: (c.outPath m).parts ∧ (place = (c.outPath m).parts ∨ m.tree.find? place = none) ∧
      node = .directory
  removed : ∀ place, t.find? place = none → m.tree.find? place ≠ none →
    (c.outPath m).parts <+: place
  input : ∀ place, (c.inputPath m).parts <+: place → t.find? place = m.tree.find? place

/-- The machines that a build passes through from the emptying of the output root on. -/
def states (c : Config) (m : Machine) (kind : NodeKind) : List Machine :=
  match resetOf c m with
  | (.error _, reset) => [reset]
  | (.ok (), reset) => course c (rootOf (c.inputPath m) kind) (c.outPath m) (filesOf c m kind) reset

namespace Begun

variable {t : FileTree}

/-- Emptying the output root is contained, and so is all that changes nothing outside it after
that. -/
theorem contained_of_onlyBelow (h : Begun c m kind)
    (honly : OnlyBelow (c.outPath m).parts (resetOf c m).2.tree t) :
    Contained c m t := by
  have hreset := h.resetOf_spec.1
  refine ⟨fun place node hnode hnew => ?_, fun place hnone hold => ?_, fun place hinput => ?_⟩
  · by_cases hbelow : StrictlyBelow (c.outPath m).parts place
    · exact .inl hbelow
    · rw [honly place hbelow] at hnode
      rcases hreset place with hsame | ⟨-, hnone⟩ | ⟨hpre, hmissing, hdirectory⟩
      · exact absurd (hsame.symm.trans hnode) hnew
      · exact nomatch hnone.symm.trans hnode
      · exact .inr ⟨hpre, hmissing, (Option.some.inj (hdirectory.symm.trans hnode)).symm⟩
  · by_cases hbelow : StrictlyBelow (c.outPath m).parts place
    · exact hbelow.1
    · rw [honly place hbelow] at hnone
      rcases hreset place with hsame | ⟨hpre, -⟩ | ⟨-, -, hdirectory⟩
      · exact absurd (hsame.symm.trans hnone) hold
      · exact hpre
      · exact nomatch hnone.symm.trans hdirectory
  · rw [honly place fun hbelow => (h.outside_out hinput).1 hbelow.1, h.find?_resetOf hinput]

/-- What is contained and keeps the directories changes nothing outside the output root. -/
theorem onlyBelow_of_contained (h : Begun c m kind) (ht : Contained c m t)
    (hreset : Emptied (c.outPath m).parts (resetOf c m).2.tree)
    (hkept : ∀ place, (resetOf c m).2.tree.find? place = some .directory →
      t.find? place = some .directory) :
    OnlyBelow (c.outPath m).parts (resetOf c m).2.tree t := by
  intro place hbelow
  by_cases hway : place <+: (c.outPath m).parts
  · have hdirectory := hreset.directory_of_prefix hway
    rw [hdirectory, hkept place hdirectory]
  · have hout : ¬ (c.outPath m).parts <+: place := fun hpre =>
      hbelow ⟨hpre, fun heq => hway (heq ▸ List.prefix_rfl)⟩
    rw [h.find?_resetOf_apart hout hway]
    cases hnode : t.find? place with
    | none =>
      by_contra hold
      exact hout (ht.removed place hnode (Ne.symm hold))
    | some node =>
      by_contra hnew
      rcases ht.made place node hnode (Ne.symm hnew) with hin | ⟨hpre, -⟩
      · exact hbelow hin
      · exact hway hpre

end Begun

/-- Every machine that a build passes through is contained, just when each file of the input is so
when it is built first. An extension of targets that cannot lead out of a directory makes it so. -/
theorem contained_states_iff (h : Begun c m kind) :
    ((build false c : StateM Machine _) m).2 ∈ states c m kind ∧
      ((∀ state ∈ states c m kind, Contained c m state.tree) ↔
        ((resetOf c m).1 = .ok () → ∀ path ∈ filesOf c m kind,
          Contained c m
            (buildOne c (rootOf (c.inputPath m) kind) (c.outPath m) path (resetOf c m).2).2.tree)) ∧
      (('/' : Char).toUInt8 ∉ c.targetExt → c.targetExt ≠ upName →
        ∀ state ∈ states c m kind, Contained c m state.tree) := by
  have hemptied := h.resetOf_spec.2
  have hsources : ∀ path ∈ filesOf c m kind, _ := fun path hpath => h.isSource hpath
  have hinside := fun t => h.contained_of_onlyBelow (t := t)
  have houtside := fun t => h.onlyBelow_of_contained (t := t)
  rw [build_run h]
  unfold states
  generalize resetOf c m = r at *
  obtain ⟨e | _, reset⟩ := r
  · have hreset : Contained c m reset.tree := hinside _ fun _ _ => rfl
    refine ⟨by simp, ⟨fun _ hok => (nomatch hok), fun _ => ?_⟩, fun _ _ => ?_⟩
    · simpa using hreset
    · simpa using hreset
  · have hfresh := hemptied rfl
    have hiff :
        (∀ state ∈ course c (rootOf (c.inputPath m) kind) (c.outPath m) (filesOf c m kind) reset,
          _) ↔ _ :=
      onlyBelow_course_iff h.out hfresh hfresh.formed (fun _ _ => rfl) hsources
    have hstates :
        ∀ state ∈ course c (rootOf (c.inputPath m) kind) (c.outPath m) (filesOf c m kind) reset,
        Contained c m state.tree ↔ OnlyBelow (c.outPath m).parts reset.tree state.tree :=
        fun state hstate =>
          ⟨fun ht => houtside _ ht hfresh (course_keeps h.out hfresh.formed hstate).2, hinside _⟩
    have hfiles : ∀ path ∈ filesOf c m kind, Contained c m
        (buildOne c (rootOf (c.inputPath m) kind) (c.outPath m) path reset).2.tree ↔
          OnlyBelow (c.outPath m).parts reset.tree
            (buildOne c (rootOf (c.inputPath m) kind) (c.outPath m) path reset).2.tree :=
      fun path _ =>
        ⟨fun ht => houtside _ ht hfresh (buildOne_keeps h.out hfresh.formed _ _ _).2, hinside _⟩
    refine ⟨buildAll_mem_course _ _ _ _ _, ?_, fun hslash hup state hstate => ?_⟩
    · rw [forall₂_congr hstates, hiff, ← forall₂_congr hfiles]
      simp
    · refine (hstates state hstate).2 (hiff.2 (fun path hpath => ?_) state hstate)
      exact onlyBelow_buildOne h.out hfresh (h.strictlyBelow_target hpath hslash hup)

/-- A machine with one script, for builds that are run in the directory above the input. -/
def scriptMachine : Machine where
  tree :=
    ⟨[(["r"], .directory), (["r", "src"], .directory),
      (["r", "src", "a.zl"], .file "const x : N = 1")]⟩
  workingDirectory := ⟨true, ["r"]⟩

/-- The machine with one script is well formed. -/
theorem wellFormed_scriptMachine : scriptMachine.WellFormed :=
  ⟨⟨by decide, by decide, by decide⟩, rfl, by decide⟩

/-- A build of one script keeps to its directories, from its start to its end. -/
theorem contained_states_script : Begun {} scriptMachine .directory ∧
    ∀ state ∈ states {} scriptMachine .directory, Contained {} scriptMachine state.tree := by
  have hbegun : Begun {} scriptMachine .directory :=
    ⟨wellFormed_scriptMachine, by decide, rfl, by decide⟩
  exact ⟨hbegun, (contained_states_iff hbegun).2.2 (by decide) (by decide)⟩

/-- An accepted extension whose steps upwards lead the result of a script out of the output root. -/
theorem not_contained_climbing_extension :
    Begun { targetExt := "./../../x" } scriptMachine .directory ∧
    ¬ Contained { targetExt := "./../../x" } scriptMachine
      ((build false { targetExt := "./../../x" } : StateM Machine _) scriptMachine).2.tree := by
  refine ⟨⟨wellFormed_scriptMachine, by decide, rfl, by decide⟩, fun hcontained => ?_⟩
  have hplace := hcontained.made ["r", "x"] (.file "const x = 1") (by decide +kernel) (by decide)
  revert hplace
  decide

end Build

end TagScript
