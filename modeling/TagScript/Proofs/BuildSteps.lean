import TagScript.Proofs.Saving

/-!
# The steps of a build

A build looks at one file after another. What it writes for a file depends on the content of that
file alone, and where it writes on the path alone; the files of the machine come in when the file is
read and when the result is saved. So a step is told by what reading gave and by what saving did.

The output root is empty when the first file is looked at, and no file of the input lies in it.
-/

namespace TagScript

/-- Whether a place lies below another one and is not that place itself. -/
def StrictlyBelow (root place : List Bytes) : Prop := root <+: place ∧ place ≠ root

instance (root place : List Bytes) : Decidable (StrictlyBelow root place) :=
  inferInstanceAs (Decidable (_ ∧ _))

/-- What a place strictly below leads to is strictly below. -/
theorem StrictlyBelow.of_prefix {root place more : List Bytes} (h : StrictlyBelow root place)
    (hmore : place <+: more) :
    StrictlyBelow root more := by
  refine ⟨h.1.trans hmore, ?_⟩
  rintro rfl
  exact h.2 (hmore.eq_of_length_le h.1.length_le)

/-- What is on the way to a place strictly below a root is on the way to the root, or strictly below
it. -/
theorem StrictlyBelow.prefix_or {root place other : List Bytes} (h : StrictlyBelow root place)
    (hother : other <+: place) : other <+: root ∨ StrictlyBelow root other := by
  rcases List.prefix_or_prefix_of_prefix hother h.1 with hpre | hpre
  · exact .inl hpre
  · by_cases heq : other = root
    · exact .inl (heq ▸ List.prefix_rfl)
    · exact .inr ⟨hpre, heq⟩

/-- Nothing that leads to a directory lies below it. -/
theorem not_strictlyBelow_above {root place : List Bytes} (h : place <+: root) :
    ¬ StrictlyBelow root place :=
  fun hbelow => hbelow.2 (h.eq_of_length_le hbelow.1.length_le)

namespace Build

/-! ### One file -/

/-- Whether a file is compiled. -/
def isScript (c : Config) (path : Path) : Bool := path.text.endsWith c.sourceExt

/-- Where the result for a file goes. -/
def target (c : Config) (root out path : Path) : Path :=
  if isScript c path then scriptTarget c out (relativeText root path)
  else copyTarget out (relativeText root path)

/-- What is written for a file with some content; nothing for a script that fails the check. -/
def result? (c : Config) (path : Path) (content : Bytes) : Option Bytes :=
  if isScript c path then
    if (compile c.compileOptions content).failed then none
    else some (compile c.compileOptions content).output
  else some content

/-- What is written for a file, given what reading it gave. -/
def resultOf? (c : Config) (path : Path) : Except FileError Bytes → Option Bytes
  | .ok content => result? c path content
  | .error _ => none

/-- What is written for a file of a machine. -/
def written? (c : Config) (m : Machine) (path : Path) : Option Bytes :=
  resultOf? c path (m.readFile path)

/-- What a failure to write the result for a file is. -/
def saveProblem (c : Config) (path : Path) : Path → FileError → FileProblem :=
  if isScript c path then .writing else .making

/-- The report on a file, given what reading it and saving its result gave. -/
def reportOf (c : Config) (root out path : Path) (read : Except FileError Bytes)
    (saved : Except FileProblem Unit) : FileReport where
  source := path
  rel := relativeText root path
  output := match resultOf? c path read, saved with
    | some _, .ok () => some (target c root out path)
    | _, _ => none
  action := match resultOf? c path read, saved with
    | some _, .ok () => if isScript c path then .compiled else .copied
    | _, _ => .failed
  diagnostics := match read, resultOf? c path read with
    | .ok content, none => (compile c.compileOptions content).diagnostics
    | _, _ => []
  problem := match read, resultOf? c path read, saved with
    | .error e, _, _ => some (if isScript c path then .reading path e else .opening path e)
    | .ok _, some _, .error problem => some problem
    | _, _, _ => none
  content := match read with
    | .ok content => if isScript c path then content else []
    | .error _ => []

/-- What a report says that was done: the file was compiled or copied if it had a result that was
saved, and else it failed. -/
theorem action_reportOf (c : Config) (root out path : Path) (read : Except FileError Bytes)
    (saved : Except FileProblem Unit) :
    (reportOf c root out path read saved).action = match resultOf? c path read, saved with
      | some _, .ok () => if isScript c path then .compiled else .copied
      | _, _ => .failed := rfl

/-- A file is written unless the report says that it failed. -/
theorem output_reportOf (c : Config) (root out path : Path) (read : Except FileError Bytes)
    (saved : Except FileProblem Unit) :
    (reportOf c root out path read saved).output =
      if (reportOf c root out path read saved).action = .failed then none
      else some (target c root out path) := by
  have houtput : (reportOf c root out path read saved).output =
      match resultOf? c path read, saved with
    | some _, .ok () => some (target c root out path)
    | _, _ => none := rfl
  rw [houtput, action_reportOf]
  cases resultOf? c path read with
  | none => rfl
  | some result =>
    cases saved with
    | error problem => rfl
    | ok => cases isScript c path <;> rfl

/-- A step reads the file and saves its result, if there is one. -/
theorem processFile_run (c : Config) (root out path : Path) (m : Machine) :
    (processFile c root out path : StateM Machine _) m =
      match written? c m path with
      | none => (reportOf c root out path (m.readFile path) (.ok ()), m)
      | some result =>
        let saved := save (saveProblem c path) (target c root out path) result m.tree
        (reportOf c root out path (m.readFile path) saved.1, { m with tree := saved.2 }) := by
  have hread : (MonadHost.readFile path : StateM Machine _) m = (m.readFile path, m) := rfl
  unfold processFile written? reportOf resultOf? result? saveProblem target
  by_cases hscript : path.text.endsWith c.sourceExt
  · simp only [isScript, hscript, if_true]
    unfold compileFile
    rw [Machine.run_bind, hread]
    cases m.readFile path with
    | error e => rfl
    | ok content =>
      dsimp only
      cases hfailed : (compile c.compileOptions content).failed with
      | true => simp [Machine.run_pure]
      | false =>
        simp only [Bool.false_eq_true, if_false, Machine.run_bind, write_run]
        cases (save .writing (scriptTarget c out (relativeText root path))
          (compile c.compileOptions content).output m.tree).1 <;> rfl
  · simp only [isScript, hscript, Bool.false_eq_true, if_false]
    unfold copyFile
    rw [Machine.run_bind, hread]
    cases m.readFile path with
    | error e => rfl
    | ok content =>
      simp only [Machine.run_bind, write_run]
      cases (save .making (copyTarget out (relativeText root path)) content m.tree).1 <;> rfl

/-- What building a file gives. -/
def buildOne (c : Config) (root out path : Path) (m : Machine) : FileReport × Machine :=
  (buildFile c root out path : StateM Machine _) m

/-- The clock of a machine stands still, so taking the time changes nothing. -/
theorem buildOne_eq (c : Config) (root out path : Path) (m : Machine) :
    buildOne c root out path m = (processFile c root out path : StateM Machine _) m := by
  have htimed : buildOne c root out path m =
      ({ ((processFile c root out path : StateM Machine _) m).1 with duration := 0 },
        ((processFile c root out path : StateM Machine _) m).2) := rfl
  rw [htimed, processFile_run]
  split <;> rfl

/-- The files after a step: the result is saved, if there is one. -/
theorem tree_buildOne (c : Config) (root out path : Path) (m : Machine) :
    (buildOne c root out path m).2.tree =
      match written? c m path with
      | none => m.tree
      | some result => (save (saveProblem c path) (target c root out path) result m.tree).2 := by
  rw [buildOne_eq, processFile_run]
  cases written? c m path <;> rfl

/-- A file that is the same on two machines reads the same. -/
theorem readFile_congr {m m' : Machine} (h : m.tree.WellFormed)
    (h' : m'.tree.WellFormed) {path : Path} (hpath : path.IsPlace) {content : Bytes}
    (hfind : m.tree.find? path.parts = some (.file content))
    (hfind' : m'.tree.find? path.parts = some (.file content)) :
    m'.readFile path = m.readFile path := by
  rw [hpath.eq_mk, Machine.readFile_of_find? h' hfind', Machine.readFile_of_find? h hfind]

/-- What a file is written as depends on the machine through its content only. -/
theorem written?_congr {c : Config} {m m' : Machine} {path : Path}
    (h : m'.readFile path = m.readFile path) :
    written? c m' path = written? c m path := by
  unfold written?
  rw [h]

/-! ### All files -/

/-- What building some files, one after another, gives. -/
def buildAll (c : Config) (root out : Path) (order : List Path) (m : Machine) :
    List FileReport × Machine :=
  (order.mapM (buildFile c root out) : StateM Machine _) m

/-- Without files nothing is built. -/
theorem buildAll_nil (c : Config) (root out : Path) (m : Machine) :
    buildAll c root out [] m = ([], m) := rfl

/-- The first file is built, and then the others on the machine that it leaves. -/
theorem buildAll_cons (c : Config) (root out path : Path) (order : List Path) (m : Machine) :
    buildAll c root out (path :: order) m =
      ((buildOne c root out path m).1 ::
        (buildAll c root out order (buildOne c root out path m).2).1,
        (buildAll c root out order (buildOne c root out path m).2).2) := by
  unfold buildAll
  rw [List.mapM_cons]
  rfl

end Build

/-- The input of a project on a machine. -/
def Config.inputPath (c : Config) (m : Machine) : Path :=
  (Path.ofText c.input).absolute m.workingDirectory

/-- The output root of a project on a machine. -/
def Config.outPath (c : Config) (m : Machine) : Path :=
  (Path.ofText c.out).absolute m.workingDirectory

namespace Build

/-- The directory that relative paths start from, for an input of some kind. -/
def rootOf (input : Path) (kind : NodeKind) : Path :=
  if kind = .directory then input else input.directory

/-- The files of an input. -/
def filesOf (c : Config) (m : Machine) (kind : NodeKind) : List Path :=
  ((collectFiles (c.inputPath m) kind : StateM Machine _) m).1

/-- What emptying the output root of a project gives. -/
def resetOf (c : Config) (m : Machine) : Except BuildError Unit × Machine :=
  (resetOut (c.outPath m) : StateM Machine _) m

/-- A build that gets past its checks: the settings are accepted, the input is there, and the output
root lies apart from it. -/
structure Begun (c : Config) (m : Machine) (kind : NodeKind) : Prop where
  formed : m.WellFormed
  accepted : c.fault? = none
  found : m.look (c.inputPath m) = .ok kind
  apart : Path.overlaps (c.outPath m) (c.inputPath m) = false

variable {c : Config} {m : Machine} {kind : NodeKind}

/-- A build that gets past its checks empties the output root and goes through the files. -/
theorem build_run (h : Begun c m kind) :
    (build false c : StateM Machine _) m =
      match resetOf c m with
      | (.error e, reset) => (.error e, reset)
      | (.ok (), reset) =>
        let built := buildAll c (rootOf (c.inputPath m) kind) (c.outPath m) (filesOf c m kind) reset
        (.ok ⟨sortReports built.1, 0⟩, built.2) := by
  have hlook : (MonadHost.look (c.inputPath m) : StateM Machine _) m = (.ok kind, m) :=
    Prod.ext h.found rfl
  have hfiles : (collectFiles (c.inputPath m) kind : StateM Machine _) m =
      (filesOf c m kind, m) := by
    cases kind <;> rfl
  have hinto : (buildInto false c (c.inputPath m) (c.outPath m) kind : StateM Machine _) m =
      match resetOf c m with
      | (.error e, reset) => (.error e, reset)
      | (.ok (), reset) =>
        let built := buildAll c (rootOf (c.inputPath m) kind) (c.outPath m) (filesOf c m kind) reset
        (.ok (sortReports built.1), built.2) := by
    unfold buildInto resetOf
    rw [Machine.run_bind, hfiles, Machine.run_bind]
    rcases (resetOut (c.outPath m) : StateM Machine _) m with ⟨_ | _, reset⟩
    · rfl
    · rfl
  have hnow : (MonadHost.now : StateM Machine _) m = (0, m) := rfl
  have hhere : (MonadHost.workingDirectory : StateM Machine _) m = (m.workingDirectory, m) := rfl
  unfold build
  rw [Machine.run_bind, hnow, Machine.run_bind, hhere, Machine.run_bind, ← Config.inputPath, hlook]
  dsimp only
  rw [← Config.outPath, if_neg (by simp [h.apart]), Machine.run_bind, hinto]
  rcases resetOf c m with ⟨_ | _, reset⟩
  · rfl
  · rfl

/-! ### The start of a build -/

namespace Begun

/-- The input of a build that has begun is a place. -/
theorem input (h : Begun c m kind) : (c.inputPath m).IsPlace :=
  h.formed.workingDirectory.absolute c.input

/-- The output of a build that has begun is a place. -/
theorem out (h : Begun c m kind) : (c.outPath m).IsPlace := h.formed.workingDirectory.absolute c.out

/-- Neither of input and output root holds the other. -/
theorem not_prefix (h : Begun c m kind) :
    ¬ (c.outPath m).parts <+: (c.inputPath m).parts ∧
      ¬ (c.inputPath m).parts <+: (c.outPath m).parts := by
  have hapart := h.apart
  rw [Path.overlaps, Bool.or_eq_false_iff] at hapart
  constructor
  · intro hpre
    simp [(h.out.within_iff h.input).2 hpre] at hapart
  · intro hpre
    simp [(h.input.within_iff h.out).2 hpre] at hapart

/-- The output is not the root: it would hold the input. -/
theorem out_ne_nil (h : Begun c m kind) : (c.outPath m).parts ≠ [] := by
  intro hnil
  exact h.not_prefix.1 (hnil ▸ List.nil_prefix)

/-- The input is there, and of the kind that the build was begun with. -/
theorem find?_input (h : Begun c m kind) :
    ∃ node, m.tree.find? (c.inputPath m).parts = some node ∧ node.kind = kind := by
  have hfound := h.found
  rw [h.input.eq_mk] at hfound
  simp only [Machine.look, Machine.resolve, Bool.not_true, Bool.false_and,
    Bool.false_eq_true, if_false, if_true] at hfound
  rcases FileTree.reach_cases h.formed.tree h.input.names with hreach | ⟨hreach, -⟩
    | ⟨fault, -, hreach⟩
  · simp only [hreach] at hfound
    cases hfind : m.tree.find? (c.inputPath m).parts with
    | none => simp [hfind] at hfound
    | some node => exact ⟨node, rfl, by simpa [hfind] using hfound⟩
  · simp [hreach] at hfound
  · simp [hreach] at hfound

/-- What lies at or below the input does not lie within the output root, nor on the way to it. -/
theorem outside_out (h : Begun c m kind) {place : List Bytes}
    (hplace : (c.inputPath m).parts <+: place) :
    ¬ (c.outPath m).parts <+: place ∧ ¬ place <+: (c.outPath m).parts := by
  constructor
  · intro hout
    rcases List.prefix_or_prefix_of_prefix hout hplace with hpre | hpre
    · exact h.not_prefix.1 hpre
    · exact h.not_prefix.2 hpre
  · intro hbefore
    exact h.not_prefix.2 (hplace.trans hbefore)

end Begun

/-- A tree with an empty output root. -/
structure Emptied (out : List Bytes) (t : FileTree) : Prop where
  formed : t.WellFormed
  directory : t.find? out = some .directory
  empty : ∀ place, StrictlyBelow out place → t.find? place = none

/-- The output is reset in two steps: it is removed and then made anew, and either may fail. -/
theorem resetOf_eq (c : Config) (m : Machine) :
    resetOf c m =
      match m.tree.removeAll (c.outPath m) with
      | .error e => (.error (.clearingOut e), m)
      | .ok cleared =>
        match cleared.makeDirectories (c.outPath m) with
        | (.error e, made) => (.error (.makingOut e), { m with tree := made })
        | (.ok (), made) => (.ok (), { m with tree := made }) := by
  unfold resetOf resetOut
  rw [Machine.run_bind]
  simp only [MonadHost.removeAll, Machine.run_change]
  cases m.tree.removeAll (c.outPath m) with
  | error e => rfl
  | ok cleared =>
    dsimp only
    rw [Machine.run_bind]
    simp only [MonadHost.makeDirectories]
    rcases cleared.makeDirectories (c.outPath m) with ⟨_ | _, made⟩
    · rfl
    · rfl

/-- What emptying the output root may do to a place: what lies in the root goes, and directories
come on the way to it where nothing was. -/
def ResetAt (out : List Bytes) (t s : FileTree) (place : List Bytes) : Prop :=
  s.find? place = t.find? place ∨ out <+: place ∧ s.find? place = none ∨
    place <+: out ∧ (place = out ∨ t.find? place = none) ∧ s.find? place = some .directory

section Remade

variable {out : Path} {t cleared : FileTree}

/-- Making the output anew after its removal resets every place. -/
theorem resetAt_makeDirectories (hout : out.IsPlace) (h : FileTree.Removed out.parts t cleared)
    (place : List Bytes) : ResetAt out.parts t (cleared.makeDirectories out).2 place := by
  obtain ⟨-, hmade, -⟩ := FileTree.makeFrom_spec h.formed (FileTree.find?_nil cleared) hout.names
  have hcase := h.find place
  rcases hmade place with hkept | ⟨hway, -, hnone, hdirectory⟩
  · rw [ResetAt, FileTree.makeDirectories, hkept, hcase]
    split
    case isTrue hpre => exact .inr (.inl ⟨hpre, rfl⟩)
    case isFalse => exact .inl rfl
  · have hpre := (FileTree.onWay_root.1 hway).2
    refine .inr (.inr ⟨hpre, ?_, hdirectory⟩)
    rw [hnone] at hcase
    split at hcase
    case isTrue hin => exact .inl (hpre.eq_of_length_le hin.length_le)
    case isFalse => exact .inr hcase.symm

/-- When the output could be made anew it is an empty directory. -/
theorem emptied_makeDirectories (hout : out.IsPlace) (h : FileTree.Removed out.parts t cleared)
    (hok : (cleared.makeDirectories out).1 = .ok ()) :
    Emptied out.parts (cleared.makeDirectories out).2 := by
  obtain ⟨hformed, -, hend⟩ :=
    FileTree.makeFrom_spec h.formed (FileTree.find?_nil cleared) hout.names
  refine ⟨hformed, hend hok, fun place hbelow => ?_⟩
  have hoff : ¬ FileTree.OnWay [] out.parts place := fun hway =>
    not_strictlyBelow_above (FileTree.onWay_root.1 hway).2 hbelow
  rw [FileTree.makeDirectories, FileTree.find?_makeFrom_of_not_onWay hoff, h.find, if_pos hbelow.1]

end Remade

/-- Emptying the output root changes nothing outside it but for the way to it, and leaves it empty
when it succeeds. -/
theorem Begun.resetOf_spec (h : Begun c m kind) :
    (∀ place, ResetAt (c.outPath m).parts m.tree (resetOf c m).2.tree place) ∧
      ((resetOf c m).1 = .ok () → Emptied (c.outPath m).parts (resetOf c m).2.tree) := by
  rw [resetOf_eq]
  cases hremoved : m.tree.removeAll (c.outPath m) with
  | error e => exact ⟨fun place => .inl rfl, fun hok => nomatch hok⟩
  | ok cleared =>
    rw [h.out.eq_mk] at hremoved
    have hcleared := FileTree.removeAll_spec h.formed.tree h.out.names h.out_ne_nil hremoved
    have hplaces := resetAt_makeDirectories h.out hcleared
    have hemptied := emptied_makeDirectories h.out hcleared
    dsimp only
    generalize cleared.makeDirectories (c.outPath m) = r at hplaces hemptied ⊢
    obtain ⟨_ | _, made⟩ := r
    · exact ⟨hplaces, fun hok => nomatch hok⟩
    · exact ⟨hplaces, fun _ => hemptied rfl⟩

/-! ### The files of an input -/

/-- The files below a place are those of the tree that lie strictly below it. -/
theorem mem_filesBelow (h : m.tree.WellFormed) {place : List Bytes} {path : Path} :
    path ∈ m.tree.filesBelow place ↔
      path.rooted = true ∧ StrictlyBelow place path.parts ∧
        ∃ content, m.tree.find? path.parts = some (.file content) := by
  unfold FileTree.filesBelow
  rw [List.mem_filterMap]
  constructor
  · rintro ⟨⟨p, node⟩, hmem, hsome⟩
    cases node with
    | directory => exact nomatch hsome
    | file content =>
      dsimp only at hsome
      split at hsome
      case isFalse => exact nomatch hsome
      case isTrue hbelow =>
        obtain rfl := Option.some.inj hsome
        simp only [Bool.and_eq_true, List.isPrefixOf_iff_prefix, decide_eq_true_eq] at hbelow
        have hne : p ≠ [] := by
          rintro rfl
          exact hbelow.2 (List.prefix_nil.1 hbelow.1).symm
        refine ⟨rfl, hbelow, content, ?_⟩
        rw [FileTree.find?_of_ne_nil hne]
        exact (KeyedList.mem_iff_lookup h.nodup).1 hmem
  · rintro ⟨hrooted, hbelow, content, hfind⟩
    obtain ⟨rooted, parts⟩ := path
    have hne : parts ≠ [] := by
      rintro rfl
      simp at hfind
    refine ⟨(parts, .file content), FileTree.mem_nodes_of_find? h hne hfind, ?_⟩
    have hcond : (place.isPrefixOf parts && decide (parts ≠ place)) = true := by
      simpa [StrictlyBelow] using hbelow
    simp only [hcond, if_true]
    rw [show rooted = true from hrooted]

/-- A file is listed once. -/
theorem nodup_filesBelow (h : m.tree.WellFormed) (place : List Bytes) :
    (m.tree.filesBelow place).Nodup := by
  have hkeys := h.nodup
  unfold FileTree.filesBelow
  rw [List.Nodup, List.pairwise_map] at hkeys
  rw [List.Nodup, List.pairwise_filterMap]
  refine hkeys.imp fun {entry entry'} hne path hpath path' hpath' heq => hne ?_
  obtain ⟨p, content | _⟩ := entry
  · obtain ⟨p', content' | _⟩ := entry'
    · simp only [Option.ite_none_right_eq_some, Option.some.injEq] at hpath hpath'
      rw [← hpath.2, ← hpath'.2] at heq
      exact congrArg Path.parts heq
    · simp at hpath'
  · simp at hpath

namespace Begun

/-- The files of a build: the input alone, or those below it in the order of their texts. -/
theorem filesOf_eq (h : Begun c m kind) :
    filesOf c m kind = match kind with
      | .file => [c.inputPath m]
      | .directory =>
        (m.tree.filesBelow (c.inputPath m).parts).mergeSort fun a b => Bytes.le a.text b.text := by
  cases kind with
  | file => rfl
  | directory =>
    have habsolute : (c.inputPath m).absolute m.workingDirectory = c.inputPath m := by
      rw [Path.absolute, if_pos h.input.rooted, h.input.clean_eq]
    have hbelow : (MonadHost.filesBelow (c.inputPath m) : StateM Machine _) m =
        (m.tree.filesBelow ((c.inputPath m).absolute m.workingDirectory).parts, m) := rfl
    rw [filesOf, collectFiles, Machine.run_bind, hbelow, habsolute]
    rfl

/-- The files of an input are all files at it or below it. -/
theorem mem_filesOf_iff (h : Begun c m kind) {path : Path} :
    path ∈ filesOf c m kind ↔ path.rooted = true ∧ (c.inputPath m).parts <+: path.parts ∧
      ∃ content, m.tree.find? path.parts = some (.file content) := by
  obtain ⟨node, hnode, hkind⟩ := h.find?_input
  rw [h.filesOf_eq]
  cases node with
  | file content =>
    obtain rfl : .file = kind := hkind
    simp only [List.mem_singleton]
    constructor
    · rintro rfl
      exact ⟨h.input.rooted, List.prefix_rfl, content, hnode⟩
    · rintro ⟨hrooted, ⟨rest, hrest⟩, other, hfind⟩
      have hnil : rest = [] := by
        by_contra hne
        rw [← hrest] at hfind
        simp [h.formed.tree.directory_of_find? hfind hne] at hnode
      rw [hnil, List.append_nil] at hrest
      rw [h.input.eq_mk, hrest, ← hrooted]
  | directory =>
    obtain rfl : .directory = kind := hkind
    simp only [List.mem_mergeSort, mem_filesBelow h.formed.tree, StrictlyBelow]
    constructor
    · rintro ⟨hrooted, ⟨hpre, -⟩, hfile⟩
      exact ⟨hrooted, hpre, hfile⟩
    · rintro ⟨hrooted, hpre, content, hfind⟩
      refine ⟨hrooted, ⟨hpre, fun heq => ?_⟩, content, hfind⟩
      simp [heq, hnode] at hfind

/-- A file is built once. -/
theorem nodup_filesOf (h : Begun c m kind) : (filesOf c m kind).Nodup := by
  rw [h.filesOf_eq]
  cases kind with
  | file => exact List.nodup_singleton _
  | directory => exact (List.mergeSort_perm _ _).nodup_iff.2 (nodup_filesBelow h.formed.tree _)

variable {path : Path}

/-- A file of a build is a place. -/
theorem isPlace_of_mem (h : Begun c m kind) (hpath : path ∈ filesOf c m kind) : path.IsPlace := by
  obtain ⟨hrooted, -, content, hfind⟩ := h.mem_filesOf_iff.1 hpath
  exact ⟨hrooted, fun part hpart => (h.formed.tree.names_of_find? hfind part hpart).1⟩

/-- The root that the files of a build are named from is a place. -/
theorem isPlace_rootOf (h : Begun c m kind) : (rootOf (c.inputPath m) kind).IsPlace := by
  unfold rootOf
  split
  case isTrue => exact h.input
  case isFalse =>
    rw [h.input.directory_eq]
    exact ⟨rfl, fun part hpart => h.input.names part (List.mem_of_mem_dropLast hpart)⟩

end Begun

/-- Emptying the output root leaves alone what lies neither in it nor on the way to it. -/
theorem Begun.find?_resetOf_apart (h : Begun c m kind) {place : List Bytes}
    (hout : ¬ (c.outPath m).parts <+: place) (hway : ¬ place <+: (c.outPath m).parts) :
    (resetOf c m).2.tree.find? place = m.tree.find? place := by
  rcases h.resetOf_spec.1 place with hsame | ⟨hin, -⟩ | ⟨hbefore, -⟩
  · exact hsame
  · exact absurd hin hout
  · exact absurd hbefore hway

/-- Emptying the output root leaves alone what lies at the input or below it. -/
theorem Begun.find?_resetOf (h : Begun c m kind) {place : List Bytes}
    (hplace : (c.inputPath m).parts <+: place) :
    (resetOf c m).2.tree.find? place = m.tree.find? place := by
  obtain ⟨hout, hway⟩ := h.outside_out hplace
  exact h.find?_resetOf_apart hout hway

/-- A file that a build reads: it is there, and not in the output root. -/
structure IsSource (out : List Bytes) (t : FileTree) (path : Path) : Prop where
  place : path.IsPlace
  outside : ¬ out <+: path.parts
  file : ∃ content, t.find? path.parts = some (.file content)

/-- A file of a build is a source, which resetting the output leaves as it is. -/
theorem Begun.isSource (h : Begun c m kind) {path : Path} (hpath : path ∈ filesOf c m kind) :
    IsSource (c.outPath m).parts (resetOf c m).2.tree path := by
  obtain ⟨-, hpre, content, hfind⟩ := h.mem_filesOf_iff.1 hpath
  exact ⟨h.isPlace_of_mem hpath, (h.outside_out hpre).1, content,
    (h.find?_resetOf hpre).trans hfind⟩

/-- A file of the input reads as it did before the output root was emptied. -/
theorem Begun.readFile_resetOf (h : Begun c m kind) {path : Path} (hpath : path ∈ filesOf c m kind)
    (hreset : Emptied (c.outPath m).parts (resetOf c m).2.tree) :
    (resetOf c m).2.readFile path = m.readFile path := by
  obtain ⟨-, hpre, content, hfind⟩ := h.mem_filesOf_iff.1 hpath
  exact readFile_congr h.formed.tree hreset.formed (h.isPlace_of_mem hpath) hfind
    ((h.find?_resetOf hpre).trans hfind)

/-! ### Relative paths and targets -/

/-- Names that lead from a directory on to a file. -/
structure LeadsTo (root path : Path) (rest : List Bytes) : Prop where
  start : root.IsPlace
  place : path.IsPlace
  ne_nil : rest ≠ []
  parts : path.parts = root.parts ++ rest

/-- Names lead to a file of the input from the directory that relative paths start from. -/
theorem Begun.exists_leadsTo (h : Begun c m kind) {path : Path} (hpath : path ∈ filesOf c m kind) :
    ∃ rest, LeadsTo (rootOf (c.inputPath m) kind) path rest := by
  suffices hlead : ∃ rest, rest ≠ [] ∧ path.parts = (rootOf (c.inputPath m) kind).parts ++ rest by
    obtain ⟨rest, hne, hparts⟩ := hlead
    exact ⟨rest, h.isPlace_rootOf, h.isPlace_of_mem hpath, hne, hparts⟩
  obtain ⟨node, hnode, hkind⟩ := h.find?_input
  obtain ⟨-, ⟨rest, hrest⟩, content, hfind⟩ := h.mem_filesOf_iff.1 hpath
  cases node with
  | file other =>
    obtain rfl : .file = kind := hkind
    have hne : (c.inputPath m).parts ≠ [] := fun hnil => by simp [hnil] at hnode
    refine ⟨(c.inputPath m).parts.getLast hne :: rest, by simp, ?_⟩
    have hroot : (rootOf (c.inputPath m) .file).parts = (c.inputPath m).parts.dropLast := by
      rw [rootOf, if_neg (by simp), h.input.directory_eq]
    rw [hroot, ← List.singleton_append, ← List.append_assoc, List.dropLast_append_getLast, hrest]
  | directory =>
    obtain rfl : .directory = kind := hkind
    refine ⟨rest, ?_, by rw [rootOf, if_pos rfl, hrest]⟩
    rintro rfl
    rw [← hrest, List.append_nil, hnode] at hfind
    exact nomatch hfind

/-- Every target is a clean path from the root. -/
theorem isPlace_target {out : Path} (hout : out.IsPlace) (c : Config) (root path : Path) :
    (target c root out path).IsPlace := by
  unfold target
  split
  · exact hout.join (Path.slashless_ofText _)
  · exact hout.join (Path.slashless_ofText _)

/-- A text whose pieces between slashes are names spells these names. -/
theorem parts_ofText {text : Bytes}
    (h : ∀ part ∈ Bytes.split ('/' : Char).toUInt8 text, IsName part) :
    (Path.ofText text).parts = Bytes.split ('/' : Char).toUInt8 text := by
  unfold Path.ofText
  split
  case h_1 rest hrest =>
    obtain rfl : text = ('/' : Char).toUInt8 :: rest := Bytes.eq_append_of_after? hrest
    exact absurd rfl (h [] (by simp [Bytes.split])).1
  case h_2 => rfl

namespace LeadsTo

variable {root out path : Path} {rest : List Bytes}

/-- The way from a directory to what lies below it is made up of names. -/
theorem names (h : LeadsTo root path rest) : ∀ part ∈ rest, IsName part :=
  fun part hpart => h.place.names part (h.parts ▸ List.mem_append_right _ hpart)

/-- The relative path of a file spells the names that lead to it. -/
theorem split_relativeText (h : LeadsTo root path rest) :
    Bytes.split ('/' : Char).toUInt8 (relativeText root path) = rest := by
  have htext : relativeText root path = Bytes.join [('/' : Char).toUInt8] rest := by
    rw [relativeText, h.start.wayText?_eq h.place h.parts, Option.getD_some, Path.text]
    simp [h.ne_nil]
    rfl
  rw [htext]
  exact Bytes.split_join h.ne_nil fun part hpart => (h.names part hpart).2.2.2

/-- Different files have different relative paths. -/
theorem relativeText_injective (h : LeadsTo root path rest) {other : Path} {rest' : List Bytes}
    (h' : LeadsTo root other rest') (heq : relativeText root path = relativeText root other) :
    path = other := by
  have hsame : rest = rest' := by rw [← h.split_relativeText, heq, h'.split_relativeText]
  rw [h.place.eq_mk, h'.place.eq_mk, h.parts, h'.parts, hsame]

/-- A copy goes to the same names below the output root. -/
theorem parts_copyTarget (h : LeadsTo root path rest) (hout : out.IsPlace) :
    (copyTarget out (relativeText root path)).parts = out.parts ++ rest := by
  have hspelled : (Path.ofText (relativeText root path)).parts = rest := by
    rw [parts_ofText (h.split_relativeText.symm ▸ h.names), h.split_relativeText]
  rw [copyTarget, hout.parts_join (hspelled.symm ▸ h.names), hspelled]

end LeadsTo

end Build

end TagScript
