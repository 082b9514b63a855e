import TagScript.Proofs.BuildContainment

/-!
# The order in which files are built

Each file leaves its result at its target, and directories on the way there. Two files collide when
what they leave at some place differs: their targets are the same and their results are not, or the
target of one is a directory on the way to the target of the other. Without collisions each file is
built in any order as if it were the first, and the output root holds just what the files leave.

A collision always loses something: of two results for one target the first one is overwritten, and
a file cannot be written where a directory was made before.
-/

namespace TagScript

/-- Bytewise order is the order of lists. -/
theorem Bytes.le_iff (a b : Bytes) : Bytes.le a b = true ↔ a ≤ b := by
  induction a generalizing b with
  | nil => simp [Bytes.le]
  | cons x a ih =>
    cases b with
    | nil => simp [Bytes.le]
    | cons y b => simp [Bytes.le, ih, List.cons_le_cons_iff]

namespace Build

/-- What a file leaves at a place of the output root: its result at its target, and a directory on
the way there. -/
def Leaves (c : Config) (root out : Path) (m : Machine) (path : Path) (place : List Bytes)
    (node : Node) : Prop :=
  ∃ result, written? c m path = some result ∧ place <+: (target c root out path).parts ∧
    Nameable place ∧
    node = if place = (target c root out path).parts then .file result else .directory

/-- Two files that are not both delivered in every order: they have different results for one
target, or the first has its target on the way to the target of the other. -/
def Collide (c : Config) (root out : Path) (m : Machine) (path other : Path) : Prop :=
  ∃ result result', written? c m path = some result ∧ written? c m other = some result' ∧
    Nameable (target c root out path).parts ∧
      (target c root out path = target c root out other ∧ result ≠ result' ∨
        StrictlyBelow (target c root out path).parts (target c root out other).parts)

instance (c : Config) (root out : Path) (m : Machine) (path other : Path) :
    Decidable (Collide c root out m path other) :=
  match hpath : written? c m path, hother : written? c m other with
  | some result, some result' =>
    decidable_of_iff (Nameable (target c root out path).parts ∧
        (target c root out path = target c root out other ∧ result ≠ result' ∨
          StrictlyBelow (target c root out path).parts (target c root out other).parts))
      ⟨fun h => ⟨result, result', hpath, hother, h⟩, fun ⟨_, _, h, h', hcollide⟩ =>
        Option.some.inj (hpath.symm.trans h) ▸ Option.some.inj (hother.symm.trans h') ▸ hcollide⟩
  | none, _ => isFalse fun ⟨_, _, h, _⟩ => nomatch hpath.symm.trans h
  | _, none => isFalse fun ⟨_, _, _, h, _⟩ => nomatch hother.symm.trans h

variable {c : Config} {m fresh : Machine} {kind : NodeKind} {root out path other : Path}
  {place : List Bytes} {node node' : Node}

/-- Files that do not collide leave the same at each place. -/
theorem Leaves.unique (hout : out.IsPlace) (h : Leaves c root out m path place node)
    (h' : Leaves c root out m other place node')
    (hfree : path ≠ other → ¬ Collide c root out m path other)
    (hfree' : other ≠ path → ¬ Collide c root out m other path) : node = node' := by
  by_cases hsame : path = other
  · subst hsame
    obtain ⟨result, hresult, -, -, rfl⟩ := h
    obtain ⟨result', hresult', -, -, rfl⟩ := h'
    rw [Option.some.inj (hresult.symm.trans hresult')]
  · obtain ⟨result, hresult, hpre, hname, rfl⟩ := h
    obtain ⟨result', hresult', hpre', -, rfl⟩ := h'
    by_cases hend : place = (target c root out path).parts
    · by_cases hend' : place = (target c root out other).parts
      · have htargets : target c root out path = target c root out other := by
          rw [(isPlace_target hout c root path).eq_mk, (isPlace_target hout c root other).eq_mk,
            ← hend, ← hend']
        have hresults : result = result' := by
          by_contra hne
          exact hfree hsame ⟨result, result', hresult, hresult', hend ▸ hname, .inl ⟨htargets, hne⟩⟩
        rw [if_pos hend, if_pos hend', hresults]
      · refine absurd ⟨result, result', hresult, hresult', hend ▸ hname, .inr ?_⟩ (hfree hsame)
        exact hend ▸ ⟨hpre', Ne.symm hend'⟩
    · by_cases hend' : place = (target c root out other).parts
      · refine absurd ⟨result', result, hresult', hresult, hend' ▸ hname, .inr ?_⟩
          (hfree' (Ne.symm hsame))
        exact hend' ▸ ⟨hpre, Ne.symm hend⟩
      · rw [if_neg hend, if_neg hend']

/-! ### The first file -/

section First

variable {asProblem : Path → FileError → FileProblem} {content : Bytes}
  {t : FileTree} {dest : List Bytes}

/-- Nothing stands in the way to a place in an empty output root. -/
theorem Emptied.clear {out : List Bytes} (h : Emptied out t) (hbelow : StrictlyBelow out dest) :
    (∀ other, other <+: dest → other ≠ dest → t.find? other = none ∨
      t.find? other = some .directory) ∧
      t.find? dest ≠ some .directory := by
  refine ⟨fun other hpre _ => ?_, by simp [h.empty dest hbelow]⟩
  rcases hbelow.prefix_or hpre with hway | hin
  · exact .inr (h.directory_of_prefix hway)
  · exact .inl (h.empty other hin)

/-- Saving in an empty output root succeeds just for paths that the system takes. -/
theorem Emptied.save_ok_iff {out : List Bytes} (h : Emptied out t)
    (hnames : ∀ part ∈ dest, IsName part) (hbelow : StrictlyBelow out dest) :
    (save asProblem ⟨true, dest⟩ content t).1 = .ok () ↔ Nameable dest := by
  obtain ⟨hclear, hend⟩ := h.clear hbelow
  refine ⟨fun hok => ?_, (save_clear h.formed hnames hclear hend).2⟩
  have hsaved : Saved dest content t (save asProblem ⟨true, dest⟩ content t) :=
    save_spec h.formed hnames
  rcases hsaved.find dest with hsame | ⟨-, hname, -⟩
  · rw [(hsaved.done hok).2, h.empty dest hbelow] at hsame
    exact nomatch hsame
  · exact hname

/-- What saving in an empty output root leaves there. -/
theorem Emptied.find?_save {out : List Bytes} (h : Emptied out t)
    (hnames : ∀ part ∈ dest, IsName part) (hbelow : StrictlyBelow out dest)
    (hplace : StrictlyBelow out place) :
    (save asProblem ⟨true, dest⟩ content t).2.find? place = some node ↔
      place <+: dest ∧ Nameable place ∧ node =
        if place = dest then .file content else .directory := by
  have hsaved : Saved dest content t (save asProblem ⟨true, dest⟩ content t) :=
    save_spec h.formed hnames
  constructor
  · intro hfind
    rcases hsaved.find place with hsame | ⟨hpre, hname, ⟨hne, -, hmade⟩ | ⟨rfl, -, hmade⟩⟩
    · rw [hfind, h.empty place hplace] at hsame
      exact nomatch hsame
    · rw [if_neg hne]
      exact ⟨hpre, hname, Option.some.inj (hfind.symm.trans hmade)⟩
    · rw [if_pos rfl]
      exact ⟨hpre, hname, Option.some.inj (hfind.symm.trans hmade)⟩
  · rintro ⟨hpre, hname, rfl⟩
    split
    case isTrue heq =>
      subst heq
      exact (hsaved.done ((h.save_ok_iff hnames hbelow).2 hname)).2
    case isFalse hne =>
      obtain ⟨hclear, hend⟩ := h.clear hbelow
      exact (save_clear h.formed hnames hclear hend).1 place hpre hne hname

end First

/-! ### Files in any order -/

/-- Files that do not collide, with targets in an empty output root. -/
structure Compatible (c : Config) (root out : Path) (fresh : Machine)
    (files : List Path) : Prop where
  place : out.IsPlace
  emptied : Emptied out.parts fresh.tree
  sources : ∀ path ∈ files, IsSource out.parts fresh.tree path
  below : ∀ path ∈ files, StrictlyBelow out.parts (target c root out path).parts
  free : ∀ path ∈ files, ∀ other ∈ files, path ≠ other → ¬ Collide c root out fresh path other

/-- A tree whose output root holds just what some files leave, and that is unchanged elsewhere. -/
structure Holds (c : Config) (root out : Path) (fresh : Machine) (done : List Path)
    (t : FileTree) : Prop where
  formed : t.WellFormed
  only : OnlyBelow out.parts fresh.tree t
  find : ∀ place node, StrictlyBelow out.parts place →
    (t.find? place = some node ↔ ∃ path ∈ done, Leaves c root out fresh path place node)

namespace Compatible

variable {files done : List Path}

/-- Compatible files leave one node at a place. -/
theorem unique (h : Compatible c root out fresh files) (hpath : path ∈ files)
    (hother : other ∈ files) (hleaves : Leaves c root out fresh path place node)
    (hleaves' : Leaves c root out fresh other place node') :
    node = node' :=
  hleaves.unique h.place hleaves' (h.free path hpath other hother) (h.free other hother path hpath)

/-- In an empty output root, saving the result of a file leaves what the file leaves. -/
theorem find?_save_first (h : Compatible c root out fresh files) (hpath : path ∈ files)
    {result : Bytes} (hwritten : written? c fresh path = some result)
    (hplace : StrictlyBelow out.parts place) :
    (save (saveProblem c path) (target c root out path) result fresh.tree).2.find? place =
      some node ↔
      Leaves c root out fresh path place node := by
  have htarget := isPlace_target h.place c root path
  have hfind : (save (saveProblem c path) ⟨true, (target c root out path).parts⟩ result
      fresh.tree).2.find? place = some node ↔ _ :=
    h.emptied.find?_save htarget.names (h.below path hpath) hplace
  rw [htarget.eq_mk, hfind]
  constructor
  · exact fun hleft => ⟨result, hwritten, hleft⟩
  · rintro ⟨other, hother, hleft⟩
    rw [← Option.some.inj (hwritten.symm.trans hother)] at hleft
    exact hleft

/-- Where some files have been built, saving the result of one more does what it does in an empty
output root, and leaves what they left. -/
theorem save_next (h : Compatible c root out fresh files) {t : FileTree}
    (ht : Holds c root out fresh done t) (hdone : done ⊆ files) (hpath : path ∈ files)
    {result : Bytes} (hwritten : written? c fresh path = some result) :
    (save (saveProblem c path) (target c root out path) result t).1 =
        (save (saveProblem c path) (target c root out path) result fresh.tree).1 ∧
      ∀ place node, StrictlyBelow out.parts place →
        ((save (saveProblem c path) (target c root out path) result t).2.find? place = some node ↔
          ∃ path' ∈ done ++ [path], Leaves c root out fresh path' place node) := by
  have htarget := isPlace_target h.place c root path
  have hfirst : ∀ {place node}, StrictlyBelow out.parts place →
      ((save (saveProblem c path) (target c root out path) result fresh.tree).2.find? place =
        some node ↔ Leaves c root out fresh path place node) :=
    h.find?_save_first hpath hwritten
  -- what another file left on the way is what this one leaves there
  have hshared : ∀ {place node}, place <+: (target c root out path).parts →
      (∃ path' ∈ done, Leaves c root out fresh path' place node) →
      Leaves c root out fresh path place node := by
    rintro place node hpre ⟨path', hpath', hleaves⟩
    have hname : Nameable place := by
      obtain ⟨-, -, -, hname, -⟩ := hleaves
      exact hname
    have hown : Leaves c root out fresh path place _ := ⟨result, hwritten, hpre, hname, rfl⟩
    exact h.unique hpath (hdone hpath') hown hleaves ▸ hown
  have hagree : ∀ place, place <+: (target c root out path).parts →
      t.find? place = fresh.tree.find? place ∨
      t.find? place =
      (save (saveProblem c path) (target c root out path) result fresh.tree).2.find? place := by
    intro place hpre
    by_cases hin : StrictlyBelow out.parts place
    · cases hfind : t.find? place with
      | none => exact .inl (h.emptied.empty place hin).symm
      | some node =>
        exact .inr ((hfirst hin).2 (hshared hpre ((ht.find place node hin).1 hfind))).symm
    · exact .inl (ht.only place hin)
  rw [htarget.eq_mk] at hagree hfirst ⊢
  obtain ⟨hresult, hsame⟩ := save_agree h.emptied.formed ht.formed htarget.names hagree
  refine ⟨hresult, fun place node hin => ?_⟩
  simp only [List.mem_append, List.mem_singleton, or_and_right, exists_or, exists_eq_left]
  by_cases hpre : place <+: (target c root out path).parts
  · rw [hsame place hpre, hfirst hin]
    exact ⟨.inr, fun hleft => hleft.elim (hshared hpre) id⟩
  · rw [find?_save_off_way ht.formed htarget.names hpre, ht.find place node hin]
    refine ⟨.inl, fun hleft => hleft.resolve_right ?_⟩
    rintro ⟨-, -, hown, -⟩
    exact hpre hown

/-- On a machine where some files have been built, one more is reported as if it were the first, and
leaves what it leaves then. -/
theorem step (h : Compatible c root out fresh files) (hm : Holds c root out fresh done m.tree)
    (hdone : done ⊆ files) (hpath : path ∈ files) :
    (buildOne c root out path m).1 = (buildOne c root out path fresh).1 ∧
      Holds c root out fresh (done ++ [path]) (buildOne c root out path m).2.tree := by
  have hsource := h.sources path hpath
  obtain ⟨content, hfile⟩ := hsource.file
  have hread : m.readFile path = fresh.readFile path :=
    readFile_congr h.emptied.formed hm.formed hsource.place hfile
      ((hm.only _ fun hin => hsource.outside hin.1).trans hfile)
  have hformed := (buildOne_keeps h.place hm.formed c root path).1
  have honly : OnlyBelow out.parts fresh.tree (buildOne c root out path m).2.tree := by
    intro place hplace
    rw [find?_buildOne_outside h.place h.emptied hm.formed hm.only hsource hplace]
    exact onlyBelow_buildOne h.place h.emptied (h.below path hpath) place hplace
  refine ⟨?_, hformed, honly, ?_⟩
  · rw [buildOne_eq, buildOne_eq, processFile_run, processFile_run, written?_congr hread, hread]
    cases hwritten : written? c fresh path with
    | none => rfl
    | some result =>
      dsimp only
      rw [(h.save_next hm hdone hpath hwritten).1]
  · rw [tree_buildOne, written?_congr hread]
    cases hwritten : written? c fresh path with
    | none =>
      intro place node hplace
      have hnothing : ¬ Leaves c root out fresh path place node := by
        rintro ⟨result, hresult, -⟩
        exact nomatch hwritten.symm.trans hresult
      simp [hm.find place node hplace, or_and_right, exists_or, hnothing]
    | some result => exact (h.save_next hm hdone hpath hwritten).2

/-- In any order, each file is reported as if it were the first, and the output root ends up with
what the files leave. -/
theorem run (h : Compatible c root out fresh files) {order : List Path}
    (hm : Holds c root out fresh done m.tree) (hdone : done ⊆ files) (horder : order ⊆ files) :
    (buildAll c root out order m).1 =
        order.map (fun path => (buildOne c root out path fresh).1) ∧
      Holds c root out fresh (done ++ order) (buildAll c root out order m).2.tree := by
  induction order generalizing m done with
  | nil => exact ⟨rfl, by simpa [buildAll_nil] using hm⟩
  | cons path order ih =>
    rw [List.cons_subset] at horder
    obtain ⟨hreport, hnext⟩ := h.step hm hdone horder.1
    have hdone' : done ++ [path] ⊆ files := by
      simpa [List.append_subset] using ⟨hdone, horder.1⟩
    obtain ⟨hreports, hend⟩ := ih hnext hdone' horder.2
    rw [buildAll_cons]
    exact ⟨by simp only [hreports, hreport, List.map_cons], by simpa using hend⟩

end Compatible

/-! ### Delivery -/

/-- What is written for a script is what compiling it gives, and for another file its content. -/
theorem eq_of_written? {result : Bytes} (h : written? c m path = some result) :
    ∃ content, m.readFile path = .ok content ∧
      result = if isScript c path then (compile c.compileOptions content).output else content := by
  unfold written? resultOf? at h
  split at h
  case h_2 => exact nomatch h
  case h_1 content hread =>
    refine ⟨content, hread, ?_⟩
    unfold result? at h
    cases hscript : isScript c path with
    | false => simpa [hscript] using h.symm
    | true =>
      rw [hscript, if_pos rfl] at h
      split at h
      · exact nomatch h
      · simpa using h.symm

/-- What becomes of the files of an input that are built in some order, once the output root is
empty. -/
def inOrder (c : Config) (m : Machine) (kind : NodeKind) (order : List Path) :
    List FileReport × Machine :=
  let built := buildAll c (rootOf (c.inputPath m) kind) (c.outPath m) order (resetOf c m).2
  (sortReports built.1, built.2)

/-- Where the result for a file of an input goes. -/
def targetIn (c : Config) (m : Machine) (kind : NodeKind) (path : Path) : Path :=
  target c (rootOf (c.inputPath m) kind) (c.outPath m) path

/-- A file of an input that can be delivered: there is something to write for it, and the system
takes the path of its target. -/
def Deliverable (c : Config) (m : Machine) (kind : NodeKind) (path : Path) : Prop :=
  (written? c m path).isSome ∧ Nameable (targetIn c m kind path).parts

instance (c : Config) (m : Machine) (kind : NodeKind) : DecidablePred (Deliverable c m kind) :=
  fun _ => inferInstanceAs (Decidable (_ ∧ _))

/-- The reports and the output root that a build owes for its input: one report for each file at the
input or below it, in order; what can be delivered is at its target, a script as compiled and
another file as it is; and nothing else is there but directories on the way to targets. -/
structure Delivers (c : Config) (m : Machine) (kind : NodeKind) (reports : List FileReport)
    (t : FileTree) : Prop where
  once : (reports.map FileReport.source).Nodup
  sources : ∀ path, path ∈ reports.map FileReport.source ↔ path.rooted = true ∧
    (c.inputPath m).parts <+: path.parts ∧ ∃ content, m.tree.find? path.parts = some (.file content)
  sorted : reports.Pairwise fun a b => Bytes.le a.rel b.rel = true
  relative : ∀ r ∈ reports, r.rel = relativeText (rootOf (c.inputPath m) kind) r.source
  action : ∀ r ∈ reports, r.action =
    if Deliverable c m kind r.source then
      if isScript c r.source then .compiled else .copied
      else .failed
  output : ∀ r ∈ reports, r.output =
    if r.action = .failed then none else some (targetIn c m kind r.source)
  delivered : ∀ r ∈ reports, r.action ≠ .failed → ∃ content, m.readFile r.source = .ok content ∧
    t.find? (targetIn c m kind r.source).parts =
      some (.file
        (if r.action = .compiled then (compile c.compileOptions content).output else content))
  files : ∀ place content, StrictlyBelow (c.outPath m).parts place →
    t.find? place = some (.file content) → ∃ r ∈ reports, r.output = some ⟨true, place⟩
  directories : ∀ place, StrictlyBelow (c.outPath m).parts place → t.find? place = some .directory →
    ∃ r ∈ reports, StrictlyBelow place (targetIn c m kind r.source).parts

/-- Whatever became of the files before, a report names its file and says what was written. -/
theorem buildOne_report (c : Config) (root out path : Path) (m : Machine) :
    (buildOne c root out path m).1.source = path ∧
      (buildOne c root out path m).1.rel = relativeText root path ∧
      (buildOne c root out path m).1.output =
        if (buildOne c root out path m).1.action = .failed then none
        else some (target c root out path) := by
  rw [buildOne_eq, processFile_run]
  cases written? c m path with
  | none => exact ⟨rfl, rfl, output_reportOf ..⟩
  | some result => exact ⟨rfl, rfl, output_reportOf ..⟩

/-- A file that is built first fails only where there is nothing to write or the system does not
take the path. -/
theorem action_buildOne_first (hout : out.IsPlace) (hfresh : Emptied out.parts fresh.tree)
    (hbelow : StrictlyBelow out.parts (target c root out path).parts) :
    (buildOne c root out path fresh).1.action =
      if (written? c fresh path).isSome ∧ Nameable (target c root out path).parts then
        if isScript c path then .compiled else .copied
      else .failed := by
  have htarget := isPlace_target hout c root path
  rw [buildOne_eq, processFile_run]
  cases hwritten : written? c fresh path with
  | none =>
    have hresult : resultOf? c path (fresh.readFile path) = none := hwritten
    simp [action_reportOf, hresult]
  | some result =>
    have hresult : resultOf? c path (fresh.readFile path) = some result := hwritten
    have hok : (save (saveProblem c path) ⟨true, (target c root out path).parts⟩ result
          fresh.tree).1 = .ok () ↔ Nameable (target c root out path).parts :=
      hfresh.save_ok_iff htarget.names hbelow
    rw [← htarget.eq_mk] at hok
    dsimp only
    rw [action_reportOf, hresult]
    cases hsave : (save (saveProblem c path) (target c root out path) result fresh.tree).1 with
    | error problem =>
      have hname : ¬ Nameable (target c root out path).parts :=
        fun hname => nomatch hsave.symm.trans (hok.2 hname)
      simp [hname]
    | ok => simp [hok.1 hsave]

/-- A file fails when a directory is at its target. -/
theorem action_buildOne_blocked (hout : out.IsPlace) (hm : m.tree.WellFormed)
    (hblocked : m.tree.find? (target c root out path).parts = some .directory) :
    (buildOne c root out path m).1.action = .failed := by
  rw [buildOne_eq, processFile_run]
  cases hwritten : written? c m path with
  | none =>
    have hresult : resultOf? c path (m.readFile path) = none := hwritten
    simp [action_reportOf, hresult]
  | some result =>
    have hsaved := saved_target hout hm c root path result
    dsimp only
    rw [action_reportOf]
    cases hsave : (save (saveProblem c path) (target c root out path) result m.tree).1 with
    | error problem => cases resultOf? c path (m.readFile path) <;> rfl
    | ok => exact absurd hblocked (hsaved.done hsave).1

/-- Reports are in order of their relative path after sorting. -/
theorem pairwise_sortReports (reports : List FileReport) :
    (sortReports reports).Pairwise fun a b => Bytes.le a.rel b.rel = true := by
  refine List.pairwise_mergeSort (fun a b d hab hbd => ?_) (fun a b => ?_) reports
  · rw [Bytes.le_iff] at hab hbd ⊢
    exact List.le_trans hab hbd
  · rw [Bool.or_eq_true, Bytes.le_iff, Bytes.le_iff]
    exact List.le_total _ _

/-- Reports with different relative paths are sorted in one way only. -/
theorem sortReports_eq_of_perm {reports reports' : List FileReport} (h : reports.Perm reports')
    (hrel : ∀ a ∈ reports, ∀ b ∈ reports, a.rel = b.rel → a = b) :
    sortReports reports = sortReports reports' := by
  have hperm : (sortReports reports).Perm (sortReports reports') :=
    (List.mergeSort_perm _ _).trans (h.trans (List.mergeSort_perm _ _).symm)
  refine hperm.eq_of_pairwise (fun a b ha hb hab hba => ?_) (pairwise_sortReports _)
    (pairwise_sortReports _)
  rw [Bytes.le_iff] at hab hba
  exact hrel a ((List.mergeSort_perm _ _).mem_iff.1 ha) b
    (h.mem_iff.2 ((List.mergeSort_perm _ _).mem_iff.1 hb)) (List.le_antisymm hab hba)

/-- The report on a file of an input that is built first. -/
def firstReport (c : Config) (m : Machine) (kind : NodeKind) (path : Path) : FileReport :=
  (buildOne c (rootOf (c.inputPath m) kind) (c.outPath m) path (resetOf c m).2).1

/-- What the report of a file says about it, whatever becomes of the file. -/
theorem firstReport_spec (c : Config) (m : Machine) (kind : NodeKind) (path : Path) :
    (firstReport c m kind path).source = path ∧
      (firstReport c m kind path).rel = relativeText (rootOf (c.inputPath m) kind) path ∧
      (firstReport c m kind path).output =
        if (firstReport c m kind path).action = .failed then none
        else some (targetIn c m kind path) :=
  buildOne_report ..

namespace Begun

/-- What is written for a file of the input is the same after the output root was emptied. -/
theorem written?_resetOf (h : Begun c m kind)
    (hreset : Emptied (c.outPath m).parts (resetOf c m).2.tree) (hpath : path ∈ filesOf c m kind) :
    written? c (resetOf c m).2 path = written? c m path :=
  written?_congr (h.readFile_resetOf hpath hreset)

/-- Files whose targets lie in the output root are compatible when they do not collide. -/
theorem compatible (h : Begun c m kind) (hreset : Emptied (c.outPath m).parts (resetOf c m).2.tree)
    (hbelow : ∀ path ∈ filesOf c m kind,
      StrictlyBelow (c.outPath m).parts (targetIn c m kind path).parts)
    (hfree : ∀ path ∈ filesOf c m kind, ∀ other ∈ filesOf c m kind, path ≠ other →
      ¬ Collide c (rootOf (c.inputPath m) kind) (c.outPath m) m path other) :
    Compatible c (rootOf (c.inputPath m) kind) (c.outPath m) (resetOf c m).2
      (filesOf c m kind) := by
  refine ⟨h.out, hreset, fun path hpath => h.isSource hpath, hbelow, ?_⟩
  intro path hpath other hother hne hcollide
  rw [Collide, h.written?_resetOf hreset hpath, h.written?_resetOf hreset hother] at hcollide
  exact hfree path hpath other hother hne hcollide

/-- A file that is built first is reported as delivered just when it can be. -/
theorem action_firstReport (h : Begun c m kind)
    (hreset : Emptied (c.outPath m).parts (resetOf c m).2.tree) (hpath : path ∈ filesOf c m kind)
    (hbelow : StrictlyBelow (c.outPath m).parts (targetIn c m kind path).parts) :
    (firstReport c m kind path).action =
      if Deliverable c m kind path then
        if isScript c path then .compiled else .copied
      else .failed := by
  rw [firstReport, action_buildOne_first h.out hreset hbelow, h.written?_resetOf hreset hpath]
  rfl

end Begun

section Delivery

variable {order : List Path}
  (hcompatible : Compatible c (rootOf (c.inputPath m) kind) (c.outPath m)
    (resetOf c m).2 (filesOf c m kind))
  (horder : order.Perm (filesOf c m kind))

include hcompatible horder

/-- In each order, compatible files are reported as if each were the first, and the output root
holds what they leave. -/
theorem inOrder_spec :
    (inOrder c m kind order).1 = sortReports (order.map (firstReport c m kind)) ∧
      Holds c (rootOf (c.inputPath m) kind) (c.outPath m) (resetOf c m).2 order
        (inOrder c m kind order).2.tree := by
  have hempty : Holds c (rootOf (c.inputPath m) kind) (c.outPath m) (resetOf c m).2 []
      (resetOf c m).2.tree :=
    ⟨hcompatible.emptied.formed, fun _ _ => rfl, fun place node hplace => by
      simp [hcompatible.emptied.empty place hplace]⟩
  obtain ⟨hreports, hholds⟩ := hcompatible.run hempty (List.nil_subset _) horder.subset
  exact ⟨congrArg sortReports hreports, hholds⟩

/-- The reports and the files do not depend on the order. -/
theorem inOrder_congr (h : Begun c m kind) :
    (inOrder c m kind order).1 = (inOrder c m kind (filesOf c m kind)).1 ∧
      ∀ place, (inOrder c m kind order).2.tree.find? place =
        (inOrder c m kind (filesOf c m kind)).2.tree.find? place := by
  obtain ⟨hreports, hholds⟩ := inOrder_spec hcompatible horder
  obtain ⟨hreports', hholds'⟩ := inOrder_spec hcompatible (List.Perm.refl _)
  constructor
  · rw [hreports, hreports']
    refine sortReports_eq_of_perm (horder.map _) fun a ha b hb hrel => ?_
    obtain ⟨path, hpath, rfl⟩ := List.mem_map.1 ha
    obtain ⟨other, hother, rfl⟩ := List.mem_map.1 hb
    obtain ⟨rest, hleads⟩ := h.exists_leadsTo (horder.mem_iff.1 hpath)
    obtain ⟨rest', hleads'⟩ := h.exists_leadsTo (horder.mem_iff.1 hother)
    rw [(firstReport_spec ..).2.1, (firstReport_spec ..).2.1] at hrel
    rw [hleads.relativeText_injective hleads' hrel]
  · intro place
    by_cases hplace : StrictlyBelow (c.outPath m).parts place
    · refine Option.ext fun node => ?_
      rw [hholds.find place node hplace, hholds'.find place node hplace]
      simp only [horder.mem_iff]
    · rw [hholds.only place hplace, hholds'.only place hplace]

/-- The reports are those on the files of the input, each built first. -/
theorem mem_inOrder {r : FileReport} :
    r ∈ (inOrder c m kind order).1 ↔ ∃ path ∈ filesOf c m kind, firstReport c m kind path = r := by
  rw [(inOrder_spec hcompatible horder).1, sortReports,
    (List.mergeSort_perm _ _).mem_iff, List.mem_map]
  simp only [horder.mem_iff]

/-- There is one report for each file of the input. -/
theorem sources_inOrder :
    ((inOrder c m kind order).1.map FileReport.source).Perm (filesOf c m kind) := by
  have hsources : (order.map (firstReport c m kind)).map FileReport.source = order := by
    rw [List.map_map]
    exact List.map_id'' (fun path => (firstReport_spec ..).1) order
  rw [(inOrder_spec hcompatible horder).1]
  refine ((List.mergeSort_perm _ _).map FileReport.source).trans ?_
  rw [hsources]
  exact horder

/-- A file that can be delivered is at its target in the end, with what its content gives. -/
theorem find?_inOrder (h : Begun c m kind) (hpath : path ∈ filesOf c m kind)
    (hcan : Deliverable c m kind path) : ∃ content, m.readFile path = .ok content ∧
      (inOrder c m kind order).2.tree.find? (targetIn c m kind path).parts =
        some (.file
          (if isScript c path then (compile c.compileOptions content).output else content)) := by
  obtain ⟨result, hresult⟩ := Option.isSome_iff_exists.1 hcan.1
  obtain ⟨content, hread, rfl⟩ := eq_of_written? hresult
  refine ⟨content, hread,
    ((inOrder_spec hcompatible horder).2.find _ _ (hcompatible.below path hpath)).2
    ⟨path, horder.mem_iff.2 hpath, _, ?_, List.prefix_rfl, hcan.2, (if_pos rfl).symm⟩⟩
  rw [h.written?_resetOf hcompatible.emptied hpath, hresult]

/-- A file that is in the output root in the end is at the target of a file that can be
delivered. -/
theorem deliverable_of_find? (h : Begun c m kind) {content : Bytes}
    (hplace : StrictlyBelow (c.outPath m).parts place)
    (hfile : (inOrder c m kind order).2.tree.find? place = some (.file content)) :
    ∃ path ∈ filesOf c m kind, Deliverable c m kind path ∧
      targetIn c m kind path = ⟨true, place⟩ := by
  obtain ⟨path, hpath, result, hresult, -, hname, hnode⟩ :=
    ((inOrder_spec hcompatible horder).2.find _ _ hplace).1 hfile
  have hend : place = (targetIn c m kind path).parts := by
    by_contra hne
    exact nomatch hnode.trans (if_neg hne)
  have hmember := horder.mem_iff.1 hpath
  rw [h.written?_resetOf hcompatible.emptied hmember] at hresult
  refine ⟨path, hmember, ⟨by rw [hresult]; rfl, hend ▸ hname⟩, ?_⟩
  rw [hend]
  exact (isPlace_target h.out _ _ _).eq_mk

/-- Each order delivers. -/
theorem delivers_inOrder (h : Begun c m kind) :
    Delivers c m kind (inOrder c m kind order).1 (inOrder c m kind order).2.tree := by
  have hmem := fun {r} => mem_inOrder hcompatible horder (r := r)
  have hsources := sources_inOrder hcompatible horder
  have haction : ∀ path ∈ filesOf c m kind, (firstReport c m kind path).action = _ :=
      fun path hpath =>
        h.action_firstReport hcompatible.emptied hpath (hcompatible.below path hpath)
  refine ⟨hsources.nodup_iff.2 h.nodup_filesOf,
    fun path => hsources.mem_iff.trans h.mem_filesOf_iff, ?_, fun r hr => ?_, fun r hr => ?_,
    fun r hr => ?_, fun r hr hdone => ?_, fun place content hplace hfile => ?_,
    fun place hplace hdirectory => ?_⟩
  · rw [(inOrder_spec hcompatible horder).1]
    exact pairwise_sortReports _
  · obtain ⟨path, -, rfl⟩ := hmem.1 hr
    rw [(firstReport_spec ..).2.1, (firstReport_spec ..).1]
  · obtain ⟨path, hpath, rfl⟩ := hmem.1 hr
    rw [haction path hpath, (firstReport_spec ..).1]
  · obtain ⟨path, -, rfl⟩ := hmem.1 hr
    rw [(firstReport_spec ..).2.2, (firstReport_spec ..).1]
  · obtain ⟨path, hpath, rfl⟩ := hmem.1 hr
    rw [haction path hpath] at hdone ⊢
    have hcan : Deliverable c m kind path := by
      by_contra hnot
      exact hdone (if_neg hnot)
    obtain ⟨content, hread, hfind⟩ := find?_inOrder hcompatible horder h hpath hcan
    rw [(firstReport_spec ..).1, if_pos hcan]
    refine ⟨content, hread, hfind.trans ?_⟩
    cases isScript c path <;> rfl
  · obtain ⟨path, hpath, hcan, htarget⟩ := deliverable_of_find? hcompatible horder h hplace hfile
    refine ⟨_, hmem.2 ⟨path, hpath, rfl⟩, ?_⟩
    have hnever : (if isScript c path then BuildAction.compiled else .copied) ≠ .failed := by
      split <;> simp
    rw [(firstReport_spec ..).2.2, haction path hpath, if_pos hcan, if_neg hnever, htarget]
  · obtain ⟨path, hpath, result, -, hpre, -, hnode⟩ :=
      ((inOrder_spec hcompatible horder).2.find _ _ hplace).1 hdirectory
    refine ⟨_, hmem.2 ⟨path, horder.mem_iff.1 hpath, rfl⟩, ?_⟩
    rw [(firstReport_spec ..).1]
    exact ⟨hpre, fun heq => nomatch hnode.trans (if_pos heq.symm)⟩

end Delivery

/-! ### Collisions -/

/-- A result that can be named is at its target, if all is delivered. -/
theorem Delivers.find?_target {reports : List FileReport} {t : FileTree}
    (h : Delivers c m kind reports t) (hbegun : Begun c m kind) (hpath : path ∈ filesOf c m kind)
    {result : Bytes}
    (hresult : written? c m path = some result) (hname : Nameable (targetIn c m kind path).parts) :
    t.find? (targetIn c m kind path).parts = some (.file result) := by
  obtain ⟨r, hr, rfl⟩ := List.mem_map.1 ((h.sources path).2 (hbegun.mem_filesOf_iff.1 hpath))
  have haction : r.action = if isScript c r.source then .compiled else .copied := by
    rw [h.action r hr, if_pos ⟨by rw [hresult]; rfl, hname⟩]
  obtain ⟨content, hread, hfind⟩ := h.delivered r hr (by rw [haction]; split <;> simp)
  obtain ⟨content', hread', rfl⟩ := eq_of_written? hresult
  rw [hfind, haction, Except.ok.inj (hread.symm.trans hread')]
  cases isScript c r.source <;> rfl

/-- A file that is built after another one, with its target on the way to the target of that one,
fails. -/
theorem action_buildOne_second (hout : out.IsPlace) (hfresh : Emptied out.parts fresh.tree)
    (hbelow : StrictlyBelow out.parts (target c root out path).parts) {result : Bytes}
    (hother : written? c fresh other = some result)
    (hname : Nameable (target c root out path).parts)
    (hway : StrictlyBelow (target c root out path).parts (target c root out other).parts) :
    (buildOne c root out path (buildOne c root out other fresh).2).1.action = .failed := by
  have htarget := isPlace_target hout c root other
  have hmade :
      (save (saveProblem c other) ⟨true, (target c root out other).parts⟩ result fresh.tree).2.find?
      (target c root out path).parts = some .directory :=
    (hfresh.find?_save htarget.names (hbelow.of_prefix hway.1) hbelow).2
      ⟨hway.1, hname, (if_neg (Ne.symm hway.2)).symm⟩
  refine action_buildOne_blocked hout (buildOne_keeps hout hfresh.formed c root other).1 ?_
  rw [tree_buildOne, hother]
  rw [← htarget.eq_mk] at hmade
  exact hmade

/-- Files that are delivered in every order do not collide. -/
theorem not_collide_of_delivers (h : Begun c m kind)
    (hreset : Emptied (c.outPath m).parts (resetOf c m).2.tree) (hbelow : ∀ path ∈ filesOf c m kind,
      StrictlyBelow (c.outPath m).parts (targetIn c m kind path).parts)
    (hdelivers : ∀ order : List Path, order.Perm (filesOf c m kind) →
      Delivers c m kind (inOrder c m kind order).1 (inOrder c m kind order).2.tree)
    (hpath : path ∈ filesOf c m kind) (hother : other ∈ filesOf c m kind) (hne : path ≠ other) :
    ¬ Collide c (rootOf (c.inputPath m) kind) (c.outPath m) m path other := by
  rintro ⟨result, result', hresult, hresult', hname, ⟨hsame, hdiffer⟩ | hway⟩
  · -- one target cannot hold both results
    have hfirst := (hdelivers _ (List.Perm.refl _)).find?_target h hpath hresult hname
    have htargets : targetIn c m kind path = targetIn c m kind other := hsame
    rw [htargets] at hfirst
    have hsecond :=
      (hdelivers _ (List.Perm.refl _)).find?_target h hother hresult' (htargets ▸ hname)
    rw [hsecond] at hfirst
    exact hdiffer (Node.file.inj (Option.some.inj hfirst)).symm
  · -- the other file comes first and makes a directory of the target
    have hmem : path ∈ (filesOf c m kind).erase other := (List.mem_erase_of_ne hne).2 hpath
    have hperm : (other :: path :: ((filesOf c m kind).erase other).erase path).Perm
        (filesOf c m kind) :=
      (((List.perm_cons_erase hmem).symm.cons other)).trans (List.perm_cons_erase hother).symm
    have hd := hdelivers _ hperm
    have hfailed : (buildOne c (rootOf (c.inputPath m) kind) (c.outPath m) path
        (buildOne c (rootOf (c.inputPath m) kind) (c.outPath m) other (resetOf c m).2).2).1.action =
        .failed :=
      action_buildOne_second h.out hreset (hbelow path hpath)
        ((h.written?_resetOf hreset hother).trans hresult') hname hway
    have hreport : (buildOne c (rootOf (c.inputPath m) kind) (c.outPath m) path
        (buildOne c (rootOf (c.inputPath m) kind) (c.outPath m) other (resetOf c m).2).2).1 ∈
          (inOrder c m kind (other :: path :: ((filesOf c m kind).erase other).erase path)).1 := by
      rw [inOrder, sortReports, (List.mergeSort_perm _ _).mem_iff, buildAll_cons, buildAll_cons]
      simp
    have haction := hd.action _ hreport
    rw [(buildOne_report ..).1, hfailed, if_pos ⟨by rw [hresult]; rfl, hname⟩] at haction
    split at haction <;> exact nomatch haction

/-- A build that can empty its output root goes through its files in one order. -/
theorem build_eq_inOrder (h : Begun c m kind) (hreset : (resetOf c m).1 = .ok ()) :
    (build false c : StateM Machine _) m =
      (.ok ⟨(inOrder c m kind (filesOf c m kind)).1, 0⟩,
        (inOrder c m kind (filesOf c m kind)).2) := by
  rw [build_run h]
  unfold inOrder
  generalize resetOf c m = r at hreset ⊢
  obtain ⟨_ | _, reset⟩ := r
  · exact nomatch hreset
  · rfl

/-- A build goes through its files in one order. With all targets in the output root, every order of
the files delivers them, with the same reports and the same files, just when no two files
collide. -/
theorem delivers_any_order_iff (h : Begun c m kind) (hreset : (resetOf c m).1 = .ok ())
    (hbelow : ∀ path ∈ filesOf c m kind,
      StrictlyBelow (c.outPath m).parts (targetIn c m kind path).parts) :
    (build false c : StateM Machine _) m =
        (.ok ⟨(inOrder c m kind (filesOf c m kind)).1, 0⟩,
          (inOrder c m kind (filesOf c m kind)).2) ∧
      ((∀ order : List Path, order.Perm (filesOf c m kind) →
          Delivers c m kind (inOrder c m kind order).1 (inOrder c m kind order).2.tree ∧
            (inOrder c m kind order).1 = (inOrder c m kind (filesOf c m kind)).1 ∧
            ∀ place, (inOrder c m kind order).2.tree.find? place =
              (inOrder c m kind (filesOf c m kind)).2.tree.find? place) ↔
        ∀ path ∈ filesOf c m kind, ∀ other ∈ filesOf c m kind, path ≠ other →
          ¬ Collide c (rootOf (c.inputPath m) kind) (c.outPath m) m path other) := by
  have hemptied := h.resetOf_spec.2 hreset
  refine ⟨build_eq_inOrder h hreset, fun hall path hpath other hother hne => ?_,
    fun hfree order horder => ?_⟩
  · exact not_collide_of_delivers h hemptied hbelow (fun order horder => (hall order horder).1)
      hpath hother hne
  · have hcompatible := h.compatible hemptied hbelow hfree
    exact ⟨delivers_inOrder hcompatible horder h, inOrder_congr hcompatible horder h⟩

/-- A machine with a script and another file, for builds that are run in the directory above the
input. -/
def pairMachine (name content : Bytes) : Machine where
  tree :=
    ⟨[(["r"], .directory), (["r", "src"], .directory),
      (["r", "src", "a.zl"], .file "const x : N = 1"),
    (["r", "src", name], .file content)]⟩
  workingDirectory := ⟨true, ["r"]⟩

/-- A build of two files delivers them, whichever of the two comes first. -/
theorem delivers_any_order_pair : Begun {} (pairMachine "b.js" "old") .directory ∧
    ∀ order : List Path, order.Perm (filesOf {} (pairMachine "b.js" "old") .directory) →
      Delivers {} (pairMachine "b.js" "old") .directory
        (inOrder {} (pairMachine "b.js" "old") .directory order).1
        (inOrder {} (pairMachine "b.js" "old") .directory order).2.tree := by
  have hbegun : Begun {} (pairMachine "b.js" "old") .directory :=
    ⟨⟨⟨by decide, by decide, by decide⟩, rfl, by decide⟩, by decide, rfl, by decide⟩
  have hfiles : ∀ path ∈ filesOf {} (pairMachine "b.js" "old") .directory,
      path ∈ (pairMachine "b.js" "old").tree.filesBelow ["r", "src"] := fun path hpath => by
    rw [hbegun.filesOf_eq, List.mem_mergeSort] at hpath
    exact hpath
  have hfree : ∀ path ∈ (pairMachine "b.js" "old").tree.filesBelow ["r", "src"],
      ∀ other ∈ (pairMachine "b.js" "old").tree.filesBelow ["r", "src"], path ≠ other →
        ¬ Collide {} ⟨true, ["r", "src"]⟩ ⟨true, ["r", "dist"]⟩
        (pairMachine "b.js" "old") path other := by
    decide +kernel
  have hiff := (delivers_any_order_iff hbegun (by decide +kernel) fun path hpath =>
    hbegun.strictlyBelow_target hpath (by decide) (by decide)).2
  refine ⟨hbegun, fun order horder => (hiff.2 (fun path hpath other hother => ?_) order horder).1⟩
  exact hfree path (hfiles path hpath) other (hfiles other hother)

/-- A file with the name that the result of a script gets is copied, and one of the two is lost. -/
theorem not_delivers_same_target : Begun {} (pairMachine "a.js" "old") .directory ∧
    ∃ report, ((build false {} : StateM Machine _) (pairMachine "a.js" "old")).1 = .ok report ∧
      ¬ Delivers {} (pairMachine "a.js" "old") .directory report.files
        ((build false {} : StateM Machine _) (pairMachine "a.js" "old")).2.tree := by
  have hbegun : Begun {} (pairMachine "a.js" "old") .directory :=
    ⟨⟨⟨by decide, by decide, by decide⟩, rfl, by decide⟩, by decide, rfl, by decide⟩
  rw [build_eq_inOrder hbegun (by decide +kernel)]
  refine ⟨hbegun, _, rfl, fun hdelivers => ?_⟩
  have hcopy : (inOrder _ _ _ _).2.tree.find? (targetIn {} (pairMachine "a.js" "old") .directory
      ⟨true, ["r", "src", "a.js"]⟩).parts = some (.file "old") :=
    hdelivers.find?_target hbegun (hbegun.mem_filesOf_iff.2 ⟨rfl, by decide, "old", by decide⟩)
      (by decide +kernel) (by decide +kernel)
  have hscript : (inOrder _ _ _ _).2.tree.find? (targetIn {} (pairMachine "a.js" "old") .directory
      ⟨true, ["r", "src", "a.zl"]⟩).parts = some (.file "const x = 1") :=
    hdelivers.find?_target hbegun
      (hbegun.mem_filesOf_iff.2 ⟨rfl, by decide, "const x : N = 1", by decide⟩)
      (by decide +kernel) (by decide +kernel)
  have hsame : targetIn {} (pairMachine "a.js" "old") .directory ⟨true, ["r", "src", "a.js"]⟩ =
      targetIn {} (pairMachine "a.js" "old") .directory ⟨true, ["r", "src", "a.zl"]⟩ := by
    decide +kernel
  rw [hsame, hscript] at hcopy
  exact absurd hcopy (by decide)

end Build

end TagScript
