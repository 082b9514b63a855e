import TagScript.Project.Build
import TagScript.Proofs.FileTrees

/-!
# Saving a file

Saving makes the directories on the way to a file and then writes it. It adds directories where
nothing was and gives one file its content; all else stays. Where nothing stands in the way it
succeeds for every path that the system takes.
-/

namespace TagScript

namespace Machine

variable {α β : Type}

/-- A step and the one that depends on it are run one after the other. -/
theorem run_bind (x : StateM Machine α) (f : α → StateM Machine β) (m : Machine) :
    (x >>= f) m = f (x m).1 (x m).2 := rfl

/-- A plain value leaves the machine as it is. -/
theorem run_pure (a : α) (m : Machine) : (pure a : StateM Machine α) m = (a, m) := rfl

/-- A change of the files takes effect when it succeeds. -/
theorem run_change (f : FileTree → Except FileError FileTree) (m : Machine) :
    change f m = match f m.tree with
      | .ok tree => (.ok (), { m with tree })
      | .error e => (.error e, m) := rfl

end Machine

namespace Build

/-- What writing a file, with the directories on the way to it, does to a tree. -/
def save (asProblem : Path → FileError → FileProblem) (target : Path)
    (content : Bytes) (t : FileTree) : Except FileProblem Unit × FileTree :=
  match t.makeDirectories target.directory with
  | (.error e, made) => (.error (.making target.directory e), made)
  | (.ok (), made) =>
    match made.writeFile target content with
    | .error e => (.error (asProblem target e), made)
    | .ok written => (.ok (), written)

/-- Writing is saving to the files of the machine. -/
theorem write_run (asProblem : Path → FileError → FileProblem) (target : Path)
    (content : Bytes) (m : Machine) : (write asProblem target content : StateM Machine _) m =
      ((save asProblem target content m.tree).1,
        { m with tree := (save asProblem target content m.tree).2 }) := by
  have hmade : (MonadHost.makeDirectories target.directory : StateM Machine _) m =
      ((m.tree.makeDirectories target.directory).1,
        { m with tree := (m.tree.makeDirectories target.directory).2 }) := rfl
  unfold write save
  rw [Machine.run_bind, hmade]
  rcases m.tree.makeDirectories target.directory with ⟨_ | _, made⟩
  · rfl
  · dsimp only
    rw [Machine.run_bind]
    simp only [MonadHost.writeFile, Machine.run_change]
    cases made.writeFile target content <;> rfl

variable {asProblem : Path → FileError → FileProblem} {content : Bytes} {s t : FileTree}
  {place : List Bytes}

/-- The way to the directory that holds a place does not come to the place. -/
theorem ne_concat_of_onWay {init other : List Bytes} {last : Bytes}
    (h : FileTree.OnWay [] init other) :
    other ≠ init ++ [last] := by
  rintro rfl
  have hlength := (FileTree.onWay_root.1 h).2.length_le
  rw [List.length_append, List.length_singleton] at hlength
  omega

section Concat

variable {init : List Bytes} {last : Bytes}

/-- Making the way to the directory of a place leaves the place as it is. -/
theorem find?_makeFrom_concat (t : FileTree) (init : List Bytes) (last : Bytes) :
    (t.makeFrom [] init).2.find? (init ++ [last]) = t.find? (init ++ [last]) :=
  FileTree.find?_makeFrom_of_not_onWay fun hway => ne_concat_of_onWay hway rfl

/-- Saving makes the directories on the way and then the file. -/
theorem save_concat (h : t.WellFormed) (hplace : ∀ part ∈ init ++ [last], IsName part) :
    save asProblem ⟨true, init ++ [last]⟩ content t =
      match t.makeFrom [] init with
      | (.error e, made) => (.error (.making ⟨true, init⟩ e), made)
      | (.ok (), made) =>
        match FileTree.newFault? (Path.text ⟨true, init ++ [last]⟩) last with
        | some fault =>
          (.error
            (asProblem ⟨true, init ++ [last]⟩ ⟨.openFile, Path.text ⟨true, init ++ [last]⟩, fault⟩),
            made)
        | none =>
          if t.find? (init ++ [last]) = some .directory then
            (.error (asProblem ⟨true, init ++ [last]⟩
              ⟨.openFile, Path.text ⟨true, init ++ [last]⟩, .isDirectory⟩), made)
          else (.ok (), made.put (init ++ [last]) (.file content)) := by
  have hinit : ∀ part ∈ init, IsName part :=
    fun part hpart => hplace part (List.mem_append_left _ hpart)
  obtain ⟨hformed, -, hend⟩ := FileTree.makeFrom_spec h (FileTree.find?_nil t) hinit
  rw [← find?_makeFrom_concat]
  unfold save FileTree.makeDirectories
  rw [Path.IsPlace.directory_eq ⟨rfl, hplace⟩]
  simp only [List.dropLast_concat]
  rcases hmake : t.makeFrom [] init with ⟨_ | _, made⟩
  · rfl
  · rw [hmake] at hformed hend
    dsimp only [List.nil_append] at hformed hend ⊢
    rw [FileTree.writeFile_eq hformed (hplace last (by simp)) (hend rfl)]
    cases FileTree.newFault? (Path.text ⟨true, init ++ [last]⟩) last with
    | some fault => rfl
    | none =>
      by_cases hdirectory : made.find? (init ++ [last]) = some .directory
      · simp [hdirectory]
      · simp [hdirectory]

/-- Saving fails and leaves the directories that were made, or it puts the file there after them. -/
theorem save_cases (asProblem : Path → FileError → FileProblem) (content : Bytes) (h : t.WellFormed)
    (hplace : ∀ part ∈ init ++ [last], IsName part) :
    (∃ problem, save asProblem ⟨true, init ++ [last]⟩ content t =
      (.error problem, (t.makeFrom [] init).2)) ∨
      (t.makeFrom [] init).1 = .ok () ∧ Nameable (init ++ [last]) ∧
        t.find? (init ++ [last]) ≠ some .directory ∧
        save asProblem ⟨true, init ++ [last]⟩ content t =
          (.ok (), (t.makeFrom [] init).2.put (init ++ [last]) (.file content)) := by
  have hinit : ∀ part ∈ init, IsName part :=
    fun part hpart => hplace part (List.mem_append_left _ hpart)
  obtain ⟨hformed, -, hend⟩ := FileTree.makeFrom_spec h (FileTree.find?_nil t) hinit
  rw [save_concat h hplace]
  generalize t.makeFrom [] init = r at *
  obtain ⟨_ | _, made⟩ := r
  · exact .inl ⟨_, rfl⟩
  · cases hfault : FileTree.newFault? (Path.text ⟨true, init ++ [last]⟩) last with
    | some fault => exact .inl ⟨_, rfl⟩
    | none =>
      have hname : Nameable (init ++ [last]) := (hformed.newFault?_eq_none_iff (hend rfl)).1 hfault
      by_cases hdirectory : t.find? (init ++ [last]) = some .directory
      · exact .inl ⟨_, if_pos hdirectory⟩
      · exact .inr ⟨rfl, hname, hdirectory, if_neg hdirectory⟩

end Concat

/-- What saving a content at a place can do to a tree: directories come on the way to the place
where nothing was, and a file comes at the place itself. -/
structure Saved (place : List Bytes) (content : Bytes) (t : FileTree)
    (r : Except FileProblem Unit × FileTree) : Prop where
  formed : r.2.WellFormed
  find : ∀ other, r.2.find? other = t.find? other ∨ other <+: place ∧ Nameable other ∧
    (other ≠ place ∧ t.find? other = none ∧ r.2.find? other = some .directory ∨
      other = place ∧ t.find? other ≠ some .directory ∧ r.2.find? other = some (.file content))
  done : r.1 = .ok () → t.find? place ≠ some .directory ∧ r.2.find? place = some (.file content)

/-- Saving does no more to a well-formed tree than it may. -/
theorem save_spec (h : t.WellFormed) (hplace : ∀ part ∈ place, IsName part) :
    Saved place content t (save asProblem ⟨true, place⟩ content t) := by
  induction place using List.reverseRecOn with
  | nil => exact ⟨h, fun _ => .inl rfl, fun hok => nomatch hok⟩
  | append_singleton init last _ =>
    have hinit : ∀ part ∈ init, IsName part :=
      fun part hpart => hplace part (List.mem_append_left _ hpart)
    obtain ⟨hformed, hfind, hend⟩ := FileTree.makeFrom_spec h (FileTree.find?_nil t) hinit
    have hways : ∀ other, (t.makeFrom [] init).2.find? other = t.find? other ∨
        other <+: init ++ [last] ∧ Nameable other ∧ other ≠ init ++ [last] ∧ t.find? other = none ∧
          (t.makeFrom [] init).2.find? other = some .directory := fun other =>
      (hfind other).imp_right fun ⟨hway, hname, hnone, hmade⟩ =>
        ⟨(FileTree.onWay_root.1 hway).2.trans (List.prefix_append _ _), hname,
          ne_concat_of_onWay hway, hnone, hmade⟩
    rcases save_cases asProblem content h hplace with ⟨problem, hsave⟩ | ⟨hok, hname, hfree, hsave⟩
    · rw [hsave]
      refine ⟨hformed, fun other => ?_, fun hok => nomatch hok⟩
      exact (hways other).imp_right fun ⟨hpre, hname, hmade⟩ => ⟨hpre, hname, .inl hmade⟩
    · have hne : init ++ [last] ≠ [] := by simp
      have hparts : ∀ part ∈ init ++ [last], IsName part ∧ part.length ≤ FileFault.maxNameLength :=
        fun part hpart => ⟨hplace part hpart, hname.2 part hpart⟩
      have hput : ((t.makeFrom [] init).2.put (init ++ [last]) (.file content)).find?
          (init ++ [last]) =
          some (.file content) := by
        rw [FileTree.find?_put hne, if_pos rfl]
      have hfree' : (t.makeFrom [] init).2.find? (init ++ [last]) ≠ some .directory :=
        find?_makeFrom_concat t init last ▸ hfree
      rw [hsave]
      refine ⟨hformed.put hparts (by simpa using hend hok) hfree', fun other => ?_,
        fun _ => ⟨hfree, hput⟩⟩
      by_cases hother : other = init ++ [last]
      · subst hother
        exact .inr ⟨List.prefix_rfl, hname, .inr ⟨rfl, hfree, hput⟩⟩
      · rw [FileTree.find?_put hne, if_neg hother]
        exact (hways other).imp_right fun ⟨hpre, hname, hmade⟩ => ⟨hpre, hname, .inl hmade⟩

/-- Saving changes nothing off the way to its place. -/
theorem find?_save_off_way (h : t.WellFormed) (hplace : ∀ part ∈ place, IsName part)
    {other : List Bytes} (hother : ¬ other <+: place) :
    (save asProblem ⟨true, place⟩ content t).2.find? other = t.find? other := by
  have hsaved : Saved place content t (save asProblem ⟨true, place⟩ content t) := save_spec h hplace
  exact (hsaved.find other).resolve_right fun hchange => hother hchange.1

section Concat

variable {init : List Bytes} {last : Bytes}

/-- Saving does to the places on the way what making the directories does. -/
theorem find?_save_of_ne (h : t.WellFormed) (hplace : ∀ part ∈ init ++ [last], IsName part)
    {other : List Bytes} (hother : other ≠ init ++ [last]) :
    (save asProblem ⟨true, init ++ [last]⟩ content t).2.find? other =
      (t.makeFrom [] init).2.find? other := by
  rcases save_cases asProblem content h hplace with ⟨problem, hsave⟩ | ⟨-, -, -, hsave⟩
  · rw [hsave]
  · rw [hsave, FileTree.find?_put (by simp), if_neg hother]

/-- Saving that fails leaves what was at the place. -/
theorem find?_save_of_failed (h : t.WellFormed) (hplace : ∀ part ∈ init ++ [last], IsName part)
    (hfailed : (save asProblem ⟨true, init ++ [last]⟩ content t).1 ≠ .ok ()) :
    (save asProblem ⟨true, init ++ [last]⟩ content t).2.find? (init ++ [last]) =
      t.find? (init ++ [last]) := by
  rcases save_cases asProblem content h hplace with ⟨problem, hsave⟩ | ⟨-, -, -, hsave⟩
  · rw [hsave, find?_makeFrom_concat]
  · exact absurd (congrArg Prod.fst hsave) hfailed

/-- Whether saving succeeds depends on the way, on the name and on what is at the place. -/
theorem save_fst (h : t.WellFormed) (hplace : ∀ part ∈ init ++ [last], IsName part) :
    (save asProblem ⟨true, init ++ [last]⟩ content t).1 =
      match (t.makeFrom [] init).1 with
      | .error e => .error (.making ⟨true, init⟩ e)
      | .ok () =>
        match FileTree.newFault? (Path.text ⟨true, init ++ [last]⟩) last with
        | some fault =>
          .error (asProblem ⟨true, init ++ [last]⟩
            ⟨.openFile, Path.text ⟨true, init ++ [last]⟩, fault⟩)
        | none =>
          if t.find? (init ++ [last]) = some .directory then
            .error (asProblem ⟨true, init ++ [last]⟩
              ⟨.openFile, Path.text ⟨true, init ++ [last]⟩, .isDirectory⟩)
          else .ok () := by
  rw [save_concat h hplace]
  rcases t.makeFrom [] init with ⟨_ | _, made⟩
  · rfl
  · cases FileTree.newFault? (Path.text ⟨true, init ++ [last]⟩) last with
    | some fault => rfl
    | none =>
      dsimp only
      split <;> rfl

end Concat

/-- Where nothing stands in the way, all is saved that the system takes. -/
theorem save_clear (h : t.WellFormed) (hplace : ∀ part ∈ place, IsName part)
    (hclear : ∀ other, other <+: place → other ≠ place → t.find? other = none ∨
      t.find? other = some .directory)
    (hend : t.find? place ≠ some .directory) :
    (∀ other, other <+: place → other ≠ place → Nameable other →
        (save asProblem ⟨true, place⟩ content t).2.find? other = some .directory) ∧
      (Nameable place → (save asProblem ⟨true, place⟩ content t).1 = .ok ()) := by
  induction place using List.reverseRecOn with
  | nil => exact absurd rfl hend
  | append_singleton init last _ =>
    have hinit : ∀ part ∈ init, IsName part :=
      fun part hpart => hplace part (List.mem_append_left _ hpart)
    obtain ⟨hformed, -, hdone⟩ := FileTree.makeFrom_spec h (FileTree.find?_nil t) hinit
    obtain ⟨hmade, hok⟩ := FileTree.makeFrom_clear h (FileTree.find?_nil t) hinit fun other hway =>
      hclear other ((FileTree.onWay_root.1 hway).2.trans (List.prefix_append _ _))
        (ne_concat_of_onWay hway)
    refine ⟨fun other hpre hne hname => ?_, fun hname => ?_⟩
    · rw [find?_save_of_ne h hplace hne]
      by_cases hnil : other = []
      · simp [hnil]
      · have hbefore : other <+: init := (List.prefix_concat_iff.1 hpre).resolve_left hne
        exact hmade other (FileTree.onWay_root.2 ⟨hnil, hbefore⟩) hname
    · have hway := hok (hname.of_prefix (by simp))
      have hfault := (hformed.newFault?_eq_none_iff (hdone hway)).2 hname
      rw [save_fst h hplace, hway]
      simp only [List.nil_append] at hfault
      simp only [hfault, hend, if_false]

/-- Saving treats two trees alike when each place on the way is in the second as it is in the first,
before or after the saving. -/
theorem save_agree (hs : s.WellFormed) (ht : t.WellFormed) (hplace : ∀ part ∈ place, IsName part)
    (hagree : ∀ other, other <+: place → t.find? other = s.find? other ∨
      t.find? other = (save asProblem ⟨true, place⟩ content s).2.find? other) :
    (save asProblem ⟨true, place⟩ content t).1 = (save asProblem ⟨true, place⟩ content s).1 ∧
      ∀ other, other <+: place → (save asProblem ⟨true, place⟩ content t).2.find? other =
        (save asProblem ⟨true, place⟩ content s).2.find? other := by
  induction place using List.reverseRecOn with
  | nil =>
    refine ⟨rfl, fun other hpre => ?_⟩
    rw [List.prefix_nil.1 hpre]
    rfl
  | append_singleton init last _ =>
    obtain ⟨hresult, hways⟩ : (t.makeFrom [] init).1 = (s.makeFrom [] init).1 ∧
        ∀ other, FileTree.OnWay [] init other →
          (t.makeFrom [] init).2.find? other = (s.makeFrom [] init).2.find? other := by
      refine FileTree.makeFrom_agree fun other hway => ?_
      rw [← find?_save_of_ne hs hplace (ne_concat_of_onWay hway)]
      exact hagree other ((FileTree.onWay_root.1 hway).2.trans (List.prefix_append _ _))
    have hs' : Saved (init ++ [last]) content s (save asProblem ⟨true, init ++ [last]⟩ content s) :=
      save_spec hs hplace
    have ht' : Saved (init ++ [last]) content t (save asProblem ⟨true, init ++ [last]⟩ content t) :=
      save_spec ht hplace
    have hend := hagree _ List.prefix_rfl
    have hblocked : t.find? (init ++ [last]) = some .directory ↔ s.find? (init ++ [last]) =
        some .directory := by
      by_cases hok : (save asProblem ⟨true, init ++ [last]⟩ content s).1 = .ok ()
      · obtain ⟨hfree, hwritten⟩ := hs'.done hok
        rcases hend with hend | hend
        · rw [hend]
        · simp [hend, hwritten, hfree]
      · rw [find?_save_of_failed hs hplace hok, or_self_iff] at hend
        rw [hend]
    have hsame : (save asProblem ⟨true, init ++ [last]⟩ content t).1 =
        (save asProblem ⟨true, init ++ [last]⟩ content s).1 := by
      rw [save_fst ht hplace, save_fst hs hplace, hresult]
      simp only [hblocked]
    refine ⟨hsame, fun other hpre => ?_⟩
    by_cases hother : other = init ++ [last]
    · subst hother
      by_cases hok : (save asProblem ⟨true, init ++ [last]⟩ content s).1 = .ok ()
      · rw [(hs'.done hok).2, (ht'.done (hsame.trans hok)).2]
      · rw [find?_save_of_failed hs hplace hok, or_self_iff] at hend
        rw [find?_save_of_failed hs hplace hok, find?_save_of_failed ht hplace (hsame ▸ hok), hend]
    · rw [find?_save_of_ne hs hplace hother, find?_save_of_ne ht hplace hother]
      by_cases hnil : other = []
      · simp [hnil]
      · exact hways other
          (FileTree.onWay_root.2 ⟨hnil, (List.prefix_concat_iff.1 hpre).resolve_left hother⟩)

end Build

end TagScript
