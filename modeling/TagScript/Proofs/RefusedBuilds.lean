import TagScript.Proofs.BuildSteps

/-!
# Builds that are refused

The first thing that a build changes is its output root, which it removes with all that is in it.
Before that it looks for its input and holds the two paths against each other. A build that is
refused there leaves the machine as it is.

Whether one path lies within the other is read off the text of the way between them, and is a
question about names: the names of the one stand in front of those of the other.
-/

namespace TagScript

namespace Path

/-- Two places overlap when one has the names of the other in front. -/
theorem IsPlace.overlaps_iff {p q : Path} (hp : p.IsPlace) (hq : q.IsPlace) :
    overlaps p q = true ↔ q.parts <+: p.parts ∨ p.parts <+: q.parts := by
  rw [overlaps, Bool.or_eq_true, hq.within_iff hp, hp.within_iff hq]

end Path

/-- What a path from the root leads to can be looked at, where the system takes its text and
something lies there. -/
theorem Machine.look_isOk_iff {m : Machine} (h : m.tree.WellFormed) {p : Path} (hp : p.IsPlace) :
    (∃ kind, m.look p = .ok kind) ↔ FileFault.ofText? p.text = none ∧ ∃ node,
      m.tree.find? p.parts = some node := by
  have hresolve : m.resolve p = m.tree.reach [] p := by simp [resolve, hp.rooted]
  rw [look, hresolve, FileTree.reach]
  cases FileFault.ofText? p.text with
  | some fault => simp
  | none =>
    dsimp only
    constructor
    · rintro ⟨kind, hkind⟩
      cases hwalk : m.tree.walk [] p.parts with
      | error fault => simp [hwalk] at hkind
      | ok found =>
        obtain rfl : found = p.parts := FileTree.eq_of_walk_eq_ok hp.names hwalk
        cases hfind : m.tree.find? p.parts with
        | none => simp [hwalk, hfind] at hkind
        | some node => exact ⟨rfl, node, rfl⟩
    · rintro ⟨-, node, hnode⟩
      rw [FileTree.walk_of_find? h hnode]
      exact ⟨node.kind, by simp [hnode]⟩

namespace Build

variable {m : Machine}

/-- Emptying the output root fails when it is removed or when it is made again. -/
theorem resetOut_error {out : Path} {e : BuildError}
    (h : ((resetOut out : StateM Machine _) m).1 = .error e) :
    (∃ fault, e = .clearingOut fault) ∨ ∃ fault, e = .makingOut fault := by
  rw [resetOut, Machine.run_bind] at h
  cases hcleared : ((MonadHost.removeAll out : StateM Machine _) m).1 with
  | error fault =>
    rw [hcleared] at h
    exact .inl ⟨fault, (Except.error.inj h).symm⟩
  | ok _ =>
    rw [hcleared] at h
    dsimp only at h
    rw [Machine.run_bind] at h
    cases hmade : ((MonadHost.makeDirectories out : StateM Machine _)
        ((MonadHost.removeAll out : StateM Machine _) m).2).1 with
    | error fault =>
      rw [hmade] at h
      exact .inr ⟨fault, (Except.error.inj h).symm⟩
    | ok _ =>
      rw [hmade] at h
      exact nomatch h

/-- What goes wrong behind the checks of a build has another reason than they have. -/
theorem buildInto_error {cancelled : Bool} {c : Config} {input out : Path}
    {kind : NodeKind} {e : BuildError}
    (h : ((buildInto cancelled c input out kind : StateM Machine _) m).1 = .error e) :
    ((∃ fault, e = .clearingOut fault) ∨ ∃ fault, e = .makingOut fault) ∨ e = .cancelled := by
  rw [buildInto, Machine.run_bind, Machine.run_bind] at h
  cases hreset :
    ((resetOut out : StateM Machine _) ((collectFiles input kind : StateM Machine _) m).2).1 with
  | error error =>
    rw [hreset] at h
    obtain rfl := Except.error.inj h
    exact .inl (resetOut_error hreset)
  | ok _ =>
    rw [hreset] at h
    dsimp only at h
    split at h
    · exact .inr (Except.error.inj h).symm
    · exact nomatch h

/-- A build looks for its input, then holds its paths against each other, and only then goes on. -/
theorem build_run_checks (cancelled : Bool) (c : Config) (m : Machine) :
    (build cancelled c : StateM Machine _) m = match m.look (c.inputPath m) with
      | .error e => (.error (.unreadableInput e), m)
      | .ok kind =>
        if Path.overlaps (c.outPath m) (c.inputPath m) then
          (.error (.overlap (c.outPath m) (c.inputPath m)), m)
        else
          let built :=
            (buildInto cancelled c (c.inputPath m) (c.outPath m) kind : StateM Machine _) m
          (built.1.map (⟨·, 0⟩), built.2) := by
  have hlook : (MonadHost.look (c.inputPath m) : StateM Machine _) m =
      (m.look (c.inputPath m), m) := rfl
  have hnow : (MonadHost.now : StateM Machine _) m = (0, m) := rfl
  have hhere : (MonadHost.workingDirectory : StateM Machine _) m = (m.workingDirectory, m) := rfl
  unfold build
  rw [Machine.run_bind, hnow, Machine.run_bind, hhere, Machine.run_bind, ← Config.inputPath,
    hlook, ← Config.outPath]
  cases m.look (c.inputPath m) with
  | error e => rfl
  | ok kind =>
    dsimp only
    split
    · rfl
    · rw [Machine.run_bind]
      rcases (buildInto cancelled c (c.inputPath m) (c.outPath m) kind : StateM Machine _) m
        with ⟨_ | _, built⟩
      · rfl
      · rfl

/-- Why a build is refused, if it is. -/
def refusal? (c : Config) (m : Machine) : Option BuildError :=
  match m.look (c.inputPath m) with
  | .error e => some (.unreadableInput e)
  | .ok _ =>
    if Path.overlaps (c.outPath m) (c.inputPath m) then
      some (.overlap (c.outPath m) (c.inputPath m))
    else none

/-- The errors with which a build is refused. -/
def IsRefusal (e : BuildError) : Prop :=
  (∃ fault, e = .unreadableInput fault) ∨ ∃ out input, e = .overlap out input

/-- A build ends with an error that refuses it just when there is that reason to refuse it, and does
nothing then. -/
theorem build_eq_refusal_iff (cancelled : Bool) (c : Config) (m : Machine) {e : BuildError}
    (he : IsRefusal e) :
    (((build cancelled c : StateM Machine _) m).1 = .error e ↔ refusal? c m = some e) ∧
      (refusal? c m = some e → ((build cancelled c : StateM Machine _) m).2 = m) := by
  rw [build_run_checks, refusal?]
  cases m.look (c.inputPath m) with
  | error fault => simp
  | ok kind =>
    dsimp only
    split
    · simp
    · refine ⟨iff_of_false (fun herror => ?_) nofun, nofun⟩
      cases hinto :
        ((buildInto cancelled c (c.inputPath m) (c.outPath m) kind : StateM Machine _) m).1 with
      | ok reports => simp [hinto, Except.map] at herror
      | error e' =>
        obtain rfl : e' = e := by simpa [hinto, Except.map] using herror
        rcases buildInto_error hinto with (⟨_, rfl⟩ | ⟨_, rfl⟩) | rfl <;> simp [IsRefusal] at he

/-- A build is refused because of its paths just when the input is there and the names of one of the
two paths stand in front of those of the other, and because of its input just when this cannot be
looked at; either way the machine stays as it is. The names tell what the texts of the ways between
the paths tell, and an input can be looked at where the system takes its path and something lies
there. -/
theorem build_refused_iff (cancelled : Bool) (c : Config) {m : Machine}
    (hm : m.workingDirectory.IsPlace) :
    (∀ out input, ((build cancelled c : StateM Machine _) m).1 = .error (.overlap out input) ↔
      (out = c.outPath m ∧ input = c.inputPath m) ∧ (∃ kind, m.look (c.inputPath m) = .ok kind) ∧
        ((c.inputPath m).parts <+: (c.outPath m).parts ∨
          (c.outPath m).parts <+: (c.inputPath m).parts)) ∧
    (∀ fault, ((build cancelled c : StateM Machine _) m).1 = .error (.unreadableInput fault) ↔
      m.look (c.inputPath m) = .error fault) ∧
    (∀ e, IsRefusal e → ((build cancelled c : StateM Machine _) m).1 = .error e →
      ((build cancelled c : StateM Machine _) m).2 = m) ∧
    (m.tree.WellFormed → ((∃ kind, m.look (c.inputPath m) = .ok kind) ↔
      FileFault.ofText? (c.inputPath m).text = none ∧ ∃ node,
        m.tree.find? (c.inputPath m).parts = some node)) ∧
    ((c.inputPath m).parts <+: (c.outPath m).parts ↔
      (Path.wayText? (c.inputPath m) (c.outPath m)).any Path.staysInside = true) ∧
    ((c.outPath m).parts <+: (c.inputPath m).parts ↔
      (Path.wayText? (c.outPath m) (c.inputPath m)).any Path.staysInside = true) := by
  have hinput : (c.inputPath m).IsPlace := hm.absolute c.input
  have hout : (c.outPath m).IsPlace := hm.absolute c.out
  refine ⟨fun out input => ?_, fun fault => ?_, fun e he herror => ?_,
    fun htree => Machine.look_isOk_iff htree hinput, (hinput.within_iff hout).symm,
    (hout.within_iff hinput).symm⟩
  · rw [(build_eq_refusal_iff cancelled c m (.inr ⟨out, input, rfl⟩)).1, refusal?,
      ← hout.overlaps_iff hinput]
    cases m.look (c.inputPath m) with
    | error fault => simp
    | ok kind =>
      cases Path.overlaps (c.outPath m) (c.inputPath m) with
      | false => simp
      | true => simp [eq_comm]
  · rw [(build_eq_refusal_iff cancelled c m (.inl ⟨fault, rfl⟩)).1, refusal?]
    cases m.look (c.inputPath m) with
    | error fault' => simp
    | ok kind =>
      dsimp only
      split <;> simp
  · obtain ⟨hiff, hsame⟩ := build_eq_refusal_iff cancelled c m he
    exact hsame (hiff.1 herror)

/-- A machine with a directory and one below it. -/
def nestedMachine : Machine where
  tree := ⟨[(["a"], .directory), (["a", "b"], .directory)]⟩
  workingDirectory := ⟨true, ["a"]⟩

/-- A name that starts like the input is no overlap, and one that starts with two dots still lies in
its directory. -/
theorem build_refused_nested : nestedMachine.workingDirectory.IsPlace ∧
    (∀ out input, ((build false { input := "b", out := "bc" } : StateM Machine _) nestedMachine).1 ≠
      .error (.overlap out input)) ∧
    ((build false { input := "/a", out := "..b" } : StateM Machine _) nestedMachine) =
      (.error (.overlap ⟨true, ["a", "..b"]⟩ ⟨true, ["a"]⟩), nestedMachine) := by
  have hplace : nestedMachine.workingDirectory.IsPlace := ⟨rfl, by decide⟩
  refine ⟨hplace, fun out input herror => ?_, ?_⟩
  · have hprefix :=
      (((build_refused_iff false { input := "b", out := "bc" } hplace).1 out input).1 herror).2.2
    revert hprefix
    decide
  · obtain ⟨hoverlap, -, hsame, -⟩ := build_refused_iff false { input := "/a", out := "..b" } hplace
    have herror := (hoverlap ⟨true, ["a", "..b"]⟩ ⟨true, ["a"]⟩).2
      ⟨⟨by decide, by decide⟩, ⟨.directory, by decide⟩, .inl (by decide)⟩
    exact Prod.ext herror (hsame _ (.inr ⟨_, _, rfl⟩) herror)

end Build

end TagScript
