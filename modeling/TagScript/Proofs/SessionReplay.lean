import TagScript.Proofs.CommentSafety
import TagScript.Session

/-!
# What a session keeps of its entries

A session compiles each entry together with the entries accepted before it. An entry that is
refused is reported and changes nothing, so a session is what its accepted entries alone would
have made it: run by themselves they are all accepted, they add the same texts, and the session is
the same in the end.

`Accounts` says what a session is after some accepted entries. One entry keeps it, and so does a
whole run.
-/

namespace TagScript

namespace Session

variable {s next : Session} {options : CompileOptions} {entry : Bytes} {kept : List Bytes}
  {answer : Except (List Diagnostic) Bytes}

/-- Try entries one after the other: the session after them, and the answer to each. -/
def evalAll (s : Session) : List Bytes → Session × List (Except (List Diagnostic) Bytes)
  | [] => (s, [])
  | entry :: rest =>
    let (next, answer) := s.eval entry
    let (last, answers) := next.evalAll rest
    (last, answer :: answers)

/-- The entries of a run that are accepted, each with the text that it adds. -/
def accepted (s : Session) (entries : List Bytes) : List (Bytes × Bytes) :=
  (entries.zip (s.evalAll entries).2).filterMap fun (entry, answer) =>
    answer.toOption.map (entry, ·)

/-- The first entry of a run is tried, and the run goes on from there. -/
theorem evalAll_cons (h : s.eval entry = (next, answer)) (rest : List Bytes) :
    s.evalAll (entry :: rest) = ((next.evalAll rest).1, answer :: (next.evalAll rest).2) := by
  simp [evalAll, h]

/-- What a run accepts is its first entry, if that is accepted, and what the rest of the run
accepts. -/
theorem accepted_cons (h : s.eval entry = (next, answer)) (rest : List Bytes) :
    s.accepted (entry :: rest) = (answer.toOption.map (entry, ·)).toList ++ next.accepted rest := by
  rw [accepted, evalAll_cons h, List.zip_cons_cons]
  cases answer with
  | error diagnostics => rfl
  | ok added => rfl

/-- How an entry that is accepted changes a session. -/
structure Accepts (s : Session) (entry : Bytes) (next : Session) : Prop where
  sameOptions : next.options = s.options
  source : next.source = s.candidate entry
  entries : next.entries = s.entries + 1
  passes : (compile s.options next.source).failed = false
  output : (compile s.options next.source).output = next.output

/-- An entry is refused with diagnostics and changes nothing, or it is accepted. -/
theorem eval_cases (s : Session) (entry : Bytes) :
    (∃ diagnostics, diagnostics ≠ [] ∧ s.eval entry = (s, .error diagnostics)) ∨
      ∃ next added, s.Accepts entry next ∧ s.eval entry = (next, .ok added) := by
  cases hfailed : (compile s.options (s.candidate entry)).failed with
  | true =>
    refine .inl ⟨(compile s.options (s.candidate entry)).diagnostics, ?_, by simp [eval, hfailed]⟩
    simpa [Compiled.failed] using hfailed
  | false =>
    refine .inr ⟨_, _, ?_, by simp only [eval, hfailed]; rfl⟩
    exact { sameOptions := rfl, source := rfl, entries := rfl, passes := hfailed, output := rfl }

/-- Of a run only what is accepted matters: by themselves these entries are accepted too, add the
same texts and lead to the same session. -/
theorem evalAll_map_accepted (s : Session) (entries : List Bytes) :
    s.evalAll ((s.accepted entries).map Prod.fst) =
      ((s.evalAll entries).1, (s.accepted entries).map fun (_, added) => .ok added) := by
  induction entries generalizing s with
  | nil => rfl
  | cons entry rest ih =>
    rcases s.eval_cases entry with ⟨diagnostics, -, heval⟩ | ⟨next, added, -, heval⟩
    · rw [accepted_cons heval, evalAll_cons heval]
      exact ih s
    · rw [accepted_cons heval, evalAll_cons heval]
      change s.evalAll (entry :: (next.accepted rest).map Prod.fst) = _
      rw [evalAll_cons heval, ih next]
      rfl

/-- What a session is after some accepted entries. -/
structure Accounts (s : Session) (options : CompileOptions) (kept : List Bytes) : Prop where
  sameOptions : s.options = options
  source : s.source = Bytes.join "\n" kept
  entries : s.entries = kept.length
  compiled : kept ≠ [] → (compile options s.source).failed = false ∧
    (compile options s.source).output = s.output

/-- Entries that are not empty make a source that is not empty. -/
theorem join_ne_nil (hne : kept ≠ []) (hkept : ∀ e ∈ kept, e ≠ []) : Bytes.join "\n" kept ≠ [] := by
  obtain ⟨first, rest, rfl⟩ := List.exists_cons_of_ne_nil hne
  have hfirst : first ≠ [] := hkept first List.mem_cons_self
  rw [Bytes.join]
  cases rest with
  | nil => simpa using hfirst
  | cons second rest =>
    rw [List.intercalate_cons_cons, List.append_assoc]
    exact List.append_ne_nil_of_left_ne_nil hfirst _

/-- An entry is tried as one more line behind those accepted before it. -/
theorem Accounts.candidate_eq (h : s.Accounts options kept) (hkept : ∀ e ∈ kept, e ≠ []) :
    s.candidate entry = Bytes.join "\n" (kept ++ [entry]) := by
  have hline : ("\n" : Bytes) = [Char.toUInt8 '\n'] := by decide
  rw [candidate, h.source]
  by_cases hne : kept = []
  · subst hne
    simp [Bytes.join]
  · rw [if_neg (by simpa using join_ne_nil hne hkept), hline, Token.join_concat _ hne,
      List.append_assoc, List.singleton_append]

/-- An accepted entry is accounted for. -/
theorem Accepts.accounts (h : s.Accepts entry next) (hs : s.Accounts options kept)
    (hkept : ∀ e ∈ kept, e ≠ []) :
    next.Accounts options (kept ++ [entry]) where
  sameOptions := h.sameOptions.trans hs.sameOptions
  source := h.source.trans (hs.candidate_eq hkept)
  entries := by rw [h.entries, hs.entries, List.length_append, List.length_singleton]
  compiled _ := hs.sameOptions ▸ ⟨h.passes, h.output⟩

/-- A run accounts for the entries that it accepts. -/
theorem Accounts.evalAll (h : s.Accounts options kept) (hkept : ∀ e ∈ kept, e ≠ [])
    {entries : List Bytes} (hentries : ∀ e ∈ entries, e ≠ []) :
    (s.evalAll entries).1.Accounts options (kept ++ (s.accepted entries).map Prod.fst) := by
  induction entries generalizing s kept with
  | nil => simpa [accepted, Session.evalAll] using h
  | cons entry rest ih =>
    rw [List.forall_mem_cons] at hentries
    rcases s.eval_cases entry with ⟨diagnostics, -, heval⟩ | ⟨next, added, haccepts, heval⟩
    · rw [evalAll_cons heval, accepted_cons heval]
      exact ih h hkept hentries.2
    · have hmore : ∀ e ∈ kept ++ [entry], e ≠ [] := by
        simpa [or_imp, forall_and] using ⟨hkept, hentries.1⟩
      have hrest := ih (haccepts.accounts h hkept) hmore hentries.2
      rw [evalAll_cons heval, accepted_cons heval]
      rwa [List.append_assoc] at hrest

/-- A session that starts anew has nothing to account for. -/
theorem accounts_fresh (options : CompileOptions) : Accounts { options } options [] where
  sameOptions := rfl
  source := rfl
  entries := rfl
  compiled h := absurd rfl h

/-- Refused entries leave no trace. From a fresh session, the accepted ones of any entries that are
not blank are accepted by themselves too, add the same texts and lead to the same session. Its
source is these entries, one to a line, and its count is their number. If there is one, the source
compiles and the session holds its output. -/
theorem refused_leave_no_trace (options : CompileOptions) {entries : List Bytes}
    (hentries : ∀ entry ∈ entries, entry.isBlank = false) :
    evalAll { options } ((accepted { options } entries).map Prod.fst) =
      ((evalAll { options } entries).1, (accepted { options } entries).map
        fun (_, added) => .ok added) ∧
    (evalAll { options } entries).1.source =
      Bytes.join "\n" ((accepted { options } entries).map Prod.fst) ∧
    (evalAll { options } entries).1.entries = (accepted { options } entries).length ∧
    (accepted { options } entries ≠ [] →
      (compile options (evalAll { options } entries).1.source).failed = false ∧
      (compile options (evalAll { options } entries).1.source).output =
      (evalAll { options } entries).1.output) := by
  have hne : ∀ entry ∈ entries, entry ≠ [] := by
    rintro entry hentry rfl
    exact absurd (hentries [] hentry) (by decide)
  have hrun := (accounts_fresh options).evalAll (List.forall_mem_nil _) hne
  rw [List.nil_append] at hrun
  refine ⟨evalAll_map_accepted _ entries, hrun.source, ?_, fun hsome => ?_⟩
  · rw [hrun.entries, List.length_map]
  · exact hrun.compiled (by simpa using hsome)

/-- A bracket that is never closed, and an arrow that turns the call before it into a declaration:
the output does not go on from the one before, and the text that the arrow adds is all of it. -/
theorem refused_leave_no_trace_arrow :
    (∀ entry ∈ [utf8 "f(a|N)", utf8 "(", utf8 "=> a"], entry.isBlank = false) ∧
    accepted {} ["f(a|N)", "(", "=> a"] =
    [(utf8 "f(a|N)", utf8 "f(\na|N\n)"), (utf8 "=> a", utf8 "f(\na\n) => a")] ∧
    evalAll {} ["f(a|N)", "=> a"] =
      ((evalAll {} ["f(a|N)", "(", "=> a"]).1,
        [.ok (utf8 "f(\na|N\n)"), .ok (utf8 "f(\na\n) => a")]) ∧
    (evalAll {} ["f(a|N)", "(", "=> a"]).1.source = utf8 "f(a|N)\n=> a" := by
  have hblank : ∀ entry ∈ [utf8 "f(a|N)", utf8 "(", utf8 "=> a"], entry.isBlank = false := by decide
  have haccepted : accepted {} ["f(a|N)", "(", "=> a"] =
      [(utf8 "f(a|N)", utf8 "f(\na|N\n)"), (utf8 "=> a", utf8 "f(\na\n) => a")] := by decide +kernel
  obtain ⟨hreplay, hsource, -⟩ := refused_leave_no_trace {} hblank
  rw [haccepted] at hreplay hsource
  exact ⟨hblank, haccepted, hreplay, hsource.trans (by decide)⟩

end Session

end TagScript
