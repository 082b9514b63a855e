import Mathlib.Data.Nat.Basic
import TagScript.Proofs.BracketMatching
import TagScript.Proofs.SessionReplay

/-!
# How a session checks the brackets of an entry

An entry is compiled behind the entries accepted before it, so it is read from the mode in which
these end. Outside strings and block comments this is how the entry is read alone. Where an
accepted entry leaves a string or a block comment open, the next lines belong to it, and the
brackets in them are text until it is closed.

Read from there, an entry with an unmatched bracket is refused, whatever the nesting limits are.
-/

namespace TagScript

namespace Mode

/-- A line break is read alone. -/
theorem step_line (mode : Mode) (next : Option UInt8) :
    mode.step '\n' next = ((mode.step '\n' none).1, false) := by
  have hescape : Char.toUInt8 '\n' ≠ '\\' := by decide
  cases mode with
  | code => rfl
  | string quote =>
    simp only [step, hescape, decide_false, Bool.false_and, Bool.false_eq_true, if_false]
    split <;> rfl
  | lineComment => rfl
  | blockComment => rfl

/-- A text and the line break behind it are read as they are alone, whatever follows. -/
theorem reads_line (mode : Mode) (text rest : Bytes) :
    Reads (fun _ _ _ => True) mode (text ++ [Char.toUInt8 '\n'])
      (mode.run (text ++ [Char.toUInt8 '\n'])) rest := by
  have hspace : ∀ c ∈ [Char.toUInt8 '\n'], Bytes.IsSpaceByte c := by
    intro c hc
    rw [List.mem_singleton.1 hc]
    exact .inl (by decide)
  induction mode, text using readInduction with
  | nil mode => exact .one (step_line mode _) trivial .nil
  | one mode after c text hstep ih =>
    rcases step_space hspace hstep with hnext | ⟨quote, d, more, rfl, rfl, hline, hnext⟩
    · rw [List.cons_append, run_cons_one hnext]
      refine .one ?_ trivial ih
      cases text <;> exact hnext
    · obtain ⟨rfl, rfl⟩ := List.cons.inj hline
      rw [List.singleton_append, run_cons_two hnext]
      exact .two hnext .nil
  | two mode after c d text hstep ih =>
    rw [List.cons_append, List.cons_append, run_cons_two hstep]
    exact .two hstep ih

/-- A line break behind a text leads to code where the text ends in code or in a line comment. -/
theorem run_line {mode : Mode} {text : Bytes} (hmode : mode ≠ .string '\\')
    (h : (mode.run text).LineBound) :
    mode.run (text ++ [Char.toUInt8 '\n']) = .code := by
  have hfinal : ∀ quote, mode.run text ≠ .string quote := by
    intro quote heq
    rw [heq] at h
    exact absurd h (by simp [LineBound])
  have hsep : ∀ d, [Char.toUInt8 '\n'].head? = some d → IsSeparator d := by
    intro d hd
    rw [← Option.some.inj hd]
    decide
  rw [(reads_of_run hmode hfinal hsep).run_append]
  rcases h with h | h
  · rw [h]
    rfl
  · rw [h]
    rfl

end Mode

namespace Scan

/-- A computation that fails after another one, or in it. -/
theorem error_of_bind {ε α β : Type} {x : Except ε α} {f : α → Except ε β} {e : ε}
    (h : x >>= f = .error e) :
    x = .error e ∨ ∃ a, x = .ok a ∧ f a = .error e := by
  cases x with
  | error other =>
    cases h
    exact .inl rfl
  | ok a => exact .inr ⟨a, rfl, h⟩

/-- Brackets do not become unmatched under another limit. -/
theorem fault_of_tokensFrom {limit other level : Nat} {header : Bool}
    {clauses : Clauses} {mode : Mode} {pending : Bytes} {position : Nat} {text : Bytes}
    {tokens : List Token} {e : ScanError}
    (h : tokensFrom limit level header clauses mode pending position text = .ok tokens)
    (he : tokensFrom other level header clauses mode pending position text = .error e) :
    e.fault = .tooDeep := by
  induction level, header, clauses, mode, pending, position, text using scanInduction
    generalizing tokens with
  | finish level header clauses mode pending position =>
    rw [tokensFrom_nil] at he
    exact nomatch he
  | opener level header clauses pending position bracket text ih =>
    by_cases hother : other ≤ level
    · rw [tokensFrom_tooDeep hother, Except.error.injEq] at he
      rw [← he]
    by_cases hlimit : limit ≤ level
    · rw [tokensFrom_tooDeep hlimit] at h
      exact nomatch h
    cases hsplit : splitAtCloser bracket 0 .code text with
    | none =>
      rw [tokensFrom_unmatched hlimit hsplit] at h
      exact nomatch h
    | some parts =>
      obtain ⟨inside, after⟩ := parts
      rw [tokensFrom_block hlimit hsplit] at h
      obtain ⟨children, hchildren, h⟩ := ok_of_bind h
      obtain ⟨rest, hrest, -⟩ := ok_of_bind h
      rw [tokensFrom_block hother hsplit] at he
      rcases error_of_bind he with hinside | ⟨_, -, he⟩
      · exact (ih inside after hsplit).1 hchildren hinside
      rcases error_of_bind he with hafter | ⟨_, -, he⟩
      · exact (ih inside after hsplit).2 hrest hafter
      · exact nomatch he
  | clause level clauses pending position text ih =>
    rw [tokensFrom_clause] at h he
    obtain ⟨rest, hrest, -⟩ := ok_of_bind h
    rcases error_of_bind he with htext | ⟨_, -, he⟩
    · exact ih hrest htext
    · exact nomatch he
  | statement level clauses mode pending position c text hend ih =>
    rw [tokensFrom_statement hend] at h he
    obtain ⟨rest, hrest, -⟩ := ok_of_bind h
    rcases error_of_bind he with htext | ⟨_, -, he⟩
    · exact ih hrest htext
    · exact nomatch he
  | one level header clauses mode next pending position c text hstep hkeep ih =>
    rw [tokensFrom_one hstep hkeep] at h he
    exact ih h he
  | two level header clauses mode next pending position c d text hstep ih =>
    rw [tokensFrom_two hstep] at h he
    exact ih h he

/-- One pass over a script, a line break and another line: if the brackets of the script match,
those of the line are read with none open, from the mode in which the script and the line break
end. -/
theorem read_line {source line : Bytes} {pairs : List BracketPair} {m : Matcher}
    (hsource : Matcher.read {} 0 (Mode.code.classify source) = some { found := pairs })
    (hread : Matcher.read {} 0 (Mode.code.classify (source ++ Char.toUInt8 '\n' :: line)) =
      some m) :
    ∃ start, Matcher.read { found := pairs } start
      ((Mode.code.run (source ++ [Char.toUInt8 '\n'])).classify line) = some m := by
  have hspace : ∀ c ∈ [Char.toUInt8 '\n'], Bytes.IsSpaceByte c := by
    intro c hc
    rw [List.mem_singleton.1 hc]
    exact .inl (by decide)
  obtain ⟨more, hmore⟩ := Mode.classes_append_space .code source hspace
  have hclassify : Mode.code.classify (source ++ [Char.toUInt8 '\n']) =
      Mode.code.classify source ++ [Char.toUInt8 '\n'].zip more := by
    rw [Mode.classify, hmore, List.zip_append (Mode.length_classes .code source).symm,
      Mode.classify]
  -- the line break opens no bracket
  have hbreak : ∀ e ∈ [Char.toUInt8 '\n'].zip more, e.2 = .code → Bracket.ofOpener? e.1 = none := by
    intro e he _
    rw [List.mem_singleton.1 (List.of_mem_zip he).1]
    rfl
  rw [List.append_cons, (Mode.reads_line .code source line).classify_append, hclassify,
    Matcher.read_append, Matcher.read_append, hsource, Option.bind_some, Matcher.read_text hbreak,
    Option.bind_some] at hread
  exact ⟨_, hread⟩

end Scan

namespace Session

/-- The mode in which the line behind the accepted entries is read. -/
def lineMode (s : Session) : Mode := Mode.run .code (s.source ++ "\n")

/-- The tokens of an entry as it is read behind the accepted ones. -/
def scanLine (s : Session) (entry : Bytes) : Except ScanError (List Token) :=
  Scan.tokensFrom defaultMaxDepth 0 false {} s.lineMode [] 0 entry

variable {s next : Session} {entry : Bytes}

/-- A line is read as it is alone where no string and no block comment is open in front of it. -/
theorem scanLine_eq (h : (Mode.run .code s.source).LineBound) (entry : Bytes) :
    s.scanLine entry = tokenize entry := by
  have hmode : s.lineMode = .code := Mode.run_line Mode.noConfusion h
  rw [scanLine, hmode]
  rfl

/-- A session whose source has no bracket left open. -/
def Balanced (s : Session) : Prop :=
  ∃ pairs, Matcher.read {} 0 (Mode.code.classify s.source) = some { found := pairs }

/-- A script that compiles has no bracket left open. -/
theorem balanced_of_compile (h : (compile s.options s.source).failed = false) : s.Balanced := by
  cases hscan : scan (nestingLimit s.options.maxDepth) s.source with
  | error e => simp [compile, hscan, Compiled.failed] at h
  | ok tokens =>
    obtain ⟨pairs, hlayout⟩ := Scan.layout_of_scan hscan
    exact ⟨pairs, hlayout.read []⟩

/-- An accepted entry leaves no bracket open. -/
theorem Accepts.balanced (h : s.Accepts entry next) : next.Balanced :=
  balanced_of_compile (h.sameOptions.symm ▸ h.passes)

/-- Whatever entries are tried, no bracket is left open. -/
theorem Balanced.evalAll (h : s.Balanced) (entries : List Bytes) :
    (s.evalAll entries).1.Balanced := by
  induction entries generalizing s with
  | nil => exact h
  | cons entry rest ih =>
    rcases s.eval_cases entry with ⟨diagnostics, -, heval⟩ | ⟨next, added, haccepts, heval⟩
    · rw [evalAll_cons heval]
      exact ih h
    · rw [evalAll_cons heval]
      exact ih haccepts.balanced

/-- The line that is accepted behind a balanced source has, read from there, no bracket left
open. -/
theorem Accepts.read_line (h : s.Accepts entry next) (hs : s.Balanced) : ∃ found start m,
    Matcher.read { found } start (s.lineMode.classify entry) = some m ∧ m.stack = [] := by
  obtain ⟨found, hfound⟩ := h.balanced
  rw [h.source, candidate] at hfound
  split at hfound
  next hempty =>
    have hmode : s.lineMode = .code := by
      rw [lineMode, List.isEmpty_iff.1 hempty]
      rfl
    exact ⟨[], 0, _, hmode ▸ hfound, rfl⟩
  next =>
    obtain ⟨pairs, hpairs⟩ := hs
    rw [List.append_assoc] at hfound
    obtain ⟨start, hstart⟩ := Scan.read_line hpairs hfound
    exact ⟨pairs, start, _, hstart, rfl⟩

/-- The brackets of an accepted entry match as it is read behind those accepted before it. -/
theorem Accepts.scanLine_ne_unmatched (h : s.Accepts entry next) (hs : s.Balanced)
    (opener : UInt8) (offset : Int) :
    s.scanLine entry ≠ .error ⟨.unmatched, opener, offset⟩ := by
  intro hunmatched
  obtain ⟨found, start, m, hread, hm⟩ := h.read_line hs
  have hscan : ∃ tokens, Scan.tokensFrom entry.length 0 false {} s.lineMode
      [] 0 entry = .ok tokens :=
    Scan.tokensFrom_of_read (Nat.le_of_eq (Nat.zero_add _)) hread hm
  obtain ⟨tokens, htokens⟩ := hscan
  exact nomatch Scan.fault_of_tokensFrom htokens hunmatched

/-- A session checks the brackets of each entry where the entry is read. After any entries, one that
has an unmatched bracket as it is read behind the accepted ones is refused with diagnostics and
changes nothing. If these end outside strings and block comments, the entry is read there as it is
alone. -/
theorem unmatched_is_refused (options : CompileOptions) (entries : List Bytes) (entry : Bytes) :
    (∀ opener offset, (evalAll { options } entries).1.scanLine entry =
      .error ⟨.unmatched, opener, offset⟩ → ∃ diagnostics, diagnostics ≠ [] ∧
        (evalAll { options } entries).1.eval entry =
        ((evalAll { options } entries).1, .error diagnostics)) ∧
    ((Mode.run .code (evalAll { options } entries).1.source).LineBound →
      (evalAll { options } entries).1.scanLine entry = tokenize entry) := by
  have hfresh : Balanced { options } := ⟨[], rfl⟩
  refine ⟨fun opener offset hunmatched => ?_, fun hclosed => scanLine_eq hclosed entry⟩
  rcases (evalAll { options } entries).1.eval_cases entry with hrefused | ⟨next, added, haccepts, -⟩
  · exact hrefused
  · exact absurd hunmatched (haccepts.scanLine_ne_unmatched (hfresh.evalAll entries) opener offset)

/-- An open bracket behind a line comment, and one behind the end of a block comment that an entry
before left open. -/
theorem unmatched_is_refused_comment :
    (Mode.run .code (evalAll {} ["a // ("]).1.source).LineBound ∧
    tokenize "f(" = .error ⟨.unmatched, '(', 1⟩ ∧
    (∃ diagnostics, diagnostics ≠ [] ∧
      (evalAll {} ["a // ("]).1.eval "f(" = ((evalAll {} ["a // ("]).1, .error diagnostics)) ∧
    (evalAll {} ["/* ("]).1.scanLine "*/ f(" = .error ⟨.unmatched, '(', 4⟩ ∧
    ∃ diagnostics, diagnostics ≠ [] ∧
      (evalAll {} ["/* ("]).1.eval "*/ f(" = ((evalAll {} ["/* ("]).1, .error diagnostics) := by
  have hclosed : (Mode.run .code (evalAll {} ["a // ("]).1.source).LineBound := by decide +kernel
  have halone : tokenize "f(" = .error ⟨.unmatched, '(', 1⟩ := by decide +kernel
  have hbehind : (evalAll {} ["/* ("]).1.scanLine "*/ f(" = .error ⟨.unmatched, '(', 4⟩ := by
    have hsource : (evalAll {} ["/* ("]).1.source = utf8 "/* (" := by decide +kernel
    rw [scanLine, lineMode, hsource]
    decide +kernel
  have hcomment := unmatched_is_refused {} ["a // ("] "f("
  have hopen := unmatched_is_refused {} ["/* ("] "*/ f("
  exact ⟨hclosed, halone, hcomment.1 _ _ ((hcomment.2 hclosed).trans halone), hbehind,
    hopen.1 _ _ hbehind⟩

/-- An open bracket in a block comment that an entry before left open is part of the comment. -/
theorem unmatched_is_accepted_inside_comment :
    (∀ entry ∈ [utf8 "/*", utf8 "("], entry.isBlank = false) ∧
    tokenize "(" = .error ⟨.unmatched, '(', 0⟩ ∧
    (evalAll {} ["/*"]).1.eval "(" =
    ({ source := "/*\n(", output := "/*\n(", entries := 2 }, .ok "(") := by
  refine ⟨by decide, by decide +kernel, ?_⟩
  decide +kernel

end Session

end TagScript
