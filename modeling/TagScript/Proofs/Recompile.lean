import TagScript.Proofs.RoundTrip
import TagScript.Proofs.Settled

/-!
# Compiling what was compiled

A text that the compiler leaves as it is can be split into tokens, has nothing to strip, and is
written as its tokens are written out. What a script is compiled to is such a text when its
stripped tokens are read back from it, no tag is left or joined together in it, and no arrow
is stale.

That nothing else is left as it is follows by counting marks: stripping something takes marks away,
and neither scanning nor rendering changes their number.
-/

namespace TagScript

open Bytes

namespace Token

variable {ts : List Token}

mutual

/-- The marks of a token are those of what can be seen of it. -/
theorem tagMarks_collect : (t : Token) → tagMarks (collect visible t) = collect tagMarks t
  | .leaf text _ => tagMarks_visible text
  | .block signature children _ => by
    rw [collect, collect, tagMarks_append, tagMarks_append, tagMarks_visible, tagMarks_visible,
      tagMarks_collectAll children]

/-- The marks of tokens are those of what can be seen of them. -/
theorem tagMarks_collectAll : (ts : List Token) → tagMarks (collectAll visible ts) =
    collectAll tagMarks ts
  | [] => rfl
  | t :: ts =>
    by rw [collectAll, collectAll, tagMarks_append, tagMarks_collect t, tagMarks_collectAll ts]

end

/-- Rendering keeps the marks. -/
theorem length_tagMarks_render (ts : List Token) : (tagMarks (render ts)).length = tagCount ts := by
  have hrender : (render ts).visible = visibleEntries (entriesAll false [] ts) :=
    visible_join_entries false _
  rw [← tagMarks_visible, hrender, visibleEntries_entriesAll, tagCount, ← tagMarks_collectAll]
  rfl

mutual

/-- Stripping a token does not change how deep it nests. -/
theorem depth_strip : (t : Token) → depth (strip t) = depth t
  | .leaf .. => rfl
  | .block _ children _ => by rw [strip, depth, depth, depthAll_stripAll children]

/-- Stripping tokens does not change how deep they nest. -/
theorem depthAll_stripAll : (ts : List Token) → depthAll (stripAll ts) = depthAll ts
  | [] => rfl
  | t :: ts => by rw [stripAll, depthAll, depthAll, depth_strip t, depthAll_stripAll ts]

end

/-- Offsets do not count for the text of a token. -/
theorem head_bare (t : Token) : (bare t).head = t.head := by cases t <;> rfl

mutual

/-- The tokens inside a token without their offsets. -/
theorem all_bare : (t : Token) → all [bare t] = (all [t]).map bare
  | .leaf .. => rfl
  | .block _ children _ => by
    rw [bare, all_cons, all_cons, Token.children, Token.children, all_bareAll children]
    simp [bare]

/-- The tokens inside others without their offsets. -/
theorem all_bareAll : (ts : List Token) → all (bareAll ts) = (all ts).map bare
  | [] => rfl
  | t :: ts => by
    rw [bareAll, ← List.singleton_append, all_append, all_bare t, all_bareAll ts,
      ← List.map_append, ← all_append, List.singleton_append]

end

/-- Offsets do not count for whether a block declares. -/
theorem declares_bare (t : Token) (next : Option Token) :
    (bare t).declares (next.map bare) = t.declares next := by
  have htail : (next.map bare).any isArrowTail = next.any isArrowTail := by
    match next with
    | none => rfl
    | some (.leaf ..) => rfl
    | some (.block ..) => rfl
  match t with
  | .leaf .. => rfl
  | .block _ [] _ => rfl
  | .block _ (_ :: _) _ => rw [bare, bareAll, declares, declares, htail]

mutual

/-- Offsets do not count for whether a token is settled. -/
theorem settled_bare (declares : Bool) :
    (t : Token) → settled declares (bare t) = settled declares t
  | .leaf .. => rfl
  | .block _ children _ => by
    rw [bare, settled, settled, settledAll_bareAll children, all_bareAll, List.all_map]
    simp only [Function.comp_def, head_bare]

/-- Offsets do not count for whether tokens are settled. -/
theorem settledAll_bareAll : (ts : List Token) → settledAll (bareAll ts) = settledAll ts
  | [] => rfl
  | t :: ts => by
    have hnext : (bareAll ts).head? = ts.head?.map bare := by cases ts <;> rfl
    rw [bareAll, settledAll, settledAll, hnext, declares_bare, settled_bare, settledAll_bareAll ts]

end

end Token

open Token

mutual

/-- A check does not change how deep a token nests. -/
theorem depth_checkToken (options : CheckOptions) (scope : Scope) (declares : Bool)
    (f : Findings) : (t : Token) → depth (checkToken options scope declares f t).1 = depth t
  | .leaf .. => by rw [checkToken, depth, depth]
  | .block signature children offset => by
    obtain ⟨content, heq, hcontent⟩ :=
      checkToken_block options scope declares f signature children offset
    rw [heq, depth, depth]
    rcases hcontent with rfl | rfl | ⟨inner, g, rfl⟩
    · rw [depthAll_stripAll]
    · rfl
    · rw [depthAll_checkTokens options inner g children]

/-- A check does not change how deep tokens nest. -/
theorem depthAll_checkTokens (options : CheckOptions) (scope : Scope) (f : Findings) :
    (ts : List Token) → depthAll (checkTokens options scope f ts).1 = depthAll ts
  | [] => rfl
  | t :: ts => by
    rw [checkTokens, depthAll, depthAll, depth_checkToken options scope _ f t,
      depthAll_checkTokens options scope _ ts]

end

namespace Scan

/-- Scanning keeps the marks. -/
theorem faithful_tagMarks : Faithful tagMarks where
  nil := tagMarks_nil
  trim := tagMarks_trim
  separated _ hend := by
    obtain ⟨-, rfl⟩ | ⟨-, rfl⟩ := hend
    · rw [tagMarks_append, tagMarks_cons (by decide)]
    · rw [tagMarks_append, tagMarks_cons (by decide)]
  block := by
    intro _ text inside after bracket _ _
    have hsplit : text ++ bracket.opener :: (inside ++ bracket.closer :: after) =
        text ++ [bracket.opener] ++ (inside ++ ([bracket.closer] ++ after)) := by simp
    rw [hsplit]
    simp only [tagMarks_append]

/-- A script has the marks of its tokens. -/
theorem tagCount_of_scan {limit : Nat} {source : Bytes} {tokens : List Token}
    (h : scan limit source = .ok tokens) :
    tagCount tokens = (tagMarks source).length := by
  obtain ⟨pairs, hlayout⟩ := layout_of_scan h
  rw [tagCount, hlayout.collectAll_eq faithful_tagMarks]

end Scan

variable {options : CompileOptions} {source text : Bytes} {tokens : List Token}

/-- What a script is compiled to is written from its tokens; a script that fails has neither. -/
theorem output_compile (options : CompileOptions) (source : Bytes) :
    (compile options source).output = render (compile options source).tokens := by
  rw [compile]
  split
  · rfl
  · dsimp only
    split <;> rfl

/-- The tokens that a script is compiled to keep to the limit. -/
theorem depthAll_tokens_compile (options : CompileOptions) (source : Bytes) :
    depthAll (compile options source).tokens ≤ nestingLimit options.maxDepth := by
  rw [compile]
  split
  · exact Nat.zero_le _
  next tokens hscan =>
    dsimp only
    split
    · exact Nat.zero_le _
    · rw [checkAndStrip, checkFrom]
      dsimp only
      rw [depthAll_checkTokens]
      exact Scan.depthAll_le_of_tokensFrom hscan

/-- What is written for a script that can be split: its stripped tokens, unless it fails the
check. -/
theorem output_compile_of_scan (h : scan (nestingLimit options.maxDepth) source = .ok tokens) :
    (compile options source).output =
      if (checkAndStrip options.toCheckOptions tokens).2.failed then []
      else render (checkAndStrip options.toCheckOptions tokens).1 := by
  rw [compile, h]
  dsimp only
  split <;> rfl

/-- The texts that the compiler leaves as they are. -/
theorem compile_eq_self_iff (options : CompileOptions) (text : Bytes) :
    (compile options text).failed = false ∧ (compile options text).output = text ↔
      ∃ tokens, scan (nestingLimit options.maxDepth) text = .ok tokens ∧ settledAll tokens = true ∧
        render tokens = text := by
  constructor
  · rintro ⟨hfailed, houtput⟩
    cases hscan : scan (nestingLimit options.maxDepth) text with
    | error e =>
      rw [compile, hscan] at hfailed
      exact Bool.noConfusion hfailed
    | ok tokens =>
      rw [output_compile_of_scan hscan] at houtput
      split at houtput
      next hcheck =>
        -- nothing is written for a script that fails, and an empty script does not fail
        subst houtput
        have hnothing : scan (nestingLimit options.maxDepth) [] = .ok [] := Scan.tokensFrom_nil
        obtain rfl : [] = tokens := Except.ok.inj (hnothing.symm.trans hscan)
        exact Bool.noConfusion hcheck
      next =>
        have hcount : tagCount (checkAndStrip options.toCheckOptions tokens).1 =
            tagCount tokens := by
          rw [Scan.tagCount_of_scan hscan, ← length_tagMarks_render, houtput]
        have hsettled := settledAll_of_checkAndStrip hcount
        rw [checkAndStrip_of_settled _ hsettled] at houtput
        exact ⟨tokens, rfl, hsettled, houtput⟩
  · rintro ⟨tokens, hscan, hsettled, hrender⟩
    rw [compile, hscan]
    dsimp only
    rw [checkAndStrip_of_settled _ hsettled]
    exact ⟨rfl, hrender⟩

/-- When compiling again changes nothing. What a script is compiled to is left as it is exactly when
it can be split, has nothing to strip and is written as it stands. If its stripped tokens are of the
shape that a scan yields and no line comment in them swallows something, it can be split, and this
is a matter of these tokens: when they are read back there is nothing to strip in them, and no arrow
in them is stale. -/
theorem compile_compile_iff (options : CompileOptions) (source : Bytes) :
    ((compile options (compile options source).output).failed = false ∧
        (compile options (compile options source).output).output = (compile options source).output ↔
      ∃ again, scan (nestingLimit options.maxDepth) (compile options source).output = .ok again ∧
        settledAll again = true ∧ render again = (compile options source).output) ∧
    (Scannable false true (compile options source).tokens →
      swallowsAll false false (compile options source).tokens = false →
      ((compile options (compile options source).output).failed = false ∧
          (compile options (compile options source).output).output =
            (compile options source).output ↔
        settledAll (reread (compile options source).tokens) = true ∧
          staleAll false false (compile options source).tokens = false)) := by
  refine ⟨compile_eq_self_iff options _, fun hscannable hkept => ?_⟩
  obtain ⟨again, hscan, hbare⟩ :=
    Scan.scan_render hscannable hkept (depthAll_tokens_compile options source)
  rw [compile_eq_self_iff, output_compile, ← hbare, settledAll_bareAll,
    ← Scan.render_reread_iff hscannable hscan hbare]
  constructor
  · rintro ⟨found, hfound, hsettled, hrender⟩
    obtain rfl : again = found := Except.ok.inj (hscan.symm.trans hfound)
    exact ⟨hsettled, hrender⟩
  · rintro ⟨hsettled, hrender⟩
    exact ⟨again, hscan, hsettled, hrender⟩

/-- A checked call: what is left when the tags are stripped is compiled to itself. -/
theorem compile_compile_iff_call :
    (compile {} "function f(a|N)\x7b\x7d;let x : N = 1;f(x)").failed = false ∧
    (compile {} "function f(a|N)\x7b\x7d;let x : N = 1;f(x)").output =
      "function f(\na\n)\n\x7b\n\n\x7d\nlet x = 1\nf(\nx\n)" ∧
    Scannable false true (compile {} "function f(a|N)\x7b\x7d;let x : N = 1;f(x)").tokens ∧
    swallowsAll false false
    (compile {} "function f(a|N)\x7b\x7d;let x : N = 1;f(x)").tokens = false ∧
    (compile {} "function f(\na\n)\n\x7b\n\n\x7d\nlet x = 1\nf(\nx\n)").failed = false ∧
    (compile {} "function f(\na\n)\n\x7b\n\n\x7d\nlet x = 1\nf(\nx\n)").output =
      "function f(\na\n)\n\x7b\n\n\x7d\nlet x = 1\nf(\nx\n)" := by
  have htokens : (compile {} "function f(a|N)\x7b\x7d;let x : N = 1;f(x)").tokens =
      [.block "function f(" [.leaf "a" 11] 0, .block "\x7b" [] 15, .leaf "let x = 1" 18,
        .block "f(" [.leaf "x" 34] 32] := by decide +kernel
  have houtput : (compile {} "function f(a|N)\x7b\x7d;let x : N = 1;f(x)").output =
      "function f(\na\n)\n\x7b\n\n\x7d\nlet x = 1\nf(\nx\n)" := by decide +kernel
  -- with blanks in place of the tags the tokens are scanned as they are stripped
  have hscan : tokenize "function f(a  )\x7b\x7d;let x = 1    ;f(x)" =
      .ok [.block "function f(" [.leaf "a" 11] 0, .block "\x7b" [] 15, .leaf "let x = 1" 18,
        .block "f(" [.leaf "x" 34] 32] := by decide +kernel
  have hscannable : Scannable false true
      (compile {} "function f(a|N)\x7b\x7d;let x : N = 1;f(x)").tokens := by
    rw [htokens]
    exact Scan.scannable_of_scan hscan
  have hkept : swallowsAll false false
      (compile {} "function f(a|N)\x7b\x7d;let x : N = 1;f(x)").tokens = false := by
    rw [htokens]
    decide +kernel
  have hsettled :
      settledAll (reread (compile {} "function f(a|N)\x7b\x7d;let x : N = 1;f(x)").tokens) = true ∧
        staleAll false false
          (compile {} "function f(a|N)\x7b\x7d;let x : N = 1;f(x)").tokens = false := by
    rw [htokens]
    exact ⟨by decide +kernel, by decide +kernel⟩
  have hagain :=
    ((compile_compile_iff {} "function f(a|N)\x7b\x7d;let x : N = 1;f(x)").2 hscannable hkept).2
      hsettled
  rw [houtput] at hagain
  exact ⟨by decide +kernel, houtput, hscannable, hkept, hagain⟩

/-- A pipe in a default value is stripped when compiling again. -/
theorem compile_compile_ne :
    (compile {} "function f(a|N = b|c)\x7b\x7d").failed = false ∧
    (compile {} "function f(a|N = b|c)\x7b\x7d").output = "function f(\na = b|c\n)\n\x7b\n\n\x7d" ∧
    (compile {} "function f(\na = b|c\n)\n\x7b\n\n\x7d").output =
    "function f(\na = b\n)\n\x7b\n\n\x7d" := by
  refine ⟨?_, ?_, ?_⟩ <;> decide +kernel

end TagScript
