import TagScript.Proofs.Scannable

/-!
# Scanning line after line

A script that is followed by another one on a new line is scanned as the two would be alone, one
after the other, with the places of the second moved on. This needs the first script to end
outside strings and block comments; a line comment may be open, since the line break ends it.

Both facts are read off the layout of a script. A layout can be moved to another position, and one
layout can be put behind another with a line break between them.
-/

namespace TagScript

/-- Of what stands behind a text, only the first byte matters to how the text is read. -/
theorem Mode.Reads.of_head {keeps : Mode → UInt8 → Mode → Prop} {mode final : Mode}
    {text rest other : Bytes}
    (h : Reads keeps mode text final rest) (hhead : rest.head? = other.head?) :
    Reads keeps mode text final other := by
  induction h with
  | nil => exact .nil
  | @one before after final c text rest hstep hkeep _ ih =>
    refine .one ?_ hkeep (ih hhead)
    rwa [List.head?_append, ← hhead, ← List.head?_append]
  | two hstep _ ih => exact .two hstep (ih hhead)

namespace Token

mutual

/-- The token at a place `distance` bytes further on. -/
def shift (distance : Nat) : Token → Token
  | .leaf text offset => .leaf text (offset + distance)
  | .block signature children offset =>
    .block signature (shiftAll distance children) (offset + distance)

/-- The tokens of a sequence, all of them `distance` bytes further on. -/
def shiftAll (distance : Nat) : List Token → List Token
  | [] => []
  | t :: ts => shift distance t :: shiftAll distance ts

end

variable {distance : Nat}

/-- Two sequences are moved one after the other. -/
theorem shiftAll_append (ts us : List Token) :
    shiftAll distance (ts ++ us) = shiftAll distance ts ++ shiftAll distance us := by
  induction ts with
  | nil => rfl
  | cons t ts ih => rw [List.cons_append, shiftAll, ih, shiftAll, List.cons_append]

mutual

/-- A token nests as deep wherever it stands. -/
theorem depth_shift : (t : Token) → depth (shift distance t) = depth t
  | .leaf .. => rfl
  | .block _ children _ => by rw [shift, depth, depth, depthAll_shiftAll children]

/-- A sequence nests as deep wherever it stands. -/
theorem depthAll_shiftAll : (ts : List Token) → depthAll (shiftAll distance ts) = depthAll ts
  | [] => rfl
  | t :: ts => by rw [shiftAll, depthAll, depthAll, depth_shift t, depthAll_shiftAll ts]

end

end Token

namespace Scan

open Token

variable {header : Bool} {clauses : Clauses} {position distance : Nat} {text : Bytes}
  {tokens : List Token} {pairs : List BracketPair}

/-- Pending text that ends further on starts further on. -/
theorem pendingOffset_add {pending : Bytes} (h : pending.length ≤ position) (distance : Nat) :
    pendingOffset pending (position + distance) = pendingOffset pending position + distance := by
  obtain ⟨lead, tail, -, hlength, -⟩ := Bytes.trim_spec pending.reverse
  rw [List.length_reverse] at hlength
  rw [pendingOffset, pendingOffset]
  omega

/-- A text that starts further on becomes the same leaf there. -/
theorem flush_add (text : Bytes) (position distance : Nat) :
    flush text.reverse (position + distance + text.length) =
      shiftAll distance (flush text.reverse (position + text.length)) := by
  have hpending : text.reverse.length ≤ position + text.length := by
    rw [List.length_reverse]
    exact Nat.le_add_left ..
  rw [Nat.add_right_comm, flush, flush, pendingOffset_add hpending]
  split <;> rfl

/-- A clause that starts further on ends in the same way there. -/
theorem endClause_add (clauses : Clauses) (text : Bytes) (position distance : Nat) :
    endClause clauses text.reverse (position + distance + text.length) =
      shiftAll distance (endClause clauses text.reverse (position + text.length)) := by
  rw [endClause, flush_add, endClause, Nat.add_right_comm]
  cases flush text.reverse (position + text.length) with
  | nil => cases clauses.filled <;> rfl
  | cons t ts => rfl

/-- A text is laid out in the same way wherever it stands. -/
theorem Layout.shift (h : Layout header clauses position text tokens pairs) (distance : Nat) :
    ∃ moved, Layout header clauses (position + distance) text (shiftAll distance tokens) moved := by
  induction h with
  | @finish header clauses position text mode hread =>
    rw [apply_ite (shiftAll distance), ← endClause_add, ← flush_add]
    exact ⟨[], .finish hread⟩
  | clause hread _ ih =>
    obtain ⟨moved, ih⟩ := ih
    rw [Nat.add_right_comm, Nat.add_right_comm _ _ distance] at ih
    rw [shiftAll_append, ← endClause_add]
    exact ⟨moved, .clause hread ih⟩
  | statement hread hend _ ih =>
    obtain ⟨moved, ih⟩ := ih
    rw [Nat.add_right_comm, Nat.add_right_comm _ _ distance] at ih
    rw [shiftAll_append, ← flush_add]
    exact ⟨moved, .statement hread hend ih⟩
  | @block header clauses position text inside after bracket children tokens inner
      pairs hread hinside _ _ ihChildren ihRest =>
    obtain ⟨movedInner, ihChildren⟩ := ihChildren
    obtain ⟨movedPairs, ihRest⟩ := ihRest
    have hpending : (bracket.opener :: text.reverse).length ≤ position + text.length + 1 := by
      rw [List.length_cons, List.length_reverse]
      omega
    have hstart : position + text.length + 1 + distance = position + distance + text.length + 1 :=
      by omega
    have hbehind : position + text.length + inside.length + 2 + distance =
        position + distance + text.length + inside.length + 2 := by omega
    rw [hstart] at ihChildren
    rw [hbehind] at ihRest
    rw [shiftAll, Token.shift, ← pendingOffset_add hpending, hstart]
    exact ⟨_, .block hread hinside ihChildren ihRest⟩

/-- Where no semicolon was seen, the text that reaches to the end becomes a leaf. -/
theorem Layout.last {mode : Mode} (hread : Mode.Reads (Kept header) .code text mode [])
    (hsplit : clauses.split = false) :
    Layout header clauses position text (flush text.reverse (position + text.length)) [] := by
  have h : Layout header clauses position text _ [] := .finish hread
  rwa [hsplit, if_neg Bool.noConfusion] at h

/-- Outside `for` headers it does not matter what a clause holds. -/
theorem Layout.of_statements (h : Layout false clauses position text tokens pairs)
    (hsplit : clauses.split = false) {other : Clauses} (hother : other.split = false) :
    Layout false other position text tokens pairs := by
  generalize hheader : false = header at h
  induction h generalizing other with
  | finish hread =>
    rw [hsplit, if_neg Bool.noConfusion]
    exact .last hread hother
  | clause => exact absurd hheader Bool.noConfusion
  | statement hread hend _ ih => exact .statement hread hend (ih hsplit hother rfl)
  | block hread hinside hchildren _ _ ihRest =>
    exact .block hread hinside hchildren (ihRest hsplit hother hheader)

/-- A text that ends outside strings and block comments is laid out in front of a line break as it
is alone. -/
theorem Layout.append_line (h : Layout false clauses position text tokens pairs)
    (hsplit : clauses.split = false) (hbound : (Mode.code.run text).LineBound) {rest : Bytes}
    {more : List Token} {others : List BracketPair}
    (hrest : Layout false {} (position + text.length + 1) rest more others) :
    Layout false clauses position (text ++ Char.toUInt8 '\n' :: rest) (tokens ++ more)
      (pairs ++ others) := by
  generalize hheader : false = header at h
  induction h with
  | @finish header clauses position text mode hread =>
    subst hheader
    rw [hread.run_eq] at hbound
    have hstring : ∀ quote, mode ≠ .string quote := by
      rintro quote rfl
      exact absurd hbound (by simp [Mode.LineBound])
    have hline : Mode.Reads (Kept false) .code text mode (Char.toUInt8 '\n' :: rest) := by
      refine hread.extend Mode.noConfusion hstring fun d hd => ?_
      rw [← Option.some.inj hd]
      decide
    rw [hsplit, if_neg Bool.noConfusion]
    exact .statement hline (.inr ⟨hbound, rfl⟩) (hrest.of_statements rfl hsplit)
  | clause => exact absurd hheader Bool.noConfusion
  | @statement clauses position text behind mode c tokens pairs hread hend _ ih =>
    have hrun : Mode.code.run (text ++ c :: behind) = Mode.code.run behind :=
      (hend.run_append hread.run_eq).2
    have hstart : position + (text ++ c :: behind).length + 1 = position + text.length + 1 +
        behind.length + 1 := by
      rw [List.length_append, List.length_cons]
      omega
    rw [hrun] at hbound
    rw [hstart] at hrest
    rw [List.append_assoc, List.append_assoc, List.cons_append]
    exact .statement (hread.of_head rfl) hend (ih hsplit hbound hrest hheader)
  | @block header clauses position text inside after bracket children tokens inner pairs hread
      hinside hchildren _ _ ihRest =>
    have hrun : Mode.code.run (text ++ bracket.opener :: (inside ++ bracket.closer :: after)) =
        Mode.code.run after := by
      rw [hread.run_append,
        Mode.run_cons_one (Mode.step_plain bracket.opener_plain.1 bracket.opener_plain.2 _),
        (hinside.reads after).run_append,
        Mode.run_cons_one (Mode.step_plain bracket.closer_plain.1 bracket.closer_plain.2 _)]
    have hstart : position +
        (text ++ bracket.opener :: (inside ++ bracket.closer :: after)).length + 1 =
        position + text.length + inside.length + 2 + after.length + 1 := by
      simp only [List.length_append, List.length_cons]
      omega
    rw [hrun] at hbound
    rw [hstart] at hrest
    rw [List.append_assoc, List.cons_append, List.cons_append, List.cons_append,
      List.append_assoc, List.cons_append]
    exact .block (hread.of_head rfl) hinside hchildren (ihRest hsplit hbound hrest hheader)

/-- Scanning is compositional over lines. If two scripts can be scanned under a limit and the first
one ends outside strings and block comments, then the two with a line break between them are scanned
under this limit as the tokens of the first one and behind them those of the second, which stand
further on by the length of the first line and its break. -/
theorem scan_append_line {limit : Nat} {first second : Bytes} {tokens more : List Token}
    (hfirst : scan limit first = .ok tokens) (hsecond : scan limit second = .ok more)
    (hbound : (Mode.run .code first).LineBound) :
    scan limit (first ++ "\n" ++ second) = .ok (tokens ++ shiftAll (first.length + 1) more) := by
  obtain ⟨pairs, hlayout⟩ := layout_of_scan hfirst
  obtain ⟨others, hbehind⟩ := layout_of_scan hsecond
  obtain ⟨moved, hmoved⟩ := hbehind.shift (first.length + 1)
  have hdepth : depthAll tokens ≤ limit ∧ depthAll more ≤ limit :=
    ⟨depthAll_le_of_tokensFrom hfirst, depthAll_le_of_tokensFrom hsecond⟩
  rw [Nat.zero_add] at hmoved
  have hjoined := hlayout.append_line rfl hbound (by rwa [Nat.zero_add])
  rw [List.append_assoc]
  refine hjoined.scan_eq ?_
  rw [depthAll_append, depthAll_shiftAll]
  exact Nat.max_le.2 hdepth

/-- A line that ends in a comment, in front of a loop. -/
theorem scan_append_line_comment :
    scan 1 "f(a) // \x7b" = .ok [.block "f(" [.leaf "a" 2] 0, .leaf "// \x7b" 5] ∧
    scan 1 "for (;b;)" = .ok [.block "for (" [.leaf [] 5, .leaf "b" 6, .leaf [] 8] 0] ∧
    (Mode.run .code "f(a) // \x7b").LineBound ∧
    scan 1 "f(a) // \x7b\nfor (;b;)" = .ok [.block "f(" [.leaf "a" 2] 0, .leaf "// \x7b" 5,
      .block "for (" [.leaf [] 15, .leaf "b" 16, .leaf [] 18] 10] := by
  have hfirst : scan 1 "f(a) // \x7b" = .ok [.block "f(" [.leaf "a" 2] 0, .leaf "// \x7b" 5] := by
    decide +kernel
  have hsecond : scan 1 "for (;b;)" =
      .ok [.block "for (" [.leaf [] 5, .leaf "b" 6, .leaf [] 8] 0] := by decide +kernel
  have hbound : (Mode.run .code "f(a) // \x7b").LineBound := by decide
  exact ⟨hfirst, hsecond, hbound, scan_append_line hfirst hsecond hbound⟩

end Scan

end TagScript
