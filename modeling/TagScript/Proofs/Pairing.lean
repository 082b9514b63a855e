import TagScript.Proofs.Reading
import TagScript.Token.Scan

/-!
# Matching brackets in one pass

A stack machine over the classified bytes of a script. An opening bracket in code is pushed; a
closing one pops the bracket on top when the two are of one kind, is text when no bracket of
its kind is open, and is refused when one is open only below the top.

The scanner works differently: it looks for the closer of each bracket by counting brackets of
that kind alone, and starts afresh on what it finds between the two. The lemmas here say how
the machine goes through a text in which that search succeeds, or fails.
-/

namespace TagScript

/-- The bracket that a byte closes. -/
def Bracket.ofCloser? (c : UInt8) : Option Bracket :=
  if c = closer .round then some .round else if c = closer .curly then some .curly else none

/-- A pair of brackets: where they stand, and the pairs between them. -/
inductive BracketPair where
  | mk (bracket : Bracket) (opens closes : Nat) (inside : List BracketPair)
  deriving Repr

/-- A bracket that is open, with the pairs closed before it at its own level. -/
structure OpenBracket where
  bracket : Bracket
  opens : Nat
  before : List BracketPair
  deriving Repr

/-- The open brackets, innermost first, and the pairs closed since the innermost one. -/
structure Matcher where
  stack : List OpenBracket := []
  found : List BracketPair := []
  deriving Repr

namespace Matcher

/-- Open a bracket at `position`. -/
def push (m : Matcher) (bracket : Bracket) (position : Nat) : Matcher :=
  { stack := ⟨bracket, position, m.found⟩ :: m.stack }

/-- Meet a closing bracket at `position`. -/
def close (m : Matcher) (bracket : Bracket) (position : Nat) : Option Matcher :=
  match m.stack with
  | [] => some m
  | top :: below =>
    if top.bracket = bracket then
      some { stack := below, found := top.before ++ [.mk bracket top.opens position m.found] }
    else if below.any (·.bracket = bracket) then none
    else some m

/-- Read one classified byte at `position`; only brackets in code count. -/
def step (m : Matcher) (position : Nat) : UInt8 × ByteClass → Option Matcher
  | (c, .code) =>
    match Bracket.ofOpener? c with
    | some bracket => some (m.push bracket position)
    | none =>
      match Bracket.ofCloser? c with
      | some bracket => m.close bracket position
      | none => some m
  | (_, .string) => some m
  | (_, .comment) => some m

/-- Read classified bytes from `position` on. -/
def read (m : Matcher) (position : Nat) : List (UInt8 × ByteClass) → Option Matcher
  | [] => some m
  | e :: rest => (m.step position e).bind fun m => m.read (position + 1) rest

end Matcher

/-- The bracket pairs of a script, outermost first, when its brackets match. -/
def matchBrackets (source : Bytes) : Option (List BracketPair) :=
  (Matcher.read {} 0 (Mode.classify .code source)).bind fun m =>
    if m.stack.isEmpty then some m.found else none

namespace Bracket

/-- A bracket is known by its opener. -/
@[simp] theorem ofOpener?_opener (b : Bracket) : ofOpener? b.opener = some b := by cases b <;> rfl

/-- No closer is an opener. -/
@[simp] theorem ofOpener?_closer (b : Bracket) : ofOpener? b.closer = none := by cases b <;> rfl

/-- A bracket is known by its closer. -/
@[simp] theorem ofCloser?_closer (b : Bracket) : ofCloser? b.closer = some b := by cases b <;> rfl

/-- A byte that opens a bracket is that bracket's opener. -/
theorem opener_of_ofOpener? {c : UInt8} {b : Bracket} (h : ofOpener? c = some b) :
    c = b.opener := by
  simp only [ofOpener?] at h
  grind

/-- A byte that closes a bracket is that bracket's closer. -/
theorem closer_of_ofCloser? {c : UInt8} {b : Bracket} (h : ofCloser? c = some b) :
    c = b.closer := by
  simp only [ofCloser?] at h
  grind

/-- An opening bracket starts neither a string nor a comment. -/
theorem opener_plain (b : Bracket) : isQuote b.opener = false ∧ b.opener ≠ '/' := by
    cases b <;> decide

/-- A closing bracket starts neither a string nor a comment. -/
theorem closer_plain (b : Bracket) : isQuote b.closer = false ∧ b.closer ≠ '/' := by
    cases b <;> decide

/-- An opening bracket is one of code when it is met in code. -/
theorem code_opener_iff {b : Bracket} {mode next : Mode} {c : UInt8} {after : Option UInt8}
    {taken : Bool} (h : mode.step c after = (next, taken)) :
    mode.stepClass next = .code ∧ c = b.opener ↔ mode = .code ∧ c = b.opener := by
  rw [Mode.stepClass_eq_code_iff]
  constructor
  · rintro ⟨⟨rfl, -⟩, hc⟩
    exact ⟨rfl, hc⟩
  · rintro ⟨rfl, rfl⟩
    rw [Mode.step_plain b.opener_plain.1 b.opener_plain.2, Prod.mk.injEq] at h
    exact ⟨⟨rfl, h.1.symm⟩, rfl⟩

/-- A closing bracket that is met in code is read alone and leads to code. -/
theorem step_closer {b : Bracket} {next : Mode} {after : Option UInt8} {taken : Bool}
    (h : Mode.code.step b.closer after = (next, taken)) : next = .code ∧ taken = false := by
  rw [Mode.step_plain b.closer_plain.1 b.closer_plain.2, Prod.mk.injEq] at h
  exact ⟨h.1.symm, h.2.symm⟩

/-- A search goes over a closing bracket in code alone, and on in code. -/
theorem searchStep_closer (b : Bracket) (after : Option UInt8) :
    Mode.code.searchStep b.closer after = (.code, false) :=
  Mode.step_plain b.closer_plain.1 b.closer_plain.2 after

/-- No bracket both opens and closes. -/
theorem opener_ne_closer (a b : Bracket) : a.opener ≠ b.closer := by cases a <;> cases b <;> decide

/-- Brackets with one closer are equal. -/
theorem closer_inj {a b : Bracket} : a.closer = b.closer ↔ a = b := by cases a <;>
    cases b <;> decide

/-- Brackets with one opener are equal. -/
theorem opener_inj {a b : Bracket} : a.opener = b.opener ↔ a = b := by cases a <;>
    cases b <;> decide

end Bracket

namespace Scan

section Equations

variable {b : Bracket} {level : Nat} {mode next : Mode} {c d : UInt8} {text : Bytes}

/-- A closer while more brackets are open closes one of them. -/
theorem splitAtCloser_close : splitAtCloser b (level + 1) .code (b.closer :: text) =
    (splitAtCloser b level .code text).map fun (l, r) => (b.closer :: l, r) := by
  rw [splitAtCloser.eq_def]
  simp only [b.searchStep_closer, (Bracket.opener_ne_closer b b).symm, and_false, and_self, if_true,
    if_false]

/-- The search ends at a closer when no more brackets are open. -/
theorem splitAtCloser_zero : splitAtCloser b 0 .code (b.closer :: text) = some ([], text) := by
  rw [splitAtCloser.eq_def]
  simp only [b.searchStep_closer, (Bracket.opener_ne_closer b b).symm, and_false, and_self, if_true,
    if_false]

/-- The search goes over a byte that is read alone. -/
theorem splitAtCloser_one (hopen : ¬ (mode = .code ∧ c = b.closer))
    (hstep : mode.step c text.head? = (next, false)) : splitAtCloser b level mode (c :: text) =
    (splitAtCloser b (if mode = .code ∧ c = b.opener then level + 1 else level) next text).map
      fun (l, r) => (c :: l, r) := by
  rw [splitAtCloser.eq_def]
  cases text with
  | nil =>
    -- a backslash at the end is passed over with nothing behind it, and nothing is found either way
    have hnil : ∀ k m, splitAtCloser b k m [] = none := fun _ _ => rfl
    simp only [if_neg hopen, hnil, Option.map_none, ite_self]
    split <;> rfl
  | cons d text =>
    rw [List.head?_cons, ← Mode.searchStep_some] at hstep
    simp only [List.head?_cons, hstep, if_neg hopen]
    split <;> rfl

/-- The search goes over bytes that are read together. -/
theorem splitAtCloser_two (hstep : mode.step c (some d) = (next, true)) :
    splitAtCloser b level mode (c :: d :: text) =
      (splitAtCloser b level next text).map fun (l, r) => (c :: d :: l, r) := by
  rw [← Mode.searchStep_some] at hstep
  rw [splitAtCloser.eq_def]
  simp only [List.head?_cons, hstep]

end Equations

/-- What the search for a closer goes through: from the given mode, with `level` brackets of the
kind open, exactly this text stands in front of the closer. -/
inductive Encloses (b : Bracket) : Nat → Mode → Bytes → Prop where
  | nil : Encloses b 0 .code []
  | close {level : Nat} {inside : Bytes} (h : Encloses b level .code inside) :
      Encloses b (level + 1) .code (b.closer :: inside)
  | one {level : Nat} {mode next : Mode} {c : UInt8} {inside : Bytes}
      (hopen : ¬ (mode = .code ∧ c = b.closer))
      (hstep : mode.step c (inside ++ [b.closer]).head? = (next, false))
      (h : Encloses b (if mode = .code ∧ c = b.opener then level + 1 else level) next inside) :
      Encloses b level mode (c :: inside)
  | two {level : Nat} {mode next : Mode} {c d : UInt8} {inside : Bytes}
      (hopen : ¬ (mode = .code ∧ c = b.closer)) (hstep : mode.step c (some d) = (next, true))
      (h : Encloses b level next inside) : Encloses b level mode (c :: d :: inside)

/-- The byte behind a byte of `inside`, whatever stands behind the closer. -/
theorem head?_append_closer (b : Bracket) (inside after : Bytes) :
    (inside ++ b.closer :: after).head? = (inside ++ [b.closer]).head? := by
  cases inside <;> rfl

/-- In front of a text with a closer the search takes the same step as any reader. -/
theorem step_of_searchStep {b : Bracket} {mode next : Mode} {c : UInt8} {text inside after : Bytes}
    {taken : Bool} (h : mode.searchStep c text.head? = (next, taken))
    (htext : text = inside ++ b.closer :: after) :
    mode.step c (inside ++ [b.closer]).head? = (next, taken) := by
  rw [← head?_append_closer b inside after, ← htext]
  cases text with
  | nil => simp at htext
  | cons d text => rwa [List.head?_cons, ← Mode.searchStep_some]

/-- A successful search goes through what it encloses. -/
theorem encloses_of_splitAtCloser {b : Bracket} {level : Nat} {mode : Mode}
    {text inside after : Bytes} (h : splitAtCloser b level mode text = some (inside, after)) :
    Encloses b level mode inside := by
  fun_induction splitAtCloser b level mode text generalizing inside after with
  | case1 => cases h
  | case2 => cases h
  | case3 level mode c next d text hstep ih =>
    obtain ⟨l, hl, rfl⟩ := exists_of_passed [c, d] h
    rw [List.head?_cons, Mode.searchStep_some] at hstep
    refine .two (fun hc => ?_) hstep (ih hl)
    obtain ⟨rfl, rfl⟩ := hc
    exact absurd (Bracket.step_closer hstep).2 Bool.noConfusion
  | case4 level mode c text next hstep hopen ih =>
    obtain ⟨l, hl, rfl⟩ := exists_of_passed [c] h
    refine .one (fun hc => Bracket.opener_ne_closer b b (hopen.2.symm.trans hc.2))
      (step_of_searchStep hstep (eq_append_of_splitAtCloser hl)) ?_
    rw [if_pos hopen]
    exact ih hl
  | case5 mode c text next hstep hopen hclose =>
    obtain ⟨rfl, -⟩ := Prod.mk.inj (Option.some.inj h)
    rw [hclose.1]
    exact .nil
  | case6 mode c text next hstep hopen hclose level ih =>
    obtain ⟨l, hl, rfl⟩ := exists_of_passed [c] h
    obtain ⟨rfl, rfl⟩ := hclose
    obtain ⟨rfl, -⟩ := Bracket.step_closer hstep
    exact .close (ih hl)
  | case7 level mode c text next hstep hopen hclose ih =>
    obtain ⟨l, hl, rfl⟩ := exists_of_passed [c] h
    refine .one hclose (step_of_searchStep hstep (eq_append_of_splitAtCloser hl)) ?_
    rw [if_neg hopen]
    exact ih hl

namespace Encloses

variable {b : Bracket} {level : Nat} {mode : Mode} {inside : Bytes}

/-- The closer is met in code, so what is enclosed is read as it is alone. -/
theorem reads (h : Encloses b level mode inside) (after : Bytes) :
    Mode.Reads (fun _ _ _ => True) mode inside .code (b.closer :: after) := by
  induction h with
  | nil => exact .nil
  | close _ ih => exact .one (Mode.step_plain b.closer_plain.1 b.closer_plain.2 _) trivial ih
  | one _ hstep _ ih => exact .one (by rw [head?_append_closer]; exact hstep) trivial ih
  | two _ hstep _ ih => exact .two hstep ih

/-- No closer is found inside what is enclosed. -/
theorem splitAtCloser_inside (h : Encloses b level mode inside) :
    splitAtCloser b level mode inside = none := by
  induction h with
  | nil => rfl
  | close _ ih => rw [splitAtCloser_close, ih, Option.map_none]
  | one hopen hstep _ ih =>
    rw [splitAtCloser_one hopen (Mode.step_alone hstep), ih, Option.map_none]
  | two _ hstep _ ih => rw [splitAtCloser_two hstep, ih, Option.map_none]

/-- The search succeeds whatever stands behind the closer. -/
theorem splitAtCloser_append (h : Encloses b level mode inside) (after : Bytes) :
    splitAtCloser b level mode (inside ++ b.closer :: after) = some (inside, after) := by
  induction h with
  | nil => exact splitAtCloser_zero
  | close _ ih => rw [List.cons_append, splitAtCloser_close, ih, Option.map_some]
  | one hopen hstep _ ih =>
    rw [List.cons_append, splitAtCloser_one hopen (by rw [head?_append_closer]; exact hstep), ih,
      Option.map_some]
  | two _ hstep _ ih =>
    rw [List.cons_append, List.cons_append, splitAtCloser_two hstep, ih, Option.map_some]

end Encloses

end Scan

namespace Matcher

/-- How many brackets of a kind are open. -/
def openCount (m : Matcher) (b : Bracket) : Nat := m.stack.countP (·.bracket = b)

/-- The same machine with one more bracket open below all others. -/
def above (m : Matcher) (bottom : OpenBracket) : Matcher := { m with stack := m.stack ++ [bottom] }

/-- Reading in two goes. -/
theorem read_append (m : Matcher) (position : Nat) (first second : List (UInt8 × ByteClass)) :
    m.read position (first ++ second) =
      (m.read position first).bind fun m => m.read (position + first.length) second := by
  induction first generalizing m position with
  | nil => rfl
  | cons e first ih =>
    simp only [List.cons_append, read, List.length_cons, Option.bind_assoc, ih]
    simp only [Nat.add_assoc, Nat.add_comm 1]

/-- Bytes outside code change nothing. -/
theorem step_of_ne_code (m : Matcher) (position : Nat) {c : UInt8} {k : ByteClass} (h : k ≠ .code) :
    m.step position (c, k) = some m := by
  cases k with
  | code => exact absurd rfl h
  | string => rfl
  | comment => rfl

/-- An opener in code is pushed. -/
@[simp] theorem step_opener (m : Matcher) (position : Nat) (b : Bracket) :
    m.step position (b.opener, .code) = some (m.push b position) := by
  simp [step]

/-- A closer in code closes. -/
@[simp] theorem step_closer (m : Matcher) (position : Nat) (b : Bracket) :
    m.step position (b.closer, .code) = m.close b position := by
  simp [step]

/-- What one classified byte does: nothing outside code, push an opener, meet a closer, or
nothing. -/
theorem step_cases (m : Matcher) (position : Nat) (c : UInt8) (k : ByteClass) :
    (k ≠ .code ∧ m.step position (c, k) = some m) ∨
      (k = .code ∧ ∃ b : Bracket, c = b.opener ∧
        m.step position (c, k) = some (m.push b position)) ∨
      (k = .code ∧ ∃ b : Bracket, c = b.closer ∧ m.step position (c, k) = m.close b position) ∨
      (k = .code ∧ (∀ b : Bracket, c ≠ b.opener ∧ c ≠ b.closer) ∧
        m.step position (c, k) = some m) := by
  by_cases hk : k = .code
  · subst hk
    cases hopen : Bracket.ofOpener? c with
    | some b => exact .inr (.inl ⟨rfl, b, Bracket.opener_of_ofOpener? hopen, by simp [step, hopen]⟩)
    | none =>
      cases hclose : Bracket.ofCloser? c with
      | some b =>
        exact .inr
          (.inr (.inl ⟨rfl, b, Bracket.closer_of_ofCloser? hclose, by simp [step, hopen, hclose]⟩))
      | none =>
        refine .inr (.inr (.inr ⟨rfl, fun b => ⟨?_, ?_⟩, by simp [step, hopen, hclose]⟩))
        · rintro rfl
          simp at hopen
        · rintro rfl
          simp at hclose
  · exact .inl ⟨hk, step_of_ne_code m position hk⟩

/-- A closer that is not refused leaves one bracket of its kind fewer open, if one was. -/
theorem openCount_close {m after : Matcher} {b : Bracket} {position : Nat}
    (h : m.close b position = some after) (kind : Bracket) :
    after.openCount kind = if kind = b then m.openCount kind - 1 else m.openCount kind := by
  obtain ⟨stack, found⟩ := m
  cases stack with
  | nil =>
    simp only [close, Option.some.injEq] at h
    subst h
    simp [openCount]
  | cons top below =>
    simp only [close] at h
    split at h
    next htop =>
      simp only [Option.some.injEq] at h
      subst h
      by_cases hkind : kind = b
      · simp [openCount, htop, hkind]
      · have hne : ¬ b = kind := fun heq => hkind heq.symm
        simp [openCount, htop, hkind, hne]
    next htop =>
      split at h
      · contradiction
      next hbelow =>
        simp only [Option.some.injEq] at h
        subst h
        by_cases hkind : kind = b
        · have hnone : below.countP (·.bracket = b) = 0 := by
            rw [List.countP_eq_zero]
            simpa using hbelow
          simp [openCount, hkind, htop, hnone]
        · simp [hkind]

/-- How one classified byte changes the number of open brackets of a kind. -/
theorem openCount_step {m after : Matcher} {position : Nat} {c : UInt8} {k : ByteClass}
    (h : m.step position (c, k) = some after) (kind : Bracket) :
    after.openCount kind =
      if k = .code ∧ c = kind.opener then m.openCount kind + 1
      else if k = .code ∧ c = kind.closer then m.openCount kind - 1 else m.openCount kind := by
  rcases step_cases m position c k with ⟨hk, hs⟩ | ⟨rfl, b, rfl, hs⟩
    | ⟨rfl, b, rfl, hs⟩ | ⟨rfl, hc, hs⟩
  · rw [hs, Option.some.injEq] at h
    simp [hk, ← h]
  · rw [hs, Option.some.injEq] at h
    by_cases hb : b = kind
    · simp [← h, hb, openCount, push]
    · simp [← h, hb, openCount, push, Bracket.opener_inj, Bracket.opener_ne_closer]
  · rw [hs] at h
    rw [openCount_close h kind]
    simp only [true_and, (Bracket.opener_ne_closer kind b).symm, if_false,
      Bracket.closer_inj, eq_comm]
  · rw [hs, Option.some.injEq] at h
    simp [← h, hc kind]

section Above

variable {m : Matcher} {bottom : OpenBracket} {position : Nat}

/-- A closer does not see a bracket below the others, unless it is of that kind and no other bracket
of the kind is open. -/
theorem close_above {b : Bracket} (h : b = bottom.bracket → m.openCount b ≠ 0) :
    (m.above bottom).close b position = (m.close b position).map (·.above bottom) := by
  obtain ⟨stack, found⟩ := m
  cases stack with
  | nil =>
    have hb : ¬ bottom.bracket = b := fun heq => h heq.symm rfl
    simp [close, above, hb]
  | cons top below =>
    by_cases htop : top.bracket = b
    · simp [close, above, htop]
    · by_cases hbelow : below.any (·.bracket = b) = true
      · simp [close, above, htop, hbelow]
      · have hb : ¬ bottom.bracket = b := by
          intro heq
          apply h heq.symm
          simp only [openCount, List.countP_eq_zero, List.mem_cons,
            decide_eq_true_eq, forall_eq_or_imp]
          exact ⟨htop, by simpa using hbelow⟩
        simp [close, above, htop, hbelow, hb]

/-- A byte does not see a bracket below the others, unless it closes it. -/
theorem step_above {c : UInt8} {k : ByteClass}
    (h : k = .code → c = bottom.bracket.closer → m.openCount bottom.bracket ≠ 0) :
    (m.above bottom).step position (c, k) = (m.step position (c, k)).map (·.above bottom) := by
  by_cases hk : k = .code
  · subst hk
    simp only [step]
    cases hopen : Bracket.ofOpener? c with
    | some b => simp [push, above]
    | none =>
      cases hclose : Bracket.ofCloser? c with
      | some b =>
        refine close_above fun hb => ?_
        rw [hb]
        exact h rfl (by rw [Bracket.closer_of_ofCloser? hclose, hb])
      | none => rfl
  · rw [step_of_ne_code _ _ hk, step_of_ne_code _ _ hk, Option.map_some]

/-- Reading on above a bracket, byte by byte. -/
theorem read_cons_above {e : UInt8 × ByteClass} {rest : List (UInt8 × ByteClass)}
    (hstep : (m.above bottom).step position e = (m.step position e).map (·.above bottom))
    (hrest : ∀ after, m.step position e = some after →
      (after.above bottom).read (position + 1) rest =
      (after.read (position + 1) rest).map (·.above bottom)) :
    (m.above bottom).read position (e :: rest) = (m.read position (e :: rest)).map
      (·.above bottom) := by
  simp only [read, hstep]
  cases hafter : m.step position e with
  | none => rfl
  | some after => exact hrest after hafter

/-- A text in which the search finds no closer for the bracket below leaves that bracket open. -/
theorem read_above {b : Bracket} {level : Nat} {mode : Mode} {text : Bytes}
    (h : Scan.splitAtCloser b level mode text = none) (hbottom : bottom.bracket = b)
    (hlevel : m.openCount b = level) :
    (m.above bottom).read position (mode.classify text) =
      (m.read position (mode.classify text)).map (·.above bottom) := by
  induction mode, text using Mode.readInduction generalizing m position level with
  | nil => rfl
  | one mode next c text hstep ih =>
    rw [Mode.classify_cons_one hstep]
    by_cases hclose : mode = .code ∧ c = b.closer
    · obtain ⟨rfl, rfl⟩ := hclose
      obtain ⟨rfl, -⟩ := Bracket.step_closer hstep
      cases level with
      | zero => simp [Scan.splitAtCloser_zero] at h
      | succ level =>
        rw [Scan.splitAtCloser_close, Option.map_eq_none_iff] at h
        refine read_cons_above (step_above fun _ _ => by rw [hbottom, hlevel]; omega)
          fun after hafter => ?_
        refine ih h ?_
        rw [openCount_step hafter]
        simp [Mode.stepClass_eq_code_iff, (Bracket.opener_ne_closer b b).symm, hlevel]
    · rw [Scan.splitAtCloser_one hclose hstep, Option.map_eq_none_iff] at h
      have hnot : ¬ (mode.stepClass next = .code ∧ c = b.closer) := fun hcode =>
        hclose ⟨(Mode.stepClass_eq_code_iff.1 hcode.1).1, hcode.2⟩
      refine read_cons_above (step_above fun hk hc => ?_) fun after hafter => ?_
      · exact absurd ⟨hk, hbottom ▸ hc⟩ hnot
      · refine ih h ?_
        rw [openCount_step hafter, if_neg hnot, hlevel]
        simp only [Bracket.code_opener_iff hstep]
  | two mode next c d text hstep ih =>
    rw [Scan.splitAtCloser_two hstep, Option.map_eq_none_iff] at h
    rw [Mode.classify_cons_two hstep]
    simp only [read, step_of_ne_code _ _ (Mode.stepClass_two hstep), Option.bind_some]
    exact ih h hlevel

end Above

/-- At the closer that the search finds, no other bracket of its kind is open. -/
theorem openCount_of_encloses {b : Bracket} {level : Nat} {mode : Mode} {inside : Bytes}
    (h : Scan.Encloses b level mode inside) {m after : Matcher} {position : Nat}
    (hlevel : m.openCount b = level) (hread : m.read position (mode.classify inside) = some after) :
    after.openCount b = 0 := by
  induction h generalizing m position with
  | nil =>
    obtain rfl : m = after := by simpa [Mode.classify, read] using hread
    exact hlevel
  | @close level inside _ ih =>
    rw [Mode.classify_cons_plain b.closer_plain.1 b.closer_plain.2] at hread
    obtain ⟨next, hstep, hread⟩ := Option.bind_eq_some_iff.1 hread
    refine ih ?_ hread
    rw [openCount_step hstep]
    simp [(Bracket.opener_ne_closer b b).symm, hlevel]
  | @one level mode next c inside hopen hstep _ ih =>
    rw [Mode.classify_cons_one (Mode.step_alone hstep)] at hread
    obtain ⟨m', hstep', hread⟩ := Option.bind_eq_some_iff.1 hread
    refine ih ?_ hread
    have hnot : ¬ (mode.stepClass next = .code ∧ c = b.closer) := fun hcode =>
      hopen ⟨(Mode.stepClass_eq_code_iff.1 hcode.1).1, hcode.2⟩
    rw [openCount_step hstep', if_neg hnot, hlevel]
    simp only [Bracket.code_opener_iff hstep]
  | two hopen hstep _ ih =>
    rw [Mode.classify_cons_two hstep] at hread
    simp only [read, step_of_ne_code _ _ (Mode.stepClass_two hstep), Option.bind_some] at hread
    exact ih hlevel hread

/-- The machine at the end of what brackets enclose: the closer pops the opener when nothing else is
open, and is refused otherwise. -/
theorem close_above_of_openCount {m : Matcher} {bottom : OpenBracket} {position : Nat}
    (h : m.openCount bottom.bracket = 0) :
    (m.above bottom).close bottom.bracket position =
      if m.stack.isEmpty then
        some { found := bottom.before ++ [.mk bottom.bracket bottom.opens position m.found] }
      else none := by
  obtain ⟨stack, found⟩ := m
  cases stack with
  | nil => simp [above, close]
  | cons top below =>
    have htop : ¬ top.bracket = bottom.bracket := by
      intro heq
      simp [openCount, heq] at h
    simp [above, close, htop]

/-- The machine on a bracket whose closer the search finds: it goes through what the brackets
enclose as if it started there, and on from the closer when nothing is left open. -/
theorem read_block {b : Bracket} {inside after : Bytes} (h : Scan.Encloses b 0 .code inside)
    (found : List BracketPair) (position : Nat) :
    Matcher.read { found } position
      (Mode.code.classify (b.opener :: (inside ++ b.closer :: after))) =
      (Matcher.read {} (position + 1) (Mode.code.classify inside)).bind fun m =>
        if m.stack.isEmpty then
          Matcher.read { found := found ++ [.mk b position (position + 1 + inside.length) m.found] }
            (position + inside.length + 2) (Mode.code.classify after)
        else none := by
  have hpush : (Matcher.push { found } b position) = Matcher.above {} ⟨b, position, found⟩ := rfl
  rw [Mode.classify_cons_plain b.opener_plain.1 b.opener_plain.2, read,
    step_opener, Option.bind_some, hpush, (h.reads after).classify_append, read_append,
    read_above h.splitAtCloser_inside rfl rfl,
    Mode.classify_cons_plain b.closer_plain.1 b.closer_plain.2]
  cases hread : Matcher.read {} (position + 1) (Mode.code.classify inside) with
  | none => rfl
  | some m =>
    have hcount : m.openCount b = 0 := openCount_of_encloses h rfl hread
    have hclose : (m.above ⟨b, position, found⟩).close b (position + 1 + inside.length) = _ :=
      close_above_of_openCount hcount
    simp only [Option.map_some, Option.bind_some, read, step_closer, Mode.length_classify, hclose]
    cases m.stack.isEmpty with
    | true =>
      have hnext : position + 1 + inside.length + 1 = position + inside.length + 2 := by omega
      simp [hnext]
    | false => simp

/-- The machine never gets rid of a bracket whose closer the search does not find. -/
theorem read_unclosed {b : Bracket} {text : Bytes} (h : Scan.splitAtCloser b 0 .code text = none)
    (found : List BracketPair) (position : Nat) {m : Matcher}
    (hread : Matcher.read { found } position (Mode.code.classify (b.opener :: text)) = some m) :
    m.stack ≠ [] := by
  have hpush : (Matcher.push { found } b position) = Matcher.above {} ⟨b, position, found⟩ := rfl
  rw [Mode.classify_cons_plain b.opener_plain.1 b.opener_plain.2, read,
    step_opener, Option.bind_some, hpush, read_above h rfl rfl] at hread
  obtain ⟨inner, -, rfl⟩ := Option.map_eq_some_iff.1 hread
  simp [above]

/-- A byte that opens no bracket in code leaves a machine with no open bracket as it is. -/
theorem step_text {found : List BracketPair} {position : Nat} {c : UInt8} {k : ByteClass}
    (h : k = .code → Bracket.ofOpener? c = none) :
    Matcher.step { found } position (c, k) = some { found } := by
  rcases step_cases { found } position c k with ⟨-, hs⟩ | ⟨rfl, b, rfl, -⟩
    | ⟨-, b, -, hs⟩ | ⟨-, -, hs⟩
  · exact hs
  · simpa using h rfl
  · exact hs
  · exact hs

/-- Text without opening brackets in code leaves a machine with no open bracket as it is. -/
theorem read_text {found : List BracketPair} {position : Nat} {text : List (UInt8 × ByteClass)}
    (h : ∀ e ∈ text, e.2 = .code → Bracket.ofOpener? e.1 = none) :
    Matcher.read { found } position text = some { found } := by
  induction text generalizing position with
  | nil => rfl
  | cons e text ih =>
    rw [read, step_text (h e (List.mem_cons_self ..)), Option.bind_some]
    exact ih fun e he => h e (List.mem_cons_of_mem _ he)

end Matcher

end TagScript
