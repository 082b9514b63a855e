import TagScript.Compile
import TagScript.Proofs.CommentSafety
import TagScript.Proofs.Lossless
import TagScript.Proofs.TagReading

/-!
# Words inside strings and comments

Whether a block declares parameters is decided by a search for the word `function` in its
signature, and the search does not ask what the word belongs to. A text is divided here into what
stands strictly inside its strings and comments and the rest, delimiters included. A name never
reaches across a delimiter, so a text names `function` if one of the two parts does.

Two trees that differ only inside strings and comments have the same code. They declare the same
blocks unless the word stands inside a string or comment of one of them.
-/

namespace TagScript

open Bytes

namespace Mode

/-- Whether the bytes of one step stand strictly inside a string or a comment: the step neither
opens nor closes it. -/
def stepInside (before after : Mode) : Bool := before ≠ .code && after = before

/-- Each byte of a text, read from the given mode on, with whether it stands strictly inside a
string or a comment. -/
def insides (mode : Mode) : Bytes → List (UInt8 × Bool)
  | [] => []
  | [c] => [(c, mode.stepInside (mode.step c none).1)]
  | c :: d :: text =>
    match mode.step c (some d) with
    | (after, true) =>
      (c, mode.stepInside after) :: (d, mode.stepInside after) :: insides after text
    | (after, false) => (c, mode.stepInside after) :: insides after (d :: text)

variable {mode after : Mode} {c d : UInt8} {text : Bytes}

/-- The first byte of a text when it is read alone. -/
theorem insides_cons_one (h : mode.step c text.head? = (after, false)) :
    insides mode (c :: text) = (c, mode.stepInside after) :: insides after text := by
  cases text with
  | nil => simp [insides, show mode.step c none = (after, false) from h]
  | cons d text => simp [insides, show mode.step c (some d) = (after, false) from h]

/-- The first two bytes of a text when they are read together. -/
theorem insides_cons_two (h : mode.step c (some d) = (after, true)) :
    insides mode (c :: d :: text) =
      (c, mode.stepInside after) :: (d, mode.stepInside after) :: insides after text := by
  simp [insides, h]

/-- The bytes of a text are its bytes, wherever they stand. -/
theorem map_fst_insides (mode : Mode) (text : Bytes) : (insides mode text).map Prod.fst = text := by
  induction mode, text using readInduction with
  | nil => rfl
  | one mode after c text hstep ih => rw [insides_cons_one hstep, List.map_cons, ih]
  | two mode after c d text hstep ih =>
    rw [insides_cons_two hstep, List.map_cons, List.map_cons, ih]

/-- Two neighbours that stand on different sides: the one outside is a delimiter, which is no part
of a name. -/
def Borders (x y : UInt8 × Bool) : Prop :=
  x.2 = y.2 ∨ (x.2 = false ∧ isNamePart x.1 = false) ∨ (y.2 = false ∧ isNamePart y.1 = false)

/-- A byte that a reader can have behind it: inside a string or comment, in code, or a delimiter. -/
def Leads (x : UInt8 × Bool) (mode : Mode) : Prop :=
  if x.2 then mode ≠ .code else mode = .code ∨ isNamePart x.1 = false

/-- A quote is no part of a name. -/
theorem isNamePart_of_isQuote (h : isQuote c = true) : isNamePart c = false := by
  simp only [isQuote, Bool.or_eq_true, decide_eq_true_eq] at h
  rcases h with (rfl | rfl) | rfl <;> decide

/-- A byte that opens or closes a string or a comment is no part of a name. -/
theorem isNamePart_of_step {next : Option UInt8} {taken : Bool}
    (hquote : ∀ quote, mode = .string quote → isQuote quote = true)
    (h : mode.step c next = (after, taken)) (hchange : mode ≠ after) : isNamePart c = false := by
  have hslash : isNamePart '/' = false := by decide
  have hstar : isNamePart '*' = false := by decide
  have hline : isNamePart '\n' = false := by decide
  cases mode with
  | code =>
    simp only [step] at h
    by_cases hc : isQuote c = true
    · exact isNamePart_of_isQuote hc
    · grind
  | string quote =>
    have hclose := isNamePart_of_isQuote (hquote quote rfl)
    simp only [step] at h
    grind
  | lineComment =>
    simp only [step] at h
    grind
  | blockComment =>
    simp only [step] at h
    grind

/-- What a step leaves behind it. -/
theorem leads_of_step {next : Option UInt8} {taken : Bool}
    (hquote : ∀ quote, mode = .string quote → isQuote quote = true)
    (h : mode.step c next = (after, taken)) : Leads (c, mode.stepInside after) after := by
  have hname := isNamePart_of_step hquote h
  unfold Leads stepInside
  by_cases hcode : mode = .code
  · by_cases hafter : after = .code
    · simp [hcode, hafter]
    · simpa [hcode, hafter] using hname (by rw [hcode]; exact Ne.symm hafter)
  · by_cases hsame : after = mode
    · simp [hcode, hsame]
    · simpa [hcode, hsame] using Or.inr (hname (Ne.symm hsame))

/-- What a step over two bytes leaves behind it. -/
theorem leads_of_step_two (h : mode.step c (some d) = (after, true)) :
    Leads (d, mode.stepInside after) after := by
  have hslash : isNamePart '/' = false := by decide
  have hstar : isNamePart '*' = false := by decide
  rcases eq_of_step_two h with ⟨quote, rfl, rfl, -⟩ | ⟨rfl, rfl, -, -⟩ | ⟨rfl, rfl, -, rfl⟩
    | ⟨rfl, rfl, -, rfl⟩
  · simp [Leads, stepInside]
  · simp [Leads, stepInside]
  · simpa [Leads, stepInside] using hslash
  · simpa [Leads, stepInside] using hstar

/-- The first byte of a step stands on the side of the byte before it, or one of the two is a
delimiter. -/
theorem Leads.borders {x : UInt8 × Bool} {next : Option UInt8} {taken : Bool} (hx : Leads x mode)
    (hquote : ∀ quote, mode = .string quote → isQuote quote = true)
    (h : mode.step c next = (after, taken)) : Borders x (c, mode.stepInside after) := by
  have hname := isNamePart_of_step hquote h
  obtain ⟨byte, inside⟩ := x
  unfold Leads at hx
  unfold Borders stepInside
  cases inside with
  | true =>
    have hmode : mode ≠ .code := hx
    by_cases hsame : after = mode
    · simp [hmode, hsame]
    · simp [hsame, hname (Ne.symm hsame)]
  | false =>
    have hbefore : mode = .code ∨ isNamePart byte = false := hx
    rcases hbefore with rfl | hbyte
    · simp
    · simp [hbyte]

/-- Between a byte inside a string or comment and one outside stands a delimiter. -/
theorem isChain_insides {x : UInt8 × Bool} (hx : Leads x mode)
    (hquote : ∀ quote, mode = .string quote → isQuote quote = true) :
    List.IsChain Borders (x :: insides mode text) := by
  induction mode, text using readInduction generalizing x with
  | nil mode => exact .singleton x
  | one mode after c text hstep ih =>
    rw [insides_cons_one hstep]
    exact .cons_cons (hx.borders hquote hstep)
      (ih (leads_of_step hquote hstep) (step_isQuote hstep hquote))
  | two mode after c d text hstep ih =>
    rw [insides_cons_two hstep]
    exact .cons_cons (hx.borders hquote hstep) (.cons_cons (.inl rfl)
      (ih (leads_of_step_two hstep) (step_isQuote hstep hquote)))

/-- The sides of a text read from code on. -/
theorem isChain_insides_code (text : Bytes) : List.IsChain Borders (insides .code text) := by
  have hblank : Leads (32, false) .code := .inl rfl
  exact (isChain_insides hblank fun _ h => Mode.noConfusion h).tail

end Mode

open Mode

/-- A byte if it stands on the given side, and a blank otherwise. -/
def shown (inside : Bool) (x : UInt8 × Bool) : UInt8 := if x.2 = inside then x.1 else 32

/-- The bytes of a text that stand strictly inside its strings and comments, or those that do not,
with blanks for the others. -/
def sideText (inside : Bool) (text : Bytes) : Bytes := (Mode.code.insides text).map (shown inside)

/-- What a text is like outside its strings and comments: its bytes with those strictly inside left
open. -/
def outline (text : Bytes) : List (Option UInt8) :=
  (Mode.code.insides text).map fun x => if x.2 then none else some x.1

/-- Texts of one outline are the same outside their strings and comments. -/
theorem sideText_false_eq (text : Bytes) :
    sideText false text = (outline text).map (·.getD 32) := by
  rw [sideText, outline, List.map_map]
  apply List.map_congr_left
  rintro ⟨c, inside⟩ -
  cases inside <;> rfl

/-- A word stands free in a text: the bytes around it are no part of a name. -/
def StandsFree (word text : Bytes) : Prop := ∃ before behind, text = before ++ (word ++ behind) ∧
  (∀ c, before.getLast? = some c → isNamePart c = false) ∧ ∀ c, behind.head? = some c →
  isNamePart c = false

section Words

variable {word : Bytes} {entries : List (UInt8 × Bool)} {side : Bool}

/-- What stands behind a prefix that is found. -/
theorem Bytes.after?_append_self (word rest : Bytes) :
    Bytes.after? word (word ++ rest) = some rest := by
  induction word with
  | nil => cases rest <;> rfl
  | cons c word ih => simp [Bytes.after?, ih]

/-- The search for `function` finds it where it stands free. `fresh` says that the byte before the
text is no part of a name. -/
theorem isSome_afterFunction?_iff (fresh : Bool) (text : Bytes) :
    (afterFunction? fresh text).isSome = true ↔
    ∃ before behind, text = before ++ (utf8 "function" ++ behind) ∧ (before = [] → fresh = true) ∧
      (∀ c, before.getLast? = some c → isNamePart c = false) ∧
      ∀ c, behind.head? = some c → isNamePart c = false := by
  have hword : utf8 "function" ≠ [] := by decide
  induction text generalizing fresh with
  | nil => simp [afterFunction?, hword]
  | cons c text ih =>
    have hrest := ih (!isNamePart c)
    rw [afterFunction?, Option.isSome_or, Bool.or_eq_true]
    constructor
    · rintro (hhere | hthere)
      · obtain ⟨rest, hrest⟩ := Option.isSome_iff_exists.1 hhere
        obtain ⟨hfound, hfree⟩ := Option.filter_eq_some_iff.1 hrest
        cases fresh with
        | false => exact nomatch hfound
        | true =>
          have htext : c :: text = utf8 "function" ++ rest :=
            eq_append_of_after? (by simpa using hfound)
          refine ⟨[], rest, htext, fun _ => rfl, by simp, fun d hd => ?_⟩
          simpa [hd] using hfree
      · obtain ⟨before, behind, htext, hfirst, hlast, hbehind⟩ := hrest.1 hthere
        refine ⟨c :: before, behind, by rw [htext]; rfl, by simp, fun d hd => ?_, hbehind⟩
        cases before with
        | nil =>
          obtain rfl : c = d := by simpa using hd
          simpa using hfirst rfl
        | cons e before => exact hlast d (by simpa using hd)
    · rintro ⟨before, behind, htext, hfirst, hlast, hbehind⟩
      cases before with
      | nil =>
        left
        have hfree : (behind.head?.any isNamePart) = false := by
          cases hhead : behind.head? with
          | none => rfl
          | some d => simpa using hbehind d hhead
        rw [hfirst rfl, if_pos rfl, htext, List.nil_append, after?_append_self]
        simp [Option.filter, hfree]
      | cons d before =>
        right
        obtain ⟨rfl, rfl⟩ := List.cons.inj htext
        refine hrest.2 ⟨before, behind, rfl, fun hnil => ?_, fun e he => hlast e ?_, hbehind⟩
        · simpa [hnil] using hlast c
        · simp [List.getLast?_cons, he]

/-- A text names `function` where the word stands free in it. -/
theorem namesFunction_iff (text : Bytes) : namesFunction text = true ↔
    StandsFree (utf8 "function") text := by
  rw [namesFunction, isSome_afterFunction?_iff]
  simp [StandsFree]

/-- The bytes of a name stand on one side. -/
theorem sameSide_of_name (hchain : List.IsChain Borders entries)
    (hname : ∀ x ∈ entries, isNamePart x.1 = true) :
    ∃ side, ∀ x ∈ entries, x.2 = side := by
  induction hchain with
  | nil => exact ⟨true, fun _ h => nomatch h⟩
  | singleton x => exact ⟨x.2, by simp⟩
  | @cons_cons x y rest hborder _ ih =>
    obtain ⟨side, hside⟩ := ih fun z hz => hname z (List.mem_cons_of_mem _ hz)
    refine ⟨side, fun z hz => ?_⟩
    rcases List.mem_cons.1 hz with rfl | hz
    · rw [← hside y (List.mem_cons_self ..)]
      have hx := hname z (List.mem_cons_self ..)
      have hy := hname y (List.mem_cons_of_mem _ (List.mem_cons_self ..))
      simpa [Borders, hx, hy] using hborder
    · exact hside z hz

/-- A byte of a name is shown on its own side only. -/
theorem shown_name_iff {x : UInt8 × Bool} {c : UInt8} (hc : isNamePart c = true) :
    shown side x = c ↔ x = (c, side) := by
  have hblank : isNamePart 32 = false := by decide
  obtain ⟨d, inside⟩ := x
  unfold shown
  by_cases hside : inside = side
  · simp [hside]
  · have hne : (32 : UInt8) ≠ c := by
      rintro rfl
      exact absurd hc (by simp [hblank])
    simp [hside, hne]

/-- A byte that is no part of a name is shown as one that is none. -/
theorem isNamePart_shown {x : UInt8 × Bool} (h : isNamePart x.1 = false) :
    isNamePart (shown side x) = false := by
  unfold shown
  split
  · exact h
  · decide

/-- A byte beside one of a name that is shown as no part of it is none. -/
theorem isNamePart_of_shown {x y : UInt8 × Bool} (hborder : Borders x y ∨ Borders y x)
    (hside : y.2 = side) (hname : isNamePart y.1 = true) (h : isNamePart (shown side x) = false) :
    isNamePart x.1 = false := by
  unfold shown at h
  by_cases hx : x.2 = side
  · simpa [hx] using h
  · have hne : x.2 ≠ y.2 := by rwa [hside]
    rcases hborder with hborder | hborder
    · simpa [Borders, hne, hname] using (show _ ∨ _ from hborder).imp_right fun h =>
        h.imp_left And.right
    · simpa [Borders, hne.symm, hname] using (show _ ∨ _ from hborder).imp_right fun h =>
        h.imp_right And.right

/-- A word stands free in a text if it does so on one of the two sides. -/
theorem standsFree_iff_exists_side (hchain : List.IsChain Borders entries) (hne : word ≠ [])
    (hword : ∀ c ∈ word, isNamePart c = true) :
    StandsFree word (entries.map Prod.fst) ↔ ∃ side,
      StandsFree word (entries.map (shown side)) := by
  constructor
  · rintro ⟨before, behind, htext, hbefore, hbehind⟩
    obtain ⟨front, rest, rfl, rfl, hrest⟩ := List.map_eq_append_iff.1 htext
    obtain ⟨middle, back, rfl, rfl, rfl⟩ := List.map_eq_append_iff.1 hrest
    obtain ⟨side, hside⟩ := sameSide_of_name (hchain.right_of_append.left_of_append) fun x hx =>
      hword _ (List.mem_map_of_mem hx)
    have hmiddle : middle.map (shown side) = middle.map Prod.fst :=
      List.map_congr_left fun x hx => by rw [shown, if_pos (hside x hx)]
    refine ⟨side, front.map (shown side), back.map (shown side), by simp [hmiddle],
      fun c hc => ?_, fun c hc => ?_⟩
    · rw [List.getLast?_map] at hc hbefore
      obtain ⟨x, hx, rfl⟩ := Option.map_eq_some_iff.1 hc
      exact isNamePart_shown (hbefore x.1 (by rw [hx]; rfl))
    · rw [List.head?_map] at hc hbehind
      obtain ⟨x, hx, rfl⟩ := Option.map_eq_some_iff.1 hc
      exact isNamePart_shown (hbehind x.1 (by rw [hx]; rfl))
  · rintro ⟨side, before, behind, htext, hbefore, hbehind⟩
    obtain ⟨front, rest, rfl, rfl, hrest⟩ := List.map_eq_append_iff.1 htext
    obtain ⟨middle, back, rfl, rfl, rfl⟩ := List.map_eq_append_iff.1 hrest
    have hside : ∀ x ∈ middle, x = (shown side x, side) := fun x hx =>
      (shown_name_iff (hword _ (List.mem_map_of_mem hx))).1 rfl
    have hmiddle : middle.map Prod.fst = middle.map (shown side) :=
      List.map_congr_left fun x hx => by rw [hside x hx]; simp [shown]
    have hnil : middle ≠ [] := fun hnil => hne (by rw [hnil]; rfl)
    obtain ⟨-, hchain, hfront⟩ := List.isChain_append.1 hchain
    obtain ⟨-, -, hback⟩ := List.isChain_append.1 hchain
    have hends (y : UInt8 × Bool) (hy : y ∈ middle) : y.2 = side ∧ isNamePart y.1 = true := by
      have hshown := hword _ (List.mem_map_of_mem hy)
      rw [hside y hy]
      exact ⟨rfl, hshown⟩
    refine ⟨front.map Prod.fst, back.map Prod.fst, by simp [hmiddle],
      fun c hc => ?_, fun c hc => ?_⟩
    · rw [List.getLast?_map] at hc hbefore
      obtain ⟨x, hx, rfl⟩ := Option.map_eq_some_iff.1 hc
      obtain ⟨y, hy⟩ : ∃ y, middle.head? = some y := ⟨_, List.head?_eq_some_head hnil⟩
      have hends := hends y (List.mem_of_head? hy)
      refine isNamePart_of_shown (.inl (hfront x hx y ?_)) hends.1 hends.2
        (hbefore _ (by rw [hx]; rfl))
      rw [List.head?_append, hy]
      rfl
    · rw [List.head?_map] at hc hbehind
      obtain ⟨x, hx, rfl⟩ := Option.map_eq_some_iff.1 hc
      obtain ⟨y, hy⟩ : ∃ y, middle.getLast? = some y := ⟨_, List.getLast?_eq_some_getLast hnil⟩
      have hends := hends y (List.mem_of_getLast? hy)
      exact isNamePart_of_shown (.inr (hback y hy x hx)) hends.1 hends.2
        (hbehind _ (by rw [hx]; rfl))

/-- A text names `function` if its code does, or what stands inside its strings and comments. -/
theorem namesFunction_eq_or (text : Bytes) :
    namesFunction text =
      (namesFunction (sideText false text) || namesFunction (sideText true text)) := by
  have hne : utf8 "function" ≠ [] := by decide
  have hword : ∀ c ∈ utf8 "function", isNamePart c = true := List.all_eq_true.1 (by decide)
  have hsides := standsFree_iff_exists_side (isChain_insides_code text) hne hword
  rw [map_fst_insides, Bool.exists_bool] at hsides
  rw [Bool.eq_iff_iff, Bool.or_eq_true, namesFunction_iff, namesFunction_iff, namesFunction_iff]
  exact hsides

/-- Word breaks in front of a text do not hide the word, and bring none. -/
theorem namesFunction_append_left {lead : Bytes} (hlead : ∀ c ∈ lead, IsWordBreak c)
    (text : Bytes) :
    namesFunction (lead ++ text) = namesFunction text := by
  induction lead with
  | nil => rfl
  | cons c lead ih =>
    have hbreak := (hlead c (List.mem_cons_self ..)).1
    have hhere : Bytes.after? (utf8 "function") (c :: (lead ++ text)) = none := by
      have hne : (utf8 "function").head? ≠ some c := by
        intro hhead
        have hname : (utf8 "function").head?.all isNamePart = true := by decide
        simp [hhead, hbreak] at hname
      cases hword : utf8 "function" with
      | nil => exact absurd hword (by decide)
      | cons p word =>
        have hp : p ≠ c := by simpa [hword] using hne
        simp [Bytes.after?, hp]
    rw [← ih fun d hd => hlead d (List.mem_cons_of_mem _ hd), namesFunction,
      List.cons_append, afterFunction?, hhere, hbreak]
    rfl

/-- Word breaks behind a text do not hide the word, and bring none. -/
theorem namesFunction_append_right {tail : Bytes} (htail : ∀ c ∈ tail, IsWordBreak c)
    (text : Bytes) :
    namesFunction (text ++ tail) = namesFunction text := by
  suffices h : ∀ fresh, (afterFunction? fresh (text ++ tail)).isSome =
      (afterFunction? fresh text).isSome from h true
  have hnone : ∀ fresh, (afterFunction? fresh tail).isSome = false := by
    intro fresh
    rw [← Bool.not_eq_true, isSome_afterFunction?_iff]
    rintro ⟨before, behind, rfl, -⟩
    have hmem : Char.toUInt8 'f' ∈ utf8 "function" := by decide
    have hbreak := (htail 'f' (by simp [hmem])).1
    exact absurd hbreak (by decide)
  have hhead (rest : Bytes) : (rest ++ tail).head?.any isNamePart = rest.head?.any isNamePart := by
    cases rest with
    | cons c rest => rfl
    | nil =>
      cases tail with
      | nil => rfl
      | cons c tail => simpa using (htail c (List.mem_cons_self ..)).1
  induction text with
  | nil => exact fun fresh => (hnone fresh).trans rfl
  | cons c text ih =>
    intro fresh
    rw [List.cons_append, afterFunction?, afterFunction?, Option.isSome_or, Option.isSome_or,
      ih, ← List.cons_append, after?_append (by decide) htail]
    congr 1
    cases fresh with
    | false => rfl
    | true =>
      cases Bytes.after? (utf8 "function") (c :: text) with
      | none => rfl
      | some rest =>
        have hrest := hhead rest
        rw [List.head?_append] at hrest
        simp [Option.filter, hrest, apply_ite]

/-- Trimming a text does not change whether it names `function`. -/
theorem namesFunction_trim (text : Bytes) : namesFunction text.trim = namesFunction text := by
  obtain ⟨lead, tail, htext, -, hlead, htail, -, -⟩ := trim_spec text
  generalize text.trim = inner at htext ⊢
  subst htext
  rw [namesFunction_append_left fun c hc => (hlead.isSpaceByte c hc).isWordBreak,
    namesFunction_append_right fun c hc => (htail.isSpaceByte c hc).isWordBreak]

end Words

section Arrows

variable {c : UInt8} {text other : Bytes}

/-- The outline of a text that starts with a plain byte of code. -/
theorem outline_cons (hquote : isQuote c = false) (hslash : c ≠ '/') (text : Bytes) :
    outline (c :: text) = some c :: outline text := by
  rw [outline, insides_cons_one (step_plain hquote hslash _)]
  rfl

/-- The first byte of a text belongs to its outline. -/
theorem head?_outline (c : UInt8) (text : Bytes) : (outline (c :: text)).head? = some (some c) := by
  rw [outline]
  cases text with
  | nil => rfl
  | cons d text =>
    rcases hstep : Mode.code.step c (some d) with ⟨after, taken⟩
    cases taken with
    | true => rw [insides_cons_two hstep]; rfl
    | false => rw [insides_cons_one (show Mode.code.step c (d :: text).head? = _ from hstep)]; rfl

/-- Texts of one outline start with the same plain bytes of code. -/
theorem eq_append_of_outline {lead : Bytes} (hlead : ∀ c ∈ lead, isQuote c = false ∧ c ≠ '/')
    (h : outline (lead ++ text) = outline other) :
    ∃ rest, other = lead ++ rest ∧ outline text = outline rest := by
  induction lead generalizing other with
  | nil => exact ⟨other, rfl, h⟩
  | cons c lead ih =>
    have hplain := hlead c (List.mem_cons_self ..)
    rw [List.cons_append, outline_cons hplain.1 hplain.2] at h
    cases other with
    | nil => exact nomatch h
    | cons d other =>
      have hhead := head?_outline d other
      rw [← h] at hhead
      obtain rfl : c = d := by simpa using hhead
      rw [outline_cons hplain.1 hplain.2] at h
      obtain ⟨rest, rfl, hrest⟩ :=
        ih (fun d hd => hlead d (List.mem_cons_of_mem _ hd)) (List.cons.inj h).2
      exact ⟨rest, rfl, hrest⟩

/-- An arrow at the start of a text stays there when the text is trimmed. -/
theorem startsWith_trim_arrow_append (text : Bytes) :
    (trim (arrow ++ text)).startsWith arrow = true := by
  have harrow : arrow = [Char.toUInt8 '=', Char.toUInt8 '>'] := by decide
  have hspace : ∀ c,
      ¬ (isAsciiSpace '=' = true ∨ isSpacePair '=' c = true ∨ ∃ d,
        isSpaceTriple '=' c d = true) := by
    have hblank : isAsciiSpace '=' = false := by decide
    have hlead : Char.toUInt8 '=' ≠ 0xC2 ∧ Char.toUInt8 '=' ≠ 0xE1 ∧ Char.toUInt8 '=' ≠ 0xE2 ∧
        Char.toUInt8 '=' ≠ 0xE3 := by decide
    simp [hblank, isSpacePair, isSpaceTriple, hlead]
  have hstart : trimStart (arrow ++ text) = arrow ++ text := by
    rcases trimStart_cases (arrow ++ text) with hkept | ⟨point, rest, hpoint, htext⟩
    · exact hkept
    · rw [harrow] at htext
      cases hpoint with
      | one h => simp_all
      | two h => simp_all
      | three h => simp_all
  obtain ⟨tail, htail, hend, -⟩ := trimEnd_spec (arrow ++ text)
  rw [trim, hstart]
  generalize trimEnd (arrow ++ text) = inner at htail ⊢
  rw [harrow] at htail ⊢
  have hbytes : ¬ IsSpaceByte '=' ∧ ¬ IsSpaceByte '>' := by decide
  -- neither byte of the arrow can be trimmed away at the end
  cases inner with
  | nil =>
    exact absurd (hend.isSpaceByte '=' (by rw [← List.nil_append tail, ← htail]; simp)) hbytes.1
  | cons c inner =>
    obtain ⟨rfl, hmore⟩ := List.cons.inj htail
    cases inner with
    | nil =>
      obtain rfl : Char.toUInt8 '>' :: text = tail := hmore
      exact absurd (hend.isSpaceByte '>' (by simp)) hbytes.2
    | cons d inner =>
      obtain ⟨rfl, -⟩ := List.cons.inj hmore
      simp [Bytes.startsWith, Bytes.after?]

/-- Texts of one outline start with an arrow or do not, apart from white space. -/
theorem startsWith_arrow_of_outline (h : outline text = outline other)
    (harrow : text.trim.startsWith arrow = true) :
    other.trim.startsWith arrow = true := by
  induction text using trimStartInduction generalizing other with
  | drop point rest hpoint ih =>
    obtain ⟨rest', rfl, hrest⟩ := eq_append_of_outline (fun c hc =>
      have hplain := (hpoint.isSpaceByte c hc).plain
      ⟨hplain.1, hplain.2.1⟩) h
    rw [trim, hpoint.trimStart_append] at harrow ⊢
    exact ih hrest harrow
  | keep text hkept =>
    obtain ⟨tail, htail, -, -⟩ := trimEnd_spec text
    rw [trim, hkept] at harrow
    have htext : text = arrow ++ ((trimEnd text).drop 2 ++ tail) := by
      rw [← List.append_assoc, ← Token.eq_arrow_append harrow, ← htail]
    have hplain : arrow.all (fun c => !isQuote c && c != '/') = true := by decide
    rw [htext] at h
    obtain ⟨rest, rfl, -⟩ :=
      eq_append_of_outline (fun c hc => by simpa using List.all_eq_true.1 hplain c hc) h
    exact startsWith_trim_arrow_append rest

end Arrows

namespace Token

mutual

/-- Whether two tokens are of one kind and differ only inside strings and comments, and what is
inside them as well. -/
def Alike : Token → Token → Prop
  | .leaf s _, .leaf t _ => outline s = outline t
  | .block s ts _, .block t us _ => outline s = outline t ∧ AlikeAll ts us
  | _, _ => False

/-- Whether two sequences of tokens differ only inside strings and comments. -/
def AlikeAll : List Token → List Token → Prop
  | [], [] => True
  | t :: ts, u :: us => Alike t u ∧ AlikeAll ts us
  | _, _ => False

end

/-- The level that positions lead to: each one is that of a block, whose content is gone on with. -/
def levelAt : List Nat → List Token → Option (List Token)
  | [], tokens => some tokens
  | i :: path, tokens =>
    match tokens[i]? with
    | some (.block _ children _) => levelAt path children
    | _ => none

/-- The positions of the declaring blocks of a level. -/
def declaringPositions (tokens : List Token) : List Nat :=
  (List.range tokens.length).filter fun i => tokens[i]?.any (·.declares tokens[i + 1]?)

/-- The declaring blocks of a level are those at their positions. -/
theorem declaring_eq_filterMap (tokens : List Token) :
    declaring tokens = (declaringPositions tokens).filterMap (tokens[·]?) := by
  induction tokens with
  | nil => rfl
  | cons t ts ih =>
    have hrest : ((List.range ts.length).map Nat.succ).filter
        (fun i => (t :: ts)[i]?.any (·.declares (t :: ts)[i + 1]?)) =
        (declaringPositions ts).map Nat.succ := by
      rw [List.filter_map]
      rfl
    rw [declaring, declaringPositions, List.length_cons, List.range_succ_eq_map,
      List.filter_cons, hrest, ih]
    cases hdeclares : t.declares ts.head? with
    | true => simp [← List.head?_eq_getElem?, hdeclares, List.filterMap_map]
    | false => simp [← List.head?_eq_getElem?, hdeclares, List.filterMap_map]

/-- Whether a token is a block with something in it. -/
def hasContent (t : Token) : Bool := !t.children.isEmpty

/-- Whether a token names `function` inside its strings and comments, or outside them. -/
def names (inside : Bool) (t : Token) : Bool := namesFunction (sideText inside t.head)

/-- Whether a token starts with an arrow and is no block whose code names `function`. -/
def isArrowInCode (t : Token) : Bool :=
  t.head.trim.startsWith arrow && !(t.isBlock && t.names false)

/-- What strings and comments decide about a block. They speak for a declaration if the block names
`function` inside them, or if an arrow follows that does not. -/
def literalVote (next : Option Token) (t : Token) : Bool :=
  t.names true || next.any fun n => n.isArrowInCode && !(n.isBlock && n.names true)

/-- An arrow counts unless it names `function` inside a string or comment. -/
theorem isArrowTail_eq (t : Token) :
    t.isArrowTail = (t.isArrowInCode && !(t.isBlock && t.names true)) := by
  rw [isArrowTail, namesFunction_trim, namesFunction_eq_or, isArrowInCode, names, names]
  cases t.head.trim.startsWith arrow <;> cases t.isBlock <;>
    cases namesFunction (sideText false t.head) <;> rfl

/-- A block with content declares parameters if its code names `function`, or if its strings and
comments speak for it. -/
theorem declares_eq (next : Option Token) (t : Token) :
    t.declares next = (t.hasContent && (t.names false || t.literalVote next)) := by
  match t with
  | .leaf .. => rfl
  | .block _ [] _ => rfl
  | .block signature (child :: children) offset =>
    have htail : next.any isArrowTail = next.any fun n => n.isArrowInCode &&
        !(n.isBlock && n.names true) := by
      cases next with
      | none => rfl
      | some n => exact isArrowTail_eq n
    rw [declares, namesFunction_trim, namesFunction_eq_or, htail, Bool.or_assoc]
    rfl

section Alike

variable {t u : Token} {ts us : List Token}

/-- Tokens that are alike have the same outline. -/
theorem Alike.outline_eq (h : Alike t u) : outline t.head = outline u.head := by
  cases t <;> cases u
  · exact h
  · exact h.elim
  · exact h.elim
  · exact h.1

/-- Tokens that are alike are of one kind. -/
theorem Alike.isBlock_eq (h : Alike t u) : t.isBlock = u.isBlock := by
  cases t <;> cases u
  · rfl
  · exact h.elim
  · exact h.elim
  · rfl

/-- What is inside tokens that are alike is alike. -/
theorem Alike.children (h : Alike t u) : AlikeAll t.children u.children := by
  cases t <;> cases u
  · trivial
  · exact h.elim
  · exact h.elim
  · exact h.2

/-- Sequences that are alike have tokens that are alike at the same positions, and no others. -/
theorem AlikeAll.rel_getElem? (h : AlikeAll ts us) (i : Nat) :
    Option.Rel Alike ts[i]? us[i]? := by
  induction ts generalizing us i with
  | nil =>
    cases us with
    | nil => exact .none
    | cons u us => exact h.elim
  | cons t ts ih =>
    cases us with
    | nil => exact h.elim
    | cons u us =>
      cases i with
      | zero => exact .some h.1
      | succ i => exact ih h.2 i

/-- Sequences that are alike have the same number of tokens. -/
theorem AlikeAll.length_eq (h : AlikeAll ts us) : ts.length = us.length := by
  induction ts generalizing us with
  | nil =>
    cases us with
    | nil => rfl
    | cons u us => exact h.elim
  | cons t ts ih =>
    cases us with
    | nil => exact h.elim
    | cons u us => rw [List.length_cons, List.length_cons, ih h.2]

/-- Tokens that are alike both have content, or neither has. -/
theorem Alike.hasContent_eq (h : Alike t u) : t.hasContent = u.hasContent := by
  rw [hasContent, hasContent, Bool.eq_iff_iff]
  simp [← List.length_eq_zero_iff, h.children.length_eq]

/-- Tokens that are alike have the same code. -/
theorem Alike.names_false_eq (h : Alike t u) : t.names false = u.names false := by
  rw [names, names, sideText_false_eq, sideText_false_eq, h.outline_eq]

/-- Of tokens that are alike both are arrows or none. -/
theorem Alike.isArrowInCode_eq (h : Alike t u) : t.isArrowInCode = u.isArrowInCode := by
  have harrow : t.head.trim.startsWith arrow = u.head.trim.startsWith arrow := by
    rw [Bool.eq_iff_iff]
    exact ⟨startsWith_arrow_of_outline h.outline_eq, startsWith_arrow_of_outline h.outline_eq.symm⟩
  rw [isArrowInCode, isArrowInCode, harrow, h.isBlock_eq, h.names_false_eq]

/-- Levels that are alike lie at the same places of trees that are alike. -/
theorem AlikeAll.rel_levelAt (h : AlikeAll ts us) (path : List Nat) :
    Option.Rel AlikeAll (levelAt path ts) (levelAt path us) := by
  induction path generalizing ts us with
  | nil => exact .some h
  | cons i path ih =>
    have hentry := h.rel_getElem? i
    rw [levelAt, levelAt]
    generalize ts[i]? = t at hentry ⊢
    generalize us[i]? = u at hentry ⊢
    cases hentry with
    | none => exact .none
    | @some t u hentry =>
      cases t <;> cases u
      · exact .none
      · exact hentry.elim
      · exact hentry.elim
      · exact ih hentry.2

/-- What is found on a level of a tree is in the tree. -/
theorem mem_all_of_levelAt {path : List Nat} {level : List Token}
    (hlevel : levelAt path ts = some level) (ht : t ∈ level) : t ∈ all ts := by
  induction path generalizing ts with
  | nil =>
    obtain rfl : ts = level := Option.some.inj hlevel
    obtain ⟨front, back, rfl⟩ := List.append_of_mem ht
    rw [all_append, all_cons]
    simp
  | cons i path ih =>
    rw [levelAt] at hlevel
    split at hlevel
    next signature children offset hentry =>
      obtain ⟨front, back, rfl⟩ := List.append_of_mem (List.mem_of_getElem? hentry)
      rw [all_append, all_cons]
      simp [Token.children, ih hlevel]
    next => simp at hlevel

/-- Two blocks that are alike, in front of tokens that are alike, declare the same unless strings
and comments decide and do not agree. -/
theorem Alike.declares_eq_iff {next other : Option Token} (h : Alike t u) :
    t.declares next = u.declares other ↔
      (t.hasContent = true → t.names false = false → t.literalVote next = u.literalVote other) := by
  rw [declares_eq, declares_eq, ← h.hasContent_eq, ← h.names_false_eq]
  cases t.hasContent <;> cases t.names false <;> simp

/-- The positions of declaring blocks on levels that are alike agree if the blocks do one by one. -/
theorem AlikeAll.declaringPositions_eq_iff (h : AlikeAll ts us) :
    declaringPositions ts = declaringPositions us ↔
      ∀ (i : Nat) (t u : Token), ts[i]? = some t → us[i]? = some u →
        t.declares ts[i + 1]? = u.declares us[i + 1]? := by
  rw [declaringPositions, declaringPositions, ← h.length_eq]
  constructor
  · intro heq i t u ht hu
    have hi : i < ts.length := (List.getElem?_eq_some_iff.1 ht).1
    have hmem := congrArg (i ∈ ·) heq
    simp only [List.mem_filter, List.mem_range, hi, ht, hu, true_and, Option.any_some] at hmem
    exact Bool.eq_iff_iff.2 hmem.to_iff
  · intro heq
    refine List.filter_congr fun i hi => ?_
    have hentry := h.rel_getElem? i
    cases ht : ts[i]? with
    | none => simp_all
    | some t =>
      cases hu : us[i]? with
      | none =>
        rw [ht, hu] at hentry
        exact nomatch hentry
      | some u => simpa using heq i t u ht hu

/-- If neither names `function` inside strings and comments, these speak alike for blocks that are
alike. -/
theorem AlikeAll.literalVote_eq (h : AlikeAll ts us) (hts : ∀ t ∈ ts, t.names true = false)
    (hus : ∀ u ∈ us, u.names true = false) {i : Nat} (ht : ts[i]? = some t) (hu : us[i]? = some u) :
    t.literalVote ts[i + 1]? = u.literalVote us[i + 1]? := by
  have hnext := h.rel_getElem? (i + 1)
  rw [literalVote, literalVote, hts t (List.mem_of_getElem? ht), hus u (List.mem_of_getElem? hu)]
  cases hn : ts[i + 1]? with
  | none =>
    cases hm : us[i + 1]? with
    | none => rfl
    | some m =>
      rw [hn, hm] at hnext
      exact nomatch hnext
  | some n =>
    cases hm : us[i + 1]? with
    | none =>
      rw [hn, hm] at hnext
      exact nomatch hnext
    | some m =>
      rw [hn, hm] at hnext
      cases hnext with
      | some hnext =>
        simp [hts n (List.mem_of_getElem? hn), hus m (List.mem_of_getElem? hm),
          hnext.isArrowInCode_eq]

end Alike

/-- Whether two trees have declaring blocks at the same positions of every level. -/
def SameDeclaring (ts us : List Token) : Prop :=
  ∀ path, (levelAt path ts).map declaringPositions = (levelAt path us).map declaringPositions

/-- Whether strings and comments speak alike for the blocks of two trees: for those with content
whose code does not name `function`. -/
def LiteralsAgree (ts us : List Token) : Prop :=
  ∀ (path : List Nat) (level other : List Token), levelAt path ts = some level →
    levelAt path us = some other →
    ∀ (i : Nat) (t u : Token), level[i]? = some t → other[i]? = some u →
      t.hasContent = true → t.names false = false →
      t.literalVote level[i + 1]? = u.literalVote other[i + 1]?

variable {ts us : List Token}

/-- Trees that are alike have the same declaring blocks if strings and comments speak alike for
them. -/
theorem AlikeAll.sameDeclaring_iff (h : AlikeAll ts us) :
    SameDeclaring ts us ↔ LiteralsAgree ts us := by
  refine forall_congr' fun path => ?_
  have hlevels := h.rel_levelAt path
  generalize levelAt path ts = level at hlevels ⊢
  generalize levelAt path us = other at hlevels ⊢
  cases hlevels with
  | none => simp
  | @some level other halike =>
    have hentries (i : Nat) (t u : Token) (ht : level[i]? = some t) (hu : other[i]? = some u) :
        Alike t u := by
      have hentry := halike.rel_getElem? i
      rw [ht, hu] at hentry
      cases hentry with
      | some hentry => exact hentry
    rw [Option.map_some, Option.map_some, Option.some.injEq, halike.declaringPositions_eq_iff]
    constructor
    · rintro hdeclares _ _ ⟨⟩ ⟨⟩ i t u ht hu
      exact (hentries i t u ht hu).declares_eq_iff.1 (hdeclares i t u ht hu)
    · intro hvotes i t u ht hu
      exact (hentries i t u ht hu).declares_eq_iff.2 (hvotes level other rfl rfl i t u ht hu)

/-- Strings and comments without a free-standing `function` speak alike. -/
theorem AlikeAll.literalsAgree (h : AlikeAll ts us)
    (hnone : ∀ t ∈ all ts ++ all us, t.names true = false) :
    LiteralsAgree ts us := by
  intro path level other hlevel hother i t u ht hu _ _
  have halike : AlikeAll level other := by
    have hlevels := h.rel_levelAt path
    rw [hlevel, hother] at hlevels
    cases hlevels with
    | some halike => exact halike
  exact halike.literalVote_eq
    (fun t ht => hnone t (List.mem_append_left _ (mem_all_of_levelAt hlevel ht)))
    (fun u hu => hnone u (List.mem_append_right _ (mem_all_of_levelAt hother hu))) ht hu

/-- Strings and comments have a part in which blocks declare parameters, by the word `function` and
by nothing else. Two trees that differ only strictly inside strings and comments have the same
declaring blocks on every level exactly when strings and comments speak alike for every block with
content whose code does not name `function`. They do so if `function` stands free inside no string
and no comment of either tree. -/
theorem sameDeclaring_iff_literalsAgree (h : AlikeAll ts us) :
    (SameDeclaring ts us ↔ LiteralsAgree ts us) ∧
    ((∀ t ∈ all ts ++ all us, t.names true = false) → SameDeclaring ts us) :=
  ⟨h.sameDeclaring_iff, fun hnone => h.sameDeclaring_iff.2 (h.literalsAgree hnone)⟩

/-- The words of a comment do not matter, as long as `function` is none of them. -/
theorem sameDeclaring_iff_literalsAgree_comment : ∃ ts us,
    tokenize "/* call the functions */ log(a|b)" = .ok ts ∧
      tokenize "/* call the funktion  */ log(a|b)" = .ok us ∧
    AlikeAll ts us ∧ (∀ t ∈ all ts ++ all us, t.names true = false) ∧ SameDeclaring ts us := by
  have hscan : tokenize "/* call the functions */ log(a|b)" =
      .ok [.block "/* call the functions */ log(" [.leaf "a|b" 29] 0] := by decide +kernel
  have hscan' : tokenize "/* call the funktion  */ log(a|b)" =
      .ok [.block "/* call the funktion  */ log(" [.leaf "a|b" 29] 0] := by decide +kernel
  have halike : AlikeAll [.block "/* call the functions */ log(" [.leaf "a|b" 29] 0]
      [.block "/* call the funktion  */ log(" [.leaf "a|b" 29] 0] :=
    ⟨⟨by decide +kernel, rfl, trivial⟩, trivial⟩
  have hwords : (all [.block "/* call the functions */ log(" [.leaf "a|b" 29] 0] ++
      all [.block "/* call the funktion  */ log(" [.leaf "a|b" 29] 0]).all
      (fun t => !t.names true) = true := by
    decide +kernel
  simp only [List.all_eq_true, Bool.not_eq_true'] at hwords
  exact ⟨_, _, hscan, hscan', halike, hwords, (sameDeclaring_iff_literalsAgree halike).2 hwords⟩

/-- One letter of a comment makes a call a declaration, and the expression in it loses its right
side. -/
theorem sameDeclaring_comment_ne : ∃ ts us,
    tokenize "/* call the function */ log(a|b)" = .ok ts ∧
      tokenize "/* call the funktion */ log(a|b)" = .ok us ∧
    AlikeAll ts us ∧ ¬ SameDeclaring ts us ∧
    (checkAndStrip {} ts).1.map (fun t => t.children.map head) = [[utf8 "a"]] ∧
    (checkAndStrip {} us).1.map (fun t => t.children.map head) = [[utf8 "a|b"]] := by
  have hscan : tokenize "/* call the function */ log(a|b)" =
      .ok [.block "/* call the function */ log(" [.leaf "a|b" 28] 0] := by decide +kernel
  have hscan' : tokenize "/* call the funktion */ log(a|b)" =
      .ok [.block "/* call the funktion */ log(" [.leaf "a|b" 28] 0] := by decide +kernel
  have halike : AlikeAll [.block "/* call the function */ log(" [.leaf "a|b" 28] 0]
      [.block "/* call the funktion */ log(" [.leaf "a|b" 28] 0] :=
    ⟨⟨by decide +kernel, rfl, trivial⟩, trivial⟩
  refine ⟨_, _, hscan, hscan', halike, fun hsame => ?_, by decide +kernel, by decide +kernel⟩
  have htop := hsame []
  exact absurd htop (by decide +kernel)

end Token

end TagScript
