import TagScript.Files.Path
import TagScript.Proofs.TagReading

/-!
# Clean paths from the root

Cleaning a path from the root leaves names only: no part is empty, leads to the directory itself or
upwards, or holds a slash. Along names a path goes on without any step back, so joining and going up
are plain list operations there, and lying within a directory is having its names in front.

Whether one path lies within another is read off the text of the way between them, which says `.`,
or starts with a name, just when it does not go up. A name may start with dots, and two names may
start alike, but no name holds a slash, and none is the step up.
-/

namespace TagScript

namespace Bytes

variable {c : UInt8}

/-- Splitting a text in two parts: the last piece of the first part goes on in the second. -/
theorem split_append (c : UInt8) (a b : Bytes) :
    ∃ init last first rest, split c a = init ++ [last] ∧ split c b = first :: rest ∧
      split c (a ++ b) = init ++ (last ++ first) :: rest := by
  obtain ⟨first, rest, hb⟩ := List.exists_cons_of_ne_nil (split_ne_nil c b)
  induction a with
  | nil => exact ⟨[], [], first, rest, rfl, hb, hb⟩
  | cons x a ih =>
    obtain ⟨init, last, first', rest', ha, hb', happend⟩ := ih
    obtain ⟨rfl, rfl⟩ := List.cons.inj (hb.symm.trans hb')
    by_cases hx : x = c
    · exact ⟨[] :: init, last, first, rest, by simp [split, hx, ha], hb,
        by simp [split, hx, happend]⟩
    · cases init with
      | nil =>
        exact ⟨[], x :: last, first, rest, by simp [split, hx, ha], hb,
          by simp [split, hx, happend]⟩
      | cons piece init =>
        exact ⟨(x :: piece) :: init, last, first, rest, by simp [split, hx, ha], hb,
          by simp [split, hx, happend]⟩

/-- No piece holds the separator. -/
theorem not_mem_of_mem_split {text piece : Bytes} (h : piece ∈ split c text) : c ∉ piece := by
  fun_induction split c text generalizing piece with
  | case1 => simp_all
  | case2 text ih =>
    rcases List.mem_cons.1 h with rfl | h
    · exact List.not_mem_nil
    · exact ih h
  | case3 b text hb hnil => exact absurd hnil (split_ne_nil c text)
  | case4 b text hb first rest hsplit ih =>
    rw [hsplit] at ih
    rcases List.mem_cons.1 h with rfl | h
    · exact List.not_mem_cons_of_ne_of_not_mem (Ne.symm hb) (ih List.mem_cons_self)
    · exact ih (List.mem_cons_of_mem _ h)

/-- What is left of a text without its tail stands in front of it. -/
theorem dropTail_prefix (tail text : Bytes) : dropTail tail text <+: text := by
  unfold dropTail
  split
  case h_1 rest hrest =>
    have htext := congrArg List.reverse (eq_append_of_after? hrest)
    exact ⟨tail, by simpa using htext.symm⟩
  case h_2 => exact List.prefix_rfl

end Bytes

/-- Whether a part of a path can be the name of a file. -/
def IsName (part : Bytes) : Prop :=
  part ≠ [] ∧ part ≠ selfName ∧ part ≠ upName ∧ ('/' : Char).toUInt8 ∉ part

instance : DecidablePred IsName := fun _ => inferInstanceAs (Decidable (_ ∧ _ ∧ _ ∧ _))

namespace Path

/-- A clean path from the root: every part is a name. -/
structure IsPlace (p : Path) : Prop where
  rooted : p.rooted = true
  names : ∀ part ∈ p.parts, IsName part

variable {p q : Path}

/-- A name goes one step down. -/
theorem step_of_isName {part : Bytes} (h : IsName part) (rooted : Bool) (walked : List Bytes) :
    step rooted walked part = part :: walked := by
  obtain ⟨hne, hself, hup, -⟩ := h
  simp [step, hne, hself, hup]

/-- Names lead down one by one. -/
theorem foldl_step_of_names {parts : List Bytes} (h : ∀ part ∈ parts, IsName part) (rooted : Bool)
    (walked : List Bytes) : parts.foldl (step rooted) walked = parts.reverse ++ walked := by
  induction parts generalizing walked with
  | nil => rfl
  | cons part parts ih =>
    rw [List.foldl_cons, step_of_isName (h _ List.mem_cons_self),
      ih fun p hp => h p (List.mem_cons_of_mem _ hp)]
    simp

/-- Names are clean. -/
theorem cleanParts_of_names {parts : List Bytes} (h : ∀ part ∈ parts, IsName part) (rooted : Bool) :
    cleanParts rooted parts = parts := by
  simp [cleanParts, foldl_step_of_names h]

/-- Names walked from the root stay names, whatever the next part is. -/
theorem isName_of_mem_step {walked : List Bytes} {part : Bytes}
    (hwalked : ∀ name ∈ walked, IsName name)
    (hpart : ('/' : Char).toUInt8 ∉ part) : ∀ name ∈ step true walked part, IsName name := by
  intro name hname
  unfold step at hname
  split at hname
  case isTrue => exact hwalked _ hname
  case isFalse hplain =>
    split at hname
    case isTrue hup =>
      cases walked with
      | nil => simp at hname
      | cons last before =>
        have hlast : last ≠ upName := (hwalked _ List.mem_cons_self).2.2.1
        simp only [hlast, if_false] at hname
        exact hwalked _ (List.mem_cons_of_mem _ hname)
    case isFalse hup =>
      rcases List.mem_cons.1 hname with rfl | hname
      · simp only [Bool.or_eq_true, List.isEmpty_iff, decide_eq_true_eq, not_or] at hplain
        exact ⟨hplain.1, hplain.2, hup, hpart⟩
      · exact hwalked _ hname

/-- From the root no step leads up, so a clean way from there is made up of names. -/
theorem isName_of_mem_foldl_step {parts walked : List Bytes}
    (hwalked : ∀ name ∈ walked, IsName name)
    (hparts : ∀ part ∈ parts, ('/' : Char).toUInt8 ∉ part) :
    ∀ name ∈ parts.foldl (step true) walked, IsName name := by
  induction parts generalizing walked with
  | nil => exact hwalked
  | cons part parts ih =>
    exact ih (isName_of_mem_step hwalked (hparts _ List.mem_cons_self)) fun p hp =>
      hparts p (List.mem_cons_of_mem _ hp)

/-- A path from the root whose parts hold no slash is clean after cleaning. -/
theorem isPlace_clean (hrooted : p.rooted = true)
    (hparts : ∀ part ∈ p.parts, ('/' : Char).toUInt8 ∉ part) :
    p.clean.IsPlace := by
  refine ⟨hrooted, fun part hpart => ?_⟩
  rw [clean, cleanParts, List.mem_reverse, hrooted] at hpart
  exact isName_of_mem_foldl_step (by simp) hparts part hpart

/-- No part of a place holds a slash. -/
theorem IsPlace.slashless (h : p.IsPlace) : ∀ part ∈ p.parts, ('/' : Char).toUInt8 ∉ part :=
  fun part hpart => (h.names part hpart).2.2.2

/-- A place is clean. -/
theorem IsPlace.clean_eq (h : p.IsPlace) : p.clean = p := by
  rw [clean, cleanParts_of_names h.names]

/-- A place starts at the root. -/
theorem IsPlace.eq_mk (h : p.IsPlace) : p = ⟨true, p.parts⟩ := by
  obtain ⟨rooted, parts⟩ := p
  have hrooted : rooted = true := h.rooted
  rw [hrooted]

/-- The parts that a text spells hold no slash. -/
theorem slashless_ofText (text : Bytes) : ∀ part ∈ (ofText text).parts,
    ('/' : Char).toUInt8 ∉ part := by
  intro part hpart
  unfold ofText at hpart
  split at hpart <;> exact Bytes.not_mem_of_mem_split hpart

/-- A place with a path behind it is a place. -/
theorem IsPlace.join (h : p.IsPlace) (hq : ∀ part ∈ q.parts, ('/' : Char).toUInt8 ∉ part) :
    (p.join q).IsPlace := by
  refine isPlace_clean h.rooted fun part hpart => ?_
  rcases List.mem_append.1 hpart with hpart | hpart
  · exact h.slashless part hpart
  · exact hq part hpart

/-- Going on along names appends them. -/
theorem IsPlace.parts_join (h : p.IsPlace) (hq : ∀ part ∈ q.parts, IsName part) :
    (p.join q).parts = p.parts ++ q.parts := by
  refine cleanParts_of_names (fun part hpart => ?_) _
  rcases List.mem_append.1 hpart with hpart | hpart
  · exact h.names part hpart
  · exact hq part hpart

/-- A path is read from a place as a place, whether it starts there or at the root. -/
theorem IsPlace.absolute {here : Path} (h : here.IsPlace) (text : Bytes) :
    ((ofText text).absolute here).IsPlace := by
  unfold Path.absolute
  split
  case isTrue hrooted => exact isPlace_clean hrooted (slashless_ofText text)
  case isFalse => exact h.join (slashless_ofText text)

/-- The directory that holds a place has the names before the last one. -/
theorem IsPlace.directory_eq (h : p.IsPlace) : p.directory = ⟨true, p.parts.dropLast⟩ := by
  have hnames : ∀ part ∈ p.parts.dropLast, IsName part := fun part hpart =>
    h.names part (List.mem_of_mem_dropLast hpart)
  rw [directory, clean, cleanParts_of_names hnames, h.rooted]

/-- The way out of names is known. -/
theorem wayOver?_of_names {start : List Bytes} (h : ∀ part ∈ start, IsName part)
    (goal : List Bytes) :
    wayOver? start goal = some (start.map (fun _ => upName) ++ goal) := by
  refine if_neg fun hhead => ?_
  exact (h upName (List.mem_of_mem_head? hhead)).2.2.1 rfl

/-- The way to what lies within a place goes on along its names, and any other way starts with a
step up. -/
theorem wayParts?_cases {start : List Bytes} (hstart : ∀ part ∈ start, IsName part)
    (goal : List Bytes) : (∃ way, wayParts? start goal = some way ∧ goal = start ++ way) ∨
      ¬ start <+: goal ∧ ∃ way, wayParts? start goal = some (upName :: way) := by
  fun_induction wayParts? start goal with
  | case1 goal rest more ih =>
    have hrest := ih fun part hpart => hstart part (List.mem_cons_of_mem _ hpart)
    rw [List.cons_prefix_cons]
    simpa using hrest
  | case2 start rest goal more hne =>
    exact .inr ⟨fun hpre => hne (List.cons_prefix_cons.1 hpre).1, _, wayOver?_of_names hstart _⟩
  | case3 start goal hnot =>
    cases start with
    | nil => exact .inl ⟨goal, wayOver?_of_names hstart goal, rfl⟩
    | cons first rest =>
      cases goal with
      | nil =>
        have hnot : ¬ first :: rest <+: [] := fun hpre => nomatch List.prefix_nil.1 hpre
        exact .inr ⟨hnot, _, wayOver?_of_names hstart []⟩
      | cons next more => exact absurd rfl (hnot first rest next more rfl)

/-- A way that starts with a step up says so by its text. -/
theorem staysInside_up (rest : List Bytes) :
    staysInside (text ⟨false, upName :: rest⟩) = false := by
  cases rest with
  | nil => decide
  | cons next rest =>
    have htext : text ⟨false, upName :: next :: rest⟩ = utf8 "../" ++
        Bytes.join "/" (next :: rest) := by
      rw [text, Bytes.join, List.intercalate_cons_cons]
      rfl
    rw [htext]
    rfl

/-- A way along names says by its text that it does not go up. -/
theorem staysInside_names {parts : List Bytes} (h : ∀ part ∈ parts, IsName part) :
    staysInside (text ⟨false, parts⟩) = true := by
  by_cases hnil : parts = []
  · subst hnil
    decide
  have htext : text ⟨false, parts⟩ = Bytes.join [Char.toUInt8 '/'] parts := by
    rw [text, if_neg Bool.false_ne_true, if_neg (by simpa using hnil)]
    rfl
  have hsplit : Bytes.split (Char.toUInt8 '/') (text ⟨false, parts⟩) = parts := by
    rw [htext]
    exact Bytes.split_join hnil fun part hpart => (h part hpart).2.2.2
  -- a text that is or starts with the step up is split into parts of which the first is the step up
  have hfirst : parts.head? ≠ some upName := by
    intro hhead
    exact (h upName (List.mem_of_mem_head? hhead)).2.2.1 rfl
  rw [staysInside, Bool.or_eq_true]
  refine .inr (Bool.and_eq_true_iff.2 ⟨decide_eq_true fun hup => hfirst ?_, ?_⟩)
  · rw [← hsplit, hup]
    decide
  · rw [Bool.not_eq_true', Bool.eq_false_iff]
    intro hstart
    obtain ⟨rest, hrest⟩ := Option.isSome_iff_exists.1 hstart
    refine hfirst ?_
    rw [← hsplit, Bytes.eq_append_of_after? hrest]
    rfl

/-- The way to a place below another one goes on along its names. -/
theorem IsPlace.wayText?_eq (hp : p.IsPlace) (hq : q.IsPlace) {rest : List Bytes}
    (h : q.parts = p.parts ++ rest) : wayText? p q = some (text ⟨false, rest⟩) := by
  rw [wayText?, if_pos (hp.rooted.trans hq.rooted.symm), hp.clean_eq, hq.clean_eq]
  rcases wayParts?_cases hp.names q.parts with ⟨way, hway, hparts⟩ | ⟨hnot, -⟩
  · obtain rfl := List.append_cancel_left (h.symm.trans hparts)
    rw [hway, Option.map_some]
  · exact absurd ⟨rest, h.symm⟩ hnot

/-- A place lies within a directory when it has the names of the directory in front. -/
theorem IsPlace.within_iff (hp : p.IsPlace) (hq : q.IsPlace) :
    q.within p ↔ p.parts <+: q.parts := by
  constructor
  · intro h
    by_contra hnot
    rw [within, wayText?, if_pos (hp.rooted.trans hq.rooted.symm), hp.clean_eq, hq.clean_eq] at h
    rcases wayParts?_cases hp.names q.parts with ⟨way, -, hparts⟩ | ⟨-, way, hway⟩
    · exact hnot ⟨way, hparts.symm⟩
    · rw [hway, Option.map_some, Option.any_some, staysInside_up] at h
      exact Bool.false_ne_true h
  · rintro ⟨rest, hrest⟩
    rw [within, hp.wayText?_eq hq hrest.symm, Option.any_some]
    exact staysInside_names fun part hpart => hq.names part (hrest ▸ List.mem_append_right _ hpart)

end Path

end TagScript
