import TagScript.Proofs.ArgumentSplitting
import TagScript.Proofs.LiteralWords
import TagScript.Proofs.LoopClauses

/-!
# Where the arguments of a call stand

The arguments of a call are split out of the texts of its leaves, joined with line breaks, and
then searched for in these texts one after the other, each behind the one before. What stands
between two arguments is a gap of white space and commas. No argument starts with a comma or with
white space, so a search does not stop inside a gap, unless the argument starts with bytes that are
no code point: a lone byte may be found inside a white space character of several bytes.

`Argument.Stands` says where the arguments are in the leaves. A search keeps it, one argument at a
time, and the layout of the script carries it over to the script. In valid UTF-8 every argument
is found at its own place.
-/

namespace TagScript

open Bytes Token Scan

namespace Utf8

/-- Whether a piece of a text is a byte that belongs to no code point. -/
def Piece.isStray : Piece → Bool
  | .point _ => false
  | .stray _ => true

/-- The bytes of a text that belong to no code point. -/
def strays (text : Bytes) : List Piece := ((pieces text).map Prod.fst).filter Piece.isStray

/-- Whether a text does not start with a byte that belongs to no code point. -/
def startsWhole : Bytes → Bool
  | [] => true
  | c :: rest => !(front c rest).1.isStray

/-- Nothing strays in an empty text. -/
@[simp] theorem strays_nil : strays [] = [] := by
  rw [strays, pieces]
  rfl

/-- The first piece of a text and those behind it. -/
theorem strays_cons (c : UInt8) (rest : Bytes) :
    strays (c :: rest) = [(front c rest).1].filter Piece.isStray ++
      strays (rest.drop (front c rest).2) := by
  rw [strays, pieces, List.map_cons, ← List.singleton_append, List.filter_append, strays]

/-- Nothing is stray in valid UTF-8. -/
theorem strays_of_isValid {text : Bytes} (h : isValid text = true) : strays text = [] := by
  rw [strays, List.filter_eq_nil_iff]
  intro piece hpiece
  obtain ⟨⟨piece, bytes⟩, hmem, rfl⟩ := List.mem_map.1 hpiece
  have hpoint := List.all_eq_true.1 h _ hmem
  cases piece with
  | point => exact Bool.false_ne_true
  | stray => cases hpoint

/-- A text without stray bytes starts with a code point. -/
theorem startsWhole_of_strays {text : Bytes} (h : strays text = []) : startsWhole text = true := by
  cases text with
  | nil => rfl
  | cons c rest =>
    rw [strays_cons, List.append_eq_nil_iff, List.filter_eq_nil_iff] at h
    simpa [startsWhole] using h.1 _ (List.mem_singleton_self _)

/-- A text is cut in front of anything but a continuation byte. -/
theorem strays_append {text more : Bytes} (h : IsCut more) :
    strays (text ++ more) = strays text ++ strays more := by
  induction text using pieceInduction with
  | nil => simp
  | cons c rest ih =>
    rw [List.cons_append, strays_cons, strays_cons, front_append h, List.append_assoc, ← ih,
      List.drop_append_of_le_length (front_snd_le c rest)]

/-- An ASCII byte is a code point. -/
theorem strays_ascii {c : UInt8} (h : c < 0x80) (rest : Bytes) :
    strays (c :: rest) = strays rest := by
  have hfront : front c rest = (.point c.toNat, 0) := by simp [front, h]
  rw [strays_cons, hfront]
  rfl

/-- An ASCII byte divides a text. -/
theorem strays_append_ascii {c : UInt8} (h : c < 0x80) (text rest : Bytes) :
    strays (text ++ c :: rest) = strays text ++ strays rest := by
  rw [strays_append (isCut_ascii h rest), strays_ascii h]

/-- White space is read as one code point. -/
theorem front_of_spacePoint {c : UInt8} {more : Bytes} (h : SpacePoint (c :: more)) (rest : Bytes) :
    ∃ value, front c (more ++ rest) = (.point value, more.length) := by
  cases h with
  | one h =>
    have hascii : c < 0x80 := by
      have hspace : ∀ c, isAsciiSpace c = true → c < 0x80 := by decide +kernel
      exact hspace c h
    exact ⟨c.toNat, by simp [front, hascii]⟩
  | @two a b h =>
    simp only [isSpacePair, Bool.and_eq_true, Bool.or_eq_true, decide_eq_true_eq] at h
    obtain ⟨rfl, rfl | rfl⟩ := h <;> exact ⟨_, rfl⟩
  | @three a b d h =>
    obtain ⟨ha, n, hthree, -⟩ := three?_of_isSpaceTriple h
    have hascii : ¬ c < 0x80 := UInt8.not_lt.2 (UInt8.le_trans (by decide) ha)
    have htwo : two? c b = none := by
      simp only [two?, UInt8.le_iff_toNat_le, UInt8.reduceToNat, ite_eq_right_iff, Bool.and_eq_true,
        decide_eq_true_eq] at ha ⊢
      omega
    exact ⟨n, by simp [front, hascii, htwo, hthree]⟩

/-- White space holds no stray bytes. -/
theorem strays_point_append {point : Bytes} (h : SpacePoint point) (rest : Bytes) :
    strays (point ++ rest) = strays rest := by
  obtain ⟨c, more, rfl⟩ := List.exists_cons_of_ne_nil h.ne_nil
  obtain ⟨value, hfront⟩ := front_of_spacePoint h rest
  rw [List.cons_append, strays_cons, hfront, List.drop_left]
  rfl

/-- Trimming takes no stray bytes away. -/
theorem strays_trim (text : Bytes) : strays (trim text) = strays text := by
  induction text using trimInduction with
  | keep text hkeep => rw [hkeep]
  | front point rest hpoint ih => rw [hpoint.trim_append, ih, strays_point_append hpoint]
  | back point lead hpoint ih =>
    have hcut := hpoint.isCut []
    have hnone := strays_point_append hpoint []
    rw [List.append_nil] at hcut hnone
    rw [hpoint.trim_append_right, ih, strays_append hcut, hnone, strays_nil, List.append_nil]

/-- A continuation byte starts no code point. -/
theorem startsWhole_of_isContinuation {c : UInt8} (h : isContinuation c = true) (rest : Bytes) :
    startsWhole (c :: rest) = false := by
  simp only [isContinuation, Bool.and_eq_true, decide_eq_true_eq, UInt8.le_iff_toNat_le,
    UInt8.reduceToNat] at h
  have hascii : ¬ c < 0x80 := UInt8.not_lt.2 (UInt8.le_iff_toNat_le.2 h.1)
  have htwo : ∀ b, two? c b = none := by
    intro b
    simp only [two?, UInt8.le_iff_toNat_le, UInt8.reduceToNat, ite_eq_right_iff,
      Bool.and_eq_true, decide_eq_true_eq]
    omega
  have hthree : ∀ b d, three? c b d = none := by
    intro b d
    simp only [three?, UInt8.le_iff_toNat_le, UInt8.reduceToNat, ite_eq_right_iff,
      Bool.and_eq_true, decide_eq_true_eq]
    omega
  have hfour : ∀ b d e, four? c b d e = none := by
    intro b d e
    simp only [four?, UInt8.le_iff_toNat_le, UInt8.reduceToNat, ite_eq_right_iff,
      Bool.and_eq_true, decide_eq_true_eq]
    omega
  rcases rest with _ | ⟨b, _ | ⟨d, _ | ⟨e, rest⟩⟩⟩
  · simp [startsWhole, front, hascii, Piece.isStray]
  · simp [startsWhole, front, hascii, htwo, Piece.isStray]
  · simp [startsWhole, front, hascii, htwo, hthree, Piece.isStray]
  · simp [startsWhole, front, hascii, htwo, hthree, hfour, Piece.isStray]

/-- The front part of a white space code point is none. -/
theorem startsWhole_of_append {text c} {more : Bytes} (h : SpacePoint (text ++ c :: more))
    (hne : text ≠ []) :
    startsWhole text = false := by
  generalize hpoint : text ++ c :: more = point at h
  cases h with
  | one h =>
    have hlength := congrArg List.length hpoint
    rw [List.length_append, List.length_cons, List.length_singleton] at hlength
    exact absurd (List.length_eq_zero_iff.1 (by omega)) hne
  | @two a b h =>
    simp only [isSpacePair, Bool.and_eq_true, Bool.or_eq_true, decide_eq_true_eq] at h
    obtain ⟨rfl, -⟩ := h
    rcases text with _ | ⟨first, _ | ⟨second, rest⟩⟩
    · exact absurd rfl hne
    · obtain ⟨rfl, -⟩ := List.cons.inj hpoint
      rfl
    · simp at hpoint
  | @three a b d h =>
    obtain ⟨ha, -⟩ := three?_of_isSpaceTriple h
    have hascii : ¬ a < 0x80 := UInt8.not_lt.2 (UInt8.le_trans (by decide) ha)
    have htwo : two? a b = none := by
      simp only [two?, UInt8.le_iff_toNat_le, UInt8.reduceToNat, ite_eq_right_iff, Bool.and_eq_true,
        decide_eq_true_eq] at ha ⊢
      omega
    rcases text with _ | ⟨first, _ | ⟨second, _ | ⟨third, rest⟩⟩⟩
    · exact absurd rfl hne
    · obtain ⟨rfl, -⟩ := List.cons.inj hpoint
      simp [startsWhole, front, hascii, Piece.isStray]
    · obtain ⟨rfl, hbehind⟩ := List.cons.inj hpoint
      rw [(List.cons.inj hbehind).1]
      simp [startsWhole, front, hascii, htwo, Piece.isStray]
    · simp at hpoint

end Utf8

/-- The tokens of a script have its stray bytes. -/
theorem faithful_strays : Faithful Utf8.strays where
  nil := Utf8.strays_nil
  trim := Utf8.strays_trim
  separated _ hend := Utf8.strays_append_ascii hend.lt _ _
  block := by
    intro _ text inside after bracket _ _
    rw [Utf8.strays_append_ascii bracket.opener_ascii.1,
      Utf8.strays_append_ascii bracket.opener_ascii.1,
      Utf8.strays_append_ascii bracket.closer_ascii, Utf8.strays_ascii bracket.closer_ascii]
    simp

/-- What a text does not occur in front of is passed over by a search. -/
theorem Bytes.find?_append {part lead rest : Bytes}
    (h : ∀ front back, lead = front ++ back → back ≠ [] → startsWith (back ++ rest) part = false) :
    find? part (lead ++ rest) = (find? part rest).map (· + lead.length) := by
  induction lead with
  | nil => simp
  | cons c lead ih =>
    have hstart := h [] (c :: lead) rfl (List.cons_ne_nil _ _)
    rw [List.cons_append] at hstart
    rw [List.cons_append, find?, hstart, if_neg Bool.false_ne_true,
      ih fun front back heq => h (c :: front) back (by rw [heq, List.cons_append]), Option.map_map]
    rfl

namespace Argument

/-- White space and commas. -/
inductive Gap : Bytes → Prop where
  | nil : Gap []
  | space {point rest : Bytes} (hpoint : SpacePoint point) (hrest : Gap rest) : Gap (point ++ rest)
  | comma {rest : Bytes} (hrest : Gap rest) : Gap (Char.toUInt8 ',' :: rest)

namespace Gap

variable {gap text more : Bytes}

/-- Two gaps one behind the other make one. -/
theorem append (h : Gap text) (hmore : Gap more) : Gap (text ++ more) := by
  induction h with
  | nil => exact hmore
  | space hpoint _ ih =>
    rw [List.append_assoc]
    exact .space hpoint ih
  | comma _ ih => exact .comma ih

/-- A gap is cut behind any ASCII byte. -/
theorem split_ascii {c : UInt8} (h : Gap (text ++ c :: more)) (hc : c < 0x80) :
    Gap text ∧ Gap more := by
  generalize hgap : text ++ c :: more = gap at h
  induction h generalizing text with
  | nil => simp at hgap
  | @space point rest hpoint hrest ih =>
    obtain ⟨after, hpointEq, hafter⟩ | ⟨after, rfl, hafter⟩ := List.append_eq_append_iff.1 hgap
    · cases after with
      | nil =>
        rw [List.nil_append] at hafter
        obtain ⟨-, hmore⟩ := ih ((List.nil_append _).trans hafter)
        rw [List.append_nil] at hpointEq
        rw [← hpointEq, ← List.append_nil point]
        exact ⟨.space hpoint .nil, hmore⟩
      | cons d after =>
        obtain ⟨rfl, rfl⟩ := List.cons.inj hafter
        have hsingle := hpoint.eq_singleton (by rw [hpointEq]; simp) hc
        rw [hpointEq] at hsingle
        obtain ⟨rfl, hrestEq⟩ : text = [] ∧ after = [] := by
          have hlength := congrArg List.length hsingle
          rw [List.length_append, List.length_cons, List.length_singleton] at hlength
          exact ⟨List.length_eq_zero_iff.1 (by omega), List.length_eq_zero_iff.1 (by omega)⟩
        rw [hrestEq]
        exact ⟨.nil, hrest⟩
    · obtain ⟨htext, hmore⟩ := ih hafter.symm
      exact ⟨.space hpoint htext, hmore⟩
  | @comma rest hrest ih =>
    cases text with
    | nil =>
      obtain ⟨-, rfl⟩ := List.cons.inj hgap
      exact ⟨.nil, hrest⟩
    | cons d text =>
      obtain ⟨rfl, hbehind⟩ := List.cons.inj hgap
      obtain ⟨htext, hmore⟩ := ih hbehind
      exact ⟨.comma htext, hmore⟩

/-- What follows the first byte of a gap is a gap, if that is an ASCII byte. -/
theorem of_cons {c : UInt8} (h : Gap (c :: more)) (hc : c < 0x80) : Gap more := by
  rw [← List.nil_append (c :: more)] at h
  exact (h.split_ascii hc).2

/-- A gap is cut in front of a line break. -/
theorem split_line (h : Gap (text ++ more)) (hmore : ∀ c ∈ more.head?, c = Char.toUInt8 '\n') :
    Gap text ∧ Gap more := by
  cases more with
  | nil =>
    rw [List.append_nil] at h
    exact ⟨h, .nil⟩
  | cons c more =>
    obtain rfl := hmore c rfl
    obtain ⟨htext, hrest⟩ := h.split_ascii (by decide)
    have hpoint : SpacePoint [Char.toUInt8 '\n'] := .one (by decide)
    exact ⟨htext, .space hpoint hrest⟩

/-- A gap does not start with a continuation byte. -/
theorem isCut_append (h : Gap gap) (hrest : Utf8.IsCut more) : Utf8.IsCut (gap ++ more) := by
  cases h with
  | nil => exact hrest
  | space hpoint =>
    rw [List.append_assoc]
    exact hpoint.isCut _
  | comma => exact isCut_ascii (by decide) _

/-- A text is cut behind a gap. -/
theorem spaceMask_append (h : Gap gap) (rest : Bytes) :
    spaceMask (gap ++ rest) = spaceMask gap ++ spaceMask rest := by
  induction h with
  | nil => simp
  | space hpoint _ ih =>
    rw [List.append_assoc, hpoint.spaceMask_append, hpoint.spaceMask_append, ih, List.append_assoc]
  | comma _ ih =>
    rw [List.cons_append, spaceMask_ascii (by decide), spaceMask_ascii (by decide),
      ih, List.cons_append]

/-- A gap holds no stray bytes. -/
theorem strays_append (h : Gap gap) (rest : Bytes) :
    Utf8.strays (gap ++ rest) = Utf8.strays rest := by
  induction h with
  | nil => rfl
  | space hpoint _ ih => rw [List.append_assoc, Utf8.strays_point_append hpoint, ih]
  | comma _ ih => rw [List.cons_append, Utf8.strays_ascii (by decide), ih]

/-- The bytes of a gap are commas, or can belong to white space. -/
theorem isSpaceByte (h : Gap gap) : ∀ c ∈ gap, IsSpaceByte c ∨ c = Char.toUInt8 ',' := by
  induction h with
  | nil => simp
  | space hpoint _ ih =>
    rw [List.forall_mem_append]
    exact ⟨fun c hc => .inl (hpoint.isSpaceByte c hc), ih⟩
  | comma _ ih =>
    rw [List.forall_mem_cons]
    exact ⟨.inr rfl, ih⟩

end Gap

/-- What is trimmed at the end of a text is a gap. -/
theorem exists_gap_trimEnd (text : Bytes) : ∃ tail, text = trimEnd text ++ tail ∧ Gap tail := by
  induction text using trimEndInduction with
  | keep text hkeep => exact ⟨[], by rw [hkeep, List.append_nil], .nil⟩
  | drop point lead hpoint ih =>
    obtain ⟨tail, hlead, htail⟩ := ih
    refine ⟨tail ++ (point ++ []), ?_, htail.append (.space hpoint .nil)⟩
    rw [hpoint.trimEnd_append, ← List.append_assoc, ← hlead, List.append_nil]

/-- A text is trimmed by two gaps. -/
theorem exists_gaps (text : Bytes) : ∃ lead tail, text = lead ++ (trim text ++ tail) ∧
    lead.length + (trimStart text).length = text.length ∧ Gap lead ∧ Gap tail := by
  induction text using trimStartInduction with
  | keep text hkeep =>
    obtain ⟨tail, htext, htail⟩ := exists_gap_trimEnd text
    exact ⟨[], tail, by rw [trim, hkeep]; exact htext,
      by rw [hkeep]; exact Nat.zero_add _, .nil, htail⟩
  | drop point rest hpoint ih =>
    obtain ⟨lead, tail, hrest, hlength, hlead, htail⟩ := ih
    refine ⟨point ++ lead, tail, ?_, ?_, .space hpoint hlead, htail⟩
    · rw [hpoint.trim_append, List.append_assoc, ← hrest]
    · rw [hpoint.trimStart_append, List.length_append, List.length_append]
      omega

/-- What an argument is: it starts neither with white space nor with a comma. -/
structure Sought (argument : Bytes) : Prop where
  ne_nil : argument ≠ []
  trimStart : trimStart argument = argument
  comma : argument.head? ≠ some (Char.toUInt8 ',')

/-- An argument that starts with a code point is not found in white space. -/
theorem Sought.find?_point {argument point : Bytes} (h : Sought argument)
    (hwhole : Utf8.startsWhole argument = true) (hpoint : SpacePoint point) (rest : Bytes) :
    find? argument (point ++ rest) = (find? argument rest).map (· + point.length) := by
  apply find?_append
  intro front back hback hne
  rw [← Bool.not_eq_true]
  intro hstart
  obtain ⟨more, hmore⟩ := Option.isSome_iff_exists.1 hstart
  have heq : back ++ rest = argument ++ more := eq_append_of_after? hmore
  obtain ⟨c, tail, rfl⟩ := List.exists_cons_of_ne_nil hne
  cases front with
  | nil =>
    -- the argument starts with the code point, or it is a part of it
    rw [List.nil_append] at hback
    rw [← hback] at heq
    obtain ⟨after, hafter, -⟩ | ⟨after, hafter, -⟩ := List.append_eq_append_iff.1 heq
    · exact absurd h.trimStart (hafter ▸ hpoint.trimStart_ne after)
    · cases after with
      | nil =>
        rw [List.append_nil] at hafter
        have hself := hpoint.trimStart_ne []
        rw [List.append_nil, hafter] at hself
        exact hself h.trimStart
      | cons d after =>
        rw [hafter] at hpoint
        rw [Utf8.startsWhole_of_append hpoint h.ne_nil] at hwhole
        cases hwhole
  | cons d front =>
    have hcontinues := (hback ▸ hpoint).isContinuation (List.cons_ne_nil d front)
    obtain ⟨first, others, hargument⟩ := List.exists_cons_of_ne_nil h.ne_nil
    rw [hargument, List.cons_append, List.cons_append] at heq
    rw [hargument, ← (List.cons.inj heq).1, Utf8.startsWhole_of_isContinuation hcontinues] at hwhole
    cases hwhole

/-- An argument that starts with a code point is not found in a gap. -/
theorem Sought.find?_gap {argument gap : Bytes} (h : Sought argument)
    (hwhole : Utf8.startsWhole argument = true) (hgap : Gap gap) (rest : Bytes) :
    find? argument (gap ++ rest) = (find? argument rest).map (· + gap.length) := by
  induction hgap with
  | nil => simp
  | @space point gap hpoint _ ih =>
    rw [List.append_assoc, h.find?_point hwhole hpoint, ih, Option.map_map, List.length_append]
    congr 1
    funext n
    exact (Nat.add_assoc ..).trans (congrArg (n + ·) (Nat.add_comm ..))
  | @comma gap _ ih =>
    have hstart : startsWith (Char.toUInt8 ',' :: (gap ++ rest)) argument = false := by
      obtain ⟨first, others, rfl⟩ := List.exists_cons_of_ne_nil h.ne_nil
      have hfirst : first ≠ Char.toUInt8 ',' := fun hfirst => h.comma (congrArg some hfirst)
      rw [startsWith, after?, if_neg hfirst]
      rfl
    rw [List.cons_append, find?, hstart, if_neg Bool.false_ne_true, ih, Option.map_map]
    rfl

/-- Behind a gap an argument is found at its own place. -/
theorem Sought.find?_self {argument gap : Bytes} (h : Sought argument)
    (hwhole : Utf8.startsWhole argument = true) (hgap : Gap gap) (more : Bytes) :
    find? argument (gap ++ (argument ++ more)) = some gap.length := by
  have hstart : startsWith (argument ++ more) argument = true := by
    rw [startsWith, after?_append_self, Option.isSome_some]
  have hfirst : find? argument (argument ++ more) = some 0 := by
    obtain ⟨first, others, rfl⟩ := List.exists_cons_of_ne_nil h.ne_nil
    rw [List.cons_append, find?, ← List.cons_append, hstart, if_pos rfl]
  rw [h.find?_gap hwhole hgap, hfirst, Option.map_some, Nat.zero_add]

/-- Where arguments stand in leaves, one behind the other, with gaps around them. A leaf is given by
what is left of its text and where that starts. -/
inductive Stands : List (Bytes × Nat) → List (Bytes × Nat) → Prop where
  | nil : Stands [] []
  | skip {gap : Bytes} {start : Nat} {leaves placed : List (Bytes × Nat)} (hgap : Gap gap)
      (hrest : Stands leaves placed) : Stands ((gap, start) :: leaves) placed
  | found {gap argument more : Bytes} {start : Nat} {leaves placed : List (Bytes × Nat)}
      (hgap : Gap gap) (hargument : Sought argument) (hmore : Utf8.IsCut more)
      (hrest : Stands ((more, start + (gap.length + argument.length)) :: leaves) placed) :
      Stands ((gap ++ (argument ++ more), start) :: leaves)
        ((argument, start + gap.length) :: placed)

/-- Arguments that stand in leaves start neither with white space nor with a comma. -/
theorem Stands.sought {leaves placed : List (Bytes × Nat)} (h : Stands leaves placed) :
    ∀ entry ∈ placed, Sought entry.1 := by
  induction h with
  | nil => simp
  | skip _ _ ih => exact ih
  | found _ hargument _ _ ih =>
    rw [List.forall_mem_cons]
    exact ⟨hargument, ih⟩

/-- One search finds the first argument at its place, and the others stand in what is left. -/
theorem Stands.locateArgument_eq {leaves placed : List (Bytes × Nat)}
    {argument : Bytes} {offset : Nat} (h : Stands leaves ((argument, offset) :: placed))
    (hwhole : Utf8.startsWhole argument = true) :
    ∃ rest, locateArgument argument leaves = (some offset, rest) ∧ Stands rest placed := by
  have hsought : Sought argument := h.sought _ (List.mem_cons_self ..)
  generalize hplaced : (argument, offset) :: placed = all at h
  induction h with
  | nil => cases hplaced
  | @skip gap start leaves all hgap hrest ih =>
    obtain ⟨rest, hlocate, hstands⟩ := ih hplaced
    have hnone : find? argument gap = none := by
      have hgapOnly := hsought.find?_gap hwhole hgap []
      rw [List.append_nil, find?, if_neg (by simpa using hsought.ne_nil)] at hgapOnly
      exact hgapOnly
    exact ⟨rest, by rw [locateArgument, hnone]; exact hlocate, hstands⟩
  | @found gap other more start leaves others hgap hargument hmore hrest =>
    obtain ⟨hfirst, rfl⟩ := List.cons.inj hplaced
    obtain ⟨rfl, rfl⟩ := Prod.mk.inj hfirst
    refine ⟨_, ?_, hrest⟩
    have hleft : (gap ++ (argument ++ more)).drop (gap.length + argument.length) = more := by
      rw [← List.append_assoc, ← List.length_append, List.drop_left]
    rw [locateArgument, hargument.find?_self hwhole hgap]
    dsimp only
    rw [hleft]

/-- All searches together find the arguments that are not empty at their places. -/
theorem Stands.argumentOffsets_eq {leaves placed : List (Bytes × Nat)} {arguments : List Bytes}
    (h : Stands leaves placed) (harguments : arguments.filter (!·.isEmpty) = placed.map Prod.fst)
    (hwhole : ∀ entry ∈ placed, Utf8.startsWhole entry.1 = true) (fallback : Nat) :
    (arguments.zip (argumentOffsets fallback arguments leaves)).filter (!·.1.isEmpty) = placed := by
  induction arguments generalizing leaves placed with
  | nil =>
    rw [List.filter_nil] at harguments
    rw [List.map_eq_nil_iff.1 harguments.symm]
    rfl
  | cons argument arguments ih =>
    rw [argumentOffsets]
    by_cases hempty : argument.isEmpty = true
    · rw [List.filter_cons_of_neg (by simp [hempty])] at harguments
      rw [if_pos hempty, List.zip_cons_cons, List.filter_cons_of_neg (by simp [hempty])]
      exact ih h harguments hwhole
    · rw [List.filter_cons_of_pos (by simp [hempty])] at harguments
      obtain ⟨⟨first, offset⟩, others, rfl, hfirst, hothers⟩ :=
        List.map_eq_cons_iff.1 harguments.symm
      obtain rfl : first = argument := hfirst
      rw [List.forall_mem_cons] at hwhole
      obtain ⟨rest, hlocate, hrest⟩ := h.locateArgument_eq hwhole.1
      rw [if_neg hempty, hlocate]
      dsimp only
      rw [Option.getD_some, List.zip_cons_cons, List.filter_cons_of_pos (by simp [hempty]),
        ih hrest hothers.symm hwhole.2]

/-- Where arguments stand in a text that starts at `position`, one behind the other, with gaps
around them. -/
inductive Laid : Nat → Bytes → List (Bytes × Nat) → Prop where
  | gap {position : Nat} {text : Bytes} (hgap : Gap text) : Laid position text []
  | argument {position : Nat} {gap argument more : Bytes} {placed : List (Bytes × Nat)}
      (hgap : Gap gap) (hargument : Sought argument) (hmore : Utf8.IsCut more)
      (hrest : Laid (position + (gap.length + argument.length)) more placed) :
      Laid position (gap ++ (argument ++ more)) ((argument, position + gap.length) :: placed)

/-- Where texts end that are joined with line breaks. The first one starts at `position`. -/
def breaks (position : Nat) : List Bytes → List Nat
  | [] => []
  | text :: texts => (position + text.length) :: breaks (position + text.length + 1) texts

namespace Laid

variable {position : Nat} {text lead : Bytes} {placed : List (Bytes × Nat)}

/-- A gap may stand in front of all. -/
theorem gap_append (h : Laid (position + lead.length) text placed) (hlead : Gap lead) :
    Laid position (lead ++ text) placed := by
  cases h with
  | gap hgap => exact .gap (hlead.append hgap)
  | @argument _ gap argument more placed hgap hargument hmore hrest =>
    have hstart : position + lead.length + gap.length = position + (lead ++ gap).length := by
      rw [List.length_append, Nat.add_assoc]
    have hbehind : position + lead.length + (gap.length + argument.length) =
        position + ((lead ++ gap).length + argument.length) := by
      rw [List.length_append]
      omega
    rw [hbehind] at hrest
    rw [hstart, ← List.append_assoc]
    exact .argument (hlead.append hgap) hargument hmore hrest

/-- A line break in front of all may be left out. -/
theorem drop_line (h : Laid position (Char.toUInt8 '\n' :: text) placed) :
    Laid (position + 1) text placed := by
  generalize hline : Char.toUInt8 '\n' :: text = whole at h
  have hascii : Char.toUInt8 '\n' < 0x80 := by decide
  cases h with
  | gap hgap =>
    subst hline
    exact .gap (hgap.of_cons hascii)
  | @argument _ gap argument more placed hgap hargument hmore hrest =>
    cases gap with
    | nil =>
      obtain ⟨first, others, rfl⟩ := List.exists_cons_of_ne_nil hargument.ne_nil
      obtain ⟨rfl, -⟩ := List.cons.inj hline
      have hpoint : SpacePoint [Char.toUInt8 '\n'] := .one (by decide)
      exact absurd hargument.trimStart (hpoint.trimStart_ne others)
    | cons c gap =>
      obtain ⟨rfl, rfl⟩ := List.cons.inj hline
      have hstart : position + (Char.toUInt8 '\n' :: gap).length = position + 1 + gap.length := by
        rw [List.length_cons]
        omega
      have hbehind : position + ((Char.toUInt8 '\n' :: gap).length + argument.length) =
          position + 1 + (gap.length + argument.length) := by
        rw [List.length_cons]
        omega
      rw [hbehind] at hrest
      rw [hstart]
      exact .argument (hgap.of_cons hascii) hargument hmore hrest

/-- The arguments of a text and what follows it, on a line of its own, are those of the text and
those that follow, if none of them reaches from the one into the other. -/
theorem split {tail : Bytes} (h : Laid position (text ++ tail) placed)
    (htail : ∀ c ∈ tail.head?, c = Char.toUInt8 '\n') (hbreak : ∀ entry ∈ placed,
      ¬ (entry.2 ≤ position + text.length ∧ position + text.length < entry.2 + entry.1.length))
    (start : Nat) :
    ∃ first others, placed = first ++ others ∧ Laid (position + text.length) tail others ∧
      ∀ {leaves entries : List (Bytes × Nat)}, Stands leaves entries → ∃ found,
        found.map Prod.fst = first.map Prod.fst ∧
        Stands ((text, start) :: leaves) (found ++ entries) := by
  generalize hwhole : text ++ tail = whole at h
  induction h generalizing text start with
  | gap hgap =>
    obtain ⟨htext, hrest⟩ := (hwhole ▸ hgap).split_line htail
    exact ⟨[], [], rfl, .gap hrest, fun hstands => ⟨[], rfl, .skip htext hstands⟩⟩
  | @argument position gap argument more placed hgap hargument hmore hrest ih =>
    obtain ⟨after, rfl, rfl⟩ | ⟨after, rfl, hafter⟩ := List.append_eq_append_iff.1 hwhole
    · -- the text ends within the gap, and the argument stands behind it
      have hline : ∀ c ∈ after.head?, c = Char.toUInt8 '\n' := fun c hc => htail c (by
        rw [Option.mem_def] at hc ⊢
        rw [List.head?_append, hc]
        rfl)
      obtain ⟨htext, hgapBehind⟩ := hgap.split_line hline
      refine ⟨[], _, rfl, ?_, fun hstands => ⟨[], rfl, .skip htext hstands⟩⟩
      have hstart : position + (text ++ after).length = position + text.length + after.length := by
        rw [List.length_append, Nat.add_assoc]
      have hbehind : position + ((text ++ after).length + argument.length) =
          position + text.length + (after.length + argument.length) := by
        rw [List.length_append]
        omega
      rw [hbehind] at hrest
      rw [hstart]
      exact .argument hgapBehind hargument hmore hrest
    · rw [List.forall_mem_cons] at hbreak
      -- the argument ends with the text or before it, since it does not reach across the line break
      obtain ⟨rest, rfl, rfl⟩ : ∃ rest, after = argument ++ rest ∧ more = rest ++ tail := by
        obtain ⟨rest, hrest, hmoreEq⟩ | ⟨rest, hargumentEq, htailEq⟩ :=
          List.append_eq_append_iff.1 hafter
        · exact ⟨rest, hrest, hmoreEq⟩
        · cases rest with
          | nil => exact ⟨[], by rw [hargumentEq, List.append_nil, List.append_nil], htailEq.symm⟩
          | cons c rest =>
            refine absurd ?_ hbreak.1
            dsimp only
            rw [hargumentEq, List.length_append, List.length_append, List.length_cons]
            omega
      have hlength : position + (gap ++ (argument ++ rest)).length =
          position + (gap.length + argument.length) + rest.length := by
        rw [List.length_append, List.length_append]
        omega
      rw [hlength] at hbreak ⊢
      obtain ⟨first, others, rfl, hothers, hstands⟩ :=
        ih hbreak.2 (start + (gap.length + argument.length)) rfl
      refine ⟨(argument, position + gap.length) :: first, others, rfl, hothers, fun hleaves => ?_⟩
      obtain ⟨found, hfound, hentries⟩ := hstands hleaves
      refine ⟨(argument, start + gap.length) :: found,
        by rw [List.map_cons, List.map_cons, hfound], ?_⟩
      refine .found hgap hargument (fun c hc => hmore c ?_) hentries
      rw [List.head?_append, hc]
      rfl

/-- Arguments that stand in joined leaves stand in the leaves, if none of them reaches from one leaf
into the next. -/
theorem stands {leaves : List (Bytes × Nat)} {start : Nat}
    (h : Laid position (text ++ Bytes.below (leaves.map Prod.fst)) placed)
    (hbreaks : ∀ stop ∈ breaks position (text :: leaves.map Prod.fst), ∀ entry ∈ placed,
      ¬ (entry.2 ≤ stop ∧ stop < entry.2 + entry.1.length)) :
    ∃ entries, entries.map Prod.fst = placed.map Prod.fst ∧
      Stands ((text, start) :: leaves) entries := by
  induction leaves generalizing position text start placed with
  | nil =>
    rw [breaks, List.forall_mem_cons] at hbreaks
    obtain ⟨first, others, rfl, hothers, hstands⟩ := h.split (by simp [Bytes.below]) hbreaks.1 start
    obtain ⟨found, hfound, hentries⟩ := hstands .nil
    have hnone : others = [] := by
      generalize hnil : Bytes.below (List.map Prod.fst []) = rest at hothers
      cases hothers with
      | gap => rfl
      | argument _ hargument =>
        exact absurd (List.append_eq_nil_iff.1 (List.append_eq_nil_iff.1 hnil.symm).2).1
          hargument.ne_nil
    exact ⟨found ++ [], by rw [hnone, List.map_append, List.map_append, hfound], hentries⟩
  | cons leaf leaves ih =>
    rw [breaks, List.forall_mem_cons] at hbreaks
    have hbelow : Bytes.below ((leaf :: leaves).map Prod.fst) =
        Char.toUInt8 '\n' :: (leaf.1 ++ Bytes.below (leaves.map Prod.fst)) := rfl
    rw [hbelow] at h
    obtain ⟨first, others, rfl, hothers, hstands⟩ := h.split (by simp) hbreaks.1 start
    obtain ⟨entries, hentries, hleaves⟩ : ∃ entries, entries.map Prod.fst = others.map Prod.fst ∧
        Stands ((leaf.1, leaf.2) :: leaves) entries :=
      ih hothers.drop_line fun stop hstop entry hentry =>
        hbreaks.2 stop hstop entry (List.mem_append_right _ hentry)
    obtain ⟨found, hfound, hfoundStands⟩ := hstands hleaves
    exact ⟨found ++ entries, by rw [List.map_append, List.map_append, hfound, hentries],
      hfoundStands⟩

end Laid

/-- The places of the pieces of a text that are not blank, without the white space around them. The
first piece starts at `position`, and a comma stands between two pieces. -/
def places (position : Nat) : List Bytes → List (Bytes × Nat)
  | [] => []
  | piece :: pieces =>
    (if piece.isBlank then []
     else [(trim piece, position + (piece.length - (trimStart piece).length))]) ++
      places (position + piece.length + 1) pieces

/-- What is left of a piece between commas starts neither with white space nor with a comma. -/
theorem sought_trim {piece : Bytes} (h : CommasOpened piece) (hblank : ¬ piece.isBlank = true) :
    Sought (trim piece) where
  ne_nil hnil := hblank (trim_eq_nil_iff.1 hnil)
  trimStart := (trimStart_trimEnd_of_trim (trim_trim piece)).1
  comma := by
    intro hcomma
    obtain ⟨lead, tail, hpiece, -, hlead, -⟩ := exists_gaps piece
    obtain ⟨rest, hrest⟩ := List.head?_eq_some_iff.1 hcomma
    rw [hrest, List.cons_append] at hpiece
    obtain ⟨c, hc, hquote⟩ := h lead _ hpiece
    have hplain : ∀ c : UInt8, isQuote c = true → ¬ (IsSpaceByte c ∨ c = Char.toUInt8 ',') := by
      decide +kernel
    exact hplain c hquote (hlead.isSpaceByte c hc)

/-- Pieces between commas stand in the text that they are joined to. -/
theorem laid_places {pieces : List Bytes} (hne : pieces ≠ [])
    (h : ∀ piece ∈ pieces, CommasOpened piece) (position : Nat) :
    Laid position (join [Char.toUInt8 ','] pieces) (places position pieces) := by
  induction pieces generalizing position with
  | nil => exact absurd rfl hne
  | cons piece pieces ih =>
    rw [List.forall_mem_cons] at h
    obtain ⟨lead, tail, hpiece, hlength, hlead, htail⟩ := exists_gaps piece
    -- what stands behind the piece starts with a comma
    have hbehind : Laid (position + piece.length) (Lexeme.behind pieces)
        (places (position + piece.length + 1) pieces) ∧
        Utf8.IsCut (Lexeme.behind pieces) := by
      cases pieces with
      | nil => exact ⟨.gap .nil, by simp [Utf8.IsCut, Lexeme.behind]⟩
      | cons next pieces =>
        rw [Lexeme.behind_eq (List.cons_ne_nil _ _)]
        refine ⟨?_, isCut_ascii (by decide) _⟩
        have hcomma : Gap [Char.toUInt8 ','] := .comma .nil
        exact Laid.gap_append (ih (List.cons_ne_nil _ _) h.2 (position + piece.length + 1)) hcomma
    rw [Lexeme.join_eq, places]
    by_cases hblank : piece.isBlank = true
    · rw [trim_eq_nil_iff.2 hblank, List.nil_append] at hpiece
      rw [if_pos hblank, List.nil_append]
      exact hbehind.1.gap_append (hpiece ▸ hlead.append htail)
    · have htext : piece ++ Lexeme.behind pieces = lead ++
          (trim piece ++ (tail ++ Lexeme.behind pieces)) := by
        conv_lhs => rw [hpiece]
        simp
      have hstart : position + (piece.length - (trimStart piece).length) = position + lead.length :=
        by omega
      have hstop : position + piece.length = position + (lead.length + (trim piece).length) +
          tail.length := by
        have hsum := congrArg List.length hpiece
        rw [List.length_append, List.length_append] at hsum
        omega
      rw [if_neg hblank, htext, hstart, List.singleton_append]
      refine .argument hlead (sought_trim h.1 hblank) (htail.isCut_append hbehind.2)
        (Laid.gap_append ?_ htail)
      rw [← hstop]
      exact hbehind.1

/-- The pieces that the arguments of a text are cut out of. -/
def cuts (text : Bytes) : List Bytes :=
  if (Lexeme.visible text).head?.any (·.kind = .comma) then text.split ',' else Parameter.parts text

/-- The pieces are cut at commas, and a comma inside of them stands behind a quote. -/
theorem cuts_spec (text : Bytes) : cuts text ≠ [] ∧ join [Char.toUInt8 ','] (cuts text) = text ∧
    ∀ piece ∈ cuts text, CommasOpened piece := by
  rw [cuts]
  split
  · refine ⟨split_ne_nil ',' text, join_split ',' text, fun piece hpiece before after heq => ?_⟩
    exact absurd (by rw [heq]; simp) (not_mem_of_mem_split hpiece)
  · exact ⟨Parameter.parts_ne_nil text, Parameter.join_parts text,
      fun _ => commasOpened_of_mem_parts⟩

/-- What stands at the places is left of the pieces that are not blank. -/
theorem map_fst_places (position : Nat) (pieces : List Bytes) :
    (places position pieces).map Prod.fst = (pieces.map trim).filter (!·.isEmpty) := by
  induction pieces generalizing position with
  | nil => rfl
  | cons piece pieces ih =>
    rw [places, List.map_append, ih, List.map_cons]
    by_cases hblank : piece.isBlank = true
    · rw [if_pos hblank, List.filter_cons_of_neg (by simp [trim_eq_nil_iff.2 hblank])]
      rfl
    · rw [if_neg hblank, List.filter_cons_of_pos (by simpa [trim_eq_nil_iff] using hblank)]
      rfl

/-- A blank last piece does not count. -/
theorem filter_pieces (text : Bytes) :
    (pieces text).filter (!·.isEmpty) = ((text.split ',').map trim).filter (!·.isEmpty) := by
  rw [pieces]
  split
  next hblank =>
    obtain ⟨lead, last, hsplit⟩ :=
      List.eq_nil_or_concat (text.split ',') |>.resolve_left (split_ne_nil ',' text)
    rw [List.concat_eq_append] at hsplit
    rw [hsplit, List.getLast?_concat, Option.getD_some] at hblank
    rw [hsplit, List.dropLast_concat, List.map_append, List.filter_append, List.map_singleton,
      trim_eq_nil_iff.2 hblank]
    exact (List.append_nil _).symm
  next => rfl

/-- The arguments that are not empty are what is left of the pieces that are not blank. -/
theorem filter_splitArguments (text : Bytes) :
    (splitArguments text).filter (!·.isEmpty) = (places 0 (cuts text)).map Prod.fst := by
  rw [map_fst_places]
  by_cases hblank : text.isBlank = true
  · obtain ⟨hne, hjoin, -⟩ := cuts_spec text
    rw [splitArguments, if_pos hblank, pieces_of_isBlank hne hjoin hblank, List.map_singleton,
      trim_eq_nil_iff.2 hblank]
    rfl
  · rw [cuts]
    split
    next hcomma =>
      obtain ⟨first, hfirst, hkind⟩ := (Option.any_eq_true ..).1 hcomma
      obtain ⟨rest, hvisible⟩ := List.head?_eq_some_iff.1 hfirst
      rw [splitArguments, if_neg hblank, hvisible]
      dsimp only
      rw [if_pos (of_decide_eq_true hkind), filter_pieces]
    next hcomma =>
      have hfirst : ∀ lexeme ∈ (Lexeme.visible text).head?, lexeme.kind ≠ .comma :=
          fun lexeme hlexeme hkind =>
            hcomma ((Option.any_eq_true ..).2 ⟨lexeme, hlexeme, decide_eq_true hkind⟩)
      rw [splitArguments_of_parts (Bool.not_eq_true _ ▸ hblank) hfirst, List.filter_map,
        List.filter_map, List.filter_filter]
      congr 1
      refine List.filter_congr fun part _ => ?_
      rw [Function.comp_apply]
      by_cases hblanks : part.all Lexeme.isBlankByte = true
      · rw [trim_of_blanks hblanks]
        rfl
      · rw [Bool.not_eq_true] at hblanks
        rw [hblanks, Bool.not_false, Bool.and_true]

/-- Arguments stand in a script one behind the other, each at its offset and not inside white space.
Only white space, commas and semicolons stand between `position` and the first of them and between
any two. -/
def Follow (source : Bytes) (position : Nat) : List (Bytes × Nat) → Prop
  | [] => True
  | (argument, offset) :: placed =>
    position ≤ offset ∧ (source.drop offset).take argument.length = argument ∧
      (spaceMask source)[offset]? = some false ∧
      (∀ i, position ≤ i → i < offset → IsFiller source i ∨ source[i]? = some (Char.toUInt8 ',')) ∧
      Follow source (offset + argument.length) placed

/-- The texts of leaves stand in a script one behind the other, with filler in front of each of
them. -/
def Spaced (source : Bytes) (position : Nat) : List (Bytes × Nat) → Prop
  | [] => True
  | (text, start) :: leaves => position ≤ start ∧ Occurs source start text ∧
      (∀ i, position ≤ i → i < start → IsFiller source i) ∧
      Spaced source (start + text.length) leaves

variable {source : Bytes} {position start : Nat} {leaves placed : List (Bytes × Nat)}

/-- More white space, commas and semicolons may stand in front of arguments. -/
theorem Follow.extend (h : Follow source start placed) (hstart : position ≤ start)
    (hgap : ∀ i, position ≤ i → i < start → IsFiller source i ∨
      source[i]? = some (Char.toUInt8 ',')) :
    Follow source position placed := by
  cases placed with
  | nil => trivial
  | cons entry placed =>
    obtain ⟨hle, htext, hvisible, hbetween, hrest⟩ := h
    refine ⟨Nat.le_trans hstart hle, htext, hvisible, fun i hlow hhigh => ?_, hrest⟩
    by_cases hi : i < start
    · exact hgap i hlow hi
    · exact hbetween i (Nat.le_of_not_lt hi) hhigh

/-- The offsets of arguments that are not empty increase. -/
theorem Follow.pairwise (h : Follow source position placed) (hne : ∀ entry ∈ placed, entry.1 ≠ []) :
    (placed.map Prod.snd).Pairwise (· < ·) ∧ ∀ entry ∈ placed, position ≤ entry.2 := by
  induction placed generalizing position with
  | nil => simp
  | cons entry placed ih =>
    obtain ⟨hle, -, -, -, hrest⟩ := h
    rw [List.forall_mem_cons] at hne
    obtain ⟨hpairwise, hbehind⟩ := ih hrest hne.2
    have hlength : 0 < entry.1.length := List.length_pos_iff.2 hne.1
    rw [List.map_cons, List.pairwise_cons, List.forall_mem_cons]
    refine ⟨⟨fun offset hoffset => ?_, hpairwise⟩, hle, fun other hother => ?_⟩
    · obtain ⟨other, hother, rfl⟩ := List.mem_map.1 hoffset
      have := hbehind other hother
      omega
    · have := hbehind other hother
      omega

/-- The bytes of a gap that stands in a script. -/
theorem Gap.of_occurs {gap : Bytes} (h : Occurs source position gap) (hgap : Gap gap) :
    ∀ i, position ≤ i →
    i < position + gap.length → IsFiller source i ∨ source[i]? = some (Char.toUInt8 ',') := by
  induction hgap generalizing position with
  | nil => exact fun i hlow hhigh => absurd hhigh (Nat.not_lt.2 hlow)
  | @space point rest hpoint hrest ih =>
    intro i hlow hhigh
    have hmask : spaceMask (point ++ rest) = spaceMask point ++ spaceMask rest := by
      rw [hpoint.spaceMask_append, hpoint.isSpace]
    obtain ⟨hfront, hbehind⟩ := h.split hmask
    by_cases hi : i < position + point.length
    · exact .inl (hfront.isFiller hpoint.isSpace hlow hi)
    · rw [List.length_append] at hhigh
      exact ih hbehind i (Nat.le_of_not_lt hi) (by omega)
  | @comma rest hrest ih =>
    intro i hlow hhigh
    rw [← List.nil_append (Char.toUInt8 ',' :: rest)] at h
    obtain ⟨-, -, hcomma, hbehind⟩ := h.split_ascii (by decide)
    rcases Nat.eq_or_lt_of_le hlow with rfl | hlow
    · exact .inr hcomma.getElem?_eq
    · rw [List.length_cons] at hhigh
      exact ih hbehind i hlow (by rw [List.length_nil]; omega)

/-- An argument does not start with white space. -/
theorem Sought.head?_spaceMask {argument : Bytes} (h : Sought argument) :
    (spaceMask argument).head? = some false := by
  obtain ⟨first, rest, rfl⟩ := List.exists_cons_of_ne_nil h.ne_nil
  have hspace : (Utf8.front first rest).1.isSpace = false := by
    rw [← Bool.not_eq_true]
    intro hspace
    obtain ⟨point, more, hpoint, heq⟩ := exists_spacePoint_of_front hspace
    exact absurd h.trimStart (heq ▸ hpoint.trimStart_ne more)
  rw [spaceMask_cons, hspace]
  rfl

/-- Arguments that stand in the leaves of a script stand in the script. -/
theorem Stands.follow (h : Stands leaves placed) (hspaced : Spaced source position leaves) :
    Follow source position placed := by
  induction h generalizing position with
  | nil => trivial
  | @skip gap start leaves placed hgap hrest ih =>
    obtain ⟨hle, hoccurs, hfiller, hleaves⟩ := hspaced
    refine (ih hleaves).extend (Nat.le_add_right_of_le hle) fun i hlow hhigh => ?_
    by_cases hi : i < start
    · exact .inl (hfiller i hlow hi)
    · exact hgap.of_occurs hoccurs i (Nat.le_of_not_lt hi) hhigh
  | @found gap argument more start leaves placed hgap hargument hmore hrest ih =>
    obtain ⟨hle, hoccurs, hfiller, hleaves⟩ := hspaced
    obtain ⟨hfront, hbehind⟩ := hoccurs.split (hgap.spaceMask_append _)
    obtain ⟨htext, hmoreOccurs⟩ := hbehind.split (Bytes.spaceMask_append hmore)
    have hvisible : (spaceMask source)[start + gap.length]? = some false := by
      obtain ⟨rest, hrest⟩ := htext.mask
      rw [← Nat.add_zero (start + gap.length), ← List.getElem?_drop, ← hrest,
        ← List.head?_eq_getElem?, List.head?_append, hargument.head?_spaceMask]
      rfl
    refine ⟨Nat.le_add_right_of_le hle, htext.take_drop, hvisible, fun i hlow hhigh => ?_, ?_⟩
    · by_cases hi : i < start
      · exact .inl (hfiller i hlow hi)
      · exact hgap.of_occurs hfront i (Nat.le_of_not_lt hi) hhigh
    · rw [Nat.add_assoc] at hmoreOccurs ⊢
      refine ih
        ⟨Nat.le_refl _, hmoreOccurs, fun i hlow hhigh => absurd hhigh (Nat.not_lt.2 hlow), ?_⟩
      have hlength : start + (gap.length + argument.length) + more.length = start +
          (gap ++ (argument ++ more)).length := by
        rw [List.length_append, List.length_append]
        omega
      rw [hlength]
      exact hleaves

/-- In leaves without stray bytes every argument starts with a code point. -/
theorem Stands.startsWhole (h : Stands leaves placed)
    (hvalid : ∀ leaf ∈ leaves, Utf8.strays leaf.1 = []) :
    ∀ entry ∈ placed, Utf8.startsWhole entry.1 = true := by
  induction h with
  | nil => simp
  | skip _ _ ih =>
    rw [List.forall_mem_cons] at hvalid
    exact ih hvalid.2
  | found hgap _ hmore _ ih =>
    rw [List.forall_mem_cons] at hvalid
    rw [hgap.strays_append, Utf8.strays_append hmore, List.append_eq_nil_iff] at hvalid
    rw [List.forall_mem_cons]
    refine ⟨Utf8.startsWhole_of_strays hvalid.1.1, ih ?_⟩
    rw [List.forall_mem_cons]
    exact ⟨hvalid.1.2, hvalid.2⟩

/-- More filler may stand in front of leaves. -/
theorem Spaced.extend (h : Spaced source start leaves) (hstart : position ≤ start)
    (hfiller : ∀ i, position ≤ i → i < start → IsFiller source i) :
    Spaced source position leaves := by
  cases leaves with
  | nil => trivial
  | cons leaf leaves =>
    obtain ⟨hle, hoccurs, hbetween, hrest⟩ := h
    refine ⟨Nat.le_trans hstart hle, hoccurs, fun i hlow hhigh => ?_, hrest⟩
    by_cases hi : i < start
    · exact hfiller i hlow hi
    · exact hbetween i (Nat.le_of_not_lt hi) hhigh

/-- The text of a token and where it starts. -/
def entry (t : Token) : Bytes × Nat := (t.head, t.offset)

/-- The pending text stands in the script, with filler around it. -/
theorem spaced_flush {text : Bytes} (h : Occurs source position text)
    (hrest : Spaced source (position + text.length) leaves) :
    Spaced source position ((flush text.reverse (position + text.length)).map entry ++ leaves) := by
  obtain ⟨lead, hstart, hlength, htrim, hlead, htail⟩ := h.trim
  rw [flush, pendingText, pendingOffset, List.reverse_reverse]
  by_cases hempty : trim text = []
  · rw [hempty] at htail
    simp only [hempty, List.isEmpty_nil, if_true]
    refine hrest.extend (Nat.le_add_right ..) fun i hlow hhigh => ?_
    by_cases hi : i < position + lead
    · exact hlead i hlow hi
    · exact htail i (Nat.le_of_not_lt hi) hhigh
  · have hoffset : position + text.length - (trimStart text).length = position + lead := by omega
    have hstop : position + lead + (trim text).length ≤ position + text.length := by omega
    rw [if_neg (by simpa using hempty), hoffset]
    exact ⟨Nat.le_add_right .., htrim, hlead, hrest.extend hstop htail⟩

/-- The end of a clause stands in the script, with filler around it. -/
theorem spaced_endClause {text : Bytes} (h : Occurs source position text) (clauses : Clauses)
    (hrest : Spaced source (position + text.length) leaves) :
    Spaced source position
      ((endClause clauses text.reverse (position + text.length)).map entry ++ leaves) := by
  have hempty : Occurs source (position + text.length) [] :=
    ⟨List.nil_prefix, by rw [spaceMask_nil]; exact List.nil_prefix⟩
  unfold endClause
  split
  next hflush =>
    split
    · have hspaced := spaced_flush h hrest
      rwa [hflush] at hspaced
    · have hleaf : Spaced source (position + text.length)
          (([], position + text.length) :: leaves) :=
        ⟨Nat.le_refl _, hempty, fun i hlow hhigh => absurd hhigh (Nat.not_lt.2 hlow), hrest⟩
      have hspaced := spaced_flush h hleaf
      rwa [hflush] at hspaced
  next => exact spaced_flush h hrest

/-- The leaves of a text that is laid out without blocks stand in the script, with filler around
them. -/
theorem spaced_of_layout {header : Bool} {clauses : Clauses} {text : Bytes} {tokens : List Token}
    {pairs : List BracketPair} (h : Layout header clauses position text tokens pairs)
    (hoccurs : Occurs source position text)
    (hleaves : ∀ t ∈ tokens, t.isBlock = false) : Spaced source position (tokens.map entry) := by
  induction h with
  | @finish _ clauses _ _ _ hread =>
    rw [← List.append_nil (List.map ..)]
    split
    · exact spaced_endClause hoccurs clauses trivial
    · exact spaced_flush hoccurs trivial
  | @clause clauses position text rest tokens _ hread _ ih =>
    rw [List.forall_mem_append] at hleaves
    obtain ⟨htext, -, hsign, hrest⟩ := hoccurs.split_ascii endsStatement_semicolon.lt
    rw [List.map_append]
    refine spaced_endClause htext clauses
      ((ih hrest hleaves.2).extend (Nat.le_add_right ..) fun i hlow hhigh => ?_)
    obtain rfl : i = position + text.length := by omega
    exact endsStatement_semicolon.isFiller hsign
  | @statement clauses position text rest mode c tokens _ hread hend _ ih =>
    rw [List.forall_mem_append] at hleaves
    obtain ⟨htext, -, hsign, hrest⟩ := hoccurs.split_ascii hend.lt
    rw [List.map_append]
    refine spaced_flush htext
      ((ih hrest hleaves.2).extend (Nat.le_add_right ..) fun i hlow hhigh => ?_)
    obtain rfl : i = position + text.length := by omega
    exact hend.isFiller hsign
  | block =>
    rw [List.forall_mem_cons] at hleaves
    cases hleaves.1

/-- The tokens of a script that is laid out cover it, and its blocks are the bracket pairs of the
layout. -/
theorem covers_of_layout {header : Bool} {clauses : Clauses} {tokens : List Token}
    {pairs : List BracketPair} (h : Layout header clauses 0 source tokens pairs) :
    Covers source (fun opens close => (opens, close) ∈ BracketPair.positionsAll pairs) 0
      source.length tokens := by
  rw [← Nat.zero_add source.length]
  exact h.covers ⟨List.prefix_rfl, List.prefix_rfl⟩ fun e he => he

/-- What stands between the brackets of a block of a script, and how its children are laid out
there. -/
theorem exists_inside {limit : Nat} {tokens : List Token} {t : Token}
    (h : scan limit source = .ok tokens) (ht : t ∈ all tokens) (hblock : t.isBlock = true) :
      ∃ (bracket : Bracket) (before inside after : Bytes), ∃ inner,
      source = before ++ bracket.opener :: (inside ++ bracket.closer :: after) ∧
      before.length = t.opens ∧
      Layout (isForHeader t.head) {} (t.opens + 1) inside t.children inner ∧
      Occurs source (t.opens + 1) inside := by
  obtain ⟨pairs, hlayout⟩ := layout_of_scan h
  obtain ⟨inside, inner, hchildren, ⟨rest, hrest⟩, hpair⟩ :=
    hlayout.block_of_mem List.prefix_rfl ht hblock
  obtain ⟨bracket, close, hcloses, -, hopener, hcloser, -⟩ :=
    (covers_of_layout hlayout).nested t ht hblock
  have hclose : close = t.opens + 1 + inside.length := by
    have hlookup := lookup_of_mem hlayout.positionsAll_ordered.1 hcloses
    rw [lookup_of_mem hlayout.positionsAll_ordered.1 hpair] at hlookup
    exact (Option.some.inj hlookup).symm
  subst hclose
  have hhead : rest.head? = some bracket.closer := by
    rw [← hcloser, ← List.getElem?_drop, ← hrest,
      List.getElem?_append_right (Nat.le_refl _), Nat.sub_self, List.head?_eq_getElem?]
  obtain ⟨after, rfl⟩ := List.head?_eq_some_iff.1 hhead
  have hsource : source = source.take t.opens ++ bracket.opener ::
      (inside ++ bracket.closer :: after) := by
    obtain ⟨hlt, hbyte⟩ := List.getElem?_eq_some_iff.1 hopener
    rw [hrest, ← hbyte, ← List.drop_eq_getElem_cons hlt, List.take_append_drop]
  have hlength : (source.take t.opens).length = t.opens := by
    obtain ⟨hlt, -⟩ := List.getElem?_eq_some_iff.1 hopener
    rw [List.length_take]
    omega
  -- both brackets are ASCII bytes, so what stands between them is cut out whole
  have hoccurs : Occurs source 0
      (source.take t.opens ++ bracket.opener :: (inside ++ bracket.closer :: after)) := by
    rw [← hsource]
    exact ⟨List.prefix_rfl, List.prefix_rfl⟩
  obtain ⟨-, -, -, hbehind⟩ := hoccurs.split_ascii bracket.opener_ascii.1
  obtain ⟨hinside, -⟩ := hbehind.split_ascii bracket.closer_ascii
  rw [hlength, Nat.zero_add] at hinside
  exact ⟨bracket, source.take t.opens, inside, after, inner, hsource, hlength, hchildren, hinside⟩

/-- Whether an argument of a call, where it stands in the joined texts of the leaves, reaches from
one leaf into the next. -/
def spansLeaves (content : List Token) : Bool :=
  (places 0 (cuts (join "\n" (content.map head)))).any fun (argument, start) =>
    (breaks 0 (content.map head)).any fun stop => start ≤ stop && stop < start + argument.length

/-- The arguments of a call that are not empty, each with the offset that it is given. -/
def located (content : List Token) (offset : Nat) : List (Bytes × Nat) :=
  (callArguments content offset).filter (!·.1.isEmpty)

/-- The arguments of a call stand in its leaves, if none of them reaches from one leaf into the
next. -/
theorem exists_stands {content : List Token} (h : spansLeaves content = false) : ∃ entries,
    (splitArguments (join "\n" (content.map head))).filter (!·.isEmpty) = entries.map Prod.fst ∧
      Stands (content.map entry) entries := by
  cases content with
  | nil => exact ⟨[], rfl, .nil⟩
  | cons t content =>
    obtain ⟨hne, hjoin, hopened⟩ := cuts_spec (join "\n" ((t :: content).map head))
    have hlaid := laid_places hne hopened 0
    have htexts : content.map head = (content.map entry).map Prod.fst := by
      rw [List.map_map]
      rfl
    have hlines : join "\n" ((t :: content).map head) = t.head ++
        below ((content.map entry).map Prod.fst) := by
      rw [List.map_cons, join_cons, htexts]
      rfl
    rw [filter_splitArguments]
    rw [hjoin] at hlaid
    nth_rewrite 1 [hlines] at hlaid
    have hbreaks : ∀ stop ∈ breaks 0 (t.head :: (content.map entry).map Prod.fst),
        ∀ entry ∈ places 0 (cuts (join "\n" ((t :: content).map head))),
          ¬ (entry.2 ≤ stop ∧ stop < entry.2 + entry.1.length) := by
      intro stop hstop entry hentry hreach
      have hspans : spansLeaves (t :: content) = true := by
        refine List.any_eq_true.2 ⟨entry, hentry, List.any_eq_true.2 ⟨stop, ?_, ?_⟩⟩
        · rw [List.map_cons, htexts]
          exact hstop
        · simpa using hreach
      rw [hspans] at h
      cases h
    obtain ⟨entries, hentries, hstands⟩ := hlaid.stands hbreaks
    exact ⟨entries, hentries.symm, hstands⟩

/-- Leaves without stray bytes in any of them. -/
theorem strays_of_collectAll {content : List Token} (hleaves : ∀ t ∈ content, t.isBlock = false)
    (h : collectAll Utf8.strays content = []) : ∀ t ∈ content, Utf8.strays t.head = [] := by
  induction content with
  | nil => simp
  | cons t content ih =>
    rw [List.forall_mem_cons] at hleaves ⊢
    rw [collectAll, List.append_eq_nil_iff] at h
    refine ⟨?_, ih hleaves.2 h.2⟩
    cases t with
    | leaf => exact h.1
    | block => cases hleaves.1

/-- **Where argument diagnostics point.** For a call of a script that passes leaves only, none of
its arguments reaching from one leaf into the next: if all arguments start with code points, as they
do in valid UTF-8, the offsets that they are given increase, and each argument stands at its own
offset, with nothing but white space, commas and semicolons between it and the argument before, or
the opening bracket. -/
theorem follow_located {limit : Nat} {tokens : List Token} {t : Token}
    (h : scan limit source = .ok tokens) (ht : t ∈ all tokens) (hblock : t.isBlock = true)
    (hleaves : ∀ u ∈ t.children, u.isBlock = false) (hspans : spansLeaves t.children = false) :
    (Utf8.isValid source = true → ∀ argument ∈ located t.children t.offset,
      Utf8.startsWhole argument.1 = true) ∧
    ((∀ argument ∈ located t.children t.offset, Utf8.startsWhole argument.1 = true) →
      ((located t.children t.offset).map Prod.snd).Pairwise (· < ·) ∧
        Follow source (t.opens + 1) (located t.children t.offset)) := by
  obtain ⟨bracket, before, inside, after, inner, hsource, -, hlayout, hoccurs⟩ :=
    exists_inside h ht hblock
  obtain ⟨entries, hentries, hstands⟩ := exists_stands hspans
  have htexts : (located t.children t.offset).map Prod.fst = entries.map Prod.fst := by
    rw [located, ← hentries, ← map_fst_callArguments t.children t.offset, List.filter_map]
    rfl
  have hwhole : (∀ argument ∈ located t.children t.offset, Utf8.startsWhole argument.1 = true) ↔
      ∀ argument ∈ entries, Utf8.startsWhole argument.1 = true := by
    have hmap : ∀ placed : List (Bytes × Nat),
        (∀ argument ∈ placed, Utf8.startsWhole argument.1 = true) ↔
        ∀ text ∈ placed.map Prod.fst, Utf8.startsWhole text = true := fun _ => by
      rw [List.forall_mem_map]
    rw [hmap, hmap, htexts]
  rw [hwhole]
  constructor
  · intro hvalid
    have hstrays := Utf8.strays_of_isValid hvalid
    rw [hsource, Utf8.strays_append_ascii bracket.opener_ascii.1,
      Utf8.strays_append_ascii bracket.closer_ascii, List.append_eq_nil_iff, List.append_eq_nil_iff,
      ← hlayout.collectAll_eq faithful_strays] at hstrays
    apply hstands.startsWhole
    rw [List.forall_mem_map]
    exact strays_of_collectAll hleaves hstrays.2.1
  · intro hall
    have hlocated : located t.children t.offset = entries :=
      hstands.argumentOffsets_eq hentries hall t.offset
    rw [hlocated]
    have hfollow := hstands.follow (spaced_of_layout hlayout hoccurs hleaves)
    exact ⟨(hfollow.pairwise fun entry hentry => (hstands.sought entry hentry).ne_nil).1, hfollow⟩

/-- A call with arguments that occur in each other, in two leaves, with a comma in a literal and an
empty argument. -/
theorem follow_located_repeated :
    scan 1 "f(a,\u00a0aa,\n \"b, a\",,a)" =
      .ok [.block "f(" [.leaf "a,\u00a0aa," 2, .leaf "\"b, a\",,a" 11] 0] ∧
    spansLeaves [.leaf "a,\u00a0aa," 2, .leaf "\"b, a\",,a" 11] = false ∧
    located [.leaf "a,\u00a0aa," 2, .leaf "\"b, a\",,a" 11] 0 =
      [(utf8 "a", 2), (utf8 "aa", 6), (utf8 "\"b, a\"", 11), (utf8 "a", 19)] ∧
    Follow "f(a,\u00a0aa,\n \"b, a\",,a)" 2 [(utf8 "a", 2), (utf8 "aa", 6), (utf8 "\"b, a\"", 11),
      (utf8 "a", 19)] := by
  have hscan : scan 1 "f(a,\u00a0aa,\n \"b, a\",,a)" =
      .ok [.block "f(" [.leaf "a,\u00a0aa," 2, .leaf "\"b, a\",,a" 11] 0] := by decide +kernel
  have hspans : spansLeaves [.leaf "a,\u00a0aa," 2, .leaf "\"b, a\",,a" 11] = false := by
    decide +kernel
  have hlocated : located [.leaf "a,\u00a0aa," 2, .leaf "\"b, a\",,a" 11] 0 =
      [(utf8 "a", 2), (utf8 "aa", 6), (utf8 "\"b, a\"", 11), (utf8 "a", 19)] := by decide +kernel
  obtain ⟨hvalid, hfollow⟩ :=
    follow_located hscan (List.mem_cons_self ..) rfl (by simp [children, isBlock]) hspans
  refine ⟨hscan, hspans, hlocated, ?_⟩
  rw [← hlocated]
  exact (hfollow (hvalid (by decide +kernel))).2

/-- A byte that is no code point is found inside the white space in front of it, and not at its own
place behind it. -/
theorem not_follow_located :
    scan 1 (utf8 "f(a," ++ [0xC2, 0xA0, 0xA0] ++ utf8 ")") =
      .ok [.block "f(" [.leaf (utf8 "a," ++ [0xC2, 0xA0, 0xA0]) 2] 0] ∧
    spansLeaves [.leaf (utf8 "a," ++ [0xC2, 0xA0, 0xA0]) 2] = false ∧
    places 0 (cuts (utf8 "a," ++ [0xC2, 0xA0, 0xA0])) = [(utf8 "a", 0), ([0xA0], 4)] ∧
    located [.leaf (utf8 "a," ++ [0xC2, 0xA0, 0xA0]) 2] 0 = [(utf8 "a", 2), ([0xA0], 5)] ∧
    ¬ Follow (utf8 "f(a," ++ [0xC2, 0xA0, 0xA0] ++ utf8 ")") 2 [(utf8 "a", 2), ([0xA0], 5)] := by
  refine ⟨by decide +kernel, by decide +kernel, by decide +kernel, by decide +kernel, ?_⟩
  rintro ⟨-, -, -, -, -, -, hmask, -⟩
  exact absurd hmask (by decide +kernel)

end Argument

end TagScript
