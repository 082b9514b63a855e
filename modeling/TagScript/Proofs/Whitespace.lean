import TagScript.Text.Space
import TagScript.Text.Utf8

/-!
# White space in a text of bytes

A text is read as code points and stray bytes from its start; a byte is white space when the
code point that it belongs to is. Trimming looks at bytes instead, from either end. The two
agree because a white space code point never starts with a continuation byte, so cutting a
text in front of anything else does not change how either part is read.
-/

namespace TagScript

namespace Utf8

/-- Whether a code point is white space. -/
def isSpacePoint (n : Nat) : Bool :=
  (9 ≤ n && n ≤ 13) || n = 0x20 || n = 0x85 || n = 0xA0 || n = 0x1680 ||
    (0x2000 ≤ n && n ≤ 0x200A) || n = 0x2028 || n = 0x2029 || n = 0x202F || n = 0x205F || n = 0x3000

/-- Whether a piece of a text is a white space code point; a stray byte never is. -/
def Piece.isSpace : Piece → Bool
  | .point value => isSpacePoint value
  | .stray _ => false

/-- A piece never reaches past the end of the text. -/
theorem front_snd_le (a : UInt8) (rest : Bytes) : (front a rest).2 ≤ rest.length := by
  unfold front
  split
  · exact Nat.zero_le _
  · repeat' split
    all_goals simp

/-- All bytes of a piece but its first are continuation bytes. -/
theorem isContinuation_of_front {a c : UInt8} {rest : Bytes} (h : c ∈ rest.take (front a rest).2) :
    isContinuation c = true := by
  unfold front at h
  split at h
  · simp at h
  · match rest with
    | [] => simp at h
    | b :: rest =>
      dsimp only at h
      split at h
      next n htwo => grind [two?]
      next =>
        match rest with
        | [] => simp at h
        | d :: rest =>
          dsimp only at h
          split at h
          next n hthree => grind [three?]
          next =>
            match rest with
            | [] => simp at h
            | e :: rest =>
              dsimp only at h
              split at h
              next n hfour => grind [four?]
              next => simp at h

/-- A text that does not start with a continuation byte, so that a cut in front of it separates
pieces. -/
def IsCut (text : Bytes) : Prop := ∀ c, text.head? = some c → isContinuation c = false

/-- What stands behind a text does not change its first piece, unless it could continue it. -/
theorem front_append {a : UInt8} {rest more : Bytes} (h : IsCut more) :
    front a (rest ++ more) = front a rest := by
  match rest, more with
  | [], [] => rfl
  | [], c :: more =>
    have hc := h c rfl
    cases more with
    | nil => simp [front, two?, hc]
    | cons d more => cases more <;> simp [front, two?, three?, four?, hc]
  | [b], [] => rfl
  | [b], c :: more =>
    have hc := h c rfl
    cases more <;> simp [front, three?, four?, hc]
  | [b, c], [] => rfl
  | [b, c], d :: more => simp [front, four?, h d rfl]
  | b :: c :: d :: rest, more => rfl

end Utf8

namespace Bytes

open Utf8

/-- For each byte of a text, whether it belongs to a white space code point. -/
def spaceMask (text : Bytes) : List Bool :=
  (pieces text).flatMap fun (piece, bytes) => List.replicate bytes.length piece.isSpace

/-- Whether a text is nothing but white space. -/
def IsSpace (text : Bytes) : Prop := spaceMask text = List.replicate text.length true

/-- An empty text has an empty mask. -/
@[simp] theorem spaceMask_nil : spaceMask [] = [] := by
  simp [spaceMask, pieces]

/-- The mask of a text starts with that of its first piece. -/
theorem spaceMask_cons (a : UInt8) (rest : Bytes) :
    spaceMask (a :: rest) = List.replicate ((front a rest).2 + 1) (front a rest).1.isSpace ++
      spaceMask (rest.drop (front a rest).2) := by
  rw [spaceMask, pieces]
  simp only [List.flatMap_cons, List.length_cons, List.length_take,
    Nat.min_eq_left (front_snd_le a rest)]
  rfl

/-- Induction along the pieces of a text. -/
theorem pieceInduction {motive : Bytes → Prop} (nil : motive [])
    (cons : ∀ a rest, motive (rest.drop (front a rest).2) → motive (a :: rest)) (text : Bytes) :
    motive text := by
  induction text using pieces.induct with
  | case1 => exact nil
  | case2 a rest piece more hfront ih => exact cons a rest (by rw [hfront]; exact ih)

/-- Every byte is in the mask. -/
@[simp] theorem length_spaceMask (text : Bytes) : (spaceMask text).length = text.length := by
  induction text using pieceInduction with
  | nil => simp
  | cons a rest ih =>
    have hle := front_snd_le a rest
    rw [spaceMask_cons, List.length_append, ih, List.length_replicate,
      List.length_drop, List.length_cons]
    omega

/-- Cutting a text in front of anything but a continuation byte cuts its mask. -/
theorem spaceMask_append {text more : Bytes} (h : IsCut more) :
    spaceMask (text ++ more) = spaceMask text ++ spaceMask more := by
  induction text using pieceInduction with
  | nil => simp
  | cons a rest ih =>
    rw [List.cons_append, spaceMask_cons, spaceMask_cons, front_append h, List.append_assoc, ← ih,
      List.drop_append_of_le_length (front_snd_le a rest)]

/-- An ASCII byte is a piece of its own. -/
theorem spaceMask_ascii {c : UInt8} (h : c < 0x80) (rest : Bytes) :
    spaceMask (c :: rest) = isAsciiSpace c :: spaceMask rest := by
  have hfront : front c rest = (.point c.toNat, 0) := by simp [front, h]
  have hspace : isSpacePoint c.toNat = isAsciiSpace c := by
    have hlt : c.toNat < 128 := h
    rw [Bool.eq_iff_iff]
    simp only [isSpacePoint, isAsciiSpace, Bool.or_eq_true, Bool.and_eq_true, decide_eq_true_eq,
      UInt8.le_iff_toNat_le, ← UInt8.toNat_inj, UInt8.reduceToNat]
    omega
  rw [spaceMask_cons, hfront]
  simp [Piece.isSpace, hspace]

/-- A text can be cut in front of an ASCII byte. -/
theorem isCut_ascii {c : UInt8} (h : c < 0x80) (rest : Bytes) : IsCut (c :: rest) := by
  intro d hd
  obtain rfl : c = d := by simpa using hd
  have hlt : ¬ 0x80 ≤ c := UInt8.not_le.2 h
  simp [isContinuation, hlt]

/-- A text can be cut behind an ASCII byte. -/
theorem spaceMask_ascii_append {c : UInt8} (h : c < 0x80) (rest : Bytes) :
    spaceMask ([c] ++ rest) = spaceMask [c] ++ spaceMask rest := by
  rw [spaceMask_ascii h, spaceMask_nil, List.singleton_append, spaceMask_ascii h,
    List.singleton_append]

/-- A blank byte is white space on its own. -/
theorem spaceMask_blank {c : UInt8} (h : isAsciiSpace c = true) (rest : Bytes) :
    spaceMask (c :: rest) = true :: spaceMask rest := by
  have hlt : c < 0x80 := by
    simp only [isAsciiSpace, Bool.or_eq_true, Bool.and_eq_true, decide_eq_true_eq,
      UInt8.le_iff_toNat_le, ← UInt8.toNat_inj, UInt8.reduceToNat] at h
    exact UInt8.lt_iff_toNat_lt.2 (show c.toNat < 128 by omega)
  rw [spaceMask_ascii hlt, h]

/-- Two bytes that encode white space. -/
theorem spaceMask_pair {a b : UInt8} (h : isSpacePair a b = true) (rest : Bytes) :
    spaceMask (a :: b :: rest) = true :: true :: spaceMask rest := by
  have hfront : (front a (b :: rest)).2 = 1 ∧ (front a (b :: rest)).1.isSpace = true := by
    simp only [isSpacePair, Bool.and_eq_true, Bool.or_eq_true, decide_eq_true_eq] at h
    obtain ⟨rfl, rfl | rfl⟩ := h <;> exact ⟨rfl, rfl⟩
  rw [spaceMask_cons, hfront.1, hfront.2]
  rfl

/-- Three bytes that encode white space form a code point that is white space. -/
theorem three?_of_isSpaceTriple {a b c : UInt8} (h : isSpaceTriple a b c = true) :
    0xE1 ≤ a ∧ ∃ n, three? a b c = some n ∧ isSpacePoint n = true := by
  simp only [isSpaceTriple, Bool.and_eq_true, Bool.or_eq_true, decide_eq_true_eq] at h
  obtain ((⟨⟨rfl, rfl⟩, rfl⟩ | ⟨⟨rfl, rfl⟩, hc⟩) | ⟨⟨rfl, rfl⟩, rfl⟩) | ⟨⟨rfl, rfl⟩, rfl⟩ := h
  · exact ⟨by decide, 0x1680, by decide, by decide⟩
  · simp only [UInt8.le_iff_toNat_le, ← UInt8.toNat_inj, UInt8.reduceToNat] at hc
    have hcont : isContinuation c = true := by
      simp only [isContinuation, UInt8.le_iff_toNat_le, UInt8.reduceToNat, Bool.and_eq_true,
        decide_eq_true_eq]
      omega
    refine ⟨by decide, 0x2000 + c.toNat % 64, ?_, ?_⟩
    · have hmiddle : isContinuation 0x80 = true := by decide
      have hlow : 0x800 ≤ 0x2000 + c.toNat % 64 := by omega
      have hhigh : ¬ 0xD800 ≤ 0x2000 + c.toNat % 64 := by omega
      simp [three?, payload, hcont, hmiddle, hlow, hhigh]
    · simp only [isSpacePoint, Bool.and_eq_true, Bool.or_eq_true, decide_eq_true_eq]
      omega
  · exact ⟨by decide, 0x205F, by decide, by decide⟩
  · exact ⟨by decide, 0x3000, by decide, by decide⟩

/-- Three bytes that encode white space. -/
theorem spaceMask_triple {a b c : UInt8} (h : isSpaceTriple a b c = true) (rest : Bytes) :
    spaceMask (a :: b :: c :: rest) = true :: true :: true :: spaceMask rest := by
  obtain ⟨ha, n, hthree, hspace⟩ := three?_of_isSpaceTriple h
  have hascii : ¬ a < 0x80 := UInt8.not_lt.2 (UInt8.le_trans (by decide) ha)
  have htwo : two? a b = none := by
    simp only [two?, UInt8.le_iff_toNat_le, UInt8.reduceToNat, ite_eq_right_iff, Bool.and_eq_true,
      decide_eq_true_eq] at ha ⊢
    omega
  have hfront : front a (b :: c :: rest) = (.point n, 2) := by simp [front, hascii, htwo, hthree]
  rw [spaceMask_cons, hfront]
  simp [Piece.isSpace, hspace, List.replicate]

/-- The bytes of one white space code point. -/
inductive SpacePoint : Bytes → Prop where
  | one {a : UInt8} (h : isAsciiSpace a = true) : SpacePoint [a]
  | two {a b : UInt8} (h : isSpacePair a b = true) : SpacePoint [a, b]
  | three {a b c : UInt8} (h : isSpaceTriple a b c = true) : SpacePoint [a, b, c]

namespace SpacePoint

variable {point : Bytes}

/-- A white space code point is masked whole, whatever follows. -/
theorem spaceMask_append (h : SpacePoint point) (rest : Bytes) :
    spaceMask (point ++ rest) = List.replicate point.length true ++ spaceMask rest := by
  cases h with
  | one h => exact spaceMask_blank h rest
  | two h => exact spaceMask_pair h rest
  | three h => exact spaceMask_triple h rest

/-- A white space code point is white space. -/
theorem isSpace (h : SpacePoint point) : IsSpace point := by
  simpa [IsSpace] using h.spaceMask_append []

/-- A white space code point starts with no continuation byte. -/
theorem isCut (h : SpacePoint point) (rest : Bytes) : IsCut (point ++ rest) := by
  intro c hc
  cases h with
  | @one a h =>
    obtain rfl : a = c := by simpa using hc
    simp only [isAsciiSpace, isContinuation, Bool.or_eq_true, Bool.and_eq_true, decide_eq_true_eq,
      Bool.and_eq_false_iff, decide_eq_false_iff_not, UInt8.le_iff_toNat_le, ← UInt8.toNat_inj,
      UInt8.reduceToNat] at h ⊢
    omega
  | @two a b h =>
    obtain rfl : a = c := by simpa using hc
    simp only [isSpacePair, Bool.and_eq_true, decide_eq_true_eq] at h
    rw [h.1]
    decide
  | @three a b d h =>
    obtain rfl : a = c := by simpa using hc
    have ha := (three?_of_isSpaceTriple h).1
    simp only [isContinuation, Bool.and_eq_false_iff, decide_eq_false_iff_not,
      UInt8.le_iff_toNat_le, UInt8.reduceToNat] at ha ⊢
    omega

/-- Trimming drops a white space code point at the start. -/
theorem trimStart_append (h : SpacePoint point) (rest : Bytes) :
    trimStart (point ++ rest) = trimStart rest := by
  cases h with
  | one h => match rest with
    | [] => simp [trimStart, h]
    | [b] => simp [trimStart, h]
    | b :: c :: rest => simp [trimStart, h]
  | @two a b h =>
    have ha : isAsciiSpace a = false := by
      simp only [isSpacePair, Bool.and_eq_true, decide_eq_true_eq] at h
      rw [h.1]
      decide
    cases rest <;> simp [trimStart, ha, h]
  | @three a b c h =>
    have hlead := (three?_of_isSpaceTriple h).1
    have ha : isAsciiSpace a = false ∧ isSpacePair a b = false := by
      simp only [isAsciiSpace, isSpacePair, Bool.or_eq_false_iff, Bool.and_eq_false_iff,
        decide_eq_false_iff_not, UInt8.le_iff_toNat_le, ← UInt8.toNat_inj, UInt8.reduceToNat]
        at hlead ⊢
      omega
    simp [trimStart, ha.1, ha.2, h]

end SpacePoint

/-- A text keeps its start when trimmed, or starts with a white space code point. -/
theorem trimStart_cases (text : Bytes) :
    trimStart text = text ∨ ∃ point rest, SpacePoint point ∧ text = point ++ rest := by
  match text with
  | [] => exact .inl rfl
  | [a] =>
    by_cases ha : isAsciiSpace a = true
    · exact .inr ⟨[a], [], .one ha, rfl⟩
    · simp [trimStart, ha]
  | [a, b] =>
    by_cases ha : isAsciiSpace a = true
    · exact .inr ⟨[a], [b], .one ha, rfl⟩
    by_cases hb : isSpacePair a b = true
    · exact .inr ⟨[a, b], [], .two hb, rfl⟩
    · simp [trimStart, ha, hb]
  | a :: b :: c :: text =>
    by_cases ha : isAsciiSpace a = true
    · exact .inr ⟨[a], b :: c :: text, .one ha, rfl⟩
    by_cases hb : isSpacePair a b = true
    · exact .inr ⟨[a, b], c :: text, .two hb, rfl⟩
    by_cases hc : isSpaceTriple a b c = true
    · exact .inr ⟨[a, b, c], text, .three hc, rfl⟩
    · simp [trimStart, ha, hb, hc]

/-- Induction along the white space at the start of a text. -/
theorem trimStartInduction {motive : Bytes → Prop}
    (keep : ∀ text, trimStart text = text → motive text)
    (drop : ∀ point rest, SpacePoint point → motive rest → motive (point ++ rest)) (text : Bytes) :
    motive text := by
  rcases trimStart_cases text with h | ⟨point, rest, hpoint, rfl⟩
  · exact keep text h
  · have hlt : rest.length < (point ++ rest).length := by
      cases hpoint <;> simp only [List.length_append, List.length_cons, List.length_nil] <;> omega
    exact drop point rest hpoint (trimStartInduction keep drop rest)
termination_by text.length

/-- White space behind white space. -/
theorem IsSpace.append {text more : Bytes} (h : IsSpace text) (hmore : IsSpace more)
    (hcut : IsCut more) :
    IsSpace (text ++ more) := by
  rw [IsSpace, spaceMask_append hcut, h, hmore, List.replicate_append_replicate, List.length_append]

/-- Trimming the start of a text takes white space away, and only that. -/
theorem trimStart_spec (text : Bytes) : ∃ lead, text = lead ++ trimStart text ∧ IsSpace lead ∧
    spaceMask text = spaceMask lead ++ spaceMask (trimStart text) := by
  induction text using trimStartInduction with
  | keep text h => exact ⟨[], by simp [h], by simp [IsSpace], by simp [h]⟩
  | drop point rest hpoint ih =>
    obtain ⟨lead, hrest, hlead, hmask⟩ := ih
    rw [hpoint.trimStart_append]
    refine ⟨point ++ lead, by rw [List.append_assoc, ← hrest], ?_, ?_⟩
    · rw [IsSpace, hpoint.spaceMask_append, hlead, List.replicate_append_replicate,
        List.length_append]
    · rw [hpoint.spaceMask_append, hmask, hpoint.spaceMask_append, List.append_assoc]

/-- Trimming the start twice is trimming it once. -/
theorem trimStart_trimStart (text : Bytes) : trimStart (trimStart text) = trimStart text := by
  induction text using trimStartInduction with
  | keep text h => rw [h, h]
  | drop point rest hpoint ih => rw [hpoint.trimStart_append, ih]

/-- Trimming drops a white space code point at the end. -/
theorem SpacePoint.trimEnd_append {point : Bytes} (h : SpacePoint point) (lead : Bytes) :
    trimEnd (lead ++ point) = trimEnd lead := by
  rw [trimEnd, trimEnd, List.reverse_append]
  generalize lead.reverse = back
  congr 1
  cases h with
  | one h => match back with
    | [] => simp [trimReversed, h]
    | [b] => simp [trimReversed, h]
    | b :: c :: back => simp [trimReversed, h]
  | @two a b h =>
    have hb : isAsciiSpace b = false := by
      simp only [isSpacePair, Bool.and_eq_true, Bool.or_eq_true, decide_eq_true_eq] at h
      obtain ⟨-, rfl | rfl⟩ := h <;> decide
    cases back <;> simp [trimReversed, hb, h]
  | @three a b c h =>
    have hc : isAsciiSpace c = false ∧ isSpacePair b c = false := by
      simp only [isSpaceTriple, isAsciiSpace, isSpacePair, Bool.or_eq_true, Bool.and_eq_true,
        decide_eq_true_eq, Bool.or_eq_false_iff, Bool.and_eq_false_iff, decide_eq_false_iff_not,
        UInt8.le_iff_toNat_le, ← UInt8.toNat_inj, UInt8.reduceToNat] at h ⊢
      omega
    simp [trimReversed, hc.1, hc.2, h]

/-- A text written back to front keeps its start when trimmed, or starts with a white space code
point. -/
theorem trimReversed_cases (back : Bytes) :
    trimReversed back = back ∨ ∃ point rest, SpacePoint point ∧ back = point.reverse ++ rest := by
  match back with
  | [] => exact .inl rfl
  | [a] =>
    by_cases ha : isAsciiSpace a = true
    · exact .inr ⟨[a], [], .one ha, rfl⟩
    · simp [trimReversed, ha]
  | [b, a] =>
    by_cases hb : isAsciiSpace b = true
    · exact .inr ⟨[b], [a], .one hb, rfl⟩
    by_cases ha : isSpacePair a b = true
    · exact .inr ⟨[a, b], [], .two ha, rfl⟩
    · simp [trimReversed, hb, ha]
  | c :: b :: a :: back =>
    by_cases hc : isAsciiSpace c = true
    · exact .inr ⟨[c], b :: a :: back, .one hc, rfl⟩
    by_cases hb : isSpacePair b c = true
    · exact .inr ⟨[b, c], a :: back, .two hb, rfl⟩
    by_cases ha : isSpaceTriple a b c = true
    · exact .inr ⟨[a, b, c], back, .three ha, rfl⟩
    · simp [trimReversed, hc, hb, ha]

/-- A text keeps its end when trimmed, or ends with a white space code point. -/
theorem trimEnd_cases (text : Bytes) :
    trimEnd text = text ∨ ∃ point lead, SpacePoint point ∧ text = lead ++ point := by
  rcases trimReversed_cases text.reverse with h | ⟨point, back, hpoint, h⟩
  · exact .inl (by rw [trimEnd, h, List.reverse_reverse])
  · refine .inr ⟨point, back.reverse, hpoint, ?_⟩
    rw [← List.reverse_reverse text, h, List.reverse_append, List.reverse_reverse]

/-- Induction along the white space at the end of a text. -/
theorem trimEndInduction {motive : Bytes → Prop} (keep : ∀ text, trimEnd text = text → motive text)
    (drop : ∀ point lead, SpacePoint point → motive lead → motive (lead ++ point)) (text : Bytes) :
    motive text := by
  rcases trimEnd_cases text with h | ⟨point, lead, hpoint, rfl⟩
  · exact keep text h
  · have hlt : lead.length < (lead ++ point).length := by
      cases hpoint <;> simp only [List.length_append, List.length_cons, List.length_nil] <;> omega
    exact drop point lead hpoint (trimEndInduction keep drop lead)
termination_by text.length

/-- Trimming the end of a text takes white space away, and only that. -/
theorem trimEnd_spec (text : Bytes) : ∃ tail, text = trimEnd text ++ tail ∧
    IsSpace tail ∧ IsCut tail := by
  induction text using trimEndInduction with
  | keep text h => exact ⟨[], by simp [h], by simp [IsSpace], by simp [IsCut]⟩
  | drop point lead hpoint ih =>
    obtain ⟨tail, hlead, htail, hcut⟩ := ih
    rw [hpoint.trimEnd_append]
    refine ⟨tail ++ point, by rw [← List.append_assoc, ← hlead], ?_, ?_⟩
    · exact htail.append hpoint.isSpace (by simpa using hpoint.isCut [])
    · cases tail with
      | nil => simpa using hpoint.isCut []
      | cons c tail => exact fun d hd => hcut d (by simpa using hd)

/-- Trimming the end twice is trimming it once. -/
theorem trimEnd_trimEnd (text : Bytes) : trimEnd (trimEnd text) = trimEnd text := by
  induction text using trimEndInduction with
  | keep text h => rw [h, h]
  | drop point lead hpoint ih => rw [hpoint.trimEnd_append, ih]

/-- A start that is not trimmed is not trimmed in front of less text either. -/
theorem trimStart_eq_of_append {text more : Bytes} (h : trimStart (text ++ more) = text ++ more) :
    trimStart text = text := by
  rcases trimStart_cases text with htext | ⟨point, rest, hpoint, rfl⟩
  · exact htext
  · obtain ⟨lead, hlead, -, -⟩ := trimStart_spec (rest ++ more)
    rw [List.append_assoc, hpoint.trimStart_append] at h
    have hlength := congrArg List.length hlead
    rw [h] at hlength
    simp only [List.length_append] at hlength
    cases hpoint <;> simp at hlength <;> omega

/-- Trimming twice is trimming once. -/
@[simp] theorem trim_trim (text : Bytes) : trim (trim text) = trim text := by
  obtain ⟨tail, htail, -, -⟩ := trimEnd_spec (trimStart text)
  have hstart : trimStart (trim text) = trim text := by
    apply trimStart_eq_of_append
    rw [trim, ← htail, trimStart_trimStart]
  rw [trim, hstart, trim, trimEnd_trimEnd]

/-- A text is its trimmed form between white space, and its mask is cut in the same way. -/
theorem trim_spec (text : Bytes) : ∃ lead tail, text = lead ++ (trim text ++ tail) ∧
    lead.length + (trimStart text).length = text.length ∧ IsSpace lead ∧ IsSpace tail ∧
    spaceMask text = spaceMask lead ++ spaceMask (trim text ++ tail) ∧ IsCut tail := by
  obtain ⟨lead, hlead, hspace, hmask⟩ := trimStart_spec text
  obtain ⟨tail, htail, hend, hcut⟩ := trimEnd_spec (trimStart text)
  refine ⟨lead, tail, ?_, ?_, hspace, hend, ?_, hcut⟩
  · rw [trim, ← htail, ← hlead]
  · rw [← List.length_append, ← hlead]
  · rw [trim, ← htail, hmask]

/-- A byte that can belong to white space: a blank, or a byte outside ASCII. -/
def IsSpaceByte (c : UInt8) : Prop := isAsciiSpace c = true ∨ 0x80 ≤ c

instance : DecidablePred IsSpaceByte :=
  fun c => inferInstanceAs (Decidable (isAsciiSpace c = true ∨ 0x80 ≤ c))

/-- The bytes of a white space piece can belong to white space. -/
theorem isSpaceByte_of_front {a : UInt8} {rest : Bytes} (h : (front a rest).1.isSpace = true) :
    ∀ c ∈ a :: rest.take (front a rest).2, IsSpaceByte c := by
  intro c hc
  rcases List.mem_cons.1 hc with rfl | hc
  · by_cases hascii : c < 0x80
    · have hmask := spaceMask_cons c rest
      rw [spaceMask_ascii hascii, h] at hmask
      exact .inl (List.cons.inj hmask).1
    · exact .inr (UInt8.not_lt.1 hascii)
  · have hcont := isContinuation_of_front hc
    simp only [isContinuation, Bool.and_eq_true, decide_eq_true_eq] at hcont
    exact .inr hcont.1

/-- Every byte that is masked can belong to white space. -/
theorem isSpaceByte_of_mem_zip {text : Bytes} {c : UInt8}
    (h : (c, true) ∈ text.zip (spaceMask text)) :
    IsSpaceByte c := by
  induction text using pieceInduction with
  | nil => simp at h
  | cons a rest ih =>
    have hlength : (a :: rest.take (front a rest).2).length = (front a rest).2 + 1 := by
      simp [Nat.min_eq_left (front_snd_le a rest)]
    have hsplit : a :: rest = (a :: rest.take (front a rest).2) ++ rest.drop (front a rest).2 := by
      simp
    rw [spaceMask_cons, hsplit, List.zip_append (by rw [hlength, List.length_replicate]),
      List.mem_append] at h
    rcases h with h | h
    · have hspace := List.eq_of_mem_replicate (List.of_mem_zip h).2
      exact isSpaceByte_of_front hspace.symm c (List.of_mem_zip h).1
    · exact ih h

/-- All bytes of white space can belong to white space. -/
theorem IsSpace.isSpaceByte {text : Bytes} (h : IsSpace text) : ∀ c ∈ text, IsSpaceByte c := by
  intro c hc
  obtain ⟨i, hi, rfl⟩ := List.getElem_of_mem hc
  have hzip : (text[i], true) ∈ text.zip (spaceMask text) := by
    rw [h]
    exact List.mem_iff_getElem.2 ⟨i, by simpa using hi, by simp⟩
  exact isSpaceByte_of_mem_zip hzip

/-- All bytes of a white space code point can belong to white space. -/
theorem SpacePoint.isSpaceByte {point : Bytes} (h : SpacePoint point) :
    ∀ c ∈ point, IsSpaceByte c :=
  h.isSpace.isSpaceByte

/-- A text that ends with a visible ASCII byte keeps its end when trimmed. -/
theorem trimEnd_snoc {text : Bytes} {c : UInt8} (hc : ¬ IsSpaceByte c) :
    trimEnd (text ++ [c]) = text ++ [c] := by
  rcases trimEnd_cases (text ++ [c]) with h | ⟨point, lead, hpoint, h⟩
  · exact h
  · have hmem : c ∈ point := by
      have hlast := congrArg List.getLast? h
      have hne : point ≠ [] := by cases hpoint <;> simp
      rw [List.getLast?_append, List.getLast?_singleton, List.getLast?_append,
        List.getLast?_eq_some_getLast hne, Option.some_or, Option.some_or, Option.some.injEq]
        at hlast
      exact hlast ▸ List.getLast_mem hne
    exact absurd (hpoint.isSpaceByte c hmem) hc

/-- Trimming a text that ends with a visible ASCII byte drops white space at its start only. -/
theorem trim_snoc (text : Bytes) {c : UInt8} (hc : ¬ IsSpaceByte c) :
    ∃ lead body, text = lead ++ body ∧
    trimStart (text ++ [c]) = body ++ [c] ∧ trim (text ++ [c]) = body ++ [c] ∧ IsSpace lead ∧
    spaceMask (text ++ [c]) = spaceMask lead ++ spaceMask (body ++ [c]) := by
  obtain ⟨lead, htext, hlead, hmask⟩ := trimStart_spec (text ++ [c])
  rcases List.eq_nil_or_concat (trimStart (text ++ [c])) with hnil | ⟨body, d, hbody⟩
  · rw [hnil, List.append_nil] at htext
    exact absurd (hlead.isSpaceByte c (htext ▸ by simp)) hc
  · rw [List.concat_eq_append] at hbody
    rw [hbody, ← List.append_assoc] at htext
    obtain ⟨rfl, hd⟩ := List.append_inj' htext rfl
    obtain rfl : c = d := by simpa using hd
    refine ⟨lead, body, rfl, hbody, ?_, hlead, hbody ▸ hmask⟩
    rw [trim, hbody, trimEnd_snoc hc]

/-- An ASCII byte of a white space code point is the whole of it. -/
theorem SpacePoint.eq_singleton {point : Bytes} {c : UInt8} (h : SpacePoint point)
    (hmem : c ∈ point) (hc : c < 0x80) : point = [c] := by
  cases h with
  | one => rw [List.mem_singleton.1 hmem]
  | two h =>
    simp only [isSpacePair, Bool.and_eq_true, Bool.or_eq_true, decide_eq_true_eq] at h
    simp only [List.mem_cons, List.not_mem_nil, or_false] at hmem
    grind
  | three h =>
    simp only [isSpaceTriple, Bool.and_eq_true, Bool.or_eq_true, decide_eq_true_eq] at h
    simp only [List.mem_cons, List.not_mem_nil, or_false] at hmem
    grind

/-- A white space code point is not empty. -/
theorem SpacePoint.ne_nil {point : Bytes} (h : SpacePoint point) : point ≠ [] := by
  cases h <;> exact List.cons_ne_nil _ _

/-- A text that starts with white space does not keep its start when trimmed. -/
theorem SpacePoint.trimStart_ne {point : Bytes} (h : SpacePoint point) (rest : Bytes) :
    trimStart (point ++ rest) ≠ point ++ rest := by
  intro heq
  obtain ⟨lead, hlead, -, -⟩ := trimStart_spec rest
  rw [h.trimStart_append] at heq
  have hlength := congrArg List.length hlead
  have hpoint := List.length_pos_iff.2 h.ne_nil
  rw [heq, List.length_append, List.length_append] at hlength
  omega

/-- A text that ends with white space does not keep its end when trimmed. -/
theorem SpacePoint.trimEnd_ne {point : Bytes} (h : SpacePoint point) (lead : Bytes) :
    trimEnd (lead ++ point) ≠ lead ++ point := by
  intro heq
  obtain ⟨tail, htail, -, -⟩ := trimEnd_spec lead
  rw [h.trimEnd_append] at heq
  have hlength := congrArg List.length htail
  have hpoint := List.length_pos_iff.2 h.ne_nil
  rw [heq, List.length_append, List.length_append] at hlength
  omega

/-- A text that is trimmed keeps its start and its end. -/
theorem trimStart_trimEnd_of_trim {text : Bytes} (h : text.trim = text) :
    trimStart text = text ∧ trimEnd text = text := by
  obtain ⟨lead, tail, htext, hstart, -⟩ := trim_spec text
  have hlength := congrArg List.length htext
  rw [h, List.length_append, List.length_append] at hlength
  obtain ⟨front, hfront, -, -⟩ := trimStart_spec text
  have hfrontLength := congrArg List.length hfront
  rw [List.length_append] at hfrontLength
  obtain rfl : front = [] := List.length_eq_zero_iff.1 (by omega)
  have hkeep : trimStart text = text := hfront.symm
  rw [trim, hkeep] at h
  exact ⟨hkeep, h⟩

/-- A start that is not trimmed is not trimmed in front of an ASCII byte either. -/
theorem trimStart_append_ascii {text : Bytes} {c : UInt8} (h : trimStart text = text)
    (hne : text ≠ [])
    (hc : c < 0x80) (rest : Bytes) : trimStart (text ++ c :: rest) = text ++ c :: rest := by
  rcases trimStart_cases (text ++ c :: rest) with hkeep | ⟨point, more, hpoint, heq⟩
  · exact hkeep
  · rcases List.append_eq_append_iff.1 heq with ⟨back, rfl, hback⟩ | ⟨back, rfl, -⟩
    · cases back with
      | nil => exact absurd h (by simpa using hpoint.trimStart_ne [])
      | cons d back =>
        obtain ⟨rfl, -⟩ := List.cons.inj hback
        have hpoint' := hpoint.eq_singleton (by simp) hc
        exact absurd (List.append_eq_singleton_iff.1 hpoint') (by simp [hne])
    · exact absurd h (hpoint.trimStart_ne back)

/-- An end that is not trimmed is not trimmed behind an ASCII byte either. -/
theorem trimEnd_append_ascii {text : Bytes} {c : UInt8} (h : trimEnd text = text) (hne : text ≠ [])
    (hc : c < 0x80) (lead : Bytes) : trimEnd (lead ++ c :: text) = lead ++ c :: text := by
  rcases trimEnd_cases (lead ++ c :: text) with hkeep | ⟨point, more, hpoint, heq⟩
  · exact hkeep
  · have hsplit : lead ++ [c] ++ text = more ++ point := by simpa using heq
    rcases List.append_eq_append_iff.1 hsplit with ⟨front, -, rfl⟩ | ⟨front, hfront, rfl⟩
    · exact absurd h (hpoint.trimEnd_ne front)
    · rcases List.eq_nil_or_concat front with rfl | ⟨front, d, rfl⟩
      · exact absurd h (by simpa using hpoint.trimEnd_ne [])
      · rw [List.concat_eq_append, ← List.append_assoc] at hfront
        obtain ⟨-, hd⟩ := List.append_inj' hfront rfl
        obtain rfl : c = d := by simpa using hd
        have hpoint' := hpoint.eq_singleton (by simp) hc
        exact absurd (List.append_eq_singleton_iff.1 hpoint') (by simp [hne])

/-- Two trimmed texts with an ASCII byte between them are trimmed. -/
theorem trim_append_ascii_append {text more : Bytes} {c : UInt8} (h : text.trim = text)
    (hne : text ≠ []) (hmore : more.trim = more) (hmoreNe : more ≠ []) (hc : c < 0x80) :
    trim (text ++ c :: more) = text ++ c :: more := by
  rw [trim, trimStart_append_ascii (trimStart_trimEnd_of_trim h).1 hne hc,
    trimEnd_append_ascii (trimStart_trimEnd_of_trim hmore).2 hmoreNe hc]

/-- Blanks in front of a text are trimmed. -/
theorem trim_blank_append {lead : Bytes} (h : ∀ c ∈ lead, isAsciiSpace c = true) (text : Bytes) :
    trim (lead ++ text) = trim text := by
  induction lead with
  | nil => rfl
  | cons c lead ih =>
    have hpoint : SpacePoint [c] := .one (h c (List.mem_cons_self ..))
    rw [trim, List.cons_append, ← List.singleton_append, hpoint.trimStart_append]
    exact ih fun d hd => h d (List.mem_cons_of_mem _ hd)

/-- A line break behind a trimmed text is trimmed. -/
theorem trim_append_line {text : Bytes} (h : text.trim = text) :
    trim (text ++ [Char.toUInt8 '\n']) = text := by
  have hpoint : SpacePoint [Char.toUInt8 '\n'] := .one (by decide)
  by_cases hne : text = []
  · subst hne
    decide
  · obtain ⟨hstart, hend⟩ := trimStart_trimEnd_of_trim h
    rw [trim, trimStart_append_ascii hstart hne (by decide), hpoint.trimEnd_append, hend]

end Bytes

end TagScript
