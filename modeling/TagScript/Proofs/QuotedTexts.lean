import Mathlib.Algebra.Group.Nat.Defs
import TagScript.Text.Quoted

/-!
# Quoted text is read back

A quoted text shows code points, and bytes that belong to none. What is not printable is escaped by
a letter, or by the number of the byte or of the code point in hexadecimal digits. `Quoted.unescape`
reads the bytes back.

Each piece of a text is shown either by its own bytes, none of which is a backslash, or by a
backslash and what follows it. `Quoted.Shows` says this of a piece and of what it is shown by. So
the text comes back piece by piece, and no line break stands between the quotes.
-/

namespace TagScript

namespace Utf8

/-- A byte is a number of its range. -/
theorem eq_ofNat_iff {c : UInt8} {n : Nat} (h : n < 256) : c = UInt8.ofNat n ↔ c.toNat = n := by
  rw [← UInt8.toNat_inj, UInt8.toNat_ofNat', Nat.mod_eq_of_lt h]

/-- A continuation byte is its mark and its payload. -/
theorem eq_of_isContinuation {c : UInt8} (h : isContinuation c = true) :
    payload c < 64 ∧ c = UInt8.ofNat (payload c + 128) := by
  simp only [isContinuation, Bool.and_eq_true, decide_eq_true_eq, UInt8.le_iff_toNat_le,
    UInt8.reduceToNat] at h
  have hpayload : payload c = c.toNat - 128 := by
    rw [payload]
    omega
  exact ⟨by omega, (eq_ofNat_iff (by omega)).2 (by omega)⟩

/-- The bytes of a valid code point, by its size. -/
theorem encode_eq {n : Nat} (h : n.isValidChar) : encode n =
    if n ≤ 0x7F then [UInt8.ofNat n]
    else if n ≤ 0x7FF then [UInt8.ofNat (n / 64 % 32 + 192), UInt8.ofNat (n % 64 + 128)]
    else if n ≤ 0xFFFF then
      [UInt8.ofNat (n / 4096 % 16 + 224), UInt8.ofNat (n / 64 % 64 + 128),
        UInt8.ofNat (n % 64 + 128)]
    else [UInt8.ofNat (n / 262144 % 8 + 240), UInt8.ofNat (n / 4096 % 64 + 128),
      UInt8.ofNat (n / 64 % 64 + 128),
      UInt8.ofNat (n % 64 + 128)] := by
  have hval : (Char.ofNat n).val.toNat = n := by
    rw [Char.ofNat, dif_pos h]
    rfl
  rw [encode, String.utf8EncodeChar, hval]

/-- A code point past ASCII and the bytes that it is written with. -/
structure Writes (n : Nat) (bytes : Bytes) : Prop where
  beyond : 0x80 ≤ n
  valid : n.isValidChar
  encode : encode n = bytes

/-- Two bytes that are read as a code point write it. -/
theorem writes_of_two? {a b : UInt8} {n : Nat} (h : two? a b = some n) : Writes n [a, b] := by
  unfold two? at h
  split at h
  next hform =>
    simp only [Bool.and_eq_true, decide_eq_true_eq, UInt8.le_iff_toNat_le, UInt8.reduceToNat]
      at hform
    obtain ⟨⟨hlow, hhigh⟩, hb⟩ := hform
    obtain ⟨hy, hb⟩ := eq_of_isContinuation hb
    have hx : a.toNat % 32 = a.toNat - 192 := by omega
    have ha : a = UInt8.ofNat (a.toNat % 32 + 192) := (eq_ofNat_iff (by omega)).2 (by omega)
    obtain rfl := Option.some.inj h
    generalize payload b = y at *
    generalize a.toNat % 32 = x at *
    have hdiv : (x * 64 + y) / 64 % 32 = x := by omega
    have hmod : (x * 64 + y) % 64 = y := by omega
    have hvalid : (x * 64 + y).isValidChar := .inl (by omega)
    refine ⟨by omega, hvalid, ?_⟩
    rw [encode_eq hvalid, if_neg (by omega), if_pos (by omega), hdiv, hmod, ← ha, ← hb]
  next => exact nomatch h

/-- Three bytes that are read as a code point write it. -/
theorem writes_of_three? {a b c : UInt8} {n : Nat} (h : three? a b c = some n) :
    Writes n [a, b, c] := by
  unfold three? at h
  dsimp only at h
  split at h
  next hform =>
    simp only [Bool.and_eq_true, decide_eq_true_eq, UInt8.le_iff_toNat_le,
      UInt8.reduceToNat, Bool.not_eq_true', ← Bool.not_eq_true] at hform
    obtain ⟨⟨⟨⟨⟨hlow, hhigh⟩, hb⟩, hc⟩, hleast⟩, hsurrogate⟩ := hform
    obtain ⟨hy, hb⟩ := eq_of_isContinuation hb
    obtain ⟨hz, hc⟩ := eq_of_isContinuation hc
    have hx : a.toNat % 16 = a.toNat - 224 := by omega
    have ha : a = UInt8.ofNat (a.toNat % 16 + 224) := (eq_ofNat_iff (by omega)).2 (by omega)
    obtain rfl := Option.some.inj h
    generalize payload b = y at *
    generalize payload c = z at *
    generalize a.toNat % 16 = x at *
    have hfirst : (x * 4096 + y * 64 + z) / 4096 % 16 = x := by omega
    have hsecond : (x * 4096 + y * 64 + z) / 64 % 64 = y := by omega
    have hthird : (x * 4096 + y * 64 + z) % 64 = z := by omega
    have hvalid : (x * 4096 + y * 64 + z).isValidChar := by
      unfold Nat.isValidChar
      omega
    refine ⟨by omega, hvalid, ?_⟩
    rw [encode_eq hvalid, if_neg (by omega), if_neg (by omega), if_pos (by omega),
      hfirst, hsecond, hthird, ← ha, ← hb, ← hc]
  next => exact nomatch h

/-- Four bytes that are read as a code point write it. -/
theorem writes_of_four? {a b c d : UInt8} {n : Nat} (h : four? a b c d = some n) :
    Writes n [a, b, c, d] := by
  unfold four? at h
  dsimp only at h
  split at h
  next hform =>
    simp only [Bool.and_eq_true, decide_eq_true_eq, UInt8.le_iff_toNat_le, UInt8.reduceToNat]
      at hform
    obtain ⟨⟨⟨⟨⟨⟨hlow, hhigh⟩, hb⟩, hc⟩, hd⟩, hleast⟩, hmost⟩ := hform
    obtain ⟨hy, hb⟩ := eq_of_isContinuation hb
    obtain ⟨hz, hc⟩ := eq_of_isContinuation hc
    obtain ⟨hw, hd⟩ := eq_of_isContinuation hd
    have hx : a.toNat % 8 = a.toNat - 240 := by omega
    have ha : a = UInt8.ofNat (a.toNat % 8 + 240) := (eq_ofNat_iff (by omega)).2 (by omega)
    obtain rfl := Option.some.inj h
    generalize payload b = y at *
    generalize payload c = z at *
    generalize payload d = w at *
    generalize a.toNat % 8 = x at *
    have hfirst : (x * 262144 + y * 4096 + z * 64 + w) / 262144 % 8 = x := by omega
    have hsecond : (x * 262144 + y * 4096 + z * 64 + w) / 4096 % 64 = y := by omega
    have hthird : (x * 262144 + y * 4096 + z * 64 + w) / 64 % 64 = z := by omega
    have hfourth : (x * 262144 + y * 4096 + z * 64 + w) % 64 = w := by omega
    have hvalid : (x * 262144 + y * 4096 + z * 64 + w).isValidChar := .inr (by omega)
    refine ⟨by omega, hvalid, ?_⟩
    rw [encode_eq hvalid, if_neg (by omega), if_neg (by omega), if_neg (by omega), hfirst, hsecond,
      hthird, hfourth, ← ha, ← hb, ← hc, ← hd]
  next => exact nomatch h

/-- The bytes of a code point past ASCII are no ASCII. -/
theorem Writes.le_of_mem {n : Nat} {bytes : Bytes} (h : Writes n bytes) :
    ∀ b ∈ bytes, 0x80 ≤ b := by
  obtain ⟨hbeyond, hvalid, rfl⟩ := h
  have hbyte : ∀ k, 128 ≤ k → k < 256 → (0x80 : UInt8) ≤ UInt8.ofNat k := by
    intro k hlow hhigh
    rw [UInt8.le_iff_toNat_le, UInt8.toNat_ofNat', Nat.mod_eq_of_lt hhigh]
    exact hlow
  rw [encode_eq hvalid, if_neg (by omega)]
  intro b hb
  split at hb
  · simp only [List.mem_cons, List.not_mem_nil, or_false] at hb
    rcases hb with rfl | rfl <;> exact hbyte _ (by omega) (by omega)
  split at hb
  · simp only [List.mem_cons, List.not_mem_nil, or_false] at hb
    rcases hb with rfl | rfl | rfl <;> exact hbyte _ (by omega) (by omega)
  · simp only [List.mem_cons, List.not_mem_nil, or_false] at hb
    rcases hb with rfl | rfl | rfl | rfl <;> exact hbyte _ (by omega) (by omega)

/-- What stands in front of a text: an ASCII byte, a byte that belongs to no code point, or another
code point with its bytes. -/
theorem front_cases (a : UInt8) (rest : Bytes) :
    a < 0x80 ∧ front a rest = (.point a.toNat, 0) ∨ front a rest = (.stray a, 0) ∨
      ∃ n more, front a rest = (.point n, more) ∧ Writes n (a :: rest.take more) := by
  fun_cases front a rest with
  | case1 _ hascii => exact .inl ⟨hascii, rfl⟩
  | case2 | case4 | case6 | case8 => exact .inr (.inl rfl)
  | case3 _ b rest n h => exact .inr (.inr ⟨n, 1, rfl, writes_of_two? h⟩)
  | case5 _ b _ c rest n h => exact .inr (.inr ⟨n, 2, rfl, writes_of_three? h⟩)
  | case7 _ b _ c _ d rest n h => exact .inr (.inr ⟨n, 3, rfl, writes_of_four? h⟩)

end Utf8

namespace Quoted

/-- The value of a hexadecimal digit. -/
def digitValue (c : UInt8) : Nat := if c < 58 then c.toNat - 48 else c.toNat - 87

/-- The number that hexadecimal digits stand for. -/
def ofHex (digits : Bytes) : Nat := digits.foldl (fun n c => 16 * n + digitValue c) 0

/-- The bytes that an escape stands for, by the byte behind its backslash, and how many digits
follow. -/
def escaped (c : UInt8) (rest : Bytes) : Bytes × Nat :=
  if c = 'x' then ([UInt8.ofNat (ofHex (rest.take 2))], 2)
  else if c = 'u' then (Utf8.encode (ofHex (rest.take 4)), 4)
  else if c = 'U' then (Utf8.encode (ofHex (rest.take 8)), 8)
  else match (List.range 14).find? fun n => letter? n = some c with
    | some n => ([UInt8.ofNat n], 0)
    | none => ([c], 0)

/-- What was written between quotes, read back. -/
def unescape : Bytes → Bytes
  | [] => []
  | [c] => [c]
  | c :: d :: text =>
    if c = 0x5C then (escaped d text).1 ++ unescape (text.drop (escaped d text).2)
    else c :: unescape (d :: text)
termination_by text => text.length

/-- A number is written with as many digits as are asked for. -/
@[simp] theorem length_hex (width n : Nat) : (hex width n).length = width := by
  induction width generalizing n with
  | zero => rfl
  | succ width ih => rw [hex, List.length_append, ih, List.length_singleton]

/-- A digit has the value that it was written for. -/
theorem digitValue_hexDigit {n : Nat} (h : n < 16) : digitValue (hexDigit n) = n := by
  have hall : ∀ n : Fin 16, digitValue (hexDigit n) = n := by decide
  exact hall ⟨n, h⟩

/-- The digits of a number are read back as the number, if all of them are written. -/
theorem ofHex_hex {width n : Nat} (h : n < 16 ^ width) : ofHex (hex width n) = n := by
  induction width generalizing n with
  | zero => exact (Nat.lt_one_iff.1 h).symm
  | succ width ih =>
    have hfront : ofHex (hex width (n / 16)) = n / 16 := ih (by rw [Nat.pow_succ] at h; omega)
    rw [ofHex] at hfront
    rw [ofHex, hex, List.foldl_append, hfront, List.foldl_cons, List.foldl_nil,
      digitValue_hexDigit (by omega)]
    omega

/-- Bytes without a backslash stand for themselves. -/
theorem unescape_plain {bytes : Bytes} (h : ∀ c ∈ bytes, c ≠ 0x5C) (tail : Bytes) :
    unescape (bytes ++ tail) = bytes ++ unescape tail := by
  induction bytes with
  | nil => rfl
  | cons c bytes ih =>
    obtain ⟨hc, hbytes⟩ := List.forall_mem_cons.1 h
    have hread : unescape (c :: (bytes ++ tail)) = c :: unescape (bytes ++ tail) := by
      cases bytes ++ tail with
      | nil => simp only [unescape]
      | cons d text => rw [unescape, if_neg hc]
    rw [List.cons_append, hread, ih hbytes, List.cons_append]

/-- Digits are no line breaks. -/
theorem ne_of_mem_hex {width n : Nat} {c : UInt8} (h : c ∈ hex width n) : c ≠ 10 := by
  induction width generalizing n with
  | zero => exact nomatch h
  | succ width ih =>
    rw [hex, List.mem_append, List.mem_singleton] at h
    rcases h with h | rfl
    · exact ih h
    · have hall : ∀ n : Fin 16, hexDigit n ≠ 10 := by decide
      exact hall ⟨n % 16, Nat.mod_lt _ (by decide)⟩

/-- How bytes stand between quotes: as they are, without a backslash, or as an escape that is read
as these bytes whatever follows. None of it is a line break. -/
inductive Shows (bytes : Bytes) : Bytes → Prop where
  | plain (hplain : ∀ c ∈ bytes, c ≠ 0x5C) (hline : ∀ c ∈ bytes, c ≠ 10) : Shows bytes bytes
  | escape {c : UInt8} {digits : Bytes}
      (hread : ∀ tail, escaped c (digits ++ tail) = (bytes, digits.length))
      (hline : ∀ d ∈ c :: digits, d ≠ 10) : Shows bytes (0x5C :: c :: digits)

namespace Shows

variable {bytes shown : Bytes}

/-- What is shown is read back. -/
theorem unescape_append (h : Shows bytes shown) (tail : Bytes) :
    unescape (shown ++ tail) = bytes ++ unescape tail := by
  cases h with
  | plain hplain => exact unescape_plain hplain tail
  | @escape c digits hread =>
    rw [List.cons_append, List.cons_append, unescape, if_pos rfl, hread, List.drop_left]

/-- What is shown holds no line break. -/
theorem ne_of_mem (h : Shows bytes shown) {c : UInt8} (hc : c ∈ shown) : c ≠ 10 := by
  cases h with
  | plain _ hline => exact hline c hc
  | escape _ hline =>
    rcases List.mem_cons.1 hc with rfl | hc
    · decide
    · exact hline c hc

/-- Numbers are shown as digits behind a letter. -/
theorem digits {c : UInt8} {width n : Nat} (hc : c ≠ 10)
    (hread : ∀ tail, escaped c (hex width n ++ tail) = (bytes, width)) :
    Shows bytes (0x5C :: c :: hex width n) := by
  refine escape (fun tail => by rw [hread, length_hex]) fun d hd => ?_
  rcases List.mem_cons.1 hd with rfl | hd
  · exact hc
  · exact ne_of_mem_hex hd

/-- A byte is shown by two digits. -/
theorem byte (c : UInt8) : Shows [c] ("\\x" ++ hex 2 c.toNat) := by
  have hlead : utf8 "\\x" = [0x5C, Char.toUInt8 'x'] := by decide
  rw [hlead]
  refine digits (by decide) fun tail => ?_
  rw [escaped, if_pos rfl, List.take_left' (length_hex ..), ofHex_hex c.toNat_lt, UInt8.ofNat_toNat]

/-- One byte behind the backslash is enough. -/
theorem mark {c : UInt8} (hc : c ≠ 10) (hread : ∀ tail, escaped c tail = (bytes, 0)) :
    Shows bytes [0x5C, c] :=
  @escape _ _ [] hread (List.forall_mem_singleton.2 hc)

/-- A control character that has a letter is shown by it. -/
theorem letter {n : Nat} {c : UInt8} (h : letter? n = some c) :
    Shows [UInt8.ofNat n] [0x5C, c] := by
  unfold letter? at h
  split at h <;> cases h <;> exact mark (by decide) fun _ => rfl

end Shows

/-- An ASCII byte as it stands between quotes. -/
theorem shows_ascii {a : UInt8} (h : a < 0x80) : Shows [a] (point a.toNat [a]) := by
  have hascii : a.toNat < 0x80 := UInt8.lt_iff_toNat_lt.1 h
  unfold point
  split
  next hmark =>
    simp only [Bool.or_eq_true, decide_eq_true_eq, ← Utf8.eq_ofNat_iff (show 0x22 < 256 by decide),
      ← Utf8.eq_ofNat_iff (show 0x5C < 256 by decide)] at hmark
    rcases hmark with rfl | rfl
    · exact Shows.mark (by decide) fun _ => rfl
    · exact Shows.mark (by decide) fun _ => rfl
  next hmark =>
    split
    next hprintable =>
      rw [isPrintable, if_pos hascii, Bool.and_eq_true, decide_eq_true_eq] at hprintable
      simp only [Bool.or_eq_true, decide_eq_true_eq] at hmark
      refine .plain (fun c hc => ?_) fun c hc => ?_
      · rintro rfl
        exact hmark (.inr (congrArg UInt8.toNat (List.mem_singleton.1 hc).symm))
      · rintro rfl
        rw [← List.mem_singleton.1 hc] at hprintable
        exact absurd hprintable.1 (by decide)
    next =>
      split
      next c hletter =>
        have hshows := Shows.letter hletter
        rwa [UInt8.ofNat_toNat] at hshows
      next => exact Shows.byte a

/-- A code point past ASCII as it stands between quotes. -/
theorem shows_beyond {n : Nat} {bytes : Bytes} (h : Utf8.Writes n bytes) :
    Shows bytes (point n bytes) := by
  have hbeyond := h.beyond
  have hmark : (decide (n = 0x22) || decide (n = 0x5C)) = false := by
    simp only [Bool.or_eq_false_iff, decide_eq_false_iff_not]
    omega
  have hne : ∀ k : UInt8, k < 0x80 → ∀ c ∈ bytes, c ≠ k := by
    rintro k hk c hc rfl
    exact UInt8.not_lt.2 (h.le_of_mem c hc) hk
  have hletter : letter? n = none := by
    unfold letter?
    split <;> first
      | omega
      | rfl
  have hu : utf8 "\\u" = [0x5C, Char.toUInt8 'u'] := by decide
  have hU : utf8 "\\U" = [0x5C, Char.toUInt8 'U'] := by decide
  rw [point, hmark, if_neg Bool.false_ne_true, hletter, hu, hU]
  split
  · exact .plain (hne 0x5C (by decide)) (hne 10 (by decide))
  dsimp only
  rw [if_neg (Nat.not_lt.2 hbeyond)]
  split
  next hsmall =>
    refine .digits (by decide) fun tail => ?_
    rw [escaped, if_neg (by decide), if_pos rfl, List.take_left' (length_hex ..),
      ofHex_hex hsmall, h.encode]
  next =>
    have hlarge : n < 16 ^ 8 := by
      have hvalid := h.valid
      unfold Nat.isValidChar at hvalid
      omega
    refine .digits (by decide) fun tail => ?_
    rw [escaped, if_neg (by decide), if_neg (by decide), if_pos rfl,
      List.take_left' (length_hex ..), ofHex_hex hlarge, h.encode]

/-- The first piece of a text as it stands between quotes. -/
theorem shows_front (a : UInt8) (rest : Bytes) : Shows (a :: rest.take (Utf8.front a rest).2)
    (piece ((Utf8.front a rest).1, a :: rest.take (Utf8.front a rest).2)) := by
  rcases Utf8.front_cases a rest with ⟨hascii, h⟩ | h | ⟨n, more, h, hwrites⟩
  · rw [h]
    exact shows_ascii hascii
  · rw [h]
    exact Shows.byte a
  · rw [h]
    exact shows_beyond hwrites

/-- What stands between the quotes is read back as the text. -/
theorem unescape_pieces (text : Bytes) : unescape ((Utf8.pieces text).flatMap piece) = text := by
  fun_induction Utf8.pieces text with
  | case1 => simp [unescape]
  | case2 a rest first more hfront ih =>
    have hshows := shows_front a rest
    rw [hfront] at hshows
    rw [List.flatMap_cons, hshows.unescape_append, ih, List.cons_append, List.take_append_drop]

/-- A quoted text holds no line break. -/
theorem ne_of_mem_pieces {text : Bytes} {c : UInt8} (h : c ∈ (Utf8.pieces text).flatMap piece) :
    c ≠ 10 := by
  fun_induction Utf8.pieces text with
  | case1 => exact nomatch h
  | case2 a rest first more hfront ih =>
    have hshows := shows_front a rest
    rw [hfront] at hshows
    rw [List.flatMap_cons, List.mem_append] at h
    exact h.elim hshows.ne_of_mem ih

end Quoted

/-- Quoted texts are the same for the same texts only. -/
theorem quoted_inj {text other : Bytes} : quoted text = quoted other ↔ text = other := by
  refine ⟨fun h => ?_, congrArg quoted⟩
  have hpieces := (List.cons.inj (List.append_cancel_right h)).2
  rw [← Quoted.unescape_pieces text, hpieces, Quoted.unescape_pieces]

/-- A quoted text stands on one line. -/
theorem ne_of_mem_quoted {text : Bytes} {c : UInt8} (h : c ∈ quoted text) : c ≠ 10 := by
  rw [quoted, List.mem_append, List.mem_cons, List.mem_singleton] at h
  rcases h with (rfl | h) | rfl
  · decide
  · exact Quoted.ne_of_mem_pieces h
  · decide

end TagScript
