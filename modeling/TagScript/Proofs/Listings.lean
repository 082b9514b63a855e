import TagScript.Proofs.QuotedTexts
import TagScript.Token.Listing

/-!
# Listings are faithful

A listing has one line for each token: blanks for its level, the word for its kind, its offset
padded with blanks, and its text between quotes. Each of these fields ends where a byte of another
kind follows, so a line shows all of them and where it ends itself.

The nesting is shown by the levels alone. The lines of the content of a block end where a line
follows that is not deeper than the block, which `Token.Outside` says of what follows.
-/

namespace TagScript

/-- A run of bytes in front of a byte of another kind is told apart from what follows it. -/
theorem append_inj_of_run {p : UInt8 → Bool} {run run' rest rest' : Bytes}
    (h : run ++ rest = run' ++ rest') (hrun : ∀ c ∈ run, p c = true)
    (hrun' : ∀ c ∈ run', p c = true) (hrest : ∀ c ∈ rest.head?, p c = false)
    (hrest' : ∀ c ∈ rest'.head?, p c = false) : run = run' ∧ rest = rest' := by
  have hstop : ∀ {text : Bytes}, (∀ c ∈ text.head?, p c = false) → text.takeWhile p = [] := by
    intro text htext
    cases text with
    | nil => rfl
    | cons c text => exact List.takeWhile_cons_of_neg (Bool.eq_false_iff.1 (htext c rfl))
  have hfront := congrArg (List.takeWhile p) h
  rw [List.takeWhile_append_of_pos hrun, List.takeWhile_append_of_pos hrun',
    hstop hrest, hstop hrest', List.append_nil, List.append_nil] at hfront
  exact ⟨hfront, List.append_cancel_left (hfront ▸ h)⟩

/-- The byte of a decimal digit is its code point. -/
theorem toNat_of_mem_toDigits {n : Nat} {c : Char} (h : c ∈ Nat.toDigits 10 n) :
    c.toUInt8.toNat = c.toNat ∧ 48 ≤ c.toNat := by
  have hdigit := Nat.isDigit_of_mem_toDigits (by decide) (by decide) h
  simp only [Char.isDigit, ge_iff_le, Bool.and_eq_true, decide_eq_true_eq, UInt32.le_iff_toNat_le]
    at hdigit
  change 48 ≤ c.toNat ∧ c.toNat ≤ 57 at hdigit
  refine ⟨?_, hdigit.1⟩
  change c.toNat % 2 ^ 8 = c.toNat
  omega

/-- Decimal digits are no blanks. -/
theorem ne_of_mem_decimal {n : Nat} {c : UInt8} (h : c ∈ decimal n) : c ≠ 32 := by
  obtain ⟨digit, hdigit, rfl⟩ := List.mem_map.1 h
  obtain ⟨hbyte, hlow⟩ := toNat_of_mem_toDigits hdigit
  intro heq
  rw [heq] at hbyte
  exact absurd (hbyte ▸ hlow) (by decide)

/-- Numbers are written with the same digits when they are the same only. -/
theorem decimal_inj {m n : Nat} : decimal m = decimal n ↔ m = n := by
  have hread : ∀ n, (decimal n).map (fun c => Char.ofNat c.toNat) = Nat.toDigits 10 n := by
    intro n
    rw [decimal, List.map_map]
    refine (List.map_congr_left fun c hc => ?_).trans (List.map_id _)
    rw [Function.comp_apply, (toNat_of_mem_toDigits hc).1, Char.ofNat_toNat, id]
  refine ⟨fun h => ?_, congrArg decimal⟩
  have hdigits : Nat.toDigits 10 m = Nat.toDigits 10 n := by rw [← hread m, h, hread]
  have hvalue := congrArg (Nat.ofDigitChars 10 · 0) hdigits
  rwa [Nat.ofDigitChars_toDigits (by decide) (by decide),
    Nat.ofDigitChars_toDigits (by decide) (by decide)] at hvalue

section Fields

variable {m n : Nat} {text other rest rest' : Bytes}

/-- How many blanks stand in front of something else is seen. -/
theorem blanks_append_inj (h : Bytes.blanks m ++ rest = Bytes.blanks n ++ rest')
    (hrest : ∀ c ∈ rest.head?, c ≠ 32)
    (hrest' : ∀ c ∈ rest'.head?, c ≠ 32) : m = n ∧ rest = rest' := by
  have hrun : ∀ n, ∀ c ∈ Bytes.blanks n, decide (c = 32) = true := fun n c hc =>
    decide_eq_true (List.eq_of_mem_replicate hc)
  obtain ⟨hblanks, h⟩ :=
    append_inj_of_run h (hrun m) (hrun n) (fun c hc => decide_eq_false (hrest c hc))
    (fun c hc => decide_eq_false (hrest' c hc))
  have hlength := congrArg List.length hblanks
  rw [Bytes.blanks, Bytes.blanks, List.length_replicate, List.length_replicate] at hlength
  exact ⟨hlength, h⟩

/-- A padded number in front of a blank is seen. -/
theorem padRight_decimal_append_inj {width : Nat}
    (h : Bytes.padRight width (decimal m) ++ 32 :: rest = Bytes.padRight width (decimal n) ++
      32 :: rest') :
    m = n ∧ rest = rest' := by
  have hrun : ∀ n, ∀ c ∈ decimal n, decide (c ≠ 32) = true :=
    fun n c hc => decide_eq_true (ne_of_mem_decimal hc)
  have hstop : ∀ k (text : Bytes), ∀ c ∈ (Bytes.blanks k ++ 32 :: text).head?,
      decide (c ≠ 32) = false := by
    intro k text c hc
    cases k <;> exact decide_eq_false fun hne => hne (Option.some.inj hc).symm
  rw [Bytes.padRight, Bytes.padRight, List.append_assoc, List.append_assoc] at h
  obtain ⟨hdigits, h⟩ := append_inj_of_run h (hrun m) (hrun n) (hstop _ rest) (hstop _ rest')
  rw [hdigits] at h
  exact ⟨decimal_inj.1 hdigits, (List.cons.inj (List.append_cancel_left h)).2⟩

/-- A quoted text in front of a line break is seen. -/
theorem quoted_append_inj (h : quoted text ++ 10 :: rest = quoted other ++ 10 :: rest') :
    text = other ∧ rest = rest' := by
  have hrun : ∀ text, ∀ c ∈ quoted text, decide (c ≠ 10) = true :=
    fun text c hc => decide_eq_true (ne_of_mem_quoted hc)
  have hstop : ∀ text : Bytes, ∀ c ∈ (10 :: text).head?, decide (c ≠ 10) = false := fun text c hc =>
    decide_eq_false fun hne => hne (Option.some.inj hc).symm
  obtain ⟨hquoted, h⟩ := append_inj_of_run h (hrun text) (hrun other) (hstop rest) (hstop rest')
  exact ⟨quoted_inj.1 hquoted, (List.cons.inj h).2⟩

end Fields

namespace Token

/-- The words for the kinds, padded to one length. -/
def kindField (isBlock : Bool) : Bytes := if isBlock then "block" else "leaf "

/-- The kind of a token fills its field. -/
theorem padRight_kindName (t : Token) : Bytes.padRight 5 t.kindName = kindField t.isBlock := by
  cases t <;> rfl

/-- The word for a kind is seen. -/
theorem kindField_append_inj {a b : Bool} {rest rest' : Bytes}
    (h : kindField a ++ rest = kindField b ++ rest') :
    a = b ∧ rest = rest' := by
  have hlength : ∀ b, (kindField b).length = 5 := by decide
  have hinj : ∀ a b, kindField a = kindField b → a = b := by decide
  obtain ⟨hkind, h⟩ := List.append_inj h ((hlength a).trans (hlength b).symm)
  exact ⟨hinj a b hkind, h⟩

/-- A line of a listing shows the level, the kind, the offset and the text of its token, and where
it ends. -/
theorem listingLine_append_inj {level level' : Nat} {t u : Token} {rest rest' : Bytes}
    (h : listingLine level t ++ rest = listingLine level' u ++ rest') :
    level = level' ∧ t.isBlock = u.isBlock ∧ t.offset = u.offset ∧
      t.head = u.head ∧ rest = rest' := by
  have hkind : ∀ (b : Bool) (text : Bytes), ∀ c ∈ (kindField b ++ text).head?, c ≠ 32 := by
    intro b text c hc
    cases b <;> exact Option.some.inj hc ▸ (by decide)
  simp only [listingLine, padRight_kindName, List.append_assoc] at h
  obtain ⟨hlevel, h⟩ := blanks_append_inj h (hkind _ _) (hkind _ _)
  obtain ⟨hblock, h⟩ := kindField_append_inj h
  obtain ⟨hoffset, h⟩ := padRight_decimal_append_inj (List.append_cancel_left h)
  obtain ⟨hhead, h⟩ := quoted_append_inj h
  exact ⟨Nat.eq_of_mul_eq_mul_left (by decide) hlevel, hblock, hoffset, hhead, h⟩

/-- The lines of a sequence whose tokens stand at the given level. -/
def listingFrom (level : Nat) (tokens : List Token) : Bytes :=
  (preorderAll level tokens).flatMap fun (level, token) => token.listingLine level

/-- A listing starts at the outermost level. -/
theorem listing_eq (tokens : List Token) : listing tokens = listingFrom 0 tokens := rfl

/-- No tokens have no lines. -/
@[simp] theorem listingFrom_nil (level : Nat) : listingFrom level [] = [] := rfl

/-- The line of a leaf, and the lines of what follows it. -/
theorem listingFrom_leaf (level : Nat) (text : Bytes) (offset : Nat) (ts : List Token) :
    listingFrom level (.leaf text offset :: ts) =
      listingLine level (.leaf text offset) ++ listingFrom level ts := by
  simp [listingFrom, preorderAll, preorder]

/-- The line of a block, the lines of what is inside it one level deeper, and of what follows it. -/
theorem listingFrom_block (level : Nat) (signature : Bytes) (children : List Token)
    (offset : Nat) (ts : List Token) : listingFrom level (.block signature children offset :: ts) =
      listingLine level (.block signature children offset) ++
        (listingFrom (level + 1) children ++ listingFrom level ts) := by
  simp [listingFrom, preorderAll, preorder]

/-- What follows the lines of a level: nothing, or a line of a level further out. -/
def Outside (level : Nat) (rest : Bytes) : Prop :=
  rest = [] ∨ ∃ outer < level, ∃ t more, rest = listingLine outer t ++ more

/-- A listing starts with the line of its first token. -/
theorem listingFrom_cons (level : Nat) (t : Token) (ts : List Token) :
    ∃ more, listingFrom level (t :: ts) = listingLine level t ++ more := by
  cases t with
  | leaf text offset => exact ⟨_, listingFrom_leaf ..⟩
  | block signature children offset => exact ⟨_, listingFrom_block ..⟩

/-- What follows deeper lines: lines of this level, or what follows these. -/
theorem Outside.listingFrom_append {level : Nat} {rest : Bytes} (h : Outside level rest)
    (ts : List Token) :
    Outside (level + 1) (listingFrom level ts ++ rest) := by
  cases ts with
  | nil =>
    rcases h with rfl | ⟨outer, houter, t, more, rfl⟩
    · exact .inl rfl
    · exact .inr ⟨outer, Nat.lt_succ_of_lt houter, t, more, rfl⟩
  | cons t ts =>
    obtain ⟨more, hmore⟩ := listingFrom_cons level t ts
    rw [hmore, List.append_assoc]
    exact .inr ⟨level, Nat.lt_succ_self level, t, _, rfl⟩

/-- A line is not empty. -/
theorem listingLine_ne_nil (level : Nat) (t : Token) : listingLine level t ≠ [] := by
  simp [listingLine, quoted]

/-- What stands outside a level does not start with a line of the level. -/
theorem Outside.ne_listingFrom_cons {level : Nat} {rest rest' : Bytes}
    (h : Outside level rest) (t : Token)
    (ts : List Token) : rest ≠ listingFrom level (t :: ts) ++ rest' := by
  intro heq
  obtain ⟨more, hmore⟩ := listingFrom_cons level t ts
  rw [hmore, List.append_assoc] at heq
  rcases h with rfl | ⟨outer, houter, u, tail, rfl⟩
  · exact listingLine_ne_nil level t (List.append_eq_nil_iff.1 heq.symm).1
  · exact Nat.ne_of_lt houter (listingLine_append_inj heq).1

/-- The lines of a level are seen in front of what lies outside. -/
theorem listingFrom_append_inj (ts us : List Token) {level : Nat} {rest rest' : Bytes}
    (h : listingFrom level ts ++ rest = listingFrom level us ++ rest') (hrest : Outside level rest)
    (hrest' : Outside level rest') : ts = us ∧ rest = rest' := by
  match ts, us with
  | [], [] => exact ⟨rfl, h⟩
  | [], u :: us => exact absurd h (hrest.ne_listingFrom_cons u us)
  | t :: ts, [] => exact absurd h.symm (hrest'.ne_listingFrom_cons t ts)
  | .leaf text offset :: ts, .leaf text' offset' :: us =>
    simp only [listingFrom_leaf, List.append_assoc] at h
    obtain ⟨-, -, rfl, rfl, hbehind⟩ := listingLine_append_inj h
    obtain ⟨rfl, hsame⟩ := listingFrom_append_inj ts us hbehind hrest hrest'
    exact ⟨rfl, hsame⟩
  | .block signature children offset :: ts, .block signature' children' offset' :: us =>
    simp only [listingFrom_block, List.append_assoc] at h
    obtain ⟨-, -, rfl, rfl, hinside⟩ := listingLine_append_inj h
    -- the lines of the content end where a line of this level, or of one further out, follows
    obtain ⟨rfl, hbehind⟩ :=
      listingFrom_append_inj children children' hinside (hrest.listingFrom_append ts)
      (hrest'.listingFrom_append us)
    obtain ⟨rfl, hsame⟩ := listingFrom_append_inj ts us hbehind hrest hrest'
    exact ⟨rfl, hsame⟩
  | .leaf text offset :: ts, .block signature children offset' :: us =>
    simp only [listingFrom_leaf, listingFrom_block, List.append_assoc] at h
    exact absurd (listingLine_append_inj h).2.1 Bool.false_ne_true
  | .block signature children offset :: ts, .leaf text offset' :: us =>
    simp only [listingFrom_leaf, listingFrom_block, List.append_assoc] at h
    exact absurd (listingLine_append_inj h).2.1 Bool.false_ne_true.symm

/-- A listing is faithful. Two sequences of tokens, with any texts and offsets, have the same
listing only if they are the same: in kinds, texts, offsets and nesting. -/
theorem listing_faithful (ts us : List Token) : listing ts = listing us ↔ ts = us := by
  refine ⟨fun h => ?_, congrArg listing⟩
  rw [listing_eq, listing_eq, ← List.append_nil (listingFrom 0 ts),
    ← List.append_nil (listingFrom 0 us)] at h
  exact (listingFrom_append_inj ts us h (.inl rfl) (.inl rfl)).1

/-- The number in front of a quoted text, and an escape in it. -/
example : listing [.block "f(" [.leaf "a\t" 2] 0, .leaf [0x80] 123456] =
    "block @0     \"f(\"\n  leaf  @2     \"a\\t\"\nleaf  @123456 \"\\x80\"\n" := by
  decide +kernel

end Token

end TagScript
