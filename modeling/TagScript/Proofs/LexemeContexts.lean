import Mathlib.Data.List.Find
import TagScript.Proofs.ParameterReading
import TagScript.Proofs.TypeTexts

/-!
# Lexemes in their contexts

What stands behind a lexeme matters for it only up to the next comma, since no lexeme but a string
literal holds one. So a text in front of a comma is read as it is read alone, unless it leaves a
quote open that is closed behind the comma. `Lexeme.Apart` says that a text is read in this way.

Texts that are joined with commas are therefore read one by one, and `Lexeme.groups_sequence_iff`
says when they are: to read all of them together as given groups of lexemes is to read each one
alone as its group, with no quote closed across a comma. Lexemes are compared without their places.
-/

namespace TagScript

open Bytes

section Prefixes

variable {lead text tail : Bytes} {p : UInt8 → Bool}

/-- Behind a run of bytes stands what is not part of it. -/
theorem drop_takeWhile (p : UInt8 → Bool) (text : Bytes) :
    text.drop (text.takeWhile p).length = text.dropWhile p := by
  have hdrop : (text.takeWhile p ++ text.dropWhile p).drop (text.takeWhile p).length =
      text.dropWhile p := List.drop_left
  rwa [List.takeWhile_append_dropWhile] at hdrop

/-- A run of bytes ends where something else follows. -/
theorem takeWhile_append_stop (h : ∀ d ∈ tail.head?, p d = false) :
    (text ++ tail).takeWhile p = text.takeWhile p := by
  rw [List.takeWhile_append]
  split
  next hall =>
    have htail : tail.takeWhile p = [] := by
      cases tail with
      | nil => rfl
      | cons d tail => rw [List.takeWhile_cons_of_neg (by simp [h d rfl])]
    rw [htail, List.append_nil, List.Sublist.eq_of_length (List.takeWhile_sublist p) hall]
  next => rfl

/-- Whether a text starts with something is decided before a byte that does not occur in it. -/
theorem Bytes.startsWith_append (text : Bytes) (h : ∀ d ∈ tail.head?, d ∉ lead) :
    startsWith (text ++ tail) lead = startsWith text lead := by
  rw [startsWith, startsWith]
  fun_induction after? lead text with
  | case1 => rw [after?]; rfl
  | case2 c lead =>
    cases tail with
    | nil => rfl
    | cons d tail =>
      have hd : c ≠ d := fun heq => h d rfl (heq ▸ List.mem_cons_self ..)
      rw [List.nil_append, after?, if_neg hd]
  | case3 lead c text ih =>
    rw [List.cons_append, after?, if_pos rfl]
    exact ih fun d hd hmem => h d hd (List.mem_cons_of_mem _ hmem)
  | case4 c lead d text hne => rw [List.cons_append, after?, if_neg hne]

/-- A run of bytes that ends within a text is the one of the text alone. -/
theorem takeWhile_of_append (h : ((text ++ tail).takeWhile p).length ≤ text.length) :
    (text ++ tail).takeWhile p = text.takeWhile p := by
  rw [List.takeWhile_append] at h ⊢
  split at h
  next hall =>
    rw [List.length_append] at h
    have htail : tail.takeWhile p = [] := List.eq_nil_of_length_eq_zero (by omega)
    rw [if_pos hall, htail, List.append_nil,
      List.Sublist.eq_of_length (List.takeWhile_sublist p) hall]
  next hall => rw [if_neg hall]

/-- What a text starts with it starts with whatever follows it. -/
theorem Bytes.startsWith_mono (h : startsWith text lead = true) (tail : Bytes) :
    startsWith (text ++ tail) lead = true := by
  rw [startsWith] at h ⊢
  fun_induction after? lead text with
  | case1 => rw [after?]; rfl
  | case2 => cases h
  | case3 lead c text ih => rw [List.cons_append, after?, if_pos rfl, ih h]
  | case4 => cases h

/-- Whether a text starts with something that is no longer than it does not depend on what follows
it. -/
theorem Bytes.startsWith_of_length (h : lead.length ≤ text.length) (tail : Bytes) :
    startsWith (text ++ tail) lead = startsWith text lead := by
  rw [startsWith, startsWith]
  fun_induction after? lead text with
  | case1 => rw [after?]; rfl
  | case2 => simp at h
  | case3 lead c text ih =>
    rw [List.cons_append, after?, if_pos rfl]
    exact ih (by simpa using h)
  | case4 c lead d text hne => rw [List.cons_append, after?, if_neg hne]

end Prefixes

/-- A name consists of bytes of names. -/
theorem Bytes.isNamePart_of_isIdent {name : Bytes} (h : name.isIdent = true) :
    ∀ c ∈ name, isNamePart c = true := by
  cases name with
  | nil => simp
  | cons c rest =>
    obtain ⟨hstart, hrest⟩ := Bool.and_eq_true_iff.1 h
    exact List.forall_mem_cons.2 ⟨Lexeme.isNamePart_of_isNameStart hstart, List.all_eq_true.1 hrest⟩

namespace Lexeme

variable {c quote : UInt8} {text rest tail : Bytes} {kind : LexemeKind} {offset more : Nat}
  {before after : List Lexeme} {lexeme first second : Lexeme}

/-- The first lexeme of a text and those behind it. -/
theorem allFrom_cons (offset : Nat) (c : UInt8) (rest : Bytes) : allFrom offset (c :: rest) =
    ⟨(front c rest).1, c :: rest.take (front c rest).2, offset⟩ ::
      allFrom (offset + 1 + (front c rest).2) (rest.drop (front c rest).2) := by
  rw [allFrom]

/-- A lexeme starts where those in front of it end. -/
theorem offset_of_allFrom (h : allFrom offset text = before ++ lexeme :: after) :
    lexeme.offset = offset + (joined before).length := by
  fun_induction allFrom offset text generalizing before with
  | case1 => simp at h
  | case2 offset c rest kind more hfront ih =>
    cases before with
    | nil =>
      obtain ⟨rfl, -⟩ := List.cons.inj h
      rfl
    | cons front before =>
      obtain ⟨rfl, hbehind⟩ := List.cons.inj h
      have hlength : more ≤ rest.length := by
        by_contra hlong
        rw [List.drop_eq_nil_of_le (by omega)] at hbehind
        simp [allFrom] at hbehind
      rw [ih hbehind, joined_cons, List.length_append, List.length_cons,
        List.length_take_of_le hlength]
      omega

/-- Behind a lexeme stands the text of those that follow it. -/
theorem drop_of_all (h : all text = before ++ lexeme :: after) :
    text.drop (lexeme.offset + lexeme.text.length) = joined after := by
  have htext : joined before ++ lexeme.text ++ joined after = text := by
    rw [← joined_allFrom 0 text, ← all, h, joined_append, joined_cons, List.append_assoc]
  rw [offset_of_allFrom h, Nat.zero_add, ← htext, List.drop_left' List.length_append]

/-- A byte that may start a name starts one. -/
theorem front_of_isNameStart (h : isNameStart c = true) (rest : Bytes) :
    front c rest = (.name, (rest.takeWhile isNamePart).length) := by
  have hquote : ∀ c : UInt8, isNameStart c = true → isQuote c = false := by decide +kernel
  simp [front, hquote c h, h]

/-- A name is not followed by another one without a gap. -/
theorem kind_ne_name (h : allFrom offset text = before ++ first :: second :: after)
    (hfirst : first.text.isIdent = true) : second.kind ≠ .name := by
  fun_induction allFrom offset text generalizing before with
  | case1 => simp at h
  | case2 offset c rest kind more hfront ih =>
    cases before with
    | cons front before => exact ih (List.cons.inj h).2
    | nil =>
      obtain ⟨rfl, hbehind⟩ := List.cons.inj h
      rw [front_of_isNameStart (Bool.and_eq_true_iff.1 hfirst).1] at hfront
      cases hfront
      rw [drop_takeWhile] at hbehind
      obtain ⟨d, tail, hrest⟩ : ∃ d tail, rest.dropWhile isNamePart = d :: tail := by
        refine List.exists_cons_of_ne_nil fun hnil => ?_
        simp [hnil, allFrom] at hbehind
      have hstop : isNamePart d = false := by
        have hhead := List.head_dropWhile_not isNamePart (l := rest) (by simp [hrest])
        simpa [hrest] using hhead
      rw [hrest, allFrom_cons] at hbehind
      obtain ⟨rfl, -⟩ := List.cons.inj hbehind
      intro hsecond
      have hkind : (front d tail).1 = .name := hsecond
      have hholds := holds_front d tail d (List.mem_cons_self ..)
      rw [hkind, LexemeKind.holds, hstop] at hholds
      exact Bool.noConfusion hholds

/-- A name is read as one. -/
theorem isIdent_text (h : lexeme ∈ allFrom offset text) (hkind : lexeme.kind = .name) :
    lexeme.text.isIdent = true := by
  obtain ⟨-, c, rest, more, -, -, hfronts, htext⟩ := eq_append_of_mem_allFrom h
  rw [hkind] at hfronts
  rw [htext]
  exact hfronts.isIdent_name

/-- A colon and an equals sign are read as one byte. -/
theorem text_of_sign (h : lexeme ∈ allFrom offset text)
    (hkind : lexeme.kind = .colon ∨ lexeme.kind = .assign) :
    ∃ c, lexeme.text = [c] ∧ lexeme.kind.holds c = true := by
  have hholds := holds_of_mem_allFrom h
  obtain ⟨-, c, rest, more, -, -, hfronts, htext⟩ := eq_append_of_mem_allFrom h
  have hmore : more = 0 := by
    rcases hkind with hkind | hkind <;> rw [hkind] at hfronts <;> cases hfronts <;> rfl
  rw [hmore, List.take_zero] at htext
  rw [htext] at hholds
  exact ⟨c, htext, hholds c (List.mem_singleton_self c)⟩

/-- A byte that is no blank stands in a visible lexeme. -/
theorem mem_joined_filter {lexemes : List Lexeme}
    (hread : ∀ lexeme ∈ lexemes, lexeme ∈ allFrom offset text)
    (hc : isBlankByte c = false) : c ∈ joined (lexemes.filter (·.kind ≠ .blank)) ↔
    c ∈ joined lexemes := by
  simp only [joined, List.mem_flatMap, List.mem_filter, decide_eq_true_eq]
  constructor
  · rintro ⟨lexeme, ⟨hlexeme, -⟩, hmem⟩
    exact ⟨lexeme, hlexeme, hmem⟩
  · rintro ⟨lexeme, hlexeme, hmem⟩
    refine ⟨lexeme, ⟨hlexeme, fun hblank => ?_⟩, hmem⟩
    have hholds := holds_of_mem_allFrom (hread lexeme hlexeme) c hmem
    rw [hblank, LexemeKind.holds, hc] at hholds
    exact Bool.noConfusion hholds

/-- A literal that closes in a text closes there whatever follows the text. -/
theorem stringRest?_append {n : Nat} (h : stringRest? quote text = some n) (tail : Bytes) :
    stringRest? quote (text ++ tail) = some n := by
  fun_induction stringRest? quote text generalizing n with
  | case1 => cases h
  | case2 => cases tail <;> simpa [stringRest?] using h
  | case3 => cases h
  | case4 d text => simpa [stringRest?] using h
  | case5 => cases h
  | case6 d text hquote hline ih =>
    obtain ⟨m, hm, rfl⟩ := Option.map_eq_some_iff.1 h
    simp [stringRest?, hquote, hline, ih hm]
  | case7 c d text hquote hescape ih =>
    obtain ⟨m, hm, rfl⟩ := Option.map_eq_some_iff.1 h
    have hrest := ih hm
    rw [List.cons_append] at hrest
    simp [stringRest?, hquote, hescape, hrest]

/-- A literal that closes within a text closes in the text alone. -/
theorem stringRest?_of_append {n : Nat} (h : stringRest? quote (text ++ tail) = some n)
    (hle : n ≤ text.length) :
    stringRest? quote text = some n := by
  fun_induction stringRest? quote text generalizing n with
  | case1 =>
    obtain ⟨inside, after, -, rfl⟩ := eq_append_of_stringRest? h
    simp at hle
  | case2 => cases tail <;> simpa [stringRest?] using h
  | case3 c hc =>
    cases tail with
    | nil => simp [stringRest?, hc] at h
    | cons d tail =>
      rw [List.cons_append, List.nil_append, stringRest?, if_neg hc] at h
      split at h
      · split at h
        · cases h
        · obtain ⟨m, -, rfl⟩ := Option.map_eq_some_iff.1 h
          simp at hle
      · obtain ⟨m, hm, rfl⟩ := Option.map_eq_some_iff.1 h
        obtain ⟨inside, after, -, rfl⟩ := eq_append_of_stringRest? hm
        simp at hle
  | case4 d text => simpa [stringRest?] using h
  | case5 text hquote => simp [stringRest?, hquote] at h
  | case6 d text hquote hline ih =>
    rw [List.cons_append, List.cons_append, stringRest?, if_neg hquote,
      if_pos rfl, if_neg hline] at h
    obtain ⟨m, hm, rfl⟩ := Option.map_eq_some_iff.1 h
    rw [ih hm (by simpa using hle)]
    rfl
  | case7 c d text hquote hescape ih =>
    rw [List.cons_append, List.cons_append, stringRest?, if_neg hquote, if_neg hescape] at h
    obtain ⟨m, hm, rfl⟩ := Option.map_eq_some_iff.1 h
    rw [ih hm (by simpa using hle)]
    rfl

/-- A comma, or no text at all: nothing that a lexeme could go on with. -/
def Stops (tail : Bytes) : Prop := ∀ d ∈ tail.head?, d = Char.toUInt8 ','

/-- The lexeme in front of a comma is read as it is read alone, if this holds of the literal it may
open. -/
theorem front_append (htail : Stops tail)
    (hquote : isQuote c = true → stringRest? c (rest ++ tail) = stringRest? c rest) :
    front c (rest ++ tail) = front c rest := by
  have hstring : (if isQuote c then stringRest? c (rest ++ tail) else none) =
      if isQuote c then stringRest? c rest else none := by
    split
    next hc => exact hquote hc
    next => rfl
  have hrun : ∀ p : UInt8 → Bool, p ',' = false → (rest ++ tail).takeWhile p = rest.takeWhile p :=
      fun p hp => takeWhile_append_stop fun d hd => htail d hd ▸ hp
  have hstart : ∀ lead : Bytes, Char.toUInt8 ',' ∉ lead →
      startsWith (c :: (rest ++ tail)) lead = startsWith (c :: rest) lead := fun lead hlead =>
    startsWith_append (c :: rest) fun d hd => htail d hd ▸ hlead
  have hlong : longOperators.find? (startsWith (c :: (rest ++ tail))) =
      longOperators.find? (startsWith (c :: rest)) := by
    have hplain : ∀ operator ∈ longOperators, Char.toUInt8 ',' ∉ operator := by decide +kernel
    exact List.find?_congr fun operator hmem => hstart operator (hplain operator hmem)
  have hcut : Utf8.IsCut tail := by
    intro d hd
    rw [htail d hd]
    decide
  rw [front, front, shortFront, shortFront, hstring, hrun isNamePart (by decide),
    hrun (fun c => isWord c || c = '.') (by decide), hrun isBlankByte (by decide),
    hstart _ (by decide), hlong, Utf8.front_append hcut]

/-- A lexeme that is told from its first byte ends within its text. -/
theorem shortFront_snd_le (c : UInt8) (rest : Bytes) : (shortFront c rest).2 ≤ rest.length := by
  fun_cases shortFront c rest with
  | case7 => exact (List.takeWhile_sublist _).length_le
  | case8 => exact Utf8.front_snd_le c rest
  | _ => exact Nat.zero_le _

/-- A lexeme ends within its text. -/
theorem front_snd_le (c : UInt8) (rest : Bytes) : (front c rest).2 ≤ rest.length := by
  have hrun : ∀ p : UInt8 → Bool, (rest.takeWhile p).length ≤ rest.length := fun p =>
    (List.takeWhile_sublist p).length_le
  have hstart : ∀ {lead : Bytes}, startsWith (c :: rest) lead = true →
      lead.length ≤ rest.length + 1 := by
    intro lead h
    obtain ⟨after, hafter⟩ := Option.isSome_iff_exists.1 h
    have hlength := congrArg List.length (eq_append_of_after? hafter)
    rw [List.length_cons, List.length_append] at hlength
    omega
  fun_cases front c rest with
  | case1 n hstring =>
    split at hstring
    · obtain ⟨inside, after, rfl, rfl⟩ := eq_append_of_stringRest? hstring
      simp
    · cases hstring
  | case2 => exact hrun _
  | case3 => exact hrun _
  | case4 _ _ _ harrow =>
    have hlength : (utf8 "=>").length = 2 := by decide
    have hle := hstart harrow
    dsimp only
    omega
  | case5 _ _ _ _ operator hfind =>
    have hle := hstart (List.find?_some hfind)
    dsimp only
    omega
  | case6 => exact shortFront_snd_le c rest

/-- A quote whose lexeme ends within a text is closed there or not closed at all. -/
theorem stringRest?_eq_of_front (hquote : isQuote c = true)
    (h : front c (rest ++ tail) = (kind, more))
    (hle : more ≤ rest.length) : stringRest? c (rest ++ tail) = stringRest? c rest := by
  cases hstring : stringRest? c (rest ++ tail) with
  | none =>
    cases halone : stringRest? c rest with
    | none => rfl
    | some n => exact absurd (hstring.symm.trans (stringRest?_append halone tail)) (by simp)
  | some n =>
    have hfront : front c (rest ++ tail) = (.string, n) := by simp [front, hquote, hstring]
    obtain ⟨-, rfl⟩ := Prod.mk.inj (hfront.symm.trans h)
    exact (stringRest?_of_append hstring hle).symm

/-- A code point that ends within a text is read as in the text alone. -/
theorem utf8Front_of_append (h : (Utf8.front c (rest ++ tail)).2 ≤ rest.length) :
    (Utf8.front c rest).2 = (Utf8.front c (rest ++ tail)).2 := by
  match rest with
  | [] =>
    rw [List.length_nil, Nat.le_zero] at h
    rw [h]
    exact Nat.le_zero.1 (Utf8.front_snd_le c [])
  | [b] =>
    cases tail with
    | nil => rfl
    | cons d tail =>
      cases tail <;> (simp only [Utf8.front, List.cons_append, List.nil_append] at h ⊢; grind)
  | [b, d] =>
    cases tail with
    | nil => rfl
    | cons e tail =>
      simp only [Utf8.front, List.cons_append, List.nil_append] at h ⊢
      grind
  | b :: d :: e :: rest => rfl

/-- The operator that a text starts with, if it ends within the text, is the one of the text
alone. -/
theorem find?_startsWith_of_append {found : Option Bytes}
    (h : longOperators.find? (startsWith (text ++ tail)) = found)
    (hle : ∀ operator ∈ found, operator.length ≤ text.length) :
    longOperators.find? (startsWith text) = found := by
  have hlonger : ∀ {lead : Bytes}, ¬ startsWith (text ++ tail) lead = true →
      ¬ startsWith text lead = true :=
    fun hno hstart => hno (startsWith_mono hstart tail)
  cases found with
  | none =>
    exact List.find?_eq_none.2 fun operator hmem => hlonger (List.find?_eq_none.1 h operator hmem)
  | some operator =>
    obtain ⟨hstart, before, after, hlist, hbefore⟩ := List.find?_eq_some_iff_append.1 h
    rw [startsWith_of_length (hle operator rfl)] at hstart
    refine List.find?_eq_some_iff_append.2 ⟨hstart, before, after, hlist, fun other hother => ?_⟩
    have hno := hlonger (by simpa using hbefore other hother)
    simpa using hno

/-- A lexeme that is told from its first byte and ends within a text is read as in the text
alone. -/
theorem shortFront_of_append (h : (shortFront c (rest ++ tail)).2 ≤ rest.length) :
    shortFront c rest = shortFront c (rest ++ tail) := by
  revert h
  fun_cases shortFront c (rest ++ tail) with
  | case7 =>
    intro hle
    rw [shortFront, takeWhile_of_append hle]
    simp only [*, Bool.false_eq_true, reduceIte]
  | case8 =>
    intro hle
    rw [shortFront, utf8Front_of_append hle]
    simp only [*, Bool.false_eq_true, reduceIte]
  | _ => simp_all [shortFront]

/-- A lexeme that ends within a text is read as in the text alone. -/
theorem front_of_append (h : (front c (rest ++ tail)).2 ≤ rest.length) :
    front c rest = front c (rest ++ tail) := by
  have hstring : (if isQuote c then stringRest? c (rest ++ tail) else none) =
      if isQuote c then stringRest? c rest else none := by
    split
    next hquote => exact stringRest?_eq_of_front hquote rfl h
    next => rfl
  have harrow : ¬ startsWith (c :: (rest ++ tail)) "=>" = true →
      ¬ startsWith (c :: rest) "=>" = true :=
    fun hno hstart => hno (startsWith_mono hstart tail)
  have hnone : longOperators.find? (startsWith (c :: (rest ++ tail))) = none →
      longOperators.find? (startsWith (c :: rest)) = none := fun hfind =>
    find?_startsWith_of_append (by exact hfind) (by simp)
  revert h
  fun_cases front c (rest ++ tail) with
  | case1 n hliteral =>
    intro
    rw [front, ← hstring, hliteral]
  | case2 hliteral hname =>
    intro hle
    rw [front, ← hstring, hliteral, takeWhile_of_append hle]
    simp [hname]
  | case3 hliteral hname hdigit =>
    intro hle
    rw [front, ← hstring, hliteral, takeWhile_of_append hle]
    simp [hname, hdigit]
  | case4 hliteral hname hdigit hstart =>
    intro hle
    have hlength : (utf8 "=>").length = 2 := by decide
    rw [← List.cons_append, startsWith_of_length (by simpa [hlength] using hle)] at hstart
    rw [front, ← hstring, hliteral]
    simp [hname, hdigit, hstart]
  | case5 hliteral hname hdigit hstart operator hfind =>
    intro hle
    rw [← List.cons_append] at hfind
    have halone := find?_startsWith_of_append hfind (by simpa using hle)
    rw [front, ← hstring, hliteral]
    simp [hname, hdigit, harrow hstart, halone]
  | case6 hliteral hname hdigit hstart hfind =>
    intro hle
    rw [front, ← hstring, hliteral, ← shortFront_of_append hle]
    simp [hname, hdigit, harrow hstart, hnone hfind]

/-- The lexeme without its place. -/
def unplaced (lexeme : Lexeme) : Lexeme := { lexeme with offset := 0 }

/-- The lexemes of a text, blanks included, without their places. -/
def spelling (text : Bytes) : List Lexeme := (all text).map unplaced

/-- The lexemes of a text that a grammar reads, without their places. -/
def sequence (text : Bytes) : List Lexeme := (visible text).map unplaced

/-- Where a text starts does not matter for its lexemes but for their places. -/
theorem map_unplaced_allFrom (offset other : Nat) (text : Bytes) :
    (allFrom offset text).map unplaced = (allFrom other text).map unplaced := by
  fun_induction allFrom offset text generalizing other with
  | case1 => simp [allFrom]
  | case2 offset c rest kind more hfront ih =>
    rw [allFrom_cons, hfront, List.map_cons, List.map_cons, ih]
    rfl

/-- An empty text has no lexemes. -/
@[simp] theorem spelling_nil : spelling [] = [] := by simp [spelling, all, allFrom]

/-- The first lexeme of a text and those behind it, without their places. -/
theorem spelling_cons (c : UInt8) (rest : Bytes) : spelling (c :: rest) =
    ⟨(front c rest).1, c :: rest.take (front c rest).2, 0⟩ :: spelling
      (rest.drop (front c rest).2) := by
  rw [spelling, all, allFrom_cons, List.map_cons, map_unplaced_allFrom _ 0]
  rfl

/-- The first lexeme of a text and those behind it, for its kind and length. -/
theorem spelling_of_front (h : front c rest = (kind, more)) :
    spelling (c :: rest) = ⟨kind, c :: rest.take more, 0⟩ :: spelling (rest.drop more) := by
  rw [spelling_cons, h]

/-- The visible lexemes of a text are those that are no blanks. -/
theorem sequence_eq (text : Bytes) : sequence text = (spelling text).filter (·.kind ≠ .blank) := by
  rw [sequence, visible, spelling, List.filter_map]
  rfl

/-- The bytes of lexemes do not depend on their places. -/
theorem joined_unplaced (lexemes : List Lexeme) :
    joined (lexemes.map unplaced) = joined lexemes := by
  rw [joined, joined, List.flatMap_map]
  rfl

/-- The lexemes of a text make it up. -/
@[simp] theorem joined_spelling (text : Bytes) : joined (spelling text) = text := by
  rw [spelling, joined_unplaced, all, joined_allFrom]

/-- What holds of all lexemes of all texts holds of them without their places. -/
theorem exists_of_mem_spelling (h : lexeme ∈ spelling text) : ∃ placed ∈ allFrom 0 text,
    placed.unplaced = lexeme :=
  List.mem_map.1 h

/-- Induction along the lexemes of a text. -/
theorem frontInduction {motive : Bytes → Prop} (nil : motive [])
    (cons : ∀ c rest, motive (rest.drop (front c rest).2) → motive (c :: rest)) (text : Bytes) :
    motive text := by
  generalize hlength : text.length = n
  induction n using Nat.strongRecOn generalizing text with
  | ind n ih =>
    cases text with
    | nil => exact nil
    | cons c rest =>
      refine cons c rest (ih _ ?_ _ rfl)
      rw [← hlength, List.length_drop, List.length_cons]
      omega

/-- A text is apart from what follows it if each of its lexemes is read as it is read alone. -/
inductive Apart (tail : Bytes) : Bytes → Prop where
  | nil : Apart tail []
  | cons {c : UInt8} {rest : Bytes} (hfront : front c (rest ++ tail) = front c rest)
      (hrest : Apart tail (rest.drop (front c rest).2)) : Apart tail (c :: rest)

/-- A text that is apart from what follows it is read first, and then what follows. -/
theorem Apart.spelling_append (h : Apart tail text) :
    spelling (text ++ tail) = spelling text ++ spelling tail := by
  induction h with
  | nil => rw [List.nil_append, spelling_nil, List.nil_append]
  | @cons c rest hfront _ ih =>
    have hle := front_snd_le c rest
    rw [List.cons_append, spelling_cons, hfront, List.take_append_of_le_length hle,
      List.drop_append_of_le_length hle, ih, spelling_cons c rest, List.cons_append]

/-- What holds of all lexemes holds of the visible ones. -/
theorem Apart.sequence_append (h : Apart tail text) :
    sequence (text ++ tail) = sequence text ++ sequence tail := by
  rw [sequence_eq, h.spelling_append, List.filter_append, ← sequence_eq, ← sequence_eq]

/-- A text without quotes is apart from a comma. -/
theorem apart_of_forall (h : ∀ c ∈ text, isQuote c = false) (htail : Stops tail) :
    Apart tail text := by
  induction text using frontInduction with
  | nil => exact .nil
  | cons c rest ih =>
    rw [List.forall_mem_cons] at h
    refine .cons (front_append htail fun hquote => ?_)
      (ih fun d hd => h.2 d (List.mem_of_mem_drop hd))
    simp [h.1] at hquote

/-- A text is apart from nothing. -/
theorem apart_nil (text : Bytes) : Apart [] text := by
  induction text using frontInduction with
  | nil => exact .nil
  | cons c rest ih => exact .cons (by rw [List.append_nil]) ih

/-- A comma is read as one lexeme. -/
theorem spelling_comma (rest : Bytes) :
    spelling (Char.toUInt8 ',' :: rest) = ⟨.comma, [Char.toUInt8 ','], 0⟩ :: spelling rest := by
  have hfront : front (Char.toUInt8 ',') rest = (.comma, 0) := by
    have hlong : longOperators.find? (startsWith (Char.toUInt8 ',' :: rest)) = none := by
      have hplain : ∀ operator ∈ longOperators, operator.head? ≠ some (Char.toUInt8 ',') ∧
          operator ≠ [] := by
        decide +kernel
      refine List.find?_eq_none.2 fun operator hmem hstart => ?_
      obtain ⟨after, hafter⟩ := Option.isSome_iff_exists.1 hstart
      have htext := congrArg List.head? (eq_append_of_after? hafter)
      rw [List.head?_append_of_ne_nil _ (hplain operator hmem).2] at htext
      exact (hplain operator hmem).1 htext.symm
    have harrow : startsWith (Char.toUInt8 ',' :: rest) "=>" = false := rfl
    rw [front]
    simp only [harrow, hlong]
    rfl
  rw [spelling_cons, hfront]
  rfl

/-- Where lexemes are divided the text is, and the first part is apart from the second. -/
theorem apart_of_spelling {xs ys : List Lexeme} (h : spelling text = xs ++ ys) :
    text = joined xs ++ joined ys ∧ Apart (joined ys) (joined xs) ∧ spelling (joined xs) = xs ∧
      spelling (joined ys) = ys := by
  induction xs generalizing text with
  | nil =>
    rw [List.nil_append] at h
    rw [← h, joined_spelling]
    exact ⟨rfl, .nil, spelling_nil, rfl⟩
  | cons x xs ih =>
    cases text with
    | nil => simp at h
    | cons c rest =>
      obtain ⟨⟨kind, more⟩, hfront⟩ : ∃ found, front c rest = found := ⟨_, rfl⟩
      rw [spelling_of_front hfront] at h
      obtain ⟨rfl, hbehind⟩ := List.cons.inj h
      obtain ⟨hdrop, hapart, hxs, hys⟩ := ih hbehind
      have hrest : rest = (rest.take more ++ joined xs) ++ joined ys := by
        rw [List.append_assoc, ← hdrop, List.take_append_drop]
      have htake : (rest.take more).length = more := by
        rw [List.length_take, Nat.min_eq_left]
        simpa [hfront] using front_snd_le c rest
      generalize rest.take more = taken at hrest htake ⊢
      subst hrest htake
      -- the lexeme ends within the first part, so that it is read alone in the same way
      have halone :=
        front_of_append (by rw [hfront]; simp : (front c (taken ++ joined xs ++ joined ys)).2 ≤ _)
      have hdropped : (taken ++ joined xs).drop taken.length = joined xs := List.drop_left
      have hjoined : joined (⟨kind, c :: taken, 0⟩ :: xs) = c :: (taken ++ joined xs) :=
        joined_cons ..
      rw [hjoined, spelling_of_front (halone.trans hfront), hdropped, List.take_left, hxs]
      refine ⟨by simp, .cons halone.symm ?_, rfl, hys⟩
      rwa [halone, hfront, hdropped]

end Lexeme

/-- A byte that is no white space is not trimmed away. -/
theorem Bytes.count_trim {c : UInt8} (hc : ¬ IsSpaceByte c) (text : Bytes) :
    (trim text).count c = text.count c := by
  obtain ⟨lead, tail, htext, -, hlead, htail, -⟩ := trim_spec text
  have hnone : ∀ {space : Bytes}, IsSpace space → space.count c = 0 := fun h =>
    List.count_eq_zero.2 fun hmem => hc (h.isSpaceByte c hmem)
  generalize trim text = inner at htext ⊢
  rw [htext, List.count_append, List.count_append, hnone hlead, hnone htail,
    Nat.zero_add, Nat.add_zero]

/-- A text that starts with no white space keeps its start. -/
theorem Bytes.trimStart_cons {c : UInt8} (hc : ¬ IsSpaceByte c) (rest : Bytes) :
    trimStart (c :: rest) = c :: rest := by
  rcases trimStart_cases (c :: rest) with hkeep | ⟨point, more, hpoint, heq⟩
  · exact hkeep
  · obtain ⟨d, point, rfl⟩ := List.exists_cons_of_ne_nil hpoint.ne_nil
    obtain ⟨rfl, -⟩ := List.cons.inj heq
    exact absurd (hpoint.isSpaceByte c (List.mem_cons_self ..)) hc

/-- Texts that are joined with a separator are the same if each holds it as often as its
counterpart. -/
theorem Bytes.join_inj_of_count {c : UInt8} {first second : List Bytes}
    (h : join [c] first = join [c] second)
    (hcount : first.map (List.count c) = second.map (List.count c)) : first = second := by
  have hcut : ∀ {a b more rest : Bytes}, a ++ c :: more = b ++ c :: rest → a.count c = b.count c →
      a = b ∧ more = rest := by
    intro a b more rest htext hcount
    rcases List.append_eq_append_iff.1 htext with ⟨extra, rfl, hextra⟩ | ⟨extra, rfl, hextra⟩
    · cases extra with
      | nil => simpa using hextra
      | cons d extra =>
        obtain ⟨rfl, -⟩ := List.cons.inj hextra
        simp at hcount
    · cases extra with
      | nil => simpa using hextra.symm
      | cons d extra =>
        obtain ⟨rfl, -⟩ := List.cons.inj hextra
        simp at hcount
  rw [join, join] at h
  induction first generalizing second with
  | nil =>
    rw [List.map_nil, eq_comm, List.map_eq_nil_iff] at hcount
    exact hcount.symm
  | cons a first ih =>
    cases second with
    | nil => simp at hcount
    | cons b second =>
      obtain ⟨hhead, htail⟩ := List.cons.inj hcount
      cases first with
      | nil =>
        rw [List.map_nil, eq_comm, List.map_eq_nil_iff] at htail
        subst htail
        simpa using h
      | cons a' first =>
        cases second with
        | nil => simp at htail
        | cons b' second =>
          rw [List.intercalate_cons_cons, List.intercalate_cons_cons, List.append_assoc,
            List.append_assoc] at h
          obtain ⟨rfl, hrest⟩ := hcut h hhead
          rw [ih hrest htail]

namespace Parameter

variable {lexemes : List Lexeme} {lexeme : Lexeme}

/-- A text without visible lexemes is blank. -/
theorem isBlank_of_visible {text : Bytes} (h : Lexeme.visible text = []) : text.isBlank = true := by
  have hkinds : ∀ lexeme ∈ Lexeme.allFrom 0 text, lexeme.kind = .blank := by
    simpa [Lexeme.visible, Lexeme.all, List.filter_eq_nil_iff] using h
  have hbytes := isBlankByte_of_mem_joined (fun _ hlexeme => hlexeme) hkinds
  rw [Lexeme.joined_allFrom] at hbytes
  rw [← trim_eq_nil_iff, ← List.nil_append text, trim_append_blanks hbytes]
  rfl

/-- What may follow a type does not depend on places. -/
theorem endsWell_map_unplaced (lexemes : List Lexeme) :
    endsWell (lexemes.map Lexeme.unplaced) = endsWell lexemes := by
  cases lexemes <;> simp [endsWell, Lexeme.unplaced]

/-- The parameter that lexemes spell does not depend on their places. -/
theorem ofLexemes?_map_unplaced (lexemes : List Lexeme) :
    ofLexemes? (lexemes.map Lexeme.unplaced) = ofLexemes? lexemes := by
  have htypes : isTypeLexeme ∘ Lexeme.unplaced = isTypeLexeme := rfl
  match lexemes with
  | [] => rfl
  | [name] => rfl
  | name :: second :: rest =>
    have hend := endsWell_map_unplaced (second :: rest)
    rw [List.map_cons] at hend
    rw [List.map_cons, List.map_cons, ofLexemes?, ofLexemes?, List.takeWhile_map,
      List.dropWhile_map, htypes, endsWell_map_unplaced, hend]
    dsimp only
    rw [Lexeme.joined_unplaced, List.isEmpty_map]
    rfl

/-- The groups of lexemes do not depend on their places. -/
theorem groups_map_unplaced (lexemes : List Lexeme) :
    groups (lexemes.map Lexeme.unplaced) = (groups lexemes).map (List.map Lexeme.unplaced) := by
  fun_induction groups lexemes with
  | case1 => rfl
  | case2 lexeme rest hcomma ih => simpa [groups, Lexeme.unplaced, hcomma] using ih
  | case3 lexeme rest hcomma hnil => exact absurd hnil (groups_ne_nil rest)
  | case4 lexeme rest hcomma first more hgroups ih =>
    rw [hgroups] at ih
    simp [groups, Lexeme.unplaced, hcomma, ih]

/-- The parameters that lexemes spell do not depend on their places. -/
theorem listOfLexemes?_map_unplaced (lexemes : List Lexeme) :
    listOfLexemes? (lexemes.map Lexeme.unplaced) = listOfLexemes? lexemes := by
  have hempty : (fun group : List Lexeme => !group.isEmpty) ∘ List.map Lexeme.unplaced =
      fun group => !group.isEmpty := by
    funext group
    simp
  have hspelled : ofLexemes? ∘ List.map Lexeme.unplaced = ofLexemes? :=
    funext ofLexemes?_map_unplaced
  obtain ⟨first, rest, hgroups⟩ := List.exists_cons_of_ne_nil (groups_ne_nil lexemes)
  rw [listOfLexemes?, groups_map_unplaced, hgroups, listOfLexemes?, hgroups, List.map_cons]
  dsimp only
  rw [ofLexemes?_map_unplaced, List.filter_map, hempty, List.mapM_map, hspelled]

/-- A comma ends a group and starts one. -/
theorem groups_append_comma (h : lexeme.kind = .comma) (first second : List Lexeme) :
    groups (first ++ lexeme :: second) = groups first ++ groups second := by
  induction first with
  | nil =>
    have hgroups : groups (lexeme :: second) = [] :: groups second := by rw [groups, if_pos h]
    exact hgroups
  | cons one first ih =>
    by_cases hone : one.kind = .comma
    · rw [List.cons_append, groups, if_pos hone, ih, groups, if_pos hone]
      rfl
    · obtain ⟨group, rest, hgroups, hcons⟩ := groups_cons hone first
      rw [List.cons_append, groups, if_neg hone, ih, hgroups, hcons]
      rfl

/-- Lexemes are one group, or there is a first one that a comma ends. -/
theorem groups_cases (lexemes : List Lexeme) :
    groups lexemes = [lexemes] ∨ ∃ group comma rest, lexemes = group ++ comma :: rest ∧
      comma.kind = .comma ∧
      groups lexemes = group :: groups rest := by
  induction lexemes with
  | nil => exact .inl rfl
  | cons lexeme lexemes ih =>
    by_cases hcomma : lexeme.kind = .comma
    · exact .inr ⟨[], lexeme, lexemes, rfl, hcomma, by rw [groups, if_pos hcomma]⟩
    · rcases ih with hone | ⟨group, comma, rest, rfl, hkind, hgroups⟩
      · exact .inl (by rw [groups, if_neg hcomma, hone])
      · exact .inr
          ⟨lexeme :: group, comma, rest, rfl, hkind, by rw [groups, if_neg hcomma, hgroups]⟩

/-- No group holds a comma. -/
theorem kind_ne_comma_of_mem_groups {group : List Lexeme} (h : group ∈ groups lexemes) :
    ∀ lexeme ∈ group, lexeme.kind ≠ .comma := by
  fun_induction groups lexemes generalizing group with
  | case1 => simp_all
  | case2 lexeme rest hcomma ih =>
    rcases List.mem_cons.1 h with rfl | h
    · simp
    · exact ih h
  | case3 lexeme rest hcomma hnil => exact absurd hnil (groups_ne_nil rest)
  | case4 lexeme rest hcomma first more hgroups ih =>
    rw [hgroups] at ih
    rcases List.mem_cons.1 h with rfl | h
    · exact List.forall_mem_cons.2 ⟨hcomma, ih (List.mem_cons_self ..)⟩
    · exact ih (List.mem_cons_of_mem _ h)

/-- Groups written with commas between them are read back. -/
theorem groups_intercalate {comma : Lexeme} (hcomma : comma.kind = .comma)
    {parts : List (List Lexeme)} (hne : parts ≠ [])
    (h : ∀ part ∈ parts, ∀ lexeme ∈ part, lexeme.kind ≠ .comma) :
    groups (List.intercalate [comma] parts) = parts := by
  induction parts with
  | nil => exact absurd rfl hne
  | cons part parts ih =>
    rw [List.forall_mem_cons] at h
    cases parts with
    | nil => rw [List.intercalate_singleton, groups_eq_singleton h.1]
    | cons next parts =>
      rw [List.intercalate_cons_cons, List.append_assoc, List.singleton_append,
        groups_append_comma hcomma, groups_eq_singleton h.1, ih (List.cons_ne_nil _ _) h.2]
      rfl

/-- The groups of lexemes with the same comma between them are the lexemes. -/
theorem intercalate_groups {comma : Lexeme}
    (h : ∀ lexeme ∈ lexemes, lexeme.kind = .comma → lexeme = comma) :
    List.intercalate [comma] (groups lexemes) = lexemes := by
  induction lexemes with
  | nil => rfl
  | cons lexeme lexemes ih =>
    rw [List.forall_mem_cons] at h
    by_cases hcomma : lexeme.kind = .comma
    · obtain ⟨first, rest, hgroups⟩ := List.exists_cons_of_ne_nil (groups_ne_nil lexemes)
      have hrest := ih h.2
      rw [hgroups] at hrest
      rw [groups, if_pos hcomma, hgroups, List.intercalate_cons_cons, hrest, h.1 hcomma]
      rfl
    · obtain ⟨first, rest, hgroups, hcons⟩ := groups_cons hcomma lexemes
      have hrest := ih h.2
      rw [hgroups] at hrest
      rw [hcons]
      cases rest with
      | nil => simpa using hrest
      | cons next rest =>
        rw [List.intercalate_cons_cons] at hrest ⊢
        rw [List.cons_append, List.cons_append, hrest]

end Parameter

namespace Lexeme

open Parameter

variable {text : Bytes} {texts : List Bytes}

/-- The lexeme of a comma. -/
def comma : Lexeme := ⟨.comma, [Char.toUInt8 ','], 0⟩

/-- Texts behind another one, each with a comma in front of it. -/
def behind (texts : List Bytes) : Bytes := texts.flatMap ([Char.toUInt8 ','] ++ ·)

/-- Whether each of several texts is apart from those that follow it behind commas. -/
def ApartAll : List Bytes → Prop
  | [] => True
  | text :: texts => Apart (behind texts) text ∧ ApartAll texts

/-- What stands behind a text of a list stops it: a comma or nothing. -/
theorem stops_behind (texts : List Bytes) : Stops (behind texts) := by
  cases texts <;> simp [Stops, behind]

/-- The commas of a text are all the same lexeme. -/
theorem eq_comma_of_mem_spelling {lexeme : Lexeme} (h : lexeme ∈ spelling text)
    (hkind : lexeme.kind = .comma) :
    lexeme = comma := by
  obtain ⟨placed, hplaced, rfl⟩ := exists_of_mem_spelling h
  have htext := text_of_comma hplaced hkind
  cases placed
  cases hkind
  cases htext
  rfl

/-- The first of several texts stands in front of the others. -/
theorem join_eq (text : Bytes) (texts : List Bytes) :
    join [Char.toUInt8 ','] (text :: texts) = text ++ behind texts :=
  join_cons ..

/-- Texts behind another one are joined behind a comma. -/
theorem behind_eq (h : texts ≠ []) :
    behind texts = Char.toUInt8 ',' :: join [Char.toUInt8 ','] texts := by
  obtain ⟨text, texts, rfl⟩ := List.exists_cons_of_ne_nil h
  rw [join_eq]
  simp [behind]

/-- The texts of the groups of a text make it up. -/
theorem join_groups_spelling (text : Bytes) :
    join [Char.toUInt8 ','] ((groups (spelling text)).map joined) = text := by
  rw [join_groups, joined_spelling]
  intro lexeme hlexeme hkind
  rw [eq_comma_of_mem_spelling hlexeme hkind]
  rfl

/-- Texts that are apart are read one by one. -/
theorem ApartAll.spelling_join (h : ApartAll texts) :
    spelling (join [Char.toUInt8 ','] texts) = List.intercalate [comma] (texts.map spelling) := by
  induction texts with
  | nil => simp [join]
  | cons text texts ih =>
    rw [join_eq, h.1.spelling_append]
    cases texts with
    | nil => simp [behind]
    | cons next texts =>
      rw [behind_eq (List.cons_ne_nil next texts), spelling_comma, ih h.2]
      simp only [List.map_cons, List.intercalate_cons_cons, List.append_assoc]
      rfl

/-- The texts of the groups of a text are apart, and each is read alone as its group. -/
theorem apartAll_groups (text : Bytes) : ApartAll ((groups (spelling text)).map joined) ∧
    (groups (spelling text)).map (fun group => spelling (joined group)) =
      groups (spelling text) := by
  generalize hlength : text.length = n
  induction n using Nat.strongRecOn generalizing text with
  | ind n ih =>
    rcases groups_cases (spelling text)
      with hone | ⟨group, lexeme, rest, hspelling, hcomma, hgroups⟩
    · rw [hone]
      simp [ApartAll, behind, apart_nil]
    · obtain ⟨htext, hapart, hgroup, hbehind⟩ := apart_of_spelling hspelling
      obtain rfl := eq_comma_of_mem_spelling (hspelling ▸ (by simp) : lexeme ∈ spelling text) hcomma
      have hjoined : joined (comma :: rest) = Char.toUInt8 ',' :: joined rest := joined_cons ..
      rw [hjoined] at htext hapart hbehind
      have hrest : spelling (joined rest) = rest :=
        (List.cons.inj ((spelling_comma _).symm.trans hbehind)).2
      have hshorter : (joined rest).length < n := by
        rw [← hlength, htext, List.length_append, List.length_cons]
        omega
      obtain ⟨hall, hread⟩ := ih _ hshorter (joined rest) rfl
      have hjoin := join_groups_spelling (joined rest)
      rw [hrest] at hall hread hjoin
      have hbehind : behind ((groups rest).map joined) = Char.toUInt8 ',' :: joined rest := by
        rw [behind_eq (List.map_eq_nil_iff.not.2 (groups_ne_nil rest)), hjoin]
      rw [hgroups, List.map_cons, List.map_cons, hgroup, hread]
      exact ⟨⟨hbehind ▸ hapart, hall⟩, rfl⟩

/-- A byte that is no blank stands in visible lexemes as often as in all. -/
theorem count_joined_filter {c : UInt8} {lexemes : List Lexeme} (hread : lexemes ⊆ spelling text)
    (hc : isBlankByte c = false) :
    (joined (lexemes.filter (·.kind ≠ .blank))).count c = (joined lexemes).count c := by
  induction lexemes with
  | nil => rfl
  | cons lexeme lexemes ih =>
    have hrest := ih fun other hother => hread (List.mem_cons_of_mem _ hother)
    by_cases hblank : lexeme.kind = .blank
    · obtain ⟨placed, hplaced, rfl⟩ := exists_of_mem_spelling (hread (List.mem_cons_self ..))
      have hnone : placed.unplaced.text.count c = 0 := by
        refine List.count_eq_zero.2 fun hmem => ?_
        have hholds : placed.kind.holds c = true := holds_of_mem_allFrom hplaced c hmem
        have hkind : placed.kind = .blank := hblank
        rw [hkind, LexemeKind.holds, hc] at hholds
        exact Bool.noConfusion hholds
      rw [List.filter_cons_of_neg (by simp [hblank]), hrest, joined_cons, List.count_append,
        hnone, Nat.zero_add]
    · rw [List.filter_cons_of_pos (by simp [hblank]), joined_cons, joined_cons, List.count_append,
        List.count_append, hrest]

/-- A byte that is no blank stands in the visible lexemes of a text as often as in the text. -/
theorem count_joined_sequence {c : UInt8} (hc : isBlankByte c = false) (text : Bytes) :
    (joined (sequence text)).count c = text.count c := by
  rw [sequence_eq, count_joined_filter (fun _ hmem => hmem) hc, joined_spelling]

/-- Texts that are joined with commas are read as given groups exactly when they are apart and each
is read alone as its group, provided that each holds as many commas as its group. -/
theorem groups_sequence_iff {parts : List (List Lexeme)} (hne : texts ≠ [])
    (hparts : ∀ part ∈ parts, ∀ lexeme ∈ part, lexeme.kind ≠ .comma)
    (hcount : texts.map (List.count (Char.toUInt8 ',')) = parts.map fun part => (joined part).count
      (Char.toUInt8 ',')) :
    groups (sequence (join [Char.toUInt8 ','] texts)) = parts ↔ ApartAll texts ∧
      texts.map sequence = parts := by
  constructor
  · intro h
    rw [sequence_eq, groups_filter] at h
    obtain ⟨hapart, hread⟩ := apartAll_groups (join [Char.toUInt8 ','] texts)
    -- the groups of the joined text hold as many commas as the texts, so that they have the same
    -- texts
    have hsame : (groups (spelling (join [Char.toUInt8 ','] texts))).map joined = texts := by
      refine join_inj_of_count (join_groups_spelling _) ?_
      rw [hcount, ← h, List.map_map, List.map_map]
      refine List.map_congr_left fun group hgroup => ?_
      exact (count_joined_filter (subset_of_mem_groups _ group hgroup) (by decide)).symm
    rw [hsame] at hapart
    refine ⟨hapart, ?_⟩
    rw [← h]
    nth_rewrite 1 [← hsame]
    nth_rewrite 2 [← hread]
    rw [List.map_map, List.map_map]
    exact List.map_congr_left fun group _ => sequence_eq _
  · rintro ⟨hapart, rfl⟩
    have hplain : ∀ part ∈ texts.map spelling, ∀ lexeme ∈ part, lexeme.kind ≠ .comma := by
      intro part hpart lexeme hlexeme hcomma
      obtain ⟨text, htext, rfl⟩ := List.mem_map.1 hpart
      refine hparts _ (List.mem_map_of_mem htext) lexeme ?_ hcomma
      rw [sequence_eq]
      exact List.mem_filter.2 ⟨hlexeme, by simp [hcomma]⟩
    rw [sequence_eq, groups_filter, hapart.spelling_join,
      groups_intercalate rfl (List.map_eq_nil_iff.not.2 hne) hplain, List.map_map]
    exact List.map_congr_left fun text _ => (sequence_eq text).symm

end Lexeme

end TagScript
