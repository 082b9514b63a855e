import TagScript.Proofs.LexemeContexts

/-!
# Open quotes and what is written behind them

Whether a text in front of a comma is apart from what follows depends on one thing only: which of
the quotes that it leaves open are closed behind the comma. So a text may be exchanged for another
one as long as both close the same quotes. `Lexeme.Swaps` is such an exchange: the beginnings of
the two texts hold neither quotes nor backslashes, and both texts go on in the same way.
-/

namespace TagScript

open Bytes

namespace Lexeme

variable {c quote : UInt8} {text rest tail first second : Bytes}

/-- Neither quotes nor backslashes: what is read inside a literal byte by byte and does not close
it. -/
def Plain (text : Bytes) : Prop := ∀ c ∈ text, isQuote c = false ∧ c ≠ '\\'

/-- Two texts start with the same byte and close the same literals, also from their second byte on,
which is where a literal goes on behind an escaped byte. -/
structure SameClosing (first second : Bytes) : Prop where
  head : first.head? = second.head?
  whole : ∀ quote, isQuote quote = true → (stringRest? quote first).isSome =
    (stringRest? quote second).isSome
  tail : ∀ quote, isQuote quote = true → (stringRest? quote first.tail).isSome =
    (stringRest? quote second.tail).isSome

/-- Closing the same literals goes both ways. -/
theorem SameClosing.symm (h : SameClosing first second) : SameClosing second first :=
  ⟨h.head.symm, fun quote hquote => (h.whole quote hquote).symm,
    fun quote hquote => (h.tail quote hquote).symm⟩

/-- Texts that close the same literals do so behind any other text. -/
theorem SameClosing.isSome_append (h : SameClosing first second) (hquote : isQuote quote = true)
    (text : Bytes) :
    (stringRest? quote (text ++ first)).isSome = (stringRest? quote (text ++ second)).isSome := by
  fun_induction stringRest? quote text with
  | case1 => exact h.whole quote hquote
  | case2 => cases first <;> cases second <;> simp [stringRest?]
  | case3 c hc =>
    -- the last byte of the text may escape the first one behind it
    have hhead := h.head
    have hwhole := h.whole quote hquote
    have htail := h.tail quote hquote
    rcases first with _ | ⟨d, first⟩ <;> rcases second with _ | ⟨e, second⟩
    · rfl
    · simp at hhead
    · simp at hhead
    · obtain rfl : d = e := by simpa using hhead
      rw [List.tail_cons, List.tail_cons] at htail
      simp only [List.cons_append, List.nil_append, stringRest?, if_neg hc]
      split
      · split
        · rfl
        · simpa using htail
      · simpa using hwhole
  | case4 d text => simp [stringRest?]
  | case5 text hc => simp [stringRest?, hc]
  | case6 d text hc hline ih => simpa [stringRest?, hc, hline] using ih
  | case7 c d text hc hescape ih => simpa [stringRest?, hc, hescape] using ih

/-- Whether a literal is closed is not decided within a plain text. -/
theorem Plain.isSome_append (h : Plain text) (hquote : isQuote quote = true) (tail : Bytes) :
    (stringRest? quote (text ++ tail)).isSome = (stringRest? quote tail).isSome := by
  induction text with
  | nil => rfl
  | cons c text ih =>
    obtain ⟨⟨hc, hescape⟩, hrest⟩ := List.forall_mem_cons.1 h
    have hne : c ≠ quote := by
      rintro rfl
      rw [hc] at hquote
      exact Bool.noConfusion hquote
    rw [← ih hrest, List.cons_append]
    cases text ++ tail with
    | nil => simp [stringRest?, hne]
    | cons d more => simp [stringRest?, hne, hescape]

/-- A text that is apart from what follows is apart from whatever closes the same literals. -/
theorem Apart.of_sameClosing (h : Apart first text) (hsecond : Stops second)
    (hsame : SameClosing first second) : Apart second text := by
  induction h with
  | nil => exact .nil
  | @cons c rest hfront hrest ih =>
    refine .cons (front_append hsecond fun hquote => ?_) ih
    cases halone : stringRest? c rest with
    | some n => exact stringRest?_append halone second
    | none =>
      -- the literal is not closed in front of the first text, and so it is not behind it
      have hopen : stringRest? c (rest ++ first) = none :=
        (stringRest?_eq_of_front hquote hfront (front_snd_le c rest)).trans halone
      have hclosing := hsame.isSome_append hquote rest
      rw [hopen] at hclosing
      simpa using hclosing.symm

/-- What stands in front of a text and is apart from it does not matter for what follows, if it
holds no quotes. -/
theorem Apart.append_iff {lead : Bytes} (h : Apart text lead)
    (hquotes : ∀ c ∈ lead, isQuote c = false) (htail : Stops tail) :
    Apart tail (lead ++ text) ↔ Apart tail text := by
  induction h with
  | nil => rfl
  | @cons c rest hfront _ ih =>
    rw [List.forall_mem_cons] at hquotes
    have hbehind := ih fun d hd => hquotes.2 d (List.mem_of_mem_drop hd)
    rw [← hbehind, List.cons_append]
    have hdrop : (rest ++ text).drop (front c (rest ++ text)).2 =
        rest.drop (front c rest).2 ++ text := by
      rw [hfront, List.drop_append_of_le_length (front_snd_le c rest)]
    constructor
    · intro hapart
      cases hapart with
      | cons _ hrest => rwa [hdrop] at hrest
    · intro hapart
      refine .cons (front_append htail fun hquote => ?_) (by rwa [hdrop])
      rw [hquotes.1] at hquote
      exact Bool.noConfusion hquote

/-- A lexeme takes more than one byte where an operator of more than one byte starts. -/
theorem one_le_front {operator : Bytes} (hmem : operator ∈ longOperators)
    (hstart : startsWith (c :: rest) operator = true) :
    1 ≤ (front c rest).2 := by
  have hoperators : ∀ operator ∈ longOperators, 2 ≤ operator.length ∧
      ∀ d ∈ operator.head?, isNameStart d = false ∧ isDigit d = false := by decide +kernel
  have hc : c ∈ operator.head? := by
    rw [← take_of_startsWith hmem hstart]
    rfl
  obtain ⟨hname, hdigit⟩ := (hoperators operator hmem).2 c hc
  fun_cases front c rest with
  | case1 n hstring =>
    split at hstring
    · obtain ⟨inside, after, -, rfl⟩ := eq_append_of_stringRest? hstring
      exact Nat.succ_le_succ (Nat.zero_le _)
    · cases hstring
  | case2 _ hc => simp [hname] at hc
  | case3 _ _ hc => simp [hdigit] at hc
  | case4 => exact Nat.le_refl 1
  | case5 _ _ _ _ found hfind =>
    have hlength := (hoperators found (List.mem_of_find?_eq_some hfind)).1
    dsimp only
    omega
  | _ => simp_all [List.find?_eq_none]

/-- An equals sign that the lexeme in front of it does not take starts or ends no operator with that
lexeme: of each operator with the sign in second place, the part up to the sign is an operator
too. -/
theorem startsWith_append_assign {more other operator : Bytes} (hc : c ≠ '=')
    (hplain : Char.toUInt8 '=' ∉ rest)
    (h : front c (rest ++ Char.toUInt8 '=' :: more) = front c rest)
    (hmem : operator ∈ longOperators) :
    startsWith (c :: (rest ++ Char.toUInt8 '=' :: other)) operator =
      startsWith (c :: rest) operator := by
  have hassigns : ∀ operator ∈ longOperators, Char.toUInt8 '=' ∈ operator →
      operator.head? = some (Char.toUInt8 '=') ∨ operator[1]? = some (Char.toUInt8 '=') ∧
      operator.take 2 ∈ longOperators := by
    decide +kernel
  by_cases hassign : Char.toUInt8 '=' ∈ operator
  · have hwith : ¬ startsWith (c :: (rest ++ Char.toUInt8 '=' :: other)) operator = true := by
      intro hstart
      have hoperator := take_of_startsWith hmem hstart
      rcases hassigns operator hmem hassign with hhead | ⟨hsecond, hshort⟩
      · rw [← hoperator] at hhead
        exact hc (Option.some.inj hhead)
      · rw [← hoperator, List.getElem?_cons_succ, List.getElem?_take] at hsecond
        cases rest with
        | cons d rest =>
          have hd : d = Char.toUInt8 '=' := by simp at hsecond; exact hsecond.2
          exact hplain (hd ▸ List.mem_cons_self ..)
        | nil =>
          have hlength : operator.length - 1 ≠ 0 := by
            intro hzero
            simp [hzero] at hsecond
          obtain ⟨n, hn⟩ := Nat.exists_eq_succ_of_ne_zero hlength
          rw [← hoperator, hn] at hshort
          have hle : 1 ≤ (front c (Char.toUInt8 '=' :: more)).2 :=
            one_le_front hshort (by simp [startsWith, after?])
          rw [List.nil_append] at h
          rw [h] at hle
          exact absurd (hle.trans (front_snd_le c [])) (by simp)
    have halone : ¬ startsWith (c :: rest) operator = true :=
      fun hstart => hwith (startsWith_mono hstart _)
    rw [Bool.not_eq_true] at hwith halone
    rw [hwith, halone]
  · exact startsWith_append (c :: rest) (by simpa using hassign)

/-- A lexeme in front of an equals sign that is not part of it is read in the same way whatever
follows the sign. -/
theorem front_append_assign {more other : Bytes} (hquote : isQuote c = false) (hc : c ≠ '=')
    (hplain : Char.toUInt8 '=' ∉ rest)
    (h : front c (rest ++ Char.toUInt8 '=' :: more) = front c rest) :
    front c (rest ++ Char.toUInt8 '=' :: other) = front c rest := by
  have hrun : ∀ p : UInt8 → Bool, p '=' = false →
      (rest ++ Char.toUInt8 '=' :: other).takeWhile p = rest.takeWhile p := fun p hp =>
    takeWhile_append_stop (by simpa using hp)
  have hstart : ∀ operator ∈ longOperators,
      startsWith (c :: (rest ++ Char.toUInt8 '=' :: other)) operator =
      startsWith (c :: rest) operator :=
    fun _ hmem => startsWith_append_assign hc hplain h hmem
  have harrow : startsWith (c :: (rest ++ Char.toUInt8 '=' :: other)) "=>" =
      startsWith (c :: rest) "=>" := by
    have hbytes : utf8 "=>" = [Char.toUInt8 '=', Char.toUInt8 '>'] := by decide
    rw [hbytes]
    simp [startsWith, after?, Ne.symm hc]
  have hcut : Utf8.IsCut (Char.toUInt8 '=' :: other) := isCut_ascii (by decide) other
  have hstring : (if isQuote c then stringRest? c (rest ++ Char.toUInt8 '=' :: other) else none) =
      if isQuote c then stringRest? c rest else none := by
    simp [hquote]
  rw [front, front, shortFront, shortFront, hstring, hrun isNamePart (by decide),
    hrun (fun c => isWord c || c = '.') (by decide), hrun isBlankByte (by decide), harrow,
    List.find?_congr hstart, Utf8.front_append hcut]

/-- A text without quotes and equals signs that is apart from an equals sign is so whatever follows
the sign. -/
theorem Apart.of_assign {more : Bytes} (h : Apart (Char.toUInt8 '=' :: more) text)
    (hquotes : ∀ c ∈ text, isQuote c = false) (hassign : Char.toUInt8 '=' ∉ text) (other : Bytes) :
    Apart (Char.toUInt8 '=' :: other) text := by
  induction h with
  | nil => exact .nil
  | @cons c rest hfront _ ih =>
    rw [List.forall_mem_cons] at hquotes
    obtain ⟨hc, hplain⟩ := List.ne_and_not_mem_of_not_mem_cons hassign
    refine .cons (front_append_assign hquotes.1 (Ne.symm hc) hplain hfront) (ih ?_ ?_)
    · exact fun d hd => hquotes.2 d (List.mem_of_mem_drop hd)
    · exact fun hmem => hplain (List.mem_of_mem_drop hmem)

/-- Two texts that start with plain bytes and go on in the same way, the beginnings being apart from
what follows. -/
inductive Swaps : Bytes → Bytes → Prop where
  | intro {lead other text : Bytes} (hlead : Plain lead) (hother : Plain other)
      (hapart : Apart text lead) (hapart' : Apart text other) : Swaps (lead ++ text) (other ++ text)

/-- A text goes on as it does itself, behind nothing. -/
theorem Swaps.refl (text : Bytes) : Swaps text text :=
  @Swaps.intro [] [] text (by simp [Plain]) (by simp [Plain]) .nil .nil

/-- Texts that are exchanged are apart from the same texts. -/
theorem Swaps.apart_iff (h : Swaps first second) (htail : Stops tail) :
    Apart tail first ↔ Apart tail second := by
  cases h with
  | intro hlead hother hapart hapart' =>
    rw [hapart.append_iff (fun c hc => (hlead c hc).1) htail,
      hapart'.append_iff (fun c hc => (hother c hc).1) htail]

/-- Texts that are exchanged close the same literals. -/
theorem Swaps.isSome_append {more other : Bytes} (h : Swaps first second)
    (hsame : SameClosing more other) (hquote : isQuote quote = true) :
    (stringRest? quote (first ++ more)).isSome = (stringRest? quote (second ++ other)).isSome := by
  cases h with
  | @intro lead lead' text hlead hother =>
    rw [List.append_assoc, List.append_assoc, hlead.isSome_append hquote,
      hother.isSome_append hquote]
    exact hsame.isSome_append hquote text

/-- Behind commas, texts that are exchanged one by one close the same literals. -/
theorem sameClosing_behind {firsts seconds : List Bytes} (h : List.Forall₂ Swaps firsts seconds) :
    SameClosing (behind firsts) (behind seconds) := by
  induction h with
  | nil => exact ⟨rfl, fun _ _ => rfl, fun _ _ => rfl⟩
  | @cons first second firsts seconds hswap _ ih =>
    have hcomma : Plain [Char.toUInt8 ','] := by unfold Plain; decide +kernel
    have hcons : ∀ text texts, behind (text :: texts) = [Char.toUInt8 ','] ++
        (text ++ behind texts) := by simp [behind]
    rw [hcons, hcons]
    refine ⟨rfl, fun quote hquote => ?_, fun quote hquote => hswap.isSome_append ih hquote⟩
    rw [hcomma.isSome_append hquote, hcomma.isSome_append hquote, hswap.isSome_append ih hquote]

/-- Texts may be exchanged one by one without a quote being closed across a comma that was not
before. -/
theorem apartAll_iff {firsts seconds : List Bytes} (h : List.Forall₂ Swaps firsts seconds) :
    ApartAll firsts ↔ ApartAll seconds := by
  induction h with
  | nil => rfl
  | @cons first second firsts seconds hswap hswaps ih =>
    have hsame := sameClosing_behind hswaps
    rw [ApartAll, ApartAll, ih, hswap.apart_iff (stops_behind firsts)]
    refine and_congr_left fun _ => ⟨fun hapart => ?_, fun hapart => ?_⟩
    · exact hapart.of_sameClosing (stops_behind seconds) hsame
    · exact hapart.of_sameClosing (stops_behind firsts) hsame.symm

end Lexeme

end TagScript
