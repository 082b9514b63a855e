import TagScript.Proofs.KeyedLists
import TagScript.Proofs.Layout

/-!
# Scanning loses nothing

Every token stands in the script at the offset that it records, the tokens follow one another in
preorder, and what lies outside them is white space, separators and the brackets that close
blocks.

A stretch of the script is covered by its tokens when all of this holds between its ends. The
proof follows the layout of the script: two stretches with a separator between them make a longer
one, and so do the stretches inside and behind a bracket pair.
-/

namespace TagScript

namespace Token

/-- The tokens of a sequence and everything inside them, in preorder. -/
def all (tokens : List Token) : List Token := (preorderAll 0 tokens).map Prod.snd

/-- The tokens inside a block; a leaf has none. -/
def children : Token → List Token
  | .leaf .. => []
  | .block _ children _ => children

/-- Where the token's text ends. -/
def stop (t : Token) : Nat := t.offset + t.head.length

/-- Where the opening bracket of a block stands: it is the last byte of the signature. -/
def opens (t : Token) : Nat := t.stop - 1

mutual

/-- The order of the tokens inside a token does not depend on the level. -/
theorem map_snd_preorder (level : Nat) : (t : Token) →
    (preorder level t).map Prod.snd = (preorder 0 t).map Prod.snd
  | .leaf .. => rfl
  | .block _ children _ => by
    rw [preorder, preorder, List.map_cons, List.map_cons, map_snd_preorderAll (level + 1) children,
      map_snd_preorderAll (0 + 1) children]

/-- The order of the tokens of a sequence does not depend on the level. -/
theorem map_snd_preorderAll (level : Nat) : (tokens : List Token) →
    (preorderAll level tokens).map Prod.snd = (preorderAll 0 tokens).map Prod.snd
  | [] => rfl
  | t :: ts => by
    rw [preorderAll, preorderAll, List.map_append, List.map_append, map_snd_preorder level t,
      map_snd_preorderAll level ts]

end

/-- No tokens hold no tokens. -/
@[simp] theorem all_nil : all [] = [] := rfl

/-- A token comes first, then what is inside it, then what follows. -/
theorem all_cons (t : Token) (ts : List Token) :
    all (t :: ts) = t :: (all t.children ++ all ts) := by
  rw [all, preorderAll, List.map_append]
  cases t with
  | leaf => rfl
  | block signature children offset =>
    rw [preorder, List.map_cons, map_snd_preorderAll]
    rfl

/-- The tokens of two sequences come one after the other. -/
theorem all_append (ts us : List Token) : all (ts ++ us) = all ts ++ all us := by
  induction ts with
  | nil => rfl
  | cons t ts ih =>
    rw [List.cons_append, all_cons, all_cons, ih, List.cons_append, List.append_assoc]

end Token

mutual

/-- Where a bracket pair and the pairs inside it open and close. -/
def BracketPair.positions : BracketPair → List (Nat × Nat)
  | .mk _ opens closes inside => (opens, closes) :: BracketPair.positionsAll inside

/-- Where the bracket pairs of a sequence open and close, outer ones first. -/
def BracketPair.positionsAll : List BracketPair → List (Nat × Nat)
  | [] => []
  | pair :: pairs => BracketPair.positions pair ++ BracketPair.positionsAll pairs

end

/-- Where the bracket that opens at a position is closed, when the brackets of the script match. -/
def matchingCloser? (source : Bytes) (opens : Nat) : Option Nat :=
  (matchBrackets source).bind fun pairs => (BracketPair.positionsAll pairs).lookup opens

/-- A byte outside the tokens: white space or a separator. -/
def IsFiller (source : Bytes) (i : Nat) : Prop :=
  (Bytes.spaceMask source)[i]? = some true ∨ source[i]? = some (Char.toUInt8 ';')

/-- What a byte is to a list of tokens: a part of the text of one, the bracket that closes one, or
filler. `closes` says which position closes the bracket at another one. -/
def Accounted (source : Bytes) (closes : Nat → Nat → Prop) (tokens : List Token) (i : Nat) : Prop :=
  (∃ t ∈ tokens, t.offset ≤ i ∧ i < t.stop) ∨ (∃ t ∈ tokens, t.isBlock = true ∧ closes t.opens i) ∨
    IsFiller source i

/-- More tokens account for more bytes. -/
theorem Accounted.mono {source : Bytes} {closes : Nat → Nat → Prop} {ts us : List Token} {i : Nat}
    (h : Accounted source closes ts i) (hsub : ts ⊆ us) : Accounted source closes us i := by
  rcases h with ⟨t, ht, hspan⟩ | ⟨t, ht, hclose⟩ | hfill
  · exact .inl ⟨t, hsub ht, hspan⟩
  · exact .inr (.inl ⟨t, hsub ht, hclose⟩)
  · exact .inr (.inr hfill)

/-- How the tokens between two positions of a script account for what stands there. -/
structure Token.Covers (source : Bytes) (closes : Nat → Nat → Prop) (start stop : Nat)
    (tokens : List Token) : Prop where
  /-- The tokens lie between the two positions. -/
  within : ∀ t ∈ Token.all tokens, start ≤ t.offset ∧ t.stop ≤ stop
  /-- The text of a token is what stands at its offset. -/
  slice : ∀ t ∈ Token.all tokens, (source.drop t.offset).take t.head.length = t.head
  /-- In preorder offsets increase, and a token ends before the next one starts. -/
  ordered : (Token.all tokens).Pairwise fun s t => s.offset < t.offset ∧ s.stop ≤ t.offset
  /-- A block is a bracket pair, and what is inside the block lies between its brackets: behind the
  opening one and in front of the closing one. A token with text starts strictly in front of the
  closing bracket. An empty leaf holds no byte, so it may stand at the same offset as the
  bracket. -/
  nested : ∀ t ∈ Token.all tokens, t.isBlock = true → ∃ (bracket : Bracket) (close : Nat),
    closes t.opens close ∧ close < stop ∧ source[t.opens]? = some bracket.opener ∧
      source[close]? = some bracket.closer ∧ ∀ u ∈ Token.all t.children,
        t.opens < u.offset ∧ u.stop ≤ close ∧ (u.head ≠ [] → u.offset < close) ∧
          (u.isBlock = true → ∃ inner, closes u.opens inner ∧ inner < close)
  /-- Every byte is accounted for. -/
  covered : ∀ i, start ≤ i → i < stop → Accounted source closes (Token.all tokens) i

namespace Token.Covers

variable {source : Bytes} {closes : Nat → Nat → Prop} {start middle stop : Nat} {ts us : List Token}

/-- No token is needed for filler. -/
theorem nil (h : ∀ i, start ≤ i → i < stop → IsFiller source i) :
    Covers source closes start stop [] where
  within := by simp
  slice := by simp
  ordered := by simp
  nested := by simp
  covered i hlow hhigh := .inr (.inr (h i hlow hhigh))

/-- A token with text starts strictly in front of where the stretch ends. -/
theorem offset_lt (h : Covers source closes start stop ts) {t : Token} (ht : t ∈ all ts)
    (hhead : t.head ≠ []) : t.offset < stop :=
  calc t.offset
    _ < t.offset + t.head.length := Nat.lt_add_of_pos_right (List.length_pos_iff.2 hhead)
    _ = t.stop := rfl
    _ ≤ stop := (h.within t ht).2

/-- What is covered by no token is filler. -/
theorem isFiller (h : Covers source closes start stop []) (i : Nat) (hlow : start ≤ i)
    (hhigh : i < stop) :
    IsFiller source i := by
  rcases h.covered i hlow hhigh with ⟨t, ht, -⟩ | ⟨t, ht, -⟩ | hfill
  · simp at ht
  · simp at ht
  · exact hfill

/-- A leaf covers its text and the filler around it. -/
theorem leaf {text : Bytes} {offset : Nat} (hstart : start ≤ offset)
    (hstop : offset + text.length ≤ stop) (htext : (source.drop offset).take text.length = text)
    (hlead : ∀ i, start ≤ i → i < offset → IsFiller source i)
    (htail : ∀ i, offset + text.length ≤ i → i < stop → IsFiller source i) :
    Covers source closes start stop [.leaf text offset] := by
  have hall : all [.leaf text offset] = [.leaf text offset] := rfl
  refine ⟨?_, ?_, ?_, ?_, ?_⟩
  · simpa [hall, Token.stop, Token.offset, head] using ⟨hstart, hstop⟩
  · simpa [hall, Token.offset, head] using htext
  · simp [hall]
  · simp [hall, isBlock]
  · intro i hlow hhigh
    by_cases hbefore : i < offset
    · exact .inr (.inr (hlead i hlow hbefore))
    by_cases hafter : offset + text.length ≤ i
    · exact .inr (.inr (htail i hafter hhigh))
    · exact .inl ⟨.leaf text offset, by simp [hall], Nat.le_of_not_lt hbefore,
        Nat.lt_of_not_le hafter⟩

/-- Two stretches with filler between them make one. -/
theorem separated (h : Covers source closes start middle ts) (hmiddle : start ≤ middle)
    (hfiller : IsFiller source middle) (h' : Covers source closes (middle + 1) stop us)
    (hstop : middle + 1 ≤ stop) : Covers source closes start stop (ts ++ us) := by
  have hmem : ∀ {t}, t ∈ all (ts ++ us) → t ∈ all ts ∨ t ∈ all us := fun ht => by
    rwa [all_append, List.mem_append] at ht
  refine ⟨fun t ht => ?_, fun t ht => ?_, ?_, fun t ht hblock => ?_, fun i hlow hhigh => ?_⟩
  · rcases hmem ht with ht | ht
    · have := h.within t ht
      omega
    · have := h'.within t ht
      omega
  · exact (hmem ht).elim (h.slice t) (h'.slice t)
  · rw [all_append, List.pairwise_append]
    refine ⟨h.ordered, h'.ordered, fun s hs t ht => ?_⟩
    have hs := h.within s hs
    have ht := h'.within t ht
    have hspan : s.offset ≤ s.stop := Nat.le_add_right ..
    omega
  · rcases hmem ht with ht | ht
    · obtain ⟨bracket, close, hclose, hlt, hinside⟩ := h.nested t ht hblock
      exact ⟨bracket, close, hclose, by omega, hinside⟩
    · exact h'.nested t ht hblock
  · rw [all_append]
    rcases Nat.lt_trichotomy i middle with hi | rfl | hi
    · exact (h.covered i hlow hi).mono (List.subset_append_left ..)
    · exact .inr (.inr hfiller)
    · exact (h'.covered i hi hhigh).mono (List.subset_append_right ..)

/-- A block covers its signature, what its children cover, and the brackets around that; what
follows it stands behind the closing bracket. -/
theorem block {token : Token} {bracket : Bracket} {opens close : Nat}
    (hblock : token.isBlock = true) (hstart : start ≤ token.offset) (hoffset : token.offset ≤ opens)
    (hopens : token.stop = opens + 1)
    (hhead : (source.drop token.offset).take token.head.length = token.head)
    (hlead : ∀ i, start ≤ i → i < token.offset → IsFiller source i)
    (hopener : source[opens]? = some bracket.opener)
    (hcloser : source[close]? = some bracket.closer)
    (hcloses : closes opens close) (hclose : opens < close) (hstop : close < stop)
    (hchildren : Covers source closes (opens + 1) close token.children)
    (hrest : Covers source closes (close + 1) stop us) :
    Covers source closes start stop (token :: us) := by
  have hat : token.opens = opens := by rw [Token.opens, hopens, Nat.add_sub_cancel]
  have hmem : ∀ {t}, t ∈ all (token :: us) → t = token ∨ t ∈ all token.children ∨
      t ∈ all us := fun ht => by
    rwa [all_cons, List.mem_cons, List.mem_append] at ht
  refine ⟨fun t ht => ?_, fun t ht => ?_, ?_, fun t ht hb => ?_, fun i hlow hhigh => ?_⟩
  · rcases hmem ht with rfl | ht | ht
    · exact ⟨hstart, by omega⟩
    · have := hchildren.within t ht
      omega
    · have := hrest.within t ht
      omega
  · rcases hmem ht with rfl | ht | ht
    · exact hhead
    · exact hchildren.slice t ht
    · exact hrest.slice t ht
  · rw [all_cons, List.pairwise_cons, List.pairwise_append]
    refine ⟨fun t ht => ?_, hchildren.ordered, hrest.ordered, fun s hs t ht => ?_⟩
    · rcases List.mem_append.1 ht with ht | ht
      · have := hchildren.within t ht
        omega
      · have := hrest.within t ht
        omega
    · have hs := hchildren.within s hs
      have ht := hrest.within t ht
      have hspan : s.offset ≤ s.stop := Nat.le_add_right ..
      omega
  · rcases hmem ht with rfl | ht | ht
    · rw [hat]
      refine ⟨bracket, close, hcloses, hstop, hopener, hcloser, fun u hu => ?_⟩
      have hspan := hchildren.within u hu
      refine ⟨hspan.1, hspan.2, hchildren.offset_lt hu, fun hb => ?_⟩
      obtain ⟨-, inner, hinner, hlt, -⟩ := hchildren.nested u hu hb
      exact ⟨inner, hinner, hlt⟩
    · obtain ⟨b, inner, hinner, hlt, hinside⟩ := hchildren.nested t ht hb
      exact ⟨b, inner, hinner, by omega, hinside⟩
    · exact hrest.nested t ht hb
  · rw [all_cons]
    by_cases hbefore : i < token.offset
    · exact .inr (.inr (hlead i hlow hbefore))
    by_cases hsignature : i < opens + 1
    · exact .inl ⟨token, List.mem_cons_self .., Nat.le_of_not_lt hbefore, by omega⟩
    rcases Nat.lt_trichotomy i close with hi | rfl | hi
    · exact (hchildren.covered i (Nat.le_of_not_lt hsignature) hi).mono
        (List.subset_cons_of_subset _ (List.subset_append_left ..))
    · exact .inr (.inl ⟨token, List.mem_cons_self .., hblock, hat ▸ hcloses⟩)
    · exact (hrest.covered i hi hhigh).mono
        (List.subset_cons_of_subset _ (List.subset_append_right ..))

end Token.Covers

/-- A text stands at a position of a script, and its white space is white space of the script. -/
structure Occurs (source : Bytes) (position : Nat) (text : Bytes) : Prop where
  bytes : text <+: source.drop position
  mask : Bytes.spaceMask text <+: (Bytes.spaceMask source).drop position

/-- Both parts of what stands at a position stand there, one behind the other. -/
theorem prefix_drop_append {α : Type} {xs ys whole : List α} {n : Nat}
    (h : xs ++ ys <+: whole.drop n) :
    xs <+: whole.drop n ∧ ys <+: whole.drop (n + xs.length) := by
  obtain ⟨rest, hrest⟩ := h
  refine ⟨⟨ys ++ rest, by rw [← hrest, List.append_assoc]⟩, ⟨rest, ?_⟩⟩
  rw [← List.drop_drop, ← hrest, List.append_assoc, List.drop_left]

namespace Occurs

variable {source text rest : Bytes} {position : Nat} {c : UInt8}

/-- A text that is cut where its white space is cut stands there part by part. -/
theorem split (h : Occurs source position (text ++ rest))
    (hmask : Bytes.spaceMask (text ++ rest) = Bytes.spaceMask text ++ Bytes.spaceMask rest) :
    Occurs source position text ∧ Occurs source (position + text.length) rest := by
  have hbytes := prefix_drop_append h.bytes
  have hspace := prefix_drop_append (hmask ▸ h.mask)
  rw [Bytes.length_spaceMask] at hspace
  exact ⟨⟨hbytes.1, hspace.1⟩, ⟨hbytes.2, hspace.2⟩⟩

/-- An ASCII byte cuts what stands at a position before and behind itself. -/
theorem split_ascii (h : Occurs source position (text ++ c :: rest)) (hc : c < 0x80) :
    Occurs source position text ∧ Occurs source position (text ++ [c]) ∧
      Occurs source (position + text.length) [c] ∧
        Occurs source (position + text.length + 1) rest := by
  have hcons : text ++ c :: rest = text ++ [c] ++ rest := by simp
  have hend : Bytes.spaceMask (text ++ [c]) = Bytes.spaceMask text ++ Bytes.spaceMask [c] :=
    Bytes.spaceMask_append (Bytes.isCut_ascii hc [])
  have hmask : Bytes.spaceMask (text ++ [c] ++ rest) =
      Bytes.spaceMask (text ++ [c]) ++ Bytes.spaceMask rest := by
    rw [hend, ← hcons, Bytes.spaceMask_append (Bytes.isCut_ascii hc rest), ← List.singleton_append,
      Bytes.spaceMask_ascii_append hc, List.append_assoc]
  obtain ⟨hfront, hrest⟩ := (hcons ▸ h).split hmask
  obtain ⟨htext, hone⟩ := hfront.split hend
  refine ⟨htext, hfront, hone, ?_⟩
  rwa [List.length_append, List.length_singleton, ← Nat.add_assoc] at hrest

/-- What stands at a position is found there. -/
theorem take_drop (h : Occurs source position text) :
    (source.drop position).take text.length = text :=
  (List.prefix_iff_eq_take.1 h.bytes).symm

/-- One byte that stands at a position. -/
theorem getElem?_eq (h : Occurs source position [c]) : source[position]? = some c := by
  obtain ⟨rest, hrest⟩ := h.bytes
  rw [← Nat.add_zero position, ← List.getElem?_drop, ← hrest]
  rfl

/-- White space that stands at a position is filler. -/
theorem isFiller (h : Occurs source position text) (hspace : Bytes.IsSpace text) {i : Nat}
    (hlow : position ≤ i) (hhigh : i < position + text.length) : IsFiller source i := by
  obtain ⟨rest, hrest⟩ := h.mask
  obtain ⟨k, rfl⟩ := Nat.exists_eq_add_of_le hlow
  have hk : k < text.length := Nat.lt_of_add_lt_add_left hhigh
  left
  rw [← List.getElem?_drop, ← hrest, hspace, List.getElem?_append_left (by simpa using hk),
    List.getElem?_replicate, if_pos hk]

/-- The trimmed text stands behind the white space that was taken from its start, and what was taken
is filler. -/
theorem trim (h : Occurs source position text) : ∃ lead : Nat,
    lead + (Bytes.trimStart text).length = text.length ∧ lead + text.trim.length ≤ text.length ∧
      Occurs source (position + lead) text.trim ∧
      (∀ i, position ≤ i → i < position + lead → IsFiller source i) ∧
      ∀ i, position + lead + text.trim.length ≤ i → i < position + text.length →
      IsFiller source i := by
  obtain ⟨lead, tail, htext, hlength, hlead, htail, hmask, hcut⟩ := Bytes.trim_spec text
  have htotal : text.length = lead.length + (text.trim.length + tail.length) := by
    rw [← List.length_append, ← List.length_append, ← htext]
  obtain ⟨hfront, hback⟩ := Occurs.split (htext ▸ h) (htext ▸ hmask)
  obtain ⟨hmiddle, hend⟩ := hback.split (Bytes.spaceMask_append hcut)
  refine ⟨lead.length, hlength, by omega, hmiddle, fun i => hfront.isFiller hlead,
    fun i hlow hhigh => ?_⟩
  exact hend.isFiller htail hlow (by omega)

end Occurs

namespace Scan

open Token

variable {source text rest : Bytes} {closes : Nat → Nat → Prop} {position : Nat} {c : UInt8}

/-- The opening bracket of a block stands behind the text in front of it. -/
theorem opens_block (bracket : Bracket) (text : Bytes) (position : Nat) (children : List Token) :
    Token.opens (.block (pendingText (bracket.opener :: text.reverse)) children
      (pendingOffset (bracket.opener :: text.reverse) (position + text.length + 1))) =
        position + text.length := by
  obtain ⟨lead, body, rfl, htitle, hoffset, -⟩ := signature_spec bracket text position
  rw [hoffset, htitle, Token.opens, Token.stop, Token.offset, Token.head]
  simp only [List.length_append, List.length_singleton]
  omega

/-- The pending text covers what it was read from. -/
theorem covers_flush (h : Occurs source position text) :
    Covers source closes position (position + text.length)
      (flush text.reverse (position + text.length)) := by
  obtain ⟨lead, hstart, hlength, htrim, hlead, htail⟩ := h.trim
  rw [flush, pendingText, pendingOffset, List.reverse_reverse]
  by_cases hempty : text.trim = []
  · rw [hempty] at htail
    simp only [hempty, List.isEmpty_nil, if_true]
    refine .nil fun i hlow hhigh => ?_
    by_cases hi : i < position + lead
    · exact hlead i hlow hi
    · exact htail i (Nat.le_of_not_lt hi) hhigh
  · have hoffset : position + text.length - (Bytes.trimStart text).length = position + lead := by
      omega
    rw [if_neg (by simpa using hempty), hoffset]
    exact .leaf (by omega) (by omega) htrim.take_drop hlead htail

/-- The end of a clause covers what was read since its last token. -/
theorem covers_endClause (h : Occurs source position text) (clauses : Clauses) :
    Covers source closes position (position + text.length)
      (endClause clauses text.reverse (position + text.length)) := by
  have hflush : Covers source closes position (position + text.length) _ := covers_flush h
  unfold endClause
  split
  next hnil =>
    rw [hnil] at hflush
    split
    · exact hflush
    · refine .leaf (Nat.le_add_right ..) (Nat.le_refl _) (by simp) hflush.isFiller
        fun i hlow hhigh => ?_
      exact absurd hhigh (Nat.not_lt.2 hlow)
  next => exact hflush

/-- What ends a statement is filler. -/
theorem EndsStatement.isFiller {mode : Mode} (hend : EndsStatement mode c)
    (h : Occurs source position [c]) :
    IsFiller source position := by
  obtain ⟨-, rfl⟩ | ⟨-, rfl⟩ := hend
  · exact .inr h.getElem?_eq
  · refine h.isFiller ?_ (Nat.le_refl _) (Nat.lt_succ_self _)
    rw [Bytes.IsSpace, Bytes.spaceMask_ascii (by decide), Bytes.spaceMask_nil]
    rfl

/-- What ends a statement is an ASCII byte. -/
theorem EndsStatement.lt {mode : Mode} (hend : EndsStatement mode c) : c < 0x80 := by
  obtain ⟨-, rfl⟩ | ⟨-, rfl⟩ := hend <;> decide

/-- A text, its separator and what follows are covered one after the other. -/
theorem covers_separated {mode : Mode} {ts us : List Token}
    (h : Occurs source position (text ++ c :: rest)) (hend : EndsStatement mode c)
    (htext : Covers source closes position (position + text.length) ts)
    (hrest : Covers source closes (position + text.length + 1)
      (position + text.length + 1 + rest.length) us) :
    Covers source closes position (position + (text ++ c :: rest).length) (ts ++ us) := by
  obtain ⟨-, -, hc, -⟩ := h.split_ascii hend.lt
  have hlength : position + (text ++ c :: rest).length = position + text.length +
      1 + rest.length := by
    rw [List.length_append, List.length_cons]
    omega
  rw [hlength]
  exact htext.separated (Nat.le_add_right ..) (hend.isFiller hc) hrest (Nat.le_add_right ..)

/-- A text that is laid out is covered by its tokens. -/
theorem Layout.covers {header : Bool} {clauses : Clauses} {tokens : List Token}
    {pairs : List BracketPair} (h : Layout header clauses position text tokens pairs)
    (hoccurs : Occurs source position text)
    (hpairs : ∀ e ∈ BracketPair.positionsAll pairs, closes e.1 e.2) :
    Covers source closes position (position + text.length) tokens := by
  induction h with
  | finish hread =>
    split
    · exact covers_endClause hoccurs _
    · exact covers_flush hoccurs
  | clause hread _ ih =>
    obtain ⟨htext, -, -, hrest⟩ := hoccurs.split_ascii endsStatement_semicolon.lt
    exact covers_separated hoccurs endsStatement_semicolon (covers_endClause htext _)
      (ih hrest hpairs)
  | statement hread hend _ ih =>
    obtain ⟨htext, -, -, hrest⟩ := hoccurs.split_ascii hend.lt
    exact covers_separated hoccurs hend (covers_flush htext) (ih hrest hpairs)
  | @block header clauses position text inside after bracket children tokens inner
      pairs hread hinside _ _ ihChildren ihRest =>
    obtain ⟨-, hsignature, hopener, hbehind⟩ := hoccurs.split_ascii bracket.opener_ascii.1
    obtain ⟨hcontent, -, hcloser, hafter⟩ := hbehind.split_ascii bracket.closer_ascii
    -- the signature ends with the opening bracket, so only the white space before it is filler
    obtain ⟨lead, body, rfl, htitle, hoffset, hspace, hmask⟩ := signature_spec bracket text position
    rw [List.append_assoc] at hsignature hmask
    obtain ⟨hlead, hhead⟩ := hsignature.split hmask
    have hlength : position +
        ((lead ++ body) ++ bracket.opener :: (inside ++ bracket.closer :: after)).length =
        position + (lead ++ body).length + inside.length + 2 + after.length := by
      simp only [List.length_append, List.length_cons]
      omega
    have hpair :
        (position + (lead ++ body).length, position + (lead ++ body).length + 1 + inside.length) ∈
        BracketPair.positionsAll (.mk bracket (position + (lead ++ body).length)
          (position + (lead ++ body).length + 1 + inside.length) inner :: pairs) :=
          List.mem_cons_self ..
    have hmem : ∀ e, e ∈ BracketPair.positionsAll inner ∨ e ∈ BracketPair.positionsAll pairs →
        closes e.1 e.2 := fun e he => hpairs e (List.mem_cons_of_mem _ (List.mem_append.2 he))
    have hchildren := ihChildren hcontent fun e he => hmem e (.inl he)
    have hrest := ihRest (by rwa [Nat.add_right_comm _ 1] at hafter) fun e he => hmem e (.inr he)
    rw [hlength, hoffset, htitle]
    refine .block rfl (Nat.le_add_right ..) ?_ ?_ hhead.take_drop (fun i => hlead.isFiller hspace)
      hopener.getElem?_eq hcloser.getElem?_eq (hpairs _ hpair) (by omega) (by omega) hchildren ?_
    · change position + lead.length ≤ position + (lead ++ body).length
      rw [List.length_append]
      omega
    · change position + lead.length + (body ++ [bracket.opener]).length = position +
        (lead ++ body).length + 1
      rw [List.length_append, List.length_append, List.length_singleton]
      omega
    · rwa [Nat.add_right_comm _ 1]

/-- The brackets of a text that is laid out open one behind the other, all of them in the text. -/
theorem Layout.positionsAll_ordered {header : Bool} {clauses : Clauses} {tokens : List Token}
    {pairs : List BracketPair} (h : Layout header clauses position text tokens pairs) :
    (BracketPair.positionsAll pairs).Pairwise (fun e f => e.1 < f.1) ∧
      ∀ e ∈ BracketPair.positionsAll pairs, position ≤ e.1 ∧ e.1 < position + text.length := by
  induction h with
  | finish => simp [BracketPair.positionsAll]
  | clause _ _ ih | statement _ _ _ ih =>
    refine ⟨ih.1, fun e he => ?_⟩
    have hin := ih.2 e he
    rw [List.length_append, List.length_cons]
    omega
  | block _ _ _ _ ihChildren ihRest =>
    obtain ⟨hinner, hinnerIn⟩ := ihChildren
    obtain ⟨hpairs, hpairsIn⟩ := ihRest
    simp only [BracketPair.positionsAll, BracketPair.positions,
      List.cons_append, List.pairwise_cons, List.pairwise_append, List.mem_cons, List.mem_append,
      List.length_append, List.length_cons]
    refine ⟨⟨?_, hinner, hpairs, fun e he f hf => ?_⟩, ?_⟩
    · rintro e (he | he)
      · have hin := hinnerIn e he
        omega
      · have hin := hpairsIn e he
        omega
    · have hin := hinnerIn e he
      have hbehind := hpairsIn f hf
      omega
    · rintro e (rfl | he | he)
      · dsimp only
        omega
      · have hin := hinnerIn e he
        omega
      · have hin := hpairsIn e he
        omega

/-- In a list that is ordered by its keys every entry is found. -/
theorem lookup_of_mem {entries : List (Nat × Nat)} (h : entries.Pairwise fun e f => e.1 < f.1)
    {e : Nat × Nat} (he : e ∈ entries) : entries.lookup e.1 = some e.2 :=
  (KeyedList.mem_iff_lookup (List.pairwise_map.2 (h.imp Nat.ne_of_lt))).1 he

/-- Scanning is lossless: whatever the limit, the tokens of a script cover the whole of it. -/
theorem scan_covers {limit : Nat} {source : Bytes} {tokens : List Token}
    (h : scan limit source = .ok tokens) :
    Covers source (fun opens close => matchingCloser? source opens = some close) 0
      source.length tokens := by
  obtain ⟨pairs, hlayout⟩ := layout_of_scan h
  have hoccurs : Occurs source 0 source := ⟨List.prefix_rfl, List.prefix_rfl⟩
  have hcloses : ∀ e ∈ BracketPair.positionsAll pairs, matchingCloser? source e.1 = some e.2 := by
    intro e he
    rw [matchingCloser?, hlayout.matchBrackets, Option.bind_some]
    exact lookup_of_mem hlayout.positionsAll_ordered.1 he
  rw [← Nat.zero_add source.length]
  exact hlayout.covers hoccurs hcloses

/-- The parts of a loop with empty clauses, wide white space and a bracket in a string. -/
theorem scan_covers_loop :
    scan 1 "for (;a;)\u00a0\x7b b = '\x7d'; \x7d" =
      .ok [.block "for (" [.leaf [] 5, .leaf "a" 6, .leaf [] 8] 0,
      .block "\x7b" [.leaf "b = '\x7d'" 13] 11] ∧
    Covers "for (;a;)\u00a0\x7b b = '\x7d'; \x7d"
      (fun opens close => matchingCloser? "for (;a;)\u00a0\x7b b = '\x7d'; \x7d" opens = some close)
        0
      (utf8 "for (;a;)\u00a0\x7b b = '\x7d'; \x7d").length
      [.block "for (" [.leaf [] 5, .leaf "a" 6, .leaf [] 8] 0,
        .block "\x7b" [.leaf "b = '\x7d'" 13] 11] := by
  have h : scan 1 "for (;a;)\u00a0\x7b b = '\x7d'; \x7d" =
      .ok [.block "for (" [.leaf [] 5, .leaf "a" 6, .leaf [] 8] 0,
        .block "\x7b" [.leaf "b = '\x7d'" 13] 11] := by
    decide +kernel
  exact ⟨h, scan_covers h⟩

end Scan

end TagScript
