import TagScript.Proofs.LinePositions
import TagScript.Proofs.TagPieces

/-!
# Highlights survive the wire

The highlights of a script are sorted by the places where they start. So every place can be written
relative to the one before it without going below zero, and a reader who adds up what is written
gets the highlights back.

A highlight has the line, the character and the length of a piece of the script. All of these are
smaller than the script is long, so for a script of less than 2³² bytes none of them is cut off.
-/

namespace TagScript

open Bytes

namespace Highlight

/-- A highlight does not start before the given place. -/
def StartsFrom (line character : UInt32) (h : Highlight) : Prop :=
  line < h.line ∨ line = h.line ∧ character ≤ h.character

/-- The highlights that words stand for, behind one at the given line and character. -/
def decodeFrom (line character : UInt32) : List UInt32 → Option (List Highlight)
  | [] => some []
  | down :: right :: length :: role :: modifiers :: words => do
    let role ← HighlightRole.all[role.toNat]?
    let line := line + down
    let character := if down = 0 then character + right else right
    let rest ← decodeFrom line character words
    return { line, character, length, role, declares := modifiers &&& 1 ≠ 0 } :: rest
  | _ => none

/-- The highlights that words stand for; none when they do not come in fives or name an unknown
role. -/
def decode (words : List UInt32) : Option (List Highlight) := decodeFrom 0 0 words

/-- The wire form in integers, where a highlight that starts before the one in front of it makes a
number below zero. -/
def deltasFrom (line character : Int) : List Highlight → List Int
  | [] => []
  | h :: rest =>
    let down := h.line.toNat - line
    let right := if down = 0 then h.character.toNat - character else h.character.toNat
    [down, right, h.length.toNat, h.role.index, h.modifiers.toNat] ++
      deltasFrom h.line.toNat h.character.toNat rest

/-- A highlight covers a piece of a script. Its line counts the line breaks up to the last one
before the piece, and its character the bytes behind this line break. -/
structure CoversPiece (source : Bytes) (h : Highlight) (p : Piece) : Prop where
  role : h.role = p.role
  declares : h.declares = p.declares
  length : h.length.toNat = p.text.length
  place : ∃ lines front behind, source = lines ++ (front ++ (p.text ++ behind)) ∧
    (∀ c ∈ lines.getLast?, c = Char.toUInt8 '\n') ∧ Char.toUInt8 '\n' ∉ front ∧
    lines.count (Char.toUInt8 '\n') = h.line.toNat ∧ front.length = h.character.toNat ∧
    p.offset = lines.length + front.length

section Order

variable {a b c : Highlight}

/-- The order of highlights, as a place that the later one does not start before. -/
theorem le_iff : le a b = true ↔ b.StartsFrom a.line a.character := by
  simp [le, StartsFrom]

/-- The order of highlights is transitive. -/
theorem le_trans (a b c : Highlight) (hab : le a b = true) (hbc : le b c = true) :
    le a c = true := by
  rw [le_iff] at hab hbc ⊢
  simp only [StartsFrom, UInt32.lt_iff_toNat_lt, UInt32.le_iff_toNat_le, ← UInt32.toNat_inj]
    at hab hbc ⊢
  omega

/-- Any two highlights are in order one way or the other. -/
theorem le_total (a b : Highlight) : (le a b || le b a) = true := by
  rw [Bool.or_eq_true, le_iff, le_iff]
  simp only [StartsFrom, UInt32.lt_iff_toNat_lt, UInt32.le_iff_toNat_le, ← UInt32.toNat_inj]
  omega

/-- The highlights of a script are sorted. -/
theorem pairwise_ofSource (source : Bytes) :
    (ofSource source).Pairwise fun a b => b.StartsFrom a.line a.character := by
  rw [ofSource]
  split
  · exact List.Pairwise.nil
  · exact (List.pairwise_mergeSort le_trans le_total _).imp le_iff.1

end Order

section Wire

variable {line character : UInt32} {hs : List Highlight}

/-- The wire form has five words for each highlight. -/
theorem length_encodeFrom : (encodeFrom line character hs).length = 5 * hs.length := by
  induction hs generalizing line character with
  | nil => rfl
  | cons h hs ih =>
    rw [encodeFrom, List.length_append, ih, List.length_cons]
    simp only [List.length_cons, List.length_nil]
    omega

/-- Nothing is lost when a place is written relative to another one, whichever comes first. -/
theorem decodeFrom_encodeFrom :
    decodeFrom line character (encodeFrom line character hs) = some hs := by
  induction hs generalizing line character with
  | nil => rfl
  | cons h hs ih =>
    have hrole : HighlightRole.all[(UInt32.ofNat h.role.index).toNat]? = some h.role := by
      cases h.role <;> rfl
    have hdeclares : decide (h.modifiers &&& 1 ≠ 0) = h.declares := by
      rw [modifiers]
      cases h.declares <;> rfl
    have hline : line + (h.line - line) = h.line := by rw [UInt32.add_comm, UInt32.sub_add_cancel]
    have hcharacter : (if h.line - line = 0 then
        character + (if h.line - line = 0 then h.character - character else h.character)
        else if h.line - line = 0 then h.character - character else h.character) = h.character := by
      split
      · rw [UInt32.add_comm, UInt32.sub_add_cancel]
      · rfl
    simp only [encodeFrom, List.cons_append, List.nil_append, decodeFrom, hrole, hline,
      hcharacter, hdeclares, ih, Option.bind_eq_bind, Option.bind_some]
    rfl

/-- When every highlight starts where the one before it does or behind, no number of the wire form
wraps. -/
theorem encodeFrom_eq_deltasFrom (hfirst : ∀ h ∈ hs, h.StartsFrom line character)
    (hsorted : hs.Pairwise fun a b => b.StartsFrom a.line a.character) :
    (encodeFrom line character hs).map (fun word => (word.toNat : Int)) =
      deltasFrom line.toNat character.toNat hs := by
  induction hs generalizing line character with
  | nil => rfl
  | cons h hs ih =>
    obtain ⟨hnext, hsorted⟩ := List.pairwise_cons.1 hsorted
    have hindex : (UInt32.ofNat h.role.index).toNat = h.role.index := by
      cases h.role <;> rfl
    rw [encodeFrom, deltasFrom, List.map_append, ih hnext hsorted]
    simp only [List.map_cons, List.map_nil, hindex]
    rcases hfirst h (List.mem_cons_self ..) with hbelow | ⟨heq, hright⟩
    · have hdown := UInt32.toNat_sub_of_le h.line line (UInt32.le_of_lt hbelow)
      rw [UInt32.lt_iff_toNat_lt] at hbelow
      have hne : h.line - line ≠ 0 := by
        intro hzero
        rw [hzero, UInt32.toNat_zero] at hdown
        omega
      rw [if_neg hne, if_neg (by omega), hdown, Int.ofNat_sub (by omega)]
    · have hsub := UInt32.toNat_sub_of_le h.character character hright
      rw [UInt32.le_iff_toNat_le] at hright
      rw [heq, UInt32.sub_self, if_pos rfl, if_pos (by omega), hsub, Int.ofNat_sub hright,
        UInt32.toNat_zero, Int.sub_self]
      rfl

end Wire

section Cover

variable {source : Bytes} {p : Piece}

/-- A highlight marks a piece in the line behind some others. -/
structure Marks (h : Highlight) (p : Piece) (above : List Bytes) : Prop where
  role : h.role = p.role
  declares : h.declares = p.declares
  length : h.length.toNat = p.text.length
  line : h.line.toNat = above.length
  character : h.character.toNat = p.offset - lineStart above

/-- A piece that is cut out of a script of less than 2³² bytes has a highlight, and it marks the
piece in the line where the piece starts. -/
theorem Piece.CutFrom.marks (hcut : p.CutFrom 0 source) (hlength : source.length < 2 ^ 32) :
    ∃ h above line below, ofSpan source p.span = some h ∧ LineAt source p.offset above line below ∧
      h.Marks p above := by
  obtain ⟨hne, before, behind, hsource, hoffset⟩ := hcut
  have hpos := List.length_pos_iff.2 hne
  have hstop : p.offset + p.text.length ≤ source.length := by
    rw [hsource, List.length_append, List.length_append]
    omega
  obtain ⟨above, line, below, hline, hposition⟩ :=
    Position.ofOffset_lineAt (Nat.le_trans (Nat.le_add_right _ _) hstop)
  have hstart := hline.start_le
  have habove := length_le_lineStart above
  have hfromZero : ∀ n : Nat, (((n + 1 : Nat) : Int) - 1).toNat = n := by
    intro n
    omega
  have hspan : ofSpan source p.span =
      some ⟨UInt32.ofNat above.length, UInt32.ofNat (p.offset - lineStart above),
      UInt32.ofNat p.text.length, p.role, p.declares⟩ := by
    have hshown : ¬ (decide (p.text.length = 0) || !decide ((0 : Int) < ↑(above.length + 1))) =
        true := by
      rw [Bool.or_eq_true, decide_eq_true_iff, Bool.not_eq_true', decide_eq_false_iff_not]
      omega
    simp only [ofSpan, Piece.span, hposition, Position.known, hfromZero]
    exact if_neg hshown
  have hword : ∀ n < 2 ^ 32, (UInt32.ofNat n).toNat = n := fun n => UInt32.toNat_ofNat_of_lt
  exact ⟨_, above, line, below, hspan, hline, rfl, rfl, hword _ (by omega),
    hword _ (by omega), hword _ (by omega)⟩

/-- A piece that is cut out of a script of less than 2³² bytes has a highlight that covers it. -/
theorem Piece.CutFrom.coversPiece (hcut : p.CutFrom 0 source) (hlength : source.length < 2 ^ 32) :
    ∃ h, ofSpan source p.span = some h ∧ CoversPiece source h p := by
  obtain ⟨h, above, line, below, hspan, hline, hmarks⟩ := hcut.marks hlength
  obtain ⟨-, before, behind, hsource, hoffset⟩ := hcut
  obtain ⟨lines, after, hstands, hlines, hcount, hlast, -⟩ := hline.stands
  have hstart := hline.start_le
  have hstop := hline.le_stop
  -- what stands in front of the piece is the lines above and the front of the line itself
  have hfront : p.offset - lineStart above ≤ line.length := by omega
  have hbefore : before = lines ++ line.take (p.offset - lineStart above) := by
    have htake : source.take p.offset = before := by
      rw [hsource]
      exact List.take_left' (by omega)
    have hsplit : p.offset = lines.length + (p.offset - lineStart above) := by omega
    rw [← htake, hstands, hsplit, List.take_length_add_append, ← hsplit,
      List.take_append_of_le_length hfront]
  refine ⟨h, hspan, hmarks.role, hmarks.declares, hmarks.length, lines,
    line.take (p.offset - lineStart above), behind, ?_, hlast, ?_, ?_, ?_, ?_⟩
  · rw [hsource, hbefore, List.append_assoc]
  · exact fun hmem => hline.not_mem line (List.mem_append_right _ (List.mem_cons_self ..))
      (List.mem_of_mem_take hmem)
  · rw [hmarks.line, hcount]
  · rw [hmarks.character, List.length_take_of_le hfront]
  · rw [List.length_take_of_le hfront]
    omega

/-- The highlights of a script are those of its highlighted pieces. -/
theorem mem_ofSource_iff {tokens : List Token} (hscan : tokenize source = .ok tokens)
    {h : Highlight} :
    h ∈ ofSource source ↔ ∃ p, Highlighted tokens p ∧ ofSpan source p.span = some h := by
  rw [ofSource, hscan, List.mem_mergeSort, List.mem_filterMap]
  constructor
  · rintro ⟨span, hspan, hof⟩
    obtain ⟨p, hp, rfl⟩ := mem_spans_iff.1 hspan
    exact ⟨p, hp, hof⟩
  · rintro ⟨p, hp, hof⟩
    exact ⟨p.span, mem_spans_iff.2 ⟨p, hp, rfl⟩, hof⟩

end Cover

/-- The highlights of a script of less than 2³² bytes are sorted, and the reader of their wire form,
which has five words for each and wraps nowhere, gets them back. They cover the highlighted pieces
of the script and nothing else. -/
theorem decode_encode_ofSource (source : Bytes) (hlength : source.length < 2 ^ 32) :
    ((ofSource source).Pairwise fun a b => a.line < b.line ∨ a.line = b.line ∧
      a.character ≤ b.character) ∧
    (encode (ofSource source)).length = 5 * (ofSource source).length ∧
    (encode (ofSource source)).map (fun word => (word.toNat : Int)) =
    deltasFrom 0 0 (ofSource source) ∧
    decode (encode (ofSource source)) = some (ofSource source) ∧
    (∀ e, tokenize source = .error e → ofSource source = []) ∧
    ∀ tokens, tokenize source = .ok tokens →
      (∀ h ∈ ofSource source, ∃ p, Highlighted tokens p ∧ CoversPiece source h p) ∧
      ∀ p, Highlighted tokens p → ∃ h ∈ ofSource source, CoversPiece source h p := by
  have hsorted := pairwise_ofSource source
  have hfirst : ∀ h ∈ ofSource source, h.StartsFrom 0 0 := by
    intro h _
    rw [StartsFrom, UInt32.lt_iff_toNat_lt, UInt32.le_iff_toNat_le,
      ← UInt32.toNat_inj, UInt32.toNat_zero]
    omega
  refine ⟨hsorted, length_encodeFrom, encodeFrom_eq_deltasFrom hfirst hsorted,
    decodeFrom_encodeFrom, ?_, ?_⟩
  · intro e hscan
    rw [ofSource, hscan]
  · intro tokens hscan
    -- each piece has one highlight, so the one that is found for it is the one that covers it
    constructor
    · intro h hmem
      obtain ⟨p, hp, hof⟩ := (mem_ofSource_iff hscan).1 hmem
      obtain ⟨h', hof', hcovers⟩ := (hp.cutFrom hscan).coversPiece hlength
      rw [hof, Option.some.injEq] at hof'
      exact ⟨p, hp, hof' ▸ hcovers⟩
    · intro p hp
      obtain ⟨h, hof, hcovers⟩ := (hp.cutFrom hscan).coversPiece hlength
      exact ⟨h, (mem_ofSource_iff hscan).2 ⟨p, hp, hof⟩, hcovers⟩

/-- A tagged parameter in the first line and a tagged variable in the second, which are found in the
other order. -/
theorem decode_encode_ofSource_function :
    (utf8 "function f(a|N) \x7b\n\tlet x : M = 1\n\x7d").length < 2 ^ 32 ∧
    encode (ofSource "function f(a|N) \x7b\n\tlet x : M = 1\n\x7d") =
      [0, 11, 1, 3, 1, 0, 2, 1, 0, 0, 1, 1, 3, 4, 0, 0, 4, 1, 2, 1, 0, 4, 1, 0, 0] ∧
    decode (encode (ofSource "function f(a|N) \x7b\n\tlet x : M = 1\n\x7d")) =
      some [⟨0, 11, 1, .parameter, true⟩, ⟨0, 13, 1, .type, false⟩, ⟨1, 1, 3, .keyword, false⟩,
        ⟨1, 5, 1, .variable, true⟩, ⟨1, 9, 1, .type, false⟩] ∧
    ∃ tokens, tokenize "function f(a|N) \x7b\n\tlet x : M = 1\n\x7d" = .ok tokens ∧
      (∀ h ∈ ofSource "function f(a|N) \x7b\n\tlet x : M = 1\n\x7d", ∃ p, Highlighted tokens p ∧
        CoversPiece "function f(a|N) \x7b\n\tlet x : M = 1\n\x7d" h p) ∧
      ∀ p, Highlighted tokens p → ∃ h ∈ ofSource "function f(a|N) \x7b\n\tlet x : M = 1\n\x7d",
        CoversPiece "function f(a|N) \x7b\n\tlet x : M = 1\n\x7d" h p := by
  have hlength : (utf8 "function f(a|N) \x7b\n\tlet x : M = 1\n\x7d").length < 2 ^ 32 := by
    decide +kernel
  have hscan : tokenize "function f(a|N) \x7b\n\tlet x : M = 1\n\x7d" =
      .ok [.block "function f(" [.leaf "a|N" 11] 0,
        .block "\x7b" [.leaf "let x : M = 1" 19] 16] := by decide +kernel
  have hfound : (spans [.block "function f(" [.leaf "a|N" 11] 0,
        .block "\x7b" [.leaf "let x : M = 1" 19] 16]).filterMap
        (ofSpan "function f(a|N) \x7b\n\tlet x : M = 1\n\x7d") =
      [⟨1, 1, 3, .keyword, false⟩, ⟨1, 5, 1, .variable, true⟩, ⟨1, 9, 1, .type, false⟩,
        ⟨0, 11, 1, .parameter, true⟩, ⟨0, 13, 1, .type, false⟩] := by decide +kernel
  have hsource : ofSource "function f(a|N) \x7b\n\tlet x : M = 1\n\x7d" =
      [⟨0, 11, 1, .parameter, true⟩, ⟨0, 13, 1, .type, false⟩, ⟨1, 1, 3, .keyword, false⟩,
        ⟨1, 5, 1, .variable, true⟩, ⟨1, 9, 1, .type, false⟩] := by
    rw [ofSource, hscan]
    dsimp only
    rw [hfound]
    simp [List.mergeSort, List.MergeSort.Internal.splitInTwo, le]
  obtain ⟨-, -, -, hdecode, -, hcovers⟩ := decode_encode_ofSource _ hlength
  refine ⟨hlength, ?_, hdecode.trans (congrArg some hsource), _, hscan, hcovers _ hscan⟩
  rw [hsource]
  decide +kernel

end Highlight

end TagScript
