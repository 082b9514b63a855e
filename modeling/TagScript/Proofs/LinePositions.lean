import Mathlib.Algebra.GroupWithZero.Nat
import TagScript.Diagnostic.Report
import TagScript.Proofs.CleanPaths

/-!
# Positions and the lines that a report shows

A position is counted byte by byte, while a report shows pieces of the source between line breaks.
Both cut the source in the same places: up to an offset it is made up of whole lines and of the
front of the line that the offset lies in, and what is behind the offset goes on in this line.

A line break belongs to the line that it ends. The offset behind the last byte lies in the last
line, which is empty when the source ends with a line break.
-/

namespace TagScript

open Bytes

/-- How many bytes stand in front of a line: those of the lines before it, with their line
breaks. -/
def lineStart (before : List Bytes) : Nat := (before.map fun line => line.length + 1).sum

/-- The line of a source that an offset lies in, with the lines before and behind it. -/
structure LineAt (source : Bytes) (offset : Nat) (before : List Bytes) (line : Bytes)
    (behind : List Bytes) : Prop where
  lines : source.split '\n' = before ++ line :: behind
  start_le : lineStart before ≤ offset
  le_stop : offset ≤ lineStart before + line.length

/-- The first line starts at the front. -/
@[simp] theorem lineStart_nil : lineStart [] = 0 := rfl

/-- A line in front moves the start by its bytes and its line break. -/
@[simp] theorem lineStart_cons (line : Bytes) (before : List Bytes) :
    lineStart (line :: before) = line.length + 1 + lineStart before := rfl

/-- A line break stands behind each of the lines. -/
theorem length_le_lineStart (before : List Bytes) : before.length ≤ lineStart before := by
  induction before with
  | nil => exact Nat.le_refl 0
  | cons line before ih =>
    rw [lineStart_cons, List.length_cons]
    omega

/-- The lines of two groups take up what those of each take up. -/
theorem lineStart_append (before more : List Bytes) :
    lineStart (before ++ more) = lineStart before + lineStart more := by
  rw [lineStart, List.map_append, List.sum_append]
  rfl

/-- The lines of a text take up its bytes and one more for a line break behind the last of them. -/
theorem lineStart_split (text : Bytes) : lineStart (text.split '\n') = text.length + 1 := by
  fun_induction split (Char.toUInt8 '\n') text with
  | case1 => rfl
  | case2 text ih =>
    rw [lineStart_cons, ih, List.length_nil, List.length_cons, Nat.zero_add, Nat.add_comm]
  | case3 c text hc hnil => exact absurd hnil (split_ne_nil _ _)
  | case4 c text hc first rest hsplit ih =>
    rw [hsplit, lineStart_cons] at ih
    rw [lineStart_cons, List.length_cons, List.length_cons]
    omega

namespace Position

/-- Reading a text passes the lines that it ends, and behind the last of them columns are counted
anew. -/
theorem advance_eq {text last : Bytes} {before : List Bytes}
    (h : text.split '\n' = before ++ [last]) (line column : Nat) :
    advance line column text =
      (line + before.length, (if before = [] then column else 1) + last.length) := by
  induction text generalizing line column before last with
  | nil =>
    obtain ⟨rfl, hlast⟩ := List.append_inj' ((List.nil_append _).trans h) rfl
    rw [← (List.cons.inj hlast).1]
    rfl
  | cons c text ih =>
    obtain ⟨before', last', hsplit⟩ :=
      (List.eq_nil_or_concat' (split '\n' text)).resolve_left (split_ne_nil _ _)
    rw [split, hsplit] at h
    by_cases hc : c = Char.toUInt8 '\n'
    · rw [if_pos hc, ← List.cons_append] at h
      obtain ⟨rfl, hlast⟩ := List.append_inj' h rfl
      obtain ⟨rfl, -⟩ := List.cons.inj hlast
      rw [advance, if_pos hc, ih hsplit, ite_self, if_neg (List.cons_ne_nil _ _), List.length_cons]
      congr 1
      omega
    · rw [if_neg hc] at h
      rw [advance, if_neg hc, ih hsplit]
      cases before' with
      | nil =>
        obtain ⟨rfl, hlast⟩ := List.append_inj' ((List.nil_append _).trans h) rfl
        obtain ⟨rfl, -⟩ := List.cons.inj hlast
        rw [if_pos rfl, if_pos rfl, List.length_cons]
        congr 1
        omega
      | cons piece before' =>
        rw [List.cons_append] at h
        dsimp only at h
        rw [← List.cons_append] at h
        obtain ⟨rfl, hlast⟩ := List.append_inj' h rfl
        obtain ⟨rfl, -⟩ := List.cons.inj hlast
        rw [if_neg (List.cons_ne_nil _ _), if_neg (List.cons_ne_nil _ _),
          List.length_cons, List.length_cons]

/-- The line of a position is that of its offset, and its column counts the bytes of this line up to
the offset. -/
theorem ofOffset_lineAt {source : Bytes} {offset : Nat} (hoffset : offset ≤ source.length) :
    ∃ before line behind, LineAt source offset before line behind ∧ ofOffset source offset =
      ⟨↑(before.length + 1), ↑(offset - lineStart before + 1), offset⟩ := by
  obtain ⟨before, front, rest, behind, hfront, -, hlines⟩ :=
    split_append (Char.toUInt8 '\n') (source.take offset) (source.drop offset)
  have hstart : lineStart before + front.length = offset := by
    have hlength := lineStart_split (source.take offset)
    rw [hfront, lineStart_append, lineStart_cons, lineStart_nil, List.length_take_of_le hoffset]
      at hlength
    omega
  have hinside : ¬ (decide ((offset : Int) < 0) || decide ((source.length : Int) < offset)) =
      true := by
    rw [Bool.or_eq_true, decide_eq_true_iff, decide_eq_true_iff]
    omega
  have hcolumn : 1 + front.length = offset - lineStart before + 1 := by omega
  refine ⟨before, front ++ rest, behind, ⟨?_, by omega, by rw [List.length_append]; omega⟩, ?_⟩
  · rw [← hlines, List.take_append_drop]
  · rw [ofOffset, if_neg hinside, Int.toNat_natCast, advance_eq hfront, ite_self,
      hcolumn, Nat.add_comm 1]

end Position

/-- Joined lines in two groups: those of the first group stand in front, each with its line
break. -/
theorem join_eq_around_line {before : List Bytes} (hbefore : ∀ l ∈ before, Char.toUInt8 '\n' ∉ l)
    (line : Bytes) (behind : List Bytes) :
    ∃ above below, join "\n" (before ++ line :: behind) = above ++ (line ++ below) ∧
      above.length = lineStart before ∧ above.count (Char.toUInt8 '\n') = before.length ∧
      (∀ c ∈ above.getLast?, c = Char.toUInt8 '\n') ∧ ∀ c ∈ below.head?, c = Char.toUInt8 '\n' := by
  induction before with
  | nil =>
    cases behind with
    | nil => exact ⟨[], [], by simp [join], rfl, rfl, by simp, by simp⟩
    | cons next behind =>
      refine ⟨[], utf8 "\n" ++ join "\n" (next :: behind), ?_, rfl, rfl, by simp, ?_⟩
      · simp [join, List.intercalate_cons_cons]
      · intro c hc
        exact (Option.some.inj hc).symm
  | cons first before ih =>
    obtain ⟨hfirst, hrest⟩ := List.forall_mem_cons.1 hbefore
    obtain ⟨above, below, hjoin, hlength, hcount, hlast, hhead⟩ := ih hrest
    obtain ⟨next, rest, hrest⟩ :=
      List.exists_cons_of_ne_nil (List.append_ne_nil_of_right_ne_nil before
      (List.cons_ne_nil line behind))
    refine ⟨first ++ (utf8 "\n" ++ above), below, ?_, ?_, ?_, ?_, hhead⟩
    · rw [List.append_assoc, List.append_assoc, ← hjoin, List.cons_append, hrest, join,
        List.intercalate_cons_cons]
      exact List.append_assoc ..
    · rw [List.length_append, List.length_append, hlength, lineStart_cons]
      change first.length + (1 + lineStart before) = _
      omega
    · rw [List.count_append, List.count_append, List.count_eq_zero.2 hfirst,
        hcount, List.length_cons]
      change 0 + (1 + before.length) = _
      omega
    · intro c hc
      rw [List.getLast?_append, List.getLast?_append] at hc
      cases habove : above.getLast? with
      | none =>
        rw [habove] at hc
        exact (Option.some.inj hc).symm
      | some d =>
        rw [habove] at hc
        exact hlast c (habove.trans hc)

namespace LineAt

variable {source line line' : Bytes} {offset offset' : Nat}
  {before behind before' behind' : List Bytes}

/-- No line holds a line break. -/
theorem not_mem (h : LineAt source offset before line behind) :
    ∀ l ∈ before ++ line :: behind, Char.toUInt8 '\n' ∉ l :=
  fun _ hl => not_mem_of_mem_split (h.lines ▸ hl)

/-- A line stands in the source between line breaks, behind as many of them as there are lines
before it. -/
theorem stands (h : LineAt source offset before line behind) :
    ∃ above below, source = above ++ (line ++ below) ∧ above.length = lineStart before ∧
      above.count (Char.toUInt8 '\n') = before.length ∧
        (∀ c ∈ above.getLast?, c = Char.toUInt8 '\n') ∧
      ∀ c ∈ below.head?, c = Char.toUInt8 '\n' := by
  obtain ⟨above, below, hjoin, hrest⟩ :=
    join_eq_around_line (fun l hl => h.not_mem l (List.mem_append_left _ hl)) line behind
  have hsource : join "\n" (before ++ line :: behind) = source :=
    h.lines ▸ join_split (Char.toUInt8 '\n') source
  exact ⟨above, below, hsource.symm.trans hjoin, hrest⟩

/-- An offset in an earlier line is smaller. -/
theorem lt_of_length_lt (h : LineAt source offset before line behind)
    (h' : LineAt source offset' before' line' behind')
    (hlt : before.length < before'.length) : offset < offset' := by
  -- the earlier line with its line break is among the lines before the later one
  have hpre : before ++ [line] <+: before' := by
    have hline : before ++ [line] <+: source.split '\n' :=
      ⟨behind, by rw [h.lines, List.append_assoc, List.singleton_append]⟩
    have hbefore : before' <+: source.split '\n' := ⟨line' :: behind', h'.lines.symm⟩
    refine List.prefix_of_prefix_length_le hline hbefore ?_
    rw [List.length_append, List.length_singleton]
    exact hlt
  obtain ⟨more, rfl⟩ := hpre
  have hstop := h.le_stop
  have hstart := h'.start_le
  rw [lineStart_append, lineStart_append, lineStart_cons, lineStart_nil] at hstart
  omega

/-- Offsets in lines of one number lie in one line. -/
theorem before_eq (h : LineAt source offset before line behind)
    (h' : LineAt source offset' before' line' behind') (hlength : before.length = before'.length) :
    before = before' :=
  (List.append_inj (h.lines.symm.trans h'.lines) hlength).1

end LineAt

/-- Positions come in the order of their offsets, by line and then by column. -/
theorem Position.offset_lt_iff {source : Bytes} {offset offset' : Nat}
    (hoffset : offset ≤ source.length) (hoffset' : offset' ≤ source.length) : offset < offset' ↔
      (ofOffset source offset).line < (ofOffset source offset').line ∨
        (ofOffset source offset).line = (ofOffset source offset').line ∧
          (ofOffset source offset).column < (ofOffset source offset').column := by
  obtain ⟨before, line, behind, hline, hposition⟩ := ofOffset_lineAt hoffset
  obtain ⟨before', line', behind', hline', hposition'⟩ := ofOffset_lineAt hoffset'
  have hstart := hline.start_le
  have hstart' := hline'.start_le
  rw [hposition, hposition']
  dsimp only
  rcases Nat.lt_trichotomy before.length before'.length with hlt | heq | hgt
  · have := hline.lt_of_length_lt hline' hlt
    omega
  · rw [hline.before_eq hline' heq] at hstart ⊢
    omega
  · have := hline'.lt_of_length_lt hline hgt
    omega

/-- A position lies in the lines of a source as its offset does: it names one of the lines, and a
column up to the one behind the last byte of this line; the lines before it and the bytes in front
of its column add up to the offset. -/
structure Position.Agrees (lines : List Bytes) (offset : Nat) (p : Position) : Prop where
  one_le_line : 1 ≤ p.line
  line_le : p.line ≤ lines.length
  one_le_column : 1 ≤ p.column
  column_le : ∃ line ∈ lines[(p.line - 1).toNat]?, p.column - 1 ≤ line.length
  sum_eq : lineStart (lines.take (p.line - 1).toNat) + (p.column - 1) = offset

/-- The position read off from the line that an offset lies in agrees with the lines. -/
theorem LineAt.agrees {source line : Bytes} {offset : Nat} {before behind : List Bytes}
    (h : LineAt source offset before line behind) :
    Position.Agrees (source.split '\n') offset
      ⟨↑(before.length + 1), ↑(offset - lineStart before + 1), offset⟩ := by
  have hindex : ((↑(before.length + 1) : Int) - 1).toNat = before.length := by omega
  have hstart := h.start_le
  have hstop := h.le_stop
  rw [h.lines]
  refine ⟨by dsimp only; omega, ?_, by dsimp only; omega, ?_, ?_⟩
  · simp only [List.length_append, List.length_cons]
    omega
  · refine ⟨line, ?_, by dsimp only; omega⟩
    rw [hindex, List.getElem?_append_right (Nat.le_refl _), Nat.sub_self]
    rfl
  · dsimp only
    rw [hindex, List.take_left]
    omega

namespace Reporter

/-- A line of the source as a report shows it: its number, a bar and the text. -/
def shownLine (r : Reporter) (d : Diagnostic) (style : Style) (number : Int)
    (text : Bytes) : Bytes :=
  Style.paint r.color [style] (padLeft (numberWidth d.position.line) (decimalInt number)) ++
    " " ++ r.bar ++ " " ++ text ++ "\n"

/-- What a report says in front of the lines that it shows: the diagnostic and the name of its
place. -/
def introduction (r : Reporter) (d : Diagnostic) : Bytes :=
  r.header d ++ blanks (numberWidth d.position.line) ++ " " ++ Style.paint r.color [.faint] "-->" ++
    " " ++ r.filename ++ ":" ++ decimalInt d.position.line ++ ":" ++
    decimalInt d.position.column ++ "\n" ++
    blanks (numberWidth d.position.line) ++ " " ++ r.bar ++ "\n"

/-- The marker of a diagnostic, under the byte that `column` others stand in front of. -/
def markerLine (r : Reporter) (d : Diagnostic) (column : Nat) : Bytes :=
  blanks (numberWidth d.position.line) ++ " " ++ r.bar ++ " " ++ (blanks column ++
    Style.paint r.color (severityStyles d.severity) (List.replicate (max 1 d.length.toNat) '^')) ++
    "\n"

/-- What a report says behind the marker: suggestions, notes and help. -/
def advice (r : Reporter) (d : Diagnostic) : Bytes :=
  r.suggestions (blanks (numberWidth d.position.line)) d.suggestions ++
    d.notes.flatMap (r.remark (blanks (numberWidth d.position.line)) .blue "note:") ++
    (if d.help.isEmpty then []
     else r.remark (blanks (numberWidth d.position.line)) .green "help:" d.help) ++ "\n"

variable {r : Reporter}

/-- The line behind some others has the number that follows theirs. -/
theorem line?_behind {before behind : List Bytes} {line : Bytes}
    (hlines : r.lines = before ++ line :: behind) :
    r.line? ↑(before.length + 1) = some line := by
  have hindex : ((↑(before.length + 1) : Int) - 1).toNat = before.length := by omega
  rw [line?, if_pos (by omega), hlines, hindex,
    List.getElem?_append_right (Nat.le_refl _), Nat.sub_self]
  rfl

/-- A report about a place in one of the lines shows the line before it if there is one, the line
itself, and a marker under the place. -/
theorem format_eq {d : Diagnostic} {line : Bytes} {column : Nat}
    (hline : r.line? d.position.line = some line)
    (hcolumn : (d.position.column - 1).toNat = column) :
    r.format d = r.introduction d ++ (((r.line? (d.position.line - 1)).map
      (r.shownLine d .faint (d.position.line - 1))).getD [] ++
        (r.shownLine d .bold d.position.line line ++
        (r.markerLine d column ++ r.advice d))) := by
  have hknown : d.position.known = true := by
    by_contra hnot
    rw [line?, if_neg (fun hpos => hnot (decide_eq_true hpos))] at hline
    exact nomatch hline
  have hwidth : (if d.length ≤ 0 then 1 else d.length.toNat) = max 1 d.length.toNat := by
    split <;> omega
  have hmarker : r.marker d = blanks column ++
      Style.paint r.color (severityStyles d.severity)
      (List.replicate (max 1 d.length.toNat) '^') := by
    rw [marker, hwidth, hcolumn]
  rw [format, place, hknown, hline]
  cases r.line? (d.position.line - 1) with
  | none =>
    simp only [introduction, shownLine, markerLine, advice, hmarker, Bool.not_true,
      Bool.false_eq_true, if_false, List.append_assoc, Option.map_none,
      Option.getD_none, List.nil_append]
  | some above =>
    simp only [introduction, shownLine, markerLine, advice, hmarker, Bool.not_true,
      Bool.false_eq_true, if_false, List.append_assoc, Option.map_some, Option.getD_some]

/-- The position of an offset agrees with the lines that a report shows. Positions are ordered by
line and column as their offsets are, so no two offsets share one. A report about a position shows
the line, between line breaks, that its offset lies in; above it the line before, if there is one;
and below it a marker that starts under the offset. -/
theorem format_shows_line_of_offset (color : Bool) (filename source : Bytes) {offset : Nat}
    (hoffset : offset ≤ source.length) :
    (Position.ofOffset source offset).Agrees (ofSource color filename source).lines offset ∧
    (∀ other ≤ source.length,
      (offset < other ↔ (Position.ofOffset source offset).line <
        (Position.ofOffset source other).line ∨
        (Position.ofOffset source offset).line = (Position.ofOffset source other).line ∧
          (Position.ofOffset source offset).column < (Position.ofOffset source other).column) ∧
      ((Position.ofOffset source offset).line = (Position.ofOffset source other).line →
        (Position.ofOffset source offset).column = (Position.ofOffset source other).column →
          offset = other)) ∧
    ∃ above line below, source = above ++ (line ++ below) ∧ above.length ≤ offset ∧
      offset ≤ above.length + line.length ∧ (∀ c ∈ above.getLast?, c = Char.toUInt8 '\n') ∧
      Char.toUInt8 '\n' ∉ line ∧ (∀ c ∈ below.head?, c = Char.toUInt8 '\n') ∧
      ∀ d : Diagnostic, d.position = Position.ofOffset source offset →
        (ofSource color filename source).format d =
          (ofSource color filename source).introduction d ++
          ((((ofSource color filename source).line? (d.position.line - 1)).map
            ((ofSource color filename source).shownLine d .faint (d.position.line - 1))).getD [] ++
          ((ofSource color filename source).shownLine d .bold d.position.line line ++
          ((ofSource color filename source).markerLine d (offset - above.length) ++
            (ofSource color filename source).advice d))) := by
  obtain ⟨before, line, behind, hline, hposition⟩ := Position.ofOffset_lineAt hoffset
  have hlines : (ofSource color filename source).lines = before ++ line :: behind := hline.lines
  have hstart := hline.start_le
  have hstop := hline.le_stop
  refine ⟨hposition ▸ hline.agrees,
    fun other hother => ⟨Position.offset_lt_iff hoffset hother, fun hsame hcolumn => ?_⟩, ?_⟩
  · have hlt := Position.offset_lt_iff hoffset hother
    have hgt := Position.offset_lt_iff hother hoffset
    omega
  · obtain ⟨above, below, hsource, habove, -, hlast, hhead⟩ := hline.stands
    have hplain := hline.not_mem line (List.mem_append_right _ (List.mem_cons_self ..))
    refine ⟨above, line, below, hsource, by omega, by omega, hlast, hplain, hhead, fun d hd => ?_⟩
    refine format_eq ?_ ?_
    · rw [hd, hposition]
      exact line?_behind hlines
    · rw [hd, hposition]
      dsimp only
      omega

/-- The offset behind a source that ends with a line break lies in an empty last line, and the
offset of the line break behind the bytes of the line that it ends. -/
theorem format_shows_line_of_offset_end : 5 ≤ (utf8 "a\nbc\n").length ∧
    Position.ofOffset "a\nbc\n" 4 = ⟨2, 3, 4⟩ ∧ Position.ofOffset "a\nbc\n" 5 = ⟨3, 1, 5⟩ ∧
    (Position.ofOffset "a\nbc\n" 5).Agrees ["a", "bc", []] 5 ∧
    (∃ above line below, utf8 "a\nbc\n" = above ++ (line ++ below) ∧ above.length ≤ 5 ∧
      5 ≤ above.length + line.length ∧ Char.toUInt8 '\n' ∉ line) ∧
    (ofSource false "f" "a\nbc\n").format
        { kind := .brackets, message := "m", position := ⟨3, 1, 5⟩ } =
      utf8 "error[E0001]: m\n    --> f:3:1\n    │\n  2 │ bc\n  3 │ \n    │ ^\n\n" := by
  have hoffset : 5 ≤ (utf8 "a\nbc\n").length := by decide
  obtain ⟨hagrees, -, above, line, below, hsource, hstart, hstop, -, hplain, -⟩ :=
    format_shows_line_of_offset false "f" "a\nbc\n" hoffset
  exact ⟨hoffset, by decide, by decide, hagrees,
    ⟨above, line, below, hsource, hstart, hstop, hplain⟩, by decide +kernel⟩

end Reporter

end TagScript
