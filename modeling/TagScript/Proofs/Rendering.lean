import Mathlib.Data.List.Basic
import TagScript.Proofs.Layout
import TagScript.Token.Render

/-!
# Rendering keeps what can be seen

The visible bytes of a text are those that are neither white space nor semicolons. A script, the
tokens that it is laid out as, and what these tokens are written out as have the same visible
bytes in the same order.

Rendering is followed entry by entry: whether a token starts an entry or continues the newest one,
it adds its own visible bytes behind those of the entries before it.
-/

namespace TagScript

namespace Bytes

/-- The bytes of a text that are neither white space nor semicolons. -/
def visible (text : Bytes) : Bytes :=
  ((text.zip (spaceMask text)).filter fun (c, space) => !space && c ≠ ';').map Prod.fst

/-- An empty text shows nothing. -/
@[simp] theorem visible_nil : visible [] = [] := by simp [visible]

/-- Where the white space of a text can be cut, its visible bytes are cut. -/
theorem visible_of_mask {text more : Bytes}
    (h : spaceMask (text ++ more) = spaceMask text ++ spaceMask more) :
    visible (text ++ more) = visible text ++ visible more := by
  rw [visible, h, List.zip_append (length_spaceMask text).symm, List.filter_append, List.map_append]
  rfl

/-- An ASCII byte stands for itself between the visible bytes before and behind it. -/
theorem visible_append_ascii {c : UInt8} (h : c < 0x80) (text rest : Bytes) :
    visible (text ++ c :: rest) = visible text ++ (visible [c] ++ visible rest) := by
  rw [visible_of_mask (spaceMask_append (isCut_ascii h rest)), ← List.singleton_append,
    visible_of_mask (spaceMask_ascii_append h rest)]

/-- White space is not visible. -/
theorem visible_of_isSpace {text : Bytes} (h : IsSpace text) : visible text = [] := by
  rw [visible, h, List.map_eq_nil_iff, List.filter_eq_nil_iff]
  rintro ⟨c, space⟩ hmem
  obtain rfl : space = true := List.eq_of_mem_replicate (List.of_mem_zip hmem).2
  simp

/-- Trimming a text takes nothing visible away. -/
@[simp] theorem visible_trim (text : Bytes) : visible (trim text) = visible text := by
  obtain ⟨lead, tail, htext, -, hlead, htail, hmask, hcut⟩ := trim_spec text
  generalize text.trim = inner at htext hmask ⊢
  subst htext
  rw [visible_of_mask hmask, visible_of_isSpace hlead, visible_of_mask (spaceMask_append hcut),
    visible_of_isSpace htail, List.append_nil, List.nil_append]

/-- What stands between two entries: an ASCII byte that is not visible. -/
def IsGlue (c : UInt8) : Prop := c < 0x80 ∧ visible [c] = []

/-- Semicolons, line breaks and blanks are glue. -/
theorem isGlue : IsGlue ';' ∧ IsGlue '\n' ∧ IsGlue ' ' := by
  refine ⟨?_, ?_, ?_⟩
  all_goals exact ⟨by decide, by rw [visible, spaceMask_ascii (by decide)]; decide⟩

/-- Glue adds nothing visible. -/
theorem IsGlue.visible_append {c : UInt8} (h : IsGlue c) (text rest : Bytes) :
    visible (text ++ c :: rest) = visible text ++ visible rest := by
  rw [visible_append_ascii h.1, h.2, List.nil_append]

/-- Pieces with glue between them. -/
theorem IsGlue.visible_join {c : UInt8} (h : IsGlue c) (pieces : List Bytes) :
    visible (join [c] pieces) = pieces.flatMap visible := by
  rw [join]
  induction pieces with
  | nil => simp
  | cons piece pieces ih =>
    cases pieces with
    | nil => simp
    | cons next pieces =>
      rw [List.intercalate_cons_cons, List.append_assoc, List.singleton_append,
        h.visible_append, ih]
      rfl

end Bytes

namespace Token

open Bytes

/-- The visible bytes of entries that are listed newest first. -/
def visibleEntries (entries : List Bytes) : Bytes := entries.reverse.flatMap Bytes.visible

/-- A new entry comes behind the others. -/
theorem visibleEntries_cons (entry : Bytes) (before : List Bytes) :
    visibleEntries (entry :: before) = visibleEntries before ++ entry.visible := by
  simp [visibleEntries]

/-- What continues an entry stands behind a blank. -/
theorem extendNewest_cons (text newest : Bytes) (older : List Bytes) :
    extendNewest text (newest :: older) = (newest ++ Char.toUInt8 ' ' :: text) :: older := by
  rw [extendNewest, List.append_assoc]
  rfl

/-- Title, content and closer of a block on lines of their own. -/
theorem lines_eq (title body closer : Bytes) : title ++ "\n" ++ body ++ "\n" ++ closer =
    title ++ Char.toUInt8 '\n' :: (body ++ Char.toUInt8 '\n' :: closer) := by
  simp only [List.append_assoc]
  rfl

/-- What continues the newest entry comes behind all of them. -/
theorem visibleEntries_extendNewest (text : Bytes) {before : List Bytes} (h : before ≠ []) :
    visibleEntries (extendNewest text before) = visibleEntries before ++ text.visible := by
  cases before with
  | nil => exact absurd rfl h
  | cons newest older =>
    rw [extendNewest_cons, visibleEntries_cons, visibleEntries_cons, isGlue.2.2.visible_append,
      List.append_assoc]

/-- The entries written out with the separators of their block. -/
theorem visible_join_entries (header : Bool) (entries : List Bytes) :
    (join (if header = true then ";" else "\n") entries.reverse).visible =
      visibleEntries entries := by
  have hsemicolon : (";" : Bytes) = [Char.toUInt8 ';'] := by decide
  have hline : ("\n" : Bytes) = [Char.toUInt8 '\n'] := by decide
  cases header with
  | true => rw [if_pos rfl, hsemicolon, isGlue.1.visible_join, visibleEntries]
  | false => rw [if_neg Bool.false_ne_true, hline, isGlue.2.1.visible_join, visibleEntries]

/-- The entry of a block: its title, its content and its closer on lines of their own. -/
theorem visible_blockEntry (title body closer : Bytes) :
    (title ++ "\n" ++ body ++ "\n" ++ closer).visible = title.visible ++
    (body.visible ++ closer.visible) := by
  rw [lines_eq, isGlue.2.1.visible_append, isGlue.2.1.visible_append]

/-- A text that starts with an arrow is the arrow and what follows it. -/
theorem eq_arrow_append {text : Bytes} (h : text.startsWith arrow = true) :
    text = arrow ++ text.drop 2 := by
  obtain ⟨rest, hrest⟩ := Option.isSome_iff_exists.1 h
  have harrow : arrow = [Char.toUInt8 '=', Char.toUInt8 '>'] := by decide
  rw [harrow] at hrest ⊢
  match text with
  | [] => simp [after?] at hrest
  | [c] => simp [after?] at hrest
  | c :: d :: text =>
    simp only [after?] at hrest
    grind

/-- The visible bytes of a text that starts with an arrow are the arrow and those behind it. -/
theorem visible_arrow_append (text : Bytes) :
    (arrow ++ text).visible = arrow.visible ++ text.visible := by
  have harrow : arrow = [] ++ Char.toUInt8 '=' :: ([] ++ [Char.toUInt8 '>']) := by decide
  have hsplit : arrow ++ text = [] ++ Char.toUInt8 '=' :: ([] ++ Char.toUInt8 '>' :: text) := by
    rw [harrow]
    rfl
  rw [hsplit, harrow, visible_append_ascii (by decide), visible_append_ascii (by decide),
    visible_append_ascii (by decide), visible_append_ascii (by decide)]
  simp

mutual

/-- A token adds its visible bytes to those of the entries before it. -/
theorem visibleEntries_entries (clauses : Bool) (before : List Bytes) : (t : Token) →
    visibleEntries (entries clauses before t) = visibleEntries before ++ collect Bytes.visible t
  | .leaf text _ => by
    rw [entries, collect]
    split
    next hempty =>
      have hvisible : text.visible = [] := by
        rw [← visible_trim, List.isEmpty_iff.1 hempty, visible_nil]
      split
      · rw [visibleEntries_cons, visible_trim]
      · rw [hvisible, List.append_nil]
    next =>
      split
      next hcontinues =>
        have hbefore : before ≠ [] := by simpa using (Bool.and_eq_true_iff.1 hcontinues).2
        rw [visibleEntries_extendNewest _ hbefore, visible_trim]
      next => rw [visibleEntries_cons, visible_trim]
  | .block signature children _ => by
    have hbody : ∀ header, (join (if header = true then ";" else "\n")
        (entriesAll header [] children).reverse).visible = collectAll Bytes.visible children := by
      intro header
      rw [visible_join_entries, visibleEntries_entriesAll header [] children]
      rfl
    rw [entries, collect, visibleEntries_cons, visible_blockEntry, hbody]
    split
    next hcontinues =>
      obtain ⟨harrow, hbefore⟩ := Bool.and_eq_true_iff.1 hcontinues
      have hsignature : signature.visible = arrow.visible ++
          Bytes.visible (signature.trim.drop 2) := by
        rw [← visible_arrow_append, ← eq_arrow_append harrow, visible_trim]
      rw [visibleEntries_extendNewest _ (by simpa using hbefore), visible_trim, hsignature,
        List.append_assoc, List.append_assoc]
    next => rw [visible_trim]

/-- A sequence of tokens adds its visible bytes to those of the entries before it. -/
theorem visibleEntries_entriesAll (clauses : Bool) (before : List Bytes) : (ts : List Token) →
    visibleEntries (entriesAll clauses before ts) = visibleEntries before ++
      collectAll Bytes.visible ts
  | [] => by rw [entriesAll, collectAll, List.append_nil]
  | t :: ts => by
    rw [entriesAll, collectAll, visibleEntries_entriesAll clauses _ ts,
      visibleEntries_entries clauses before t, List.append_assoc]

end

end Token

namespace Scan

open Token Bytes

/-- What ends a statement is glue. -/
theorem EndsStatement.isGlue {mode : Mode} {c : UInt8} (h : EndsStatement mode c) : IsGlue c := by
  obtain ⟨-, rfl⟩ | ⟨-, rfl⟩ := h
  · exact Bytes.isGlue.1
  · exact Bytes.isGlue.2.1

/-- The tokens of a script have its visible bytes. -/
theorem faithful_visible : Faithful Bytes.visible where
  nil := visible_nil
  trim := visible_trim
  separated _ hend := hend.isGlue.visible_append _ _
  block := by
    intro _ text inside after bracket _ _
    rw [visible_append_ascii bracket.opener_ascii.1, visible_append_ascii bracket.opener_ascii.1,
      visible_append_ascii bracket.closer_ascii]
    simp

/-- Rendering loses and invents nothing: what a script is written out as has the visible bytes of
the script. -/
theorem visible_render_tokenize {source : Bytes} {tokens : List Token}
    (h : tokenize source = .ok tokens) :
    (render tokens).visible = source.visible := by
  obtain ⟨pairs, hlayout⟩ := layout_of_scan h
  have hrender : (render tokens).visible = visibleEntries (entriesAll false [] tokens) :=
    visible_join_entries false _
  rw [hrender, visibleEntries_entriesAll, hlayout.collectAll_eq faithful_visible]
  rfl

/-- An arrow function with wide white space, whose arrow joins the parameter list. -/
theorem visible_render_tokenize_arrow :
    tokenize "f(\u00a0a) => \x7b b;\x7d" =
      .ok [.block "f(" [.leaf "a" 4] 0, .block "=> \x7b" [.leaf "b" 12] 7] ∧
    (render [.block "f(" [.leaf "a" 4] 0, .block "=> \x7b" [.leaf "b" 12] 7]).visible =
      Bytes.visible "f(\u00a0a) => \x7b b;\x7d" := by
  have h : tokenize "f(\u00a0a) => \x7b b;\x7d" =
      .ok [.block "f(" [.leaf "a" 4] 0, .block "=> \x7b" [.leaf "b" 12] 7] := by decide +kernel
  exact ⟨h, visible_render_tokenize h⟩

end Scan

end TagScript
