import Mathlib.Algebra.Order.Group.Nat
import Mathlib.Order.Bounds.Basic
import TagScript.Diagnostic.Distance
import TagScript.Proofs.BuildOrder

/-!
# The distance between names is the least number of edits

An edit inserts, deletes or replaces one byte anywhere in a text. Any number of edits may lead from
one text to another, in any order and through any texts between them. The distance of the two is the
least such number.

The program computes it row by row, from the fronts of both texts. `leastEdits` is the same
recurrence from the first bytes on. It is reached by edits, and one edit changes it by at most one,
so no fewer edits do. Since edits of reversed texts are reversed edits, an entry of a row is
`leastEdits` of two fronts read back to front.
-/

namespace TagScript

namespace Distance

/-- One edit: a byte is inserted, deleted or replaced. -/
inductive Edit : Bytes → Bytes → Prop where
  | insert (front back : Bytes) (c : UInt8) : Edit (front ++ back) (front ++ c :: back)
  | delete (front back : Bytes) (c : UInt8) : Edit (front ++ c :: back) (front ++ back)
  | replace (front back : Bytes) (c d : UInt8) : Edit (front ++ c :: back) (front ++ d :: back)

/-- A number of edits, one after the other. -/
inductive Edits : Nat → Bytes → Bytes → Prop where
  | none (a : Bytes) : Edits 0 a a
  | more {n : Nat} {a b c : Bytes} (first : Edit a b) (rest : Edits n b c) : Edits (n + 1) a c

/-- The least number of edits by the first bytes of both texts: the first is deleted, the second is
inserted, or they are paired. -/
def leastEdits : Bytes → Bytes → Nat
  | [], b => b.length
  | a, [] => a.length
  | c :: a, d :: b =>
    min (min (leastEdits a (d :: b) + 1) (leastEdits (c :: a) b + 1))
      (leastEdits a b + if c = d then 0 else 1)
termination_by a b => a.length + b.length

/-- The row of a text: how far it is from `front` and from each longer front of a second text that
goes on with `text`. All are written back to front. -/
def rowFrom (a front : Bytes) : Bytes → List Nat
  | [] => [leastEdits a front]
  | d :: text => leastEdits a front :: rowFrom a (d :: front) text

namespace Edit

variable {a b : Bytes}

/-- An edit can be undone. -/
theorem symm (h : Edit a b) : Edit b a := by
  cases h with
  | insert front back c => exact delete front back c
  | delete front back c => exact insert front back c
  | replace front back c d => exact replace front back d c

/-- An edit of a text is one of the text read backwards. -/
theorem reverse (h : Edit a b) : Edit a.reverse b.reverse := by
  cases h with
  | insert front back c => simpa using insert back.reverse front.reverse c
  | delete front back c => simpa using delete back.reverse front.reverse c
  | replace front back c d => simpa using replace back.reverse front.reverse c d

/-- An edit behind a byte. -/
theorem cons (h : Edit a b) (c : UInt8) : Edit (c :: a) (c :: b) := by
  cases h with
  | insert front back d => exact insert (c :: front) back d
  | delete front back d => exact delete (c :: front) back d
  | replace front back d e => exact replace (c :: front) back d e

end Edit

namespace Edits

variable {m n : Nat} {a b c : Bytes}

/-- Edits can be made one after the other. -/
theorem trans (h : Edits m a b) (h' : Edits n b c) : Edits (m + n) a c := by
  induction h with
  | none => rwa [Nat.zero_add]
  | more first _ ih =>
    rw [Nat.add_right_comm]
    exact more first (ih h')

/-- Edits can be undone. -/
theorem symm (h : Edits n a b) : Edits n b a := by
  induction h with
  | none a => exact none a
  | more first _ ih => exact ih.trans (more first.symm (none _))

/-- Edits of a text are edits of the text read backwards. -/
theorem reverse (h : Edits n a b) : Edits n a.reverse b.reverse := by
  induction h with
  | none a => exact none a.reverse
  | more first _ ih => exact more first.reverse ih

/-- Edits behind a byte. -/
theorem cons (h : Edits n a b) (c : UInt8) : Edits n (c :: a) (c :: b) := by
  induction h with
  | none a => exact none (c :: a)
  | more first _ ih => exact more (first.cons c) ih

/-- A text is written byte by byte. -/
theorem ofNil (b : Bytes) : Edits b.length [] b := by
  induction b with
  | nil => exact none []
  | cons d b ih => exact more (.insert [] [] d) (ih.cons d)

end Edits

section LeastEdits

variable {a b : Bytes} {c d : UInt8}

/-- From nothing each byte is inserted. -/
@[simp] theorem leastEdits_nil_left (b : Bytes) : leastEdits [] b = b.length := by rw [leastEdits]

/-- To nothing each byte is deleted. -/
@[simp] theorem leastEdits_nil_right (a : Bytes) : leastEdits a [] = a.length := by
  cases a with
  | nil => exact leastEdits_nil_left []
  | cons c a => simp [leastEdits]

/-- The first bytes are deleted, inserted or replaced, and nothing is done where they agree. -/
theorem leastEdits_cons (c d : UInt8) (a b : Bytes) : leastEdits (c :: a) (d :: b) =
    min (min (leastEdits a (d :: b) + 1) (leastEdits (c :: a) b + 1))
      (leastEdits a b + if c = d then 0 else 1) := by
  rw [leastEdits]

/-- Edits of the least number lead from one text to the other. -/
theorem edits_leastEdits (a b : Bytes) : Edits (leastEdits a b) a b := by
  fun_induction leastEdits a b with
  | case1 b => exact Edits.ofNil b
  | case2 a => exact (Edits.ofNil a).symm
  | case3 c a d b ihDelete ihInsert ihPair =>
    have hdelete : Edits (leastEdits a (d :: b) + 1) (c :: a) (d :: b) :=
      .more (.delete [] a c) ihDelete
    have hinsert : Edits (leastEdits (c :: a) b + 1) (c :: a) (d :: b) :=
      .more (.insert [] (c :: a) d) (ihInsert.cons d)
    have hpair : Edits (leastEdits a b + if c = d then 0 else 1) (c :: a) (d :: b) := by
      split
      next heq => exact heq ▸ ihPair.cons c
      next => exact .more (.replace [] a c d) (ihPair.cons d)
    rcases min_choice (min (leastEdits a (d :: b) + 1) (leastEdits (c :: a) b + 1))
      (leastEdits a b + if c = d then 0 else 1) with h | h
    · rw [h]
      rcases min_choice (leastEdits a (d :: b) + 1) (leastEdits (c :: a) b + 1) with h | h
      · rwa [h]
      · rwa [h]
    · rwa [h]

/-- A byte more in front of either text costs one edit at most. -/
theorem leastEdits_cons_left_le (c : UInt8) (a b : Bytes) :
    leastEdits (c :: a) b ≤ leastEdits a b + 1 := by
  cases b with
  | nil => simp
  | cons d b =>
    rw [leastEdits_cons]
    omega

/-- One more byte on the right takes one more edit at most. -/
theorem leastEdits_cons_right_le (d : UInt8) (a b : Bytes) :
    leastEdits a (d :: b) ≤ leastEdits a b + 1 := by
  cases a with
  | nil => simp
  | cons c a =>
    rw [leastEdits_cons]
    omega

/-- A byte less in front of the first text costs one edit at most. -/
theorem leastEdits_le_cons_left (c : UInt8) (a b : Bytes) :
    leastEdits a b ≤ leastEdits (c :: a) b + 1 := by
  induction b with
  | nil =>
    simp only [leastEdits_nil_right, List.length_cons]
    omega
  | cons d b ih =>
    have hpair := leastEdits_cons_right_le d a b
    rw [leastEdits_cons]
    omega

/-- Another byte in front of the first text costs one edit at most. -/
theorem leastEdits_replace_le (c d : UInt8) (a b : Bytes) :
    leastEdits (c :: a) b ≤ leastEdits (d :: a) b + 1 := by
  induction b with
  | nil => simp
  | cons e b ih =>
    have hdelete := leastEdits_cons_left_le c a (e :: b)
    have hinsert := leastEdits_cons_right_le e (c :: a) b
    have hpair : leastEdits (c :: a) (e :: b) ≤ leastEdits a b + 1 := by
      rw [leastEdits_cons]
      split <;> omega
    rw [leastEdits_cons d]
    omega

/-- What costs one edit at most costs no more behind a byte. -/
theorem leastEdits_cons_mono {a a' : Bytes} (h : ∀ b, leastEdits a b ≤ leastEdits a' b + 1)
    (c : UInt8) (b : Bytes) :
    leastEdits (c :: a) b ≤ leastEdits (c :: a') b + 1 := by
  induction b with
  | nil => simpa using h []
  | cons d b ih =>
    have hdelete := h (d :: b)
    have hpair := h b
    rw [leastEdits_cons, leastEdits_cons]
    omega

/-- One edit changes the least number by one at most. -/
theorem Edit.leastEdits_le {a a' : Bytes} (h : Edit a a') (b : Bytes) :
    leastEdits a b ≤ leastEdits a' b + 1 := by
  have hfront : ∀ {u v : Bytes}, (∀ b, leastEdits u b ≤ leastEdits v b + 1) →
      ∀ front b, leastEdits (front ++ u) b ≤ leastEdits (front ++ v) b + 1 := by
    intro u v huv front
    induction front with
    | nil => exact huv
    | cons c front ih => exact leastEdits_cons_mono ih c
  cases h with
  | insert front back c => exact hfront (leastEdits_le_cons_left c back) front b
  | delete front back c => exact hfront (leastEdits_cons_left_le c back) front b
  | replace front back c d => exact hfront (leastEdits_replace_le c d back) front b

/-- A text needs no edits to become itself. -/
@[simp] theorem leastEdits_self (a : Bytes) : leastEdits a a = 0 := by
  induction a with
  | nil => simp
  | cons c a ih =>
    rw [leastEdits_cons, if_pos rfl, ih]
    omega

/-- Fewer edits lead nowhere. -/
theorem Edits.leastEdits_le {n : Nat} {a b : Bytes} (h : Edits n a b) : leastEdits a b ≤ n := by
  induction h with
  | none a => exact Nat.le_of_eq (leastEdits_self a)
  | more first _ ih => exact (first.leastEdits_le _).trans (Nat.succ_le_succ ih)

end LeastEdits

section Rows

/-- A row starts with the distance from the shortest front. -/
theorem rowFrom_eq_cons (a front text : Bytes) :
    ∃ rest, rowFrom a front text = leastEdits a front :: rest := by
  cases text with
  | nil => exact ⟨[], rfl⟩
  | cons d text => exact ⟨_, rfl⟩

/-- Before anything of the first text is read, all of the second one is to be written. -/
theorem rowFrom_nil (front text : Bytes) :
    rowFrom [] front text = List.range' front.length (text.length + 1) := by
  induction text generalizing front with
  | nil => simp [rowFrom]
  | cons d text ih =>
    rw [rowFrom, ih, leastEdits_nil_left, List.length_cons, List.length_cons, ← List.range'_succ]

/-- The entries of the next row are those of one more byte of the first text. -/
theorem nextRow_rowFrom (c : UInt8) (a front text : Bytes) :
    leastEdits (c :: a) front :: nextRow c text (rowFrom a front text) (leastEdits (c :: a) front) =
      rowFrom (c :: a) front text := by
  induction text generalizing front with
  | nil => rfl
  | cons d text ih =>
    obtain ⟨rest, hrest⟩ := rowFrom_eq_cons a (d :: front) text
    have hentry := leastEdits_cons c d a front
    have hnext := ih (d :: front)
    rw [hrest] at hnext
    rw [rowFrom, hrest, nextRow, ← hentry, hnext, rowFrom]

/-- One more byte of the first text makes the next row. -/
theorem advance_rowFrom (c : UInt8) (a text : Bytes) :
    advance text (rowFrom a [] text) c = rowFrom (c :: a) [] text := by
  obtain ⟨rest, hrest⟩ := rowFrom_eq_cons a [] text
  have hfirst : (rowFrom a [] text).headD 0 + 1 = leastEdits (c :: a) [] := by
    rw [hrest]
    simp
  rw [advance, hfirst, nextRow_rowFrom]

/-- All bytes of the first text make the row of the whole text. -/
theorem foldl_advance (a read text : Bytes) :
    a.foldl (advance text) (rowFrom read [] text) = rowFrom (a.reverse ++ read) [] text := by
  induction a generalizing read with
  | nil => rfl
  | cons c a ih =>
    rw [List.foldl_cons, advance_rowFrom, ih, List.reverse_cons, List.append_assoc,
      List.singleton_append]

/-- A row ends with the distance from the whole second text. -/
theorem getLast?_rowFrom (a front text : Bytes) :
    (rowFrom a front text).getLast? = some (leastEdits a (text.reverse ++ front)) := by
  induction text generalizing front with
  | nil => rfl
  | cons d text ih =>
    obtain ⟨rest, hrest⟩ := rowFrom_eq_cons a (d :: front) text
    have hlast := ih (d :: front)
    rw [hrest] at hlast
    rw [rowFrom, hrest, List.getLast?_cons_cons, hlast, List.reverse_cons, List.append_assoc,
      List.singleton_append]

end Rows

end Distance

open Distance

/-- The rows compute the recurrence on the texts back to front. -/
theorem editDistance_eq_leastEdits (a b : Bytes) :
    editDistance a b = leastEdits a.reverse b.reverse := by
  have hstart : List.range (b.length + 1) = rowFrom [] [] b := by
    rw [rowFrom_nil, List.range_eq_range']
    rfl
  rw [editDistance, hstart, foldl_advance, getLast?_rowFrom, List.append_nil,
    List.append_nil, Option.getD_some]

/-- The distance is the least number of edits. -/
theorem isLeast_editDistance (a b : Bytes) : IsLeast {n | Edits n a b} (editDistance a b) := by
  rw [editDistance_eq_leastEdits]
  constructor
  · simpa using (edits_leastEdits a.reverse b.reverse).reverse
  · intro n h
    exact (Edits.reverse h).leastEdits_le

/-- The distance is the same both ways. -/
theorem editDistance_comm (a b : Bytes) : editDistance a b = editDistance b a := by
  have hle : ∀ a b, editDistance a b ≤ editDistance b a := fun a b =>
    (isLeast_editDistance a b).2 (isLeast_editDistance b a).1.symm
  exact Nat.le_antisymm (hle a b) (hle b a)

/-- Only equal texts have no distance. -/
theorem editDistance_eq_zero_iff {a b : Bytes} : editDistance a b = 0 ↔ a = b := by
  constructor
  · intro h
    have hedits := (isLeast_editDistance a b).1
    rw [h] at hedits
    cases hedits
    rfl
  · rintro rfl
    exact Nat.le_zero.1 ((isLeast_editDistance a a).2 (.none a))

/-- The way through another text is not shorter. -/
theorem editDistance_triangle (a b c : Bytes) :
    editDistance a c ≤ editDistance a b + editDistance b c :=
  (isLeast_editDistance a c).2 ((isLeast_editDistance a b).1.trans (isLeast_editDistance b c).1)

/-- Sorted texts are in the order of their bytes. -/
theorem Bytes.pairwise_sort (texts : List Bytes) : (sort texts).Pairwise (· ≤ ·) := by
  refine (List.pairwise_mergeSort (fun a b c hab hbc => ?_) (fun a b => ?_) texts).imp
    (le_iff _ _).1
  · rw [le_iff] at hab hbc ⊢
    exact List.le_trans hab hbc
  · rw [Bool.or_eq_true, le_iff, le_iff]
    exact List.le_total _ _

/-- A name is suggested as often as it is a candidate, if it is long enough, close enough and not
the name itself. -/
theorem count_similarNames (target : Bytes) (candidates : List Bytes) (name : Bytes) :
    (similarNames target candidates).count name =
      if name ≠ target ∧ 2 < name.length ∧
        editDistance target name ≤ 2 then candidates.count name else 0 := by
  rw [similarNames, Bytes.sort, (List.mergeSort_perm _ _).count_eq]
  split
  next h => exact List.count_filter (by simpa [and_assoc] using h)
  next h =>
    refine List.count_eq_zero.2 fun hmem => h ?_
    simpa [and_assoc] using List.of_mem_filter hmem

/-- Names are suggested by their true distance. The distance is the least number of insertions,
deletions and replacements of one byte that lead from one text to the other; so it is symmetric,
zero between equal texts only, and no longer than a way through a third text. The suggestions are,
in order, all candidates of more than two bytes at a distance of two or less from the name that is
sought, other than this name, each as often as it is given. -/
theorem similarNames_by_least_edits :
    (∀ a b, IsLeast {n | Edits n a b} (editDistance a b)) ∧
    (∀ a b, editDistance a b = editDistance b a) ∧
    (∀ a b, editDistance a b = 0 ↔ a = b) ∧
    (∀ a b c, editDistance a c ≤ editDistance a b + editDistance b c) ∧
    ∀ target candidates, (similarNames target candidates).Pairwise (· ≤ ·) ∧
      ∀ name, (similarNames target candidates).count name =
        if name ≠ target ∧ 2 < name.length ∧
          editDistance target name ≤ 2 then candidates.count name else 0 :=
  ⟨isLeast_editDistance, editDistance_comm, fun _ _ => editDistance_eq_zero_iff,
    editDistance_triangle, fun target candidates =>
    ⟨Bytes.pairwise_sort _, count_similarNames target candidates⟩⟩

/-- Of three candidates two are close, and one of these is given twice. -/
example : editDistance "kitten" "sitting" = 3 ∧
    similarNames "count" ["mount", "coun", "amounts", "mount"] =
    [utf8 "coun", utf8 "mount", utf8 "mount"] := by
  refine ⟨by decide, by cbv⟩

end TagScript
