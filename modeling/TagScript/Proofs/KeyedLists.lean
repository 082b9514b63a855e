import Mathlib.Data.List.Nodup

/-!
# Lists of keys and values

Open documents and the files of a machine are kept as lists of pairs in which a key is replaced
by putting the new pair in front and leaving out the old one. Such a list has one entry for each
key, and what it holds is what looking up its keys gives.
-/

namespace TagScript

namespace KeyedList

variable {α β : Type} {entries : List (α × β)} {key : α} {value : β}

/-- Leaving out entries keeps the keys of the others apart. -/
theorem nodup_filter (keep : α × β → Bool) (h : (entries.map Prod.fst).Nodup) :
    ((entries.filter keep).map Prod.fst).Nodup :=
  h.sublist (List.filter_sublist.map Prod.fst)

variable [BEq α] [LawfulBEq α]

/-- Leaving out keys hides these keys and no other ones. -/
theorem lookup_filter (keep : α → Bool) (entries : List (α × β)) (key : α) :
    (entries.filter fun entry => keep entry.1).lookup key =
      if keep key then entries.lookup key else none := by
  induction entries with
  | nil => simp
  | cons entry entries ih =>
    obtain ⟨first, value⟩ := entry
    rw [List.filter_cons]
    by_cases hkey : key = first
    · subst hkey
      cases hkeep : keep key with
      | true => simp
      | false => simpa [hkeep] using ih
    · have hne : (key == first) = false := beq_false_of_ne hkey
      cases hfirst : keep first with
      | true => simpa [List.lookup_cons, hne] using ih
      | false => simpa [List.lookup_cons, hne] using ih

/-- The keys are those that can be looked up. -/
theorem mem_keys_iff : key ∈ entries.map Prod.fst ↔ ∃ value, entries.lookup key = some value := by
  induction entries with
  | nil => simp
  | cons entry entries ih =>
    obtain ⟨first, value⟩ := entry
    rw [List.map_cons, List.mem_cons, ih, List.lookup_cons]
    by_cases hkey : key = first
    · simp [hkey]
    · have hne : (key == first) = false := beq_false_of_ne hkey
      simp [hkey, hne]

/-- In a list with one entry for each key, looking up a key gives its entry. -/
theorem mem_iff_lookup (h : (entries.map Prod.fst).Nodup) :
    (key, value) ∈ entries ↔ entries.lookup key = some value := by
  induction entries with
  | nil => simp
  | cons entry entries ih =>
    obtain ⟨first, found⟩ := entry
    rw [List.map_cons, List.nodup_cons] at h
    rw [List.mem_cons, ih h.2, List.lookup_cons, Prod.mk.injEq]
    by_cases hkey : key = first
    · subst hkey
      have habsent : entries.lookup key ≠ some value :=
        fun hlookup => h.1 (mem_keys_iff.2 ⟨value, hlookup⟩)
      simp [habsent, eq_comm]
    · have hne : (key == first) = false := beq_false_of_ne hkey
      simp [hkey, hne]

variable [DecidableEq α]

/-- A key that is taken out has no value, and the others keep theirs. -/
theorem lookup_without (key : α) (entries : List (α × β)) (other : α) :
    (entries.filter fun entry => entry.1 ≠ key).lookup other =
      if other = key then none else entries.lookup other := by
  rw [lookup_filter (fun k => k ≠ key)]
  by_cases hother : other = key
  · simp [hother]
  · simp [hother]

/-- A replaced key has its new value, and the others keep theirs. -/
theorem lookup_replace (key : α) (value : β) (entries : List (α × β)) (other : α) :
    ((key, value) :: entries.filter fun entry => entry.1 ≠ key).lookup other =
      if other = key then some value else entries.lookup other := by
  rw [List.lookup_cons, lookup_without]
  by_cases hother : other = key
  · simp [hother]
  · have hne : (other == key) = false := beq_false_of_ne hother
    simp [hother, hne]

/-- Replacing a key leaves one entry for each key. -/
theorem nodup_replace (key : α) (value : β) (h : (entries.map Prod.fst).Nodup) :
    (((key, value) :: entries.filter fun entry => entry.1 ≠ key).map Prod.fst).Nodup := by
  rw [List.map_cons, List.nodup_cons]
  refine ⟨?_, nodup_filter _ h⟩
  rw [mem_keys_iff, lookup_without]
  simp

end KeyedList

end TagScript
