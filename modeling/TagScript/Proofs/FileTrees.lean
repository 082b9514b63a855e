import TagScript.Files.Tree
import TagScript.Proofs.CleanPaths
import TagScript.Proofs.KeyedLists

/-!
# What file operations do to a tree

In a well-formed tree every place has one node, its names are names that a system takes, and it lies
in a directory. Making directories and writing files keep that. What they do is said place by place,
through `find?`: the order in which a tree lists its nodes never shows.

Two trees that agree along the way to a place are treated alike there. That holds too when one of
them already has what the operation is about to put on the way.
-/

namespace TagScript

namespace FileFault

/-- A text names nothing when it has a zero byte or is too long, and else it is in order. -/
theorem ofText?_eq_none_iff {text : Bytes} : ofText? text = none ↔ 0 ∉ text ∧
    text.length ≤ maxTextLength := by
  unfold ofText?
  split
  case isTrue h => simp_all
  case isFalse h =>
    split
    case isTrue hlong => simp [hlong]
    case isFalse hshort => simp_all

/-- A text is never refused because nothing is found. -/
theorem ofText?_ne_missing (text : Bytes) : ofText? text ≠ some .missing := by
  unfold ofText?
  split
  · simp
  · split <;> simp

end FileFault

/-- Whether a system takes a path from the root: its text and each of its names. -/
def Nameable (place : List Bytes) : Prop :=
  FileFault.ofText? (Path.text ⟨true, place⟩) = none ∧ ∀ part ∈ place,
    part.length ≤ FileFault.maxNameLength

instance : DecidablePred Nameable := fun _ => inferInstanceAs (Decidable (_ ∧ _))

/-- What is joined of the first pieces stands in front of what is joined of all. -/
theorem Bytes.join_prefix_append (separator : Bytes) (pieces more : List Bytes) :
    join separator pieces <+: join separator (pieces ++ more) := by
  induction pieces with
  | nil => exact List.nil_prefix
  | cons piece pieces ih =>
    cases pieces with
    | nil => cases more <;> simp [join]
    | cons next pieces =>
      simp only [join, List.cons_append, List.intercalate_cons_cons, List.append_assoc] at ih ⊢
      exact (List.prefix_append_right_inj _).2 ((List.prefix_append_right_inj _).2 ih)

/-- The directories on the way to a path that a system takes are taken too. -/
theorem Nameable.of_prefix {place more : List Bytes} (h : Nameable more) (hpre : place <+: more) :
    Nameable place := by
  obtain ⟨rest, rfl⟩ := hpre
  obtain ⟨htext, hnames⟩ := h
  have hfront : Path.text ⟨true, place⟩ <+: Path.text ⟨true, place ++ rest⟩ :=
    (List.prefix_append_right_inj _).2 (Bytes.join_prefix_append _ _ _)
  rw [FileFault.ofText?_eq_none_iff] at htext
  refine ⟨FileFault.ofText?_eq_none_iff.2 ⟨fun hzero => htext.1 (hfront.subset hzero), ?_⟩,
    fun part hpart => ?_⟩
  · exact hfront.length_le.trans htext.2
  · exact hnames part (List.mem_append_left _ hpart)

namespace FileTree

/-- A directory can be made, and a file written, at a path that the system takes. -/
theorem newFault?_eq_none_iff {place : List Bytes} {name : Bytes}
    (hplace : ∀ part ∈ place, part.length ≤ FileFault.maxNameLength) :
    newFault? (Path.text ⟨true, place ++ [name]⟩) name = none ↔ Nameable (place ++ [name]) := by
  unfold newFault? Nameable
  cases FileFault.ofText? (Path.text ⟨true, place ++ [name]⟩) with
  | some fault => simp
  | none =>
    simp only [List.forall_mem_append, List.forall_mem_singleton, true_and]
    split
    case isTrue hlong => simp [Nat.not_le.2 hlong]
    case isFalse hshort => simpa [Nat.not_lt.1 hshort] using hplace

/-- Every place has one node, names that a system takes, and a directory that it lies in. -/
structure WellFormed (t : FileTree) : Prop where
  nodup : (t.nodes.map Prod.fst).Nodup
  names : ∀ entry ∈ t.nodes, ∀ part ∈ entry.1, IsName part ∧ part.length ≤ FileFault.maxNameLength
  parents : ∀ entry ∈ t.nodes, t.find? entry.1.dropLast = some .directory

/-- The root is a directory. -/
@[simp] theorem find?_nil (t : FileTree) : t.find? [] = some .directory := rfl

/-- Below the root a place is looked up among the nodes. -/
theorem find?_of_ne_nil {place : List Bytes} (h : place ≠ []) (t : FileTree) :
    t.find? place = t.nodes.lookup place := by
  simp [find?, h]

/-- A node that was put is found at its place, and every other one as before. -/
theorem find?_put {place : List Bytes} (h : place ≠ []) (t : FileTree) (node : Node)
    (other : List Bytes) :
    (t.put place node).find? other = if other = place then some node else t.find? other := by
  by_cases hother : other = []
  · simp [hother, h.symm]
  · rw [find?_of_ne_nil hother, find?_of_ne_nil hother]
    exact KeyedList.lookup_replace place node t.nodes other

/-- What was erased is gone with everything below it, and the rest is found as before. -/
theorem find?_erase {place : List Bytes} (h : place ≠ []) (t : FileTree) (other : List Bytes) :
    (t.erase place).find? other = if place <+: other then none else t.find? other := by
  by_cases hother : other = []
  · simp [hother, h]
  · rw [find?_of_ne_nil hother, find?_of_ne_nil hother]
    have hlookup := KeyedList.lookup_filter (fun p => !place.isPrefixOf p) t.nodes other
    simp only [erase]
    rw [hlookup]
    by_cases hpre : place <+: other
    · simp [hpre]
    · simp [hpre]

variable {s t : FileTree} {place rest : List Bytes} {node : Node}

/-- What is found below the root is one of the nodes. -/
theorem mem_nodes_of_find? (h : t.WellFormed) (hplace : place ≠ [])
    (hfind : t.find? place = some node) : (place, node) ∈ t.nodes :=
  (KeyedList.mem_iff_lookup h.nodup).2 (find?_of_ne_nil hplace t ▸ hfind)

namespace WellFormed

/-- The names on the way to what there is are names that a system takes. -/
theorem names_of_find? (h : t.WellFormed) (hfind : t.find? place = some node) :
    ∀ part ∈ place, IsName part ∧ part.length ≤ FileFault.maxNameLength := by
  by_cases hplace : place = []
  · simp [hplace]
  · exact h.names _ (mem_nodes_of_find? h hplace hfind)

/-- What lies somewhere lies in a directory. -/
theorem directory_of_find? (h : t.WellFormed) (hfind : t.find? (place ++ rest) = some node)
    (hrest : rest ≠ []) :
    t.find? place = some .directory := by
  induction rest using List.reverseRecOn generalizing node with
  | nil => exact absurd rfl hrest
  | append_singleton rest part ih =>
    have hparent := h.parents _ (mem_nodes_of_find? h (by simp) hfind)
    rw [← List.append_assoc, List.dropLast_concat] at hparent
    by_cases hnil : rest = []
    · simpa [hnil] using hparent
    · exact ih hparent hnil

/-- Below what is not there nothing is. -/
theorem find?_eq_none_of_prefix (h : t.WellFormed) {more : List Bytes} (hpre : place <+: more)
    (hnone : t.find? place = none) : t.find? more = none := by
  obtain ⟨rest, rfl⟩ := hpre
  by_contra hsome
  obtain ⟨node, hnode⟩ := Option.ne_none_iff_exists'.1 hsome
  by_cases hrest : rest = []
  · simp_all
  · simp [h.directory_of_find? hnode hrest] at hnone

/-- A tree stays well-formed when a directory gets a new entry, or a file a new content. -/
theorem put (h : t.WellFormed)
    (hnames : ∀ part ∈ place, IsName part ∧ part.length ≤ FileFault.maxNameLength)
    (hparent : t.find? place.dropLast = some .directory)
    (hplace : t.find? place ≠ some .directory) :
    (t.put place node).WellFormed := by
  have hne : place ≠ [] := by rintro rfl; simp at hplace
  have hlast : place.dropLast ≠ place := fun heq => hplace (heq ▸ hparent)
  have hold : ∀ entry ∈ (t.put place node).nodes, entry = (place, node) ∨ entry ∈ t.nodes := by
    intro entry hentry
    exact (List.mem_cons.1 hentry).imp_right fun hmem => (List.mem_filter.1 hmem).1
  refine ⟨KeyedList.nodup_replace place node h.nodup, fun entry hentry => ?_,
    fun entry hentry => ?_⟩
  · rcases hold entry hentry with rfl | hentry
    · exact hnames
    · exact h.names entry hentry
  · rw [find?_put hne]
    rcases hold entry hentry with rfl | hentry
    · rw [if_neg hlast, hparent]
    · have hdirectory := h.parents entry hentry
      have hother : entry.1.dropLast ≠ place := fun heq => hplace (heq ▸ hdirectory)
      rw [if_neg hother, hdirectory]

/-- Erasing a place keeps a tree well formed. -/
theorem erase (h : t.WellFormed) (hplace : place ≠ []) : (t.erase place).WellFormed := by
  have hold : ∀ entry ∈ (t.erase place).nodes, entry ∈ t.nodes ∧ ¬ place <+: entry.1 := by
    intro entry hentry
    obtain ⟨hmem, hkeep⟩ := List.mem_filter.1 hentry
    refine ⟨hmem, fun hpre => ?_⟩
    simp [List.isPrefixOf_iff_prefix.2 hpre] at hkeep
  refine ⟨KeyedList.nodup_filter _ h.nodup, fun entry hentry => ?_, fun entry hentry => ?_⟩
  · exact h.names entry (hold entry hentry).1
  · rw [find?_erase hplace, if_neg, h.parents entry (hold entry hentry).1]
    exact fun hpre => (hold entry hentry).2 (hpre.trans (List.dropLast_prefix _))

end WellFormed

/-- A walk along a name looks for it in the directory that it has come to. -/
theorem walk_cons {part : Bytes} (hpart : IsName part) (t : FileTree) (place rest : List Bytes) :
    t.walk place (part :: rest) =
      if FileFault.maxNameLength < part.length then .error .nameTooLong
      else match t.find? (place ++ [part]) with
        | none => .error .missing
        | some .directory => t.walk (place ++ [part]) rest
        | some (.file _) =>
          if rest.isEmpty then .ok (place ++ [part]) else .error .notDirectory := by
  obtain ⟨hne, hself, hup, -⟩ := hpart
  have hplain : ¬ ((part.isEmpty || part = selfName) = true) := by simp [hne, hself]
  exact (if_neg hplain).trans (if_neg hup)

/-- A walk passes through the directories in front of it. -/
theorem walk_append (h : t.WellFormed) {init : List Bytes}
    (hinit : t.find? (place ++ init) = some .directory) :
    t.walk place (init ++ rest) = t.walk (place ++ init) rest := by
  induction init generalizing place with
  | nil => simp
  | cons part init ih =>
    obtain ⟨hname, hlength⟩ := h.names_of_find? hinit part (by simp)
    have hhere : t.find? (place ++ [part]) = some .directory := by
      by_cases hnil : init = []
      · simpa [hnil] using hinit
      · exact h.directory_of_find? (by simpa using hinit) hnil
    rw [List.cons_append, walk_cons hname, if_neg (Nat.not_lt.2 hlength), hhere]
    dsimp only
    rw [ih (by simpa using hinit)]
    simp

/-- A walk to what there is gets there. -/
theorem walk_of_find? (h : t.WellFormed) (hfind : t.find? place = some node) :
    t.walk [] place = .ok place := by
  induction place using List.reverseRecOn with
  | nil => rfl
  | append_singleton init last _ =>
    obtain ⟨hname, hlength⟩ := h.names_of_find? hfind last (by simp)
    have hinit : t.find? ([] ++ init) = some .directory := h.directory_of_find? hfind (by simp)
    rw [walk_append h hinit, walk_cons hname, if_neg (Nat.not_lt.2 hlength), List.nil_append, hfind]
    cases node with
    | file content => rfl
    | directory => rfl

/-- A walk along names ends where they lead, if it ends somewhere. -/
theorem eq_of_walk_eq_ok (hrest : ∀ part ∈ rest, IsName part) {found : List Bytes}
    (hwalk : t.walk place rest = .ok found) : found = place ++ rest := by
  induction rest generalizing place with
  | nil => simpa [walk] using hwalk.symm
  | cons part rest ih =>
    rw [walk_cons (hrest part List.mem_cons_self)] at hwalk
    split at hwalk
    case isTrue => simp at hwalk
    case isFalse =>
      split at hwalk
      case h_1 => simp at hwalk
      case h_2 => simpa using ih (fun p hp => hrest p (List.mem_cons_of_mem _ hp)) hwalk
      case h_3 =>
        split at hwalk
        case isTrue hnil => simp_all
        case isFalse => simp at hwalk

/-! ### Making directories -/

/-- The places that a way leads through from a place on, its end included. -/
def OnWay (place rest other : List Bytes) : Prop := ∃ done, done ≠ [] ∧ done <+: rest ∧
    other = place ++ done

/-- There is nothing on a way of no steps. -/
theorem not_onWay_nil {other : List Bytes} : ¬ OnWay place [] other := by
  rintro ⟨done, hne, hpre, -⟩
  exact hne (List.prefix_nil.1 hpre)

/-- On a way are its first step and what is on the way from there. -/
theorem onWay_cons {name : Bytes} {other : List Bytes} :
    OnWay place (name :: rest) other ↔ other = place ++ [name] ∨
      OnWay (place ++ [name]) rest other := by
  constructor
  · rintro ⟨done, hne, hpre, rfl⟩
    rcases List.prefix_cons_iff.1 hpre with rfl | ⟨done, rfl, hdone⟩
    · exact absurd rfl hne
    · by_cases hnil : done = []
      · simp [hnil]
      · exact .inr ⟨done, hnil, hdone, by simp⟩
  · rintro (rfl | ⟨done, -, hdone, rfl⟩)
    · exact ⟨[name], by simp, by simp, rfl⟩
    · exact ⟨name :: done, by simp, by simpa using hdone, by simp⟩

/-- On the way from the root are the places that lead to its end, the root excepted. -/
theorem onWay_root {other : List Bytes} : OnWay [] rest other ↔ other ≠ [] ∧ other <+: rest := by
  constructor
  · rintro ⟨done, hne, hpre, rfl⟩
    exact ⟨by simpa using hne, by simpa using hpre⟩
  · rintro ⟨hne, hpre⟩
    exact ⟨other, hne, hpre, rfl⟩

/-- The place that a way starts from is not on it. -/
theorem ne_of_onWay {other : List Bytes} (h : OnWay place rest other) : other ≠ place := by
  obtain ⟨done, hne, -, rfl⟩ := h
  simpa using hne

/-- A directory made in another one keeps a tree well-formed. -/
theorem WellFormed.put_directory (h : t.WellFormed) {name : Bytes}
    (hplace : t.find? place = some .directory) (hname : IsName name)
    (hnone : t.find? (place ++ [name]) = none) (hnameable : Nameable (place ++ [name])) :
    (t.put (place ++ [name]) .directory).WellFormed := by
  refine h.put (fun part hpart => ⟨?_, hnameable.2 part hpart⟩) (by simpa using hplace)
    (by simp [hnone])
  rcases List.mem_append.1 hpart with hpart | hpart
  · exact (h.names_of_find? hplace part hpart).1
  · exact List.mem_singleton.1 hpart ▸ hname

/-- In a directory, what can be made is what the system takes. -/
theorem WellFormed.newFault?_eq_none_iff (h : t.WellFormed) {name : Bytes}
    (hplace : t.find? place = some .directory) :
    newFault? (Path.text ⟨true, place ++ [name]⟩) name = none ↔ Nameable (place ++ [name]) :=
  FileTree.newFault?_eq_none_iff fun part hpart => (h.names_of_find? hplace part hpart).2

/-- Making directories changes nothing off the way. -/
theorem find?_makeFrom_of_not_onWay {other : List Bytes} (hother : ¬ OnWay place rest other) :
    (t.makeFrom place rest).2.find? other = t.find? other := by
  fun_induction makeFrom t place rest with
  | case1 | case3 | case4 => rfl
  | case2 t place name rest here hhere ih => exact ih fun hway => hother (onWay_cons.2 (.inr hway))
  | case5 t place name rest here text hhere hfault ih =>
    rw [ih fun hway => hother (onWay_cons.2 (.inr hway)), find?_put (by simp [here]), if_neg]
    exact fun heq => hother (onWay_cons.2 (.inl heq))

/-- What stands at the start of the way is there afterwards. -/
theorem find?_makeFrom_self (t : FileTree) (place rest : List Bytes) :
    (t.makeFrom place rest).2.find? place = t.find? place :=
  find?_makeFrom_of_not_onWay fun hway => ne_of_onWay hway rfl

/-- Making directories leaves all that there was, and adds directories on the way that the system
takes. When it succeeds, the whole way is there. -/
theorem makeFrom_spec (h : t.WellFormed) (hplace : t.find? place = some .directory)
    (hrest : ∀ part ∈ rest, IsName part) :
    (t.makeFrom place rest).2.WellFormed ∧
      (∀ other, (t.makeFrom place rest).2.find? other = t.find? other ∨
        OnWay place rest other ∧ Nameable other ∧ t.find? other = none ∧
          (t.makeFrom place rest).2.find? other = some .directory) ∧
      ((t.makeFrom place rest).1 = .ok () → (t.makeFrom place rest).2.find? (place ++ rest) =
        some .directory) := by
  fun_induction makeFrom t place rest with
  | case1 t place => exact ⟨h, fun _ => .inl rfl, fun _ => by simpa using hplace⟩
  | case2 t place name rest here hhere ih =>
    obtain ⟨hformed, hfind, hend⟩ := ih h hhere fun p hp => hrest p (List.mem_cons_of_mem _ hp)
    refine ⟨hformed, fun other => ?_, by simpa [here] using hend⟩
    exact (hfind other).imp_right fun ⟨hway, hmade⟩ => ⟨onWay_cons.2 (.inr hway), hmade⟩
  | case3 => exact ⟨h, fun _ => .inl rfl, fun hok => nomatch hok⟩
  | case4 => exact ⟨h, fun _ => .inl rfl, fun hok => nomatch hok⟩
  | case5 t place name rest here text hhere hfault ih =>
    have hnameable : Nameable here := (h.newFault?_eq_none_iff hplace).1 hfault
    have hne : here ≠ [] := by simp [here]
    have hput := h.put_directory hplace (hrest name List.mem_cons_self) hhere hnameable
    obtain ⟨hformed, hfind, hend⟩ :=
      ih hput (by simp [find?_put hne]) fun p hp => hrest p (List.mem_cons_of_mem _ hp)
    refine ⟨hformed, fun other => ?_, by simpa [here] using hend⟩
    rcases hfind other with hsame | ⟨hway, hname, hnone, hmade⟩
    · rw [hsame, find?_put hne]
      by_cases hother : other = here
      · subst hother
        exact .inr ⟨onWay_cons.2 (.inl rfl), hnameable, hhere, by simp⟩
      · simp [hother]
    · rw [find?_put hne, if_neg (ne_of_onWay hway)] at hnone
      exact .inr ⟨onWay_cons.2 (.inr hway), hname, hnone, hmade⟩

/-- Where no file stands in the way, all directories are made that the system takes. -/
theorem makeFrom_clear (h : t.WellFormed) (hplace : t.find? place = some .directory)
    (hrest : ∀ part ∈ rest, IsName part)
    (hclear : ∀ other, OnWay place rest other → t.find? other = none ∨
      t.find? other = some .directory) :
    (∀ other, OnWay place rest other → Nameable other →
        (t.makeFrom place rest).2.find? other = some .directory) ∧
      (Nameable (place ++ rest) → (t.makeFrom place rest).1 = .ok ()) := by
  fun_induction makeFrom t place rest with
  | case1 t place => exact ⟨fun other hway => absurd hway not_onWay_nil, fun _ => rfl⟩
  | case2 t place name rest here hhere ih =>
    obtain ⟨hmade, hok⟩ :=
        ih h hhere (fun p hp => hrest p (List.mem_cons_of_mem _ hp)) fun other hway =>
      hclear other (onWay_cons.2 (.inr hway))
    refine ⟨fun other hway hname => ?_, by simpa [here] using hok⟩
    rcases onWay_cons.1 hway with rfl | hway
    · rw [find?_makeFrom_self]
      exact hhere
    · exact hmade other hway hname
  | case3 t place name rest here text content hhere =>
    have := hclear here (onWay_cons.2 (.inl rfl))
    simp [hhere] at this
  | case4 t place name rest here text hhere fault hfault =>
    have hrefused : ¬ Nameable here := fun hname => by
      simp [(h.newFault?_eq_none_iff hplace).2 hname, text, here] at hfault
    refine ⟨fun other hway hname => absurd (hname.of_prefix ?_) hrefused,
      fun hname => absurd (hname.of_prefix ?_) hrefused⟩
    · rcases onWay_cons.1 hway with rfl | ⟨done, -, -, rfl⟩
      · exact List.prefix_rfl
      · exact List.prefix_append _ _
    · simp [here]
  | case5 t place name rest here text hhere hfault ih =>
    have hnameable : Nameable here := (h.newFault?_eq_none_iff hplace).1 hfault
    have hne : here ≠ [] := by simp [here]
    have hput := h.put_directory hplace (hrest name List.mem_cons_self) hhere hnameable
    obtain ⟨hmade, hok⟩ :=
      ih hput (by simp [find?_put hne]) (fun p hp => hrest p (List.mem_cons_of_mem _ hp))
          fun other hway => by
        rw [find?_put hne, if_neg (ne_of_onWay hway)]
        exact hclear other (onWay_cons.2 (.inr hway))
    refine ⟨fun other hway hname => ?_, by simpa [here] using hok⟩
    rcases onWay_cons.1 hway with rfl | hway
    · rw [find?_makeFrom_self, find?_put hne, if_pos rfl]
    · exact hmade other hway hname

section Equations

variable {name : Bytes}

/-- How the first directory of the way is made. -/
theorem makeFrom_cons : t.makeFrom place (name :: rest) =
    match t.find? (place ++ [name]) with
    | some .directory => t.makeFrom (place ++ [name]) rest
    | some (.file _) =>
      (.error ⟨.makeDirectory, Path.text ⟨true, place ++ [name]⟩, .notDirectory⟩, t)
    | none =>
      match newFault? (Path.text ⟨true, place ++ [name]⟩) name with
      | some fault => (.error ⟨.makeDirectory, Path.text ⟨true, place ++ [name]⟩, fault⟩, t)
      | none => (t.put (place ++ [name]) .directory).makeFrom (place ++ [name]) rest := rfl

/-- A directory on the way is passed. -/
theorem makeFrom_cons_of_directory (hhere : t.find? (place ++ [name]) = some .directory) :
    t.makeFrom place (name :: rest) = t.makeFrom (place ++ [name]) rest := by
  rw [makeFrom_cons]
  simp only [hhere]

/-- A file on the way stops the making. -/
theorem makeFrom_cons_of_file {content : Bytes}
    (hhere : t.find? (place ++ [name]) = some (.file content)) : t.makeFrom place (name :: rest) =
      (.error ⟨.makeDirectory, Path.text ⟨true, place ++ [name]⟩, .notDirectory⟩, t) := by
  rw [makeFrom_cons]
  simp only [hhere]

/-- A directory that cannot be made stops the making. -/
theorem makeFrom_cons_of_fault {fault : FileFault} (hhere : t.find? (place ++ [name]) = none)
    (hfault : newFault? (Path.text ⟨true, place ++ [name]⟩) name = some fault) :
    t.makeFrom place (name :: rest) =
      (.error ⟨.makeDirectory, Path.text ⟨true, place ++ [name]⟩, fault⟩, t) := by
  rw [makeFrom_cons]
  simp only [hhere, hfault]

/-- A directory that is not there is made and then passed. -/
theorem makeFrom_cons_of_none (hhere : t.find? (place ++ [name]) = none)
    (hfault : newFault? (Path.text ⟨true, place ++ [name]⟩) name = none) :
    t.makeFrom place (name :: rest) = (t.put (place ++ [name]) .directory).makeFrom
      (place ++ [name]) rest := by
  rw [makeFrom_cons]
  simp only [hhere, hfault]

end Equations

/-- Two trees are treated alike when each place on the way is in the second as it is in the first,
before or after the directories are made there. -/
theorem makeFrom_agree (hagree : ∀ other, OnWay place rest other →
      t.find? other = s.find? other ∨ t.find? other = (s.makeFrom place rest).2.find? other) :
    (t.makeFrom place rest).1 = (s.makeFrom place rest).1 ∧
      ∀ other, OnWay place rest other →
        (t.makeFrom place rest).2.find? other = (s.makeFrom place rest).2.find? other := by
  induction rest generalizing place s t with
  | nil => exact ⟨rfl, fun other hway => absurd hway not_onWay_nil⟩
  | cons name rest ih =>
    have hne : place ++ [name] ≠ [] := by simp
    have hhere := hagree _ (onWay_cons.2 (.inl rfl))
    -- both trees go on from the directory, which is made before or was there
    have go : ∀ {u v : FileTree}, u.find? (place ++ [name]) = some .directory →
        v.find? (place ++ [name]) = some .directory →
        (∀ other, OnWay (place ++ [name]) rest other →
          v.find? other = u.find? other ∨
          v.find? other = (u.makeFrom (place ++ [name]) rest).2.find? other) →
        (v.makeFrom (place ++ [name]) rest).1 = (u.makeFrom (place ++ [name]) rest).1 ∧
          ∀ other, OnWay place (name :: rest) other →
            (v.makeFrom (place ++ [name]) rest).2.find? other =
            (u.makeFrom (place ++ [name]) rest).2.find? other := by
      intro u v hu hv hrest
      obtain ⟨hresult, hfind⟩ := ih hrest
      refine ⟨hresult, fun other hway => ?_⟩
      rcases onWay_cons.1 hway with rfl | hway
      · rw [find?_makeFrom_self, find?_makeFrom_self, hu, hv]
      · exact hfind other hway
    have hput : ∀ (u : FileTree) {other}, OnWay (place ++ [name]) rest other →
        (u.put (place ++ [name]) .directory).find? other = u.find? other := fun u other hway => by
      rw [find?_put hne, if_neg (ne_of_onWay hway)]
    cases hs : s.find? (place ++ [name]) with
    | some node =>
      cases node with
      | directory =>
        rw [makeFrom_cons_of_directory hs] at hagree hhere ⊢
        rw [find?_makeFrom_self, or_self_iff, hs] at hhere
        rw [makeFrom_cons_of_directory hhere]
        exact go hs hhere fun other hway => hagree other (onWay_cons.2 (.inr hway))
      | file content =>
        rw [makeFrom_cons_of_file hs] at hagree hhere ⊢
        rw [or_self_iff, hs] at hhere
        rw [makeFrom_cons_of_file hhere]
        exact ⟨rfl, fun other hway => or_self_iff.1 (hagree other hway)⟩
    | none =>
      cases hfault : newFault? (Path.text ⟨true, place ++ [name]⟩) name with
      | some fault =>
        rw [makeFrom_cons_of_fault hs hfault] at hagree hhere ⊢
        rw [or_self_iff, hs] at hhere
        rw [makeFrom_cons_of_fault hhere hfault]
        exact ⟨rfl, fun other hway => or_self_iff.1 (hagree other hway)⟩
      | none =>
        rw [makeFrom_cons_of_none hs hfault] at hagree hhere ⊢
        have hmade : (s.put (place ++ [name]) .directory).find? (place ++ [name]) =
            some .directory := by
          rw [find?_put hne, if_pos rfl]
        rw [find?_makeFrom_self, hs, hmade] at hhere
        have hrest : ∀ other, OnWay (place ++ [name]) rest other →
            t.find? other = (s.put (place ++ [name]) .directory).find? other ∨ t.find? other =
              ((s.put (place ++ [name]) .directory).makeFrom (place ++ [name]) rest).2.find?
              other := by
          intro other hway
          rw [hput s hway]
          exact hagree other (onWay_cons.2 (.inr hway))
        rcases hhere with ht | ht
        · rw [makeFrom_cons_of_none ht hfault]
          refine go hmade (by rw [find?_put hne, if_pos rfl]) fun other hway => ?_
          rw [hput t hway]
          exact hrest other hway
        · rw [makeFrom_cons_of_directory ht]
          exact go hmade ht hrest

/-! ### Writing and removing -/

/-- In a directory a file can be written at a path that the system takes, unless a directory is
there. -/
theorem writeFile_eq (h : t.WellFormed) {last : Bytes} (hlast : IsName last)
    (hplace : t.find? place = some .directory) (content : Bytes) :
    t.writeFile ⟨true, place ++ [last]⟩ content =
      match newFault? (Path.text ⟨true, place ++ [last]⟩) last with
      | some fault => .error ⟨.openFile, Path.text ⟨true, place ++ [last]⟩, fault⟩
      | none =>
        if t.find? (place ++ [last]) = some .directory then
          .error ⟨.openFile, Path.text ⟨true, place ++ [last]⟩, .isDirectory⟩
        else .ok (t.put (place ++ [last]) (.file content)) := by
  have hwalk : t.walk [] (place ++ [last]) = t.walk place [last] := walk_append h hplace
  have hparent : t.walk [] place = .ok place := walk_of_find? h hplace
  unfold writeFile reach newFault?
  simp only [List.dropLast_concat, hparent, hwalk, walk_cons hlast]
  cases htext : FileFault.ofText? (Path.text ⟨true, place ++ [last]⟩) with
  | some fault =>
    cases fault with
    | missing => exact absurd htext (FileFault.ofText?_ne_missing _)
    | _ => rfl
  | none =>
    by_cases hlong : FileFault.maxNameLength < last.length
    · simp [hlong]
    · cases hfind : t.find? (place ++ [last]) with
      | none => simp [hlong]
      | some node => cases node <;> simp [hlong, hfind, walk]

/-- Looking for a place along names finds it or fails for a reason; what is missing is not there. -/
theorem reach_cases (h : t.WellFormed) (hplace : ∀ part ∈ place, IsName part) :
    t.reach [] ⟨true, place⟩ = .ok place ∨
      t.reach [] ⟨true, place⟩ = .error .missing ∧ t.find? place = none ∨
      ∃ fault, fault ≠ .missing ∧ t.reach [] ⟨true, place⟩ = .error fault := by
  unfold reach
  cases htext : FileFault.ofText? (Path.text ⟨true, place⟩) with
  | some fault =>
    exact .inr (.inr ⟨fault, fun heq => FileFault.ofText?_ne_missing _ (heq ▸ htext), rfl⟩)
  | none =>
    cases hwalk : t.walk [] place with
    | ok found => exact .inl (by rw [eq_of_walk_eq_ok hplace hwalk]; rfl)
    | error fault =>
      by_cases hmissing : fault = .missing
      · refine .inr (.inl ⟨by rw [hmissing], ?_⟩)
        by_contra hsome
        obtain ⟨node, hnode⟩ := Option.ne_none_iff_exists'.1 hsome
        simp [walk_of_find? h hnode] at hwalk
      · exact .inr (.inr ⟨fault, hmissing, rfl⟩)

/-- An entry of a directory is reached, or it is missing, or something else is at fault. -/
theorem entry_cases (t : FileTree) (place : List Bytes) {last : Bytes} (hlast : IsName last) :
    t.entry place last = .ok (place ++ [last]) ∨
      t.entry place last = .error .missing ∧ t.find? (place ++ [last]) = none ∨
      ∃ fault, fault ≠ .missing ∧ t.entry place last = .error fault := by
  unfold entry
  split
  case h_1 node fault htext =>
    exact .inr (.inr ⟨fault, fun heq => FileFault.ofText?_ne_missing _ (heq ▸ htext), rfl⟩)
  case h_2 => exact .inr (.inr ⟨.notDirectory, by simp, rfl⟩)
  case h_3 =>
    rw [walk_cons hlast]
    split
    case isTrue => exact .inr (.inr ⟨.nameTooLong, by simp, rfl⟩)
    case isFalse =>
      split
      case h_1 hnone => exact .inr (.inl ⟨rfl, hnone⟩)
      case h_2 => exact .inl rfl
      case h_3 => exact .inl rfl

/-- A tree that is as another one, but for a place and what was below it. -/
structure Removed (place : List Bytes) (t s : FileTree) : Prop where
  formed : s.WellFormed
  find : ∀ other, s.find? other = if place <+: other then none else t.find? other

/-- Erasing a place removes it and leaves everything else. -/
theorem WellFormed.removed_erase (h : t.WellFormed) (hne : place ≠ []) :
    Removed place t (t.erase place) :=
  ⟨h.erase hne, find?_erase hne t⟩

/-- Where nothing is, nothing has to be removed. -/
theorem WellFormed.removed_self (h : t.WellFormed) (hnone : t.find? place = none) :
    Removed place t t := by
  refine ⟨h, fun other => ?_⟩
  split
  case isTrue hpre => exact h.find?_eq_none_of_prefix hpre hnone
  case isFalse => rfl

/-- A removal that succeeds leaves nothing at its place. -/
theorem removeAll_spec (h : t.WellFormed) (hplace : ∀ part ∈ place, IsName part) (hne : place ≠ [])
    (hremoved : t.removeAll ⟨true, place⟩ = .ok s) : Removed place t s := by
  unfold removeAll at hremoved
  rcases reach_cases h hplace with hreach | ⟨hreach, hnone⟩ | ⟨fault, hfault, hreach⟩
  · rw [hreach] at hremoved
    exact Except.ok.inj hremoved ▸ h.removed_erase hne
  · rw [hreach] at hremoved
    exact Except.ok.inj hremoved ▸ h.removed_self hnone
  · obtain ⟨init, last, rfl⟩ : ∃ init last, place = init ++ [last] :=
      ⟨_, _, (List.dropLast_append_getLast hne).symm⟩
    have hinit : ∀ part ∈ init, IsName part :=
      fun part hpart => hplace part (List.mem_append_left _ hpart)
    have hdirectory : Path.directory ⟨true, init ++ [last]⟩ = ⟨true, init⟩ := by
      rw [Path.IsPlace.directory_eq ⟨rfl, hplace⟩, List.dropLast_concat]
    have hfrom : t.removeFrom ⟨true, init⟩ last = .ok s := by
      rw [hreach, hdirectory, List.getLast?_concat, Option.getD_some] at hremoved
      cases fault <;> first | exact absurd rfl hfault | exact hremoved
    unfold removeFrom at hfrom
    rcases reach_cases h hinit with hreach | ⟨hreach, hnone⟩ | ⟨fault, hfault, hreach⟩
    · rw [hreach] at hfrom
      rcases entry_cases t init (hplace last (by simp)) with hentry | ⟨hentry, hnone⟩
        | ⟨fault, hfault, hentry⟩
      · simp only [hentry] at hfrom
        exact Except.ok.inj hfrom ▸ h.removed_erase hne
      · simp only [hentry] at hfrom
        exact Except.ok.inj hfrom ▸ h.removed_self hnone
      · simp only [hentry] at hfrom
        cases fault <;> first | exact absurd rfl hfault | exact nomatch hfrom
    · rw [hreach] at hfrom
      exact Except.ok.inj hfrom ▸ h.removed_self
        (h.find?_eq_none_of_prefix (List.prefix_append _ _) hnone)
    · rw [hreach] at hfrom
      cases fault <;> first | exact absurd rfl hfault | exact nomatch hfrom

end FileTree

/-- A machine whose files are well-formed, with a program run at a clean path. -/
structure Machine.WellFormed (m : Machine) : Prop where
  tree : m.tree.WellFormed
  workingDirectory : m.workingDirectory.IsPlace

/-- What reading a file gives: its content, unless the system refuses its path. -/
theorem Machine.readFile_of_find? {m : Machine} (h : m.tree.WellFormed) {place : List Bytes}
    {content : Bytes} (hfind : m.tree.find? place = some (.file content)) :
    m.readFile ⟨true, place⟩ =
      match FileFault.ofText? (Path.text ⟨true, place⟩) with
      | some fault => .error ⟨.openFile, Path.text ⟨true, place⟩, fault⟩
      | none => .ok content := by
  have hwalk := FileTree.walk_of_find? h hfind
  simp only [readFile, resolve, Bool.not_true, Bool.false_and,
    Bool.false_eq_true, if_false, if_true, FileTree.reach, hwalk]
  cases FileFault.ofText? (Path.text ⟨true, place⟩) with
  | some fault => rfl
  | none => simp [hfind]

end TagScript
