import Ferrosync.Codec.Incremental
import Ferrosync.Lib.Worklist

set_option autoImplicit false

/-! # The grouping of entries by directory

`from_sorted_entries` finds the children of a directory by its name, once for every entry that is
queued under this name. So how often an entry is sent depends on how often its parent is listed:
it is sent once exactly if the parent, its parent and so on are listed once each
(`directory_tree_partitions`).
-/

namespace Ferrosync

open UnixPath List

variable {i : Nat} {done : List Nat} {st : TreeState} {groups : List DirGroup}
  {pairs : List (Nat × Int)}

variable {entries : List FileEntry}

/-! ## Positions -/

theorem mem_positions {p : FileEntry → Bool} :
    i ∈ positions p entries ↔ ∃ e, entries[i]? = some e ∧ p e = true := by
  unfold positions
  rw [mem_filter, mem_range]
  constructor
  · rintro ⟨hi, hp⟩
    rw [getElem?_eq_getElem hi] at hp
    exact ⟨entries[i], getElem?_eq_getElem hi, hp⟩
  · rintro ⟨e, he, hp⟩
    refine ⟨(List.getElem?_eq_some_iff.mp he).1, ?_⟩
    rw [he]
    exact hp

theorem lt_of_mem_positions {p : FileEntry → Bool} (h : i ∈ positions p entries) :
    i < entries.length := by
  obtain ⟨e, he, -⟩ := mem_positions.mp h
  exact (List.getElem?_eq_some_iff.mp he).1

theorem nodup_positions (p : FileEntry → Bool) (entries : List FileEntry) :
    (positions p entries).Nodup :=
  List.nodup_range.filter _

theorem length_positions_le (p : FileEntry → Bool) (entries : List FileEntry) :
    (positions p entries).length ≤ entries.length := by
  refine (length_filter_le _ _).trans ?_
  rw [length_range]

theorem countP_range (q : FileEntry → Bool) (entries : List FileEntry) :
    (List.range entries.length).countP (fun i => (entries[i]?).any q) = entries.countP q := by
  induction entries with
  | nil => rfl
  | cons e entries ih =>
    rw [length_cons, range_succ_eq_map, countP_cons, countP_map,
      countP_cons, ← ih]
    rfl

/-! ## Parents -/

theorem dirname_eq (e : FileEntry) : e.dirname = parentOf e.name := rfl

theorem parentOf_length_lt {name parent : List UInt8} (h : parentOf name = some parent) :
    parent.length < name.length := by
  unfold parentOf at h
  split_ifs at h with hslash
  obtain rfl := Option.some.inj h
  have hne : name ≠ [] := by
    rintro rfl
    exact absurd hslash (by simp)
  have hle : (dirPart name).length ≤ name.length :=
    (List.rdropWhile_prefix _ name).length_le
  have hpos : 0 < name.length := length_pos_of_ne_nil hne
  rw [length_dropLast]
  omega

/-- The name `.` has no directory part. -/
theorem ne_dot_of_parentOf {name parent : List UInt8} (h : parentOf name = some parent) :
    name ≠ [46] := by
  rintro rfl
  have hnone : parentOf [46] = none := by decide
  exact absurd (hnone.symm.trans h) (Option.some_ne_none _).symm

def rootIndices (entries : List FileEntry) : List Nat :=
  positions (fun e => e.dirname = none) entries

def childIndices (entries : List FileEntry) (dir : Nat) : List Nat :=
  positions (fun e => e.dirname = some (nameAt entries dir)) entries

def subdirs (entries : List FileEntry) (dir : Nat) : List Nat :=
  (childIndices entries dir).filter (isDirAt entries)

/-- The directories that are queued first. -/
def rootDirs (entries : List FileEntry) : List Nat :=
  (rootIndices entries).filter fun i => isDirAt entries i && nameAt entries i ≠ [46]

theorem nameAt_of_getElem? {e : FileEntry} (h : entries[i]? = some e) :
    nameAt entries i = e.name := by
  unfold nameAt
  rw [h]
  rfl

theorem parentOf_nameAt_child {dir : Nat} (h : i ∈ childIndices entries dir) :
    parentOf (nameAt entries i) = some (nameAt entries dir) := by
  obtain ⟨e, he, hp⟩ := mem_positions.mp h
  rw [nameAt_of_getElem? he]
  exact of_decide_eq_true hp

/-! ## The loop ends -/

theorem length_nameAt_le (entries : List FileEntry) (i : Nat) :
    (nameAt entries i).length ≤ longestName entries := by
  cases h : entries[i]? with
  | none =>
    simp [nameAt, h]
  | some e =>
    rw [nameAt_of_getElem? h]
    have hmem := mem_of_getElem? h
    unfold longestName
    clear h
    induction entries with
    | nil => exact absurd hmem not_mem_nil
    | cons a entries ih =>
      rcases mem_cons.mp hmem with rfl | hmem
      · exact Nat.le_max_left _ _
      · exact (ih hmem).trans (Nat.le_max_right _ _)

/-- The weight of a directory in the queue: it outweighs all directories below it. -/
def dirWeight (entries : List FileEntry) (dir : Nat) : Nat :=
  (entries.length + 1) ^ (longestName entries - (nameAt entries dir).length)

theorem dirWeight_subdirs (entries : List FileEntry) (dir : Nat) :
    ((subdirs entries dir).map (dirWeight entries)).sum < dirWeight entries dir := by
  rcases eq_nil_or_concat (subdirs entries dir) with hnil | ⟨before, last, hlast⟩
  · rw [hnil]
    exact Nat.pow_pos (Nat.succ_pos _)
  · -- a child makes room for one more character
    have hmem : last ∈ subdirs entries dir := by
      rw [hlast]
      simp
    have hroom : (nameAt entries dir).length < longestName entries :=
      (parentOf_length_lt (parentOf_nameAt_child (mem_of_mem_filter hmem))).trans_le
        (length_nameAt_le entries last)
    obtain ⟨room, hroom'⟩ : ∃ room,
        longestName entries - (nameAt entries dir).length = room + 1 :=
      ⟨_, (Nat.succ_pred_eq_of_pos (Nat.sub_pos_of_lt hroom)).symm⟩
    have hchild : ∀ w ∈ (subdirs entries dir).map (dirWeight entries),
        w ≤ (entries.length + 1) ^ room := by
      intro w hw
      obtain ⟨i, hi, rfl⟩ := mem_map.mp hw
      have hlt := parentOf_length_lt (parentOf_nameAt_child (mem_of_mem_filter hi))
      exact Nat.pow_le_pow_right (Nat.succ_pos _) (by omega)
    have hcount : (subdirs entries dir).length ≤ entries.length :=
      (length_filter_le _ _).trans (length_positions_le _ _)
    calc ((subdirs entries dir).map (dirWeight entries)).sum
        ≤ ((subdirs entries dir).map (dirWeight entries)).length * (entries.length + 1) ^ room := by
          simpa using sum_le_card_nsmul _ _ hchild
      _ ≤ entries.length * (entries.length + 1) ^ room := by
          simp
          omega
      _ < (entries.length + 1) * (entries.length + 1) ^ room :=
          Nat.mul_lt_mul_of_pos_right (Nat.lt_succ_self _) (Nat.pow_pos (Nat.succ_pos _))
      _ = dirWeight entries dir := by
          unfold dirWeight
          rw [hroom', Nat.pow_succ, Nat.mul_comm]

theorem dirWeight_rootDirs (entries : List FileEntry) :
    ((rootDirs entries).map (dirWeight entries)).sum ≤ roundBound entries := by
  have hroot : ∀ w ∈ (rootDirs entries).map (dirWeight entries),
      w ≤ (entries.length + 1) ^ longestName entries := by
    intro w hw
    obtain ⟨i, -, rfl⟩ := mem_map.mp hw
    exact Nat.pow_le_pow_right (Nat.succ_pos _) (Nat.sub_le _ _)
  have hcount : (rootDirs entries).length ≤ entries.length + 1 :=
    (length_filter_le _ _).trans ((length_positions_le _ _).trans (Nat.le_succ _))
  calc ((rootDirs entries).map (dirWeight entries)).sum
      ≤ ((rootDirs entries).map (dirWeight entries)).length *
          (entries.length + 1) ^ longestName entries := by
        exact sum_le_card_nsmul _ _ hroot
    _ ≤ (entries.length + 1) * (entries.length + 1) ^ longestName entries := by
        simp
        omega
    _ = roundBound entries := by
        unfold roundBound
        rw [Nat.pow_succ, Nat.mul_comm]

/-! ## The loop -/

/-- The indices of all groups, in the order in which they are sent. -/
def sentIndices (groups : List DirGroup) : List Nat := groups.flatMap (·.entryIndices)

def sentDirs (entries : List FileEntry) (groups : List DirGroup) : List Nat :=
  (sentIndices groups).filter (isDirAt entries)

/-- The directories `dirs` have been numbered in their order. -/
structure DirsNumbered (entries : List FileEntry) (dirs : List Nat) (st : TreeState) : Prop where
  size : st.dirFlistNdx.length = entries.length
  counter : st.dirCounter = toI32 dirs.length
  ndx : dirs.Nodup → ∀ (n i : Nat), dirs[n]? = some i → st.dirFlistNdx.getD i (-1) = toI32 n

theorem toI32_add (x y : Int) : toI32 (toI32 x + y) = toI32 (x + y) := Int.bmod_add_bmod

theorem DirsNumbered.next {dirs : List Nat} (h : DirsNumbered entries dirs st)
    (hi : i < entries.length) :
    DirsNumbered entries (dirs ++ [i])
      { st with dirFlistNdx := st.dirFlistNdx.set i st.dirCounter,
                dirCounter := toI32 (st.dirCounter + 1) } where
  size := by
    rw [length_set]
    exact h.size
  counter := by
    simp [h.counter, toI32_add]
  ndx := by
    intro hnodup n j hn
    have hsize := h.size
    -- an earlier number stands, unless the same directory is numbered a second time
    rcases Nat.lt_or_ge n dirs.length with hlt | hge
    · rw [getElem?_append_left hlt] at hn
      have hne : i ≠ j := by
        rintro rfl
        have hdisj := disjoint_of_nodup_append hnodup
        exact hdisj (mem_of_getElem? hn) (mem_singleton.mpr rfl)
      have hprev := h.ndx hnodup.of_append_left n j hn
      rw [getD_eq_getElem?_getD] at hprev ⊢
      rw [getElem?_set_ne hne]
      exact hprev
    · have hn' : n = dirs.length := by
        have := (List.getElem?_eq_some_iff.mp hn).1
        rw [length_append, length_singleton] at this
        omega
      subst hn'
      rw [getElem?_concat_length] at hn
      obtain rfl := Option.some.inj hn
      rw [getD_eq_getElem?_getD, getElem?_set_self (by omega)]
      exact h.counter

theorem DirsNumbered.numberDirs {indices : List Nat} (hlt : ∀ i ∈ indices, i < entries.length) :
    ∀ {dirs : List Nat} {st : TreeState}, DirsNumbered entries dirs st →
      DirsNumbered entries (dirs ++ indices.filter (isDirAt entries))
        (numberDirs entries indices st) := by
  induction indices with
  | nil =>
    intro dirs st h
    rw [filter_nil, append_nil]
    exact h
  | cons i indices ih =>
    intro dirs st h
    have hrest := fun j hj => hlt j (mem_cons_of_mem i hj)
    unfold Ferrosync.numberDirs
    rw [foldl_cons]
    by_cases hdir : isDirAt entries i = true
    · rw [if_pos hdir, filter_cons_of_pos hdir, append_cons]
      exact ih hrest (h.next (hlt i mem_cons_self))
    · rw [if_neg hdir, filter_cons_of_neg hdir]
      exact ih hrest h

theorem groups_numberDirs (entries : List FileEntry) (indices : List Nat) (st : TreeState) :
    (numberDirs entries indices st).groups = st.groups := by
  induction indices generalizing st with
  | nil => rfl
  | cons i indices ih =>
    unfold numberDirs at ih ⊢
    rw [foldl_cons, ih]
    split_ifs <;> rfl

/-- The state of the loop after the directories `done`. -/
structure TreeInv (entries : List FileEntry) (done : List Nat) (st : TreeState) : Prop where
  indices : st.groups.map (·.entryIndices) =
    rootIndices entries :: done.map (childIndices entries)
  numbered : DirsNumbered entries (sentDirs entries st.groups) st
  queued : ∀ i ∈ st.queue, i ∈ sentDirs entries st.groups
  parents : (sentDirs entries st.groups).Nodup → ∀ g ∈ st.groups.tail, ∃ n dir : Nat,
    (sentDirs entries st.groups)[n]? = some dir ∧ g.dirNdx = toI32 n ∧
      g.entryIndices = childIndices entries dir

theorem treeInv_root (entries : List FileEntry) : TreeInv entries [] (rootState entries) := by
  have hgroups : (rootState entries).groups = [⟨-1, rootIndices entries⟩] :=
    groups_numberDirs entries _ _
  have hsent : sentIndices (rootState entries).groups = rootIndices entries := by
    rw [hgroups]
    exact append_nil _
  have hstart : DirsNumbered entries []
      ⟨[⟨-1, rootIndices entries⟩], replicate entries.length (-1), 0, []⟩ :=
    ⟨length_replicate, rfl, fun _ n i h => absurd h (by simp)⟩
  have hlt : ∀ i ∈ rootIndices entries, i < entries.length := fun _ => lt_of_mem_positions
  -- the root list is numbered like that of a directory; its own number is -1
  have hnumbered := hstart.numberDirs hlt
  constructor
  case indices =>
    rw [hgroups]
    rfl
  case numbered =>
    unfold sentDirs
    rw [hsent]
    exact ⟨hnumbered.size, hnumbered.counter, hnumbered.ndx⟩
  case queued =>
    intro i hi
    unfold sentDirs
    rw [hsent]
    have hi' : i ∈ rootDirs entries := hi
    unfold rootDirs at hi'
    rw [mem_filter, Bool.and_eq_true] at hi'
    exact mem_filter.mpr ⟨hi'.1, hi'.2.1⟩
  case parents =>
    simp [hgroups]

/-- One round of the loop. -/
theorem TreeInv.growTree {queue : List Nat} {dir : Nat} (h : TreeInv entries done st)
    (hqueue : st.queue = dir :: queue) :
    TreeInv entries (done ++ [dir]) (growTree entries dir { st with queue := queue }) ∧
      (growTree entries dir { st with queue := queue }).queue = queue ++ subdirs entries dir := by
  refine ⟨?_, rfl⟩
  have hlt : ∀ i ∈ childIndices entries dir, i < entries.length := fun _ => lt_of_mem_positions
  have hgroups : (Ferrosync.growTree entries dir { st with queue := queue }).groups =
      st.groups ++ [⟨st.dirFlistNdx.getD dir (-1), childIndices entries dir⟩] :=
    groups_numberDirs entries _ _
  have hdirs : sentDirs entries (Ferrosync.growTree entries dir { st with queue := queue }).groups =
      sentDirs entries st.groups ++ subdirs entries dir := by
    unfold sentDirs sentIndices subdirs
    rw [hgroups, flatMap_append, filter_append, flatMap_singleton]
  have hnumbered : DirsNumbered entries (sentDirs entries st.groups)
      { st with queue := queue,
                groups := st.groups ++ [⟨st.dirFlistNdx.getD dir (-1), childIndices entries dir⟩] } :=
    ⟨h.numbered.size, h.numbered.counter, h.numbered.ndx⟩
  have hnumbered' := hnumbered.numberDirs hlt
  constructor
  case indices =>
    simp [hgroups, h.indices]
  case numbered =>
    rw [hdirs]
    exact ⟨hnumbered'.size, hnumbered'.counter, hnumbered'.ndx⟩
  case queued =>
    rw [hdirs]
    intro i hi
    rcases mem_append.mp hi with hi | hi
    · refine mem_append_left _ (h.queued i ?_)
      rw [hqueue]
      exact mem_cons_of_mem dir hi
    · exact mem_append_right _ hi
  case parents =>
    rw [hdirs, hgroups]
    intro hnodup g hg
    have hne : st.groups ≠ [] := by
      intro hnil
      have hindices := h.indices
      simp [hnil] at hindices
    rw [tail_append_of_ne_nil hne] at hg
    rcases mem_append.mp hg with hg | hg
    · obtain ⟨n, p, hn, hndx, hindices⟩ := h.parents hnodup.of_append_left g hg
      refine ⟨n, p, ?_, hndx, hindices⟩
      rw [getElem?_append_left (List.getElem?_eq_some_iff.mp hn).1]
      exact hn
    · -- the new group has the number its directory got when it was sent
      obtain rfl := mem_singleton.mp hg
      have hmem : dir ∈ sentDirs entries st.groups := h.queued dir (by rw [hqueue]; exact mem_cons_self)
      obtain ⟨n, hn, hget⟩ := mem_iff_getElem.mp hmem
      have hget' : (sentDirs entries st.groups)[n]? = some dir := by
        rw [getElem?_eq_getElem hn, hget]
      refine ⟨n, dir, ?_, h.numbered.ndx hnodup.of_append_left n dir hget', rfl⟩
      rw [getElem?_append_left hn]
      exact hget'

/-- The loop takes directories off its queue as a work list does. -/
theorem TreeInv.growGroups (fuel : Nat) : ∀ {done : List Nat} {st : TreeState},
    TreeInv entries done st →
      TreeInv entries (Worklist.drain (subdirs entries) fuel done st.queue).1
        (growGroups entries fuel st) := by
  induction fuel with
  | zero => exact fun h => h
  | succ fuel ih =>
    intro done st h
    -- the queue of the loop is that of the work list, step by step
    cases hqueue : st.queue with
    | nil =>
      unfold Ferrosync.growGroups
      rw [hqueue]
      exact h
    | cons dir queue =>
      obtain ⟨hnext, hqueue'⟩ := h.growTree hqueue
      unfold Ferrosync.growGroups
      rw [hqueue]
      have hrest := ih hnext
      rw [hqueue'] at hrest
      exact hrest

/-- What the loop returns: the root, and a group for each of the directories `done`, which are the
directories of the root and those of the groups, in this order. -/
theorem fromSortedEntries_spec (entries : List FileEntry) :
    ∃ done st, TreeInv entries done st ∧ DirectoryTree.fromSortedEntries entries = st.groups ∧
      done = rootDirs entries ++ done.flatMap (subdirs entries) := by
  have hinv := (treeInv_root entries).growGroups (roundBound entries)
  have hempties : (Worklist.drain (subdirs entries) (roundBound entries) [] (rootDirs entries)).2 = [] :=
    Worklist.drain_empties (dirWeight_subdirs entries) _ _ _ (dirWeight_rootDirs entries)
  have hstart : [] ++ rootDirs entries = rootDirs entries ++ [].flatMap (subdirs entries) := by simp
  have horder := Worklist.drain_order (roundBound entries) [] (rootDirs entries) hstart
  rw [hempties, append_nil] at horder
  refine ⟨_, _, hinv, ?_, horder⟩
  unfold DirectoryTree.fromSortedEntries
  split_ifs with hnil
  · subst hnil
    rfl
  · rfl

/-! ## How often an entry is sent -/

/-- The number of directories listed under a name. -/
def dirsNamed (entries : List FileEntry) (name : List UInt8) : Nat :=
  entries.countP fun d => d.isDir && d.name = name

/-- How often the entries of a directory are sent, if `done` are the directories that get a
group. -/
def copies (entries : List FileEntry) (done : List Nat) : Option (List UInt8) → Nat
  | none => 1
  | some name => done.countP fun i => nameAt entries i = name

/-- Entries with one parent are among the entries of this parent only. -/
theorem countP_positions_parent {dir : Option (List UInt8)} {q : Nat → Bool}
    (hq : ∀ (i : Nat) (e : FileEntry), entries[i]? = some e → q i = true → e.dirname = dir)
    (other : Option (List UInt8)) :
    (positions (fun e => e.dirname = other) entries).countP q =
      if other = dir then (List.range entries.length).countP q else 0 := by
  unfold positions
  rw [countP_filter]
  split_ifs with heq
  · refine countP_congr fun i hi => ?_
    have he := getElem?_eq_getElem (mem_range.mp hi)
    rw [he, Option.any_some, Bool.and_eq_true, decide_eq_true_eq, and_iff_left_iff_imp]
    exact fun hqi => (hq i _ he hqi).trans heq.symm
  · rw [countP_eq_zero]
    intro i hi hqi
    have he := getElem?_eq_getElem (mem_range.mp hi)
    rw [he, Option.any_some, Bool.and_eq_true, decide_eq_true_eq] at hqi
    exact heq (hqi.2.symm.trans (hq i _ he hqi.1))

/-- Entries with one parent are sent once for every group of this parent. -/
theorem countP_sent {dir : Option (List UInt8)} {q : Nat → Bool}
    (hq : ∀ (i : Nat) (e : FileEntry), entries[i]? = some e → q i = true → e.dirname = dir) :
    (rootIndices entries ++ done.flatMap (childIndices entries)).countP q =
      copies entries done dir * (List.range entries.length).countP q := by
  rw [countP_append]
  have hroot : (rootIndices entries).countP q =
      if none = dir then (range entries.length).countP q else 0 :=
    countP_positions_parent hq none
  have hchild : ∀ i, (childIndices entries i).countP q =
      if some (nameAt entries i) = dir then (range entries.length).countP q else 0 := fun i =>
    countP_positions_parent hq (some (nameAt entries i))
  rw [hroot, Worklist.countP_flatMap_of_parent hchild]
  cases dir with
  | none | some => simp [copies]

/-- The directories that are queued are those that are sent, but for the root itself. -/
theorem queued_eq_filter (entries : List FileEntry) (done : List Nat) :
    rootDirs entries ++ done.flatMap (subdirs entries) =
      (rootIndices entries ++ done.flatMap (childIndices entries)).filter
        fun i => isDirAt entries i && nameAt entries i ≠ [46] := by
  have hchild : ∀ dir, subdirs entries dir =
      (childIndices entries dir).filter fun i => isDirAt entries i && nameAt entries i ≠ [46] := by
    intro dir
    refine filter_congr fun i hi => ?_
    have hne := ne_dot_of_parentOf (parentOf_nameAt_child hi)
    rw [decide_eq_true hne, Bool.and_true]
  rw [filter_append, filter_flatMap]
  congr 1
  exact flatMap_congr fun dir _ => hchild dir

theorem mem_sent_lt (h : i ∈ rootIndices entries ++ done.flatMap (childIndices entries)) :
    i < entries.length := by
  rcases mem_append.mp h with h | h
  · exact lt_of_mem_positions h
  · obtain ⟨dir, -, h⟩ := mem_flatMap.mp h
    exact lt_of_mem_positions h

/-- The directories that get a group, by their names. -/
theorem countP_done (hdone : done = rootDirs entries ++ done.flatMap (subdirs entries))
    (name : List UInt8) :
    copies entries done (some name) =
      copies entries done (parentOf name) * if name = [46] then 0 else dirsNamed entries name := by
  -- A directory gets its group from the list it is in, so that it has as many groups as its parent,
  -- times the times it is listed there.
  have hparent : ∀ (i : Nat) (e : FileEntry), entries[i]? = some e →
      ((entries[i]?).any fun e => e.isDir && e.name = name && e.name ≠ [46]) = true →
      e.dirname = parentOf name := by
    intro i e hi he
    rw [hi, Option.any_some] at he
    simp only [Bool.and_eq_true, decide_eq_true_eq] at he
    rw [dirname_eq, he.1.2]
  have hsent : done.countP (fun i => nameAt entries i = name) =
      (rootIndices entries ++ done.flatMap (childIndices entries)).countP
        (fun i => (entries[i]?).any fun e => e.isDir && e.name = name && e.name ≠ [46]) := by
    conv_lhs => rw [hdone, queued_eq_filter, countP_filter]
    refine countP_congr fun i hi => ?_
    unfold isDirAt nameAt
    rw [getElem?_eq_getElem (mem_sent_lt hi)]
    simp only [Option.any_some, Option.map_some, Option.getD_some, Bool.and_eq_true]
    tauto
  show done.countP (fun i => nameAt entries i = name) = _
  rw [hsent, countP_sent hparent, countP_range]
  congr 1
  -- the entry `.` is a directory that is never descended into
  split_ifs with hdot
  · rw [countP_eq_zero]
    intro e _ he
    simp only [Bool.and_eq_true, decide_eq_true_eq] at he
    exact he.2 (he.1.2.trans hdot)
  · refine countP_congr fun e _ => ?_
    simp only [Bool.and_eq_true, decide_eq_true_eq, and_iff_left_iff_imp]
    exact fun he => he.2 ▸ hdot

/-- Every parent is listed once, and is not the root itself. The children of a directory are sent
once for every entry of its name, so none or two of them lose the children or repeat them. -/
def Listed (entries : List FileEntry) : Prop :=
  ∀ e ∈ entries, ∀ name, e.dirname = some name → name ≠ [46] ∧ dirsNamed entries name = 1

/-- Every entry is sent once exactly if every parent is listed once. -/
theorem copies_eq_one_iff (hdone : done = rootDirs entries ++ done.flatMap (subdirs entries)) :
    (∀ e ∈ entries, copies entries done e.dirname = 1) ↔ Listed entries := by
  constructor
  · intro h e he name hname
    have hone := h e he
    rw [hname, countP_done hdone] at hone
    have hlisted := Nat.eq_one_of_mul_eq_one_left hone
    split_ifs at hlisted with hdot
    exact ⟨hdot, hlisted⟩
  · intro hlisted
    -- by induction on the length of the name
    have hall : ∀ (n : Nat) (e : FileEntry), e ∈ entries → e.name.length ≤ n →
        copies entries done e.dirname = 1 := by
      intro n
      induction n with
      | zero =>
        intro e _ hlen
        have hnil : e.name = [] := eq_nil_of_length_eq_zero (by omega)
        rw [dirname_eq, hnil]
        rfl
      | succ n ih =>
        intro e he hlen
        cases hdir : e.dirname with
        | none => rfl
        | some name =>
          obtain ⟨hdot, hone⟩ := hlisted e he name hdir
          have hpos : 0 < dirsNamed entries name := by omega
          obtain ⟨d, hd, hname⟩ := countP_pos_iff.mp hpos
          simp only [Bool.and_eq_true, decide_eq_true_eq] at hname
          have hlt : name.length < e.name.length := by
            simpa using parentOf_length_lt hdir
          have hparent := ih d hd (by rw [hname.2]; omega)
          rw [dirname_eq, hname.2] at hparent
          rw [countP_done hdone, if_neg hdot, hone, hparent]
    exact fun e he => hall e.name.length e he (Nat.le_refl _)

/-! ## Numbers -/

/-- The entries of the groups with their numbers, before these become `i32`s. -/
def numbering : List DirGroup → Int → List (Nat × Int)
  | [], _ => []
  | g :: gs, cursor =>
    g.entryIndices.zipIdx.map (fun p => (p.1, cursor + p.2)) ++
      numbering gs (cursor + (g.entryIndices.length + 1))

theorem map_fst_numbering (groups : List DirGroup) (cursor : Int) :
    (numbering groups cursor).map Prod.fst = sentIndices groups := by
  induction groups generalizing cursor with
  | nil => rfl
  | cons g gs ih =>
    rw [numbering, map_append, ih, map_map]
    have hfst : (Prod.fst ∘ fun p : Nat × Nat => (p.1, cursor + (p.2 : Int))) = Prod.fst := rfl
    rw [hfst, zipIdx_map_fst]
    rfl

def setNdx (pairs : List (Nat × Int)) (ndx : List Int) : List Int :=
  pairs.foldl (fun ndx p => ndx.set p.1 (toI32 p.2)) ndx

theorem assignGroup_eq (indices : List Nat) (cursor : Int) (ndx : List Int) :
    assignGroup (toI32 cursor) indices ndx =
      setNdx (indices.zipIdx.map fun p => (p.1, cursor + p.2)) ndx := by
  unfold assignGroup setNdx
  rw [foldl_map]
  simp only [toI32_add]

theorem assignNdx_eq (groups : List DirGroup) (cursor : Int) (ndx : List Int) :
    assignNdx groups (toI32 cursor) ndx = setNdx (numbering groups cursor) ndx := by
  induction groups generalizing cursor ndx with
  | nil => rfl
  | cons g gs ih =>
    simp [assignNdx, toI32_add, ih, assignGroup_eq, numbering, setNdx]

theorem length_setNdx (pairs : List (Nat × Int)) (ndx : List Int) :
    (setNdx pairs ndx).length = ndx.length := by
  induction pairs generalizing ndx with
  | nil => rfl
  | cons p pairs ih =>
    unfold setNdx at ih ⊢
    rw [foldl_cons, ih, length_set]

/-- A number that is not set stays. -/
theorem getElem?_setNdx_of_not_mem (h : i ∉ pairs.map Prod.fst) (ndx : List Int) :
    (setNdx pairs ndx)[i]? = ndx[i]? := by
  induction pairs generalizing ndx with
  | nil => rfl
  | cons p pairs ih =>
    rw [map_cons, mem_cons, not_or] at h
    unfold setNdx at ih ⊢
    rw [foldl_cons, ih h.2, getElem?_set_ne (Ne.symm h.1)]

theorem getElem?_setNdx {v : Int} (hnodup : (pairs.map Prod.fst).Nodup) (hmem : (i, v) ∈ pairs)
    {ndx : List Int} (hi : i < ndx.length) : (setNdx pairs ndx)[i]? = some (toI32 v) := by
  induction pairs generalizing ndx with
  | nil => exact absurd hmem not_mem_nil
  | cons p pairs ih =>
    rw [map_cons, nodup_cons] at hnodup
    rcases mem_cons.mp hmem with rfl | hmem
    · show (setNdx pairs (ndx.set i (toI32 v)))[i]? = _
      rw [getElem?_setNdx_of_not_mem hnodup.1, getElem?_set_self hi]
    · exact ih hnodup.2 hmem (by rw [length_set]; exact hi)

/-- The numbers a list of groups takes up, with a gap behind each group. -/
def ndxSpan (groups : List DirGroup) : Nat := (groups.map fun g => g.entryIndices.length + 1).sum

theorem numbering_bounds {cursor : Int} {p : Nat × Int} (h : p ∈ numbering groups cursor) :
    cursor ≤ p.2 ∧ p.2 < cursor + ndxSpan groups := by
  induction groups generalizing cursor with
  | nil => exact absurd h not_mem_nil
  | cons g gs ih =>
    have hspan : ndxSpan (g :: gs) = g.entryIndices.length + 1 + ndxSpan gs := rfl
    rw [numbering, mem_append, mem_map] at h
    rcases h with ⟨q, hq, rfl⟩ | h
    · have hlt := snd_lt_of_mem_zipIdx hq
      constructor <;> omega
    · have hrest := ih h
      constructor <;> omega

/-- The numbers increase. -/
theorem numbering_increasing (groups : List DirGroup) (cursor : Int) :
    (numbering groups cursor).Pairwise fun p q => p.2 < q.2 := by
  induction groups generalizing cursor with
  | nil => exact List.Pairwise.nil
  | cons g gs ih =>
    rw [numbering, pairwise_append]
    refine ⟨?_, ih _, ?_⟩
    · rw [pairwise_map]
      have hsnd : g.entryIndices.zipIdx.Pairwise fun p q => p.2 < q.2 := by
        rw [← pairwise_map, zipIdx_map_snd]
        exact pairwise_lt_range'
      exact hsnd.imp fun h => by omega
    · intro p hp q hq
      obtain ⟨r, hr, rfl⟩ := mem_map.mp hp
      have hlt := snd_lt_of_mem_zipIdx hr
      have hle := (numbering_bounds hq).1
      omega

theorem ndxSpan_eq (groups : List DirGroup) :
    ndxSpan groups = (sentIndices groups).length + groups.length := by
  induction groups with
  | nil => rfl
  | cons g gs ih =>
    have hspan : ndxSpan (g :: gs) = g.entryIndices.length + 1 + ndxSpan gs := rfl
    have hsent : sentIndices (g :: gs) = g.entryIndices ++ sentIndices gs := rfl
    simp [hspan, ih, hsent]
    omega

/-! ## The groups are a partition -/

theorem TreeInv.sentIndices_eq (h : TreeInv entries done st) :
    sentIndices st.groups = rootIndices entries ++ done.flatMap (childIndices entries) := by
  unfold sentIndices
  rw [flatMap_def, h.indices, flatten_cons, ← flatMap_def]

theorem TreeInv.nodup (h : TreeInv entries done st) :
    ∀ g ∈ st.groups, g.entryIndices.Nodup := by
  intro g hg
  have hmem : g.entryIndices ∈ st.groups.map (·.entryIndices) := mem_map_of_mem hg
  rw [h.indices, mem_cons, mem_map] at hmem
  rcases hmem with hroot | ⟨dir, -, hdir⟩
  · rw [hroot]
    exact nodup_positions _ _
  · rw [← hdir]
    exact nodup_positions _ _

/-- An entry is sent as often as its parent has groups. -/
theorem TreeInv.count_sent (h : TreeInv entries done st) {e : FileEntry} (he : entries[i]? = some e) :
    (sentIndices st.groups).count i = copies entries done e.dirname := by
  have hparent : ∀ (j : Nat) (d : FileEntry), entries[j]? = some d → (j == i) = true →
      d.dirname = e.dirname := by
    intro j d hd hj
    obtain rfl := eq_of_beq hj
    rw [Option.some.inj (hd.symm.trans he)]
  have hmem : i ∈ range entries.length :=
    mem_range.mpr (List.getElem?_eq_some_iff.mp he).1
  rw [h.sentIndices_eq, count_eq_countP, countP_sent hparent, ← count_eq_countP,
    count_eq_one_of_mem nodup_range hmem, Nat.mul_one]

/-- Groups without repetitions have an index as often as all of them together. -/
theorem countP_mem_groups (h : ∀ g ∈ groups, g.entryIndices.Nodup) :
    groups.countP (fun g => i ∈ g.entryIndices) = (sentIndices groups).count i := by
  induction groups with
  | nil => rfl
  | cons g gs ih =>
    have hsent : sentIndices (g :: gs) = g.entryIndices ++ sentIndices gs := rfl
    have hcount : g.entryIndices.count i = if i ∈ g.entryIndices then 1 else 0 :=
      (h g mem_cons_self).count
    rw [hsent, count_append, countP_cons, hcount,
      ih fun g' hg' => h g' (mem_cons_of_mem g hg'), Nat.add_comm]
    simp only [decide_eq_true_eq]

/-- The groups of a list in which every parent is listed once. -/
structure ListedTree (entries : List FileEntry) (groups : List DirGroup) : Prop where
  nonempty : groups ≠ []
  perm : (sentIndices groups).Perm (List.range entries.length)
  dirs : ∀ g ∈ groups, ∃ dir, g.entryIndices = positions (fun e => e.dirname = dir) entries
  length_le : groups.length ≤ entries.countP FileEntry.isDir + 1
  parents : ∀ g ∈ groups.tail, ∃ n dir : Nat, (sentDirs entries groups)[n]? = some dir ∧
    g.dirNdx = toI32 n ∧ g.entryIndices = childIndices entries dir

theorem sent_perm_of_listed (h : TreeInv entries done st)
    (hdone : done = rootDirs entries ++ done.flatMap (subdirs entries)) (hlisted : Listed entries) :
    (sentIndices st.groups).Perm (List.range entries.length) := by
  rw [perm_iff_count]
  intro i
  cases he : entries[i]? with
  | some e =>
    have hmem : i ∈ range entries.length :=
      mem_range.mpr (List.getElem?_eq_some_iff.mp he).1
    rw [h.count_sent he, count_eq_one_of_mem nodup_range hmem]
    exact (copies_eq_one_iff hdone).mpr hlisted e (mem_of_getElem? he)
  | none =>
    have hle : entries.length ≤ i := List.getElem?_eq_none_iff.mp he
    have hsent : i ∉ sentIndices st.groups := by
      rw [h.sentIndices_eq]
      exact fun hmem => absurd (mem_sent_lt hmem) (Nat.not_lt.mpr hle)
    rw [count_eq_zero_of_not_mem hsent, count_eq_zero_of_not_mem]
    rw [mem_range]
    omega

theorem listedTree (hlisted : Listed entries) :
    ListedTree entries (DirectoryTree.fromSortedEntries entries) := by
  obtain ⟨done, st, hinv, hgroups, hdone⟩ := fromSortedEntries_spec entries
  have hperm := sent_perm_of_listed hinv hdone hlisted
  have hlength : st.groups.length = done.length + 1 := by
    have := congrArg length hinv.indices
    simpa using this
  rw [hgroups]
  constructor
  case nonempty =>
    exact ne_nil_of_length_eq_add_one hlength
  case perm => exact hperm
  case dirs =>
    intro g hg
    have hmem : g.entryIndices ∈ st.groups.map (·.entryIndices) := mem_map_of_mem hg
    rw [hinv.indices, mem_cons, mem_map] at hmem
    rcases hmem with hroot | ⟨dir, -, hdir⟩
    · exact ⟨_, hroot⟩
    · exact ⟨_, hdir.symm⟩
  case length_le =>
    -- a group for each directory, but for the root itself
    have hle : done.length ≤ entries.countP FileEntry.isDir := by
      calc done.length
          = (sentIndices st.groups).countP
              (fun i => isDirAt entries i && nameAt entries i ≠ [46]) := by
            conv_lhs => rw [hdone, queued_eq_filter]
            rw [← countP_eq_length_filter, hinv.sentIndices_eq]
        _ ≤ (sentIndices st.groups).countP (isDirAt entries) := by
            refine countP_mono_left fun i _ hi => ?_
            rw [Bool.and_eq_true] at hi
            exact hi.1
        _ = (range entries.length).countP (isDirAt entries) := hperm.countP_eq _
        _ = entries.countP FileEntry.isDir := countP_range _ entries
    omega
  case parents =>
    refine hinv.parents ?_
    exact (hperm.nodup_iff.mpr nodup_range).filter _

theorem ListedTree.positions (h : ListedTree entries groups) :
    ∀ g ∈ groups, ∃ q, g.entryIndices = Ferrosync.positions q entries := by
  intro g hg
  obtain ⟨dir, hdir⟩ := h.dirs g hg
  exact ⟨_, hdir⟩

/-- The number of each entry. -/
theorem ListedTree.ndx_eq (h : ListedTree entries (DirectoryTree.fromSortedEntries entries))
    {v : Int} (hmem : (i, v) ∈ numbering (DirectoryTree.fromSortedEntries entries) 1) :
    (ndxAssignments entries)[i]? = some (toI32 v) := by
  have hone : toI32 1 = 1 := by decide
  have hsent : i ∈ sentIndices (DirectoryTree.fromSortedEntries entries) := by
    rw [← map_fst_numbering _ 1]
    exact mem_map_of_mem hmem
  unfold ndxAssignments
  nth_rewrite 1 [← hone]
  rw [assignNdx_eq]
  refine getElem?_setNdx ?_ hmem ?_
  · rw [map_fst_numbering]
    exact h.perm.nodup_iff.mpr nodup_range
  · rw [length_replicate]
    exact mem_range.mp (h.perm.mem_iff.mp hsent)

theorem ListedTree.exists_ndx (h : ListedTree entries (DirectoryTree.fromSortedEntries entries))
    (hi : i < entries.length) :
    ∃ v, (i, v) ∈ numbering (DirectoryTree.fromSortedEntries entries) 1 := by
  have hmem := h.perm.mem_iff.mpr (mem_range.mpr hi)
  rw [← map_fst_numbering _ 1] at hmem
  obtain ⟨⟨j, v⟩, hjv, rfl⟩ := mem_map.mp hmem
  exact ⟨v, hjv⟩

theorem ListedTree.span_le (h : ListedTree entries groups) :
    ndxSpan groups ≤ entries.length + entries.countP FileEntry.isDir + 1 := by
  have hlen := h.perm.length_eq
  have hgroups := h.length_le
  rw [ndxSpan_eq, hlen, length_range]
  omega

/-- Numbers that increase by less than `2 ^ 32` stay different as `i32`s. -/
theorem eq_of_toI32_eq (hinc : pairs.Pairwise fun p q => p.2 < q.2) {low : Int}
    (hbounds : ∀ p ∈ pairs, low ≤ p.2 ∧ p.2 < low + 2 ^ 32) {p q : Nat × Int} (hp : p ∈ pairs)
    (hq : q ∈ pairs) (heq : toI32 p.2 = toI32 q.2) : p = q := by
  have hmod : p.2 % 2 ^ 32 = q.2 % 2 ^ 32 := by rw [← toI32_emod, heq, toI32_emod]
  have hpb := hbounds p hp
  have hqb := hbounds q hq
  have hval : p.2 = q.2 := by omega
  have hinj : (pairs.map Prod.snd).Nodup := by
    rw [List.Nodup, pairwise_map]
    exact hinc.imp ne_of_lt
  exact inj_on_of_nodup_map hinj hp hq hval

/-- Every entry is in one group, every group has the number of its parent among the directories
that are sent, and the entries have different numbers other than zero. -/
structure TreePartitions (entries : List FileEntry) : Prop where
  once : ∀ i < entries.length,
    (DirectoryTree.fromSortedEntries entries).countP (fun g => i ∈ g.entryIndices) = 1
  parents : ∀ g ∈ (DirectoryTree.fromSortedEntries entries).tail, ∃ n dir : Nat,
    (sentDirs entries (DirectoryTree.fromSortedEntries entries))[n]? = some dir ∧ g.dirNdx = n ∧
      g.entryIndices = childIndices entries dir
  distinct : (ndxAssignments entries).Nodup
  nonzero : 0 ∉ ndxAssignments entries

/-- Groups that are a partition have listed parents. -/
theorem listed_of_partitions (h : TreePartitions entries) : Listed entries := by
  obtain ⟨done, st, hinv, hgroups, hdone⟩ := fromSortedEntries_spec entries
  have honce := h.once
  rw [hgroups] at honce
  refine (copies_eq_one_iff hdone).mp fun e he => ?_
  obtain ⟨i, hi, hget⟩ := mem_iff_getElem.mp he
  have hget' : entries[i]? = some e := by rw [getElem?_eq_getElem hi, hget]
  rw [← hinv.count_sent hget', ← countP_mem_groups hinv.nodup]
  exact honce i hi

theorem length_ndxAssignments (entries : List FileEntry) :
    (ndxAssignments entries).length = entries.length := by
  have hone : toI32 1 = 1 := by decide
  unfold ndxAssignments
  nth_rewrite 1 [← hone]
  rw [assignNdx_eq, length_setNdx, length_replicate]

theorem ListedTree.numbering_lt (h : ListedTree entries groups) (hlen : entries.length < 2 ^ 31) :
    ∀ p ∈ numbering groups 1, 1 ≤ p.2 ∧ p.2 < 2 ^ 32 := by
  intro p hp
  have hb := numbering_bounds hp
  have hspan := h.span_le
  have hdirs : entries.countP FileEntry.isDir ≤ entries.length := countP_le_length
  omega

theorem ListedTree.nodup_numbering (h : ListedTree entries groups) (hlen : entries.length < 2 ^ 31) :
    ((numbering groups 1).map fun p => toI32 p.2).Nodup := by
  have hinc := numbering_increasing groups 1
  refine List.Nodup.map_on ?_ (hinc.imp fun hlt heq => absurd (congrArg Prod.snd heq) hlt.ne)
  intro p hp q hq heq
  have hbounds : ∀ r ∈ numbering groups 1, (1 : Int) ≤ r.2 ∧ r.2 < 1 + 2 ^ 32 := by
    intro r hr
    have hb := h.numbering_lt hlen r hr
    omega
  exact eq_of_toI32_eq hinc hbounds hp hq heq

/-- Numbers of different entries are different, and none is zero. -/
theorem ListedTree.numbers (h : ListedTree entries (DirectoryTree.fromSortedEntries entries))
    (hlen : entries.length < 2 ^ 31) :
    (ndxAssignments entries).Nodup ∧ 0 ∉ ndxAssignments entries := by
  have hndx : ∀ i (hi : i < (ndxAssignments entries).length), ∃ v,
      (i, v) ∈ numbering (DirectoryTree.fromSortedEntries entries) 1 ∧
        (ndxAssignments entries)[i] = toI32 v := by
    intro i hi
    obtain ⟨v, hv⟩ := h.exists_ndx (by rw [← length_ndxAssignments]; exact hi)
    have hget := h.ndx_eq hv
    rw [getElem?_eq_getElem hi] at hget
    exact ⟨v, hv, Option.some.inj hget⟩
  constructor
  · rw [nodup_iff_injective_get]
    rintro ⟨i, hi⟩ ⟨j, hj⟩ heq
    obtain ⟨v, hv, hgv⟩ := hndx i hi
    obtain ⟨w, hw, hgw⟩ := hndx j hj
    have heq' : toI32 v = toI32 w := hgv.symm.trans (heq.trans hgw)
    have hpair := inj_on_of_nodup_map (h.nodup_numbering hlen) hv hw heq'
    exact Fin.ext (congrArg Prod.fst hpair)
  -- a number is positive before it is cut to an `i32`, and below `2 ^ 32`
  · intro hmem
    obtain ⟨i, hi, hzero⟩ := mem_iff_getElem.mp hmem
    obtain ⟨v, hv, hgv⟩ := hndx i hi
    have hb := h.numbering_lt hlen _ hv
    have hmod := toI32_emod v
    omega

/-- **The groups are a partition.** They are one only if every parent is listed once, and is not
`.`; and if so, and if the entries can be counted, they are. -/
theorem directory_tree_partitions :
    (TreePartitions entries → Listed entries) ∧
      (Listed entries → entries.length < 2 ^ 31 → TreePartitions entries) := by
  refine ⟨listed_of_partitions, fun hlisted hlen => ?_⟩
  have htree := listedTree hlisted
  have hnodup : (sentIndices (DirectoryTree.fromSortedEntries entries)).Nodup :=
    htree.perm.nodup_iff.mpr nodup_range
  obtain ⟨hdistinct, hnonzero⟩ := htree.numbers hlen
  constructor
  case once =>
    intro i hi
    have hgroups : ∀ g ∈ DirectoryTree.fromSortedEntries entries, g.entryIndices.Nodup := by
      intro g hg
      obtain ⟨p, hp⟩ := htree.positions g hg
      rw [hp]
      exact nodup_positions p entries
    rw [countP_mem_groups hgroups]
    exact count_eq_one_of_mem hnodup (htree.perm.mem_iff.mpr (mem_range.mpr hi))
  -- the bound is for this: the numbers of directories are `i32` values
  case parents =>
    intro g hg
    obtain ⟨n, dir, hn, hndx, hindices⟩ := htree.parents g hg
    refine ⟨n, dir, hn, ?_, hindices⟩
    have hlt : n < entries.length := by
      calc n < (sentDirs entries (DirectoryTree.fromSortedEntries entries)).length :=
            (List.getElem?_eq_some_iff.mp hn).1
        _ ≤ (sentIndices (DirectoryTree.fromSortedEntries entries)).length :=
            length_filter_le _ _
        _ = entries.length := by rw [htree.perm.length_eq, length_range]
    rw [hndx, toI32_eq ⟨by omega, by omega⟩]
  case distinct => exact hdistinct
  case nonzero => exact hnonzero

def directoryD : FileEntry := { FileEntry.default with name := [100], mode := sIfdir }

def fileInD : FileEntry := { FileEntry.default with name := [100, 47, 120], mode := sIfreg }

theorem dirname_pair {e : FileEntry} {name : List UInt8} (he : e ∈ [directoryD, fileInD])
    (hname : e.dirname = some name) : name = [100] := by
  rcases mem_cons.mp he with rfl | he
  · have hnone : directoryD.dirname = none := by decide
    exact absurd (hnone.symm.trans hname) (Option.some_ne_none _).symm
  · obtain rfl := mem_singleton.mp he
    have hparent : fileInD.dirname = some [100] := by decide
    exact (Option.some.inj (hparent.symm.trans hname)).symm

/-- A file behind its directory. -/
theorem directory_tree_partitions_pair : TreePartitions [directoryD, fileInD] := by
  refine directory_tree_partitions.2 ?_ (by decide)
  intro e he name hname
  obtain rfl := dirname_pair he hname
  exact ⟨by decide, by decide⟩

/-- A file whose directory is not listed, as `--files-from` does, is in no group. -/
theorem unlisted_directory_not_sent :
    CanonicallySorted [fileInD] ∧ ndxAssignments [fileInD] = [0] ∧ ¬ TreePartitions [fileInD] := by
  refine ⟨by decide, by decide, fun h => ?_⟩
  have hparent : fileInD.dirname = some [100] := by decide
  have hone := (listed_of_partitions h fileInD mem_cons_self [100] hparent).2
  exact absurd hone (by decide)

end Ferrosync
