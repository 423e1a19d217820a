import Ferrosync.Lib.UnixTree
import Ferrosync.Engine.Delete

set_option autoImplicit false

/-! # Counting what is removed

The destination as a finite tree, on which each removal may fail. The deleter counts the removals
it tries: its counts are the number of entries that are gone exactly if none of them failed, and
never more than `--max-delete` are gone (`deletion_accounting`).
-/

namespace Ferrosync

open UnixPath Interaction

/-! ## A finite tree -/

/-- What is below the destination, and how many removals have failed. -/
structure DestState where
  present : Finset Loc
  failed : Nat

section Env

variable (dest : Path) (kind : Loc → Bool) (mayFail : Bool)

def Opens (present : Finset Loc) (p : Loc) : Prop := p = [] ∨ p ∈ present ∧ kind p = true

/-- The entries of a directory, in some order. -/
structure EntriesOf (present : Finset Loc) (p : Loc) (ds : List DirEntry) : Prop where
  once : (ds.map DirEntry.name).Nodup
  names : ∀ name, name ∈ ds.map DirEntry.name ↔ p ++ [name] ∈ present
  kinds : ∀ d ∈ ds, d.isDir = kind (p ++ [d.name])

/-- What `unlink` or `rmdir` can remove. -/
structure Removable (present : Finset Loc) (isDir : Bool) (p : Loc) : Prop where
  there : p ∈ present
  kind : kind p = isDir
  empty : ∀ name, p ++ [name] ∉ present

/-- A removal; it fails if it has to, and perhaps for other reasons. -/
def Removes (isDir : Bool) (path : Path) (s : DestState) (ok : Bool) (s' : DestState) : Prop :=
  (ok = true ∧ ∃ p, path = dest.below p ∧ Removable kind s.present isDir p ∧
    s' = ⟨s.present.erase p, s.failed⟩) ∨
  (ok = false ∧ (mayFail = true ∨ ∀ p, path = dest.below p → ¬ Removable kind s.present isDir p) ∧
    s' = ⟨s.present, s.failed + 1⟩)

/-- The operations the deleter asks for, on a tree with directories where `kind` says so. -/
def destEnv : Env DestState LocalOp LocalOp.Reply := fun s op =>
  match op with
  | .readDir dir => fun found s' =>
    s' = s ∧ match found with
      | some ds => ∃ p, dir = dest.below p ∧ Opens kind s.present p ∧ EntriesOf kind s.present p ds
      | none => mayFail = true ∨ ∀ p, dir = dest.below p → ¬ Opens kind s.present p
  | .removeDir path => fun ok s' => Removes dest kind mayFail true path s ok s'
  | .removeFile path => fun ok s' => Removes dest kind mayFail false path s ok s'
  | _ => fun _ _ => False

end Env

theorem below_inj {dest : Path} {p q : Loc} (h : dest.below p = dest.below q) : p = q := by
  have hparts : dest.parts ++ p.map Part.normal = dest.parts ++ q.map Part.normal :=
    congrArg Path.parts h
  exact List.map_injective_iff.mpr (fun _ _ => Part.normal.inj) (List.append_cancel_left hparts)

/-! ## Counts -/

/-- So many removals have been tried. -/
structure Tried (n : Nat) (s s' : DestState) : Prop where
  subset : s'.present ⊆ s.present
  count : s.present.card + s'.failed = s'.present.card + s.failed + n

/-- So much of the budget has been used, unless there is no limit. -/
def DeleteBudget.Spent (n : Nat) (b b' : DeleteBudget) : Prop :=
  b.remaining < unlimited → b'.remaining + n = b.remaining

/-- One of the two functions of the deleter is called. -/
inductive DeleteCall where
  | extraneous (dest : Path) (sources : List FileEntry)
  | extraneousInDir (destDir : Path) (sources : List FileEntry) (dirName : List UInt8)

def DeleteCall.run (D : Deleter) (b : DeleteBudget) : DeleteCall → LocalM (Nat × DeleteBudget)
  | .extraneous dest sources => D.deleteExtraneous dest sources b
  | .extraneousInDir destDir sources dirName => D.deleteExtraneousInDir destDir sources dirName b

/-- Calls one after the other, with the sum of the counts they return. -/
def runCalls (D : Deleter) : List DeleteCall → DeleteBudget → LocalM (Nat × DeleteBudget)
  | [], b => pure (0, b)
  | c :: cs, b => do
    let here ← c.run D b
    let rest ← runCalls D cs here.2
    pure (here.1 + rest.1, rest.2)

section Counts

variable {dest : Path} {kind : Loc → Bool} {mayFail : Bool} {s s' s'' : DestState} {n m : Nat}
  {D : Deleter} {r : Nat × DeleteBudget} {b b' b'' : DeleteBudget}

theorem Tried.refl (s : DestState) : Tried 0 s s := ⟨Finset.Subset.refl _, rfl⟩

theorem Tried.trans (h : Tried n s s') (h' : Tried m s' s'') : Tried (n + m) s s'' := by
  refine ⟨h'.subset.trans h.subset, ?_⟩
  have := h.count
  have := h'.count
  omega

theorem DeleteBudget.Spent.trans (h : b.Spent n b') (h' : b'.Spent m b'') : b.Spent (n + m) b'' := by
  intro hlt
  have hn := h hlt
  have hm := h' (by omega)
  omega

theorem DeleteBudget.spent_of_tryConsume (h : b.tryConsume = some b') : b.Spent 1 b' := by
  intro hlt
  unfold DeleteBudget.tryConsume at h
  split_ifs at h
  · omega
  · cases h
    simp
    omega

theorem Removes.tried {isDir ok : Bool} {path : Path}
    (h : Removes dest kind mayFail isDir path s ok s') : Tried 1 s s' := by
  rcases h with ⟨-, p, -, hp, rfl⟩ | ⟨-, -, rfl⟩
  · refine ⟨Finset.erase_subset _ _, ?_⟩
    have := Finset.card_erase_add_one hp.there
    dsimp only
    omega
  · exact ⟨Finset.Subset.refl _, (Nat.add_assoc ..).symm⟩

theorem returns_askDest {op : LocalOp} {r : op.Reply} :
    Returns (destEnv dest kind mayFail) s (askLocal op) r s' ↔ destEnv dest kind mayFail s op r s' :=
  returns_lift.trans runs_perform

theorem remove_tried (hwet : D.dryRun = false) {isDir : Bool} {path : Path} {u : Unit}
    (hrun : Returns (destEnv dest kind mayFail) s (D.remove isDir path) u s') : Tried 1 s s' := by
  unfold Deleter.remove at hrun
  rw [hwet, if_neg Bool.false_ne_true] at hrun
  split_ifs at hrun
  all_goals
    obtain ⟨ok, s₁, hask, hdone⟩ := returns_bind.mp hrun
    obtain ⟨-, rfl⟩ := returns_pure.mp hdone
    exact Removes.tried (returns_askDest.mp hask)

theorem deleteLoop_tried (hwet : D.dryRun = false) {dir : Path} {source : List (List UInt8)} :
    ∀ {ds : List DirEntry} {deleted : Nat} {s : DestState} {b : DeleteBudget},
      Returns (destEnv dest kind mayFail) s (D.deleteLoop dir source ds deleted b) r s' →
      ∃ n, r.1 = deleted + n ∧ Tried n s s' ∧ b.Spent n r.2
  | [], deleted, s, b, hrun => by
    obtain ⟨rfl, rfl⟩ := returns_pure.mp hrun
    exact ⟨0, rfl, .refl _, fun _ => rfl⟩
  | d :: ds, deleted, s, b, hrun => by
    unfold Deleter.deleteLoop at hrun
    split_ifs at hrun
    · exact deleteLoop_tried hwet hrun
    · exact deleteLoop_tried hwet hrun
    -- without a budget the loop stops, and has tried nothing further
    · cases hbudget : b.tryConsume with
      | none =>
        rw [hbudget] at hrun
        obtain ⟨rfl, rfl⟩ := returns_pure.mp hrun
        exact ⟨0, rfl, .refl _, fun _ => rfl⟩
      | some b₁ =>
        rw [hbudget] at hrun
        obtain ⟨u, s₁, hremove, hloop⟩ := returns_bind.mp hrun
        obtain ⟨n, hn, htried, hspent⟩ := deleteLoop_tried hwet hloop
        exact ⟨1 + n, by omega, (remove_tried hwet hremove).trans htried,
          (DeleteBudget.spent_of_tryConsume hbudget).trans hspent⟩

theorem deleteIn_tried (hwet : D.dryRun = false) {dir : Path} {source : List (List UInt8)}
    (hrun : Returns (destEnv dest kind mayFail) s (D.deleteIn dir source b) r s') :
    Tried r.1 s s' ∧ b.Spent r.1 r.2 := by
  obtain ⟨found, s₁, hask, hloop⟩ := returns_bind.mp hrun
  obtain ⟨rfl, -⟩ := returns_askDest.mp hask
  cases found with
  | none =>
    obtain ⟨rfl, rfl⟩ := returns_pure.mp hloop
    exact ⟨.refl _, fun _ => rfl⟩
  | some ds =>
    obtain ⟨n, hn, htried, hspent⟩ := deleteLoop_tried hwet hloop
    rw [hn, Nat.zero_add]
    exact ⟨htried, hspent⟩

theorem runCalls_tried (hwet : D.dryRun = false) :
    ∀ {cs : List DeleteCall} {s : DestState} {b : DeleteBudget} {r : Nat × DeleteBudget},
      Returns (destEnv dest kind mayFail) s (runCalls D cs b) r s' →
      Tried r.1 s s' ∧ b.Spent r.1 r.2
  | [], s, b, r, hrun => by
    obtain ⟨rfl, rfl⟩ := returns_pure.mp hrun
    exact ⟨.refl _, fun _ => rfl⟩
  | c :: cs, s, b, r, hrun => by
    obtain ⟨here, s₁, hhere, hrest⟩ := returns_bind.mp hrun
    obtain ⟨rest, s₂, hcalls, hdone⟩ := returns_bind.mp hrest
    obtain ⟨rfl, rfl⟩ := returns_pure.mp hdone
    have htried : Tried here.1 s s₁ ∧ b.Spent here.1 here.2 := by
      cases c with
      | extraneous dest sources => exact deleteIn_tried hwet hhere
      | extraneousInDir destDir sources dirName => exact deleteIn_tried hwet hhere
    obtain ⟨htried', hspent'⟩ := runCalls_tried hwet hcalls
    exact ⟨htried.1.trans htried', htried.2.trans hspent'⟩

/-- **The counts of the deleter.** They add up to the number of entries that are gone exactly if no
removal has failed. Not more are gone than `--max-delete` allows, where `u64::MAX` is no limit. -/
theorem deletion_accounting (hwet : D.dryRun = false) {calls : List DeleteCall}
    {maxDelete : Option Nat} {tree : Finset Loc}
    (hrun : Returns (destEnv dest kind mayFail) ⟨tree, 0⟩ (runCalls D calls (.new maxDelete)) r s') :
    (r.1 = (tree \ s'.present).card ↔ s'.failed = 0) ∧
      ∀ m ∈ maxDelete, m < DeleteBudget.unlimited ∨ tree.card ≤ m →
        (tree \ s'.present).card ≤ m := by
  obtain ⟨⟨hsubset, hcount⟩, hspent⟩ := runCalls_tried hwet hrun
  have hcard : (tree \ s'.present).card + s'.present.card = tree.card :=
    Finset.card_sdiff_add_card_eq_card hsubset
  dsimp only at hcount
  refine ⟨by omega, ?_⟩
  rintro m ⟨⟩ (hlimit | hfew)
  · have := hspent hlimit
    have hnew : (DeleteBudget.new (some m)).remaining = m := rfl
    omega
  · omega

end Counts

section Example

def plainDeleter : Deleter := ⟨.new, false, false⟩

def nestedTree : Finset Loc := {[[100]], [[100], [120]]}

def nestedKind (p : Loc) : Bool := p = [[100]]

theorem nested_run : Returns (destEnv ⟨true, []⟩ nestedKind false) ⟨nestedTree, 0⟩
    (runCalls plainDeleter [.extraneous ⟨true, []⟩ []] (.new none)) (1, .new none) ⟨nestedTree, 1⟩ := by
  have hread : Returns (destEnv ⟨true, []⟩ nestedKind false) ⟨nestedTree, 0⟩
      (askLocal (.readDir ⟨true, []⟩)) (some [foundEntry [100] true]) ⟨nestedTree, 0⟩ := by
    refine returns_askDest.mpr ⟨rfl, [], rfl, .inl rfl, List.nodup_singleton _, fun name => ?_, ?_⟩
    · simp [nestedTree, foundEntry]
    · decide
  -- the directory is not empty: the attempt fails, and is counted
  have hremove : Returns (destEnv ⟨true, []⟩ nestedKind false) ⟨nestedTree, 0⟩
      (plainDeleter.remove true ((⟨true, []⟩ : Path).join (Path.ofBytes [100]))) ()
      ⟨nestedTree, 1⟩ := by
    refine returns_bind.mpr ⟨false, _, returns_askDest.mpr (.inr ⟨rfl, .inr ?_, rfl⟩),
      returns_pure.mpr ⟨rfl, rfl⟩⟩
    intro p hp hremovable
    have hpath : (⟨true, []⟩ : Path).join (Path.ofBytes [100]) = Path.below ⟨true, []⟩ [[100]] := rfl
    rw [← below_inj (hpath.symm.trans hp)] at hremovable
    exact hremovable.empty [120] (by decide)
  have hloop : Returns (destEnv ⟨true, []⟩ nestedKind false) ⟨nestedTree, 0⟩
      (plainDeleter.deleteLoop ⟨true, []⟩ [] [foundEntry [100] true] 0 (.new none))
      (1, .new none) ⟨nestedTree, 1⟩ := by
    rw [Deleter.deleteLoop, if_neg List.not_mem_nil, if_neg (by decide),
      show (DeleteBudget.new none).tryConsume = some (.new none) by decide]
    exact returns_bind.mpr ⟨(), _, hremove, returns_pure.mpr ⟨rfl, rfl⟩⟩
  exact returns_bind.mpr ⟨_, _, returns_bind.mpr ⟨_, _, hread, hloop⟩,
    returns_bind.mpr ⟨_, _, returns_pure.mpr ⟨rfl, rfl⟩, returns_pure.mpr ⟨rfl, rfl⟩⟩⟩

/-- A directory that is not empty is counted, and stays. -/
theorem failed_removal_counted : ∃ r s', Returns (destEnv ⟨true, []⟩ nestedKind false)
      ⟨nestedTree, 0⟩ (runCalls plainDeleter [.extraneous ⟨true, []⟩ []] (.new none)) r s' ∧
    r.1 = 1 ∧ (nestedTree \ s'.present).card = 0 :=
  ⟨_, _, nested_run, rfl, by simp⟩

theorem deletion_accounting_nested : ∃ r s', Returns (destEnv ⟨true, []⟩ nestedKind false)
      ⟨nestedTree, 0⟩ (runCalls plainDeleter [.extraneous ⟨true, []⟩ []] (.new none)) r s' ∧
    (r.1 = (nestedTree \ s'.present).card ↔ s'.failed = 0) :=
  ⟨_, _, nested_run, (deletion_accounting rfl nested_run).1⟩

end Example

end Ferrosync
