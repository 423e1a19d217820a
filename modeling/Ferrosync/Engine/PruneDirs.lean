import Mathlib.Tactic
import Ferrosync.Lib.UnixTree

set_option autoImplicit false

/-! # Pruning empty directories

`prune_empty_dirs`, with the entries of a directory as the state that a call reads and changes. A
real run removes the directories without a file below them (`prune_exact`). A dry run removes
nothing, so that it finds only those empty that are empty now (`prune_dry_run_iff`).
`tree_pruneEmptyDirs` says the same of the file tree that the entries denote.
-/

namespace Ferrosync

/-- The entries of a directory, in the order of `read_dir`. -/
inductive Entries where
  | nil
  | file (name : List UInt8) (rest : Entries)
  | dir (name : List UInt8) (below rest : Entries)
  deriving DecidableEq, Repr

/-- `prune_empty_dirs` for the root, and for the directories below it the part up to their own
removal. -/
def pruneEmptyDirs (dryRun : Bool) : Entries → Entries × Nat
  | .nil => (.nil, 0)
  | .file name rest =>
    let (rest', pruned) := pruneEmptyDirs dryRun rest
    (.file name rest', pruned)
  | .dir name below rest =>
    let (remaining, here) := pruneEmptyDirs dryRun below
    let (rest', pruned) := pruneEmptyDirs dryRun rest
    if remaining = .nil then
      (if dryRun then .dir name remaining rest' else rest', here + 1 + pruned)
    else (.dir name remaining rest', here + pruned)

/-! ## What there is -/

/-- A file, or a directory: with a file below it, with directories only, or with nothing. -/
inductive EntryKind where
  | file
  | full
  | hollow
  | empty
  deriving DecidableEq, Repr

namespace Entries

def hasFile : Entries → Bool
  | .nil => false
  | .file _ _ => true
  | .dir _ below rest => below.hasFile || rest.hasFile

def kind (below : Entries) : EntryKind :=
  if below = .nil then .empty else if below.hasFile then .full else .hollow

/-- All entries below a directory, with the names on the way to them. -/
def listing : Entries → List (List (List UInt8) × EntryKind)
  | .nil => []
  | .file name rest => ([name], .file) :: rest.listing
  | .dir name below rest =>
    ([name], below.kind) :: (below.listing.map fun e => (name :: e.1, e.2)) ++ rest.listing

end Entries

def EntryKind.isPruned (kind : EntryKind) : Bool := kind = .hollow || kind = .empty

theorem pruneEmptyDirs_nil_iff (f : Entries) :
    (pruneEmptyDirs false f).1 = .nil ↔ f.hasFile = false := by
  induction f with
  | nil | file => simp [pruneEmptyDirs, Entries.hasFile]
  | dir name below rest ihb ihr =>
    simp only [pruneEmptyDirs, Entries.hasFile, ihb]
    cases hbelow : below.hasFile <;> simp [ihr]

theorem hasFile_pruneEmptyDirs (f : Entries) :
    (pruneEmptyDirs false f).1.hasFile = f.hasFile := by
  induction f with
  | nil | file => rfl
  | dir name below rest ihb ihr =>
    simp only [pruneEmptyDirs, Entries.hasFile, pruneEmptyDirs_nil_iff]
    cases hbelow : below.hasFile <;> simp [Entries.hasFile, ihb, ihr, hbelow]

theorem Entries.isPruned_kind (f : Entries) : f.kind.isPruned = !f.hasFile := by
  unfold Entries.kind
  cases f <;> simp [EntryKind.isPruned, Entries.hasFile]
  split <;> simp_all

theorem listing_pruneEmptyDirs (f : Entries) :
    (pruneEmptyDirs false f).1.listing = f.listing.filter (!·.2.isPruned) := by
  induction f with
  | nil => rfl
  | file name rest ih => simp [pruneEmptyDirs, Entries.listing, EntryKind.isPruned, ih]
  | dir name below rest ihb ihr =>
    have hnil := pruneEmptyDirs_nil_iff below
    simp only [pruneEmptyDirs, Entries.listing, List.cons_append, List.filter_cons,
      List.filter_append, List.filter_map, Function.comp_def, Entries.isPruned_kind, ← ihb, ← ihr]
    cases hbelow : below.hasFile with
    | false =>
      rw [hnil.mpr hbelow]
      simp [Entries.listing]
    | true =>
      have hne : (pruneEmptyDirs false below).1 ≠ .nil := by simp [hnil, hbelow]
      have hkind : (pruneEmptyDirs false below).1.kind = below.kind := by
        have hbelow' : below ≠ .nil := by rintro rfl; cases hbelow
        simp [Entries.kind, hne, hbelow', hasFile_pruneEmptyDirs]
      simp [hne, hkind, Entries.listing]

theorem count_pruneEmptyDirs (f : Entries) :
    (pruneEmptyDirs false f).2 = f.listing.countP (·.2.isPruned) := by
  induction f with
  | nil => rfl
  | file name rest ih => simp [pruneEmptyDirs, Entries.listing, EntryKind.isPruned, ih]
  | dir name below rest ihb ihr =>
    simp only [pruneEmptyDirs, Entries.listing, List.cons_append, List.countP_cons,
      List.countP_append, List.countP_map, Function.comp_def, Entries.isPruned_kind,
      pruneEmptyDirs_nil_iff, ← ihb, ← ihr]
    cases below.hasFile <;> simp
    omega

/-- **A real run removes exactly the directories with no file below them**, and counts them. -/
theorem prune_exact (f : Entries) :
    (pruneEmptyDirs false f).1.listing = f.listing.filter (!·.2.isPruned) ∧
      (pruneEmptyDirs false f).2 = f.listing.countP (·.2.isPruned) :=
  ⟨listing_pruneEmptyDirs f, count_pruneEmptyDirs f⟩

/-- **Once is enough**: after a real run, no run finds anything. -/
theorem prune_twice (dryRun : Bool) (f : Entries) :
    pruneEmptyDirs dryRun (pruneEmptyDirs false f).1 = ((pruneEmptyDirs false f).1, 0) := by
  induction f with
  | nil => rfl
  | file name rest ih => simp [pruneEmptyDirs, ih]
  | dir name below rest ihb ihr =>
    by_cases hbelow : (pruneEmptyDirs false below).1 = .nil <;>
      simp [pruneEmptyDirs, hbelow, ihb, ihr]

/-- **A dry run changes nothing, and counts the same** exactly if no directory holds directories
only. -/
theorem prune_dry_run_iff (f : Entries) :
    (pruneEmptyDirs true f).1 = f ∧
      ((pruneEmptyDirs true f).2 = (pruneEmptyDirs false f).2 ↔
        ∀ e ∈ f.listing, e.2 ≠ .hollow) := by
  -- a dry run leaves the directories in place, and so counts only those that are empty already
  have hdry : (pruneEmptyDirs true f).1 = f ∧
      (pruneEmptyDirs true f).2 = f.listing.countP (·.2 = .empty) := by
    induction f with
    | nil => exact ⟨rfl, rfl⟩
    | file name rest ih => simp [pruneEmptyDirs, Entries.listing, ih]
    | dir name below rest ihb ihr =>
      simp only [pruneEmptyDirs, Entries.listing, List.cons_append, List.countP_cons,
        List.countP_append, List.countP_map, Function.comp_def, ihb.1, ihr.1, ← ihb.2, ← ihr.2]
      by_cases hbelow : below = .nil
      · simp [hbelow, Entries.kind]
        omega
      · cases hfile : below.hasFile <;> simp [hbelow, hfile, Entries.kind]
  have hsum : ∀ l : List (List (List UInt8) × EntryKind), l.countP (·.2.isPruned) =
      l.countP (·.2 = .empty) + l.countP (·.2 = .hollow) := by
    intro l
    induction l with
    | nil => rfl
    | cons e l ih =>
      simp only [List.countP_cons, ih]
      cases e.2 <;> simp [EntryKind.isPruned] <;> omega
  refine ⟨hdry.1, ?_⟩
  rw [hdry.2, count_pruneEmptyDirs, hsum, left_eq_add, List.countP_eq_zero]
  simp

/-- `d` with the empty directory `e` in it. -/
theorem nested_dry_run_differs :
    (pruneEmptyDirs true (.dir [100] (.dir [101] .nil .nil) .nil)).2 = 1 ∧
      (pruneEmptyDirs false (.dir [100] (.dir [101] .nil .nil) .nil)).2 = 2 := by
  decide

/-! ## The tree that the entries denote -/

open UnixPath (Loc Tree)

namespace Entries

/-- What is below the directory; a `file` is whatever is not a directory. -/
def tree : Entries → Tree
  | .nil, loc => if loc = [] then some .dir else none
  | .file name rest, loc => if loc = [name] then some .file else rest.tree loc
  | .dir name below rest, loc =>
    if loc.head? = some name then below.tree loc.tail else rest.tree loc

/-- No directory has a name twice. -/
def Distinct : Entries → Prop
  | .nil => True
  | .file name rest => rest.tree [name] = none ∧ rest.Distinct
  | .dir name below rest => rest.tree [name] = none ∧ below.Distinct ∧ rest.Distinct

variable {f : Entries} {name : List UInt8} {loc : Loc}

theorem tree_root (f : Entries) : f.tree [] = some .dir := by
  induction f with
  | nil => rfl
  | file name rest ih => simpa [tree] using ih
  | dir name below rest _ ih => simpa [tree] using ih

theorem tree_below_none (h : f.tree [name] = none) : f.tree (name :: loc) = none := by
  induction f with
  | nil => simp [tree]
  | file n rest ih =>
    by_cases hn : name = n
    · simp [tree, hn] at h
    · simp_all [tree]
  | dir n below rest _ ih =>
    by_cases hn : n = name
    · simp [tree, hn, tree_root] at h
    · simp_all [tree, eq_comm]

theorem hasFile_iff (h : f.Distinct) : f.hasFile = true ↔ ∃ loc, f.tree loc = some .file := by
  induction f with
  | nil => simp [hasFile, tree]
  | file name rest => exact ⟨fun _ => ⟨[name], if_pos rfl⟩, fun _ => rfl⟩
  | dir name below rest ihb ihr =>
    obtain ⟨hname, hbelow, hrest⟩ := h
    rw [hasFile, Bool.or_eq_true, ihb hbelow, ihr hrest]
    constructor
    · rintro (⟨loc, hloc⟩ | ⟨loc, hloc⟩)
      · exact ⟨name :: loc, (if_pos rfl).trans hloc⟩
      · -- a location in the rest does not start with the name of the directory
        refine ⟨loc, (if_neg fun hhead => ?_).trans hloc⟩
        obtain ⟨tail, rfl⟩ := List.head?_eq_some_iff.mp hhead
        rw [tree_below_none hname] at hloc
        cases hloc
    · rintro ⟨loc, hloc⟩
      rw [tree] at hloc
      split_ifs at hloc
      · exact .inl ⟨_, hloc⟩
      · exact .inr ⟨_, hloc⟩

end Entries

/-- Nothing at the location or below it is a file. -/
def Hollow (t : Tree) (loc : Loc) : Prop := loc ≠ [] ∧ ∀ ext, t (loc ++ ext) ≠ some .file

section Hollow

variable {name : List UInt8} {below rest : Entries} {loc tail : Loc}

theorem hollow_file (hloc : loc ≠ [name]) :
    Hollow (Entries.file name rest).tree loc ↔ Hollow rest.tree loc := by
  refine and_congr_right fun hne => forall_congr' fun ext => ?_
  have hext : loc ++ ext ≠ [name] := by
    intro heq
    rcases List.append_eq_singleton_iff.mp heq with ⟨hnil, -⟩ | ⟨hone, -⟩
    · exact hne hnil
    · exact hloc hone
  rw [Entries.tree, if_neg hext]

theorem hollow_dir (hhead : loc.head? ≠ some name) :
    Hollow (Entries.dir name below rest).tree loc ↔ Hollow rest.tree loc := by
  refine and_congr_right fun hne => forall_congr' fun ext => ?_
  rw [Entries.tree, if_neg (by rwa [List.head?_append_of_ne_nil _ hne])]

theorem hollow_below : Hollow (Entries.dir name below rest).tree (name :: tail) ↔
    ∀ ext, below.tree (tail ++ ext) ≠ some .file := by
  simp [Hollow, Entries.tree]

end Hollow

open Classical in
/-- **In the tree** a real run removes the locations that no file is at or below, and nothing
else. -/
theorem tree_pruneEmptyDirs {f : Entries} (h : f.Distinct) (loc : Loc) :
    (pruneEmptyDirs false f).1.tree loc = if Hollow f.tree loc then none else f.tree loc := by
  induction f generalizing loc with
  | nil =>
    by_cases hloc : loc = [] <;> simp [pruneEmptyDirs, Entries.tree, Hollow, hloc]
  | file name rest ih =>
    by_cases hloc : loc = [name]
    · have hfull : ¬ Hollow (Entries.file name rest).tree loc := fun hhollow =>
        hhollow.2 [] (by simp [Entries.tree, hloc])
      rw [if_neg hfull]
      simp [pruneEmptyDirs, Entries.tree, hloc]
    · simp only [hollow_file hloc]
      simp only [pruneEmptyDirs, Entries.tree, if_neg hloc]
      exact ih h.2 loc
  | dir name below rest ihb ihr =>
    obtain ⟨hname, hbelow, hrest⟩ := h
    have hleft := pruneEmptyDirs_nil_iff below
    by_cases hhead : loc.head? = some name
    · obtain ⟨tail, rfl⟩ := List.head?_eq_some_iff.mp hhead
      simp only [hollow_below]
      -- without a file below, the directory goes and the name is free; otherwise it stays
      cases hfile : below.hasFile with
      | false =>
        have hnone : ∀ ext, below.tree (tail ++ ext) ≠ some .file := fun ext hext =>
          Bool.false_ne_true (hfile.symm.trans ((Entries.hasFile_iff hbelow).mpr ⟨_, hext⟩))
        rw [if_pos hnone]
        simp [pruneEmptyDirs, hleft.mpr hfile, ihr hrest, Entries.tree_below_none hname]
      | true =>
        have hne : (pruneEmptyDirs false below).1 ≠ .nil := by simp [hleft, hfile]
        simp only [pruneEmptyDirs, if_neg hne, Entries.tree, if_pos hhead, List.tail_cons]
        rw [ihb hbelow tail]
        obtain ⟨found, hfound⟩ := (Entries.hasFile_iff hbelow).mp hfile
        by_cases htail : tail = []
        · subst htail
          rw [if_neg fun hhollow => hhollow.1 rfl, if_neg fun hhollow => hhollow found hfound]
        · simp [Hollow, htail]
    · have hpruned : (pruneEmptyDirs false (.dir name below rest)).1.tree loc =
          (pruneEmptyDirs false rest).1.tree loc := by
        simp only [pruneEmptyDirs]
        split_ifs <;> simp [Entries.tree, hhead]
      simp only [hollow_dir hhead, hpruned]
      simp only [Entries.tree, if_neg hhead]
      exact ihr hrest loc

end Ferrosync
