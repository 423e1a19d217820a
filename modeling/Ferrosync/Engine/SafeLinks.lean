import Ferrosync.Engine.ReceiverEngine

set_option autoImplicit false

/-! # Safe links

`--safe-links` skips symbolic links whose targets lead out of the tree. The depth of the link itself
is not taken into account: the walk starts as if every link were at the top (`safe_links_iff`).
-/

namespace Ferrosync

open UnixPath Interaction

/-- A walk over the parts of a target, from a directory `depth` levels below the root, leaves the
root. -/
def leavesRoot : Nat → List (List UInt8) → Bool
  | _, [] => false
  | depth, s :: ss =>
    if s = [] ∨ s = [dot] then leavesRoot depth ss
    else if s = [dot, dot] then depth = 0 || leavesRoot (depth - 1) ss
    else leavesRoot (depth + 1) ss

/-- The levels between the root and the directory of a link. -/
def linkDepth (name : List UInt8) : Nat := (walk [] (Path.ofBytes name).parts.dropLast).length

theorem leavesRoot_mono {ss : List (List UInt8)} {n m : Nat} (hnm : n ≤ m)
    (h : leavesRoot m ss = true) : leavesRoot n ss = true := by
  induction ss generalizing n m with
  | nil => exact h
  | cons s ss ih =>
    rw [leavesRoot] at h ⊢
    split_ifs at h ⊢ with hcur hup
    · exact ih hnm h
    · rw [Bool.or_eq_true, decide_eq_true_eq] at h ⊢
      exact h.imp (by omega) (ih (Nat.sub_le_sub_right hnm 1))
    · exact ih (Nat.succ_le_succ hnm) h

theorem climbsFrom_filterMap (ss : List (List UInt8)) (n : Nat) :
    climbsFrom n (ss.filterMap Part.ofSegment) = leavesRoot n ss := by
  induction ss generalizing n with
  | nil => rfl
  | cons s ss ih =>
    by_cases hnil : s = []
    · subst hnil
      exact ih n
    by_cases hcur : s = [dot]
    · subst hcur
      exact ih n
    by_cases hup : s = [dot, dot]
    · subst hup
      cases n with
      | zero => rfl
      | succ n => exact ih n
    · rw [List.filterMap_cons, show Part.ofSegment s = some (.normal s) by
        simp [Part.ofSegment, hnil, hcur, hup], leavesRoot, if_neg (by simp [hnil, hcur]), if_neg hup]
      exact ih (n + 1)

theorem climbsFrom_ofBytes (bytes : List UInt8) (n : Nat) :
    climbsFrom n (Path.ofBytes bytes).parts = leavesRoot n (segments bytes) := by
  rw [← climbsFrom_filterMap]
  unfold Path.ofBytes
  split_ifs
  · exact climbsFrom_dropCur _ n
  · cases (segments bytes).filterMap Part.ofSegment with
    | nil => rfl
    | cons p ps =>
      have hrest := climbsFrom_dropCur ps
      cases p with
      | cur => exact hrest n
      | normal name => exact hrest (n + 1)
      | up => cases n <;> simp [climbsFrom, hrest]

theorem lossy_eq_iff {s t : List UInt8} (ht : ∀ b ∈ t, b < 0x80) (hlossy : Utf8.lossy t = t) :
    Utf8.lossy s = t ↔ s = t := by
  constructor
  · intro h
    rwa [Utf8.lossy_eq_of_ascii (by rwa [h])] at h
  · rintro rfl
    exact hlossy

theorem leavesRoot_lossy (ss : List (List UInt8)) (n : Nat) :
    leavesRoot n (ss.map Utf8.lossy) = leavesRoot n ss := by
  induction ss generalizing n with
  | nil => rfl
  | cons s ss ih =>
    have hnil : Utf8.lossy s = [] ↔ s = [] := lossy_eq_iff (by simp) (by decide)
    have hcur : Utf8.lossy s = [dot] ↔ s = [dot] := lossy_eq_iff (by simp [dot]) (by decide)
    have hup : Utf8.lossy s = [dot, dot] ↔ s = [dot, dot] :=
      lossy_eq_iff (by simp [dot]) (by decide)
    simp only [List.map_cons, leavesRoot, hnil, hcur, hup, ih]

/-- What `is_unsafe_symlink` tests. -/
theorem isUnsafeSymlink_iff (target : List UInt8) :
    isUnsafeSymlink target = true ↔
      target.head? = some slash ∨ leavesRoot 0 (segments target) = true := by
  unfold isUnsafeSymlink
  rw [Bool.or_eq_true, climbsFrom_ofBytes, segments_lossy, leavesRoot_lossy, ofBytes_lossy_absolute,
    ofBytes_absolute]

/-- **A link is skipped as it should be** exactly if its target is absolute, does not lead above the
directory of the link, or leads out of the tree. -/
theorem safe_links_iff {E : ReceiverEngine} (hsafe : E.options.safeLinks = true) (e : FileEntry) :
    (E.createSymlink e = pure false ↔ e.linkTarget.head? = some slash ∨
        leavesRoot (linkDepth e.name) (segments e.linkTarget) = true) ↔
      e.linkTarget.head? = some slash ∨ (leavesRoot 0 (segments e.linkTarget) = true →
        leavesRoot (linkDepth e.name) (segments e.linkTarget) = true) := by
  have hskip : E.createSymlink e = pure false ↔
      e.linkTarget.head? = some slash ∨ leavesRoot 0 (segments e.linkTarget) = true := by
    rw [← isUnsafeSymlink_iff]
    unfold ReceiverEngine.createSymlink
    by_cases hunsafe : isUnsafeSymlink e.linkTarget = true
    · simp only [hsafe, hunsafe, and_self, if_true]
    · rw [if_neg (fun h => hunsafe h.2)]
      refine iff_of_false ?_ hunsafe
      split_ifs
      all_goals
        intro h
        cases h
  have hmono := @leavesRoot_mono (segments e.linkTarget) 0 (linkDepth e.name) (Nat.zero_le _)
  tauto

/-- The link `d/l` to `../x`, a file at the top. -/
def linkToTop : FileEntry :=
  { FileEntry.default with name := [100, slash, 108], linkTarget := [dot, dot, slash, 120] }

def safeEngine : ReceiverEngine :=
  ⟨⟨true, []⟩, { TransferConfig.default ⟨true, []⟩ with safeLinks := true }⟩

/-- The link is skipped, though it stays in the tree. -/
theorem safe_link_skipped :
    safeEngine.createSymlink linkToTop = pure false ∧
      linkToTop.linkTarget.head? ≠ some slash ∧
      leavesRoot (linkDepth linkToTop.name) (segments linkToTop.linkTarget) = false :=
  ⟨rfl, by decide, by decide⟩

theorem safe_links_linkToTop :
    ¬ (safeEngine.createSymlink linkToTop = pure false ↔
      linkToTop.linkTarget.head? = some slash ∨
        leavesRoot (linkDepth linkToTop.name) (segments linkToTop.linkTarget) = true) :=
  mt (safe_links_iff rfl linkToTop).mp (by decide)

end Ferrosync
