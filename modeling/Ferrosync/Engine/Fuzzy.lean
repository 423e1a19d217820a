import Mathlib.Tactic

set_option autoImplicit false

/-! # The longest common subsequence

`longest_common_subsequence_len`, by which `--fuzzy` compares names: a table of which only two rows
are kept. A cell holds the length of the longest common subsequence of two beginnings
(`lcsLen_greatest`), and the loops fill the rows with the cells (`lcs_row`), so the last cell is the
answer (`longestCommonSubsequenceLen_greatest`).
-/

namespace Ferrosync

/-- The cell `j` of the row of the byte `x`. -/
def lcsCell (x : UInt8) (b : List UInt8) (prev curr : List Nat) (j : Nat) : List Nat :=
  curr.set j (if b.getD (j - 1) 0 = x then prev.getD (j - 1) 0 + 1
    else max (prev.getD j 0) (curr.getD (j - 1) 0))

/-- One row; the two rows are swapped, and the new one is cleared. -/
def lcsRow (b : List UInt8) (rows : List Nat × List Nat) (x : UInt8) : List Nat × List Nat :=
  ((List.range' 1 b.length).foldl (lcsCell x b rows.1) rows.2, List.replicate (b.length + 1) 0)

def longestCommonSubsequenceLen (a b : List UInt8) : Nat :=
  let zeros := List.replicate (b.length + 1) 0
  (a.foldl (lcsRow b) (zeros, zeros)).1.getD b.length 0

/-! ## The table -/

/-- The longest common subsequence of the reversed strings `a` and `b`. -/
def lcsLen : List UInt8 → List UInt8 → Nat
  | x :: a, y :: b => if y = x then lcsLen a b + 1 else max (lcsLen a (y :: b)) (lcsLen (x :: a) b)
  | _, _ => 0
  termination_by a b => a.length + b.length

/-- The lengths of the common subsequences. -/
def commonLengths (a b : List UInt8) : Set Nat :=
  {n | ∃ s : List UInt8, s.Sublist a ∧ s.Sublist b ∧ s.length = n}

theorem lcsLen_greatest (a b : List UInt8) : IsGreatest (commonLengths a b) (lcsLen a b) := by
  fun_induction lcsLen a b with
  -- a common head is part of a longest subsequence
  | case1 a x b ih =>
    obtain ⟨⟨s, hsa, hsb, hlen⟩, hmax⟩ := ih
    refine ⟨⟨x :: s, hsa.cons_cons x, hsb.cons_cons x, by simp [hlen]⟩, ?_⟩
    rintro n ⟨t, hta, htb, rfl⟩
    have htail := hmax ⟨t.tail, hta.tail, htb.tail, rfl⟩
    rw [List.length_tail] at htail
    omega
  -- of two different heads one is not used
  | case2 x a y b hne iha ihb =>
    have hcommon : commonLengths (x :: a) (y :: b) =
        commonLengths a (y :: b) ∪ commonLengths (x :: a) b := by
      ext n
      constructor
      · rintro ⟨s, hsa, hsb, hlen⟩
        cases hsa with
        | cons _ hsa => exact .inl ⟨s, hsa, hsb, hlen⟩
        | cons_cons _ hsa =>
          cases hsb with
          | cons _ hsb => exact .inr ⟨_, hsa.cons_cons x, hsb, hlen⟩
          | cons_cons _ _ => exact absurd rfl hne
      · rintro (⟨s, hsa, hsb, hlen⟩ | ⟨s, hsa, hsb, hlen⟩)
        · exact ⟨s, hsa.cons x, hsb, hlen⟩
        · exact ⟨s, hsa, hsb.cons y, hlen⟩
    rw [hcommon]
    exact iha.union ihb
  | case3 a b hne =>
    have hnil : ∀ s : List UInt8, s.Sublist a → s.Sublist b → s = [] := by
      intro s hsa hsb
      cases a with
      | nil => exact List.sublist_nil.mp hsa
      | cons x a =>
        cases b with
        | nil => exact List.sublist_nil.mp hsb
        | cons y b => exact (hne x a y b rfl rfl).elim
    refine ⟨⟨[], List.nil_sublist a, List.nil_sublist b, rfl⟩, ?_⟩
    rintro n ⟨s, hsa, hsb, rfl⟩
    rw [hnil s hsa hsb]
    exact Nat.le_refl 0

/-- The length for beginnings of two strings. -/
def lcsPrefix (a b : List UInt8) : Nat := lcsLen a.reverse b.reverse

theorem lcsPrefix_nil (a : List UInt8) : lcsPrefix a [] = 0 := by
  cases h : a.reverse <;> simp [lcsPrefix, lcsLen, h]

theorem lcsPrefix_concat (a b : List UInt8) (x y : UInt8) :
    lcsPrefix (a ++ [x]) (b ++ [y]) =
      if y = x then lcsPrefix a b + 1 else max (lcsPrefix a (b ++ [y])) (lcsPrefix (a ++ [x]) b) := by
  simp [lcsPrefix, lcsLen]

/-- The row of `a`, filled up to the cell `m`. -/
def lcsFilled (a b : List UInt8) (m : Nat) : List Nat :=
  (List.range (b.length + 1)).map fun j => if j ≤ m then lcsPrefix a (b.take j) else 0

theorem getD_lcsFilled {a b : List UInt8} {m j : Nat} (hj : j ≤ b.length) :
    (lcsFilled a b m).getD j 0 = if j ≤ m then lcsPrefix a (b.take j) else 0 := by
  simp [lcsFilled, List.getD, Nat.lt_succ_of_le hj]

/-- **One cell** from the cells above and to the left. -/
theorem lcsCell_filled {a b : List UInt8} {x : UInt8} {m : Nat} (hm : m < b.length) :
    lcsCell x b (lcsFilled a b b.length) (lcsFilled (a ++ [x]) b m) (m + 1) =
      lcsFilled (a ++ [x]) b (m + 1) := by
  have htake : b.take (m + 1) = b.take m ++ [b.getD m 0] := by
    rw [List.take_add_one, List.getElem?_eq_getElem hm]
    simp [List.getD, hm]
  have hcell : (if b.getD m 0 = x then (lcsFilled a b b.length).getD m 0 + 1
      else max ((lcsFilled a b b.length).getD (m + 1) 0) ((lcsFilled (a ++ [x]) b m).getD m 0)) =
      lcsPrefix (a ++ [x]) (b.take (m + 1)) := by
    have hm' : m + 1 ≤ b.length := hm
    rw [getD_lcsFilled hm.le, getD_lcsFilled hm', getD_lcsFilled hm.le, if_pos hm.le, if_pos hm',
      if_pos (Nat.le_refl m), htake, lcsPrefix_concat]
  rw [lcsCell, Nat.add_sub_cancel, hcell]
  refine List.ext_getElem (by simp [lcsFilled]) fun j h₁ h₂ => ?_
  rw [List.getElem_set]
  split_ifs with hj
  · simp [lcsFilled, ← hj]
  · simp only [lcsFilled, List.getElem_map, List.getElem_range]
    split_ifs <;> first | rfl | omega

theorem lcs_row {a b : List UInt8} {x : UInt8} :
    lcsRow b (lcsFilled a b b.length, List.replicate (b.length + 1) 0) x =
      (lcsFilled (a ++ [x]) b b.length, List.replicate (b.length + 1) 0) := by
  have hstart : List.replicate (b.length + 1) 0 = lcsFilled (a ++ [x]) b 0 := by
    refine List.ext_getElem (by simp [lcsFilled]) fun j h₁ h₂ => ?_
    cases j <;> simp [lcsFilled, lcsPrefix_nil]
  have hfill : ∀ m ≤ b.length, (List.range' 1 m).foldl (lcsCell x b (lcsFilled a b b.length))
      (lcsFilled (a ++ [x]) b 0) = lcsFilled (a ++ [x]) b m := by
    intro m hm
    induction m with
    | zero => rfl
    | succ m ih =>
      rw [List.range'_concat, List.foldl_append, ih (by omega), Nat.one_mul, Nat.add_comm 1 m]
      exact lcsCell_filled hm
  unfold lcsRow
  dsimp only
  rw [hstart, hfill b.length (Nat.le_refl _)]

/-- **The longest common subsequence.** -/
theorem longestCommonSubsequenceLen_greatest (a b : List UInt8) :
    IsGreatest (commonLengths a b) (longestCommonSubsequenceLen a b) := by
  -- row by row: behind the first `a₁` bytes the row holds the lengths for `a₁`
  have hrows : ∀ a₁ a₂ : List UInt8,
      a₂.foldl (lcsRow b) (lcsFilled a₁ b b.length, List.replicate (b.length + 1) 0) =
        (lcsFilled (a₁ ++ a₂) b b.length, List.replicate (b.length + 1) 0) := by
    intro a₁ a₂
    induction a₂ generalizing a₁ with
    | nil => rw [List.foldl_nil, List.append_nil]
    | cons x a₂ ih => rw [List.foldl_cons, lcs_row, ih, List.append_assoc, List.singleton_append]
  have hzero : List.replicate (b.length + 1) 0 = lcsFilled [] b b.length := by
    refine List.ext_getElem (by simp [lcsFilled]) fun j h₁ h₂ => ?_
    simp [lcsFilled, lcsPrefix, lcsLen]
  have hlen : longestCommonSubsequenceLen a b = lcsPrefix a b := by
    have hlast := hrows [] a
    rw [← hzero, List.nil_append] at hlast
    rw [longestCommonSubsequenceLen, hlast, getD_lcsFilled (Nat.le_refl _), if_pos (Nat.le_refl _),
      List.take_length]
  -- the table grows at the ends of the texts, the recursion at their heads
  have hreverse : commonLengths a.reverse b.reverse = commonLengths a b := by
    ext n
    constructor
    · rintro ⟨s, hsa, hsb, rfl⟩
      exact ⟨s.reverse, by simpa using hsa.reverse, by simpa using hsb.reverse, s.length_reverse⟩
    · rintro ⟨s, hsa, hsb, rfl⟩
      exact ⟨s.reverse, hsa.reverse, hsb.reverse, s.length_reverse⟩
  rw [hlen, ← hreverse]
  exact lcsLen_greatest a.reverse b.reverse

end Ferrosync
