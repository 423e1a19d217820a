import Mathlib.Tactic

set_option autoImplicit false

/-! # Lexicographic comparison and common beginnings

`List.compareLex c` compares two lists at the first place where they differ, and a list comes before
its continuations.

* `compareLex_append_left`: a common beginning does not matter;
* `compareLex_of_prefix`: a list comes before its proper continuations;
* `prefix_of_between`: what lies between two lists with the same beginning has it as well;
* `pairwise_mergeSort_isLE`: sorting by a comparison.
-/

namespace LexOrder

open Std

variable {α : Type} {c : α → α → Ordering}

theorem compareLex_append_left [ReflCmp c] (p x y : List α) :
    List.compareLex c (p ++ x) (p ++ y) = List.compareLex c x y := by
  induction p with
  | nil => rfl
  | cons a p ih =>
    have hself : c a a = .eq := ReflCmp.compare_self
    simp [List.cons_append, List.compareLex_cons_cons, hself, ih]

theorem compareLex_of_prefix [ReflCmp c] {p x : List α} (h : p <+: x) (hne : p ≠ x) :
    List.compareLex c p x = .lt := by
  obtain ⟨t, rfl⟩ := h
  have hdrop : List.compareLex c (p ++ []) (p ++ t) = List.compareLex c [] t :=
    compareLex_append_left p [] t
  rw [List.append_nil] at hdrop
  rw [hdrop]
  cases t with
  | nil => exact absurd (List.append_nil p).symm hne
  | cons a t => rfl

/-- What lies between two lists with a common beginning has this beginning. -/
theorem prefix_of_between [TransCmp c] [LawfulEqCmp c] {p x y z : List α} (hx : p <+: x)
    (hz : p <+: z) (hxy : (List.compareLex c x y).isLE) (hyz : (List.compareLex c y z).isLE) :
    p <+: y := by
  induction p generalizing x y z with
  | nil => exact List.nil_prefix
  | cons a p ih =>
    obtain ⟨x, rfl⟩ := hx
    obtain ⟨z, rfl⟩ := hz
    cases y with
    | nil => cases hxy
    | cons b y =>
      rw [List.cons_append, List.compareLex_cons_cons, Ordering.isLE_then_iff_and] at hxy hyz
      obtain ⟨hab, hrest⟩ := hxy
      obtain ⟨hba, hrest'⟩ := hyz
      -- the heads are squeezed: `a ≤ b ≤ a`
      have heq : c a b = .eq := OrientedCmp.isLE_antisymm hab hba
      obtain rfl : a = b := LawfulEqCmp.eq_of_compare heq
      rw [heq] at hrest hrest'
      have hbetween := ih (List.prefix_append p x) (List.prefix_append p z)
        (hrest.resolve_left nofun) (hrest'.resolve_left nofun)
      simp
      omega

theorem pairwise_mergeSort_isLE [TransCmp c] (xs : List α) :
    (xs.mergeSort fun a b => (c a b).isLE).Pairwise fun a b => (c a b).isLE = true := by
  have htrans : ∀ x y z, (c x y).isLE = true → (c y z).isLE = true → (c x z).isLE = true :=
    fun _ _ _ => TransCmp.isLE_trans
  have htotal : ∀ x y, ((c x y).isLE || (c y x).isLE) = true := by
    intro x y
    have hswap : c x y = (c y x).swap := OrientedCmp.eq_swap
    rw [hswap]
    cases c y x <;> rfl
  exact List.pairwise_mergeSort htrans htotal xs

end LexOrder
