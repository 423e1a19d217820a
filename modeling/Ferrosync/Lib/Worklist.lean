import Mathlib.Tactic

set_option autoImplicit false

/-! # Work lists

The front of a queue is taken off and its successors are queued behind the rest, until nothing is
left. Nothing is marked, so that an item that is queued twice is taken off twice.

* `drain next n done queue`: at most `n` rounds;
* `drain_order`: what was taken off and what waits are the start and the successors of what was
  taken off, in this order;
* `drain_empties`: the queue runs empty if every item outweighs its successors;
* `countP_flatMap_of_parent`: how often an item with one parent is a successor.
-/

namespace Worklist

variable {α β : Type}

/-- At most `n` rounds: the items taken off, and those that still wait. -/
def drain (next : α → List α) : Nat → List α → List α → List α × List α
  | 0, done, queue => (done, queue)
  | _ + 1, done, [] => (done, [])
  | n + 1, done, x :: queue => drain next n (done ++ [x]) (queue ++ next x)

/-- Items come off the queue in the order in which they were put there. -/
theorem drain_order {next : α → List α} {roots : List α} (n : Nat) :
    ∀ done queue : List α, done ++ queue = roots ++ done.flatMap next →
      (drain next n done queue).1 ++ (drain next n done queue).2 =
        roots ++ (drain next n done queue).1.flatMap next := by
  induction n with
  | zero => exact fun _ _ h => h
  | succ n ih =>
    intro done queue h
    cases queue with
    | nil => exact h
    | cons x queue =>
      apply ih
      calc done ++ [x] ++ (queue ++ next x)
          = (done ++ x :: queue) ++ next x := by simp
        _ = roots ++ done.flatMap next ++ next x := by rw [h]
        _ = roots ++ (done ++ [x]).flatMap next := by simp

/-- If every item outweighs its successors, the weight of the queue bounds the rounds. -/
theorem drain_empties {next : α → List α} {weight : α → Nat}
    (hweight : ∀ x, ((next x).map weight).sum < weight x) (n : Nat) :
    ∀ done queue : List α, (queue.map weight).sum ≤ n → (drain next n done queue).2 = [] := by
  induction n with
  | zero =>
    intro done queue h
    cases queue with
    | nil => rfl
    | cons x queue =>
      have := hweight x
      simp at h
      omega
  | succ n ih =>
    intro done queue h
    cases queue with
    | nil => rfl
    | cons x queue =>
      -- the item leaves the queue with more weight than its successors bring
      apply ih
      have := hweight x
      rw [List.map_cons, List.sum_cons] at h
      simp
      omega

/-- An item that is a successor of the items with the key `k` only, and `times` times of each. -/
theorem countP_flatMap_of_parent [DecidableEq β] {next : α → List α} {q : α → Bool} {key : α → β}
    {k : β} {times : Nat} (h : ∀ x, (next x).countP q = if key x = k then times else 0)
    (done : List α) :
    (done.flatMap next).countP q = done.countP (fun x => key x = k) * times := by
  induction done with
  | nil => simp
  | cons x done ih =>
    rw [List.flatMap_cons, List.countP_append, ih, h x]
    by_cases hx : key x = k
    · simp [hx, Nat.add_mul, Nat.add_comm]
    · simp [hx]

end Worklist
