import Mathlib.Tactic

set_option autoImplicit false

/-! # Loops with failure, and their total-correctness rule

A `while` loop of the source becomes a step function on the loop's state, iterated by `loop`
with a bound on the number of iterations. Running out of the bound is an error of its own, so
a theorem that says "the loop returns" also says that the loop terminates.

* `loop diverged step n s`: at most `n` iterations of `step` from `s`;
* `loop_total`: an invariant with a decreasing measure gives a result;
* `loop_outcome`, `loop_partial`: an invariant holds of the result, if there is one;
* `loop_alike`: two loops whose steps are alike end alike.
-/

namespace Loop

variable {ε σ α : Type}

@[simp] theorem ok_bind {β : Type} (a : α) (f : α → Except ε β) :
    (Except.ok a >>= f) = f a := rfl

theorem pure_inj {a b : α} (h : (pure a : Except ε α) = .ok b) : a = b := Except.ok.inj h

/-- A sequence that returns has returned from its first part. -/
theorem except_bind_eq_ok {β : Type} {x : Except ε α} {f : α → Except ε β} {b : β}
    (h : (x >>= f) = .ok b) : ∃ a, x = .ok a ∧ f a = .ok b := by
  cases x with
  | error e => cases h
  | ok a => exact ⟨a, rfl, h⟩

/-- At most `n` iterations of `step`, which either continues with a new state or leaves the
loop with a value. -/
def loop (diverged : ε) (step : σ → Except ε (σ ⊕ α)) : Nat → σ → Except ε α
  | 0, _ => .error diverged
  | n + 1, s =>
    match step s with
    | .ok (.inl s') => loop diverged step n s'
    | .ok (.inr a) => .ok a
    | .error e => .error e

variable {diverged : ε} {step : σ → Except ε (σ ⊕ α)}

theorem loop_inl {n : Nat} {s s' : σ} (h : step s = .ok (.inl s')) :
    loop diverged step (n + 1) s = loop diverged step n s' := by
  rw [loop, h]

theorem loop_inr {n : Nat} {s : σ} {a : α} (h : step s = .ok (.inr a)) :
    loop diverged step (n + 1) s = .ok a := by
  rw [loop, h]

theorem loop_error {n : Nat} {s : σ} {e : ε} (h : step s = .error e) :
    loop diverged step (n + 1) s = .error e := by
  rw [loop, h]

/-- **Total correctness.** If every step from a state with the invariant `I` succeeds, and
either continues in `I` with a smaller measure or leaves with a value in `Q`, then the loop
returns a value in `Q`. -/
theorem loop_total (diverged : ε) (step : σ → Except ε (σ ⊕ α)) (I : σ → Prop) (Q : α → Prop)
    (m : σ → Nat)
    (hstep : ∀ s, I s →
      (∃ s', step s = .ok (.inl s') ∧ I s' ∧ m s' < m s) ∨
        ∃ a, step s = .ok (.inr a) ∧ Q a) :
    ∀ (n : Nat) (s : σ), I s → m s < n → ∃ a, loop diverged step n s = .ok a ∧ Q a
  | 0, _, _, hn => absurd hn (Nat.not_lt_zero _)
  | n + 1, s, hs, hn => by
    obtain ⟨s', hs', hI, hm⟩ | ⟨a, ha, hQ⟩ := hstep s hs
    · rw [loop_inl hs']
      exact loop_total diverged step I Q m hstep n s' hI (by omega)
    · exact ⟨a, loop_inr ha, hQ⟩

/-- **Outcomes.** What every step preserves, and what it means for a step to leave the loop or to
fail, decides what the loop can end with. -/
theorem loop_outcome {I : σ → Prop} {Q : α → Prop} {E : ε → Prop}
    (hnext : ∀ s s', I s → step s = .ok (.inl s') → I s')
    (hexit : ∀ s a, I s → step s = .ok (.inr a) → Q a)
    (herror : ∀ s e, I s → step s = .error e → E e) (hdiverged : E diverged) :
    ∀ (n : Nat) {s : σ}, I s →
      (∃ a, loop diverged step n s = .ok a ∧ Q a) ∨ ∃ e, loop diverged step n s = .error e ∧ E e
  | 0, _, _ => .inr ⟨diverged, rfl, hdiverged⟩
  | n + 1, s, hs => by
    cases hstep : step s with
    | error e => exact .inr ⟨e, loop_error hstep, herror s e hs hstep⟩
    | ok r =>
      cases r with
      | inl s' =>
        rw [loop_inl hstep]
        exact loop_outcome hnext hexit herror hdiverged n (hnext s s' hs hstep)
      | inr a => exact .inl ⟨a, loop_inr hstep, hexit s a hs hstep⟩

/-- **Partial correctness.** What every step preserves holds where the loop returns. -/
theorem loop_partial {I : σ → Prop} {Q : α → Prop}
    (hnext : ∀ s s', I s → step s = .ok (.inl s') → I s')
    (hexit : ∀ s a, I s → step s = .ok (.inr a) → Q a) (n : Nat) {s : σ} {a : α} (hs : I s)
    (h : loop diverged step n s = .ok a) : Q a := by
  rcases loop_outcome (E := fun _ => True) hnext hexit (fun _ _ _ _ => trivial) trivial n hs with
    ⟨b, hb, hQ⟩ | ⟨e, he, -⟩
  · rw [h] at hb
    cases hb
    exact hQ
  · rw [h] at he
    cases he

/-- The loop does not run out of its bound if every round decreases a measure. -/
theorem loop_bounded (d d' : ε) {m : σ → Nat} (hdecr : ∀ s s', step s = .ok (.inl s') → m s' < m s) :
    ∀ (n : Nat) (s : σ), m s < n → loop d step n s = loop d' step n s
  | 0, _, hn => absurd hn (Nat.not_lt_zero _)
  | n + 1, s, hn => by
    cases hstep : step s with
    | error e => rw [loop_error hstep, loop_error hstep]
    | ok r =>
      cases r with
      | inr a => rw [loop_inr hstep, loop_inr hstep]
      | inl s' =>
        rw [loop_inl hstep, loop_inl hstep]
        have hlt := hdecr s s' hstep
        exact loop_bounded d d' hdecr n s' (by omega)

/-! ## Two loops in step -/

section Alike

variable {ε' σ' α' : Type}

/-- Two results of one kind. -/
def Alike (E : ε → ε' → Prop) (Q : α → α' → Prop) : Except ε α → Except ε' α' → Prop
  | .ok a, .ok a' => Q a a'
  | .error e, .error e' => E e e'
  | _, _ => False

/-- **Simulation.** If the steps of two loops are alike from related states, the loops end
alike. -/
theorem loop_alike {d : ε} {d' : ε'} {step : σ → Except ε (σ ⊕ α)}
    {step' : σ' → Except ε' (σ' ⊕ α')} {I : σ → σ' → Prop} {Q : α → α' → Prop}
    {E : ε → ε' → Prop} (hstep : ∀ s s', I s s' → Alike E (Sum.LiftRel I Q) (step s) (step' s'))
    (hdiverged : E d d') :
    ∀ (n : Nat) {s : σ} {s' : σ'}, I s s' → Alike E Q (loop d step n s) (loop d' step' n s')
  | 0, _, _, _ => hdiverged
  | n + 1, s, s', h => by
    have hone := hstep s s' h
    rw [loop, loop]
    -- related results are both errors, or both go on, or both return
    cases hr : step s with
    | error e =>
      rw [hr] at hone
      cases hr' : step' s' with
      | error e' => rw [hr'] at hone; exact hone
      | ok r' => rw [hr'] at hone; exact hone.elim
    | ok r =>
      rw [hr] at hone
      cases hr' : step' s' with
      | error e' => rw [hr'] at hone; exact hone.elim
      | ok r' =>
        rw [hr'] at hone
        cases hone with
        | inl hI => exact loop_alike hstep hdiverged n hI
        | inr hQ => exact hQ

end Alike

end Loop
