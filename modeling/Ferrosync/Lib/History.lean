import Ferrosync.Lib.Interaction

set_option autoImplicit false

/-! # Programs with a history

What a program may ask for often depends on what it has asked for before. A *history* is a value
that advances with every operation and its reply; `SafeFrom` is `Safe` with operations allowed by
the history reached. `Par.run_history` is the rule for two programs that each keep a history: an
invariant that ties the two histories to the state of the environment holds along every run.
-/

namespace Interaction

section One

variable {Op : Type} {Reply : Op → Type} {γ α β : Type}

/-- From the history `g` on, `p` asks only for operations that `Q` allows at the history they are
asked at, provided that the replies are in `R`; `post` is about the last history and the value. -/
def SafeFrom (next : γ → (op : Op) → Reply op → γ) (Q : γ → Op → Prop)
    (R : (op : Op) → Reply op → Prop) (post : γ → α → Prop) : γ → Prog Op Reply α → Prop
  | g, .pure a => post g a
  | g, .ask op k => Q g op ∧ ∀ r, R op r → SafeFrom next Q R post (next g op r) (k r)

variable {next : γ → (op : Op) → Reply op → γ} {Q : γ → Op → Prop}
  {R : (op : Op) → Reply op → Prop} {g : γ}

theorem SafeFrom.bind {mid : γ → α → Prop} {post : γ → β → Prop} {f : α → Prog Op Reply β} :
    ∀ {p : Prog Op Reply α} {g : γ}, SafeFrom next Q R mid g p →
      (∀ g a, mid g a → SafeFrom next Q R post g (f a)) → SafeFrom next Q R post g (p >>= f)
  | .pure a, g, hp, hf => hf g a hp
  | .ask _ _, _, hp, hf => ⟨hp.1, fun r hr => SafeFrom.bind (hp.2 r hr) hf⟩

theorem SafeFrom.mono {post post' : γ → α → Prop} (h : ∀ g a, post g a → post' g a) :
    ∀ {p : Prog Op Reply α} {g : γ}, SafeFrom next Q R post g p → SafeFrom next Q R post' g p
  | .pure a, g, hp => h g a hp
  | .ask _ _, _, hp => ⟨hp.1, fun r hr => SafeFrom.mono h (hp.2 r hr)⟩

/-- A program whose operations leave the history alone. -/
theorem Safe.safeFrom {Q₀ : Op → Prop} {post : α → Prop}
    (hstay : ∀ op, Q₀ op → Q g op ∧ ∀ r, next g op r = g) :
    ∀ {p : Prog Op Reply α}, Safe Q₀ R post p →
      SafeFrom next Q R (fun g' a => g' = g ∧ post a) g p
  | .pure _, hp => ⟨rfl, hp⟩
  | .ask op _, hp => by
    refine ⟨(hstay op hp.1).1, fun r hr => ?_⟩
    rw [(hstay op hp.1).2 r]
    exact Safe.safeFrom hstay (hp.2 r hr)

/-! ## Programs that may fail -/

variable {ε : Type}

/-- `SafeFrom` for a program that may fail; nothing is said of the history at a failure. -/
def SafeFromE (next : γ → (op : Op) → Reply op → γ) (Q : γ → Op → Prop)
    (R : (op : Op) → Reply op → Prop) (post : γ → α → Prop) (g : γ)
    (p : Fallible Op Reply ε α) : Prop :=
  SafeFrom next Q R (fun g r => ∀ a, r = .ok a → post g a) g p.run

theorem SafeFromE.pure {post : γ → α → Prop} {a : α} (h : post g a) :
    SafeFromE next Q R post g (Pure.pure a : Fallible Op Reply ε α) := by
  intro b hb
  cases hb
  exact h

theorem SafeFromE.throw {post : γ → α → Prop} (e : ε) :
    SafeFromE next Q R post g (MonadExcept.throw e : Fallible Op Reply ε α) := by
  intro b hb
  cases hb

theorem SafeFromE.bind {mid : γ → α → Prop} {post : γ → β → Prop} {p : Fallible Op Reply ε α}
    {f : α → Fallible Op Reply ε β} (hp : SafeFromE next Q R mid g p)
    (hf : ∀ g a, mid g a → SafeFromE next Q R post g (f a)) :
    SafeFromE next Q R post g (p >>= f) := by
  refine SafeFrom.bind hp ?_
  intro g r hr
  cases r with
  | error e =>
    intro b hb
    cases hb
  | ok a => exact hf g a (hr a rfl)

/-- One operation, then the rest. -/
theorem SafeFromE.perform_bind {post : γ → β → Prop} {op : Op}
    {f : Reply op → Fallible Op Reply ε β} (hop : Q g op)
    (hf : ∀ r, R op r → SafeFromE next Q R post (next g op r) (f r)) :
    SafeFromE next Q R post g (ExceptT.lift (Prog.perform op) >>= f) := ⟨hop, hf⟩

/-- A program that may fail, whose operations leave the history alone. -/
theorem SafeE.safeFromE {Q₀ : Op → Prop} {post : α → Prop} {p : Fallible Op Reply ε α}
    (hstay : ∀ op, Q₀ op → Q g op ∧ ∀ r, next g op r = g) (hp : SafeE Q₀ R post p) :
    SafeFromE next Q R (fun g' a => g' = g ∧ post a) g p := by
  refine SafeFrom.mono ?_ (Safe.safeFrom hstay hp)
  rintro g' r ⟨hg, hr⟩ a ha
  exact ⟨hg, hr a ha⟩

theorem SafeE.safeFromE_run {Q₀ : Op → Prop} {post : α → Prop} {p : Fallible Op Reply ε α}
    (hstay : ∀ op, Q₀ op → Q g op ∧ ∀ r, next g op r = g) (hp : SafeE Q₀ R post p) :
    SafeFromE next Q R (fun g' r => g' = g ∧ ∀ a, r = .ok a → post a) g
      (ExceptT.lift p.run : Fallible Op Reply ε (Except ε α)) := by
  refine SafeFrom.bind (Safe.safeFrom hstay hp) ?_
  intro g' r hr b hb
  cases hb
  exact hr

end One

/-! ## Two programs -/

section Two

variable {σ Op : Type} {Reply : Op → Type} {α β γL γR : Type}
  {nextL : γL → (op : Op) → Reply op → γL} {nextR : γR → (op : Op) → Reply op → γR}
  {QL : γL → Op → Prop} {QR : γR → Op → Prop} {R : (op : Op) → Reply op → Prop}
  {postL : γL → α → Prop} {postR : γR → β → Prop} {env : Env σ Op Reply}

/-- **Two programs with histories.** Let every step of the left program keep the invariant when
its history advances, and every step of the right program likewise. Then every operation of a run
is asked for in a state with the invariant, at histories that allow it to the program that asks. -/
theorem Par.run_history {I : σ → γL → γR → Prop}
    (hleft : ∀ {s s' gl gr op r}, I s gl gr → QL gl op → env s op r s' →
      R op r ∧ I s' (nextL gl op r) gr)
    (hright : ∀ {s s' gl gr op r}, I s gl gr → QR gr op → env s op r s' →
      R op r ∧ I s' gl (nextR gr op r))
    {c c' : Par σ Op Reply α β} {es : List (Event σ Op)} (hrun : Par.Run env c es c') :
    ∀ {gl gr}, I c.state gl gr → SafeFrom nextL QL R postL gl c.left →
      SafeFrom nextR QR R postR gr c.right →
      ∀ e ∈ es, ∃ gl gr, I e.before gl gr ∧ (QL gl e.op ∨ QR gr e.op) := by
  induction hrun with
  | refl c => simp
  | step hstep _ ih =>
    intro gl gr hI hl hr
    rw [List.forall_mem_cons]
    -- the history of the side that did not step stays as it is
    cases hstep with
    | left h =>
      obtain ⟨hR, hI'⟩ := hleft hI hl.1 h
      exact ⟨⟨gl, gr, hI, Or.inl hl.1⟩, ih hI' (hl.2 _ hR) hr⟩
    | right h =>
      obtain ⟨hR, hI'⟩ := hright hI hr.1 h
      exact ⟨⟨gl, gr, hI, Or.inr hr.1⟩, ih hI' hl (hr.2 _ hR)⟩

end Two

end Interaction
