import Mathlib.Tactic

set_option autoImplicit false

/-! # Programs that ask an environment, alone and in pairs

A program is a tree of requests: it asks its environment to perform an operation, goes on with
the reply, and in the end returns a value. The environment is a relation, so it may refuse an
operation in some states, and be shared by two programs that take turns in any order.

* `Prog Op Reply α`, a monad with `perform`;
* `Safe Q R post p`: `p` only asks for operations in `Q`, as long as the replies are in `R`;
  `SafeE` for programs that may fail;
* `Runs`, `Returns`: a program alone over an environment, from its first state to its last;
  `Performs` is about a run that stops on the way;
* `Par.Run`: the interleavings of two programs over one environment;
* `Par.Can`: runs put together, step by step or from the runs of the two programs alone;
* `Par.run_safe`: two safe programs whose environment keeps an invariant stay safe together.
-/

namespace Interaction

section Prog

variable {Op : Type} {Reply : Op → Type} {α β : Type}

/-- A program over the operations `Op`. -/
inductive Prog (Op : Type) (Reply : Op → Type) (α : Type) : Type where
  | pure (a : α)
  | ask (op : Op) (next : Reply op → Prog Op Reply α)

namespace Prog

def bind : Prog Op Reply α → (α → Prog Op Reply β) → Prog Op Reply β
  | .pure a, f => f a
  | .ask op next, f => .ask op fun r => (next r).bind f

instance : Monad (Prog Op Reply) where
  pure := .pure
  bind := Prog.bind

/-- Ask for one operation and return its reply. -/
def perform (op : Op) : Prog Op Reply (Reply op) := .ask op .pure

@[simp] theorem ask_bind (op : Op) (next : Reply op → Prog Op Reply α) (f : α → Prog Op Reply β) :
    (Prog.ask op next >>= f) = .ask op fun r => next r >>= f := rfl

end Prog

/-! ## Safety of one program -/

/-- `p` asks only for operations in `Q` and returns only values in `post`, provided that every
reply to an operation is in `R`. -/
def Safe (Q : Op → Prop) (R : (op : Op) → Reply op → Prop) (post : α → Prop) :
    Prog Op Reply α → Prop
  | .pure a => post a
  | .ask op next => Q op ∧ ∀ r, R op r → Safe Q R post (next r)

variable {Q : Op → Prop} {R : (op : Op) → Reply op → Prop}

variable {f : α → Prog Op Reply β}

/-- The rule of sequence. -/
theorem Safe.bind {mid : α → Prop} {post : β → Prop} :
    ∀ {p : Prog Op Reply α}, Safe Q R mid p → (∀ a, mid a → Safe Q R post (f a)) →
      Safe Q R post (p >>= f)
  | .pure a, hp, hf => hf a hp
  | .ask _ _, hp, hf => ⟨hp.1, fun r hr => Safe.bind (hp.2 r hr) hf⟩

theorem Safe.of_bind {post : β → Prop} :
    ∀ {p : Prog Op Reply α}, Safe Q R post (p >>= f) → Safe Q R (fun _ => True) p
  | .pure _, _ => trivial
  | .ask _ _, hp => ⟨hp.1, fun r hr => Safe.of_bind (hp.2 r hr)⟩

theorem Safe.weaken {Q' : Op → Prop} {post : α → Prop} (h : ∀ op, Q op → Q' op) :
    ∀ {p : Prog Op Reply α}, Safe Q R post p → Safe Q' R post p
  | .pure _, hp => hp
  | .ask op _, hp => ⟨h op hp.1, fun r hr => Safe.weaken h (hp.2 r hr)⟩

theorem Safe.mono {post post' : α → Prop} (h : ∀ a, post a → post' a) :
    ∀ {p : Prog Op Reply α}, Safe Q R post p → Safe Q R post' p
  | .pure a, hp => h a hp
  | .ask _ _, hp => ⟨hp.1, fun r hr => Safe.mono h (hp.2 r hr)⟩

/-! ## Programs that may fail -/

/-- Programs with early return, as `ExceptT` gives them. -/
abbrev Fallible (Op : Type) (Reply : Op → Type) (ε α : Type) : Type :=
  ExceptT ε (Prog Op Reply) α

/-- Safety of a program that may fail; `post` is about the values it returns. -/
def SafeE {ε : Type} (Q : Op → Prop) (R : (op : Op) → Reply op → Prop) (post : α → Prop)
    (p : Fallible Op Reply ε α) : Prop :=
  Safe Q R (fun r => ∀ a, r = .ok a → post a) p.run

section Fallible

variable {ε : Type}

theorem SafeE.pure {post : α → Prop} {a : α} (h : post a) :
    SafeE Q R post (Pure.pure a : Fallible Op Reply ε α) := by
  intro b hb
  cases hb
  exact h

theorem SafeE.throw {post : α → Prop} (e : ε) :
    SafeE Q R post (MonadExcept.throw e : Fallible Op Reply ε α) := by
  intro b hb
  cases hb

theorem SafeE.lift {post : α → Prop} {p : Prog Op Reply α} (h : Safe Q R post p) :
    SafeE Q R post (ExceptT.lift p : Fallible Op Reply ε α) := by
  refine Safe.bind h ?_
  intro a ha b hb
  cases hb
  exact ha

variable {f : α → Fallible Op Reply ε β} {p : Fallible Op Reply ε α}

theorem SafeE.bind {mid : α → Prop} {post : β → Prop} (hp : SafeE Q R mid p)
    (hf : ∀ a, mid a → SafeE Q R post (f a)) : SafeE Q R post (p >>= f) := by
  refine Safe.bind hp ?_
  intro r hr
  cases r with
  | error e =>
    intro b hb
    cases hb
  | ok a => exact hf a (hr a rfl)

theorem SafeE.of_bind {post : β → Prop} (h : SafeE Q R post (p >>= f)) :
    SafeE Q R (fun _ => True) p :=
  Safe.mono (fun _ _ _ _ => trivial) (Safe.of_bind h)

theorem SafeE.ite {c : Prop} [Decidable c] {post : α → Prop} {q : Fallible Op Reply ε α}
    (hp : c → SafeE Q R post p) (hq : ¬ c → SafeE Q R post q) :
    SafeE Q R post (if c then p else q) := by
  split_ifs with h
  · exact hp h
  · exact hq h

theorem SafeE.mono {post post' : α → Prop} (hp : SafeE Q R post p) (h : ∀ a, post a → post' a) :
    SafeE Q R post' p :=
  Safe.mono (fun _ hr a ha => h a (hr a ha)) hp

end Fallible

theorem Prog.bind_assoc {γ : Type} (p : Prog Op Reply α) (f : α → Prog Op Reply β)
    (g : β → Prog Op Reply γ) : (p >>= f) >>= g = p >>= fun a => f a >>= g := by
  induction p with
  | pure a => rfl
  | ask op next ih =>
    simpa using funext ih

end Prog

/-! ## One program over an environment -/

section Runs

variable {σ Op : Type} {Reply : Op → Type} {α β : Type}

/-- What an environment may do: from a state, answer an operation and move to a new state. -/
def Env (σ Op : Type) (Reply : Op → Type) : Type := σ → (op : Op) → Reply op → σ → Prop

/-- A program runs to its end: from the first state, to a value and the last state. -/
inductive Runs (env : Env σ Op Reply) : σ → Prog Op Reply α → α → σ → Prop
  | pure {s a} : Runs env s (.pure a) a s
  | ask {s s' s'' op next a} {r : Reply op} (h : env s op r s') (rest : Runs env s' (next r) a s'') :
      Runs env s (.ask op next) a s''

variable {env : Env σ Op Reply} {s s' : σ}

variable {p : Prog Op Reply α}

theorem runs_bind {f : α → Prog Op Reply β} {b : β} :
    Runs env s (p >>= f) b s' ↔ ∃ a mid, Runs env s p a mid ∧ Runs env mid (f a) b s' := by
  constructor
  · intro h
    induction p generalizing s with
    | pure a => exact ⟨a, s, .pure, h⟩
    | ask op next ih =>
      cases h with
      | ask henv hrest =>
        obtain ⟨a, mid, hp, hf⟩ := ih _ hrest
        exact ⟨a, mid, .ask henv hp, hf⟩
  · rintro ⟨a, mid, hp, hf⟩
    induction hp with
    | pure => exact hf
    | ask henv _ ih => exact .ask henv (ih hf)

/-- A program that may fail returns a value. -/
def Returns {ε : Type} (env : Env σ Op Reply) (s : σ) (p : Fallible Op Reply ε α) (a : α) (s' : σ) :
    Prop :=
  Runs env s p.run (.ok a) s'

section Returns

variable {ε : Type}

theorem returns_pure {a b : α} :
    Returns env s (pure a : Fallible Op Reply ε α) b s' ↔ b = a ∧ s' = s := by
  constructor
  · rintro ⟨⟩
    exact ⟨rfl, rfl⟩
  · rintro ⟨rfl, rfl⟩
    exact .pure

theorem returns_bind {p : Fallible Op Reply ε α} {f : α → Fallible Op Reply ε β} {b : β} :
    Returns env s (p >>= f) b s' ↔ ∃ a mid, Returns env s p a mid ∧ Returns env mid (f a) b s' := by
  constructor
  · intro h
    obtain ⟨r, mid, hp, hf⟩ := runs_bind.mp h
    cases r with
    | error e => exact absurd hf nofun
    | ok a => exact ⟨a, mid, hp, hf⟩
  · rintro ⟨a, mid, hp, hf⟩
    exact runs_bind.mpr ⟨.ok a, mid, hp, hf⟩

theorem returns_lift {p : Prog Op Reply α} {a : α} :
    Returns env s (ExceptT.lift p : Fallible Op Reply ε α) a s' ↔ Runs env s p a s' := by
  constructor
  · intro h
    obtain ⟨b, mid, hp, hb⟩ := runs_bind.mp h
    cases hb
    exact hp
  · exact fun h => runs_bind.mpr ⟨a, s', h, .pure⟩

theorem runs_perform {op : Op} {r : Reply op} : Runs env s (Prog.perform op) r s' ↔ env s op r s' := by
  constructor
  · rintro (_ | ⟨henv, ⟨⟩⟩)
    exact henv
  · exact fun h => .ask h .pure

theorem Returns.bind {p : Fallible Op Reply ε α} {f : α → Fallible Op Reply ε β} {a : α} {b : β}
    {mid : σ} (hp : Returns env s p a mid) (hf : Returns env mid (f a) b s') :
    Returns env s (p >>= f) b s' :=
  returns_bind.mpr ⟨a, mid, hp, hf⟩

end Returns

/-- A safe program runs to its end where every operation it may ask for is answered in place, by
a reply that its safety allows for. -/
theorem Safe.runs {Q : Op → Prop} {R : (op : Op) → Reply op → Prop} {post : α → Prop}
    (hanswer : ∀ op, Q op → ∃ r, R op r ∧ env s op r s) (h : Safe Q R post p) :
    ∃ a, Runs env s p a s ∧ post a := by
  induction p with
  | pure a => exact ⟨a, .pure, h⟩
  | ask op next ih =>
    obtain ⟨r, hr, henv⟩ := hanswer op h.1
    obtain ⟨a, hruns, hpost⟩ := ih r (h.2 r hr)
    exact ⟨a, .ask henv hruns, hpost⟩

/-- Some run of the program performs an operation in `Q`; what comes after it is left open, so
this also holds of a program that never ends. -/
inductive Performs (env : Env σ Op Reply) (Q : Op → Prop) : σ → Prog Op Reply α → Prop
  | now {s s' op next} {r : Reply op} (h : env s op r s') (hQ : Q op) :
      Performs env Q s (.ask op next)
  | later {s s' op next} {r : Reply op} (h : env s op r s') (rest : Performs env Q s' (next r)) :
      Performs env Q s (.ask op next)

variable {Q : Op → Prop} {f : α → Prog Op Reply β}

theorem Performs.bind_left (h : Performs env Q s p) : Performs env Q s (p >>= f) := by
  induction h with
  | now h hQ => exact .now h hQ
  | later h _ ih => exact .later h ih

theorem Performs.bind_right {a : α} (hp : Runs env s p a s') (h : Performs env Q s' (f a)) :
    Performs env Q s (p >>= f) := by
  induction hp with
  | pure => exact h
  | ask henv _ ih => exact .later henv (ih h)

/-- The same for a program that may fail. -/
def PerformsE {ε : Type} (env : Env σ Op Reply) (Q : Op → Prop) (s : σ)
    (p : Fallible Op Reply ε α) : Prop :=
  Performs env Q s p.run

section PerformsE

variable {ε : Type} {m : Fallible Op Reply ε α} {g : α → Fallible Op Reply ε β}

theorem PerformsE.bind_left (h : PerformsE env Q s m) : PerformsE env Q s (m >>= g) :=
  Performs.bind_left h

theorem PerformsE.bind_right {a : α} (hm : Returns env s m a s') (h : PerformsE env Q s' (g a)) :
    PerformsE env Q s (m >>= g) :=
  Performs.bind_right hm h

theorem PerformsE.lift (h : Performs env Q s p) :
    PerformsE env Q s (ExceptT.lift p : Fallible Op Reply ε α) :=
  h.bind_left

end PerformsE

end Runs

/-! ## Two programs over one environment -/

section Par

variable {σ Op : Type} {Reply : Op → Type} {α β : Type}

/-- Two programs and the state of the environment they share. -/
structure Par (σ Op : Type) (Reply : Op → Type) (α β : Type) where
  state : σ
  left : Prog Op Reply α
  right : Prog Op Reply β

/-- An operation that has been performed, with the state it was performed in. -/
structure Event (σ Op : Type) where
  before : σ
  op : Op
  after : σ

namespace Par

/-- One of the two programs takes its next step. -/
inductive Step (env : Env σ Op Reply) : Par σ Op Reply α β → Event σ Op → Par σ Op Reply α β → Prop
  | left {s s' op next q} {r : Reply op} (h : env s op r s') :
      Step env ⟨s, .ask op next, q⟩ ⟨s, op, s'⟩ ⟨s', next r, q⟩
  | right {s s' op next p} {r : Reply op} (h : env s op r s') :
      Step env ⟨s, p, .ask op next⟩ ⟨s, op, s'⟩ ⟨s', p, next r⟩

/-- A run, with its events in order. -/
inductive Run (env : Env σ Op Reply) :
    Par σ Op Reply α β → List (Event σ Op) → Par σ Op Reply α β → Prop
  | refl (c) : Run env c [] c
  | step {c c' c'' e es} (h : Step env c e c') (rest : Run env c' es c'') : Run env c (e :: es) c''

variable {c c' : Par σ Op Reply α β} {env : Env σ Op Reply}

/-- **Safety of a pair.** Let every step of a run, taken in a state with the invariant for an
operation in `Q`, keep the invariant and be answered within `R`. Then two programs that are safe
on their own perform only operations in `Q`, each in a state with the invariant. -/
theorem run_safe {I : σ → Prop} {Q : Op → Prop} {R : (op : Op) → Reply op → Prop} {postL : α → Prop}
    {postR : β → Prop} {es : List (Event σ Op)} (hrun : Run env c es c')
    (henv : ∀ e ∈ es, I e.before → Q e.op → ∀ r, env e.before e.op r e.after →
      R e.op r ∧ I e.after) :
    I c.state → Safe Q R postL c.left → Safe Q R postR c.right →
      ∀ e ∈ es, I e.before ∧ Q e.op := by
  induction hrun with
  | refl c => simp
  | step hstep _ ih =>
    intro hI hl hr
    rw [List.forall_mem_cons] at henv ⊢
    obtain ⟨hfirst, hrest⟩ := henv
    cases hstep with
    | left h =>
      obtain ⟨hR, hI'⟩ := hfirst hI hl.1 _ h
      exact ⟨⟨hI, hl.1⟩, ih hrest hI' (hl.2 _ hR) hr⟩
    | right h =>
      obtain ⟨hR, hI'⟩ := hfirst hI hr.1 _ h
      exact ⟨⟨hI, hr.1⟩, ih hrest hI' hl (hr.2 _ hR)⟩

/-- Some run has an event in `Q`, and only events in `K`. -/
def Can (env : Env σ Op Reply) (K Q : Event σ Op → Prop) (c : Par σ Op Reply α β) : Prop :=
  ∃ es c', Run env c es c' ∧ (∀ e ∈ es, K e) ∧ ∃ e ∈ es, Q e

theorem Can.now {K Q : Event σ Op → Prop} {e : Event σ Op} (h : Step env c e c') (hK : K e)
    (hQ : Q e) : Can env K Q c :=
  ⟨[e], c', .step h (.refl c'), by simpa using hK, by simpa using hQ⟩

theorem Can.later {K Q : Event σ Op → Prop} {e : Event σ Op} (h : Step env c e c') (hK : K e)
    (rest : Can env K Q c') : Can env K Q c := by
  obtain ⟨es, c'', hrun, hes, hQ⟩ := rest
  refine ⟨e :: es, c'', .step h hrun, List.forall_mem_cons.mpr ⟨hK, hes⟩, ?_⟩
  obtain ⟨e', he', hQe'⟩ := hQ
  exact ⟨e', List.mem_cons_of_mem e he', hQe'⟩

section Alone

variable {K : Event σ Op → Prop} {QE : Event σ Op → Prop} {Q : Op → Prop} {s s' : σ}

/-- One program runs a part of its text alone. -/
theorem Can.left_runs {γ : Type} {p : Prog Op Reply γ} {f : γ → Prog Op Reply α}
    {q : Prog Op Reply β} {a : γ} (hK : ∀ ev, K ev) (hp : Runs env s p a s')
    (rest : Can env K QE ⟨s', f a, q⟩) : Can env K QE ⟨s, p >>= f, q⟩ := by
  induction hp with
  | pure => exact rest
  | ask henv _ ih => exact .later (.left henv) (hK _) (ih rest)

theorem Can.right_runs {γ : Type} {p : Prog Op Reply α} {q : Prog Op Reply γ}
    {f : γ → Prog Op Reply β} {a : γ} (hK : ∀ ev, K ev) (hq : Runs env s q a s')
    (rest : Can env K QE ⟨s', p, f a⟩) : Can env K QE ⟨s, p, q >>= f⟩ := by
  induction hq with
  | pure => exact rest
  | ask henv _ ih => exact .later (.right henv) (hK _) (ih rest)

section Fallible

variable {ε γ δ : Type} {m : Fallible Op Reply ε γ} {g : γ → Fallible Op Reply ε δ} {a : γ}

/-- The same for the first part of a program that may fail. -/
theorem Can.left_returns {k : Except ε δ → Prog Op Reply α} {q : Prog Op Reply β}
    (hK : ∀ ev, K ev) (hm : Returns env s m a s')
    (rest : Can env K QE ⟨s', (g a).run >>= k, q⟩) : Can env K QE ⟨s, (m >>= g).run >>= k, q⟩ := by
  have hassoc : (m >>= g).run >>= k = m.run >>= fun r => ExceptT.bindCont g r >>= k :=
    Prog.bind_assoc _ _ _
  rw [hassoc]
  exact left_runs hK hm rest

theorem Can.right_returns {k : Except ε δ → Prog Op Reply β} {p : Prog Op Reply α}
    (hK : ∀ ev, K ev) (hm : Returns env s m a s')
    (rest : Can env K QE ⟨s', p, (g a).run >>= k⟩) : Can env K QE ⟨s, p, (m >>= g).run >>= k⟩ := by
  have hassoc : (m >>= g).run >>= k = m.run >>= fun r => ExceptT.bindCont g r >>= k :=
    Prog.bind_assoc _ _ _
  rw [hassoc]
  exact right_runs hK hm rest

end Fallible

theorem Can.left_performs {p : Prog Op Reply α} {q : Prog Op Reply β} (hK : ∀ ev, K ev)
    (h : Performs env Q s p) : Can env K (fun ev => Q ev.op) ⟨s, p, q⟩ := by
  induction h with
  | now h hQ => exact .now (.left h) (hK _) hQ
  | later h _ ih => exact .later (.left h) (hK _) ih

theorem Can.right_performs {p : Prog Op Reply α} {q : Prog Op Reply β} (hK : ∀ ev, K ev)
    (h : Performs env Q s q) : Can env K (fun ev => Q ev.op) ⟨s, p, q⟩ := by
  induction h with
  | now h hQ => exact .now (.right h) (hK _) hQ
  | later h _ ih => exact .later (.right h) (hK _) ih

end Alone

end Par

end Par

end Interaction
