import Ferrosync.Lib.ByteStream
import Mathlib.Logic.Relation

set_option autoImplicit false

/-! # Programs that talk over a pair of byte channels

A script sends bytes, waits for bytes and loops; every send and every receive is labelled with
the kind of message it is for. Two scripts run against each other over two unbounded FIFO
channels, in any order. A script that waits goes on as soon as the bytes in its channel decide the
read, or when the other script has ended. Labels have no effect.

* `Script eof κ α`, a monad with `send`, `recv` and an unbounded `loop`;
* `Step`: one step of one of the two; `Agrees`: each side has heard the messages that the other
  one sent, in order and under the same labels;
* `Talk`: the steps that do not depend on the end of the other script;
* `talks_of_done`: if *some* such run ends, then every run can be continued to the same end, so
  that agreement is shown for one schedule only.
-/

namespace Session

open ByteStream Relation

variable {γ : Type} {out input rest : List UInt8} {closed : Bool}

/-! ## Scripts -/

section Script

variable {ε κ : Type}

/-- A program that talks over its two channels and returns a value. -/
inductive Script (eof : ε) (κ : Type) : Type → Type 1 where
  | ret {α : Type} (a : α) : Script eof κ α
  | send {α : Type} (kind : κ) (bs : List UInt8) (next : Script eof κ α) : Script eof κ α
  | recv {α β : Type} (kind : κ) (p : Reader ε β) (stable : Stable eof p)
      (next : Except ε β → Script eof κ α) : Script eof κ α
  | loop {α β σ : Type} (body : σ → Script eof κ (σ ⊕ β)) (init : σ)
      (next : β → Script eof κ α) : Script eof κ α

namespace Script

variable {eof : ε} {α β σ : Type}

def bind : {α : Type} → Script eof κ α → (α → Script eof κ β) → Script eof κ β
  | _, .ret a, f => f a
  | _, .send kind bs next, f => .send kind bs (bind next f)
  | _, .recv kind p stable next, f => .recv kind p stable fun r => bind (next r) f
  | _, .loop body init next, f => .loop body init fun b => bind (next b) f

instance : Monad (Script eof κ) where
  pure := .ret
  bind := bind

@[simp] theorem send_bind (kind : κ) (bs : List UInt8) (next : Script eof κ α)
    (f : α → Script eof κ β) :
    (Script.send kind bs next >>= f) = .send kind bs (next >>= f) := rfl

@[simp] theorem recv_bind (kind : κ) (p : Reader ε γ) (stable : Stable eof p)
    (next : Except ε γ → Script eof κ α) (f : α → Script eof κ β) :
    (Script.recv kind p stable next >>= f) = .recv kind p stable fun r => next r >>= f := rfl

@[simp] theorem loop_bind (body : σ → Script eof κ (σ ⊕ γ)) (init : σ) (next : γ → Script eof κ α)
    (f : α → Script eof κ β) :
    (Script.loop body init next >>= f) = .loop body init fun b => next b >>= f := rfl

theorem bind_assoc (f : α → Script eof κ β) (g : β → Script eof κ γ) (p : Script eof κ α) :
    ((p >>= f) >>= g) = (p >>= fun a => f a >>= g) := by
  induction p with
  | ret a => rfl
  | send kind bs next ih => rw [send_bind, send_bind, send_bind, ih]
  | recv kind p stable next ih =>
    simp only [recv_bind]
    congr 1
    funext r
    exact ih r f
  | loop body init next _ ih =>
    simp only [loop_bind]
    congr 1
    funext b
    exact ih b f

theorem bind_ret (p : Script eof κ α) : (p >>= Script.ret) = p := by
  induction p with
  | ret a => rfl
  | send kind bs next ih => rw [send_bind, ih]
  | recv kind p stable next ih =>
    rw [recv_bind]
    congr 1
    funext r
    exact ih r
  | loop body init next _ ih =>
    rw [loop_bind]
    congr 1
    funext b
    exact ih b

instance : LawfulMonad (Script eof κ) :=
  LawfulMonad.mk' _ bind_ret (fun _ _ => rfl) fun p f g => bind_assoc f g p

/-- What a loop does next: its body, and then the loop again or what follows it. -/
def unroll (body : σ → Script eof κ (σ ⊕ β)) (next : β → Script eof κ α) (s : σ) :
    Script eof κ α :=
  body s >>= fun
    | .inl s' => .loop body s' next
    | .inr b => next b

def isRet : Script eof κ α → Bool
  | .ret _ => true
  | _ => false

def value : Script eof κ α → Option α
  | .ret a => some a
  | _ => none

end Script

/-- A script with early return, as the `?` operator gives it. -/
abbrev Fallible (eof : ε) (κ α : Type) : Type 1 := ExceptT ε (Script eof κ) α

namespace Fallible

variable {eof : ε} {α β σ : Type}

def send (kind : κ) (bs : List UInt8) : Fallible eof κ Unit :=
  ExceptT.mk (.send kind bs (.ret (.ok ())))

def recv (kind : κ) (p : Reader ε α) (stable : Stable eof p) : Fallible eof κ α :=
  ExceptT.mk (.recv kind p stable .ret)

/-- The body of a loop, with a failure leaving the loop. -/
def loopBody (body : σ → Fallible eof κ (σ ⊕ β)) (s : σ) : Script eof κ (σ ⊕ Except ε β) :=
  (body s).run >>= fun
    | .ok (.inl s') => .ret (.inl s')
    | .ok (.inr b) => .ret (.inr (.ok b))
    | .error e => .ret (.inr (.error e))

/-- What follows a script that returns or fails. -/
def cont {γ : Type} (f : α → Fallible eof κ β) (g : Except ε β → Script eof κ γ) :
    Except ε α → Script eof κ γ
  | .ok a => (f a).run >>= g
  | .error e => g (.error e)

@[simp] theorem cont_ok (f : α → Fallible eof κ β) (g : Except ε β → Script eof κ γ) (a : α) :
    cont f g (.ok a) = (f a).run >>= g := rfl

@[simp] theorem cont_error (f : α → Fallible eof κ β) (g : Except ε β → Script eof κ γ) (e : ε) :
    cont f g (.error e) = g (.error e) := rfl

@[simp] theorem pure_run (a : α) (g : Except ε α → Script eof κ γ) :
    ((pure a : Fallible eof κ α).run >>= g) = g (.ok a) := rfl

@[simp] theorem recv_run (kind : κ) (p : Reader ε α) (stable : Stable eof p)
    (g : Except ε α → Script eof κ γ) :
    ((recv kind p stable : Fallible eof κ α).run >>= g) = .recv kind p stable g := rfl

@[simp] theorem bind_run (p : Fallible eof κ α) (f : α → Fallible eof κ β)
    (g : Except ε β → Script eof κ γ) : ((p >>= f).run >>= g) = (p.run >>= cont f g) := by
  refine (Script.bind_assoc _ g p.run).trans ?_
  congr 1
  funext r
  cases r <;> rfl

/-- Iterate `body` until it leaves the loop or fails. -/
def loop (body : σ → Fallible eof κ (σ ⊕ β)) (init : σ) : Fallible eof κ β :=
  ExceptT.mk (.loop (loopBody body) init .ret)

end Fallible

end Script

/-! ## One side of a conversation -/

section Peer

variable {ε κ : Type} [DecidableEq ε] {eof : ε} {α β : Type}

/-- A script with the bytes on their way to it, and the messages it has sent and heard. -/
structure Peer (eof : ε) (κ α : Type) : Type 1 where
  script : Script eof κ α
  inbox : List UInt8
  sent : List (κ × List UInt8)
  heard : List (κ × List UInt8)

namespace Peer

/-- One step: the new state and the bytes sent. `closed` says that nothing more can come. An
error leaves the channel as it is, except that the end of the stream has consumed what was
there. -/
def advance (closed : Bool) : Peer eof κ α → Option (Peer eof κ α × List UInt8)
  | ⟨.ret _, _, _, _⟩ => none
  | ⟨.send kind bs next, inbox, sent, heard⟩ =>
    some (⟨next, inbox, sent ++ [(kind, bs)], heard⟩, bs)
  | ⟨.recv kind p _ next, inbox, sent, heard⟩ =>
    match p inbox with
    | .ok (b, rest) =>
      some (⟨next (.ok b), rest, sent,
        heard ++ [(kind, inbox.take (inbox.length - rest.length))]⟩, [])
    | .error e =>
      if e ≠ eof then some (⟨next (.error e), inbox, sent, heard⟩, [])
      else if closed then some (⟨next (.error e), [], sent, heard⟩, []) else none
  | ⟨.loop body init next, inbox, sent, heard⟩ =>
    some (⟨.unroll body next init, inbox, sent, heard⟩, [])

def push (x : Peer eof κ α) (more : List UInt8) : Peer eof κ α :=
  { x with inbox := x.inbox ++ more }

omit [DecidableEq ε] in
@[simp] theorem push_nil (x : Peer eof κ α) : x.push [] = x := by
  simp [push]

omit [DecidableEq ε] in
theorem push_mk (p : Script eof κ α) (inbox more : List UInt8) (sent heard : List (κ × List UInt8)) :
    (⟨p, inbox, sent, heard⟩ : Peer eof κ α).push more = ⟨p, inbox ++ more, sent, heard⟩ := rfl

def andThen (x : Peer eof κ α) (f : α → Script eof κ β) : Peer eof κ β :=
  ⟨x.script >>= f, x.inbox, x.sent, x.heard⟩

variable {x : Peer eof κ α}

theorem advance_isRet (h : x.script.isRet = true) (closed : Bool) : x.advance closed = none := by
  obtain ⟨p, inbox, sent, heard⟩ := x
  cases p with
  | ret a => rfl
  | send | recv | loop => cases h

/-- A step that is possible while more may come is possible, with the same effect, after more
has come. -/
theorem advance_push {x' : Peer eof κ α} (h : x.advance false = some (x', out)) (closed : Bool)
    (more : List UInt8) : (x.push more).advance closed = some (x'.push more, out) := by
  obtain ⟨p, inbox, sent, heard⟩ := x
  cases p with
  | ret a => cases h
  | send | loop =>
    cases h
    rfl
  | recv kind q stable next =>
    unfold push
    unfold advance at h ⊢
    cases hq : q inbox with
    | ok r =>
      obtain ⟨b, rest⟩ := r
      simp only [hq] at h
      cases h
      -- a reader that has its value does not look at what comes later
      simp [stable.ok hq more, List.length_append, Nat.add_sub_add_right, List.take_append_of_le_length (Nat.sub_le _ _)]
    | error e =>
      simp only [hq, Bool.false_eq_true, if_false] at h
      -- at the end of the input the side waits: there is no step to keep
      split_ifs at h with hne
      cases h
      simp only [stable.error hq hne more, if_pos hne]

theorem advance_closed {x' : Peer eof κ α} (h : x.advance false = some (x', out)) (closed : Bool) :
    x.advance closed = some (x', out) := by
  simpa using advance_push h closed []

theorem advance_andThen {x' : Peer eof κ α} (f : α → Script eof κ β)
    (h : x.advance closed = some (x', out)) :
    (x.andThen f).advance closed = some (x'.andThen f, out) := by
  obtain ⟨p, inbox, sent, heard⟩ := x
  cases p with
  | ret a => cases h
  | send kind bs next =>
    cases h
    rfl
  -- a round of a loop is unrolled in front of what comes behind the loop
  | loop body init next =>
    cases h
    unfold andThen
    rw [Script.loop_bind, advance, Script.unroll, Script.unroll, Script.bind_assoc]
    congr 4
    funext r
    cases r <;> rfl
  | recv kind q stable next =>
    unfold andThen
    rw [Script.recv_bind]
    unfold advance at h ⊢
    cases hq : q inbox with
    | ok r =>
      simp only [hq] at h ⊢
      cases h
      rfl
    | error e =>
      simp only [hq] at h ⊢
      split_ifs at h ⊢ <;> cases h <;> rfl

end Peer

end Peer

/-! ## Two scripts over two channels -/

section Pair

variable {ε κ : Type} [DecidableEq ε] {eof : ε} {α β : Type}

/-- The two sides of a conversation. -/
structure Pair (eof : ε) (κ α β : Type) : Type 1 where
  left : Peer eof κ α
  right : Peer eof κ β

namespace Pair

/-- A step of the left side; what it sends goes to the right one. -/
def StepLeft (closed : Bool) (c c' : Pair eof κ α β) : Prop :=
  ∃ out, c.left.advance closed = some (c'.left, out) ∧ c'.right = c.right.push out

def StepRight (closed : Bool) (c c' : Pair eof κ α β) : Prop :=
  ∃ out, c.right.advance closed = some (c'.right, out) ∧ c'.left = c.left.push out

/-- One step of one of the two. -/
def Step (c c' : Pair eof κ α β) : Prop :=
  StepLeft c.right.script.isRet c c' ∨ StepRight c.left.script.isRet c c'

/-- A step that does not depend on the end of the other script. -/
def Talk (c c' : Pair eof κ α β) : Prop := StepLeft false c c' ∨ StepRight false c c'

/-- Both scripts have returned. -/
def Done (c : Pair eof κ α β) : Prop :=
  c.left.script.isRet = true ∧ c.right.script.isRet = true

/-- A side waits for bytes that the other one, which has returned or waits itself, will never
send. -/
def Starved (c : Pair eof κ α β) : Prop := (∀ c', ¬ Talk c c') ∧ ¬ Done c

/-- Each side has heard the messages that the other one sent, in order, each under the label it
was sent with. -/
def Agrees (c : Pair eof κ α β) : Prop :=
  c.right.heard <+: c.left.sent ∧ c.left.heard <+: c.right.sent

def start (p : Script eof κ α) (q : Script eof κ β) : Pair eof κ α β :=
  ⟨⟨p, [], [], []⟩, ⟨q, [], [], []⟩⟩

/-! ### Steps commute -/

variable {c c' c₁ c₂ : Pair eof κ α β}

theorem Talk.step (h : Talk c c') : Step c c' := by
  rcases h with ⟨out, hadv, hrest⟩ | ⟨out, hadv, hrest⟩
  · exact .inl ⟨out, Peer.advance_closed hadv _, hrest⟩
  · exact .inr ⟨out, Peer.advance_closed hadv _, hrest⟩

/-- A step of the right side shows that the left one has not seen the end of its channel. -/
theorem StepRight.open_left (h : StepRight closed c c') : c.right.script.isRet = false := by
  obtain ⟨out, hadv, -⟩ := h
  by_contra hret
  rw [Peer.advance_isRet (by simpa using hret)] at hadv
  cases hadv

theorem StepLeft.open_right (h : StepLeft closed c c') : c.left.script.isRet = false := by
  obtain ⟨out, hadv, -⟩ := h
  by_contra hret
  rw [Peer.advance_isRet (by simpa using hret)] at hadv
  cases hadv

theorem StepLeft.unique (h₁ : StepLeft closed c c₁) (h₂ : StepLeft closed c c₂) : c₁ = c₂ := by
  obtain ⟨out₁, hadv₁, hr₁⟩ := h₁
  obtain ⟨out₂, hadv₂, hr₂⟩ := h₂
  cases c₁
  cases c₂
  grind

theorem StepRight.unique (h₁ : StepRight closed c c₁) (h₂ : StepRight closed c c₂) : c₁ = c₂ := by
  obtain ⟨out₁, hadv₁, hr₁⟩ := h₁
  obtain ⟨out₂, hadv₂, hr₂⟩ := h₂
  cases c₁
  cases c₂
  grind

/-- A step of the left side and one of the right side lead to a common pair. -/
theorem commute (h₁ : StepLeft false c c₁) (h₂ : StepRight false c c₂) :
    ∃ d, Talk c₁ d ∧ Talk c₂ d := by
  obtain ⟨out₁, hadv₁, hright⟩ := h₁
  obtain ⟨out₂, hadv₂, hleft⟩ := h₂
  refine ⟨⟨c₁.left.push out₂, c₂.right.push out₁⟩, .inr ⟨out₂, ?_, rfl⟩, .inl ⟨out₁, ?_, rfl⟩⟩
  · rw [hright]
    exact Peer.advance_push hadv₂ _ _
  · rw [hleft]
    exact Peer.advance_push hadv₁ _ _

theorem Talk.diamond (h₁ : Talk c c₁) (h₂ : Talk c c₂) : c₁ = c₂ ∨ ∃ d, Talk c₁ d ∧ Talk c₂ d := by
  rcases h₁ with h₁ | h₁ <;> rcases h₂ with h₂ | h₂
  · exact .inl (h₁.unique h₂)
  · exact .inr (commute h₁ h₂)
  · obtain ⟨d, hd₂, hd₁⟩ := commute h₂ h₁
    exact .inr ⟨d, hd₁, hd₂⟩
  · exact .inl (h₁.unique h₂)

theorem Done.no_step (h : Done c) : ¬ Step c c' := by
  rintro (hstep | hstep)
  · exact absurd h.1 (by simp [hstep.open_right])
  · exact absurd h.2 (by simp [hstep.open_left])

/-- From a state that some run leads to an end, every run leads to that end. -/
theorem reaches_of_diamond {C : Type 1} {r : C → C → Prop}
    (hdiamond : ∀ {a b e}, r a b → r a e → b = e ∨ ∃ f, r b f ∧ r e f) {c c' d : C}
    (hrun : ReflTransGen r c d) (hend : ∀ e, ¬ r d e) (hother : ReflTransGen r c c') :
    ReflTransGen r c' d := by
  have hjoin : ∀ a b e, r a b → r a e → ∃ f, ReflGen r b f ∧ ReflTransGen r e f := by
    intro a b e hb he
    rcases hdiamond hb he with rfl | ⟨f, hbf, hef⟩
    · exact ⟨b, .refl, .refl⟩
    · exact ⟨f, .single hbf, .single hef⟩
  obtain ⟨f, hc'f, hdf⟩ := church_rosser hjoin hother hrun
  rcases ReflTransGen.cases_head hdf with rfl | ⟨e, hstep, -⟩
  · exact hc'f
  · exact absurd hstep (hend e)

/-! ### Building a run -/

/-- A run without looking at the end of a script. -/
abbrev Talks (c c' : Pair eof κ α β) : Prop := ReflTransGen Talk c c'

theorem Talks.steps (h : Talks c c') : ReflTransGen Step c c' :=
  ReflTransGen.mono (fun _ _ => Talk.step) _ _ h

/-- Where one run ends without a look at the end of a script, no run looks at it. -/
theorem Step.talk {d : Pair eof κ α β} (hstep : Step c c') (hrun : Talks c d) (hd : Done d) :
    Talk c c' := by
  rcases ReflTransGen.cases_head hrun with rfl | ⟨e, htalk, -⟩
  · exact absurd hstep hd.no_step
  -- The other side may have returned. The step that `Talks` takes then is this one: a side has one
  -- step at most.
  · rcases hstep with hleft | hright
    · cases hret : c.right.script.isRet with
      | false => exact .inl (hret ▸ hleft)
      | true =>
        rcases htalk with ⟨out, hadv, hother⟩ | htalk
        · rw [hret] at hleft
          have hsame : StepLeft true c e := ⟨out, Peer.advance_closed hadv true, hother⟩
          rw [hleft.unique hsame]
          exact .inl ⟨out, hadv, hother⟩
        · exact absurd hret (by simp [htalk.open_left])
    · cases hret : c.left.script.isRet with
      | false => exact .inr (hret ▸ hright)
      | true =>
        rcases htalk with htalk | ⟨out, hadv, hother⟩
        · exact absurd hret (by simp [htalk.open_right])
        · rw [hret] at hright
          have hsame : StepRight true c e := ⟨out, Peer.advance_closed hadv true, hother⟩
          rw [hright.unique hsame]
          exact .inr ⟨out, hadv, hother⟩

theorem talks_of_done {d : Pair eof κ α β} (hrun : Talks c d) (hd : Done d)
    (hother : ReflTransGen Step c c') : Talks c' d := by
  induction hother with
  | refl => exact hrun
  | tail _ hstep ih =>
    exact reaches_of_diamond Talk.diamond ih (fun _ h => hd.no_step h.step)
      (.single (hstep.talk ih hd))

theorem not_starved_of_done {d : Pair eof κ α β} (hrun : Talks c d) (hd : Done d)
    (hother : ReflTransGen Step c c') : ¬ Starved c' := by
  rintro ⟨hstop, hnot⟩
  rcases ReflTransGen.cases_head (talks_of_done hrun hd hother) with rfl | ⟨e, htalk, -⟩
  · exact hnot hd
  · exact hstop e htalk

section Rules

variable {x x' : Peer eof κ α} {y y' : Peer eof κ β} {p : Script eof κ α} {q : Script eof κ β}
  {inbox bs out : List UInt8} {sent heard : List (κ × List UInt8)} {kind : κ}
  {d : Pair eof κ α β}

theorem Talks.left (hadv : x.advance false = some (x', out)) (h : Talks ⟨x', y.push out⟩ d) :
    Talks ⟨x, y⟩ d := by
  have hstep : Talk ⟨x, y⟩ ⟨x', y.push out⟩ := .inl ⟨out, hadv, rfl⟩
  exact .head hstep h

theorem Talks.right (hadv : y.advance false = some (y', out)) (h : Talks ⟨x.push out, y'⟩ d) :
    Talks ⟨x, y⟩ d := by
  have hstep : Talk ⟨x, y⟩ ⟨x.push out, y'⟩ := .inr ⟨out, hadv, rfl⟩
  exact .head hstep h

theorem Talks.send_left (h : Talks ⟨⟨p, inbox, sent ++ [(kind, bs)], heard⟩, y.push bs⟩ d) :
    Talks ⟨⟨.send kind bs p, inbox, sent, heard⟩, y⟩ d := h.left rfl

theorem Talks.send_right (h : Talks ⟨x.push bs, ⟨q, inbox, sent ++ [(kind, bs)], heard⟩⟩ d) :
    Talks ⟨x, ⟨.send kind bs q, inbox, sent, heard⟩⟩ d := h.right rfl

variable {r : Reader ε γ} {stable : Stable eof r}

theorem Peer.advance_wait {next : Except ε γ → Script eof κ α} (hread : r inbox = .error eof) :
    (Peer.mk (.recv kind r stable next) inbox sent heard).advance false = none := by
  simp [Peer.advance, hread]

/-- Two sides that cannot move starve, unless both have returned. -/
theorem starved_of_waits (hleft : x.advance false = none) (hright : y.advance false = none)
    (hopen : x.script.isRet = false ∨ y.script.isRet = false) : Starved ⟨x, y⟩ := by
  refine ⟨?_, fun hdone => ?_⟩
  · rintro c' (⟨out, hadv, -⟩ | ⟨out, hadv, -⟩)
    · rw [hleft] at hadv
      cases hadv
    · rw [hright] at hadv
      cases hadv
  · rw [hdone.1, hdone.2] at hopen
    rcases hopen with hopen | hopen <;> cases hopen

/-- A message at the head of the channel is heard as it was sent. -/
theorem Peer.advance_recv {a : γ} {next : Except ε γ → Script eof κ α} (hread : Reads r bs a) :
    (Peer.mk (.recv kind r stable next) (bs ++ inbox) sent heard).advance false =
      some (⟨next (.ok a), inbox, sent, heard ++ [(kind, bs)]⟩, []) := by
  simp [Peer.advance, hread inbox]

theorem Talks.recv_right {S : Stable eof r} {b : γ} {next : Except ε γ → Script eof κ β}
    (hread : Reads r bs b) (h : Talks ⟨x, ⟨next (.ok b), inbox, sent, heard ++ [(kind, bs)]⟩⟩ d) :
    Talks ⟨x, ⟨.recv kind r S next, bs ++ inbox, sent, heard⟩⟩ d := by
  refine Talks.right (Peer.advance_recv hread) ?_
  rwa [Peer.push_nil]

/-- What is in the channel is not a message of the kind that is expected. -/
theorem Talks.fail_right {e : ε} {next : Except ε γ → Script eof κ β} (hread : r inbox = .error e)
    (he : e ≠ eof) (h : Talks ⟨x, ⟨next (.error e), inbox, sent, heard⟩⟩ d) :
    Talks ⟨x, ⟨.recv kind r stable next, inbox, sent, heard⟩⟩ d := by
  have hadv : (Peer.mk (.recv kind r stable next) inbox sent heard).advance false =
      some (⟨next (.error e), inbox, sent, heard⟩, []) := by
    simp [Peer.advance, hread, he]
  refine Talks.right hadv ?_
  rwa [Peer.push_nil]

theorem Talks.hear_left {a : γ} {next : Except ε γ → Script eof κ α} (hread : Reads r bs a)
    (h : Talks ⟨⟨next (.ok a), [], sent, heard ++ [(kind, bs)]⟩, y⟩ d) :
    Talks ⟨⟨.recv kind r stable next, bs, sent, heard⟩, y⟩ d := by
  rw [← List.append_nil bs]
  exact Talks.left (Peer.advance_recv hread) (by rwa [Peer.push_nil])

theorem Talks.hear_right {b : γ} {next : Except ε γ → Script eof κ β} (hread : Reads r bs b)
    (h : Talks ⟨x, ⟨next (.ok b), [], sent, heard ++ [(kind, bs)]⟩⟩ d) :
    Talks ⟨x, ⟨.recv kind r stable next, bs, sent, heard⟩⟩ d := by
  have hrecv := Talks.recv_right (S := stable) hread h
  rwa [List.append_nil] at hrecv

theorem Talks.loop_left {σ : Type} {body : σ → Script eof κ (σ ⊕ γ)} {s : σ}
    {next : γ → Script eof κ α} (h : Talks ⟨⟨.unroll body next s, inbox, sent, heard⟩, y⟩ d) :
    Talks ⟨⟨.loop body s next, inbox, sent, heard⟩, y⟩ d :=
  Talks.left (rfl : _ = some (_, [])) (by rwa [Peer.push_nil])

end Rules

/-! ### Agreement in every state -/

/-- The bytes of a list of messages. -/
def bytesOf (ms : List (κ × List UInt8)) : List UInt8 := ms.flatMap Prod.snd

/-- What a step does to the histories of the side that takes it: it sends a message, hears one
that was in its channel, or does neither. -/
theorem Peer.advance_history {x x' : Peer eof κ α} (h : x.advance closed = some (x', out)) :
    x.sent <+: x'.sent ∧ x.heard <+: x'.heard ∧
      bytesOf x'.sent = bytesOf x.sent ++ out ∧
      (bytesOf x'.heard).length + x'.inbox.length ≤ (bytesOf x.heard).length + x.inbox.length := by
  obtain ⟨p, inbox, sent, heard⟩ := x
  cases p with
  | ret a => cases h
  | send kind bs next =>
    cases h
    exact ⟨List.prefix_append _ _, List.prefix_rfl, by simp [bytesOf], le_rfl⟩
  | loop body init next =>
    cases h
    simp
  | recv kind q stable next =>
    unfold Peer.advance at h
    cases hq : q inbox with
    | ok r =>
      obtain ⟨b, rest⟩ := r
      simp only [hq] at h
      cases h
      -- what is heard comes out of the channel
      have hlen := (stable.suffix hq).length_le
      refine ⟨List.prefix_rfl, List.prefix_append _ _, by simp, ?_⟩
      simp [bytesOf]
      omega
    | error e =>
      simp only [hq] at h
      split_ifs at h <;> cases h
      · simp
      · simp

/-- Nothing is heard that was not sent. -/
def Conserved (c : Pair eof κ α β) : Prop :=
  (bytesOf c.right.heard).length + c.right.inbox.length ≤ (bytesOf c.left.sent).length ∧
    (bytesOf c.left.heard).length + c.left.inbox.length ≤ (bytesOf c.right.sent).length

/-- Histories only grow, and nothing is heard that was not sent. -/
theorem steps_history (hrun : ReflTransGen Step c c') (hc : Conserved c) :
    Conserved c' ∧ c.left.sent <+: c'.left.sent ∧
      c.left.heard <+: c'.left.heard ∧ c.right.sent <+: c'.right.sent ∧
      c.right.heard <+: c'.right.heard := by
  induction hrun with
  | refl => exact ⟨hc, List.prefix_rfl, List.prefix_rfl, List.prefix_rfl, List.prefix_rfl⟩
  | @tail c₁ c₂ _ hstep ih =>
    obtain ⟨⟨htoRight, htoLeft⟩, hls, hlh, hrs, hrh⟩ := ih
    -- the two sides are symmetric: what one sends is pushed into the channel of the other
    rcases hstep with ⟨out, hadv, hother⟩ | ⟨out, hadv, hother⟩
    · obtain ⟨hsent, hheard, hbytes, hlen⟩ := Peer.advance_history hadv
      refine ⟨⟨?_, ?_⟩, hls.trans hsent, hlh.trans hheard, ?_, ?_⟩
      · simp [hother, hbytes, Peer.push]
        omega
      · rw [hother]
        exact hlen.trans htoLeft
      · rw [hother]
        exact hrs
      · rw [hother]
        exact hrh
    · obtain ⟨hsent, hheard, hbytes, hlen⟩ := Peer.advance_history hadv
      refine ⟨⟨?_, ?_⟩, ?_, ?_, hrs.trans hsent, hrh.trans hheard⟩
      · rw [hother]
        exact hlen.trans htoRight
      · simp [hother, hbytes, Peer.push]
        omega
      · rw [hother]
        exact hls
      · rw [hother]
        exact hlh

/-- Of two histories of the same messages, the one with fewer bytes is the shorter one. -/
theorem prefix_of_bytes {heard sent all : List (κ × List UInt8)} (hheard : heard <+: all)
    (hsent : sent <+: all) (hall : ∀ m ∈ all, m.2 ≠ [])
    (hlen : (bytesOf heard).length ≤ (bytesOf sent).length) : heard <+: sent := by
  rcases List.prefix_or_prefix_of_prefix hheard hsent with h | ⟨more, rfl⟩
  · exact h
  · -- the messages beyond `sent` would have bytes of their own
    cases more with
    | nil => rw [List.append_nil]
    | cons m more =>
      have hm : m.2 ≠ [] := hall m (hheard.subset (by simp))
      have hpos := List.length_pos_of_ne_nil hm
      simp only [bytesOf, List.flatMap_append, List.length_append, List.flatMap_cons] at hlen
      omega

/-- **Agreement.** If one run of two fresh scripts ends in agreement, then in every state of
every run the two agree and neither starves. -/
theorem agrees_of_done {p : Script eof κ α} {q : Script eof κ β} {d : Pair eof κ α β}
    (hrun : Talks (start p q) d) (hd : Done d) (hagrees : Agrees d)
    (hleft : ∀ m ∈ d.left.sent, m.2 ≠ []) (hright : ∀ m ∈ d.right.sent, m.2 ≠ [])
    (hother : ReflTransGen Step (start p q) c) : Agrees c ∧ ¬ Starved c := by
  have hfresh : Conserved (start p q) := ⟨le_rfl, le_rfl⟩
  obtain ⟨hcons, -⟩ := steps_history hother hfresh
  obtain ⟨-, hls, hlh, hrs, hrh⟩ := steps_history (talks_of_done hrun hd hother).steps hcons
  refine ⟨⟨?_, ?_⟩, not_starved_of_done hrun hd hother⟩
  · exact prefix_of_bytes (hrh.trans hagrees.1) hls hleft (by have := hcons.1; omega)
  · exact prefix_of_bytes (hlh.trans hagrees.2) hrs hright (by have := hcons.2; omega)

end Pair

end Pair

/-! ## One script on a given input -/

section Exec

variable {ε κ : Type} [DecidableEq ε] {eof : ε} {α β σ : Type}

/-- At most `n` steps on an input after which the stream ends: the value, what is left of the
input, and the output. -/
def Script.run : Nat → Script eof κ α → List UInt8 → Option (α × List UInt8 × List UInt8)
  | 0, _, _ => none
  | n + 1, p, input =>
    match Peer.advance true ⟨p, input, [], []⟩ with
    | none => p.value.map fun a => (a, input, [])
    | some (x, out) => (run n x.script x.inbox).map fun r => (r.1, r.2.1, out ++ r.2.2)

/-- The script returns `a` on the input, leaves `rest` and has sent `out`. -/
def Exec (p : Script eof κ α) (input out : List UInt8) (a : α) (rest : List UInt8) : Prop :=
  ∃ n, p.run n input = some (a, rest, out)

variable {p : Script eof κ α} {f : α → Script eof κ β}

/-- A run takes a step, or the script has returned. -/
theorem Script.run_succ {n : Nat} {a : α} (h : p.run (n + 1) input = some (a, rest, out)) :
    (p = .ret a ∧ rest = input ∧ out = []) ∨
      ∃ x out₁ out₂, Peer.advance true ⟨p, input, [], []⟩ = some (x, out₁) ∧
        x.script.run n x.inbox = some (a, rest, out₂) ∧ out = out₁ ++ out₂ := by
  rw [run] at h
  cases hadv : Peer.advance true ⟨p, input, [], []⟩ with
  | none =>
    simp only [hadv] at h
    cases p with
    | ret b =>
      cases h
      exact .inl ⟨rfl, rfl, rfl⟩
    | send | recv | loop => cases h
  | some r =>
    obtain ⟨x, out₁⟩ := r
    simp only [hadv, Option.map_eq_some_iff] at h
    obtain ⟨⟨a', rest', out₂⟩, hrun, heq⟩ := h
    cases heq
    exact .inr ⟨x, out₁, out₂, rfl, hrun, rfl⟩

/-- At the end of its input a script is never left waiting. -/
theorem Peer.isRet_of_advance_none {x : Peer eof κ α} (h : x.advance true = none) :
    ∃ a, x.script = .ret a := by
  obtain ⟨p, inbox, sent, heard⟩ := x
  cases p with
  | ret a => exact ⟨a, rfl⟩
  | send | loop => cases h
  | recv kind q stable next =>
    unfold advance at h
    cases hq : q inbox with
    | ok r => simp [hq] at h
    | error e =>
      simp only [hq] at h
      split_ifs at h

/-- A run of a sequence is a run of its first part, and then one of the second. -/
theorem Script.run_bind : ∀ {n : Nat} {p : Script eof κ α}
    {input out rest : List UInt8} {b : β}, (p >>= f).run n input = some (b, rest, out) →
    ∃ a mid out₁ out₂, ∃ k, k ≤ n ∧ p.run n input = some (a, mid, out₁) ∧
      (f a).run k mid = some (b, rest, out₂) ∧ out = out₁ ++ out₂
  | 0, _, _, _, _, _, h => by cases h
  | n + 1, p, input, out, rest, b, h => by
    -- the first part has returned, or it takes the step that the sequence takes
    cases hadv : Peer.advance true ⟨p, input, [], []⟩ with
    | none =>
      obtain ⟨a, rfl⟩ := Peer.isRet_of_advance_none hadv
      exact ⟨a, input, [], out, n + 1, le_rfl, rfl, h, rfl⟩
    | some r =>
      obtain ⟨x, out₁⟩ := r
      have hbind : Peer.advance true ⟨p >>= f, input, [], []⟩ = some (x.andThen f, out₁) :=
        Peer.advance_andThen f hadv
      rw [run, hbind] at h
      simp only [Option.map_eq_some_iff] at h
      obtain ⟨⟨b', rest', out₂⟩, hrun, heq⟩ := h
      cases heq
      obtain ⟨a, mid, out₃, out₄, k, hk, hp, hf, rfl⟩ := run_bind hrun
      refine ⟨a, mid, out₁ ++ out₃, out₄, k, by omega, ?_, hf, (List.append_assoc ..).symm⟩
      have hp' : x.script.run n x.inbox = some (a, mid, out₃) := hp
      simp [run, hadv, hp']

theorem Exec.bind_inv {b : β} (h : Exec (p >>= f) input out b rest) :
    ∃ a mid out₁ out₂, Exec p input out₁ a mid ∧ Exec (f a) mid out₂ b rest ∧
      out = out₁ ++ out₂ := by
  obtain ⟨n, hrun⟩ := h
  obtain ⟨a, mid, out₁, out₂, k, -, hp, hf, hout⟩ := Script.run_bind hrun
  exact ⟨a, mid, out₁, out₂, ⟨n, hp⟩, ⟨k, hf⟩, hout⟩

theorem Exec.ret_inv {a b : α} (h : Exec (.ret a : Script eof κ α) input out b rest) :
    b = a ∧ rest = input ∧ out = [] := by
  obtain ⟨n, hrun⟩ := h
  cases n with
  | zero => cases hrun
  | succ n =>
    cases hrun
    exact ⟨rfl, rfl, rfl⟩

theorem Exec.send_inv {kind : κ} {bs : List UInt8} {next : Script eof κ α} {a : α}
    (h : Exec (.send kind bs next) input out a rest) :
    ∃ out', Exec next input out' a rest ∧ out = bs ++ out' := by
  obtain ⟨n, hrun⟩ := h
  cases n with
  | zero => cases hrun
  | succ n =>
    rcases Script.run_succ hrun with ⟨hret, -⟩ | ⟨_, _, out', hadv, hrest, rfl⟩
    · cases hret
    · cases hadv
      exact ⟨out', ⟨n, hrest⟩, rfl⟩

theorem Exec.recv_inv {kind : κ} {q : Reader ε β} {stable : Stable eof q}
    {next : Except ε β → Script eof κ α} {a : α}
    (h : Exec (.recv kind q stable next) input out a rest) :
    (∃ b mid, q input = .ok (b, mid) ∧ Exec (next (.ok b)) mid out a rest) ∨
      ∃ e mid, q input = .error e ∧ Exec (next (.error e)) mid out a rest := by
  obtain ⟨n, hrun⟩ := h
  cases n with
  | zero => cases hrun
  | succ n =>
    rcases Script.run_succ hrun with ⟨hret, -⟩ | ⟨_, _, out', hadv, hrest, rfl⟩
    · cases hret
    · unfold Peer.advance at hadv
      cases hq : q input with
      | ok r =>
        simp only [hq] at hadv
        cases hadv
        exact .inl ⟨_, _, rfl, n, hrest⟩
      -- an error is an answer like any other; what is left of the input does not matter then
      | error e =>
        simp only [hq] at hadv
        split_ifs at hadv <;> cases hadv <;> exact .inr ⟨e, _, rfl, n, hrest⟩

/-- **Induction over the iterations of a loop** that has come to its end. -/
theorem Exec.loop_induction {body : σ → Script eof κ (σ ⊕ β)}
    {P : σ → List UInt8 → List UInt8 → β → List UInt8 → Prop}
    (hleave : ∀ {s input out b rest}, Exec (body s) input out (.inr b) rest → P s input out b rest)
    (hnext : ∀ {s s' input mid out out' b rest}, Exec (body s) input out (.inl s') mid →
      P s' mid out' b rest → P s input (out ++ out') b rest) {s : σ} {b : β}
    (h : Exec (.loop body s .ret) input out b rest) : P s input out b rest := by
  obtain ⟨n, hrun⟩ := h
  -- the number of steps decreases with every iteration
  induction n using Nat.strong_induction_on generalizing s input out with
  | h n ih =>
    cases n with
    | zero => cases hrun
    | succ n =>
      rcases Script.run_succ hrun with ⟨hret, -⟩ | ⟨x, out₁, out₂, hadv, hrest, rfl⟩
      · cases hret
      · cases hadv
        obtain ⟨r, mid', out₃, out₄, k, hk, hbody, hcont, rfl⟩ := Script.run_bind hrest
        rw [List.nil_append]
        cases r with
        | inl s' => exact hnext ⟨n, hbody⟩ (ih k (by omega) hcont)
        | inr b' =>
          obtain ⟨rfl, rfl, rfl⟩ := Exec.ret_inv ⟨k, hcont⟩
          simpa using hleave ⟨n, hbody⟩

/-! ### Runs of a script that may fail, to a value -/

namespace Fallible

/-- The script returns the value `a`. -/
def Returns (p : Fallible eof κ α) (input out : List UInt8) (a : α) (rest : List UInt8) : Prop :=
  Exec p.run input out (.ok a) rest

variable {input out rest : List UInt8}

theorem Returns.bind_inv {p : Fallible eof κ α} {f : α → Fallible eof κ β} {b : β}
    (h : Returns (p >>= f) input out b rest) :
    ∃ a mid out₁ out₂, Returns p input out₁ a mid ∧ Returns (f a) mid out₂ b rest ∧
      out = out₁ ++ out₂ := by
  obtain ⟨r, mid, out₁, out₂, hp, hf, hout⟩ := Exec.bind_inv h
  cases r with
  | ok a => exact ⟨a, mid, out₁, out₂, hp, hf, hout⟩
  | error e => cases (Exec.ret_inv hf).1

theorem Returns.pure_inv {a b : α} (h : Returns (pure a : Fallible eof κ α) input out b rest) :
    b = a ∧ rest = input ∧ out = [] := by
  obtain ⟨heq, hrest⟩ := Exec.ret_inv h
  exact ⟨Except.ok.inj heq, hrest⟩

theorem Returns.send_inv {kind : κ} {bs : List UInt8} {u : Unit}
    (h : Returns (send kind bs : Fallible eof κ Unit) input out u rest) :
    rest = input ∧ out = bs := by
  obtain ⟨out', hret, rfl⟩ := Exec.send_inv h
  obtain ⟨-, rfl, rfl⟩ := Exec.ret_inv hret
  exact ⟨rfl, List.append_nil bs⟩

theorem Returns.recv_inv {kind : κ} {q : Reader ε α} {stable : Stable eof q} {a : α}
    (h : Returns (recv kind q stable) input out a rest) : q input = .ok (a, rest) ∧ out = [] := by
  rcases Exec.recv_inv h with ⟨b, mid, hq, hret⟩ | ⟨e, mid, -, hret⟩
  · obtain ⟨heq, rfl, rfl⟩ := Exec.ret_inv hret
    cases heq
    exact ⟨hq, rfl⟩
  · cases (Exec.ret_inv hret).1

theorem Returns.lift_inv {r : Except ε α} {a : α}
    (h : Returns (ExceptT.mk (.ret r) : Fallible eof κ α) input out a rest) :
    r = .ok a ∧ rest = input ∧ out = [] := by
  obtain ⟨heq, hrest⟩ := Exec.ret_inv h
  exact ⟨heq.symm, hrest⟩

/-- Induction over the iterations of a loop that returns. -/
theorem Returns.loop_induction {body : σ → Fallible eof κ (σ ⊕ β)}
    {P : σ → List UInt8 → List UInt8 → β → List UInt8 → Prop}
    (hleave : ∀ {s input out b rest}, Returns (body s) input out (.inr b) rest →
      P s input out b rest)
    (hnext : ∀ {s s' input mid out out' b rest}, Returns (body s) input out (.inl s') mid →
      P s' mid out' b rest → P s input (out ++ out') b rest)
    {s : σ} {b : β} (h : Returns (loop body s) input out b rest) : P s input out b rest := by
  -- induction over the runs of the loop; those in which the body fails do not return
  refine Exec.loop_induction (P := fun s input out r rest => ∀ b, r = .ok b → P s input out b rest)
    ?_ ?_ h b rfl
  · intro s input out r rest hbody b hr
    subst hr
    obtain ⟨x, mid, out₁, out₂, hx, hret, rfl⟩ := Exec.bind_inv hbody
    match x with
    | .ok (.inl s') => cases (Exec.ret_inv hret).1
    | .ok (.inr b') =>
      obtain ⟨heq, rfl, rfl⟩ := Exec.ret_inv hret
      cases heq
      rw [List.append_nil]
      exact hleave hx
    | .error e => cases (Exec.ret_inv hret).1
  · intro s s' input mid out out' r rest hbody ih b hr
    obtain ⟨x, mid', out₁, out₂, hx, hret, rfl⟩ := Exec.bind_inv hbody
    match x with
    | .ok (.inl s'') =>
      obtain ⟨heq, rfl, rfl⟩ := Exec.ret_inv hret
      cases heq
      simpa using hnext hx (ih b hr)
    | .ok (.inr b') => cases (Exec.ret_inv hret).1
    | .error e => cases (Exec.ret_inv hret).1

end Fallible

end Exec

end Session
