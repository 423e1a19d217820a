import Ferrosync.Engine.Sender
import Ferrosync.Protocol.Varlong

set_option autoImplicit false

/-! # The end of a session

From the last file on, the two peers exchange the ends of the phases (`NDX_DONE`), in a pull the
statistics, and the goodbyes. The receiving side counts its rounds in `receiver_phase_exchange`
(client) and `server_receiver_phase_exchange` (server), the sending side in `sender_loop`.

`end_of_session_iff` says when the two counts fit: in a push unless the client only lists the files
and skips its loop, which the server does not; in a pull unless the client adds rounds for the
sub-lists of an incremental file list, which the server does not answer, or the statistics do not
fit the compact encoding.
-/

namespace Ferrosync

open ByteStream Session Relation

/-- A part of a session. -/
abbrev Dialogue (α : Type) : Type 1 := Fallible unexpectedEof Message α

/-! ## Statistics -/

/-- `TransferStats`, the two numbers that are sent. -/
structure TransferStats where
  bytesSent : UInt64
  totalSize : UInt64

namespace WireFormat

def writeStats (wf : WireFormat) (stats : TransferStats) : List UInt8 :=
  writeVarlong30 0 3 wf.intCodec ++ (writeVarlong30 (toI64 stats.bytesSent.toNat) 3 wf.intCodec ++
    (writeVarlong30 (toI64 stats.totalSize.toNat) 3 wf.intCodec ++
      if wf.hasIflags then writeVarlong30 0 3 wf.intCodec ++ writeVarlong30 0 3 wf.intCodec
      else []))

def readTimes (wf : WireFormat) : Wire Unit :=
  if wf.hasIflags then do
    let _ ← readVarlong30 3 wf.intCodec
    let _ ← readVarlong30 3 wf.intCodec
    pure ()
  else pure ()

def readStats (wf : WireFormat) : Wire Unit := do
  let _ ← readVarlong30 3 wf.intCodec
  let _ ← readVarlong30 3 wf.intCodec
  let _ ← readVarlong30 3 wf.intCodec
  wf.readTimes

theorem stable_stats (wf : WireFormat) : Stable unexpectedEof wf.readStats := by
  have hlong := stable_varlong30 3 wf.intCodec
  refine hlong.bind fun _ => hlong.bind fun _ => hlong.bind fun _ => ?_
  exact Stable.ite (hlong.bind fun _ => hlong.bind fun _ => Stable.pure _) (Stable.pure _)

/-- The statistics fit their varlongs; the older codec carries every value. -/
def StatsFit (wf : WireFormat) (stats : TransferStats) : Prop :=
  wf.intCodec = .compact → stats.bytesSent.toNat < 2 ^ 58 ∧ stats.totalSize.toNat < 2 ^ 58

/-- Numbers that fit are read back. -/
theorem reads_statsNumber (wf : WireFormat) {n : UInt64} (h : wf.intCodec = .compact → n.toNat < 2 ^ 58) :
    Reads (readVarlong30 3 wf.intCodec) (writeVarlong30 (toI64 n.toNat) 3 wf.intCodec)
      (toI64 n.toNat) := by
  refine reads_varlong30 (by omega) (by omega) (isI64_toI64 _) fun hcompact => ?_
  have hlt := h hcompact
  rw [toI64_eq ⟨by omega, by omega⟩]
  omega

theorem reads_zero (wf : WireFormat) :
    Reads (readVarlong30 3 wf.intCodec) (writeVarlong30 0 3 wf.intCodec) 0 :=
  reads_varlong30 (by omega) (by omega) (by unfold IsI64; omega) fun _ => by omega

theorem writeZero_head (codec : IntCodec) :
    ∃ head rest ndx, writeVarlong30 0 3 codec = head ++ rest ∧ head ≠ [] ∧
      Reads (readNdx .default codec) head (ndx, .default) := by
  cases codec with
  | fixed =>
    refine ⟨writeInt 0, [], 0, by decide, by decide, ?_⟩
    exact (reads_int ⟨by decide, by decide⟩).bind_nil (Reads.pure _)
  | compact => exact ⟨[0], [0, 0], ndxDone, by decide +kernel, by decide, reads_done _ .compact⟩

theorem writeStats_head (wf : WireFormat) (stats : TransferStats) :
    ∃ head rest ndx, wf.writeStats stats = head ++ rest ∧ head ≠ [] ∧
      Reads (readNdx .default wf.intCodec) head (ndx, .default) := by
  obtain ⟨head, rest, ndx, hzero, hne, hread⟩ := writeZero_head wf.intCodec
  unfold writeStats
  rw [hzero, List.append_assoc]
  exact ⟨head, _, ndx, rfl, hne, hread⟩

variable {stats : TransferStats}

theorem reads_stats {wf : WireFormat} (h : wf.StatsFit stats) :
    Reads wf.readStats (wf.writeStats stats) () := by
  unfold readStats writeStats readTimes
  refine (reads_zero wf).bind ?_
  refine (reads_statsNumber wf fun hcompact => (h hcompact).1).bind ?_
  refine (reads_statsNumber wf fun hcompact => (h hcompact).2).bind ?_
  cases wf.hasIflags with
  | false => exact Reads.pure ()
  | true => exact (reads_zero wf).bind ((reads_zero wf).bind_nil (Reads.pure ()))

/-- A number that does not fit is refused by the reader. -/
theorem readStats_error {wf : WireFormat} (h : ¬ wf.StatsFit stats) :
    wf.readStats (wf.writeStats stats) =
      .error (invalidVarint "extra bytes would overflow u64") := by
  unfold StatsFit at h
  push Not at h
  obtain ⟨hcompact, hlarge⟩ := h
  -- only the compact codec has a bound; the fixed one sends any 64 bits
  have hnumber : ∀ {n : UInt64} (rest : List UInt8), 2 ^ 58 ≤ n.toNat →
      readVarlong30 3 wf.intCodec (writeVarlong30 (toI64 n.toNat) 3 wf.intCodec ++ rest) =
        .error (invalidVarint "extra bytes would overflow u64") := by
    intro n rest hn
    rw [hcompact]
    refine readVarlong_error (by omega) (by omega) ?_ rest
    have hlt := n.toNat_lt
    unfold toI64
    rw [Int.bmod_def]
    split <;> omega
  unfold readStats writeStats
  rw [bind_ok (reads_zero wf _)]
  -- the reader stops at the first of the two numbers that is too large
  by_cases hsent : stats.bytesSent.toNat < 2 ^ 58
  · have hread := reads_statsNumber wf fun _ => hsent
    rw [bind_ok (hread _)]
    exact bind_error (hnumber _ (hlarge hsent))
  · exact bind_error (hnumber _ (by omega))

/-! ## Goodbyes -/

def sendDone (wf : WireFormat) : Dialogue Unit := Fallible.send .ndx (doneBytes wf.intCodec)

/-- `let _ = read_ndx(..).await`: an error is ignored. -/
def awaitNdx (wf : WireFormat) (state : NdxState) : Dialogue NdxState :=
  ExceptT.mk (.recv .ndx (readNdx state wf.intCodec) (stable_ndx _ _) fun
    | .ok (_, state) => .ret (.ok state)
    | .error _ => .ret (.ok state))

def senderGoodbye (wf : WireFormat) : Dialogue Unit := do
  let state ← wf.awaitNdx .default
  if wf.hasErrorExitSync then do
    wf.sendDone
    let _ ← wf.awaitNdx state
    pure ()
  else pure ()

def receiverGoodbye (wf : WireFormat) : Dialogue Unit := do
  wf.sendDone
  let _ ← wf.awaitNdx .default
  wf.sendDone
  if wf.hasErrorExitSync then wf.sendDone else pure ()

def serverSenderGoodbye (wf : WireFormat) : Dialogue Unit := do
  wf.sendDone
  let state ← wf.awaitNdx .default
  let state ← wf.awaitNdx state
  if wf.hasErrorExitSync then do
    let _ ← wf.awaitNdx state
    pure ()
  else pure ()

def serverReceiverGoodbye (wf : WireFormat) : Dialogue Unit := do
  wf.sendDone
  if wf.hasErrorExitSync then wf.sendDone else pure ()

/-! ## Phases -/

/-- Read the sender's answer; anything but `NDX_DONE` is only logged. -/
def readAnswer (wf : WireFormat) (state : NdxState) : Dialogue NdxState := do
  let (_, state) ← Fallible.recv .ndx (readNdx state wf.intCodec) (stable_ndx _ _)
  pure state

/-- `n` rounds: the end of a phase, and the sender's answer to it. -/
def rounds (wf : WireFormat) : Nat → NdxState → Dialogue NdxState
  | 0, state => pure state
  | n + 1, state => do
    wf.sendDone
    let state ← wf.readAnswer state
    wf.rounds n state

/-- `total_ndx_rounds`: one round for each phase, and one for each sub-list. The number of lists
is cut to a `u32`, and the sum is one. -/
def totalRounds (wf : WireFormat) (numFlists : Nat) : Nat :=
  ((if wf.supportsIncrementalFlist then numFlists % 2 ^ 32 - 1 else 0) + wf.phaseCount + 1) % 2 ^ 32

def receiverPhaseExchange (wf : WireFormat) (numFlists : Nat) : Dialogue Unit := do
  let _ ← wf.rounds (wf.totalRounds numFlists) .default
  pure ()

/-- The loop of `server_receiver_phase_exchange`: the last end of a phase is not answered
inside it. -/
def serverRounds (wf : WireFormat) : List Nat → NdxState → Dialogue NdxState
  | [], state => pure state
  | phase :: phases, state => do
    wf.sendDone
    if phase < wf.phaseCount then do
      let state ← wf.readAnswer state
      wf.serverRounds phases state
    else wf.serverRounds phases state

def serverReceiverPhaseExchange (wf : WireFormat) : Dialogue Unit := do
  let state ← wf.serverRounds (List.range (wf.phaseCount + 1)) .default
  let _ ← wf.readAnswer state
  pure ()

end WireFormat

/-! ## The four roles

Where the last file has been dealt with, the loop of the sending side is in its first phase and
has no sub-list left to inject. -/

/-- The loop of the sending side behind the last file. -/
def SenderVars.behindLast (genState sendState : NdxState) (sent : List FileEntry) : SenderVars :=
  ⟨genState, sendState, 0, [], sent⟩

/-- The end of `run_push`. With `--list-only` the client prints its list and goes on to the goodbye
without the loop that answers the ends of the phases. -/
def pushSender {τ : Type} (X : Externals) (S : Sender τ) (listOnly : Bool) (v : SenderVars) :
    Dialogue Unit :=
  if listOnly then S.wire.senderGoodbye
  else do
    let _ ← S.senderFrom X v
    S.wire.senderGoodbye

/-- The end of `handle_receive_impl`, which does not look at `--list-only`. -/
def pushReceiver (wf : WireFormat) : Dialogue Unit := do
  wf.serverReceiverPhaseExchange
  wf.serverReceiverGoodbye

/-- The end of `handle_send_impl`. -/
def pullSender {τ : Type} (X : Externals) (S : Sender τ) (v : SenderVars)
    (stats : TransferStats) : Dialogue Unit := do
  let _ ← S.senderFrom X v
  Fallible.send .stats (S.wire.writeStats stats)
  S.wire.serverSenderGoodbye

/-- The end of `run_pull`. With `--list-only` it is the same: only the transfer is skipped. -/
def pullReceiver (wf : WireFormat) (numFlists : Nat) : Dialogue Unit := do
  wf.receiverPhaseExchange numFlists
  Fallible.recv .stats wf.readStats wf.stable_stats
  wf.receiverGoodbye

/-- In every state that the two can reach, each has heard what the other sent, under the kind it
was sent with, and neither waits for what will never come. -/
def EndsInAgreement (sender receiver : Dialogue Unit) : Prop :=
  ∀ c, ReflTransGen Pair.Step (Pair.start sender.run receiver.run) c →
    c.Agrees ∧ ¬ c.Starved

/-! ## Runs of the two sides

The messages of the two sides alternate, so the run that answers each message at once keeps the
channels empty. By `Pair.agrees_of_done` one run that ends in agreement speaks for all. -/

section Runs

variable {τ α β : Type} {X : Externals} {S : Sender τ} {gen send state : NdxState}
  {phase n : Nat} {sent : List FileEntry} {wf : WireFormat}
  {msgs heard : List (Message × List UInt8)}
  {x : Peer unexpectedEof Message α} {y : Peer unexpectedEof Message β}
  {d : Pair unexpectedEof Message α β}

def doneMessage (wf : WireFormat) : Message × List UInt8 := (.ndx, doneBytes wf.intCodec)

def extraDone (wf : WireFormat) : List (Message × List UInt8) :=
  if wf.hasErrorExitSync then [doneMessage wf] else []

/-- The ends of the phases that each side has sent before the goodbyes. -/
def phaseDones (wf : WireFormat) : List (Message × List UInt8) :=
  List.replicate (wf.phaseCount + 1) (doneMessage wf)

theorem readNdx_nil (state : NdxState) (codec : IntCodec) :
    readNdx state codec [] = .error unexpectedEof := by
  cases codec with
  | fixed | compact => rfl

theorem readVarlong30_nil (codec : IntCodec) : readVarlong30 3 codec [] = .error unexpectedEof := by
  cases codec with
  | fixed | compact => rfl

theorem phaseDones_eq (wf : WireFormat) :
    List.replicate wf.phaseCount (doneMessage wf) ++ [doneMessage wf] = phaseDones wf :=
  List.replicate_succ'.symm

/-- What is sent behind the last file is not empty. -/
theorem ne_nil_of_mem_dones (wf : WireFormat) {m : Message × List UInt8}
    (h : m ∈ phaseDones wf ∨ m = doneMessage wf ∨ m ∈ extraDone wf) : m.2 ≠ [] := by
  have hm : m = doneMessage wf := by
    rcases h with h | rfl | h
    · exact List.eq_of_mem_replicate h
    · rfl
    · unfold extraDone at h
      split at h
      · exact List.mem_singleton.1 h
      · cases h
  rw [hm]
  exact doneBytes_ne_nil _

/-- A sender that has nothing to inject waits for a request. -/
theorem unroll_iteration (X : Externals) (S : Sender τ) (gen send : NdxState) (phase : Nat)
    (sent : List FileEntry) (f : Except Failure SenderVars → Script unexpectedEof Message α) :
    ∃ next, Script.unroll (Fallible.loopBody (S.iteration X)) f ⟨gen, send, phase, [], sent⟩ =
        .recv .ndx (S.readRequest gen) (S.stable_request gen) next ∧
      next (.ok (.done, gen)) =
        if phase + 1 > S.wire.phaseCount then f (.ok ⟨gen, send, phase + 1, [], sent⟩)
        else .send .ndx (doneBytes S.wire.intCodec) (.loop (Fallible.loopBody (S.iteration X))
          ⟨gen, send, phase + 1, [], sent⟩ f) := by
  refine ⟨_, rfl, ?_⟩
  -- behind the last phase the loop returns; before it the end of the phase is answered
  by_cases hlast : phase + 1 > S.wire.phaseCount
  · have hanswer : S.answer X ⟨gen, send, phase, [], sent⟩ .done =
        pure (.inr ⟨gen, send, phase + 1, [], sent⟩) := by rw [Sender.answer, if_pos hlast]
    rw [if_pos hlast]
    show ((S.answer X ⟨gen, send, phase, [], sent⟩ .done).run >>= _) >>= _ = _
    rw [hanswer]
    rfl
  · have hanswer : (S.answer X ⟨gen, send, phase, [], sent⟩ .done).run =
        .send .ndx (doneBytes S.wire.intCodec) (.ret (.ok (.inl ⟨gen, send, phase + 1, [], sent⟩))) := by
      rw [Sender.answer, if_neg hlast, writeNdx_done]
      rfl
    rw [if_neg hlast]
    show ((S.answer X ⟨gen, send, phase, [], sent⟩ .done).run >>= _) >>= _ = _
    rw [hanswer]
    rfl

theorem Sender.reads_request_done (S : Sender τ) (state : NdxState) :
    Reads (S.readRequest state) (doneBytes S.wire.intCodec) (.done, state) := by
  refine (reads_done state _).bind_nil ?_
  dsimp only
  exact Reads.pure _

variable {f : Except Failure SenderVars → Script unexpectedEof Message α}
  {g : Except Failure NdxState → Script unexpectedEof Message β}
  {k : Except Failure Unit → Script unexpectedEof Message α}
  {j : Except Failure Unit → Script unexpectedEof Message β}

theorem talks_endOfPhase
    (h : Pair.Talks ⟨⟨if phase + 1 > S.wire.phaseCount then f (.ok ⟨gen, send, phase + 1, [], sent⟩)
        else .send .ndx (doneBytes S.wire.intCodec) (.loop (Fallible.loopBody (S.iteration X))
          ⟨gen, send, phase + 1, [], sent⟩ f), [], msgs, heard ++ [doneMessage S.wire]⟩, y⟩ d) :
    Pair.Talks ⟨⟨.loop (Fallible.loopBody (S.iteration X)) ⟨gen, send, phase, [], sent⟩ f,
      doneBytes S.wire.intCodec, msgs, heard⟩, y⟩ d := by
  obtain ⟨next, hunroll, hdone⟩ := unroll_iteration X S gen send phase sent f
  refine Pair.Talks.loop_left ?_
  rw [hunroll]
  refine Pair.Talks.hear_left (S.reads_request_done gen) ?_
  rw [hdone]
  exact h

/-- The receiver reads the answer to an end of a phase. -/
theorem talks_readAnswer
    (h : Pair.Talks ⟨x, ⟨g (.ok state), [], msgs, heard ++ [doneMessage wf]⟩⟩ d) :
    Pair.Talks ⟨x, ⟨(wf.readAnswer state).run >>= g, doneBytes wf.intCodec, msgs, heard⟩⟩ d :=
  Pair.Talks.hear_right (reads_done state wf.intCodec) h

variable {inbox : List UInt8} {stats : TransferStats}

theorem talks_sendDone_right (h : Pair.Talks ⟨x.push (doneBytes wf.intCodec),
      ⟨j (.ok ()), inbox, msgs ++ [doneMessage wf], heard⟩⟩ d) :
    Pair.Talks ⟨x, ⟨wf.sendDone.run >>= j, inbox, msgs, heard⟩⟩ d :=
  Pair.Talks.send_right h

/-- Rounds before the last phase: the sender answers each of them. -/
theorem talks_rounds :
    ∀ (n phase : Nat) {msgs heard msgs' heard' : List (Message × List UInt8)},
      phase + n ≤ S.wire.phaseCount →
      Pair.Talks
        ⟨⟨.loop (Fallible.loopBody (S.iteration X)) ⟨gen, send, phase + n, [], sent⟩ f, [],
            msgs ++ List.replicate n (doneMessage S.wire),
            heard ++ List.replicate n (doneMessage S.wire)⟩,
          ⟨g (.ok state), [], msgs' ++ List.replicate n (doneMessage S.wire),
            heard' ++ List.replicate n (doneMessage S.wire)⟩⟩ d →
      Pair.Talks
        ⟨⟨.loop (Fallible.loopBody (S.iteration X)) ⟨gen, send, phase, [], sent⟩ f, [], msgs, heard⟩,
          ⟨(S.wire.rounds n state).run >>= g, [], msgs', heard'⟩⟩ d
  -- Induction on the rounds, with the phase that the sender is in as a parameter: a round takes the
  -- sender to the next phase and the receiver to the next round.
  | 0, phase, _, _, _, _, _, h => by
    simp only [List.replicate_zero, List.append_nil] at h
    exact h
  | n + 1, phase, msgs, heard, msgs', heard', hphase, h => by
    rw [WireFormat.rounds, Fallible.bind_run]
    -- the receiver ends the phase, the sender answers, the receiver reads the answer
    refine talks_sendDone_right ?_
    refine talks_endOfPhase ?_
    rw [if_neg (by omega)]
    refine Pair.Talks.send_left ?_
    rw [Fallible.cont, Fallible.bind_run]
    refine talks_readAnswer ?_
    refine talks_rounds n (phase + 1) (by omega) ?_
    simpa only [List.replicate_succ, List.append_assoc, List.singleton_append, Nat.add_assoc,
      Nat.add_comm 1 n, doneMessage] using h

theorem serverRounds_append (phases : List Nat) (hphases : ∀ phase ∈ phases, phase < wf.phaseCount)
    (rest : List Nat) (state : NdxState) :
    wf.serverRounds (phases ++ rest) state =
      wf.rounds phases.length state >>= wf.serverRounds rest := by
  induction phases generalizing state with
  | nil => exact (pure_bind _ _).symm
  | cons phase phases ih =>
    obtain ⟨hphase, hrest⟩ := List.forall_mem_cons.mp hphases
    simp [WireFormat.serverRounds, hphase, ih hrest, WireFormat.rounds, bind_assoc]

/-- `server_receiver_phase_exchange` is a round for each phase but the last, whose end is
followed by the sender's last word. -/
theorem serverReceiverPhaseExchange_eq :
    wf.serverReceiverPhaseExchange = (do
      let state ← wf.rounds wf.phaseCount .default
      wf.sendDone
      let _ ← wf.readAnswer state
      pure ()) := by
  rw [WireFormat.serverReceiverPhaseExchange, List.range_succ, serverRounds_append _ (by simp),
    List.length_range]
  simp only [bind_assoc, WireFormat.serverRounds, lt_irrefl, if_false, pure_bind]

/-- Behind its loop the sender writes its last word. -/
theorem senderFrom_run (X : Externals) (S : Sender τ) (v : SenderVars)
    (next : Except Failure (List FileEntry) → Script unexpectedEof Message α) :
    ∃ f, ((S.senderFrom X v).run >>= next) = .loop (Fallible.loopBody (S.iteration X)) v f ∧
      ∀ v', f (.ok v') = S.wire.sendDone.run >>= fun _ => next (.ok v'.sent) := by
  refine ⟨_, Fallible.bind_run _ _ next, fun v' => ?_⟩
  show Fallible.cont _ next (.ok v') = _
  rw [Fallible.cont, writeNdx_done]
  rfl

theorem talks_awaitNdx_left {next : Except Failure NdxState → Script unexpectedEof Message α}
    (h : Pair.Talks ⟨⟨next (.ok state), [], msgs, heard ++ [doneMessage wf]⟩, y⟩ d) :
    Pair.Talks ⟨⟨(wf.awaitNdx state).run >>= next, doneBytes wf.intCodec, msgs, heard⟩, y⟩ d :=
  Pair.Talks.hear_left (reads_done state wf.intCodec) h

theorem talks_awaitNdx_right {next : Except Failure NdxState → Script unexpectedEof Message β}
    (h : Pair.Talks ⟨x, ⟨next (.ok state), [], msgs, heard ++ [doneMessage wf]⟩⟩ d) :
    Pair.Talks ⟨x, ⟨(wf.awaitNdx state).run >>= next, doneBytes wf.intCodec, msgs, heard⟩⟩ d :=
  Pair.Talks.hear_right (reads_done state wf.intCodec) h

theorem talks_sendDone_left (h : Pair.Talks ⟨⟨k (.ok ()), inbox, msgs ++ [doneMessage wf], heard⟩,
      y.push (doneBytes wf.intCodec)⟩ d) :
    Pair.Talks ⟨⟨wf.sendDone.run >>= k, inbox, msgs, heard⟩, y⟩ d :=
  Pair.Talks.send_left h

theorem talks_pushGoodbye (wf : WireFormat)
    (msgs heard msgs' heard' : List (Message × List UInt8)) :
    ∃ inbox, Pair.Talks
      ⟨⟨wf.senderGoodbye.run >>= .ret, [], msgs, heard⟩,
        ⟨wf.serverReceiverGoodbye.run >>= .ret, [], msgs', heard'⟩⟩
      ⟨⟨.ret (.ok ()), [], msgs ++ extraDone wf, heard ++ [doneMessage wf] ++ extraDone wf⟩,
        ⟨.ret (.ok ()), inbox, msgs' ++ [doneMessage wf] ++ extraDone wf, heard'⟩⟩ := by
  unfold WireFormat.senderGoodbye WireFormat.serverReceiverGoodbye extraDone
  simp only [Fallible.bind_run]
  cases wf.hasErrorExitSync with
  | false =>
    refine ⟨[], ?_⟩
    refine talks_sendDone_right ?_
    refine talks_awaitNdx_left ?_
    simpa using .refl
  -- with the exchange of exit codes the sender answers, and its answer stays unread
  | true =>
    refine ⟨doneBytes wf.intCodec, ?_⟩
    refine talks_sendDone_right ?_
    refine talks_awaitNdx_left ?_
    simp only [Fallible.cont_ok, Fallible.bind_run, if_true]
    refine talks_sendDone_left ?_
    refine talks_sendDone_right ?_
    simp only [Fallible.cont_ok, Fallible.bind_run]
    refine talks_awaitNdx_left ?_
    exact .refl

theorem talks_pullGoodbye {msgs' heard' : List (Message × List UInt8)} :
    Pair.Talks
      ⟨⟨wf.serverSenderGoodbye.run >>= .ret, [], msgs, heard⟩,
        ⟨wf.receiverGoodbye.run >>= .ret, [], msgs', heard'⟩⟩
      ⟨⟨.ret (.ok ()), [], msgs ++ [doneMessage wf],
          heard ++ [doneMessage wf] ++ [doneMessage wf] ++ extraDone wf⟩,
        ⟨.ret (.ok ()), [], msgs' ++ [doneMessage wf] ++ [doneMessage wf] ++ extraDone wf,
          heard' ++ [doneMessage wf]⟩⟩ := by
  unfold WireFormat.serverSenderGoodbye WireFormat.receiverGoodbye extraDone
  simp only [Fallible.bind_run]
  -- both sides speak first: neither waits before it has sent its own goodbye
  refine talks_sendDone_left ?_
  refine talks_sendDone_right ?_
  simp only [Fallible.cont_ok, Fallible.bind_run]
  refine talks_awaitNdx_left ?_
  refine talks_awaitNdx_right ?_
  simp only [Fallible.cont_ok, Fallible.bind_run]
  refine talks_sendDone_right ?_
  refine talks_awaitNdx_left ?_
  cases wf.hasErrorExitSync with
  | false =>
    simpa using .refl
  | true =>
    simp only [Fallible.cont_ok, Fallible.bind_run, if_true]
    refine talks_sendDone_right ?_
    refine talks_awaitNdx_left ?_
    exact .refl

/-- The phases of a push: the server has read the sender's last word when both say goodbye. -/
theorem talks_pushPhases (X : Externals) (gen send : NdxState) (sent : List FileEntry)
    (h : Pair.Talks
      ⟨⟨S.wire.senderGoodbye.run >>= k, [],
          phaseDones S.wire,
          phaseDones S.wire⟩,
        ⟨S.wire.serverReceiverGoodbye.run >>= j, [],
          phaseDones S.wire,
          phaseDones S.wire⟩⟩ d) :
    Pair.Talks (Pair.start ((pushSender X S false (.behindLast gen send sent)).run >>= k)
      ((pushReceiver S.wire).run >>= j)) d := by
  unfold pushSender pushReceiver
  simp only [Bool.false_eq_true, if_false, Fallible.bind_run]
  obtain ⟨f, hleft, hlast⟩ := senderFrom_run X S (.behindLast gen send sent)
    (Fallible.cont (fun _ => S.wire.senderGoodbye) k)
  rw [hleft, serverReceiverPhaseExchange_eq, Fallible.bind_run]
  -- all the phases but the last are answered
  refine talks_rounds S.wire.phaseCount 0 (by omega) ?_
  simp only [Fallible.cont_ok, Fallible.bind_run]
  -- the end of the last phase ends the loop of the sender, whose answer is its first word behind it
  refine talks_sendDone_right ?_
  refine talks_endOfPhase ?_
  rw [if_pos (by omega), hlast]
  refine talks_sendDone_left ?_
  simp only [Fallible.cont_ok, Fallible.bind_run]
  refine talks_readAnswer ?_
  simpa only [Fallible.cont_ok, Fallible.pure_run, List.nil_append, phaseDones_eq] using h

/-- **A push that transfers ends in agreement.** -/
theorem push_agrees (X : Externals) (S : Sender τ) (gen send : NdxState) (sent : List FileEntry) :
    EndsInAgreement (pushSender X S false (.behindLast gen send sent)) (pushReceiver S.wire) := by
  intro c hc
  obtain ⟨inbox, hbye⟩ := talks_pushGoodbye S.wire (phaseDones S.wire) (phaseDones S.wire)
    (phaseDones S.wire) (phaseDones S.wire)
  have hrun := talks_pushPhases X gen send sent hbye
  rw [Script.bind_ret, Script.bind_ret] at hrun
  refine Pair.agrees_of_done hrun ⟨rfl, rfl⟩ ⟨?_, ?_⟩ ?_ ?_ hc
  · exact List.prefix_append _ _
  · exact List.prefix_rfl
  · intro m hm
    refine ne_nil_of_mem_dones S.wire ?_
    rcases List.mem_append.1 hm with hm | hm
    · exact .inl hm
    · exact .inr (.inr hm)
  · intro m hm
    refine ne_nil_of_mem_dones S.wire ?_
    simpa only [List.mem_append, List.mem_singleton, or_assoc] using hm

/-- A client that only lists the files reads the end of one phase, or of two and answers the first
where it takes part in the exchange of exit codes, and is through. The server waits for the answer
to the end of a phase that nobody gives. -/
theorem listOnly_starves {version compatFlags : Nat} (hwire : S.wire = .new version compatFlags)
    (v : SenderVars) : ¬ EndsInAgreement (pushSender X S true v) (pushReceiver S.wire) := by
  obtain ⟨d, hrun, hstarved⟩ : ∃ d, Pair.Talks (Pair.start
      ((pushSender X S true v).run >>= .ret) ((pushReceiver S.wire).run >>= .ret)) d ∧
      d.Starved := by
    have hphases : S.wire.phaseCount = (if version ≥ 29 then 1 else 0) + 1 := by
      rw [hwire]
      show (if version ≥ 29 then 2 else 1) = _
      split <;> rfl
    have hsync : S.wire.hasErrorExitSync = decide (version ≥ 31) := by
      rw [hwire]
      rfl
    unfold pushSender pushReceiver
    rw [serverReceiverPhaseExchange_eq, if_pos rfl, hphases, WireFormat.senderGoodbye, hsync]
    -- the client reads one end of a phase, or two of them with the exchange of exit codes
    by_cases hexit : version ≥ 31
    · rw [if_pos (show version ≥ 29 by omega)]
      simp only [Fallible.bind_run, WireFormat.rounds, hexit, decide_true, if_true]
      apply Exists.intro
      constructor
      · apply talks_sendDone_right
        apply talks_awaitNdx_left
        rewrite [Fallible.cont_ok, Fallible.bind_run]
        apply talks_sendDone_left
        rewrite [Fallible.cont_ok, Fallible.cont_ok, Fallible.bind_run, Fallible.bind_run]
        apply talks_readAnswer
        rewrite [Fallible.cont_ok, Fallible.bind_run]
        apply talks_sendDone_right
        apply talks_awaitNdx_left
        rewrite [Fallible.cont_ok, Fallible.pure_run, Fallible.cont_ok, Fallible.bind_run]
        exact .refl
      -- the client has returned, and nothing is on the way to the server
      · exact Pair.starved_of_waits rfl (Pair.Peer.advance_wait (readNdx_nil _ _)) (.inr rfl)
    · simp only [Fallible.bind_run, WireFormat.rounds, hexit, decide_false, Bool.false_eq_true,
        if_false]
      apply Exists.intro
      constructor
      · apply talks_sendDone_right
        apply talks_awaitNdx_left
        rewrite [Fallible.cont_ok, Fallible.cont_ok, Fallible.bind_run]
        exact .refl
      · exact Pair.starved_of_waits rfl (Pair.Peer.advance_wait (readNdx_nil _ _)) (.inr rfl)
  rw [Script.bind_ret, Script.bind_ret] at hrun
  exact fun hagrees => (hagrees _ hrun.steps).2 hstarved

theorem rounds_add (m n : Nat) (state : NdxState) :
    wf.rounds (m + n) state = wf.rounds m state >>= wf.rounds n := by
  induction m generalizing state with
  | zero => rw [Nat.zero_add]; exact (pure_bind _ _).symm
  | succ m ih => simp only [Nat.succ_add, WireFormat.rounds, ih, bind_assoc]

/-- The phases of a pull: the statistics are in the channel when the client has counted one
round for each phase. -/
theorem talks_pullPhases {extra : Nat} (h : Pair.Talks
      ⟨⟨S.wire.serverSenderGoodbye.run >>= k, [],
          phaseDones S.wire ++
            [(.stats, S.wire.writeStats stats)],
          phaseDones S.wire⟩,
        ⟨(S.wire.rounds extra .default).run >>= g, S.wire.writeStats stats,
          phaseDones S.wire,
          phaseDones S.wire⟩⟩ d) :
    Pair.Talks (Pair.start ((pullSender X S (.behindLast gen send sent) stats).run >>= k)
      ((S.wire.rounds (S.wire.phaseCount + (extra + 1)) .default).run >>= g)) d := by
  unfold pullSender
  -- the statistics are opaque here: `simp` would unfold the bytes
  generalize S.wire.writeStats stats = bytes at h ⊢
  simp only [Fallible.bind_run]
  obtain ⟨f, hleft, hlast⟩ := senderFrom_run X S (.behindLast gen send sent)
    (Fallible.cont (fun _ => do
      Fallible.send .stats bytes
      S.wire.serverSenderGoodbye) k)
  rw [hleft, rounds_add, Fallible.bind_run]
  refine talks_rounds S.wire.phaseCount 0 (by omega) ?_
  rw [Fallible.cont_ok, WireFormat.rounds, Fallible.bind_run]
  refine talks_sendDone_right ?_
  refine talks_endOfPhase ?_
  rw [if_pos (by omega), hlast]
  refine talks_sendDone_left ?_
  simp only [Fallible.cont_ok, Fallible.bind_run]
  refine talks_readAnswer ?_
  -- behind its last answer the server sends the statistics without being asked
  refine Pair.Talks.send_left ?_
  rw [Peer.push_mk, List.nil_append, List.nil_append, phaseDones_eq]
  exact h

theorem pullReceiver_run (extra : Nat)
    (hextra : S.wire.totalRounds n = S.wire.phaseCount + (extra + 1))
    (j : Except Failure Unit → Script unexpectedEof Message β) :
    ((pullReceiver S.wire n).run >>= j) =
      ((S.wire.rounds (S.wire.phaseCount + (extra + 1)) .default).run >>=
        Fallible.cont (fun _ => do
          Fallible.recv .stats S.wire.readStats S.wire.stable_stats
          S.wire.receiverGoodbye) j) := by
  unfold pullReceiver WireFormat.receiverPhaseExchange
  rw [hextra, Fallible.bind_run, Fallible.bind_run]
  congr 1

/-- The run of a pull without extra rounds whose statistics fit. -/
theorem talks_pull (X : Externals) (gen send : NdxState) (sent : List FileEntry)
    (hfit : S.wire.StatsFit stats) (hrounds : S.wire.totalRounds n = S.wire.phaseCount + 1) :
    Pair.Talks (Pair.start ((pullSender X S (.behindLast gen send sent) stats).run >>= .ret)
        ((pullReceiver S.wire n).run >>= .ret))
      ⟨⟨.ret (.ok ()), [],
          phaseDones S.wire ++
            [(.stats, S.wire.writeStats stats)] ++ [doneMessage S.wire],
          phaseDones S.wire ++ [doneMessage S.wire] ++
            [doneMessage S.wire] ++ extraDone S.wire⟩,
        ⟨.ret (.ok ()), [],
          phaseDones S.wire ++ [doneMessage S.wire] ++
            [doneMessage S.wire] ++ extraDone S.wire,
          phaseDones S.wire ++
            [(.stats, S.wire.writeStats stats)] ++ [doneMessage S.wire]⟩⟩ := by
  rw [pullReceiver_run 0 hrounds]
  refine talks_pullPhases ?_
  rw [WireFormat.rounds, Fallible.pure_run, Fallible.cont_ok, Fallible.bind_run,
    Fallible.recv_run]
  refine Pair.Talks.hear_right (WireFormat.reads_stats hfit) ?_
  exact talks_pullGoodbye

/-- **A pull without extra rounds ends in agreement.** -/
theorem pull_agrees (X : Externals) (gen send : NdxState) (sent : List FileEntry)
    (hfit : S.wire.StatsFit stats) (hrounds : S.wire.totalRounds n = S.wire.phaseCount + 1) :
    EndsInAgreement (pullSender X S (.behindLast gen send sent) stats)
      (pullReceiver S.wire n) := by
  intro c hc
  have hrun := talks_pull X gen send sent hfit hrounds
  rw [Script.bind_ret, Script.bind_ret] at hrun
  -- Every run ends like this one (`agrees_of_done`), as no message is empty.
  refine Pair.agrees_of_done hrun ⟨rfl, rfl⟩ ⟨List.prefix_rfl, List.prefix_rfl⟩ ?_ ?_ hc
  · intro m hm
    simp only [List.mem_append, List.mem_singleton] at hm
    rcases hm with (hm | rfl) | hm
    · exact ne_nil_of_mem_dones S.wire (.inl hm)
    · obtain ⟨head, rest, -, hstats, hne, -⟩ := WireFormat.writeStats_head S.wire stats
      rw [hstats]
      exact List.append_ne_nil_of_left_ne_nil hne rest
    · exact ne_nil_of_mem_dones S.wire (.inr (.inl hm))
  · intro m hm
    simp only [List.mem_append, List.mem_singleton] at hm
    refine ne_nil_of_mem_dones S.wire ?_
    tauto

/-- An extra round of the client reads the statistics as an index. -/
theorem pull_disagrees (extra : Nat)
    (hrounds : S.wire.totalRounds n = S.wire.phaseCount + (extra + 1 + 1)) :
    ¬ EndsInAgreement (pullSender X S (.behindLast gen send sent) stats)
      (pullReceiver S.wire n) := by
  obtain ⟨head, rest, ndx, hstats, -, hread⟩ := WireFormat.writeStats_head S.wire stats
  obtain ⟨d, hrun, hsent, hheard⟩ : ∃ d, Pair.Talks (Pair.start
        ((pullSender X S (.behindLast gen send sent) stats).run >>= .ret)
        ((pullReceiver S.wire n).run >>= .ret)) d ∧
      d.left.sent = phaseDones S.wire ++ [(.stats, S.wire.writeStats stats)] ∧
      d.right.heard = phaseDones S.wire ++ [(.ndx, head)] := by
    rw [pullReceiver_run _ hrounds]
    apply Exists.intro
    constructor
    -- the client sends one end of a phase too many, and reads its answer from the statistics
    · apply talks_pullPhases
      rewrite [WireFormat.rounds, Fallible.bind_run]
      apply talks_sendDone_right
      rewrite [Fallible.cont_ok, Fallible.bind_run, WireFormat.readAnswer, Fallible.bind_run,
        Fallible.recv_run, Peer.push_mk, List.nil_append]
      nth_rewrite 2 [hstats]
      apply Pair.Talks.recv_right hread
      exact .refl
    · exact ⟨rfl, rfl⟩
  rw [Script.bind_ret, Script.bind_ret] at hrun
  intro hagrees
  obtain ⟨⟨hinitial, -⟩, -⟩ := hagrees _ hrun.steps
  -- what it heard is no initial part of what was sent: an index in place of statistics
  rw [hsent, hheard, List.prefix_append_right_inj, List.cons_prefix_cons] at hinitial
  cases hinitial.1

/-- A client that cannot read the statistics leaves the server waiting for its goodbye. -/
theorem pull_starves (hfit : ¬ S.wire.StatsFit stats)
    (hrounds : S.wire.totalRounds n = S.wire.phaseCount + 1) :
    ¬ EndsInAgreement (pullSender X S (.behindLast gen send sent) stats)
      (pullReceiver S.wire n) := by
  obtain ⟨d, hrun, hstarved⟩ : ∃ d, Pair.Talks (Pair.start
        ((pullSender X S (.behindLast gen send sent) stats).run >>= .ret)
        ((pullReceiver S.wire n).run >>= .ret)) d ∧ d.Starved := by
    rw [pullReceiver_run 0 hrounds]
    apply Exists.intro
    constructor
    -- the client fails at the statistics and says nothing more
    · apply talks_pullPhases
      rewrite [WireFormat.rounds, Fallible.pure_run, Fallible.cont_ok, Fallible.bind_run,
        Fallible.recv_run]
      apply Pair.Talks.fail_right (WireFormat.readStats_error hfit) (by decide)
      rewrite [WireFormat.serverSenderGoodbye, Fallible.bind_run, Fallible.cont_error]
      apply talks_sendDone_left
      rewrite [Fallible.cont_ok, Fallible.bind_run, Peer.push_mk]
      exact .refl
    · exact Pair.starved_of_waits (Pair.Peer.advance_wait (readNdx_nil _ _)) rfl (.inl rfl)
  rw [Script.bind_ret, Script.bind_ret] at hrun
  exact fun hagrees => (hagrees _ hrun.steps).2 hstarved

/-- A client whose count has wrapped around waits for the statistics of a server that waits for
the end of a phase. -/
theorem pull_starves_of_few_rounds (hrounds : S.wire.totalRounds n ≤ S.wire.phaseCount) :
    ¬ EndsInAgreement (pullSender X S (.behindLast gen send sent) stats)
      (pullReceiver S.wire n) := by
  obtain ⟨f, hleft, -⟩ := senderFrom_run X S (.behindLast gen send sent)
    (Fallible.cont (fun _ => do
      Fallible.send .stats (S.wire.writeStats stats)
      S.wire.serverSenderGoodbye) .ret)
  obtain ⟨next, hunroll, -⟩ := unroll_iteration X S gen send (0 + S.wire.totalRounds n) sent f
  have hrun : Pair.Talks (Pair.start
      ((pullSender X S (.behindLast gen send sent) stats).run >>= .ret)
      ((pullReceiver S.wire n).run >>= .ret))
      ⟨⟨.recv .ndx (S.readRequest gen) (S.stable_request gen) next, [],
          List.replicate (S.wire.totalRounds n) (doneMessage S.wire),
          List.replicate (S.wire.totalRounds n) (doneMessage S.wire)⟩,
        ⟨.recv .stats S.wire.readStats S.wire.stable_stats
            (Fallible.cont (fun _ => S.wire.receiverGoodbye) .ret), [],
          List.replicate (S.wire.totalRounds n) (doneMessage S.wire),
          List.replicate (S.wire.totalRounds n) (doneMessage S.wire)⟩⟩ := by
    unfold pullSender pullReceiver WireFormat.receiverPhaseExchange
    rw [Fallible.bind_run, hleft, Fallible.bind_run, Fallible.bind_run]
    refine talks_rounds (S.wire.totalRounds n) 0 (by omega) ?_
    refine Pair.Talks.loop_left ?_
    rw [hunroll, Fallible.cont_ok, Fallible.pure_run, Fallible.cont_ok, Fallible.bind_run]
    exact .refl
  rw [Script.bind_ret, Script.bind_ret] at hrun
  intro hagrees
  -- both sides wait on an empty channel, the server for a request and the client for statistics
  refine (hagrees _ hrun.steps).2 (Pair.starved_of_waits ?_ ?_ (.inl rfl))
  · exact Pair.Peer.advance_wait (bind_error (readNdx_nil gen _))
  · exact Pair.Peer.advance_wait (bind_error (readVarlong30_nil _))

theorem totalRounds_cases (version compatFlags n : Nat) :
    let wf := WireFormat.new version compatFlags
    ((wf.supportsIncrementalFlist = true → n % 2 ^ 32 ≤ 1) ∧ wf.totalRounds n = wf.phaseCount + 1) ∨
      ((wf.supportsIncrementalFlist = true ∧ 1 < n % 2 ^ 32) ∧
        ((∃ extra, wf.totalRounds n = wf.phaseCount + (extra + 1 + 1)) ∨
          wf.totalRounds n ≤ wf.phaseCount)) := by
  intro wf
  have hphase : wf.phaseCount ≤ 2 := by
    show (if version ≥ 29 then 2 else 1) ≤ 2
    split <;> omega
  unfold WireFormat.totalRounds
  by_cases hinc : wf.supportsIncrementalFlist = true
  · rw [if_pos hinc]
    rcases Nat.lt_or_ge 1 (n % 2 ^ 32) with hmany | hone
    · refine .inr ⟨⟨hinc, hmany⟩, ?_⟩
      -- the sum is a `u32`: with almost `2 ^ 32` sub-lists it wraps around to at most two rounds
      by_cases hwrap : n % 2 ^ 32 - 1 + wf.phaseCount + 1 < 2 ^ 32
      · simpa using .inl ⟨n % 2 ^ 32 - 2, by omega⟩
      · exact .inr (by omega)
    · exact .inl ⟨fun _ => hone, by omega⟩
  · simp [hinc]
    omega

end Runs

/-- **The end of a session.** A push ends in agreement exactly if it is not for listing only. A pull
ends in agreement exactly if the client has no sub-list to count a round for, and the statistics
fit their encoding. -/
theorem end_of_session_iff {τ : Type} (X : Externals) (S : Sender τ) {version compatFlags : Nat}
    (hwire : S.wire = .new version compatFlags) (gen send : NdxState) (sent : List FileEntry)
    (stats : TransferStats) (n : Nat) (listOnly : Bool) :
    (EndsInAgreement (pushSender X S listOnly (.behindLast gen send sent)) (pushReceiver S.wire) ↔
      listOnly = false) ∧
    (EndsInAgreement (pullSender X S (.behindLast gen send sent) stats) (pullReceiver S.wire n) ↔
      (S.wire.supportsIncrementalFlist = true → n % 2 ^ 32 ≤ 1) ∧ S.wire.StatsFit stats) := by
  constructor
  · cases listOnly with
    | false => exact iff_of_true (push_agrees X S gen send sent) rfl
    | true => exact iff_of_false (listOnly_starves hwire _) Bool.noConfusion
  -- a pull depends on the rounds that the client counts: as many as the server, more, or too few
  have hcases := totalRounds_cases version compatFlags n
  rw [← hwire] at hcases
  rcases hcases with ⟨hone, hrounds⟩ | ⟨⟨hinc, hmany⟩, hrounds⟩
  · constructor
    · intro hpull
      refine ⟨hone, ?_⟩
      by_contra hfit
      exact pull_starves hfit hrounds hpull
    · rintro ⟨-, hfit⟩
      exact pull_agrees X gen send sent hfit hrounds
  · have hnot : ¬ EndsInAgreement (pullSender X S (.behindLast gen send sent) stats)
        (pullReceiver S.wire n) := by
      rcases hrounds with ⟨extra, hrounds⟩ | hrounds
      · exact pull_disagrees extra hrounds
      · exact pull_starves_of_few_rounds hrounds
    refine iff_of_false hnot ?_
    rintro ⟨hone, -⟩
    have := hone hinc
    omega

/-- A server that sends nothing, with the wire format of protocol 31 and incremental lists. -/
def idleSender : Sender Unit where
  wire := .new 31 1
  ctx := padContext 4
  entries := []
  ndxs := []
  source _ := []
  willing _ _ := 0
  tokens := plainTokenWriter
  tokensStart := .ok ()
  dryRun := false
  appendMode := false
  ndxs_length := rfl

/-- With two file lists the client of a pull reads the statistics as the end of a phase, and a push
with `--list-only` leaves the server waiting. -/
theorem two_lists_disagree :
    ¬ EndsInAgreement (pullSender padExternals idleSender (.behindLast .default .default []) ⟨0, 0⟩)
      (pullReceiver idleSender.wire 2) ∧
    ¬ EndsInAgreement (pushSender padExternals idleSender true (.behindLast .default .default []))
      (pushReceiver idleSender.wire) :=
  ⟨pull_disagrees (n := 2) 0 rfl, listOnly_starves rfl _⟩

/-- With one file list a push and a pull end in agreement. -/
theorem one_list_agrees :
    EndsInAgreement (pushSender padExternals idleSender false (.behindLast .default .default []))
      (pushReceiver idleSender.wire) ∧
    EndsInAgreement (pullSender padExternals idleSender (.behindLast .default .default []) ⟨0, 0⟩)
      (pullReceiver idleSender.wire 1) := by
  obtain ⟨hpush, hpull⟩ := end_of_session_iff padExternals idleSender rfl .default .default []
    ⟨0, 0⟩ 1 false
  exact ⟨hpush.mpr rfl, hpull.mpr ⟨by decide, fun _ => by decide⟩⟩

end Ferrosync
