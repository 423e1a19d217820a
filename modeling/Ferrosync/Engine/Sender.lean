import Ferrosync.Lib.Session
import Ferrosync.Engine.StreamingSend
import Ferrosync.Protocol.WireFormat
import Ferrosync.Codec.Entry

set_option autoImplicit false

/-! # The sender loop

`sender_loop` of `wire_transfer.rs`, as a script over the two channels of the connection: before
each request it injects one pending sub-list, then it reads a request of the generator and
answers it, until the generator has ended its last phase.

Everything that one iteration reads precedes everything it answers, so that an iteration is one
reader (`readRequest`) followed by one answer (`answer`). The list `sent` is a history of the
files whose data and checksum have gone out.
-/

namespace Ferrosync

open ByteStream Session

variable {input out rest : List UInt8} {X : Externals} {state : NdxState}

/-- The kinds of messages of a transfer. A message that begins with an NDX is of kind `ndx`, be
it a request or the end of a phase. -/
inductive Message where
  | flist
  | ndx
  | data
  | stats
  deriving DecidableEq, Repr

/-- `build_ndx_map`: a later position with the same NDX replaces an earlier one. -/
def buildNdxMap (ndxs : List Int) (ndx : Int) : Option Nat :=
  ((ndxs.zipIdx.filter fun p => p.1 = ndx).getLast?).map Prod.snd

def streamingThreshold : Int := 64 * 1024 * 1024

def defaultStreamChunk : Nat := 256 * 1024

/-- What `sender_loop` is given. Both file readers fall back to an empty file, so `source` does
not fail; `willing` is the pattern of short reads of a stream. `tokensStart` is an error where
`Compressor::from_type` refuses the negotiated compression. -/
structure Sender (τ : Type) where
  wire : WireFormat
  ctx : ProtocolContext
  entries : List FileEntry
  ndxs : List Int
  source : FileEntry → List UInt8
  willing : FileEntry → Nat → Nat
  tokens : TokenWriter τ
  tokensStart : Except Failure τ
  dryRun : Bool
  appendMode : Bool
  /-- Every entry has its NDX. -/
  ndxs_length : ndxs.length = entries.length

/-- A request of the generator, as the loop distinguishes them. -/
inductive Request where
  /-- The end of a phase. -/
  | done
  /-- A marker, an unknown NDX, or an entry without file data. -/
  | skip
  /-- A notice without a transfer. -/
  | echo (ndx : Int) (iflags : Nat)
  /-- A transfer that a dry run only counts. -/
  | count (e : FileEntry)
  | transfer (ndx : Int) (iflags : Nat) (e : FileEntry) (sums : SumStruct)
  deriving DecidableEq, Repr

def Request.files : Request → List FileEntry
  | .transfer _ _ e _ => [e]
  | _ => []

/-- The variables of the loop. `pending` holds what each further call of `send_pending` writes,
until it is done. -/
structure SenderVars where
  genState : NdxState
  sendState : NdxState
  phase : Nat
  pending : List (List UInt8)
  sent : List FileEntry

namespace Sender

variable {τ : Type}

/-! ## Reading a request -/

def entry? (S : Sender τ) (ndx : Int) : Option FileEntry :=
  (buildNdxMap S.ndxs ndx).bind fun i => S.entries[i]?

/-- The signatures of a transfer: in append mode only their head is on the wire. -/
def readSignatures (S : Sender τ) : Wire SumStruct :=
  if S.appendMode then do
    let head ← readSumHead
    pure ⟨head, []⟩
  else readSums

/-- The part of an iteration behind the item flags. -/
def readBody (S : Sender τ) (ndx : Int) (iflags : Nat) : Wire Request :=
  match S.entry? ndx with
  | none => pure .skip
  | some e =>
    if e.isFile = false then pure .skip
    else if S.wire.hasIflags = true ∧ iflags.testBit 15 = false then pure (.echo ndx iflags)
    else if S.dryRun then pure (.count e)
    else do
      let sums ← S.readSignatures
      pure (.transfer ndx iflags e sums)

def readRequest (S : Sender τ) (state : NdxState) : Wire (Request × NdxState) := do
  let (ndx, state) ← readNdx state S.wire.intCodec
  if ndx = ndxDone then pure (.done, state)
  else if ndx < -1 then pure (.skip, state)
  else do
    let iflags ← S.wire.readIflags
    let request ← S.readBody ndx iflags
    pure (request, state)

theorem stable_signatures (S : Sender τ) : Stable unexpectedEof S.readSignatures :=
  Stable.ite (stable_sumHead.bind fun _ => Stable.pure _) stable_sums

theorem stable_body (S : Sender τ) (ndx : Int) (iflags : Nat) :
    Stable unexpectedEof (S.readBody ndx iflags) := by
  unfold readBody
  cases S.entry? ndx with
  | none => exact Stable.pure _
  | some e =>
    refine Stable.ite (Stable.pure _) (Stable.ite (Stable.pure _) (Stable.ite (Stable.pure _) ?_))
    exact S.stable_signatures.bind fun _ => Stable.pure _

theorem stable_request (S : Sender τ) (state : NdxState) :
    Stable unexpectedEof (S.readRequest state) := by
  refine (stable_ndx state _).bind fun ⟨ndx, state⟩ => ?_
  refine Stable.ite (Stable.pure _) (Stable.ite (Stable.pure _) ?_)
  exact S.wire.stable_iflags.bind fun iflags => (S.stable_body ndx iflags).bind fun _ =>
    Stable.pure _

/-! ## Answering it -/

/-- The operations that describe a file, and its checksum. -/
def describe (X : Externals) (S : Sender τ) (e : FileEntry) (sums : SumStruct) :
    Except Failure (List DiffOp × List UInt8) :=
  if e.len ≥ streamingThreshold then do
    let (ops, checksum) ← streamSource X sums S.ctx defaultStreamChunk (S.source e) (S.willing e)
    pure (ops, checksum.finalize X)
  else do
    let ops ← matchBlocks X (S.source e) sums S.ctx
    pure (ops, fileChecksum X (S.source e) S.ctx)

/-- Tokens, end of file and checksum of one file. -/
def fileData (X : Externals) (S : Sender τ) (e : FileEntry) (sums : SumStruct) :
    Except Failure (List UInt8) := do
  let w ← S.tokensStart
  let (ops, checksum) ← S.describe X e sums
  let (tokens, w) ← writeDiffops S.tokens (asUsize sums.head.blength) ops w
  let (eof, _) ← S.tokens.writeEof w
  pure (tokens ++ (eof ++ checksum))

/-- The signature head of a response: nothing of it is repeated if there are no blocks. -/
def responseHead (head : SumHead) : SumHead := if head.count = 0 then .default else head

/-- NDX, item flags and signature head in front of the data. -/
def responseHeader (S : Sender τ) (state : NdxState) (ndx : Int) (iflags : Nat)
    (head : SumHead) : List UInt8 :=
  (writeNdx ndx state S.wire.intCodec).1 ++ (S.wire.writeIflags iflags ++
    writeSumHead (responseHead head))

/-- The answer to a request: the loop goes on, or it is left after the last phase. -/
def answer (X : Externals) (S : Sender τ) (v : SenderVars) :
    Request → Fallible unexpectedEof Message (SenderVars ⊕ SenderVars)
  | .done =>
    if v.phase + 1 > S.wire.phaseCount then pure (.inr { v with phase := v.phase + 1 })
    else do
      Fallible.send .ndx (writeNdx ndxDone v.sendState S.wire.intCodec).1
      pure (.inl { v with
        phase := v.phase + 1, sendState := (writeNdx ndxDone v.sendState S.wire.intCodec).2 })
  | .skip => pure (.inl v)
  | .count _ => pure (.inl v)
  | .echo ndx iflags => do
    Fallible.send .ndx ((writeNdx ndx v.sendState S.wire.intCodec).1 ++
      S.wire.writeIflagsEcho iflags)
    pure (.inl { v with sendState := (writeNdx ndx v.sendState S.wire.intCodec).2 })
  | .transfer ndx iflags e sums => do
    Fallible.send .ndx (S.responseHeader v.sendState ndx iflags sums.head)
    let data ← ExceptT.mk (.ret (S.fileData X e sums))
    Fallible.send .data data
    pure (.inl { v with
      sendState := (writeNdx ndx v.sendState S.wire.intCodec).2, sent := v.sent ++ [e] })

def inject : List (List UInt8) → Fallible unexpectedEof Message Unit
  | [] => pure ()
  | [] :: _ => pure ()
  | bs :: _ => Fallible.send .flist bs

def iteration (X : Externals) (S : Sender τ) (v : SenderVars) :
    Fallible unexpectedEof Message (SenderVars ⊕ SenderVars) := do
  inject v.pending
  let (request, genState) ← Fallible.recv .ndx (S.readRequest v.genState) (S.stable_request _)
  S.answer X { v with pending := v.pending.tail, genState := genState } request

def start (pending : List (List UInt8)) : SenderVars := ⟨.default, .default, 0, pending, []⟩

/-- The loop from the variables `v` on, and the last `NDX_DONE` behind it. -/
def senderFrom (X : Externals) (S : Sender τ) (v : SenderVars) :
    Fallible unexpectedEof Message (List FileEntry) := do
  let v ← Fallible.loop (S.iteration X) v
  Fallible.send .ndx (writeNdx ndxDone v.sendState S.wire.intCodec).1
  pure v.sent

/-- `sender_loop`. It returns the history of the files it has sent. -/
def senderLoop (X : Externals) (S : Sender τ) (pending : List (List UInt8)) :
    Fallible unexpectedEof Message (List FileEntry) := S.senderFrom X (start pending)

/-! ## The requests of a stream -/

/-- From an index state and a phase on, the stream of the generator holds these requests, the
last of which ends the last phase. -/
inductive Asks (S : Sender τ) : NdxState → Nat → List UInt8 → List Request → Prop
  | last {state state' phase input rest}
      (hread : S.readRequest state input = .ok ((.done, state'), rest))
      (hlast : phase + 1 > S.wire.phaseCount) : Asks S state phase input [.done]
  | phase {state state' phase input mid rs}
      (hread : S.readRequest state input = .ok ((.done, state'), mid))
      (hmore : ¬ phase + 1 > S.wire.phaseCount) (rest : Asks S state' (phase + 1) mid rs) :
      Asks S state phase input (.done :: rs)
  | request {state state' phase input mid r rs}
      (hread : S.readRequest state input = .ok ((r, state'), mid)) (hr : r ≠ .done)
      (rest : Asks S state' phase mid rs) : Asks S state phase input (r :: rs)

variable {S : Sender τ} {pending : List (List UInt8)} {x : SenderVars ⊕ SenderVars}

/-- A stream holds one sequence of requests. -/
theorem Asks.unique {phase : Nat} {rs rs' : List Request} (h : Asks S state phase input rs)
    (h' : Asks S state phase input rs') : rs = rs' := by
  -- the request that is read is a function of the state and the stream, and it decides the rule
  induction h generalizing rs' with
  | last hread hlast =>
    cases h' with
    | last => rfl
    | phase _ hmore => exact absurd hlast hmore
    | request hread' hr =>
      rw [hread] at hread'
      cases hread'
      exact absurd rfl hr
  | phase hread hmore _ ih =>
    cases h' with
    | last _ hlast => exact absurd hlast hmore
    | phase hread' _ rest =>
      rw [hread] at hread'
      cases hread'
      rw [ih rest]
    | request hread' hr =>
      rw [hread] at hread'
      cases hread'
      exact absurd rfl hr
  | request hread hr _ ih =>
    cases h' with
    | last hread' | phase hread' =>
      rw [hread] at hread'
      cases hread'
      exact absurd rfl hr
    | request hread' _ rest =>
      rw [hread] at hread'
      cases hread'
      rw [ih rest]

/-- What the sender writes for a request is part of the output. -/
def SentData (X : Externals) (S : Sender τ) (out : List UInt8) (e : FileEntry) (sums : SumStruct) :
    Prop := ∃ data, S.fileData X e sums = .ok data ∧ data <:+: out

theorem SentData.mono {out' : List UInt8} {e : FileEntry} {sums : SumStruct}
    (h : SentData X S out e sums) (hout : out <:+: out') : SentData X S out' e sums := by
  obtain ⟨data, hdata, hpiece⟩ := h
  exact ⟨data, hdata, hpiece.trans hout⟩

/-- What an iteration that returns has done: it has read a request, the data for it has been sent
and its file noted in the history, and the phase has grown at the end of one. -/
structure Served (X : Externals) (S : Sender τ) (v : SenderVars) (input out : List UInt8)
    (r : Request) (v' : SenderVars) (rest : List UInt8) : Prop where
  read : S.readRequest v.genState input = .ok ((r, v'.genState), rest)
  data : ∀ ndx iflags e sums, r = .transfer ndx iflags e sums → SentData X S out e sums
  sent : v'.sent = v.sent ++ r.files
  phase : v'.phase = if r = .done then v.phase + 1 else v.phase

theorem inject_inv {u : Unit} (h : Fallible.Returns (inject pending) input out u rest) :
    rest = input := by
  cases pending with
  | nil => exact (Fallible.Returns.pure_inv h).2.1
  | cons bs pending =>
    cases bs with
    | nil => exact (Fallible.Returns.pure_inv h).2.1
    | cons b bs => exact (Fallible.Returns.send_inv h).1

/-- The answer to a request leaves the loop at the end of the last phase only. -/
theorem answer_inv {v : SenderVars} {r : Request}
    (h : Fallible.Returns (S.answer X v r) input out x rest) :
    rest = input ∧ (∀ ndx iflags e sums, r = .transfer ndx iflags e sums → SentData X S out e sums) ∧
      ∃ v', x = (if r = .done ∧ v.phase + 1 > S.wire.phaseCount then .inr v' else .inl v') ∧
        v'.genState = v.genState ∧ v'.sent = v.sent ++ r.files ∧
        v'.phase = if r = .done then v.phase + 1 else v.phase := by
  cases r with
  | done =>
    by_cases hlast : v.phase + 1 > S.wire.phaseCount
    · rw [answer, if_pos hlast] at h
      obtain ⟨rfl, rfl, -⟩ := Fallible.Returns.pure_inv h
      exact ⟨rfl, by simp, { v with phase := v.phase + 1 }, by rw [if_pos ⟨rfl, hlast⟩], rfl,
        (List.append_nil _).symm, rfl⟩
    · rw [answer, if_neg hlast] at h
      obtain ⟨u, mid, out₁, out₂, hsend, hpure, -⟩ := Fallible.Returns.bind_inv h
      obtain ⟨rfl, -⟩ := Fallible.Returns.send_inv hsend
      obtain ⟨rfl, rfl, -⟩ := Fallible.Returns.pure_inv hpure
      exact ⟨rfl, by simp, { v with
        phase := v.phase + 1, sendState := (writeNdx ndxDone v.sendState S.wire.intCodec).2 },
        by rw [if_neg fun hc => hlast hc.2], rfl, (List.append_nil _).symm, rfl⟩
  | skip | count =>
    obtain ⟨rfl, rfl, -⟩ := Fallible.Returns.pure_inv h
    exact ⟨rfl, by simp, v, by simp, rfl, (List.append_nil _).symm, by simp⟩
  | echo ndx iflags =>
    obtain ⟨u, mid, out₁, out₂, hsend, hpure, -⟩ := Fallible.Returns.bind_inv h
    obtain ⟨rfl, -⟩ := Fallible.Returns.send_inv hsend
    obtain ⟨rfl, rfl, -⟩ := Fallible.Returns.pure_inv hpure
    exact ⟨rfl, by simp,
      { v with sendState := (writeNdx ndx v.sendState S.wire.intCodec).2 }, by simp, rfl,
      (List.append_nil _).symm, by simp⟩
  -- the one request that reads a file and adds to what is sent
  | transfer ndx iflags e sums =>
    obtain ⟨u, mid₁, out₁, out₂, hhead, h₁, rfl⟩ := Fallible.Returns.bind_inv h
    obtain ⟨data, mid₂, out₃, out₄, hdata, h₂, rfl⟩ := Fallible.Returns.bind_inv h₁
    obtain ⟨u', mid₃, out₅, out₆, hsend, hpure, rfl⟩ := Fallible.Returns.bind_inv h₂
    obtain ⟨rfl, -⟩ := Fallible.Returns.send_inv hhead
    obtain ⟨hfile, rfl, rfl⟩ := Fallible.Returns.lift_inv hdata
    obtain ⟨rfl, rfl⟩ := Fallible.Returns.send_inv hsend
    obtain ⟨rfl, rfl, rfl⟩ := Fallible.Returns.pure_inv hpure
    refine ⟨rfl, ?_, { v with
      sendState := (writeNdx ndx v.sendState S.wire.intCodec).2, sent := v.sent ++ [e] },
      by simp, rfl, rfl, by simp⟩
    rintro _ _ _ _ ⟨⟩
    exact ⟨out₅, hfile, out₁, [], by simp⟩

theorem iteration_inv {v : SenderVars} (h : Fallible.Returns (S.iteration X v) input out x rest) :
    ∃ r v', Served X S v input out r v' rest ∧
      x = if r = .done ∧ v.phase + 1 > S.wire.phaseCount then .inr v' else .inl v' := by
  obtain ⟨u, mid₁, out₁, out₂, hinject, h₁, rfl⟩ := Fallible.Returns.bind_inv h
  obtain ⟨⟨r, genState⟩, mid₂, out₃, out₄, hrecv, h₂, rfl⟩ := Fallible.Returns.bind_inv h₁
  obtain rfl := inject_inv hinject
  obtain ⟨hread, rfl⟩ := Fallible.Returns.recv_inv hrecv
  obtain ⟨rfl, hdata, v', hx, hgen, hsent, hphase⟩ := answer_inv h₂
  have hsuffix : out₄ <:+: out₁ ++ ([] ++ out₄) := (List.suffix_append out₁ out₄).isInfix
  exact ⟨r, v', ⟨by rw [hgen]; exact hread, fun _ _ _ _ hr => (hdata _ _ _ _ hr).mono hsuffix, hsent,
    hphase⟩,
    hx⟩

/-- **The files sent are the files asked for**, and what was written for each request is in the
output. -/
theorem sent_eq {sent : List FileEntry}
    (h : Fallible.Returns (S.senderLoop X pending) input out sent rest) :
    ∃ rs, Asks S .default 0 input rs ∧ sent = rs.flatMap Request.files ∧
      ∀ ndx iflags e sums, .transfer ndx iflags e sums ∈ rs → SentData X S out e sums := by
  obtain ⟨v, mid₁, out₁, out₂, hloop, h₁, rfl⟩ := Fallible.Returns.bind_inv h
  obtain ⟨u, mid₂, out₃, out₄, -, hpure, rfl⟩ := Fallible.Returns.bind_inv h₁
  obtain ⟨rfl, -⟩ := Fallible.Returns.pure_inv hpure
  have hrun : ∃ rs, Asks S .default 0 input rs ∧ v.sent = [] ++ rs.flatMap Request.files ∧
      ∀ ndx iflags e sums, .transfer ndx iflags e sums ∈ rs → SentData X S out₁ e sums := by
    -- Induction over the iterations: the requests from here on are the one served now and those of
    -- the rest.
    refine Fallible.Returns.loop_induction (P := fun s input out v _ =>
      ∃ rs, Asks S s.genState s.phase input rs ∧ v.sent = s.sent ++ rs.flatMap Request.files ∧
        ∀ ndx iflags e sums, .transfer ndx iflags e sums ∈ rs → SentData X S out e sums) ?_ ?_ hloop
    · intro s input out v rest hbody
      obtain ⟨r, v', hserved, hx⟩ := iteration_inv hbody
      split_ifs at hx with hlast
      obtain ⟨rfl, hlast⟩ := hlast
      cases hx
      exact ⟨[.done], .last hserved.read hlast, by rw [hserved.sent]; rfl, by simp⟩
    · intro s s' input mid out out' v rest hbody ih
      obtain ⟨rs, hasks, hsent, hdata⟩ := ih
      obtain ⟨r, v', hserved, hx⟩ := iteration_inv hbody
      split_ifs at hx with hlast
      cases hx
      refine ⟨r :: rs, ?_, by rw [hsent, hserved.sent, List.flatMap_cons, List.append_assoc], ?_⟩
      · rw [hserved.phase] at hasks
        by_cases hr : r = .done
        · subst hr
          exact .phase hserved.read (fun h => hlast ⟨rfl, h⟩) hasks
        · rw [if_neg hr] at hasks
          exact .request hserved.read hr hasks
      · intro ndx iflags e sums he
        rcases List.mem_cons.mp he with he | he
        · exact (hserved.data _ _ _ _ he.symm).mono (List.prefix_append out out').isInfix
        · exact (hdata _ _ _ _ he).mono (List.suffix_append out out').isInfix
  obtain ⟨rs, hasks, hsent, hdata⟩ := hrun
  exact ⟨rs, hasks, hsent, fun _ _ _ _ he =>
    (hdata _ _ _ _ he).mono (List.prefix_append out₁ _).isInfix⟩

/-- A request for a transfer is for a regular entry of the list, and its block length came over the
wire. -/
theorem readRequest_transfer {state' : NdxState} {ndx : Int} {iflags : Nat} {e : FileEntry}
    {sums : SumStruct}
    (h : S.readRequest state input = .ok ((.transfer ndx iflags e sums, state'), rest)) :
    e ∈ S.entries ∧ e.isFile = true ∧ sums.head.InRange := by
  obtain ⟨⟨i, st⟩, mid, -, h₁⟩ := bind_eq_ok h
  dsimp only at h₁
  split_ifs at h₁
  · obtain ⟨heq, -⟩ := pure_eq_ok h₁
    cases heq
  · obtain ⟨heq, -⟩ := pure_eq_ok h₁
    cases heq
  · obtain ⟨flags, mid₂, -, h₂⟩ := bind_eq_ok h₁
    obtain ⟨r', mid₃, hbody, h₃⟩ := bind_eq_ok h₂
    obtain ⟨heq, -⟩ := pure_eq_ok h₃
    cases heq
    unfold readBody at hbody
    cases hentry : S.entry? i with
    | none =>
      simp only [hentry] at hbody
      obtain ⟨heq, -⟩ := pure_eq_ok hbody
      cases heq
    | some e' =>
      simp only [hentry] at hbody
      -- an entry that is no file, an echo and a dry run are other requests
      split_ifs at hbody with hfile hecho hdry
      all_goals try
        obtain ⟨heq, -⟩ := pure_eq_ok hbody
        cases heq
      obtain ⟨sums', mid₄, hsums, hpure⟩ := bind_eq_ok hbody
      obtain ⟨heq, -⟩ := pure_eq_ok hpure
      cases heq
      obtain ⟨k, -, hk⟩ := Option.bind_eq_some_iff.mp hentry
      refine ⟨List.mem_of_getElem? hk, by simpa using hfile, ?_⟩
      unfold readSignatures at hsums
      split_ifs at hsums
      · obtain ⟨head, mid₅, hhead, hpure⟩ := bind_eq_ok hsums
        obtain ⟨rfl, -⟩ := pure_eq_ok hpure
        exact (readSumHead_ok hhead).1
      · exact readSums_head hsums

theorem Asks.transfer {phase : Nat} {rs : List Request} (h : Asks S state phase input rs)
    {ndx : Int} {iflags : Nat} {e : FileEntry} {sums : SumStruct}
    (hmem : .transfer ndx iflags e sums ∈ rs) :
    e ∈ S.entries ∧ e.isFile = true ∧ sums.head.InRange := by
  induction h with
  | last => simp at hmem
  | phase _ _ _ ih => exact ih (by simpa using hmem)
  | request hread _ _ ih =>
    rcases List.mem_cons.mp hmem with rfl | hmem
    · exact readRequest_transfer hread
    · exact ih hmem

/-! ## Complete data -/

/-- The file is streamed, its receiver has signatures, and a chunk holds neither a block nor the
whole file. -/
def Cut (S : Sender τ) (e : FileEntry) (head : SumHead) : Prop :=
  streamingThreshold ≤ e.len ∧ 0 < head.count ∧ defaultStreamChunk < head.blength ∧
    defaultStreamChunk < (S.source e).length

/-- The complete data of a file and its checksum have been sent: what is in the output was written
for operations that stand for all of the file, and with the digest of all of the file. -/
def SentWhole (X : Externals) (S : Sender τ) (out : List UInt8) (e : FileEntry) (sums : SumStruct) :
    Prop :=
  SentData X S out e sums ∧ ∃ ops,
    S.describe X e sums = .ok (ops, fileDigest X S.ctx.checksumType (S.source e)) ∧
      Covers X (MatcherConfig.ofSums sums S.ctx) ops (S.source e)

section Describe

variable {e : FileEntry} {sums : SumStruct}

theorem describe_of_not_cut (X : Externals) (hblength : sums.head.blength < 2 ^ 31)
    (hcut : ¬ S.Cut e sums.head) :
    ∃ ops, S.describe X e sums = .ok (ops, fileDigest X S.ctx.checksumType (S.source e)) ∧
      Covers X (MatcherConfig.ofSums sums S.ctx) ops (S.source e) := by
  have hchunk : 0 < defaultStreamChunk := by decide
  unfold describe
  -- large files are streamed, the others matched in memory
  by_cases hlarge : e.len ≥ streamingThreshold
  · obtain ⟨ops, checksum, hrun, hcovers, hfed⟩ : ∃ ops checksum,
        streamSource X sums S.ctx defaultStreamChunk (S.source e) (S.willing e) =
          .ok (ops, checksum) ∧
        Covers X (MatcherConfig.ofSums sums S.ctx) ops (S.source e) ∧
          checksum.fed = S.source e := by
      by_cases hsums : sums.head.count ≤ 0 ∨ sums.head.blength ≤ 0
      · exact streams_of_no_sums hsums hchunk (covers_nil X _) fun h _ => h.snocLiteral _
      · push Not at hsums
        refine streams_of_fit hsums.1 hsums.2 (by omega) hchunk ?_
        -- a block that fits neither a chunk nor the file is what `Cut` says
        by_contra hfit
        push Not at hfit
        exact hcut ⟨hlarge, hsums.1, hfit.1, hfit.2⟩
    refine ⟨ops, ?_, hcovers⟩
    have htype := streamSource_checksumType hrun
    rw [if_pos hlarge, hrun]
    show Except.ok (ops, fileDigest X checksum.checksumType checksum.fed) = _
    rw [htype, hfed]
  · obtain ⟨ops, hrun, hcovers⟩ := matchBlocks_covers X (S.source e) sums S.ctx (by omega)
    refine ⟨ops, ?_, hcovers⟩
    rw [if_neg hlarge, hrun]
    rfl

/-- **A file that is cut off** is described, and hashed, by its first chunk. -/
theorem describe_of_cut (X : Externals) (hblength : sums.head.blength < 2 ^ 31)
    (hcut : S.Cut e sums.head) :
    S.describe X e sums = .ok ([.literal ((S.source e).take defaultStreamChunk)],
      fileDigest X S.ctx.checksumType ((S.source e).take defaultStreamChunk)) := by
  obtain ⟨hlarge, hcount, hblock, hlong⟩ := hcut
  obtain ⟨checksum, hrun, hfed⟩ := @streamSource_lost X S.ctx (S.source e) defaultStreamChunk
    (S.willing e) sums hcount (by omega) (by decide) hblock hlong
  have htype := streamSource_checksumType hrun
  unfold describe
  rw [if_pos hlarge, hrun]
  show Except.ok (_, fileDigest X checksum.checksumType checksum.fed) = _
  rw [htype, hfed]

/-- **Sent data is complete** exactly if the file is not cut off. -/
theorem SentData.whole_iff (hblength : sums.head.blength < 2 ^ 31) (h : SentData X S out e sums) :
    SentWhole X S out e sums ↔ ¬ S.Cut e sums.head := by
  constructor
  · rintro ⟨-, ops, hdescribe, hcovers⟩ hcut
    rw [describe_of_cut X hblength hcut] at hdescribe
    obtain ⟨rfl, -⟩ := Prod.mk.inj (Except.ok.inj hdescribe)
    obtain ⟨first, rest, hsource, hfirst, hrest⟩ := hcovers
    have hfirst : first = (S.source e).take defaultStreamChunk := hfirst
    have hlen := congrArg List.length hsource
    rw [hfirst, show rest = [] from hrest, List.append_nil, List.length_take] at hlen
    have hlong := hcut.2.2.2
    omega
  · exact fun hcut => ⟨h, describe_of_not_cut X hblength hcut⟩

end Describe

end Sender

end Ferrosync
