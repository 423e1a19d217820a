import Ferrosync.Engine.EntryOps

set_option autoImplicit false

/-! # The pipelined receiver

`receiver_loop_pipelined`: a generator task that dispatches every entry and requests the ones that
need data, and a receiver task that reads the responses, joined by a channel of capacity four. The
two tasks are programs; `pipeline` puts them side by side over an environment that consists of the
channel and of a *world* (file system and wire) that may be any relation.

Progress events and statistics are left out.
-/

namespace Ferrosync

open UnixPath Interaction ByteStream

/-- What both tasks are given. -/
structure Pipeline where
  engine : ReceiverEngine
  externals : Externals
  ctx : ProtocolContext
  wire : WireFormat

namespace Pipeline

/-! ## The generator task -/

/-- The request for a file: NDX, item flags and block signatures. -/
def request (P : Pipeline) (ndx : Int) (state : NdxState) (sigs : SumStruct) :
    List UInt8 × NdxState :=
  let (ndxBytes, state) := writeNdx ndx state P.wire.intCodec
  let iflags := if P.wire.hasIflags then writeShortint itemTransfer else []
  let sums := if P.engine.options.append ∨ P.engine.options.appendVerify then writeSumHead sigs.head
    else writeSums sigs
  (ndxBytes ++ iflags ++ sums, state)

/-- The basis of a transfer, with the fuzzy fallback. -/
def transferBasis (P : Pipeline) (e : FileEntry) (basis : List UInt8) : ReceiverM (List UInt8) := do
  if basis = [] ∧ P.engine.options.fuzzy then do
    let found ← query (.findFuzzyBasis (P.engine.destPath e))
    pure (found.getD basis)
  else pure basis

/-- The `NeedsTransfer` arm: request the file, then tell the receiver; `none` if the receiver is
gone. -/
def requestTransfer (P : Pipeline) (e : FileEntry) (ndx : Int) (state : NdxState)
    (basis : List UInt8) : ReceiverM (Option NdxState) := do
  let basis ← P.transferBasis e basis
  match computeSignatures P.externals basis P.ctx with
  | .error err => throw err
  | .ok sigs => do
    let (bytes, state) := P.request ndx state sigs
    effect (.writeRequest ndx bytes) id
    let blength := if sigs.head.blength > 0 then sigs.head.blength.toNat else 700
    let sent ← query (.send (.transfer e ndx basis blength))
    pure (if sent then some state else none)

/-- What the generator does about a dispatched entry; `none` if the receiver is gone. -/
def announce (P : Pipeline) (e : FileEntry) (ndx : Int) (state : NdxState) :
    EntryAction → ReceiverM (Option NdxState)
  | .handled kind => do
    let sent ← query (.send (.handled e kind))
    pure (if sent then some state else none)
  | .skipped => pure (some state)
  | .deferredHardlink sourceName => do
    let sent ← query (.send (.deferredHardlink e sourceName))
    pure (if sent then some state else none)
  | .needsTransfer basis => P.requestTransfer e ndx state basis

/-- A program whose failure is only logged. -/
def attempt {α : Type} (p : ReceiverM α) : ReceiverM (Except Failure α) := ExceptT.lift p.run

/-- The parent directories of a regular file. -/
def prepareParent (P : Pipeline) (e : FileEntry) : ReceiverM (Except Failure Unit) :=
  if e.isFile then attempt (P.engine.ensureParent e) else pure (.ok ())

/-- One iteration of the generator's loop. -/
def generateEntry (P : Pipeline) (e : FileEntry) (ndx : Int) (state : NdxState) :
    ReceiverM (Option NdxState) := do
  let _ ← P.prepareParent e
  match ← attempt (P.engine.dispatchEntry e) with
  | .error _ => pure (some state)
  | .ok action => P.announce e ndx state action

def generatorLoop (P : Pipeline) : List (FileEntry × Int) → NdxState → ReceiverM Unit
  | [], _ => pure ()
  | (e, ndx) :: items, state => do
    match ← P.generateEntry e ndx state with
    | none => pure ()
    | some state => P.generatorLoop items state

/-- The body of the spawned task. -/
def generator (P : Pipeline) (items : List (FileEntry × Int)) : ReceiverM Unit := do
  P.generatorLoop items .default
  let _ ← query (.send .done)
  pure ()

/-- The task up to the point where its handle can be awaited. -/
def generatorTask (P : Pipeline) (items : List (FileEntry × Int)) : ReceiverProg Unit := do
  let result ← (P.generator items).run
  Prog.perform (ReceiverOp.generatorDone (result matches .ok _))

/-! ## The receiver task -/

structure ReceiverState where
  ndxState : NdxState
  deferred : List (FileEntry × List UInt8)
  succeeded : List Int

/-- The data of a transfer into the writer that `create_writer` opened. -/
def receiveStreamed (P : Pipeline) (e : FileEntry) (basis : List UInt8) (blength : Nat) :
    ReceiverM Unit := do
  let w ← P.engine.createWriter e
  match ← query (.readDelta false basis blength) with
  | .error (err, data) => do
    ReceiverEngine.dropWriter w data
    throw err
  | .ok data => do
    ReceiverEngine.dropWriter w data
    P.engine.finishFile e

/-- The data of a transfer through memory, for `--sparse`. -/
def receiveBuffered (P : Pipeline) (e : FileEntry) (basis : List UInt8) (blength : Nat) :
    ReceiverM Unit := do
  match ← query (.readDelta true basis blength) with
  | .error (err, _) => throw err
  | .ok data => P.engine.receiveFileSparse e data

def receiveData (P : Pipeline) (e : FileEntry) (basis : List UInt8) (blength : Nat) :
    ReceiverM Unit :=
  if P.engine.options.sparse then P.receiveBuffered e basis blength
  else P.receiveStreamed e basis blength

/-- The `Transfer` arm. The NDX of the response is read and not looked at. -/
def receiveTransfer (P : Pipeline) (st : ReceiverState) (e : FileEntry) (ndx : Int)
    (basis : List UInt8) (blength : Nat) : ReceiverM ReceiverState := do
  match ← query (.readHeader st.ndxState) with
  | .error err => throw err
  | .ok h => do
    P.receiveData e basis (h.blength blength)
    pure { st with ndxState := h.ndxState, succeeded := st.succeeded ++ [ndx] }

/-- `while let Some(item) = gen_rx.recv()`, with at most `n` items. -/
def receiverLoop (P : Pipeline) : Nat → ReceiverState → ReceiverM ReceiverState
  | 0, _ => throw (.fault .diverged)
  | n + 1, st => do
    match ← query .recv with
    | none => pure st
    | some .done => pure st
    | some (.handled _ _) => P.receiverLoop n st
    | some (.deferredHardlink e sourceName) =>
      P.receiverLoop n { st with deferred := st.deferred ++ [(e, sourceName)] }
    | some (.transfer e ndx basis blength) => do
      let st ← P.receiveTransfer st e ndx basis blength
      P.receiverLoop n st

def reportSuccess : List Int → ReceiverM Unit
  | [] => pure ()
  | ndx :: ndxs => do
    effect (.writeSuccess ndx) id
    reportSuccess ndxs

/-- One deferred hard link; a failure is only logged. -/
def createDeferredLink (P : Pipeline) (entries : List FileEntry) (e : FileEntry)
    (sourceName : List UInt8) : ReceiverM Unit := do
  match entries.find? (fun s => s.name = sourceName) with
  | none => pure ()
  | some source =>
    if P.engine.options.dryRun then pure ()
    else do
      let _ ← query (.removeFile (P.engine.destPath e))
      let _ ← query (.hardLink (P.engine.destPath source) (P.engine.destPath e))
      pure ()

def createDeferredLinks (P : Pipeline) (entries : List FileEntry) :
    List (FileEntry × List UInt8) → ReceiverM Unit
  | [] => pure ()
  | (e, sourceName) :: deferred => do
    P.createDeferredLink entries e sourceName
    P.createDeferredLinks entries deferred

/-- The receiver's side of `receiver_loop_pipelined`. -/
def receiver (P : Pipeline) (entries : List FileEntry) : ReceiverM Unit := do
  let st ← P.receiverLoop (entries.length + 1) ⟨.default, [], []⟩
  effect .joinGenerator id
  reportSuccess st.succeeded
  P.createDeferredLinks entries st.deferred

/-- The receiver up to the point where its end of the channel is dropped. -/
def receiverTask (P : Pipeline) (entries : List FileEntry) : ReceiverProg (Except Failure Unit) := do
  let result ← (P.receiver entries).run
  Prog.perform ReceiverOp.receiverDone
  pure result

end Pipeline

/-! ## The channel -/

def channelCapacity : Nat := 4

/-- The channel and the ends of the tasks. -/
structure ChannelState where
  queue : List GeneratorItem
  generatorDone : Option Bool
  receiverGone : Bool

def ChannelState.start : ChannelState := ⟨[], none, false⟩

def ReceiverOp.isChannel : ReceiverOp → Bool
  | .send _ | .recv | .generatorDone _ | .joinGenerator | .receiverDone => true
  | _ => false

/-- The channel as an environment; other operations leave it alone. -/
def channelEnv (s : ChannelState) : (op : ReceiverOp) → op.Reply → ChannelState → Prop
  | .send item, sent, s' =>
    if s.receiverGone then sent = false ∧ s' = s
    else s.queue.length < channelCapacity ∧ sent = true ∧ s' = { s with queue := s.queue ++ [item] }
  | .recv, got, s' =>
    match s.queue with
    | item :: queue => got = some item ∧ s' = { s with queue := queue }
    | [] => s.generatorDone.isSome ∧ got = none ∧ s' = s
  | .generatorDone ok, _, s' => s' = { s with generatorDone := some ok }
  | .joinGenerator, ok, s' => s.generatorDone = some ok ∧ s' = s
  | .receiverDone, _, s' => s' = { s with receiverGone := true }
  | _, _, s' => s' = s

/-- The environment of the two tasks: the channel, and for everything else a world. -/
def pipelineEnv {ω : Type} (world : Env ω ReceiverOp ReceiverOp.Reply) :
    Env (ω × ChannelState) ReceiverOp ReceiverOp.Reply := fun s op r s' =>
  channelEnv s.2 op r s'.2 ∧ if op.isChannel then s'.1 = s.1 else world s.1 op r s'.1

def Pipeline.start {ω : Type} (P : Pipeline) (items : List (FileEntry × Int)) (w : ω) :
    Par (ω × ChannelState) ReceiverOp ReceiverOp.Reply Unit (Except Failure Unit) :=
  ⟨(w, .start), P.generatorTask items, P.receiverTask (items.map Prod.fst)⟩

/-! ## What the two tasks can do -/

/-- The items the generator can send for a file list. -/
def ItemOf (E : ReceiverEngine) (items : List (FileEntry × Int)) : GeneratorItem → Prop
  | .handled e _ => ∃ ndx, (e, ndx) ∈ items
  | .deferredHardlink e _ => ∃ ndx, (e, ndx) ∈ items
  | .transfer e ndx _ _ => (e, ndx) ∈ items ∧ E.Transfers e
  | .done => True

/-- The operations of the two tasks for a file list. -/
inductive PipelineOp (P : Pipeline) (items : List (FileEntry × Int)) : ReceiverOp → Prop where
  | entry {e : FileEntry} {ndx : Int} {op : ReceiverOp} (hmem : (e, ndx) ∈ items)
      (h : EntryOp P.engine e op) : PipelineOp P items op
  | read {op : ReceiverOp} (h : op.reads = true) : PipelineOp P items op
  | send {item : GeneratorItem} (h : ItemOf P.engine items item) : PipelineOp P items (.send item)
  | recv : PipelineOp P items .recv
  | generatorDone {ok : Bool} : PipelineOp P items (.generatorDone ok)
  | joinGenerator : PipelineOp P items .joinGenerator
  | receiverDone : PipelineOp P items .receiverDone

/-- What the receiver gets from the channel has been sent by the generator. -/
def ReplyOf (E : ReceiverEngine) (items : List (FileEntry × Int)) :
    (op : ReceiverOp) → op.Reply → Prop
  | .recv, got => ∀ item, got = some item → ItemOf E items item
  | _, _ => True

section Ops

variable {P : Pipeline} {items : List (FileEntry × Int)} {e : FileEntry} {ndx : Int}

variable {α : Type}

/-- A program for an entry of the list, as a program of the pipeline. -/
theorem safeE_ofEntry {post : α → Prop} {p : ReceiverM α} (hmem : (e, ndx) ∈ items)
    (h : SafeE (EntryOp P.engine e) (ReplyOf P.engine items) post p) :
    SafeE (PipelineOp P items) (ReplyOf P.engine items) post p :=
  Safe.weaken (fun _ hop => .entry hmem hop) h

theorem safeE_ofDispatch {post : α → Prop} {p : ReceiverM α} (hmem : (e, ndx) ∈ items)
    (h : SafeE (DispatchOp P.engine e) (ReplyOf P.engine items) post p) :
    SafeE (PipelineOp P items) (ReplyOf P.engine items) post p :=
  safeE_ofEntry hmem (Safe.weaken (fun _ hop => hop.1) h)

theorem safeE_attempt {post : α → Prop} {p : ReceiverM α}
    (h : SafeE (PipelineOp P items) (ReplyOf P.engine items) post p) :
    SafeE (PipelineOp P items) (ReplyOf P.engine items) (fun r => ∀ a, r = .ok a → post a)
      (Pipeline.attempt p) :=
  SafeE.lift h

theorem requestTransfer_ops (hmem : (e, ndx) ∈ items) (he : P.engine.Transfers e)
    (state : NdxState) (basis : List UInt8) :
    SafeE (PipelineOp P items) (ReplyOf P.engine items) (fun _ => True)
      (P.requestTransfer e ndx state basis) := by
  have hbasis : SafeE (PipelineOp P items) (ReplyOf P.engine items) (fun _ => True)
      (P.transferBasis e basis) := by
    refine SafeE.ite (fun _ => ?_) fun _ => SafeE.pure trivial
    refine safeE_query_bind (.read rfl) ?_
    intro found _
    exact SafeE.pure trivial
  refine SafeE.bind hbasis ?_
  intro basis _
  cases computeSignatures P.externals basis P.ctx with
  | error err => exact SafeE.throw err
  | ok sigs =>
    refine safeE_effect_bind (.read rfl) ?_
    refine safeE_query_bind (.send ⟨hmem, he⟩) ?_
    intro sent _
    exact SafeE.pure trivial

theorem announce_ops (hmem : (e, ndx) ∈ items) (state : NdxState) {action : EntryAction}
    (haction : action.For P.engine e) :
    SafeE (PipelineOp P items) (ReplyOf P.engine items) (fun _ => True) (P.announce e ndx state action) := by
  cases action with
  | handled kind =>
    refine safeE_query_bind (.send ⟨ndx, hmem⟩) ?_
    intro sent _
    exact SafeE.pure trivial
  | skipped => exact SafeE.pure trivial
  | deferredHardlink sourceName =>
    refine safeE_query_bind (.send ⟨ndx, hmem⟩) ?_
    intro sent _
    exact SafeE.pure trivial
  | needsTransfer basis => exact requestTransfer_ops hmem haction state basis

theorem generateEntry_ops (hmem : (e, ndx) ∈ items) (state : NdxState) :
    SafeE (PipelineOp P items) (ReplyOf P.engine items) (fun _ => True) (P.generateEntry e ndx state) := by
  have hparent : SafeE (PipelineOp P items) (ReplyOf P.engine items) (fun _ => True)
      (P.prepareParent e) := by
    refine SafeE.ite (fun hfile => ?_) fun _ => SafeE.pure trivial
    exact (safeE_attempt (safeE_ofDispatch hmem (ensureParent_ops hfile))).mono fun _ _ => trivial
  refine SafeE.bind hparent ?_
  intro _ _
  refine SafeE.bind (safeE_attempt (safeE_ofDispatch hmem dispatchEntry_ops)) ?_
  intro result hresult
  cases result with
  | error err => exact SafeE.pure trivial
  | ok action => exact announce_ops hmem state (hresult action rfl)

theorem generatorLoop_ops :
    ∀ (rest : List (FileEntry × Int)) (state : NdxState), (∀ item ∈ rest, item ∈ items) →
      SafeE (PipelineOp P items) (ReplyOf P.engine items) (fun _ => True) (P.generatorLoop rest state)
  | [], _, _ => SafeE.pure trivial
  | (e, ndx) :: rest, state, hrest => by
    refine SafeE.bind (generateEntry_ops (hrest (e, ndx) (by simp)) state) ?_
    intro next _
    cases next with
    | none => exact SafeE.pure trivial
    | some state =>
      exact generatorLoop_ops rest state fun item hitem => hrest item (by simp [hitem])

theorem generatorTask_ops :
    Safe (PipelineOp P items) (ReplyOf P.engine items) (fun _ => True) (P.generatorTask items) := by
  have hbody : SafeE (PipelineOp P items) (ReplyOf P.engine items) (fun _ => True) (P.generator items) := by
    refine SafeE.bind (generatorLoop_ops items .default fun _ h => h) ?_
    intro _ _
    refine safeE_query_bind (.send trivial) ?_
    intro _ _
    exact SafeE.pure trivial
  refine Safe.bind hbody ?_
  intro result _
  exact ⟨.generatorDone, fun _ _ => trivial⟩

theorem receiveData_ops (hmem : (e, ndx) ∈ items) (he : P.engine.Transfers e) (basis : List UInt8)
    (blength : Nat) :
    SafeE (PipelineOp P items) (ReplyOf P.engine items) (fun _ => True) (P.receiveData e basis blength) := by
  -- sparse files are received into memory first, the others through a writer
  refine SafeE.ite (fun hsparse => ?_) fun hsparse => ?_
  · refine safeE_query_bind (.read rfl) ?_
    intro result _
    rcases result with ⟨err, data⟩ | data
    · exact SafeE.throw err
    · exact safeE_ofEntry hmem (receiveFileSparse_ops he hsparse data)
  · refine SafeE.bind (safeE_ofEntry hmem (createWriter_ops he hsparse)) ?_
    intro w hw
    refine safeE_query_bind (.read rfl) ?_
    intro result _
    rcases result with ⟨err, data⟩ | data
    · refine SafeE.bind (safeE_ofEntry hmem (dropWriter_ops he hw data)) ?_
      intro _ _
      exact SafeE.throw err
    · refine SafeE.bind (safeE_ofEntry hmem (dropWriter_ops he hw data)) ?_
      intro _ _
      exact safeE_ofEntry hmem (finishFile_ops he)

theorem receiveTransfer_ops (hmem : (e, ndx) ∈ items) (he : P.engine.Transfers e)
    (st : Pipeline.ReceiverState) (basis : List UInt8) (blength : Nat) :
    SafeE (PipelineOp P items) (ReplyOf P.engine items) (fun st' => st'.deferred = st.deferred)
      (P.receiveTransfer st e ndx basis blength) := by
  refine safeE_query_bind (.read rfl) ?_
  intro result _
  cases result with
  | error err => exact SafeE.throw err
  | ok h =>
    refine SafeE.bind (receiveData_ops hmem he basis _) ?_
    intro _ _
    exact SafeE.pure rfl

/-- The deferred links of a receiver state are entries of the list. -/
def DeferredOf (items : List (FileEntry × Int)) (st : Pipeline.ReceiverState) : Prop :=
  ∀ d ∈ st.deferred, ∃ ndx, (d.1, ndx) ∈ items

theorem receiverLoop_ops :
    ∀ (n : Nat) (st : Pipeline.ReceiverState), DeferredOf items st →
      SafeE (PipelineOp P items) (ReplyOf P.engine items) (DeferredOf items) (P.receiverLoop n st)
  | 0, _, _ => SafeE.throw _
  | n + 1, st, hst => by
    refine safeE_query_bind .recv ?_
    intro got hgot
    rcases got with _ | item
    · exact SafeE.pure hst
    have hitem : ItemOf P.engine items item := hgot item rfl
    -- what the channel gives is an item for an entry of the list, and each kind has its operations
    cases item with
    | done => exact SafeE.pure hst
    | handled e kind => exact receiverLoop_ops n st hst
    | deferredHardlink e sourceName =>
      refine receiverLoop_ops n _ ?_
      intro d hd
      rcases List.mem_append.mp hd with hd | hd
      · exact hst d hd
      · rw [List.mem_singleton.mp hd]
        exact hitem
    | transfer e ndx basis blength =>
      refine SafeE.bind (receiveTransfer_ops hitem.1 hitem.2 st basis blength) ?_
      intro st' hst'
      refine receiverLoop_ops n st' ?_
      rw [DeferredOf, hst']
      exact hst

theorem reportSuccess_ops :
    ∀ ndxs, SafeE (PipelineOp P items) (ReplyOf P.engine items) (fun _ => True) (Pipeline.reportSuccess ndxs)
  | [] => SafeE.pure trivial
  | _ :: ndxs => safeE_effect_bind (.read rfl) (reportSuccess_ops ndxs)

theorem createDeferredLink_ops (hmem : (e, ndx) ∈ items) (entries : List FileEntry)
    (sourceName : List UInt8) :
    SafeE (PipelineOp P items) (ReplyOf P.engine items) (fun _ => True)
      (P.createDeferredLink entries e sourceName) := by
  unfold Pipeline.createDeferredLink
  cases entries.find? (fun s => s.name = sourceName) with
  | none => exact SafeE.pure trivial
  | some source =>
    refine SafeE.ite (fun _ => SafeE.pure trivial) fun _ => ?_
    refine safeE_query_bind (.entry hmem .unlink) ?_
    intro _ _
    refine safeE_query_bind (.entry hmem .link) ?_
    intro _ _
    exact SafeE.pure trivial

theorem createDeferredLinks_ops (entries : List FileEntry) :
    ∀ deferred : List (FileEntry × List UInt8), (∀ d ∈ deferred, ∃ ndx, (d.1, ndx) ∈ items) →
      SafeE (PipelineOp P items) (ReplyOf P.engine items) (fun _ => True)
        (P.createDeferredLinks entries deferred)
  | [], _ => SafeE.pure trivial
  | (e, sourceName) :: deferred, h => by
    obtain ⟨ndx, hmem⟩ := h (e, sourceName) (by simp)
    refine SafeE.bind (createDeferredLink_ops hmem entries sourceName) ?_
    intro _ _
    exact createDeferredLinks_ops entries deferred fun d hd => h d (by simp [hd])

theorem receiverTask_ops (entries : List FileEntry) :
    Safe (PipelineOp P items) (ReplyOf P.engine items) (fun _ => True) (P.receiverTask entries) := by
  have hbody : SafeE (PipelineOp P items) (ReplyOf P.engine items) (fun _ => True) (P.receiver entries) := by
    refine SafeE.bind (receiverLoop_ops _ _ (by simp [DeferredOf])) ?_
    intro st hst
    refine safeE_effect_bind .joinGenerator ?_
    refine SafeE.bind (reportSuccess_ops st.succeeded) ?_
    intro _ _
    exact createDeferredLinks_ops entries st.deferred hst
  refine Safe.bind hbody ?_
  intro result _
  exact ⟨.receiverDone, fun _ _ => trivial⟩

theorem PipelineOp.item_of_send {item : GeneratorItem} (h : PipelineOp P items (.send item)) :
    ItemOf P.engine items item := by
  cases h with
  | send h => exact h
  | read h => cases h
  | entry _ h =>
    cases h with
    | read h => cases h

/-- The channel holds items of the list only, and hands them on. -/
theorem channelEnv_items {s s' : ChannelState} {op : ReceiverOp} {r : op.Reply}
    (hqueue : ∀ item ∈ s.queue, ItemOf P.engine items item) (hop : PipelineOp P items op)
    (h : channelEnv s op r s') :
    ReplyOf P.engine items op r ∧ ∀ item ∈ s'.queue, ItemOf P.engine items item := by
  cases op with
  | send item =>
    refine ⟨trivial, ?_⟩
    simp only [channelEnv] at h
    split_ifs at h
    · rw [h.2]
      exact hqueue
    · obtain ⟨-, -, rfl⟩ := h
      intro i hi
      rcases List.mem_append.mp hi with hi | hi
      · exact hqueue i hi
      · rw [List.mem_singleton.mp hi]
        exact hop.item_of_send
  | recv =>
    simp only [channelEnv] at h
    cases hq : s.queue with
    | nil =>
      rw [hq] at h
      obtain ⟨-, rfl, rfl⟩ := h
      exact ⟨fun _ hnone => absurd hnone (by simp), hqueue⟩
    | cons item queue =>
      rw [hq] at h hqueue
      obtain ⟨rfl, rfl⟩ := h
      refine ⟨?_, fun i hi => hqueue i (List.mem_cons_of_mem item hi)⟩
      intro i hi
      rw [← Option.some.inj hi]
      exact hqueue item List.mem_cons_self
  | joinGenerator =>
    obtain ⟨-, rfl⟩ := h
    exact ⟨trivial, hqueue⟩
  -- every other operation leaves the queue as it is
  | _ =>
    obtain rfl := h
    exact ⟨trivial, hqueue⟩

end Ops

section Runs

variable {ω : Type} {world : Env ω ReceiverOp ReceiverOp.Reply} {P : Pipeline}
  {items : List (FileEntry × Int)} {w : ω}
  {c : Par (ω × ChannelState) ReceiverOp ReceiverOp.Reply Unit (Except Failure Unit)}
  {events : List (Event (ω × ChannelState) ReceiverOp)}

/-- **The pipelined receiver in a world with an invariant.** In every interleaving of the two
tasks whose steps keep the invariant, every operation is one for an entry of the list, a read, or
one on the channel, and is performed in a world with the invariant. -/
theorem pipeline_safe (hrun : Par.Run (pipelineEnv world) (P.start items w) events c)
    {J : ω → Prop} (hstart : J w)
    (hstep : ∀ ev ∈ events, J ev.before.1 → PipelineOp P items ev.op → ∀ r,
      world ev.before.1 ev.op r ev.after.1 → J ev.after.1) :
    ∀ ev ∈ events, J ev.before.1 ∧ PipelineOp P items ev.op := by
  have hsafe := Par.run_safe (I := fun s => (∀ item ∈ s.2.queue, ItemOf P.engine items item) ∧ J s.1)
    (Q := PipelineOp P items) (R := ReplyOf P.engine items) hrun ?_
    ⟨by simp [Pipeline.start, ChannelState.start], hstart⟩ generatorTask_ops (receiverTask_ops _)
  · intro ev hev
    obtain ⟨⟨-, hJ⟩, hop⟩ := hsafe ev hev
    exact ⟨hJ, hop⟩
  · rintro ev hev ⟨hqueue, hJ⟩ hop r ⟨hchannel, hworld⟩
    obtain ⟨hreply, hqueue'⟩ := channelEnv_items hqueue hop hchannel
    refine ⟨hreply, hqueue', ?_⟩
    split_ifs at hworld
    · rw [hworld]
      exact hJ
    · exact hstep ev hev hJ hop r hworld

/-- **What the pipelined receiver can do**, in every world. -/
theorem pipeline_ops (hrun : Par.Run (pipelineEnv world) (P.start items w) events c) :
    ∀ ev ∈ events, PipelineOp P items ev.op := by
  intro ev hev
  exact (pipeline_safe hrun (J := fun _ => True) trivial (fun _ _ _ _ _ _ => trivial) ev hev).2

end Runs

/-! ## Runs put together -/

section Steps

variable {ω : Type} {world : Env ω ReceiverOp ReceiverOp.Reply} {w : ω} {ch : ChannelState}
  {o : ReceiverOp} {K Q : Event (ω × ChannelState) ReceiverOp → Prop} {α β : Type}

theorem channelEnv_of_not_channel (hop : o.isChannel = false) (r : o.Reply) :
    channelEnv ch o r ch := by
  cases o <;> first | rfl | cases hop

theorem pipelineEnv_world (hop : o.isChannel = false) {r : o.Reply} {w' : ω}
    (h : world w o r w') : pipelineEnv world (w, ch) o r (w', ch) :=
  ⟨channelEnv_of_not_channel hop r, by simpa [hop] using h⟩

theorem pipelineEnv_channel (hop : o.isChannel = true) {r : o.Reply} {ch' : ChannelState}
    (h : channelEnv ch o r ch') : pipelineEnv world (w, ch) o r (w, ch') :=
  ⟨h, by simp [hop]⟩

variable {q : ReceiverProg β} {p : ReceiverProg α}

theorem can_left_world (w' : ω) (r : o.Reply) {next : o.Reply → ReceiverProg α}
    (hop : o.isChannel = false) (h : world w o r w') (hK : K ⟨(w, ch), o, (w', ch)⟩)
    (rest : Par.Can (pipelineEnv world) K Q ⟨(w', ch), next r, q⟩) :
    Par.Can (pipelineEnv world) K Q ⟨(w, ch), .ask o next, q⟩ :=
  .later (.left (pipelineEnv_world hop h)) hK rest

theorem can_left_channel (ch' : ChannelState) (r : o.Reply) {next : o.Reply → ReceiverProg α}
    (hop : o.isChannel = true) (h : channelEnv ch o r ch') (hK : K ⟨(w, ch), o, (w, ch')⟩)
    (rest : Par.Can (pipelineEnv world) K Q ⟨(w, ch'), next r, q⟩) :
    Par.Can (pipelineEnv world) K Q ⟨(w, ch), .ask o next, q⟩ :=
  .later (.left (pipelineEnv_channel hop h)) hK rest

theorem can_right_world (w' : ω) (r : o.Reply) {next : o.Reply → ReceiverProg β}
    (hop : o.isChannel = false) (h : world w o r w') (hK : K ⟨(w, ch), o, (w', ch)⟩)
    (rest : Par.Can (pipelineEnv world) K Q ⟨(w', ch), p, next r⟩) :
    Par.Can (pipelineEnv world) K Q ⟨(w, ch), p, .ask o next⟩ :=
  .later (.right (pipelineEnv_world hop h)) hK rest

theorem can_right_channel (ch' : ChannelState) (r : o.Reply) {next : o.Reply → ReceiverProg β}
    (hop : o.isChannel = true) (h : channelEnv ch o r ch') (hK : K ⟨(w, ch), o, (w, ch')⟩)
    (rest : Par.Can (pipelineEnv world) K Q ⟨(w, ch'), p, next r⟩) :
    Par.Can (pipelineEnv world) K Q ⟨(w, ch), p, .ask o next⟩ :=
  .later (.right (pipelineEnv_channel hop h)) hK rest

end Steps

end Ferrosync
