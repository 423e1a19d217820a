import Ferrosync.Lib.History
import Ferrosync.Engine.ReceiveFlows
import Ferrosync.Engine.DeltaTransfer

set_option autoImplicit false

/-! # Which response goes to which file

The receiver reads the NDX of a response and does not look at it: the file a delta is applied to
is the next one in the queue of the generator. So the pairing is by position (`delta_by_position`).
A delta goes to the file its header names in every run in which the responses come in the order of
the requests, with none left out (`delta_paired`).
-/

namespace Ferrosync

open UnixPath Interaction ByteStream

/-! ## The wire -/

/-- The file system and the connection. `input` is what the sender sends from now on, `requests`
the NDXs that have been requested and `headers` those of the response headers that have been
read. -/
structure WireWorld (φ : Type) where
  fs : φ
  input : List UInt8
  requests : List Int
  headers : List Int

def takeAll : WriteAll (List UInt8) := fun written bytes => .ok (written ++ bytes)

/-- How the deltas of a session are encoded: the negotiated token reader. -/
structure DeltaCodec (σ : Type) where
  tokens : TokenReader σ
  start : Except Failure σ

/-- The data of the next delta of the stream and the rest of the stream; `none` if the delta
receiver fails on it. -/
def Pipeline.nextDelta {σ : Type} (P : Pipeline) (D : DeltaCodec σ) (buffered : Bool)
    (basis : List UInt8) (blength : Nat) (input : List UInt8) : Option (List UInt8 × List UInt8) :=
  if buffered then
    (recvFileDeltaWith P.externals plainTokenReader () basis blength P.ctx input).toOption
  else match D.start with
    | .error _ => none
    | .ok s =>
      (recvFileDeltaToWriterWith P.externals D.tokens s basis blength P.ctx takeAll []
        input).toOption.map fun r => (r.1.2, r.2)

section World

variable {φ σ : Type} (files : Env φ ReceiverOp ReceiverOp.Reply) (P : Pipeline) (D : DeltaCodec σ)

/-- The world of the pipeline: the files are any environment, the responses are read from the
stream. -/
def wireEnv (s : WireWorld φ) : (op : ReceiverOp) → op.Reply → WireWorld φ → Prop
  | .writeRequest ndx _, sent, s' =>
    s' = if sent then { s with requests := s.requests ++ [ndx] } else s
  | .writeSuccess _, _, s' => s' = s
  | .readHeader state, r, s' =>
    match readResponseHeader P.wire state s.input with
    | .ok (h, rest) => r = .ok h ∧ s' = { s with input := rest, headers := s.headers ++ [h.ndx] }
    | .error e => r = .error e ∧ s' = s
  | .readDelta buffered basis blength, r, s' =>
    match r with
    | .ok data => ∃ rest, P.nextDelta D buffered basis blength s.input = some (data, rest) ∧
        s' = { s with input := rest }
    -- the stream is bad or the file cannot be written; nothing more is read
    | .error _ => s' = s
  | op, r, s' => ∃ fs', files s.fs op r fs' ∧ s' = { s with fs := fs' }

end World

/-! ## Histories of the two tasks -/

/-- Operations on an end of the channel or the wire that only one of the tasks has. -/
def ReceiverOp.ordered : ReceiverOp → Bool
  | .writeRequest _ _ | .readHeader _ | .send _ | .recv => true
  | _ => false

/-- The generator's history: the NDX of a request it has written and not yet announced. -/
def generatorNext (g : Option Int) : (op : ReceiverOp) → op.Reply → Option Int
  | .writeRequest ndx _, sent => if sent then some ndx else g
  | .send (.transfer _ _ _ _), sent => if sent then none else g
  | _, _ => g

/-- What the generator does at a history: it announces exactly what it has requested. -/
def GeneratorOp (E : ReceiverEngine) (items : List (FileEntry × Int)) (g : Option Int) :
    ReceiverOp → Prop
  | .writeRequest _ _ => g = none
  | .send item => ItemOf E items item ∧
      ∀ e ndx basis blength, item = .transfer e ndx basis blength → g = some ndx
  | .readHeader _ | .recv => False
  | op => op.writesFile = false

/-- The receiver's history: the transfer it is at, before and after the response's header. -/
inductive ReceiverHistory where
  | idle
  | awaiting (e : FileEntry) (ndx : Int)
  | holding (e : FileEntry) (ndx : Int)

namespace ReceiverHistory

/-- The transfer whose header has not been read. -/
def awaited : ReceiverHistory → List Int
  | .awaiting _ ndx => [ndx]
  | _ => []

def next (g : ReceiverHistory) : (op : ReceiverOp) → op.Reply → ReceiverHistory
  | .recv, got =>
    match got with
    | some (.transfer e ndx _ _) => .awaiting e ndx
    | _ => .idle
  | .readHeader _, r =>
    match g, r with
    | .awaiting e ndx, .ok _ => .holding e ndx
    | g, _ => g
  | _, _ => g

/-- What the receiver does at a history: it writes files for the transfer it is at, after its
header. -/
def Allows (P : Pipeline) (g : ReceiverHistory) : ReceiverOp → Prop
  | .recv => g.awaited = []
  | .readHeader _ => ∃ e ndx, g = .awaiting e ndx
  | .writeRequest _ _ | .send _ => False
  | op => op.writesFile = true → ∃ e ndx, g = .holding e ndx ∧ EntryOp P.engine e op

end ReceiverHistory

theorem EntryOp.not_ordered {E : ReceiverEngine} {e : FileEntry} {op : ReceiverOp}
    (h : EntryOp E e op) : op.ordered = false := by
  cases h with
  | read hlooks => cases op <;> first | rfl | cases hlooks
  | _ => rfl

theorem GeneratorOp.writes_nothing {E : ReceiverEngine} {items : List (FileEntry × Int)}
    {g : Option Int} {op : ReceiverOp} (h : GeneratorOp E items g op) : op.writesFile = false := by
  cases op <;> first | rfl | exact h

theorem ReceiverHistory.Allows.holding {P : Pipeline} {g : ReceiverHistory} {op : ReceiverOp}
    (h : g.Allows P op) (hwrites : op.writesFile = true) :
    ∃ e ndx, g = .holding e ndx ∧ EntryOp P.engine e op := by
  cases op <;> first | exact h hwrites | cases hwrites

theorem EntryOp.target_of_commitTmp {E : ReceiverEngine} {e : FileEntry} {tmp dst : Path}
    {mode : Option UInt32} {data : List UInt8} (h : EntryOp E e (.commitTmp tmp dst mode data)) :
    WriteTarget E e dst := by
  cases h with
  | read hlooks => cases hlooks
  | commitTmp _ _ htarget => exact htarget

section Stay

variable {P : Pipeline} {items : List (FileEntry × Int)} {e : FileEntry} {op : ReceiverOp}

theorem generator_stays (hordered : op.ordered = false) (hwrites : op.writesFile = false)
    (g : Option Int) : GeneratorOp P.engine items g op ∧ ∀ r, generatorNext g op r = g := by
  cases op <;> first | exact ⟨hwrites, fun _ => rfl⟩ | cases hordered

theorem receiver_stays {g : ReceiverHistory} (hordered : op.ordered = false)
    (hwrites : op.writesFile = true → ∃ e ndx, g = .holding e ndx ∧ EntryOp P.engine e op) :
    g.Allows P op ∧ ∀ r, g.next op r = g := by
  cases op <;> first | exact ⟨hwrites, fun _ => rfl⟩ | cases hordered

end Stay

/-! ## The generator keeps to its history -/

section Generator

variable {P : Pipeline} {items : List (FileEntry × Int)} {e : FileEntry} {ndx : Int}

theorem dispatch_stays {op : ReceiverOp} (h : DispatchOp P.engine e op) (g : Option Int) :
    GeneratorOp P.engine items g op ∧ ∀ r, generatorNext g op r = g :=
  generator_stays h.1.not_ordered h.2 g

theorem transferBasis_ops (basis : List UInt8) :
    SafeE (DispatchOp P.engine e) (ReplyOf P.engine items) (fun _ => True) (P.transferBasis e basis) := by
  refine SafeE.ite (fun _ => ?_) fun _ => SafeE.pure trivial
  refine safeE_query_bind ⟨.read rfl, rfl⟩ ?_
  intro found _
  exact SafeE.pure trivial

/-- A request that has been written is announced next. -/
theorem requestTransfer_history (hmem : (e, ndx) ∈ items) (he : P.engine.Transfers e)
    (state : NdxState) (basis : List UInt8) :
    SafeFromE generatorNext (GeneratorOp P.engine items) (ReplyOf P.engine items)
      (fun g next => next.isSome = true → g = none) none
      (P.requestTransfer e ndx state basis) := by
  refine SafeFromE.bind (SafeE.safeFromE (fun op hop => dispatch_stays hop none)
    (transferBasis_ops basis)) ?_
  rintro g basis ⟨rfl, -⟩
  -- nothing is written before the signatures are there
  cases computeSignatures P.externals basis P.ctx with
  | error err => exact SafeFromE.throw err
  | ok sigs =>
    refine ⟨rfl, ?_⟩
    intro written _
    cases written with
    | false => exact SafeFromE.throw _
    | true =>
      -- the announcement is the one of the request just written, and clears it
      refine ⟨⟨⟨hmem, he⟩, ?_⟩, ?_⟩
      · intro e' ndx' basis' blength' heq
        cases heq
        rfl
      · intro sent _
        refine SafeFromE.pure ?_
        cases sent with
        | false =>
          intro hnone
          cases hnone
        | true => exact fun _ => rfl

theorem announce_history (hmem : (e, ndx) ∈ items) (state : NdxState) {action : EntryAction}
    (haction : action.For P.engine e) :
    SafeFromE generatorNext (GeneratorOp P.engine items) (ReplyOf P.engine items)
      (fun g next => next.isSome = true → g = none) none (P.announce e ndx state action) := by
  cases action with
  | handled kind =>
    refine ⟨⟨⟨ndx, hmem⟩, fun _ _ _ _ heq => by cases heq⟩, ?_⟩
    intro sent _
    exact SafeFromE.pure fun _ => rfl
  | skipped => exact SafeFromE.pure fun _ => rfl
  | deferredHardlink sourceName =>
    refine ⟨⟨⟨ndx, hmem⟩, fun _ _ _ _ heq => by cases heq⟩, ?_⟩
    intro sent _
    exact SafeFromE.pure fun _ => rfl
  | needsTransfer basis => exact requestTransfer_history hmem haction state basis

theorem generateEntry_history (hmem : (e, ndx) ∈ items) (state : NdxState) :
    SafeFromE generatorNext (GeneratorOp P.engine items) (ReplyOf P.engine items)
      (fun g next => next.isSome = true → g = none) none (P.generateEntry e ndx state) := by
  have hparent : SafeFromE generatorNext (GeneratorOp P.engine items) (ReplyOf P.engine items)
      (fun g _ => g = none) none (P.prepareParent e) := by
    unfold Pipeline.prepareParent
    split_ifs with hfile
    · refine SafeFrom.mono ?_ (SafeE.safeFromE_run (fun op hop => dispatch_stays hop none)
        (ensureParent_ops hfile))
      intro g r hr a ha
      exact (hr a ha).1
    · exact SafeFromE.pure rfl
  refine SafeFromE.bind hparent ?_
  rintro g _ rfl
  refine SafeFromE.bind (SafeE.safeFromE_run (fun op hop => dispatch_stays hop none)
    dispatchEntry_ops) ?_
  rintro g result ⟨rfl, hresult⟩
  -- a failure of the entry is only logged; the generator goes on without a request
  cases result with
  | error err => exact SafeFromE.pure fun _ => rfl
  | ok action => exact announce_history hmem state (hresult action rfl)

theorem generatorLoop_history :
    ∀ (rest : List (FileEntry × Int)) (state : NdxState), (∀ item ∈ rest, item ∈ items) →
      SafeFromE generatorNext (GeneratorOp P.engine items) (ReplyOf P.engine items) (fun _ _ => True) none
        (P.generatorLoop rest state)
  | [], _, _ => SafeFromE.pure trivial
  | (e, ndx) :: rest, state, hrest => by
    refine SafeFromE.bind (generateEntry_history (hrest (e, ndx) (by simp)) state) ?_
    intro g next hnext
    cases next with
    | none => exact SafeFromE.pure trivial
    | some state =>
      obtain rfl := hnext rfl
      exact generatorLoop_history rest state fun item hitem => hrest item (by simp [hitem])

/-- **The generator announces the transfers it requests, one by one.** -/
theorem generatorTask_history :
    SafeFrom generatorNext (GeneratorOp P.engine items) (ReplyOf P.engine items) (fun _ _ => True) none
      (P.generatorTask items) := by
  have hbody : SafeFromE generatorNext (GeneratorOp P.engine items) (ReplyOf P.engine items) (fun _ _ => True) none
      (P.generator items) := by
    refine SafeFromE.bind (generatorLoop_history items .default fun _ h => h) ?_
    intro g _ _
    refine ⟨⟨trivial, fun _ _ _ _ heq => by cases heq⟩, ?_⟩
    intro _ _
    exact SafeFromE.pure trivial
  refine SafeFrom.bind hbody ?_
  intro g result _
  exact ⟨rfl, fun _ _ => trivial⟩

end Generator

/-! ## The receiver keeps to its history -/

section Receiver

variable {P : Pipeline} {items : List (FileEntry × Int)} {e : FileEntry} {ndx : Int}

theorem entry_stays {op : ReceiverOp} (h : EntryOp P.engine e op) (ndx : Int) :
    (ReceiverHistory.holding e ndx).Allows P op ∧
      ∀ r, (ReceiverHistory.holding e ndx).next op r = .holding e ndx :=
  receiver_stays h.not_ordered fun _ => ⟨e, ndx, rfl, h⟩

theorem receiveStreamed_history (he : P.engine.Transfers e)
    (hsparse : ¬ P.engine.options.sparse = true) (basis : List UInt8) (blength : Nat) :
    SafeFromE ReceiverHistory.next (ReceiverHistory.Allows P) (ReplyOf P.engine items)
      (fun g _ => g = .holding e ndx) (.holding e ndx) (P.receiveStreamed e basis blength) := by
  refine SafeFromE.bind (SafeE.safeFromE (fun op hop => entry_stays hop ndx)
    (createWriter_ops he hsparse)) ?_
  rintro g w ⟨rfl, hw⟩
  have hdrop := fun data => SafeE.safeFromE (R := ReplyOf P.engine items)
    (fun op hop => entry_stays hop ndx) (dropWriter_ops he hw data)
  refine SafeFromE.perform_bind (fun hwrites => by cases hwrites) ?_
  intro result _
  -- the writer is dropped in either case; only a delta that was read finishes the file
  rcases result with ⟨err, data⟩ | data
  · refine SafeFromE.bind (hdrop data) ?_
    intro g _ _
    exact SafeFromE.throw err
  · refine SafeFromE.bind (hdrop data) ?_
    rintro g _ ⟨rfl, -⟩
    refine SafeFrom.mono ?_ (SafeE.safeFromE (fun op hop => entry_stays hop ndx)
      (finishFile_ops he))
    intro g r hr a ha
    exact (hr a ha).1

theorem receiveBuffered_history (he : P.engine.Transfers e)
    (hsparse : P.engine.options.sparse = true) (basis : List UInt8) (blength : Nat) :
    SafeFromE ReceiverHistory.next (ReceiverHistory.Allows P) (ReplyOf P.engine items)
      (fun g _ => g = .holding e ndx) (.holding e ndx) (P.receiveBuffered e basis blength) := by
  refine SafeFromE.perform_bind (fun hwrites => by cases hwrites) ?_
  intro result _
  rcases result with ⟨err, data⟩ | data
  · exact SafeFromE.throw err
  · refine SafeFrom.mono ?_ (SafeE.safeFromE (fun op hop => entry_stays hop ndx)
      (receiveFileSparse_ops he hsparse data))
    intro g r hr a ha
    exact (hr a ha).1

/-- The transfer arm reads a header, then writes for its entry. -/
theorem receiveTransfer_history (he : P.engine.Transfers e) (st : Pipeline.ReceiverState)
    (basis : List UInt8) (blength : Nat) :
    SafeFromE ReceiverHistory.next (ReceiverHistory.Allows P) (ReplyOf P.engine items)
      (fun g _ => g.awaited = []) (.awaiting e ndx)
      (P.receiveTransfer st e ndx basis blength) := by
  refine SafeFromE.perform_bind ⟨e, ndx, rfl⟩ ?_
  intro result _
  cases result with
  | error err => exact SafeFromE.throw err
  -- the header makes this transfer the one that is held; all that follows is for its entry
  | ok h =>
    have hdata : SafeFromE ReceiverHistory.next (ReceiverHistory.Allows P) (ReplyOf P.engine items)
        (fun g _ => g = .holding e ndx) (.holding e ndx)
        (P.receiveData e basis (h.blength blength)) := by
      unfold Pipeline.receiveData
      split_ifs with hsparse
      · exact receiveBuffered_history he hsparse basis _
      · exact receiveStreamed_history he hsparse basis _
    refine SafeFromE.bind hdata ?_
    rintro g _ rfl
    exact SafeFromE.pure rfl

theorem receiverLoop_history :
    ∀ (n : Nat) (st : Pipeline.ReceiverState) (g : ReceiverHistory), g.awaited = [] →
      SafeFromE ReceiverHistory.next (ReceiverHistory.Allows P) (ReplyOf P.engine items) (fun _ _ => True) g
        (P.receiverLoop n st)
  | 0, _, _, _ => SafeFromE.throw _
  | n + 1, st, g, hg => by
    refine SafeFromE.perform_bind hg ?_
    intro got hgot
    rcases got with _ | item
    · exact SafeFromE.pure trivial
    cases item with
    | done => exact SafeFromE.pure trivial
    | handled e kind => exact receiverLoop_history n st _ rfl
    | deferredHardlink e sourceName => exact receiverLoop_history n _ _ rfl
    | transfer e ndx basis blength =>
      have hitem : ItemOf P.engine items (.transfer e ndx basis blength) := hgot _ rfl
      refine SafeFromE.bind (receiveTransfer_history hitem.2 st basis blength) ?_
      intro g st' hg
      exact receiverLoop_history n st' g hg

theorem deferred_stays {op : ReceiverOp} (hordered : op.ordered = false)
    (hwrites : op.writesFile = false) (g : ReceiverHistory) :
    g.Allows P op ∧ ∀ r, g.next op r = g :=
  receiver_stays hordered fun h => by simp [hwrites] at h

theorem reportSuccess_ends (ndxs : List Int) :
    SafeE (fun op => op.ordered = false ∧ op.writesFile = false) (ReplyOf P.engine items) (fun _ => True)
      (Pipeline.reportSuccess ndxs) := by
  induction ndxs with
  | nil => exact SafeE.pure trivial
  | cons ndx ndxs ih => exact safeE_effect_bind ⟨rfl, rfl⟩ ih

theorem createDeferredLinks_ends (entries : List FileEntry)
    (deferred : List (FileEntry × List UInt8)) :
    SafeE (fun op => op.ordered = false ∧ op.writesFile = false) (ReplyOf P.engine items) (fun _ => True)
      (P.createDeferredLinks entries deferred) := by
  induction deferred with
  | nil => exact SafeE.pure trivial
  | cons d deferred ih =>
    -- links are made behind the loop: no file is written, and neither queue nor wire is used
    have hlink : SafeE (fun op => op.ordered = false ∧ op.writesFile = false) (ReplyOf P.engine items)
        (fun _ => True) (P.createDeferredLink entries d.1 d.2) := by
      unfold Pipeline.createDeferredLink
      cases entries.find? (fun s => s.name = d.2) with
      | none => exact SafeE.pure trivial
      | some source =>
        refine SafeE.ite (fun _ => SafeE.pure trivial) fun _ => ?_
        refine safeE_query_bind ⟨rfl, rfl⟩ ?_
        intro _ _
        refine safeE_query_bind ⟨rfl, rfl⟩ ?_
        intro _ _
        exact SafeE.pure trivial
    exact SafeE.bind hlink fun _ _ => ih

/-- **The receiver writes files for the transfer it is at**, after the header of a response. -/
theorem receiverTask_history (entries : List FileEntry) :
    SafeFrom ReceiverHistory.next (ReceiverHistory.Allows P) (ReplyOf P.engine items) (fun _ _ => True) .idle
      (P.receiverTask entries) := by
  have hbody : SafeFromE ReceiverHistory.next (ReceiverHistory.Allows P) (ReplyOf P.engine items)
      (fun _ _ => True) .idle (P.receiver entries) := by
    refine SafeFromE.bind (receiverLoop_history _ _ .idle rfl) ?_
    intro g st _
    -- behind the loop the state of the history no longer matters: nothing there is ordered
    have htail : SafeE (fun op => op.ordered = false ∧ op.writesFile = false) (ReplyOf P.engine items)
        (fun _ => True) (do
          effect .joinGenerator id
          Pipeline.reportSuccess st.succeeded
          P.createDeferredLinks entries st.deferred) := by
      refine safeE_effect_bind ⟨rfl, rfl⟩ ?_
      refine SafeE.bind (reportSuccess_ends st.succeeded) ?_
      intro _ _
      exact createDeferredLinks_ends entries st.deferred
    refine SafeFrom.mono ?_ (SafeE.safeFromE (fun op hop => deferred_stays hop.1 hop.2 g) htail)
    intro _ _ _ _ _
    trivial
  refine SafeFrom.bind hbody ?_
  intro g result _
  refine ⟨?_, fun _ _ => trivial⟩
  intro hwrites
  cases hwrites

end Receiver

/-! ## The order of requests, queue and headers -/

def GeneratorItem.transferNdx : GeneratorItem → Option Int
  | .transfer _ ndx _ _ => some ndx
  | _ => none

/-- The requests, in order: those whose header has been read, the one the receiver waits for,
those in the queue, the one not yet announced. -/
structure InOrder {φ : Type} (E : ReceiverEngine) (items : List (FileEntry × Int))
    (s : WireWorld φ × ChannelState) (g : Option Int) (h : ReceiverHistory) (answered : List Int) : Prop where
  queued : ∀ item ∈ s.2.queue, ItemOf E items item
  requests : s.1.requests =
    answered ++ h.awaited ++ s.2.queue.filterMap GeneratorItem.transferNdx ++ g.toList
  headers : answered.length = s.1.headers.length
  awaits : ∀ e ndx, h = .awaiting e ndx → (e, ndx) ∈ items
  holds : ∀ e ndx, h = .holding e ndx → (e, ndx) ∈ items ∧ answered.getLast? = some ndx

section Order

variable {φ σ : Type} {files : Env φ ReceiverOp ReceiverOp.Reply} {P : Pipeline} {D : DeltaCodec σ}
  {items : List (FileEntry × Int)} {s s' : WireWorld φ × ChannelState} {op : ReceiverOp}
  {r : op.Reply} {g : Option Int} {h : ReceiverHistory}

/-- What no end of the queue or of the wire is moved by. -/
theorem pipelineEnv_frame (hordered : op.ordered = false)
    (henv : pipelineEnv (wireEnv files P D) s op r s') :
    s'.2.queue = s.2.queue ∧ s'.1.requests = s.1.requests ∧ s'.1.headers = s.1.headers := by
  obtain ⟨hchannel, hworld⟩ := henv
  cases op with
  -- the four operations that move an end of the queue or of the wire are the ordered ones
  | writeRequest | readHeader | send | recv => cases hordered
  | generatorDone ok =>
    have hqueue : s'.2 = { s.2 with generatorDone := some ok } := hchannel
    have hs : s'.1 = s.1 := hworld
    exact ⟨by rw [hqueue], by rw [hs], by rw [hs]⟩
  | receiverDone =>
    have hqueue : s'.2 = { s.2 with receiverGone := true } := hchannel
    have hs : s'.1 = s.1 := hworld
    exact ⟨by rw [hqueue], by rw [hs], by rw [hs]⟩
  | joinGenerator =>
    have hs : s'.1 = s.1 := hworld
    exact ⟨by rw [hchannel.2], by rw [hs], by rw [hs]⟩
  | readDelta buffered basis blength =>
    have hqueue : s'.2 = s.2 := hchannel
    cases r with
    | ok data =>
      obtain ⟨rest, -, hs⟩ : ∃ rest, _ ∧ s'.1 = { s.1 with input := rest } := hworld
      exact ⟨by rw [hqueue], by rw [hs], by rw [hs]⟩
    | error err =>
      have hs : s'.1 = s.1 := hworld
      exact ⟨by rw [hqueue], by rw [hs], by rw [hs]⟩
  | writeSuccess ndx =>
    have hs : s'.1 = s.1 := hworld
    exact ⟨by rw [show s'.2 = s.2 from hchannel], by rw [hs], by rw [hs]⟩
  | _ =>
    obtain ⟨fs', -, hs⟩ := hworld
    exact ⟨by rw [show s'.2 = s.2 from hchannel], by rw [hs], by rw [hs]⟩

theorem InOrder.frame {answered : List Int} (hI : InOrder P.engine items s g h answered)
    (hordered : op.ordered = false) (henv : pipelineEnv (wireEnv files P D) s op r s') :
    ReplyOf P.engine items op r ∧ InOrder P.engine items s' g h answered := by
  obtain ⟨hqueue, hrequests, hheaders⟩ := pipelineEnv_frame hordered henv
  refine ⟨?_, ?_⟩
  · cases op <;> trivial
  · exact ⟨by rw [hqueue]; exact hI.queued, by rw [hrequests, hqueue]; exact hI.requests,
      by rw [hheaders]; exact hI.headers, hI.awaits, hI.holds⟩

theorem InOrder.generator {answered : List Int} (hI : InOrder P.engine items s g h answered)
    (hop : GeneratorOp P.engine items g op) (henv : pipelineEnv (wireEnv files P D) s op r s') :
    ReplyOf P.engine items op r ∧ InOrder P.engine items s' (generatorNext g op r) h answered := by
  by_cases hordered : op.ordered = true
  swap
  · have hframe := hI.frame (by simpa using hordered) henv
    have hstay : generatorNext g op r = g := by
      cases op <;> first | rfl | exact absurd rfl hordered
    rwa [hstay]
  obtain ⟨hchannel, hworld⟩ := henv
  cases op with
  | readHeader | recv => exact hop.elim
  | writeRequest ndx bytes =>
    refine ⟨trivial, ?_⟩
    obtain rfl : g = none := hop
    have hqueue : s'.2 = s.2 := hchannel
    have hs : s'.1 = if r then { s.1 with requests := s.1.requests ++ [ndx] } else s.1 := hworld
    cases r with
    | false =>
      exact ⟨by rw [hqueue]; exact hI.queued, by rw [hs, hqueue]; exact hI.requests,
        by rw [hs]; exact hI.headers, hI.awaits, hI.holds⟩
    | true =>
      refine ⟨by rw [hqueue]; exact hI.queued, ?_, by rw [hs]; exact hI.headers, hI.awaits,
        hI.holds⟩
      rw [hs, hqueue]
      show s.1.requests ++ [ndx] = _ ++ [ndx]
      rw [hI.requests]
      simp
  | send item =>
    refine ⟨trivial, ?_⟩
    have hs : s'.1 = s.1 := hworld
    obtain ⟨hitem, hannounced⟩ := hop
    simp only [channelEnv] at hchannel
    split_ifs at hchannel with hgone
    · -- the receiver is gone: nothing is queued, and the request stays unannounced
      obtain ⟨rfl, hqueue⟩ := hchannel
      have hstay : generatorNext g (.send item) false = g := by cases item <;> rfl
      rw [hstay]
      exact ⟨by rw [hqueue]; exact hI.queued, by rw [hs, hqueue]; exact hI.requests,
        by rw [hs]; exact hI.headers, hI.awaits, hI.holds⟩
    · obtain ⟨-, rfl, hqueue⟩ := hchannel
      have hq : s'.2.queue = s.2.queue ++ [item] := by rw [hqueue]
      refine ⟨?_, ?_, by rw [hs]; exact hI.headers, hI.awaits, hI.holds⟩
      · rw [hq]
        intro i hi
        rcases List.mem_append.mp hi with hi | hi
        · exact hI.queued i hi
        · rw [List.mem_singleton.mp hi]
          exact hitem
      · rw [hs, hq, hI.requests]
        cases item with
        | transfer e ndx basis blength =>
          rw [hannounced e ndx basis blength rfl]
          simp [generatorNext, GeneratorItem.transferNdx]
        | _ => simp [generatorNext, GeneratorItem.transferNdx]
  | _ => cases hordered

theorem InOrder.receiver {answered : List Int} (hI : InOrder P.engine items s g h answered)
    (hop : h.Allows P op) (henv : pipelineEnv (wireEnv files P D) s op r s') :
    ReplyOf P.engine items op r ∧ ∃ answered', InOrder P.engine items s' g (h.next op r) answered' := by
  -- an operation that is not ordered changes none of the sequences
  by_cases hordered : op.ordered = true
  swap
  · have hframe := hI.frame (by simpa using hordered) henv
    have hstay : h.next op r = h := by
      cases op <;> first | rfl | exact absurd rfl hordered
    rw [hstay]
    exact ⟨hframe.1, answered, hframe.2⟩
  obtain ⟨hchannel, hworld⟩ := henv
  cases op with
  | writeRequest | send => exact hop.elim
  | recv =>
    have hs : s'.1 = s.1 := hworld
    have hidle : h.awaited = [] := hop
    have hrequests := hI.requests
    rw [hidle] at hrequests
    simp only [channelEnv] at hchannel
    -- an item leaves the queue: if it is a transfer, its number moves from the queue to what is
    -- awaited
    cases hq : s.2.queue with
    | nil =>
      rw [hq] at hchannel hrequests
      obtain ⟨-, rfl, hqueue⟩ := hchannel
      refine ⟨fun _ hnone => absurd hnone (by simp), answered, ?_⟩
      refine ⟨by rw [hqueue]; exact hI.queued, ?_, by rw [hs]; exact hI.headers, ?_, ?_⟩
      · rw [hs, hqueue, hq, hrequests]
        simp [ReceiverHistory.next, ReceiverHistory.awaited]
      all_goals
        intro e ndx heq
        cases heq
    | cons item queue =>
      rw [hq] at hchannel hrequests
      obtain ⟨rfl, hqueue⟩ := hchannel
      have hq' : s'.2.queue = queue := by rw [hqueue]
      have hitem : ItemOf P.engine items item := hI.queued item (by rw [hq]; exact List.mem_cons_self)
      refine ⟨fun i hi => Option.some.inj hi ▸ hitem, answered, ?_⟩
      refine ⟨?_, ?_, by rw [hs]; exact hI.headers, ?_, ?_⟩
      · intro i hi
        rw [hq'] at hi
        exact hI.queued i (by rw [hq]; exact List.mem_cons_of_mem item hi)
      · rw [hs, hq', hrequests]
        cases item <;>
          simp [ReceiverHistory.next, ReceiverHistory.awaited, GeneratorItem.transferNdx,
            List.filterMap_cons]
      · intro e ndx heq
        cases item with
        | transfer e' ndx' basis blength =>
          cases heq
          exact hitem.1
        | _ => cases heq
      · intro e ndx heq
        cases item <;> cases heq
  | readHeader state =>
    refine ⟨trivial, ?_⟩
    have hqueue : s'.2 = s.2 := hchannel
    obtain ⟨e, ndx, rfl⟩ := hop
    have hread : (match readResponseHeader P.wire state s.1.input with
      | .ok (hd, rest) => r = .ok hd ∧
          s'.1 = { s.1 with input := rest, headers := s.1.headers ++ [hd.ndx] }
      | .error err => r = .error err ∧ s'.1 = s.1) := hworld
    -- a header answers what is awaited, whatever number the header itself carries
    cases hparse : readResponseHeader P.wire state s.1.input with
    | error err =>
      rw [hparse] at hread
      obtain ⟨rfl, hs⟩ := hread
      exact ⟨answered, by rw [hqueue]; exact hI.queued, by rw [hs, hqueue]; exact hI.requests,
        by rw [hs]; exact hI.headers, hI.awaits, hI.holds⟩
    | ok p =>
      obtain ⟨hd, rest⟩ := p
      rw [hparse] at hread
      obtain ⟨rfl, hs⟩ := hread
      refine ⟨answered ++ [ndx], by rw [hqueue]; exact hI.queued, ?_, ?_, ?_, ?_⟩
      · simp [hs, hqueue, hI.requests, ReceiverHistory.next, ReceiverHistory.awaited]
      · rw [hs]
        simp [hI.headers]
      · intro e' ndx' heq
        cases heq
      · intro e' ndx' heq
        cases heq
        exact ⟨hI.awaits e ndx rfl, by simp⟩
  | _ => cases hordered

end Order

/-! ## Runs -/

section Runs

variable {φ σ : Type} {files : Env φ ReceiverOp ReceiverOp.Reply} {P : Pipeline} {D : DeltaCodec σ}
  {items : List (FileEntry × Int)} {fs : φ} {input : List UInt8}
  {events : List (Event (WireWorld φ × ChannelState) ReceiverOp)}
  {c : Par (WireWorld φ × ChannelState) ReceiverOp ReceiverOp.Reply Unit (Except Failure Unit)}

/-- **Deltas are paired by position.** A file is written for the entry of the request that has
the position of the last header read. -/
theorem delta_by_position
    (hrun : Par.Run (pipelineEnv (wireEnv files P D)) (P.start items ⟨fs, input, [], []⟩) events c) :
    ∀ ev ∈ events, ev.op.writesFile = true → ∃ e ndx, (e, ndx) ∈ items ∧
      EntryOp P.engine e ev.op ∧ ev.before.1.headers ≠ [] ∧
      ev.before.1.requests[ev.before.1.headers.length - 1]? = some ndx := by
  have hstart : InOrder P.engine items ((⟨fs, input, [], []⟩ : WireWorld φ), ChannelState.start) none .idle
      [] := by
    refine ⟨by simp [ChannelState.start], rfl, rfl, ?_, ?_⟩
    all_goals
      intro e ndx heq
      cases heq
  -- both tasks keep the order, whichever of them is next
  have hall := Par.run_history (I := fun s g h => ∃ answered, InOrder P.engine items s g h answered)
    (fun {_ _ _ _ _ _} hI hop henv => by
      obtain ⟨answered, hI⟩ := hI
      have hstep := hI.generator hop henv
      exact ⟨hstep.1, answered, hstep.2⟩)
    (fun {_ _ _ _ _ _} hI hop henv => by
      obtain ⟨answered, hI⟩ := hI
      exact hI.receiver hop henv)
    hrun ⟨[], hstart⟩ generatorTask_history (receiverTask_history _)
  intro ev hev hwrites
  obtain ⟨g, h, ⟨answered, hI⟩, hop | hop⟩ := hall ev hev
  · rw [hop.writes_nothing] at hwrites
    cases hwrites
  · obtain ⟨e, ndx, rfl, hentry⟩ := hop.holding hwrites
    obtain ⟨hmem, hlast⟩ := hI.holds e ndx rfl
    refine ⟨e, ndx, hmem, hentry, ?_, ?_⟩
    · intro hnil
      have hlen := hI.headers
      rw [hnil, List.length_nil, List.length_eq_zero_iff] at hlen
      simp [hlen] at hlast
    -- the numbers answered are the initial part of the requests, one for each header
    · have hpos : 0 < answered.length := by
        rw [List.length_pos_iff]
        rintro rfl
        simp at hlast
      rw [← hI.headers, hI.requests, List.append_assoc, List.append_assoc,
        List.getElem?_append_left (by omega), ← List.getLast?_eq_getElem?]
      exact hlast

/-- A file is written at this step only for an entry that the last header names: the answer to one
request is not written to the file of another. -/
def DeltaPaired (P : Pipeline) (items : List (FileEntry × Int))
    (ev : Event (WireWorld φ × ChannelState) ReceiverOp) : Prop :=
  ev.op.writesFile = true → ∃ e ndx, (e, ndx) ∈ items ∧ EntryOp P.engine e ev.op ∧
    ev.before.1.headers.getLast? = some ndx

/-- **Pairing of responses and files.** In every run in which the response headers name the
requests in their order, with none left out, a delta is applied only to the file that its header
names. -/
theorem delta_paired
    (hrun : Par.Run (pipelineEnv (wireEnv files P D)) (P.start items ⟨fs, input, [], []⟩) events c)
    (hsender : ∀ ev ∈ events, ev.before.1.headers <+: ev.before.1.requests) :
    ∀ ev ∈ events, DeltaPaired P items ev := by
  intro ev hev hwrites
  obtain ⟨e, ndx, hmem, hentry, hne, hposition⟩ := delta_by_position hrun ev hev hwrites
  refine ⟨e, ndx, hmem, hentry, ?_⟩
  obtain ⟨later, hrequests⟩ := hsender ev hev
  have hpos := List.length_pos_of_ne_nil hne
  rw [← hrequests, List.getElem?_append_left (by omega)] at hposition
  rw [List.getLast?_eq_getElem?]
  exact hposition

end Runs

/-! ## A sender that leaves a request out -/

def otherFile : FileEntry := { FileEntry.default with name := [0x63], mode := sIfreg }

def emptyResponse (ndx : Int) : List UInt8 :=
  (writeNdx ndx .default srvPipeline.wire.intCodec).1 ++ writeShortint itemTransfer ++
    writeSumHead ⟨0, 0, 0, 0⟩ ++ writeInt 0 ++ fileChecksum padExternals [] (padContext 4)

def plainCodec : DeltaCodec Unit := ⟨plainTokenReader, .ok ()⟩

/-- The NDX of the first response: that of the second request, or of the first. -/
def firstAnswer : Bool → Int
  | true => 2
  | false => 1

/-- A world with any answer of the file system. -/
def anyFiles : Env Unit ReceiverOp ReceiverOp.Reply := fun _ _ _ _ => True

def pairTmpName : FileName := ⟨[0x74], by decide⟩

def pairTmp : Path := ReceiverEngine.tmpBeside (srvPipeline.engine.destPath plainFile) pairTmpName

/-- The world of the run, once `requests` have been written and `headers` read. -/
def pairWorld (input : List UInt8) (requests headers : List Int) : WireWorld Unit :=
  ⟨(), input, requests, headers⟩

/-- The end of a delta and the checksum of the empty file. -/
def emptyDelta : List UInt8 := writeInt 0 ++ fileChecksum padExternals [] (padContext 4)

theorem readResponseHeader_first (skips : Bool) :
    ∃ h, readResponseHeader srvPipeline.wire .default (emptyResponse (firstAnswer skips)) =
        .ok (h, emptyDelta) ∧ h.ndx = firstAnswer skips ∧ h.blength 700 = 700 := by
  have hndx : -2 ^ 31 < firstAnswer skips ∧ firstAnswer skips < 2 ^ 31 := by
    cases skips <;> decide
  have hiflags := (srvPipeline.wire.reads_iflags (by decide) (by decide) (by decide) :
    Reads _ (srvPipeline.wire.writeIflags itemTransfer) _)
  have hhead : SumHead.InRange ⟨0, 0, 0, 0⟩ := by decide
  have hread := reads_responseHeader srvPipeline.wire NdxState.valid_default hndx hiflags hhead
    emptyDelta
  have hbytes : emptyResponse (firstAnswer skips) =
      (writeNdx (firstAnswer skips) .default srvPipeline.wire.intCodec).1 ++
        (srvPipeline.wire.writeIflags itemTransfer ++ writeSumHead ⟨0, 0, 0, 0⟩) ++
        emptyDelta := by
    simp only [emptyResponse, List.append_assoc]
    rfl
  rw [← hbytes] at hread
  exact ⟨_, hread, rfl, rfl⟩

set_option maxRecDepth 4000 in
theorem nextDelta_empty :
    srvPipeline.nextDelta plainCodec false [] 700 emptyDelta = some ([], []) := rfl

/-- The files `a/b` and `c` are requested, one response comes, and `a/b` is replaced. -/
theorem firstAnswer_can (skips : Bool)
    {K Q : Event (WireWorld Unit × ChannelState) ReceiverOp → Prop}
    (hK : ∀ ev, ev.before.1.headers = [] → K ev)
    (hK' : ∀ ev, ev.before.1.headers = [firstAnswer skips] → ev.before.1.requests = [1, 2] → K ev)
    (hQ : ∀ ev, ev.before.1.headers = [firstAnswer skips] →
      ev.op = .commitTmp pairTmp (srvPipeline.engine.destPath plainFile) none [] → Q ev) :
    Par.Can (pipelineEnv (wireEnv anyFiles srvPipeline plainCodec)) K Q
      (srvPipeline.start [(plainFile, 1), (otherFile, 2)]
        (pairWorld (emptyResponse (firstAnswer skips)) [] [])) := by
  obtain ⟨h, hread, hndx, hblength⟩ := readResponseHeader_first skips
  generalize emptyResponse (firstAnswer skips) = input at hread ⊢
  -- the generator looks at `a/b` and at `c` and requests both
  refine can_left_world (pairWorld input [] []) true rfl ⟨(), trivial, rfl⟩ (hK _ rfl) ?_
  refine can_left_world (pairWorld input [] []) false rfl ⟨(), trivial, rfl⟩ (hK _ rfl) ?_
  refine can_left_world (pairWorld input [] []) none rfl ⟨(), trivial, rfl⟩ (hK _ rfl) ?_
  refine can_left_world (pairWorld input [] []) none rfl ⟨(), trivial, rfl⟩ (hK _ rfl) ?_
  refine can_left_world (pairWorld input [1] []) true rfl (by exact rfl) (hK _ rfl) ?_
  refine can_left_channel ⟨[.transfer plainFile 1 [] 700], none, false⟩ true rfl
    ⟨by decide, rfl, rfl⟩ (hK _ rfl) ?_
  refine can_left_world (pairWorld input [1] []) true rfl ⟨(), trivial, rfl⟩ (hK _ rfl) ?_
  refine can_left_world (pairWorld input [1] []) false rfl ⟨(), trivial, rfl⟩ (hK _ rfl) ?_
  refine can_left_world (pairWorld input [1] []) none rfl ⟨(), trivial, rfl⟩ (hK _ rfl) ?_
  refine can_left_world (pairWorld input [1] []) none rfl ⟨(), trivial, rfl⟩ (hK _ rfl) ?_
  refine can_left_world (pairWorld input [1, 2] []) true rfl (by exact rfl) (hK _ rfl) ?_
  refine can_left_channel ⟨[.transfer plainFile 1 [] 700, .transfer otherFile 2 [] 700], none,
    false⟩ true rfl ⟨by decide, rfl, rfl⟩ (hK _ rfl) ?_
  -- the receiver takes the first transfer, reads the one response and writes `a/b`
  refine can_right_channel ⟨[.transfer otherFile 2 [] 700], none, false⟩ (some _) rfl
    ⟨rfl, rfl⟩ (hK _ rfl) ?_
  have hheader : wireEnv anyFiles srvPipeline plainCodec (pairWorld input [1, 2] [])
      (.readHeader .default) (.ok h) (pairWorld emptyDelta [1, 2] [firstAnswer skips]) := by
    simp [wireEnv, pairWorld, hread, hndx]
  refine can_right_world (o := .readHeader .default)
    (pairWorld emptyDelta [1, 2] [firstAnswer skips]) (.ok h) rfl hheader (hK _ rfl) ?_
  refine can_right_world (o := .uniqueTmpName) (pairWorld emptyDelta [1, 2] [firstAnswer skips])
    pairTmpName rfl ⟨(), trivial, rfl⟩ (hK' _ rfl rfl) ?_
  refine can_right_world (pairWorld emptyDelta [1, 2] [firstAnswer skips]) true rfl
    ⟨(), trivial, rfl⟩ (hK' _ rfl rfl) ?_
  refine can_right_world (o := .readDelta false [] (h.blength 700))
    (pairWorld [] [1, 2] [firstAnswer skips]) (.ok []) rfl ⟨[], ?_, rfl⟩ (hK' _ rfl rfl) ?_
  · rw [hblength]
    exact nextDelta_empty
  exact Par.Can.now (.right (r := true) (pipelineEnv_world rfl
    ⟨(), trivial, rfl⟩)) (hK' _ rfl rfl) (hQ _ rfl rfl)

/-- The sender leaves the first request out; the data of `c` goes to `a/b`. -/
theorem skipped_request_shifts_deltas :
    ∃ events c, Par.Run (pipelineEnv (wireEnv anyFiles srvPipeline plainCodec))
        (srvPipeline.start [(plainFile, 1), (otherFile, 2)]
          (pairWorld (emptyResponse 2) [] [])) events c ∧
      ∃ ev ∈ events, ¬ DeltaPaired srvPipeline [(plainFile, 1), (otherFile, 2)] ev := by
  have hcan : Par.Can (pipelineEnv (wireEnv anyFiles srvPipeline plainCodec)) (fun _ => True)
      (fun ev => ¬ DeltaPaired srvPipeline [(plainFile, 1), (otherFile, 2)] ev)
      (srvPipeline.start [(plainFile, 1), (otherFile, 2)]
        (pairWorld (emptyResponse 2) [] [])) := by
    refine firstAnswer_can true (fun _ _ => trivial) (fun _ _ _ => trivial) ?_
    intro ev hheaders hop hpaired
    obtain ⟨e, ndx, hmem, hentry, hlast⟩ := hpaired (by rw [hop]; rfl)
    rw [hheaders] at hlast
    rw [hop] at hentry
    -- the header names `c`, and `c` is written elsewhere
    have hother : e = otherFile := by
      have hndx : 2 = ndx := by simpa [firstAnswer] using hlast
      subst hndx
      simpa using hmem
    subst hother
    have htarget := hentry.target_of_commitTmp
    generalize hdst : srvPipeline.engine.destPath plainFile = dst at htarget
    cases htarget with
    | dest => exact absurd hdst (by decide)
    | inPartialDir hdir => cases hdir
  obtain ⟨events, c, hrun, -, hshifted⟩ := hcan
  exact ⟨events, c, hrun, hshifted⟩

/-- A sender that answers the first request first. -/
theorem delta_paired_first :
    ∃ events c, Par.Run (pipelineEnv (wireEnv anyFiles srvPipeline plainCodec))
        (srvPipeline.start [(plainFile, 1), (otherFile, 2)]
          (pairWorld (emptyResponse 1) [] [])) events c ∧
      (∃ ev ∈ events, ev.op.writesFile = true) ∧
      ∀ ev ∈ events, DeltaPaired srvPipeline [(plainFile, 1), (otherFile, 2)] ev := by
  -- before the first response no header is read; behind it one, and it is that of the first request
  have hcan : Par.Can (pipelineEnv (wireEnv anyFiles srvPipeline plainCodec))
      (fun ev => ev.before.1.headers <+: ev.before.1.requests) (fun ev => ev.op.writesFile = true)
      (srvPipeline.start [(plainFile, 1), (otherFile, 2)]
        (pairWorld (emptyResponse 1) [] [])) := by
    refine firstAnswer_can false ?_ ?_ ?_
    · intro ev hheaders
      rw [hheaders]
      exact List.nil_prefix
    · intro ev hheaders hrequests
      rw [hheaders, hrequests]
      exact ⟨[2], rfl⟩
    · intro ev _ hop
      rw [hop]
      rfl
  obtain ⟨events, c, hrun, hsender, hwrites⟩ := hcan
  exact ⟨events, c, hrun, hwrites, delta_paired hrun hsender⟩

end Ferrosync
