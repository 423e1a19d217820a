import Ferrosync.Engine.Pipeline

set_option autoImplicit false

/-! # What the receiver comes to in a world that answers anything

`Pipeline` says what the two tasks can do at most. Here is the other direction: in `freeEnv`, where
file system and wire may give any answer, every entry of a list is reached and every transfer that
the options allow is made. `can_reach` puts the two tasks past any number of entries, with the
channel empty again; `comes_of_generate` and `comes_of_receive` then do what there is to do for the
next one.

The answers are the good ones: nothing is at the destination, no operation fails, and the response
is the empty delta.
-/

namespace Ferrosync

open UnixPath Interaction

/-- File system and wire give any answer, and the channel is the channel. -/
def freeEnv : Env (Unit × ChannelState) ReceiverOp ReceiverOp.Reply := pipelineEnv fun _ _ _ _ => True

theorem free_answers {o : ReceiverOp} (hop : o.isChannel = false) (r : o.Reply)
    (s : Unit × ChannelState) : freeEnv s o r s :=
  ⟨channelEnv_of_not_channel hop r, by simp [hop]⟩

section Free

variable {s : Unit × ChannelState} {o : ReceiverOp} {Q : ReceiverOp → Prop}

theorem free_query (hop : o.isChannel = false) (r : o.Reply) : Returns freeEnv s (query o) r s :=
  returns_lift.mpr (runs_perform.mpr (free_answers hop r s))

theorem free_effect {succeeded : o.Reply → Bool} (hop : o.isChannel = false) (r : o.Reply)
    (h : succeeded r = true) : Returns freeEnv s (effect o succeeded) () s := by
  refine (free_query hop r).bind ?_
  rw [h]
  exact returns_pure.mpr ⟨rfl, rfl⟩

theorem free_pure {α : Type} (a : α) : Returns freeEnv s (pure a : ReceiverM α) a s :=
  returns_pure.mpr ⟨rfl, rfl⟩

end Free

/-! ## Dispatch -/

section Dispatch

variable {E : ReceiverEngine} {e : FileEntry} {s : Unit × ChannelState}

theorem checkAltDest_returns (options : TransferConfig) :
    ∀ dirs, Returns freeEnv s (checkAltDest options e dirs) none s
  | [] => free_pure none
  | dir :: dirs =>
    (free_query (o := .lstat (dir.join e.path)) rfl none).bind (checkAltDest_returns options dirs)

theorem quickCheck_returns : Returns freeEnv s (E.quickCheck e) false s := by
  unfold ReceiverEngine.quickCheck
  split_ifs
  · exact free_pure false
  · exact (free_query rfl none).bind (free_pure false)

/-- Under `--existing` the destination is there, otherwise it is not. -/
theorem shouldSkip_returns (he : E.Transfers e) : Returns freeEnv s (E.shouldSkip e) false s := by
  have hpresent : checkExistenceSkip E.options E.options.existing = false := by
    have hboth := he.existence
    unfold checkExistenceSkip
    cases hexisting : E.options.existing <;> simp_all
  refine (free_query rfl E.options.existing).bind ?_
  rw [if_neg (by simp [hpresent]), if_neg (by simp [he.size])]
  exact (checkAltDest_returns E.options _).bind quickCheck_returns

theorem tryLinkDest_returns : Returns freeEnv s (E.tryLinkDest e) false s := by
  unfold ReceiverEngine.tryLinkDest
  split_ifs
  · exact free_pure false
  · exact (checkAltDest_returns E.options _).bind (free_pure false)

theorem tryCopyDest_returns : Returns freeEnv s (E.tryCopyDest e) false s := by
  unfold ReceiverEngine.tryCopyDest
  split_ifs
  · exact free_pure false
  · exact (checkAltDest_returns E.options _).bind (free_pure false)

/-- What may be transferred is. -/
theorem dispatchEntry_returns (he : E.Transfers e) :
    Returns freeEnv s (E.dispatchEntry e) (.needsTransfer []) s := by
  have hfile : Returns freeEnv s (E.dispatchFile e) (.needsTransfer []) s := by
    refine (shouldSkip_returns he).bind ?_
    refine tryLinkDest_returns.bind ?_
    refine tryCopyDest_returns.bind ?_
    rw [if_neg (by simp), if_neg (by simp [he.wet])]
    exact (free_query rfl none).bind (free_pure _)
  unfold ReceiverEngine.dispatchEntry
  rw [if_neg (by simp [FileEntry.isDir_of_isFile he.isFile]),
    if_neg (by simp [FileEntry.isSymlink_of_isFile he.isFile]), if_neg (by simp [he.isFile]),
    he.unlinked]
  exact hfile

theorem ensureParent_returns : Returns freeEnv s (E.ensureParent e) () s := by
  unfold ReceiverEngine.ensureParent
  cases (E.destPath e).parent with
  | none => exact free_pure ()
  | some parent => exact (free_query rfl true).bind (free_pure ())

theorem EntryOp.not_channel {op : ReceiverOp} (h : EntryOp E e op) : op.isChannel = false := by
  cases h with
  | read hlooks => cases op <;> first | rfl | cases hlooks
  | _ => rfl

theorem reply_nonempty (op : ReceiverOp) : Nonempty op.Reply := by
  cases op with
  | lstat | stat | mapFile | findFuzzyBasis | recv => exact ⟨none⟩
  | uniqueTmpName => exact ⟨[0x61], by decide⟩
  | readHeader => exact ⟨.error (.fs .other)⟩
  | readDelta => exact ⟨.ok []⟩
  | setMetadata | generatorDone | receiverDone => exact ⟨()⟩
  | _ => exact ⟨true⟩

/-- Every entry is dispatched, to an end or to an error. -/
theorem dispatchEntry_runs (E : ReceiverEngine) (e : FileEntry) (s : Unit × ChannelState) :
    ∃ result, Runs freeEnv s (E.dispatchEntry e).run result s ∧
      ∀ action, result = .ok action → action.For E e := by
  refine Safe.runs (R := fun _ _ => True) ?_ (dispatchEntry_ops (E := E) (e := e))
  intro op hop
  obtain ⟨r⟩ := reply_nonempty op
  exact ⟨r, trivial, free_answers hop.1.not_channel r s⟩

end Dispatch

/-! ## Writing -/

section Writing

variable {E : ReceiverEngine} {e : FileEntry} {s : Unit × ChannelState}

theorem backupExisting_returns (path : Path) :
    Returns freeEnv s (E.backupExisting path) () s := by
  unfold ReceiverEngine.backupExisting
  split_ifs
  · exact (free_query rfl false).bind (free_pure ())
  · exact free_pure ()

theorem writeFileStream_returns (path : Path) (mode : Option UInt32) (name : FileName) :
    Returns freeEnv s (ReceiverEngine.writeFileStream path mode)
      (.atomic (ReceiverEngine.tmpBeside path name) path mode) s := by
  refine (free_query rfl name).bind ?_
  exact (free_effect rfl true rfl).bind (free_pure _)

theorem createWriter_returns : ∃ w, Returns freeEnv s (E.createWriter e) w s := by
  unfold ReceiverEngine.createWriter
  split_ifs
  · exact ⟨.direct, ensureParent_returns.bind ((free_effect rfl true rfl).bind (free_pure _))⟩
  unfold ReceiverEngine.createFreshWriter
  split_ifs
  · exact ⟨.direct, (backupExisting_returns _).bind
      ((free_effect rfl true rfl).bind (free_pure _))⟩
  cases E.options.partialDir with
  | none => exact ⟨_, (backupExisting_returns _).bind (writeFileStream_returns _ _ ⟨[0x61], by decide⟩)⟩
  | some dir =>
    exact ⟨_, (backupExisting_returns _).bind
      ((free_effect rfl true rfl).bind (writeFileStream_returns _ _ ⟨[0x61], by decide⟩))⟩

theorem dropWriter_returns (w : ReceiverWriter) (data : List UInt8) :
    Returns freeEnv s (ReceiverEngine.dropWriter w data) () s := by
  cases w with
  | direct => exact free_pure ()
  | «atomic» tmp dst mode => exact (free_query rfl true).bind (free_pure ())

theorem movePartial_returns (path : Path) : Returns freeEnv s (E.movePartial e path) () s := by
  unfold ReceiverEngine.movePartial
  split_ifs
  · exact free_effect rfl true rfl
  · exact free_pure ()

theorem finishFile_returns : Returns freeEnv s (E.finishFile e) () s := by
  have hfinish : Returns freeEnv s (E.finishPartial e) () s := by
    unfold ReceiverEngine.finishPartial
    cases E.options.partialDir with
    | none => exact free_pure ()
    | some dir => exact movePartial_returns _
  exact hfinish.bind (free_query (o := .setMetadata (E.destPath e) e) rfl ())

theorem receiveFileSparse_returns (data : List UInt8) :
    Returns freeEnv s (E.receiveFileSparse e data) () s := by
  have hwrite : Returns freeEnv s (E.writeSparse e data) () s := by
    unfold ReceiverEngine.writeSparse
    cases E.options.partialDir with
    | none => exact free_effect rfl true rfl
    | some dir =>
      exact (free_effect rfl true rfl).bind
        ((free_effect rfl true rfl).bind (movePartial_returns _))
  exact (backupExisting_returns _).bind (hwrite.bind
    (free_query (o := .setMetadata (E.destPath e) e) rfl ()))

end Writing

/-! ## The two tasks -/

namespace Pipeline

variable {P : Pipeline} {e : FileEntry} {ndx : Int}

theorem receiveTransfer_returns (P : Pipeline) (e : FileEntry) (ndx : Int) (st : ReceiverState)
    (basis : List UInt8) (blength : Nat) (s : Unit × ChannelState) :
    ∃ st', Returns freeEnv s (P.receiveTransfer st e ndx basis blength) st' s := by
  have hdata : ∀ b, Returns freeEnv s (P.receiveData e basis b) () s := by
    intro b
    unfold receiveData
    split_ifs
    · exact (free_query (o := .readDelta true basis b) rfl (.ok [])).bind
        (receiveFileSparse_returns [])
    · obtain ⟨w, hw⟩ := createWriter_returns (E := P.engine) (e := e) (s := s)
      exact hw.bind ((free_query (o := .readDelta false basis b) rfl (.ok [])).bind
        ((dropWriter_returns w []).bind finishFile_returns))
  exact ⟨_, (free_query (o := .readHeader st.ndxState) rfl
    (.ok ⟨ndx, .default, itemTransfer, SumHead.default⟩)).bind ((hdata _).bind (free_pure _))⟩

/-- The state between two entries, and the one with an item under way. -/
def idleState : Unit × ChannelState := ((), .start)

def sentState (item : GeneratorItem) : Unit × ChannelState := ((), ⟨[item], none, false⟩)

theorem send_returns (item : GeneratorItem) :
    Returns freeEnv idleState (query (.send item)) true (sentState item) :=
  returns_lift.mpr (runs_perform.mpr ⟨⟨by decide, rfl, rfl⟩, rfl⟩)

theorem recv_returns (item : GeneratorItem) :
    Returns freeEnv (sentState item) (query .recv) (some item) idleState :=
  returns_lift.mpr (runs_perform.mpr ⟨⟨rfl, rfl⟩, rfl⟩)

theorem prepareParent_returns (s : Unit × ChannelState) :
    ∃ result, Returns freeEnv s (P.prepareParent e) result s := by
  unfold prepareParent
  split_ifs
  · exact ⟨.ok (), returns_lift.mpr ensureParent_returns⟩
  · exact ⟨.ok (), free_pure _⟩

theorem requestTransfer_returns (P : Pipeline) (e : FileEntry) (ndx : Int) (state : NdxState) :
    ∃ state' blength, Returns freeEnv idleState (P.requestTransfer e ndx state []) (some state')
      (sentState (.transfer e ndx [] blength)) := by
  have hbasis : Returns freeEnv idleState (P.transferBasis e []) [] idleState := by
    unfold transferBasis
    split_ifs
    · exact (free_query rfl none).bind (free_pure _)
    · exact free_pure []
  exact ⟨_, _, hbasis.bind ((free_effect rfl true rfl).bind
    ((send_returns _).bind (free_pure _)))⟩

/-- One round of the generator: at most one item is sent, and what may be transferred is
requested. -/
theorem generateEntry_returns (e : FileEntry) (ndx : Int) (state : NdxState) :
    ∃ state' s, Returns freeEnv idleState (P.generateEntry e ndx state) (some state') s ∧
      (s = idleState ∨ ∃ item, item ≠ .done ∧ s = sentState item) ∧
      (P.engine.Transfers e → ∃ blength, s = sentState (.transfer e ndx [] blength)) := by
  obtain ⟨_, hparent⟩ := prepareParent_returns (P := P) (e := e) idleState
  by_cases he : P.engine.Transfers e
  · obtain ⟨state', blength, hrequest⟩ := requestTransfer_returns P e ndx state
    refine ⟨state', _, hparent.bind ?_, .inr ⟨_, by simp, rfl⟩, fun _ => ⟨blength, rfl⟩⟩
    exact (returns_lift.mpr (dispatchEntry_returns he)).bind hrequest
  obtain ⟨result, hruns, hfor⟩ := dispatchEntry_runs P.engine e idleState
  have hdispatch : Returns freeEnv idleState (attempt (P.engine.dispatchEntry e)) result idleState :=
    returns_lift.mpr hruns
  -- an entry that is not transferred fails, is skipped, or is announced as handled
  rcases result with err | action
  · exact ⟨state, _, hparent.bind (hdispatch.bind (free_pure _)), .inl rfl, fun h => absurd h he⟩
  have hannounce : ∃ state' s, Returns freeEnv idleState (P.announce e ndx state action) (some state') s ∧
      (s = idleState ∨ ∃ item, item ≠ .done ∧ s = sentState item) := by
    cases action with
    | skipped => exact ⟨state, _, free_pure _, .inl rfl⟩
    | handled kind =>
      exact ⟨state, _, (send_returns _).bind (free_pure _), .inr ⟨.handled e kind, by simp, rfl⟩⟩
    | deferredHardlink name =>
      exact ⟨state, _, (send_returns _).bind (free_pure _),
        .inr ⟨.deferredHardlink e name, by simp, rfl⟩⟩
    | needsTransfer basis => exact absurd (hfor _ rfl) he
  obtain ⟨state', s, hann, hs⟩ := hannounce
  exact ⟨state', s, hparent.bind (hdispatch.bind hann), hs, fun h => absurd h he⟩

section Tasks

variable {Q : ReceiverOp → Prop} {kl : Except Failure Unit → ReceiverProg Unit}
  {kr : Except Failure ReceiverState → ReceiverProg (Except Failure Unit)}

/-- Some run performs an operation in `Q`. -/
abbrev Comes (Q : ReceiverOp → Prop)
    (c : Par (Unit × ChannelState) ReceiverOp ReceiverOp.Reply Unit (Except Failure Unit)) : Prop :=
  Par.Can freeEnv (fun _ => True) (fun ev => Q ev.op) c

/-- The two tasks in the midst of their loops. What they do afterwards is `kl` and `kr`. -/
def looping (P : Pipeline) (kl : Except Failure Unit → ReceiverProg Unit)
    (kr : Except Failure ReceiverState → ReceiverProg (Except Failure Unit))
    (s : Unit × ChannelState) (rest : List (FileEntry × Int)) (state : NdxState) (n : Nat)
    (st : ReceiverState) :
    Par (Unit × ChannelState) ReceiverOp ReceiverOp.Reply Unit (Except Failure Unit) :=
  ⟨s, (P.generatorLoop rest state).run >>= kl, (P.receiverLoop n st).run >>= kr⟩

theorem can_generate {s s' : Unit × ChannelState} {state state' : NdxState}
    {rest : List (FileEntry × Int)} {n : Nat} {st : ReceiverState}
    (h : Returns freeEnv s (P.generateEntry e ndx state) (some state') s')
    (hrest : Comes Q (P.looping kl kr s' rest state' n st)) :
    Comes Q (P.looping kl kr s ((e, ndx) :: rest) state n st) :=
  Par.Can.left_returns (fun _ => trivial) h hrest

/-- The receiver takes what has been sent. -/
theorem can_take {item : GeneratorItem} (hdone : item ≠ .done) {rest : List (FileEntry × Int)}
    {state : NdxState} {n : Nat} {st : ReceiverState}
    (hrest : ∀ st', Comes Q (P.looping kl kr idleState rest state n st')) :
    Comes Q (P.looping kl kr (sentState item) rest state (n + 1) st) := by
  refine Par.Can.right_returns (fun _ => trivial) (recv_returns item) ?_
  cases item with
  | done => exact absurd rfl hdone
  | handled e kind => exact hrest st
  | deferredHardlink e sourceName => exact hrest _
  | transfer e ndx basis blength =>
    obtain ⟨st', hst'⟩ := receiveTransfer_returns P e ndx st basis blength idleState
    exact Par.Can.right_returns (fun _ => trivial) hst' (hrest st')

/-- **Every entry is reached**, with the channel empty and the receiver waiting. -/
theorem can_reach (rest : List (FileEntry × Int)) :
    ∀ (before : List (FileEntry × Int)) (state : NdxState) (n : Nat) (st : ReceiverState),
      before.length < n →
      (∀ state' n' st', 0 < n' → Comes Q (P.looping kl kr idleState rest state' n' st')) →
      Comes Q (P.looping kl kr idleState (before ++ rest) state n st)
  | [], state, n, st, hn, h => h state n st hn
  | (e, ndx) :: before, state, n, st, hn, h => by
    obtain ⟨state', s, hgen, hs, -⟩ := generateEntry_returns (P := P) e ndx state
    refine can_generate hgen ?_
    simp only [List.length_cons] at hn
    rcases hs with rfl | ⟨item, hdone, rfl⟩
    · exact can_reach rest before state' n st (by omega) h
    · obtain ⟨n, rfl⟩ := Nat.exists_eq_add_of_lt hn
      refine can_take hdone fun st' => ?_
      exact can_reach rest before state' _ st' (by omega) h

variable {items : List (FileEntry × Int)}

theorem start_looping (P : Pipeline) (items : List (FileEntry × Int)) :
    ∃ kl kr, P.start items () =
      P.looping kl kr idleState items .default (items.length + 1) ⟨.default, [], []⟩ := by
  have hleft : ∃ kl, P.generatorTask items = (P.generatorLoop items .default).run >>= kl :=
    ⟨_, Prog.bind_assoc (P.generatorLoop items .default).run _ _⟩
  have hright : ∃ kr, P.receiverTask (items.map Prod.fst) =
      (P.receiverLoop ((items.map Prod.fst).length + 1) ⟨.default, [], []⟩).run >>= kr :=
    ⟨_, Prog.bind_assoc (P.receiverLoop _ _).run _ _⟩
  obtain ⟨kl, hkl⟩ := hleft
  obtain ⟨kr, hkr⟩ := hright
  refine ⟨kl, kr, ?_⟩
  rw [start, hkl, hkr, List.length_map]
  rfl

/-- The tasks come to any entry of the list. -/
theorem comes_of_entry (hmem : (e, ndx) ∈ items)
    (h : ∀ kl kr rest state n st,
      Comes Q (P.looping kl kr idleState ((e, ndx) :: rest) state (n + 1) st)) :
    Comes Q (P.start items ()) := by
  obtain ⟨before, rest, rfl⟩ := List.append_of_mem hmem
  obtain ⟨kl, kr, hstart⟩ := start_looping P (before ++ (e, ndx) :: rest)
  rw [hstart]
  refine can_reach _ before _ _ _ (by simp only [List.length_append]; omega) ?_
  intro state n st hn
  obtain ⟨n, rfl⟩ := Nat.exists_eq_succ_of_ne_zero hn.ne'
  exact h kl kr rest state n st

/-- What the generator does for an entry is done in some run. -/
theorem comes_of_generate (hmem : (e, ndx) ∈ items)
    (h : ∀ state, PerformsE freeEnv Q idleState (P.generateEntry e ndx state)) :
    Comes Q (P.start items ()) := by
  refine comes_of_entry hmem fun kl kr rest state n st => ?_
  exact Par.Can.left_performs (fun _ => trivial) (Performs.bind_left (h state)).bind_left

/-- What the receiver does with the data of a transfer is done in some run. -/
theorem comes_of_receive (hmem : (e, ndx) ∈ items) (he : P.engine.Transfers e)
    (h : ∀ blength, PerformsE freeEnv Q idleState (P.receiveData e [] blength)) :
    Comes Q (P.start items ()) := by
  refine comes_of_entry hmem fun kl kr rest state n st => ?_
  obtain ⟨state', s, hgen, -, hsent⟩ := generateEntry_returns (P := P) e ndx state
  obtain ⟨blength, rfl⟩ := hsent he
  refine can_generate hgen ?_
  refine Par.Can.right_returns (fun _ => trivial) (recv_returns _) ?_
  have htransfer : PerformsE freeEnv Q idleState (P.receiveTransfer st e ndx [] blength) :=
    .bind_right (free_query (o := .readHeader st.ndxState) rfl
      (.ok ⟨ndx, .default, itemTransfer, SumHead.default⟩)) (h _).bind_left
  exact Par.Can.right_performs (fun _ => trivial) (Performs.bind_left htransfer).bind_left

end Tasks

end Pipeline

end Ferrosync
