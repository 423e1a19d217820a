import Ferrosync.Codec.EntryList
import Ferrosync.Codec.Sort

set_option autoImplicit false

/-! # Incremental file lists

With incremental recursion the list is sent directory by directory: the entries without a directory
first, then one list for every directory, in the order in which the directories were sent.

* `DirectoryTree.fromSortedEntries`: the grouping;
* `sendFileListIncremental`, `sendPending`: the sender's side;
* `recvFileListIncremental`: the receiver's side.
-/

namespace Ferrosync

open ByteStream

def ndxFlistOffset : Int := -101

def ndxFlistEof : Int := -2

/-! ## Grouping by directory -/

structure DirGroup where
  dirNdx : Int
  entryIndices : List Nat
  deriving DecidableEq, Repr

def positions (p : FileEntry → Bool) (entries : List FileEntry) : List Nat :=
  (List.range entries.length).filter fun i => (entries[i]?).any p

structure TreeState where
  groups : List DirGroup
  dirFlistNdx : List Int
  dirCounter : Int
  queue : List Nat
  deriving DecidableEq, Repr

def isDirAt (entries : List FileEntry) (i : Nat) : Bool := (entries[i]?).any FileEntry.isDir

def nameAt (entries : List FileEntry) (i : Nat) : List UInt8 := ((entries[i]?).map (·.name)).getD []

/-- Directories get the next numbers. -/
def numberDirs (entries : List FileEntry) (indices : List Nat) (st : TreeState) : TreeState :=
  indices.foldl (fun st i =>
    if isDirAt entries i then
      { st with dirFlistNdx := st.dirFlistNdx.set i st.dirCounter,
                dirCounter := toI32 (st.dirCounter + 1) }
    else st) st

/-- One round of the loop: the children of a directory become a group, and those of them that are
directories are queued. -/
def growTree (entries : List FileEntry) (dir : Nat) (st : TreeState) : TreeState :=
  let children := positions (fun e => e.dirname = some (nameAt entries dir)) entries
  let grouped : TreeState :=
    { st with groups := st.groups ++ [⟨st.dirFlistNdx.getD dir (-1), children⟩] }
  { numberDirs entries children grouped with
      queue := st.queue ++ children.filter (isDirAt entries) }

/-- The loop of `from_sorted_entries`. -/
def growGroups (entries : List FileEntry) : Nat → TreeState → TreeState
  | 0, st => st
  | fuel + 1, st =>
    match st.queue with
    | [] => st
    | dir :: queue => growGroups entries fuel (growTree entries dir { st with queue := queue })

def longestName (entries : List FileEntry) : Nat := (entries.map (·.name.length)).foldr max 0

/-- More rounds than the loop can have: a queued directory is followed by fewer than
`entries.length + 1` others, and their names are longer. -/
def roundBound (entries : List FileEntry) : Nat :=
  (entries.length + 1) ^ (longestName entries + 1)

/-- The state before the loop: the entries without a directory. -/
def rootState (entries : List FileEntry) : TreeState :=
  let root := positions (fun e => e.dirname = none) entries
  let numbered := numberDirs entries root
    ⟨[⟨-1, root⟩], List.replicate entries.length (-1), 0, []⟩
  { numbered with
      queue := root.filter fun i => isDirAt entries i && nameAt entries i ≠ [46] }

/-- `DirectoryTree::from_sorted_entries`; the first group is the root. -/
def DirectoryTree.fromSortedEntries (entries : List FileEntry) : List DirGroup :=
  if entries = [] then [⟨-1, []⟩]
  else (growGroups entries (roundBound entries) (rootState entries)).groups

/-! ## The sender -/

def groupEntries (entries : List FileEntry) (group : DirGroup) : List FileEntry :=
  group.entryIndices.filterMap (entries[·]?)

def assignGroup (cursor : Int) (indices : List Nat) (ndx : List Int) : List Int :=
  indices.zipIdx.foldl (fun ndx p => ndx.set p.1 (toI32 (cursor + p.2))) ndx

/-- The loop that numbers all entries; each group is followed by a gap. -/
def assignNdx : List DirGroup → Int → List Int → List Int
  | [], _, ndx => ndx
  | g :: gs, cursor, ndx =>
    assignNdx gs (toI32 (cursor + (g.entryIndices.length + 1))) (assignGroup cursor g.entryIndices ndx)

def ndxAssignments (entries : List FileEntry) : List Int :=
  assignNdx (DirectoryTree.fromSortedEntries entries) 1 (List.replicate entries.length 0)

/-- What the sender keeps between lists: the encoder, and `IncrementalSender`. -/
structure SubFlistSender where
  enc : EncoderState
  ndxState : NdxState
  nextNdx : Int
  deriving DecidableEq, Repr

def EncoderState.startAt (enc : EncoderState) (ndx : Int) : EncoderState :=
  { enc with delta := { enc.delta with ndxStart := ndx } }

def encodeSubFlistEntries (es : List FileEntry) (opts : FileListOptions) (s : SubFlistSender) :
    List UInt8 × SubFlistSender :=
  let list := encodeEntries opts s.nextNdx es (s.enc.startAt s.nextNdx)
  (list.1 ++ encodeEndOfFlist 0 opts,
    { s with enc := list.2, nextNdx := toI32 (s.nextNdx + (es.length + 1)) })

/-- `write_sub_flist_marker` and the list behind it. -/
def sendSubFlist (entries : List FileEntry) (group : DirGroup) (opts : FileListOptions)
    (s : SubFlistSender) : List UInt8 × SubFlistSender :=
  let marker := writeNdx (toI32 (ndxFlistOffset - group.dirNdx)) s.ndxState opts.wire.intCodec
  let list := encodeSubFlistEntries (groupEntries entries group) opts { s with ndxState := marker.2 }
  (marker.1 ++ list.1, list.2)

/-- `PendingSubFlists`; the groups are those not sent yet. -/
structure PendingSubFlists where
  groups : List DirGroup
  sender : SubFlistSender
  eofSent : Bool
  deriving DecidableEq, Repr

/-- The loop of `send_pending`. -/
def sendGroups (entries : List FileEntry) (opts : FileListOptions) :
    Nat → List DirGroup → SubFlistSender → List UInt8 × List DirGroup × SubFlistSender
  | 0, groups, s => ([], groups, s)
  | _ + 1, [], s => ([], [], s)
  | count + 1, g :: groups, s =>
    let one := sendSubFlist entries g opts s
    let rest := sendGroups entries opts count groups one.2
    (one.1 ++ rest.1, rest.2)

def sendPending (entries : List FileEntry) (opts : FileListOptions) (count : Nat)
    (p : PendingSubFlists) : List UInt8 × PendingSubFlists :=
  if p.eofSent then ([], p)
  else
    let sent := sendGroups entries opts count p.groups p.sender
    if sent.2.1 = [] then
      let eof := writeNdx ndxFlistEof sent.2.2.ndxState opts.wire.intCodec
      (sent.1 ++ eof.1, ⟨[], { sent.2.2 with ndxState := eof.2 }, true⟩)
    else (sent.1, ⟨sent.2.1, sent.2.2, false⟩)

def SubFlistSender.default : SubFlistSender := ⟨.default, .default, 1⟩

/-- `send_file_list_incremental`: the bytes of the root list, and what is left to send. -/
def sendFileListIncremental (entries : List FileEntry) (opts : FileListOptions) :
    List UInt8 × Option PendingSubFlists :=
  let tree := DirectoryTree.fromSortedEntries entries
  let root := encodeSubFlistEntries (groupEntries entries (tree.headD ⟨-1, []⟩)) opts .default
  if tree.tail = [] then
    (root.1 ++ (writeNdx ndxFlistEof root.2.ndxState opts.wire.intCodec).1, none)
  else (root.1, some ⟨tree.tail, root.2, false⟩)

/-! ## The receiver -/

/-- `SubFileList`, without the directory number and the error, which nothing looks at. -/
structure SubFileList where
  ndxStart : Int
  entries : List FileEntry
  deriving DecidableEq, Repr

/-- `IncrementalReceiver`, with the state of the decoder that is kept between lists. -/
structure IncrementalReceiver where
  ndxState : NdxState
  nextNdx : Int
  delta : DeltaState
  deriving DecidableEq, Repr

def IncrementalReceiver.default : IncrementalReceiver := ⟨.default, 1, .default⟩

/-- `recv_sub_flist_with_state`: the tables of attributes are new for every list. -/
def recvSubFlistWithState (opts : FileListOptions) (r : IncrementalReceiver) :
    Wire (SubFileList × IncrementalReceiver) := do
  let list ← recvEntries opts ⟨{ r.delta with ndxStart := r.nextNdx }, .default, []⟩
  pure (⟨r.nextNdx, list.1⟩,
    { r with nextNdx := toI32 (r.nextNdx + (list.1.length + 1)), delta := list.2.delta })

/-- What `recv_file_list_incremental` has received so far. -/
structure Received where
  entries : List FileEntry
  entryNdx : List Int
  numFlists : Nat
  deriving DecidableEq, Repr

def sortAndAssign (list : SubFileList) (acc : Received) : Received :=
  let sorted := canonicalSort list.entries
  ⟨acc.entries ++ sorted,
    acc.entryNdx ++ sorted.zipIdx.map (fun p => toI32 (list.ndxStart + p.2)),
    acc.numFlists + 1⟩

/-- The loop of `recv_file_list_incremental`, over the lists behind the first. -/
def recvSubFlists (opts : FileListOptions) :
    Nat → Received → IncrementalReceiver → Wire Received
  | 0, _, _ => Reader.fail (.fault .diverged)
  | fuel + 1, acc, r => do
    let ndx ← readNdx r.ndxState opts.wire.intCodec
    if ndx.1 = ndxFlistEof then pure acc
    else if ndx.1 ≤ ndxFlistOffset then do
      let list ← recvSubFlistWithState opts { r with ndxState := ndx.2 }
      recvSubFlists opts fuel (sortAndAssign list.1 acc) list.2
    else
      Reader.fail (.protocol (.handshake ("unexpected NDX value " ++ toString ndx.1 ++
        " during file list reception")))

def recvFileListIncremental (opts : FileListOptions) : Wire (Received × Int) := do
  let first ← recvSubFlistWithState opts .default
  let all ← fun input => recvSubFlists opts (input.length + 1)
    (sortAndAssign first.1 ⟨[], [], 0⟩) first.2 input
  pure (all, first.1.ndxStart)

end Ferrosync
