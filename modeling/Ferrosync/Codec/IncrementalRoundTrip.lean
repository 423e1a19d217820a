import Ferrosync.Codec.DirectoryTree
import Ferrosync.Codec.BatchRoundTrip
import Ferrosync.Codec.SortOrder

set_option autoImplicit false

/-! # The round trip of an incremental file list

The two ends keep some of their state between the lists of the directories: the previous entry and
the next number on both sides, the tables of hard links and attributes on the sender's only. With
none of the latter in use, the lists are received as they were sent, however the calls of
`send_pending` are split (`incremental_round_trip`).
-/

namespace Ferrosync

open ByteStream List

variable {entries : List FileEntry} {counts : List Nat} {g : DirGroup} {opts : FileListOptions}
  {n : Nat} {p : PendingSubFlists} {q : FileEntry → Bool} {name : List UInt8} {o : TransferOptions}

/-! ## Splitting the calls -/

/-- The calls of `send_pending` with the given counts. -/
def sendCalls (entries : List FileEntry) (opts : FileListOptions) :
    List Nat → PendingSubFlists → List UInt8 × PendingSubFlists
  | [], p => ([], p)
  | count :: counts, p =>
    let one := sendPending entries opts count p
    let rest := sendCalls entries opts counts one.2
    (one.1 ++ rest.1, rest.2)

/-- All lists that are left, and the end marker. -/
def pendingBytes (entries : List FileEntry) (opts : FileListOptions) :
    List DirGroup → SubFlistSender → List UInt8
  | [], s => (writeNdx ndxFlistEof s.ndxState opts.wire.intCodec).1
  | g :: groups, s =>
    let one := sendSubFlist entries g opts s
    one.1 ++ pendingBytes entries opts groups one.2

/-- The lists of the groups, without the end marker. -/
def sendLists (entries : List FileEntry) (opts : FileListOptions) :
    List DirGroup → SubFlistSender → List UInt8 × SubFlistSender
  | [], s => ([], s)
  | g :: groups, s =>
    let one := sendSubFlist entries g opts s
    let rest := sendLists entries opts groups one.2
    (one.1 ++ rest.1, rest.2)

section Split

variable {entries : List FileEntry} {opts : FileListOptions}

theorem pendingBytes_append (groups groups' : List DirGroup) (s : SubFlistSender) :
    pendingBytes entries opts (groups ++ groups') s =
      (sendLists entries opts groups s).1 ++
        pendingBytes entries opts groups' (sendLists entries opts groups s).2 := by
  induction groups generalizing s with
  | nil => rfl
  | cons g groups ih => rw [cons_append, pendingBytes, ih, sendLists, append_assoc]

/-- What was sent in one call, and what is left. -/
theorem pendingBytes_sendGroups (count : Nat) (groups : List DirGroup) (s : SubFlistSender) :
    pendingBytes entries opts groups s =
      (sendGroups entries opts count groups s).1 ++
        pendingBytes entries opts (sendGroups entries opts count groups s).2.1
          (sendGroups entries opts count groups s).2.2 := by
  induction count generalizing groups s with
  | zero => rfl
  | succ count ih =>
    cases groups with
    | nil => rfl
    | cons g groups =>
      rw [pendingBytes, ih, sendGroups, append_assoc]

theorem pendingBytes_eq (entries : List FileEntry) (opts : FileListOptions)
    (groups : List DirGroup) (s : SubFlistSender) :
    pendingBytes entries opts groups s = (sendLists entries opts groups s).1 ++
      pendingBytes entries opts [] (sendLists entries opts groups s).2 := by
  rw [← pendingBytes_append, append_nil]

theorem sendCalls_of_eofSent (h : p.eofSent = true) (counts : List Nat) :
    sendCalls entries opts counts p = ([], p) := by
  induction counts with
  | nil => rfl
  | cons count counts ih =>
    have hone : sendPending entries opts count p = ([], p) := by
      unfold sendPending
      rw [if_pos h]
    rw [sendCalls, hone, ih]
    rfl

/-- Calls that send everything send the same, however they are split. -/
theorem sendCalls_eq (hopen : p.eofSent = false)
    (hdone : (sendCalls entries opts counts p).2.eofSent = true) :
    (sendCalls entries opts counts p).1 = pendingBytes entries opts p.groups p.sender := by
  induction counts generalizing p with
  | nil => exact absurd (hopen.symm.trans hdone) Bool.false_ne_true
  | cons count counts ih =>
    rw [sendCalls] at hdone ⊢
    rw [pendingBytes_sendGroups count p.groups p.sender]
    unfold sendPending at hdone ⊢
    rw [hopen, if_neg Bool.false_ne_true] at hdone ⊢
    by_cases hend : (sendGroups entries opts count p.groups p.sender).2.1 = []
    · rw [if_pos hend] at hdone ⊢
      rw [sendCalls_of_eofSent rfl, append_nil, hend]
      rfl
    · rw [if_neg hend] at hdone ⊢
      rw [ih rfl hdone]

theorem groups_sendGroups (count : Nat) (groups : List DirGroup) (s : SubFlistSender) :
    (sendGroups entries opts count groups s).2.1 = groups.drop count := by
  induction count generalizing groups s with
  | zero => rfl
  | succ count ih =>
    cases groups with
    | nil => rfl
    | cons g groups => exact ih groups _

/-- One call for each list is enough, and every call may send more. -/
theorem sendCalls_done (hpos : ∀ c ∈ counts, 1 ≤ c) (hne : counts ≠ [])
    (hlen : p.groups.length ≤ counts.length) :
    (sendCalls entries opts counts p).2.eofSent = true := by
  induction counts generalizing p with
  | nil => exact absurd rfl hne
  | cons count counts ih =>
    -- Induction on the calls: each one sends a list or the end, so that the lists left are fewer
    -- than the calls left.
    by_cases hopen : p.eofSent = true
    · rw [sendCalls_of_eofSent hopen]
      exact hopen
    · have hcount := hpos count mem_cons_self
      rw [length_cons] at hlen
      rw [sendCalls]
      unfold sendPending
      dsimp only
      split_ifs with hend
      · rw [sendCalls_of_eofSent rfl]
      · rw [groups_sendGroups] at hend
        have hleft := length_pos_of_ne_nil hend
        rw [length_drop] at hleft
        refine ih (fun c hc => hpos c (mem_cons_of_mem count hc)) ?_ ?_
        · rintro rfl
          rw [length_nil] at hlen
          omega
        · rw [groups_sendGroups, length_drop]
          omega

end Split

/-! ## Between two lists -/

/-- The two ends between two lists, when the entries `before` have been sent. -/
structure BetweenLists (opts : FileListOptions) (before : List (Int × FileEntry))
    (s : SubFlistSender) (r : IncrementalReceiver) : Prop where
  synced : Synced opts s.enc.delta r.delta
  links : LinksOf opts before s.enc.links
  access_le : s.enc.acls.accessList.length ≤ before.length
  dflt_le : s.enc.acls.defaultList.length ≤ before.length
  xattrs_le : s.enc.xattrs.length ≤ before.length
  nextNdx : r.nextNdx = s.nextNdx
  ndxState : r.ndxState = s.ndxState
  ndxValid : s.ndxState.Valid

theorem BetweenLists.default (opts : FileListOptions) :
    BetweenLists opts [] SubFlistSender.default IncrementalReceiver.default where
  synced := Synced.default
  links := LinksOf.nil
  access_le := Nat.le_refl 0
  dflt_le := Nat.le_refl 0
  xattrs_le := Nat.le_refl 0
  nextNdx := rfl
  ndxState := rfl
  ndxValid := NdxState.valid_default

/-- The tables of the sender at the start of a list. -/
def SubFlistSender.tables (s : SubFlistSender) : AttrTables := ⟨s.enc.acls, s.enc.xattrs⟩

section Lists

variable {opts : FileListOptions} {before : List (Int × FileEntry)} {s : SubFlistSender}
variable {r : IncrementalReceiver} {es : List FileEntry}

/-- The decoder starts a list with empty tables. -/
theorem BetweenLists.start (h : BetweenLists opts before s r) :
    Lockstep opts before s.tables s.nextNdx [] [] (s.enc.startAt s.nextNdx)
      ⟨{ r.delta with ndxStart := r.nextNdx }, .default, []⟩ where
  synced := ⟨h.synced.name, h.synced.mtime, h.synced.mode, h.synced.uid, h.synced.gid,
    h.synced.rdev, h.synced.rdevMajor⟩
  ndxStart := h.nextNdx
  links := by
    show LinksOf opts (before ++ []) s.enc.links
    rw [append_nil]
    exact h.links
  tables := ⟨(append_nil _).symm, (append_nil _).symm, (append_nil _).symm⟩
  access_le := h.access_le
  dflt_le := h.dflt_le
  xattrs_le := h.xattrs_le
  entries := .nil
  sources := fun _ _ _ hget => absurd hget (by simp)

theorem length_indexed (start : Int) (es : List FileEntry) :
    (indexed start es).length = es.length := by
  induction es generalizing start with
  | nil => rfl
  | cons e es ih =>
    simp [indexed, ih]

/-- A list that can be sent at this point. -/
structure SendableList (opts : FileListOptions) (before : List (Int × FileEntry))
    (s : SubFlistSender) (es : List FileEntry) : Prop where
  valid : ∀ e ∈ es, Valid opts e
  agree : LinksAgree opts es
  resolvable : Resolvable opts before s.tables s.nextNdx [] (s.enc.startAt s.nextNdx) es
  ndx : 0 ≤ s.nextNdx
  bound : s.nextNdx + (es.length + 1 : Nat) < 2 ^ 31
  count : before.length + es.length ≤ 2 ^ 32

/-- One list. -/
theorem BetweenLists.list (hwire : opts.wire.FlagsFit) (h : BetweenLists opts before s r)
    (hes : SendableList opts before s es) :
    ∃ ds r', Reads (recvSubFlistWithState opts r) (encodeSubFlistEntries es opts s).1
        (⟨s.nextNdx, ds⟩, r') ∧ ListArrives opts es ds ∧
      BetweenLists opts (before ++ indexed s.nextNdx es) (encodeSubFlistEntries es opts s).2 r' := by
  have hbound := hes.bound
  -- the entries of one list are the batch loop, started with the tables of the lists before it
  obtain ⟨ds, dec, hreads, hlock, -⟩ := reads_recvEntries hwire (fun _ _ _ _ => True)
    (fun _ _ _ => trivial) hes.ndx h.start trivial hes.valid hes.agree hes.resolvable
    (by omega) hes.count
  have hlen : es.length = ds.length := hlock.entries.length_eq
  refine ⟨ds, { r with nextNdx := toI32 (r.nextNdx + (ds.length + 1)), delta := dec.delta }, ?_,
    ⟨hlock.entries, hlock.sources⟩, ?_⟩
  · unfold recvSubFlistWithState encodeSubFlistEntries
    rw [← h.nextNdx] at hreads ⊢
    exact hreads.bind_nil (Reads.pure _)
  · have hcount : (before ++ indexed s.nextNdx es).length = before.length + es.length := by
      rw [length_append, length_indexed]
    constructor
    case synced => exact hlock.synced
    case links => exact hlock.links
    case access_le =>
      rw [hcount]
      exact hlock.access_le
    case dflt_le =>
      rw [hcount]
      exact hlock.dflt_le
    case xattrs_le =>
      rw [hcount]
      exact hlock.xattrs_le
    -- the number between two lists is skipped on both sides
    case nextNdx =>
      show toI32 (r.nextNdx + (ds.length + 1)) = toI32 (s.nextNdx + (es.length + 1))
      rw [h.nextNdx, hlen]
    case ndxState => exact h.ndxState
    case ndxValid => exact h.ndxValid

end Lists

/-! ## All lists -/

/-- The receiver with the lists `dss` behind what it has. -/
def acceptLists : Int → List (List FileEntry) → Received → Received
  | _, [], acc => acc
  | cursor, ds :: dss, acc =>
    acceptLists (cursor + (ds.length + 1)) dss
      ⟨acc.entries ++ ds, acc.entryNdx ++ ds.zipIdx.map (fun p => toI32 (cursor + p.2)),
        acc.numFlists + 1⟩

/-- Groups that can be sent, one after the other. -/
def SendableGroups (opts : FileListOptions) (entries : List FileEntry) :
    List (Int × FileEntry) → SubFlistSender → List DirGroup → Prop
  | _, _, [] => True
  | before, s, g :: groups =>
    (0 ≤ g.dirNdx ∧ g.dirNdx < 2 ^ 31 - 101) ∧
    SendableList opts before s (groupEntries entries g) ∧
    CanonicallySorted (groupEntries entries g) ∧
    SendableGroups opts entries (before ++ indexed s.nextNdx (groupEntries entries g))
      (sendSubFlist entries g opts s).2 groups

section Groups

variable {opts : FileListOptions} {entries : List FileEntry} {before : List (Int × FileEntry)}
variable {s : SubFlistSender} {r : IncrementalReceiver}

/-- A sorted list is taken as it is. -/
theorem sortAndAssign_sorted {ds : List FileEntry} (h : CanonicallySorted ds) (start : Int)
    (acc : Received) :
    sortAndAssign ⟨start, ds⟩ acc = ⟨acc.entries ++ ds,
      acc.entryNdx ++ ds.zipIdx.map (fun p => toI32 (start + p.2)), acc.numFlists + 1⟩ := by
  unfold sortAndAssign
  rw [canonicalSort_of_sorted h]

theorem nextNdx_encodeSubFlistEntries {es : List FileEntry} (h : SendableList opts before s es) :
    (encodeSubFlistEntries es opts s).2.nextNdx = s.nextNdx + (es.length + 1) := by
  have hndx := h.ndx
  have hbound := h.bound
  exact toI32_eq ⟨by omega, by omega⟩

theorem nextNdx_sendSubFlist (h : SendableList opts before s (groupEntries entries g)) :
    (sendSubFlist entries g opts s).2.nextNdx =
      s.nextNdx + ((groupEntries entries g).length + 1) := by
  have hndx := h.ndx
  have hbound := h.bound
  show toI32 (s.nextNdx + ((groupEntries entries g).length + 1)) = _
  exact toI32_eq ⟨by omega, by omega⟩

theorem marker_eq {dirNdx : Int} (h : 0 ≤ dirNdx ∧ dirNdx < 2 ^ 31 - 101) :
    toI32 (ndxFlistOffset - dirNdx) = -101 - dirNdx := by
  obtain ⟨h₀, h₁⟩ := h
  exact toI32_eq ⟨by unfold ndxFlistOffset; omega, by unfold ndxFlistOffset; omega⟩

/-- The entries sent in the lists of the groups, behind those sent before. -/
def history (entries : List FileEntry) (opts : FileListOptions) :
    List (Int × FileEntry) → SubFlistSender → List DirGroup → List (Int × FileEntry)
  | before, _, [] => before
  | before, s, g :: groups =>
    history entries opts (before ++ indexed s.nextNdx (groupEntries entries g))
      (sendSubFlist entries g opts s).2 groups

/-- Behind the marker of a list the ends are as before it. -/
theorem BetweenLists.marker {dirNdx : Int} (h : BetweenLists opts before s r)
    (hdir : 0 ≤ dirNdx ∧ dirNdx < 2 ^ 31 - 101) :
    BetweenLists opts before
      { s with ndxState :=
        (writeNdx (toI32 (ndxFlistOffset - dirNdx)) s.ndxState opts.wire.intCodec).2 }
      { r with ndxState :=
        (writeNdx (toI32 (ndxFlistOffset - dirNdx)) s.ndxState opts.wire.intCodec).2 } ∧
    ∀ (fuel : Nat) (acc : Received) (input : List UInt8),
      recvSubFlists opts (fuel + 1) acc r
        ((writeNdx (toI32 (ndxFlistOffset - dirNdx)) s.ndxState opts.wire.intCodec).1 ++ input) =
      (recvSubFlistWithState opts { r with ndxState :=
        (writeNdx (toI32 (ndxFlistOffset - dirNdx)) s.ndxState opts.wire.intCodec).2 } >>=
        fun list => recvSubFlists opts fuel (sortAndAssign list.1 acc) list.2) input := by
  -- the bound on the directory keeps the marker below the end marker and within `i32`
  have hmarker := marker_eq hdir
  have hrange : -2 ^ 31 < toI32 (ndxFlistOffset - dirNdx) ∧
      toI32 (ndxFlistOffset - dirNdx) < 2 ^ 31 := by
    constructor <;> omega
  constructor
  · exact ⟨h.synced, h.links, h.access_le, h.dflt_le, h.xattrs_le, h.nextNdx, rfl,
      h.ndxValid.writeNdx hrange⟩
  · intro fuel acc input
    rw [recvSubFlists, h.ndxState]
    refine (bind_ok (reads_ndx h.ndxValid hrange _)).trans ?_
    rw [if_neg (by rw [hmarker]; unfold ndxFlistEof; omega),
      if_pos (by rw [hmarker]; unfold ndxFlistOffset; omega)]

theorem BetweenLists.groups (hwire : opts.wire.FlagsFit) (groups : List DirGroup) :
    ∀ {before : List (Int × FileEntry)} {s : SubFlistSender} {r : IncrementalReceiver}
      (acc : Received), BetweenLists opts before s r →
      SendableGroups opts entries before s groups →
      ∃ dss r', List.Forall₂ (fun g ds => ListArrives opts (groupEntries entries g) ds) groups dss ∧
        (∀ fuel input, recvSubFlists opts (fuel + groups.length) acc r
            ((sendLists entries opts groups s).1 ++ input) =
          recvSubFlists opts fuel (acceptLists s.nextNdx dss acc) r' input) ∧
        BetweenLists opts (history entries opts before s groups)
          (sendLists entries opts groups s).2 r' := by
  induction groups with
  | nil =>
    intro before s r acc h _
    exact ⟨[], r, .nil, fun _ _ => rfl, h⟩
  | cons g groups ih =>
    intro before s r acc h hsend
    obtain ⟨hdir, hlist, hsorted, hrest⟩ := hsend
    -- marker, list, and then the rest from the state in which the list leaves the two ends
    obtain ⟨hbehind, hmarker⟩ := h.marker hdir
    have hlist' : SendableList opts before
        { s with ndxState := (writeNdx (toI32 (ndxFlistOffset - g.dirNdx)) s.ndxState
            opts.wire.intCodec).2 } (groupEntries entries g) :=
      ⟨hlist.valid, hlist.agree, hlist.resolvable, hlist.ndx, hlist.bound, hlist.count⟩
    obtain ⟨ds, r₁, hreads, harrives, hnext⟩ := hbehind.list hwire hlist'
    obtain ⟨dss, r', hdss, hrun, hend⟩ := ih (sortAndAssign ⟨s.nextNdx, ds⟩ acc) hnext hrest
    refine ⟨ds :: dss, r', .cons harrives hdss, ?_, hend⟩
    intro fuel input
    have hcursor := nextNdx_encodeSubFlistEntries hlist'
    rw [harrives.fields.length_eq] at hcursor
    have htail := hrun fuel input
    -- the receiver sorts what it reads: a sorted list stays as it is
    rw [hcursor, sortAndAssign_sorted (harrives.sorted hsorted)] at htail
    rw [length_cons, ← Nat.add_assoc, sendLists]
    unfold sendSubFlist
    rw [append_assoc, append_assoc, hmarker]
    refine (bind_ok (hreads _)).trans ?_
    rw [sortAndAssign_sorted (harrives.sorted hsorted)]
    exact htail

theorem BetweenLists.eof (h : BetweenLists opts before s r) (fuel : Nat) (acc : Received)
    (rest : List UInt8) :
    recvSubFlists opts (fuel + 1) acc r (pendingBytes entries opts [] s ++ rest) =
      .ok (acc, rest) := by
  rw [recvSubFlists, h.ndxState]
  refine (bind_ok (reads_ndx h.ndxValid (by decide) rest)).trans ?_
  rfl

end Groups

/-! ## The whole exchange -/

/-- What is written for a list when the calls of `send_pending` have the given counts. -/
def incrementalBytes (p : NegotiatedProtocol) (o : TransferOptions) (entries : List FileEntry)
    (counts : List Nat) : List UInt8 :=
  (sendFileList p o entries).bytes ++
    match (sendFileList p o entries).pending with
    | none => []
    | some pending => (sendCalls entries (FileListOptions.fromProtocol p o) counts pending).1

/-- The calls of `send_pending`, each for as many lists as `counts` says, have come to the end
marker. -/
def AllListsSent (p : NegotiatedProtocol) (o : TransferOptions) (entries : List FileEntry)
    (counts : List Nat) : Prop :=
  match (sendFileList p o entries).pending with
  | none => True
  | some pending =>
    (sendCalls entries (FileListOptions.fromProtocol p o) counts pending).2.eofSent = true

/-- Every group of a tree can be sent, the root first. -/
def SendableTree (opts : FileListOptions) (entries : List FileEntry) : List DirGroup → Prop
  | [] => False
  | root :: groups =>
    SendableList opts [] .default (groupEntries entries root) ∧
    CanonicallySorted (groupEntries entries root) ∧
    SendableGroups opts entries (indexed 1 (groupEntries entries root))
      (encodeSubFlistEntries (groupEntries entries root) opts .default).2 groups

theorem encodeEndOfFlist_ne_nil (opts : FileListOptions) : encodeEndOfFlist 0 opts ≠ [] := by
  unfold encodeEndOfFlist
  cases opts.wire.flagsCodec with
  | varint => exact append_ne_nil_of_left_ne_nil (writeVarint_ne_nil 0) _
  | byteExtended | byte => exact cons_ne_nil _ _

/-- Every list is at least a byte. -/
theorem length_le_pendingBytes (entries : List FileEntry) (opts : FileListOptions)
    (groups : List DirGroup) (s : SubFlistSender) :
    groups.length ≤ (pendingBytes entries opts groups s).length := by
  induction groups generalizing s with
  | nil => exact Nat.zero_le _
  | cons g groups ih =>
    have hend := length_pos_of_ne_nil (encodeEndOfFlist_ne_nil opts)
    have hone : 1 ≤ (sendSubFlist entries g opts s).1.length := by
      simp [sendSubFlist, encodeSubFlistEntries]
      omega
    have hrest := ih (sendSubFlist entries g opts s).2
    simp [pendingBytes]
    omega

section Exchange

variable {p : NegotiatedProtocol} {o : TransferOptions} {entries : List FileEntry}

theorem incrementalBytes_eq {root : DirGroup} {groups : List DirGroup}
    (hinc : incrementalFlist p o = true)
    (htree : DirectoryTree.fromSortedEntries entries = root :: groups)
    (hall : AllListsSent p o entries counts) :
    incrementalBytes p o entries counts =
      (encodeSubFlistEntries (groupEntries entries root) (FileListOptions.fromProtocol p o)
        .default).1 ++
      pendingBytes entries (FileListOptions.fromProtocol p o) groups
        (encodeSubFlistEntries (groupEntries entries root) (FileListOptions.fromProtocol p o)
          .default).2 := by
  unfold AllListsSent at hall
  unfold incrementalBytes
  unfold sendFileList sendFileListIncremental at hall ⊢
  simp only [hinc, if_true, htree, headD_cons, tail_cons] at hall ⊢
  -- without further directories there are no pending lists, and no end of them either
  cases groups with
  | nil =>
    rw [if_pos rfl, append_nil]
    rfl
  | cons g groups =>
    simp [sendCalls_eq rfl hall]

/-- A tree that can be sent is received list by list. -/
theorem reads_incremental (hwire : (FileListOptions.fromProtocol p o).wire.FlagsFit)
    (hinc : incrementalFlist p o = true)
    (hsend : SendableTree (FileListOptions.fromProtocol p o) entries
      (DirectoryTree.fromSortedEntries entries)) (hall : AllListsSent p o entries counts) :
    ∃ dss, List.Forall₂ (fun g ds => ListArrives (FileListOptions.fromProtocol p o)
          (groupEntries entries g) ds) (DirectoryTree.fromSortedEntries entries) dss ∧
      Reads (recvFileList p o) (incrementalBytes p o entries counts)
        ⟨(acceptLists 1 dss ⟨[], [], 0⟩).entries, (acceptLists 1 dss ⟨[], [], 0⟩).entryNdx, 1,
          (acceptLists 1 dss ⟨[], [], 0⟩).numFlists⟩ := by
  cases htree : DirectoryTree.fromSortedEntries entries with
  | nil =>
    rw [htree] at hsend
    exact absurd hsend not_false
  | cons root groups =>
    rw [htree] at hsend
    obtain ⟨hroot, hsorted, hgroups⟩ := hsend
    obtain ⟨ds, r, hreads, harrives, hnext⟩ := (BetweenLists.default _).list hwire hroot
    obtain ⟨dss, r', hdss, hrun, hend⟩ := hnext.groups hwire groups
      (sortAndAssign ⟨1, ds⟩ ⟨[], [], 0⟩) hgroups
    have hcursor := nextNdx_encodeSubFlistEntries hroot
    rw [harrives.fields.length_eq] at hcursor
    refine ⟨ds :: dss, .cons harrives hdss, ?_⟩
    rw [incrementalBytes_eq hinc htree hall]
    have hincremental : Reads (recvFileListIncremental (FileListOptions.fromProtocol p o))
        ((encodeSubFlistEntries (groupEntries entries root) (FileListOptions.fromProtocol p o)
          .default).1 ++
        pendingBytes entries (FileListOptions.fromProtocol p o) groups
          (encodeSubFlistEntries (groupEntries entries root) (FileListOptions.fromProtocol p o)
            .default).2) (acceptLists 1 (ds :: dss) ⟨[], [], 0⟩, 1) := by
      refine hreads.bind ?_
      have hlists : Reads (fun input => recvSubFlists (FileListOptions.fromProtocol p o)
          (input.length + 1) (sortAndAssign ⟨1, ds⟩ ⟨[], [], 0⟩) r input)
          (pendingBytes entries (FileListOptions.fromProtocol p o) groups
            (encodeSubFlistEntries (groupEntries entries root)
              (FileListOptions.fromProtocol p o) .default).2)
          (acceptLists 1 (ds :: dss) ⟨[], [], 0⟩) := by
        intro rest
        have hlen := length_le_pendingBytes entries (FileListOptions.fromProtocol p o) groups
          (encodeSubFlistEntries (groupEntries entries root) (FileListOptions.fromProtocol p o)
            .default).2
        have hbytes := pendingBytes_eq entries (FileListOptions.fromProtocol p o) groups
          (encodeSubFlistEntries (groupEntries entries root) (FileListOptions.fromProtocol p o)
            .default).2
        -- a round for each list, and one for the end marker
        obtain ⟨fuel, hfuel⟩ := Nat.exists_eq_add_of_le (hlen.trans (Nat.le_add_right _ rest.length))
        dsimp only
        rw [length_append, hfuel, Nat.add_comm groups.length, Nat.add_right_comm, hbytes,
          append_assoc, hrun, hend.eof, hcursor,
          sortAndAssign_sorted (harrives.sorted hsorted)]
        rfl
      exact hlists.bind_nil (Reads.pure _)
    unfold recvFileList
    simp only [hinc]
    exact hincremental.bind_nil (Reads.pure _)

end Exchange

/-! ## The entries of a group -/

/-- The entries at the positions of a property are those that have it. -/
theorem groupEntries_positions (h : g.entryIndices = positions q entries) :
    groupEntries entries g = entries.filter q := by
  unfold groupEntries positions at *
  rw [h]
  clear h
  induction entries with
  | nil => rfl
  | cons e entries ih =>
    -- the positions behind the head are those of the tail, moved up by one
    have hshift : ((range entries.length).map Nat.succ).filter
        (fun i => ((e :: entries)[i]?).any q) =
        ((range entries.length).filter fun i => (entries[i]?).any q).map Nat.succ := by
      rw [filter_map]
      rfl
    have htail : (((range entries.length).filter fun i => (entries[i]?).any q).map
        Nat.succ).filterMap ((e :: entries)[·]?) = entries.filter q := by
      rw [filterMap_map, ← ih]
      rfl
    rw [length_cons, range_succ_eq_map, filter_cons, hshift]
    by_cases hq : q e = true
    · have hhead : (e :: entries)[0]? = some e := rfl
      rw [if_pos (by simpa using hq), filterMap_cons, hhead, htail, filter_cons_of_pos hq]
    · rw [if_neg (by simpa using hq), htail, filter_cons_of_neg hq]

theorem forall₂_groupEntries (h : ∀ i ∈ g.entryIndices, i < entries.length) :
    List.Forall₂ (fun i e => entries[i]? = some e) g.entryIndices (groupEntries entries g) := by
  unfold groupEntries
  generalize g.entryIndices = indices at h
  induction indices with
  | nil => exact .nil
  | cons i indices ih =>
    have hi := getElem?_eq_getElem (h i mem_cons_self)
    rw [filterMap_cons_some hi]
    exact .cons hi (ih fun j hj => h j (mem_cons_of_mem i hj))

theorem length_groupEntries (h : g.entryIndices = positions q entries) :
    (groupEntries entries g).length = g.entryIndices.length := by
  refine (forall₂_groupEntries fun i hi => ?_).length_eq.symm
  rw [h] at hi
  exact lt_of_mem_positions hi

def ResolvableGroups (opts : FileListOptions) (entries : List FileEntry) :
    List (Int × FileEntry) → SubFlistSender → List DirGroup → Prop
  | _, _, [] => True
  | before, s, g :: groups =>
    Resolvable opts before s.tables s.nextNdx [] (s.enc.startAt s.nextNdx)
      (groupEntries entries g) ∧
    ResolvableGroups opts entries (before ++ indexed s.nextNdx (groupEntries entries g))
      (sendSubFlist entries g opts s).2 groups

def ResolvableTree (opts : FileListOptions) (entries : List FileEntry) : List DirGroup → Prop
  | [] => True
  | root :: groups =>
    Resolvable opts [] ⟨.default, []⟩ 1 [] (EncoderState.default.startAt 1)
      (groupEntries entries root) ∧
    ResolvableGroups opts entries (indexed 1 (groupEntries entries root))
      (encodeSubFlistEntries (groupEntries entries root) opts .default).2 groups

/-- A list whose entries can be sent, in a canonical order. -/
structure SendableEntries (opts : FileListOptions) (entries : List FileEntry) : Prop where
  sorted : CanonicallySorted entries
  valid : ∀ e ∈ entries, Valid opts e
  agree : LinksAgree opts entries

theorem SendableEntries.filter (h : SendableEntries opts entries) (q : FileEntry → Bool) :
    SendableEntries opts (entries.filter q) where
  sorted := h.sorted.filter _
  valid := fun e he => h.valid e (List.mem_of_mem_filter he)
  agree := fun a ha b hb => h.agree a (List.mem_of_mem_filter ha) b (List.mem_of_mem_filter hb)

section Sendable

variable {opts : FileListOptions} {entries : List FileEntry}

theorem sendableList_of {before : List (Int × FileEntry)} {s : SubFlistSender}
    (h : SendableEntries opts entries) (hg : g.entryIndices = positions q entries)
    (hres : Resolvable opts before s.tables s.nextNdx [] (s.enc.startAt s.nextNdx)
      (groupEntries entries g)) (hndx : 0 ≤ s.nextNdx)
    (hbound : s.nextNdx + (g.entryIndices.length + 1 : Nat) < 2 ^ 31)
    (hcount : before.length ≤ s.nextNdx) :
    SendableList opts before s (groupEntries entries g) ∧
      CanonicallySorted (groupEntries entries g) := by
  have hfilter := h.filter q
  have hlen := length_groupEntries hg
  rw [← groupEntries_positions hg] at hfilter
  refine ⟨⟨hfilter.valid, hfilter.agree, hres, hndx, ?_, ?_⟩, hfilter.sorted⟩
  · rw [hlen]
    exact hbound
  · omega

/-- Groups whose numbers fit can be sent if their references can be resolved. -/
theorem sendableGroups_of (h : SendableEntries opts entries) (groups : List DirGroup) :
    ∀ {before : List (Int × FileEntry)} {s : SubFlistSender},
      (∀ g ∈ groups, 0 ≤ g.dirNdx ∧ g.dirNdx < 2 ^ 31 - 101) →
      (∀ g ∈ groups, ∃ q, g.entryIndices = positions q entries) →
      ResolvableGroups opts entries before s groups → 0 ≤ s.nextNdx →
      s.nextNdx + ndxSpan groups < 2 ^ 31 → before.length ≤ s.nextNdx →
      SendableGroups opts entries before s groups := by
  induction groups with
  | nil => exact fun _ _ _ _ _ _ => trivial
  | cons g groups ih =>
    intro before s hdirs hpos hres hndx hspan hcount
    obtain ⟨hlist, hrest⟩ := hres
    obtain ⟨q, hg⟩ := hpos g mem_cons_self
    -- the numbers of this list and of those behind it share the one span
    have hsplit : ndxSpan (g :: groups) = g.entryIndices.length + 1 + ndxSpan groups := rfl
    obtain ⟨hsend, hsorted⟩ := sendableList_of h hg hlist hndx (by push_cast at hspan ⊢; omega) hcount
    have hnext : (sendSubFlist entries g opts s).2.nextNdx =
        s.nextNdx + (g.entryIndices.length + 1) := by
      rw [← length_groupEntries hg]
      exact nextNdx_sendSubFlist hsend
    refine ⟨hdirs g mem_cons_self, hsend, hsorted, ih
      (fun g' hg' => hdirs g' (mem_cons_of_mem g hg'))
      (fun g' hg' => hpos g' (mem_cons_of_mem g hg')) hrest ?_ ?_ ?_⟩
    · omega
    · rw [hnext]
      omega
    · rw [length_append, length_indexed, length_groupEntries hg]
      omega

end Sendable

/-! ## What has been received -/

theorem entries_acceptLists (cursor : Int) (dss : List (List FileEntry)) (acc : Received) :
    (acceptLists cursor dss acc).entries = acc.entries ++ dss.flatten := by
  induction dss generalizing cursor acc with
  | nil => exact (append_nil _).symm
  | cons ds dss ih => rw [acceptLists, ih, flatten_cons, append_assoc]

theorem map_snd_zipIdx {α β γ : Type} (as : List α) (bs : List β) (h : as.length = bs.length)
    (f : Nat → γ) : as.zipIdx.map (fun p => f p.2) = bs.zipIdx.map (fun p => f p.2) := by
  have hmap : ∀ {δ : Type} (l : List δ),
      l.zipIdx.map (fun p => f p.2) = (range' 0 l.length).map f := by
    intro δ l
    rw [← zipIdx_map_snd, map_map]
    rfl
  rw [hmap, hmap, h]

variable {dss : List (List FileEntry)} {groups : List DirGroup} {parent : List UInt8}

/-- The receiver numbers the entries as the sender does. -/
theorem entryNdx_acceptLists
    (h : List.Forall₂ (fun g ds => g.entryIndices.length = ds.length) groups dss) (cursor : Int)
    (acc : Received) :
    (acceptLists cursor dss acc).entryNdx =
      acc.entryNdx ++ (numbering groups cursor).map fun p => toI32 p.2 := by
  induction h generalizing cursor acc with
  | nil => exact (append_nil _).symm
  | @cons g ds groups dss hlen _ ih =>
    rw [acceptLists, ih, numbering, map_append, map_map, append_assoc, hlen]
    congr 2
    exact map_snd_zipIdx _ _ hlen.symm fun i => toI32 (cursor + i)

theorem forall₂_comp {α β γ : Type} {R : α → β → Prop} {S : β → γ → Prop} {as : List α}
    {bs : List β} {cs : List γ} (h : List.Forall₂ R as bs) (h' : List.Forall₂ S bs cs) :
    List.Forall₂ (fun a c => ∃ b, R a b ∧ S b c) as cs := by
  induction h generalizing cs with
  | nil =>
    cases h'
    exact .nil
  | cons hab _ ih =>
    cases h' with
    | cons hbc htail => exact .cons ⟨_, hab, hbc⟩ (ih htail)

/-- The received entries are those at the indices of the groups. -/
theorem forall₂_received (hpos : ∀ g ∈ groups, ∃ q, g.entryIndices = positions q entries)
    (h : List.Forall₂ (fun g ds => ListArrives opts (groupEntries entries g) ds) groups dss) :
    List.Forall₂ (fun i d => ∃ e, entries[i]? = some e ∧ Transmitted opts e d)
      (sentIndices groups) dss.flatten := by
  induction h with
  | nil => exact .nil
  | @cons g ds groups dss harrives _ ih =>
    obtain ⟨q, hg⟩ := hpos g mem_cons_self
    have hindices : List.Forall₂ (fun i e => entries[i]? = some e) g.entryIndices
        (groupEntries entries g) :=
      forall₂_groupEntries fun i hi => lt_of_mem_positions (hg ▸ hi)
    exact rel_append (forall₂_comp hindices harrives.fields)
      (ih fun g' hg' => hpos g' (mem_cons_of_mem g hg'))

/-! ## Lists without links and attributes -/

/-- What stands before the last slash. -/
theorem eq_of_parentOf (h : parentOf name = some parent) :
    ∃ base, name = parent ++ UnixPath.slash :: base := by
  unfold parentOf at h
  split_ifs at h with hslash
  obtain rfl := Option.some.inj h
  obtain hnone | ⟨u, v, rfl, hv⟩ := last_slash name
  · exact absurd (contains_iff_mem.mp hslash) hnone
  · rw [dirPart_of_last_slash hv, dropLast_concat]
    exact ⟨v, rfl⟩

/-- The parent of a normalised name is not the root itself. -/
theorem NormalisedName.parent_ne_dot (h : NormalisedName name) (hparent : parentOf name = some parent) :
    parent ≠ [46] := by
  rintro rfl
  obtain ⟨base, rfl⟩ := eq_of_parentOf hparent
  rcases h with h | h
  · exact absurd (congrArg length h) (by simp)
  · have hsegments : UnixPath.segments ([46] ++ UnixPath.slash :: base) =
        [46] :: UnixPath.segments base :=
      UnixPath.segments_append_slash [46] base (by decide)
    exact (h [46] mem_cons_self).2.2.1 rfl

/-- The lists that are sent incrementally, with neither links nor attributes. The bounds of `valid`
include 64 KiB for names and targets and 255 bytes for the names of owners. -/
structure IncrementalList (p : NegotiatedProtocol) (o : TransferOptions)
    (entries : List FileEntry) : Prop where
  wire : p.wire = WireFormat.new p.version p.compatFlags
  incremental : incrementalFlist p o = true
  acls : o.preserveAcls = false
  xattrs : o.preserveXattrs = false
  links : o.preserveHardLinks = false
  sorted : CanonicallySorted entries
  distinct : (entries.map (·.name)).Nodup
  normalised : ∀ e ∈ entries, NormalisedName e.name
  parents : ∀ e ∈ entries, ∀ name, e.dirname = some name →
    ∃ d ∈ entries, d.isDir = true ∧ d.name = name
  valid : ∀ e ∈ entries, Valid (FileListOptions.fromProtocol p o) e
  -- a shorter checksum is padded with zeros on the wire, a longer one is cut
  checksums : ∀ e ∈ entries, sendsChecksum e.mode (FileListOptions.fromProtocol p o) = true →
    e.checksum.length = p.checksum.digestLen

/-- Every entry is received once, with its transmitted fields, its checksum among them, and the
number the sender has for it, the numbers are different, and nothing behind the end marker is
read. -/
def IncrementalRoundTrips (p : NegotiatedProtocol) (o : TransferOptions) (entries : List FileEntry)
    (counts : List Nat) : Prop :=
  ∃ received : ReceivedFileList,
    Reads (recvFileList p o) (incrementalBytes p o entries counts) received ∧
    received.entryNdx.Nodup ∧
    ∃ order : List Nat, order.Perm (List.range entries.length) ∧
      List.Forall₂ (fun i d => ∃ e, entries[i]? = some e ∧
        Transmitted (FileListOptions.fromProtocol p o) e d ∧
        (sendsChecksum e.mode (FileListOptions.fromProtocol p o) = true → d.checksum = e.checksum))
        order received.entries ∧
      List.Forall₂ (fun i n => (sendFileList p o entries).ndx[i]? = some n) order received.entryNdx

/-- A name that is listed as a directory is listed once if names are distinct. -/
theorem dirsNamed_of_distinct (hdistinct : (entries.map (·.name)).Nodup)
    (hlisted : ∃ d ∈ entries, d.isDir = true ∧ d.name = name) : dirsNamed entries name = 1 := by
  obtain ⟨d, hd, hdir, hname⟩ := hlisted
  have hle : dirsNamed entries name ≤ 1 := by
    calc dirsNamed entries name
        ≤ entries.countP (fun e => e.name = name) := by
          refine countP_mono_left fun e _ he => ?_
          rw [Bool.and_eq_true] at he
          exact he.2
      _ = (entries.map (·.name)).count name := by
          rw [count_eq_countP, countP_map]
          refine countP_congr fun e _ => ?_
          simp
      _ ≤ 1 := nodup_iff_count_le_one.mp hdistinct name
  have hpos : 0 < dirsNamed entries name := by
    refine countP_pos_iff.mpr ⟨d, hd, ?_⟩
    rw [hdir, decide_eq_true hname]
    rfl
  omega

/-- Without links and attributes there is nothing to resolve. -/
theorem resolvable_plain (hlinks : opts.preserveHardLinks = false)
    (hacls : opts.preserveAcls = false) (hxattrs : opts.preserveXattrs = false)
    {before : List (Int × FileEntry)} {base : AttrTables} {start : Int} :
    ∀ (es sent : List FileEntry) (enc : EncoderState), Resolvable opts before base start sent enc es := by
  intro es
  induction es with
  | nil => exact fun _ _ => trivial
  | cons e es ih =>
    intro sent enc
    have hkey : linkKey opts e = none := by
      unfold linkKey
      rw [hlinks]
      rfl
    refine ⟨fun k hk => absurd (hkey.symm.trans hk) nofun, fun _ => ⟨?_, ?_, ?_⟩, ih _ _⟩
    · exact fun h => absurd (hacls.symm.trans h) Bool.false_ne_true
    · exact fun h => absurd (hacls.symm.trans h) Bool.false_ne_true
    · exact fun h => absurd (hxattrs.symm.trans h) Bool.false_ne_true

theorem resolvableGroups_plain (hlinks : opts.preserveHardLinks = false)
    (hacls : opts.preserveAcls = false) (hxattrs : opts.preserveXattrs = false)
    (groups : List DirGroup) :
    ∀ (before : List (Int × FileEntry)) (s : SubFlistSender),
      ResolvableGroups opts entries before s groups := by
  induction groups with
  | nil => exact fun _ _ => trivial
  | cons g groups ih =>
    exact fun before s => ⟨resolvable_plain hlinks hacls hxattrs _ _ _, ih _ _⟩

section Tree

variable {opts : FileListOptions} {entries : List FileEntry}

variable {groups : List DirGroup}

/-- The numbers of the directories fit in the markers of their lists. -/
theorem ListedTree.dirNdx_bounds (h : ListedTree entries groups)
    (hbound : entries.length + entries.countP FileEntry.isDir + 2 < 2 ^ 31) :
    ∀ g ∈ groups.tail, 0 ≤ g.dirNdx ∧ g.dirNdx < 2 ^ 31 - 101 := by
  intro g hg
  obtain ⟨n, dir, hn, hndx, -⟩ := h.parents g hg
  have hlt : n < entries.countP FileEntry.isDir := by
    calc n < (sentDirs entries groups).length := (List.getElem?_eq_some_iff.mp hn).1
      _ = (sentIndices groups).countP (isDirAt entries) := countP_eq_length_filter.symm
      _ = (range entries.length).countP (isDirAt entries) := h.perm.countP_eq _
      _ = entries.countP FileEntry.isDir := countP_range _ entries
  have hle : entries.countP FileEntry.isDir ≤ entries.length := countP_le_length
  rw [hndx, toI32_eq ⟨by omega, by omega⟩]
  omega

/-- A tree whose numbers fit can be sent if its references can be resolved. -/
theorem sendableTree_of_bounds (hentries : SendableEntries opts entries) (hne : groups ≠ [])
    (hdirs : ∀ g ∈ groups.tail, 0 ≤ g.dirNdx ∧ g.dirNdx < 2 ^ 31 - 101)
    (hpositions : ∀ g ∈ groups, ∃ q, g.entryIndices = positions q entries)
    (hspan : 1 + (ndxSpan groups : Int) < 2 ^ 31) (hres : ResolvableTree opts entries groups) :
    SendableTree opts entries groups := by
  cases groups with
  | nil => exact absurd rfl hne
  | cons root groups =>
    have hsplit : ndxSpan (root :: groups) = root.entryIndices.length + 1 + ndxSpan groups := rfl
    obtain ⟨q, hroot⟩ := hpositions root mem_cons_self
    have hresolve : Resolvable opts [] SubFlistSender.default.tables SubFlistSender.default.nextNdx
        [] (SubFlistSender.default.enc.startAt SubFlistSender.default.nextNdx)
        (groupEntries entries root) := hres.1
    -- the root list begins at number 1 and with empty tables
    obtain ⟨hsend, hsorted⟩ := sendableList_of hentries hroot hresolve (by decide)
      (by show (1 : Int) + _ < _; omega) (by decide)
    have hnext := nextNdx_encodeSubFlistEntries hsend
    have hone : SubFlistSender.default.nextNdx = 1 := rfl
    rw [length_groupEntries hroot] at hnext
    refine ⟨hsend, hsorted, sendableGroups_of hentries groups hdirs
      (fun g hg => hpositions g (mem_cons_of_mem root hg)) hres.2 ?_ ?_ ?_⟩
    · omega
    · omega
    · rw [length_indexed, length_groupEntries hroot]
      omega

/-- A tree of listed parents can be sent if its references can be resolved. -/
theorem sendableTree_of (hentries : SendableEntries opts entries)
    (h : ListedTree entries (DirectoryTree.fromSortedEntries entries))
    (hbound : entries.length + entries.countP FileEntry.isDir + 2 < 2 ^ 31)
    (hres : ResolvableTree opts entries (DirectoryTree.fromSortedEntries entries)) :
    SendableTree opts entries (DirectoryTree.fromSortedEntries entries) := by
  have hspan := h.span_le
  exact sendableTree_of_bounds hentries h.nonempty (h.dirNdx_bounds hbound) h.positions (by omega)
    hres

end Tree

section RoundTrip

variable {p : NegotiatedProtocol} {o : TransferOptions} {entries : List FileEntry}

theorem IncrementalList.listed (h : IncrementalList p o entries) : Listed entries := by
  intro e he name hname
  exact ⟨(h.normalised e he).parent_ne_dot hname,
    dirsNamed_of_distinct h.distinct (h.parents e he name hname)⟩

theorem version_of_incremental (hwire : p.wire = WireFormat.new p.version p.compatFlags)
    (hinc : incrementalFlist p o = true) : 28 ≤ p.version := by
  unfold incrementalFlist at hinc
  rw [Bool.and_eq_true, hwire] at hinc
  have h30 := hinc.1
  simp only [WireFormat.new, Bool.and_eq_true, decide_eq_true_eq] at h30
  omega

/-- What the two ends have if a listed tree is sent and received. -/
theorem received_of_listed (hwire : p.wire = WireFormat.new p.version p.compatFlags)
    (hinc : incrementalFlist p o = true)
    (htree : ListedTree entries (DirectoryTree.fromSortedEntries entries))
    (hsend : SendableTree (FileListOptions.fromProtocol p o) entries
      (DirectoryTree.fromSortedEntries entries)) (hall : AllListsSent p o entries counts)
    (hsum : ∀ e ∈ entries, sendsChecksum e.mode (FileListOptions.fromProtocol p o) = true →
      e.checksum.length = p.checksum.digestLen)
    (hlen : entries.length < 2 ^ 31) :
    IncrementalRoundTrips p o entries counts := by
  have hfit : (FileListOptions.fromProtocol p o).wire.FlagsFit := by
    show p.wire.FlagsFit
    rw [hwire]
    exact WireFormat.flagsFit_new (version_of_incremental hwire hinc)
  obtain ⟨dss, hdss, hreads⟩ := reads_incremental hfit hinc hsend hall
  -- the lists arrive in full, so that both ends number the same positions
  have hlengths : List.Forall₂ (fun g ds => g.entryIndices.length = ds.length)
      (DirectoryTree.fromSortedEntries entries) dss := by
    refine ((forall₂_and_left _ _).mpr ⟨htree.positions, hdss⟩).imp ?_
    rintro g ds ⟨⟨q, hg⟩, harrives⟩
    exact (length_groupEntries hg).symm.trans harrives.fields.length_eq
  have hndx := entryNdx_acceptLists hlengths 1 ⟨[], [], 0⟩
  rw [nil_append] at hndx
  have hentries := entries_acceptLists 1 dss ⟨[], [], 0⟩
  have hsent : (sendFileList p o entries).ndx = ndxAssignments entries := by
    simp [sendFileList, hinc]
  refine ⟨_, hreads, ?_, sentIndices (DirectoryTree.fromSortedEntries entries), htree.perm, ?_, ?_⟩
  · rw [hndx]
    exact htree.nodup_numbering hlen
  -- entry by entry: the receiver holds what was sent at this position
  · rw [hentries]
    refine (forall₂_received htree.positions hdss).imp ?_
    rintro i d ⟨e, he, hfields⟩
    refine ⟨e, he, hfields, fun hsends => ?_⟩
    rw [hfields.checksum, hsends]
    exact paddedChecksum_eq (hsum e (mem_of_getElem? he) hsends)
  · rw [hndx, hsent, ← map_fst_numbering _ 1, forall₂_map_left_iff, forall₂_map_right_iff,
      forall₂_same]
    intro x hx
    exact htree.ndx_eq hx

/-- **Round trip of an incremental file list.** If the numbers of its entries and lists can be
counted by an `i32`, a list is received as it was sent, however the calls of `send_pending` are
split. -/
theorem incremental_round_trip (h : IncrementalList p o entries)
    (hbound : entries.length + entries.countP FileEntry.isDir + 2 < 2 ^ 31) (counts : List Nat)
    (hall : AllListsSent p o entries counts) : IncrementalRoundTrips p o entries counts := by
  have htree := listedTree h.listed
  have hkey : ∀ e ∈ entries, linkKey (FileListOptions.fromProtocol p o) e = none := by
    intro e _
    unfold linkKey
    rw [show (FileListOptions.fromProtocol p o).preserveHardLinks = false from h.links]
    rfl
  have hentries : SendableEntries (FileListOptions.fromProtocol p o) entries :=
    ⟨h.sorted, h.valid, linksAgree_of_none hkey⟩
  refine received_of_listed h.wire h.incremental htree ?_ hall h.checksums (by omega)
  refine sendableTree_of hentries htree hbound ?_
  cases DirectoryTree.fromSortedEntries entries with
  | nil => trivial
  | cons root groups =>
    exact ⟨resolvable_plain h.links h.acls h.xattrs _ _ _,
      resolvableGroups_plain h.links h.acls h.xattrs _ _ _⟩

end RoundTrip

/-! ## Enough calls -/

theorem allListsSent_of_counts {p : NegotiatedProtocol} (hpos : ∀ c ∈ counts, 1 ≤ c)
    (hne : counts ≠ [])
    (hlen : (DirectoryTree.fromSortedEntries entries).tail.length ≤ counts.length) :
    AllListsSent p o entries counts := by
  unfold AllListsSent sendFileList sendFileListIncremental
  by_cases hinc : incrementalFlist p o = true
  · rw [if_pos hinc]
    by_cases htail : (DirectoryTree.fromSortedEntries entries).tail = []
    · rw [if_pos htail]
      trivial
    · rw [if_neg htail]
      exact sendCalls_done hpos hne hlen
  · rw [if_neg hinc]
    trivial

def recursiveOptions : TransferOptions := { TransferOptions.default with dirMode := .recurse }

/-- A directory with a file. -/
theorem incremental_round_trip_pair :
    IncrementalRoundTrips (plainProtocol 31 1) recursiveOptions [directoryD, fileInD] [1] := by
  refine incremental_round_trip ?_ (by decide) [1] ?_
  · constructor
    case wire => rfl
    case incremental => rfl
    case acls => rfl
    case xattrs => rfl
    case links => rfl
    case sorted => decide
    case distinct => decide
    case normalised =>
      intro e he
      rcases mem_cons.mp he with rfl | he
      · exact Or.inr (by decide)
      · rw [mem_singleton.mp he]
        exact Or.inr (by decide)
    case parents =>
      intro e he name hname
      obtain rfl := dirname_pair he hname
      decide
    case valid =>
      intro e he
      rcases mem_cons.mp he with rfl | he
      · exact valid_plainEntry sIfdir [100] none (by decide)
      · rw [mem_singleton.mp he]
        exact valid_plainEntry sIfreg [100, 47, 120] none (by decide)
    case checksums =>
      intro e _ hsends
      exact absurd hsends Bool.false_ne_true
  · rfl

/-! ## More entries than numbers -/

/-- The words of a length over two letters, in their order. -/
def words : Nat → List (List UInt8)
  | 0 => [[]]
  | n + 1 => (words n).map (97 :: ·) ++ (words n).map (98 :: ·)

theorem length_words (n : Nat) : (words n).length = 2 ^ n := by
  induction n with
  | zero => rfl
  | succ n ih =>
    simp [words, ih]
    omega

theorem mem_words {w : List UInt8} (h : w ∈ words n) :
    w.length = n ∧ ∀ c ∈ w, c = 97 ∨ c = 98 := by
  induction n generalizing w with
  | zero =>
    simp [mem_singleton.mp h]
  | succ n ih =>
    rw [words, mem_append, mem_map, mem_map] at h
    rcases h with ⟨v, hv, rfl⟩ | ⟨v, hv, rfl⟩
    · obtain ⟨hlen, hletters⟩ := ih hv
      exact ⟨congrArg Nat.succ hlen, forall_mem_cons.mpr ⟨Or.inl rfl, hletters⟩⟩
    · obtain ⟨hlen, hletters⟩ := ih hv
      exact ⟨congrArg Nat.succ hlen, forall_mem_cons.mpr ⟨Or.inr rfl, hletters⟩⟩

/-- An earlier word has the first letter where a later one has the second. -/
theorem pairwise_words (n : Nat) :
    (words n).Pairwise fun v w => ∃ u s t, v = u ++ 97 :: s ∧ w = u ++ 98 :: t := by
  induction n with
  | zero => exact pairwise_singleton _ _
  | succ n ih =>
    have hcons : ∀ c : UInt8, ((words n).map (c :: ·)).Pairwise
        fun v w => ∃ u s t, v = u ++ 97 :: s ∧ w = u ++ 98 :: t := by
      intro c
      rw [pairwise_map]
      refine ih.imp ?_
      rintro v w ⟨u, s, t, rfl, rfl⟩
      exact ⟨c :: u, s, t, rfl, rfl⟩
    rw [words, pairwise_append]
    refine ⟨hcons 97, hcons 98, ?_⟩
    intro v hv w hw
    obtain ⟨s, -, rfl⟩ := mem_map.mp hv
    obtain ⟨t, -, rfl⟩ := mem_map.mp hw
    exact ⟨[], s, t, rfl, rfl⟩

def wordFiles (n : Nat) : List FileEntry := (words n).map emptyFile

theorem slash_not_mem_word {w : List UInt8} (h : w ∈ words n) : UnixPath.slash ∉ w := by
  intro hmem
  rcases (mem_words h).2 _ hmem with heq | heq <;> exact absurd heq (by decide)

theorem sorted_wordFiles (n : Nat) : CanonicallySorted (wordFiles n) := by
  unfold CanonicallySorted wordFiles
  rw [pairwise_map]
  refine (pairwise_words n).imp_of_mem ?_
  rintro v w hv hw ⟨u, s, t, hvu, hwu⟩ hgt
  have hfile : ∀ name, (emptyFile name).isDir = false := fun _ => by
    show decide (sIfreg &&& sIfmt = sIfdir) = false
    decide
  have hcmp : fNameCmp (emptyFile v) (emptyFile w) = compare (97 : UInt8) 98 :=
    fNameCmp_files (hfile v) (hfile w) (slash_not_mem_word hv) (slash_not_mem_word hw) hvu hwu (by decide)
  rw [hcmp] at hgt
  exact absurd hgt (by decide)

theorem incrementalList_wordFiles (hpos : 0 < n) (hn : n ≤ maxNameLen) :
    IncrementalList (plainProtocol 31 1) recursiveOptions (wordFiles n) := by
  have hname : ∀ e ∈ wordFiles n, ∃ w ∈ words n, emptyFile w = e := fun e he => mem_map.mp he
  constructor
  case wire => rfl
  case incremental => rfl
  case acls => rfl
  case xattrs => rfl
  case links => rfl
  case checksums =>
    intro e _ hsends
    exact absurd hsends Bool.false_ne_true
  case sorted => exact sorted_wordFiles n
  -- two words differ at a letter, where the one has a and the other b
  case distinct =>
    unfold wordFiles
    rw [map_map]
    have hid : ((fun e : FileEntry => e.name) ∘ emptyFile) = id := rfl
    rw [hid, map_id]
    refine (pairwise_words n).imp ?_
    rintro v w ⟨u, s, t, rfl, rfl⟩ heq
    have htail := append_cancel_left heq
    exact absurd (cons.inj htail).1 (by decide)
  case normalised =>
    intro e he
    obtain ⟨w, hw, rfl⟩ := hname e he
    refine Or.inr ?_
    show ∀ c ∈ UnixPath.segments w, _
    rw [UnixPath.segments_of_no_slash (slash_not_mem_word hw)]
    intro c hc
    obtain rfl := mem_singleton.mp hc
    obtain ⟨hlen, hletters⟩ := mem_words hw
    have hdot : UnixPath.dot ∉ c := by
      intro hmem
      rcases hletters _ hmem with heq | heq <;> exact absurd heq (by decide)
    refine ⟨slash_not_mem_word hw, ?_, ?_, ?_⟩
    · rintro rfl
      rw [length_nil] at hlen
      omega
    all_goals
      rintro rfl
      exact hdot mem_cons_self
  -- no name has a slash, so that every file is in the root
  case parents =>
    intro e he name hparent
    obtain ⟨w, hw, rfl⟩ := hname e he
    obtain ⟨base, hbase⟩ := eq_of_parentOf hparent
    have hbase' : w = name ++ UnixPath.slash :: base := hbase
    exact absurd (hbase' ▸ mem_append_right name mem_cons_self) (slash_not_mem_word hw)
  case valid =>
    intro e he
    obtain ⟨w, hw, rfl⟩ := hname e he
    refine valid_plainEntry sIfreg w none ?_
    rw [(mem_words hw).1]
    exact hn

theorem isI32_of_mem_setNdx {pairs : List (Nat × Int)} {ndx : List Int} (h : ∀ n ∈ ndx, IsI32 n) :
    ∀ n ∈ setNdx pairs ndx, IsI32 n := by
  induction pairs generalizing ndx with
  | nil => exact h
  | cons p pairs ih =>
    have hset : ∀ n ∈ ndx.set p.1 (toI32 p.2), IsI32 n := by
      intro n hn
      rcases mem_or_eq_of_mem_set hn with hn | rfl
      · exact h n hn
      · exact isI32_toI32 _
    exact ih hset

theorem isI32_of_mem_ndxAssignments :
    ∀ n ∈ ndxAssignments entries, IsI32 n := by
  have hone : toI32 1 = 1 := by decide
  unfold ndxAssignments
  nth_rewrite 1 [← hone]
  rw [assignNdx_eq]
  refine isI32_of_mem_setNdx fun n hn => ?_
  rw [eq_of_mem_replicate hn]
  decide

/-- There are no more different numbers than `i32`s. -/
theorem length_le_of_isI32 {ndx : List Int} (hnodup : ndx.Nodup) (h : ∀ n ∈ ndx, IsI32 n) :
    ndx.length ≤ 2 ^ 32 := by
  have hsub : ndx.toFinset ⊆ Finset.Ico (-2 ^ 31 : Int) (2 ^ 31) := by
    intro n hn
    exact Finset.mem_Ico.mpr (h n (mem_toFinset.mp hn))
  have hcard := Finset.card_le_card hsub
  rw [toFinset_card_of_nodup hnodup, Int.card_Ico] at hcard
  exact hcard

/-- Lists with more entries than there are numbers are not received as they were sent. -/
theorem length_le_of_incrementalRoundTrips {p : NegotiatedProtocol}
    (hinc : incrementalFlist p o = true) (h : IncrementalRoundTrips p o entries counts) :
    entries.length ≤ 2 ^ 32 := by
  obtain ⟨received, -, hnodup, order, hperm, -, hndx⟩ := h
  have hsent : (sendFileList p o entries).ndx = ndxAssignments entries := by
    simp [sendFileList, hinc]
  rw [hsent] at hndx
  have hlen : received.entryNdx.length = entries.length := by
    rw [← hndx.length_eq, hperm.length_eq, length_range]
  rw [← hlen]
  refine length_le_of_isI32 hnodup fun n hn => ?_
  obtain ⟨k, hk, rfl⟩ := mem_iff_getElem.mp hn
  have hk' : k < order.length := by
    rw [hndx.length_eq]
    exact hk
  exact isI32_of_mem_ndxAssignments _ (mem_of_getElem? (hndx.get hk' hk))

/-- The calls that send one list at a time. -/
def singleCalls (entries : List FileEntry) : List Nat := List.replicate (entries.length + 1) 1

theorem allListsSent_singleCalls {p : NegotiatedProtocol} (h : Listed entries) :
    AllListsSent p o entries (singleCalls entries) := by
  have hgroups := (listedTree h).length_le
  have hdirs : entries.countP FileEntry.isDir ≤ entries.length := countP_le_length
  refine allListsSent_of_counts (fun c hc => ?_) (cons_ne_nil _ _) ?_
  · rw [eq_of_mem_replicate hc]
  · simp [singleCalls]
    omega

theorem wordFiles_too_long (hlong : 32 < n) (hn : n ≤ maxNameLen) :
    IncrementalList (plainProtocol 31 1) recursiveOptions (wordFiles n) ∧
      AllListsSent (plainProtocol 31 1) recursiveOptions (wordFiles n) (singleCalls (wordFiles n)) ∧
      ¬ IncrementalRoundTrips (plainProtocol 31 1) recursiveOptions (wordFiles n)
        (singleCalls (wordFiles n)) := by
  have hlist := incrementalList_wordFiles (Nat.zero_lt_of_lt hlong) hn
  refine ⟨hlist, allListsSent_singleCalls hlist.listed, fun hround => ?_⟩
  have hle := length_le_of_incrementalRoundTrips hlist.incremental hround
  unfold wordFiles at hle
  rw [length_map, length_words] at hle
  exact absurd ((Nat.pow_lt_pow_right (by decide) hlong).trans_le hle) (Nat.lt_irrefl _)

/-- More files than there are numbers. -/
theorem incremental_list_too_long :
    IncrementalList (plainProtocol 31 1) recursiveOptions (wordFiles 33) ∧
      AllListsSent (plainProtocol 31 1) recursiveOptions (wordFiles 33) (singleCalls (wordFiles 33)) ∧
      ¬ IncrementalRoundTrips (plainProtocol 31 1) recursiveOptions (wordFiles 33)
        (singleCalls (wordFiles 33)) :=
  wordFiles_too_long (by decide) (by decide)

end Ferrosync
