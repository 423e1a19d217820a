import Ferrosync.Codec.Incremental

set_option autoImplicit false

/-! # Exchanging a file list

`send_file_list` and `recv_file_list`: the whole list at once, followed by the names of the owners
and groups, or incrementally.
-/

namespace Ferrosync

open ByteStream

/-! ## The lists of names -/

/-- The map from ids to names, in ascending order; a name that is there stays. -/
def insertName (id : Nat) (name : List UInt8) :
    List (Nat × List UInt8) → List (Nat × List UInt8)
  | [] => [(id, name)]
  | (k, n) :: rest =>
    if id < k then (id, name) :: (k, n) :: rest
    else if id = k then (k, n) :: rest
    else (k, n) :: insertName id name rest

/-- The first name of each id, from the entries that have one. -/
def idNames (ids : List (Nat × List UInt8)) : List (Nat × List UInt8) :=
  ids.foldl (fun names p => if p.2 = [] then names else insertName p.1 p.2 names) []

/-- A name behind its length, which is one byte. -/
def writeIdName (name : List UInt8) : List UInt8 :=
  UInt8.ofNat (min name.length 255) :: name.take (min name.length 255)

def rootName : List UInt8 := [114, 111, 111, 116]

/-- One list of `send_id_list`. -/
def sendIds (names : List (Nat × List UInt8)) (opts : FileListOptions) : List UInt8 :=
  ((names.filter fun p => p.1 ≠ 0).flatMap fun p =>
      writeVarint30 p.1 opts.wire.intCodec ++ writeIdName p.2) ++
    (writeVarint30 0 opts.wire.intCodec ++
      if opts.xmitId0Names then writeIdName ((names.lookup 0).getD rootName) else [])

def sendIdList (entries : List FileEntry) (opts : FileListOptions) : List UInt8 :=
  (if opts.preserveUid then sendIds (idNames (entries.map fun e => (e.uid, e.userName))) opts
    else []) ++
    (if opts.preserveGid then sendIds (idNames (entries.map fun e => (e.gid, e.groupName))) opts
      else [])

def recvIdName : Wire Unit := do
  let nameLen ← readByte
  let _ ← readExact unexpectedEof nameLen.toNat
  pure ()

def recvIdLoop (opts : FileListOptions) : Nat → Wire Unit
  | 0 => Reader.fail (.fault .diverged)
  | fuel + 1 => do
    let id ← readVarint30 opts.wire.intCodec
    if id = 0 then pure ()
    else do
      recvIdName
      recvIdLoop opts fuel

def recvId0Name (opts : FileListOptions) : Wire Unit :=
  if opts.xmitId0Names then recvIdName else pure ()

def recvIds (opts : FileListOptions) : Wire Unit := do
  fun input => recvIdLoop opts (input.length + 1) input
  recvId0Name opts

def recvUids (opts : FileListOptions) : Wire Unit :=
  if opts.preserveUid then recvIds opts else pure ()

def recvGids (opts : FileListOptions) : Wire Unit :=
  if opts.preserveGid then recvIds opts else pure ()

def recvIdList (opts : FileListOptions) : Wire Unit := do
  recvUids opts
  recvGids opts

/-! ## The whole list at once -/

def sendFileListBatch (entries : List FileEntry) (opts : FileListOptions) : List UInt8 :=
  (encodeEntries opts 0 entries .default).1 ++
    (encodeEndOfFlist 0 opts ++ if opts.wire.trailingIoError then writeInt 0 else [])

/-- The error count behind the end marker. -/
def recvIoError (opts : FileListOptions) : Wire Unit :=
  if opts.wire.trailingIoError then do
    let _ ← readInt
    pure ()
  else pure ()

def recvFileListBatch (opts : FileListOptions) : Wire (List FileEntry) := do
  let list ← recvEntries opts .default
  recvIoError opts
  pure list.1

/-- `(0..len as i32).collect()`. -/
def ndxRange (len : Nat) : List Int := (List.range (toI32 len).toNat).map Int.ofNat

/-! ## Both -/

/-- Whether the list is exchanged incrementally. -/
def incrementalFlist (p : NegotiatedProtocol) (o : TransferOptions) : Bool :=
  p.wire.supportsIncrementalFlist && o.recursive

/-- What `send_file_list` returns: the bytes written, the number of each entry, and the lists that
are left to send. -/
structure SentFileList where
  bytes : List UInt8
  ndx : List Int
  pending : Option PendingSubFlists

def sendFileList (p : NegotiatedProtocol) (o : TransferOptions) (entries : List FileEntry) :
    SentFileList :=
  let opts := FileListOptions.fromProtocol p o
  if incrementalFlist p o then
    let sent := sendFileListIncremental entries opts
    ⟨sent.1, ndxAssignments entries, sent.2⟩
  else
    ⟨sendFileListBatch entries opts ++ (if opts.numericIds then [] else sendIdList entries opts),
      ndxRange entries.length, none⟩

structure ReceivedFileList where
  entries : List FileEntry
  entryNdx : List Int
  ndxStart : Int
  numFlists : Nat
  deriving DecidableEq, Repr

def recvIdListIfSent (opts : FileListOptions) : Wire Unit :=
  if opts.numericIds then pure () else recvIdList opts

def recvFileList (p : NegotiatedProtocol) (o : TransferOptions) : Wire ReceivedFileList :=
  let opts := FileListOptions.fromProtocol p o
  if incrementalFlist p o then do
    let all ← recvFileListIncremental opts
    pure ⟨all.1.entries, all.1.entryNdx, all.2, all.1.numFlists⟩
  else do
    let entries ← recvFileListBatch opts
    recvIdListIfSent opts
    pure ⟨canonicalSort entries, ndxRange entries.length, 0, 1⟩

/-! ## The lists of names are read back -/

section Names

variable {opts : FileListOptions}

variable {p : Nat × List UInt8}

theorem mem_insertName {id : Nat} {name : List UInt8} :
    ∀ {names : List (Nat × List UInt8)}, p ∈ insertName id name names → p = (id, name) ∨ p ∈ names
  | [], h => Or.inl (List.mem_singleton.mp h)
  | (k, n) :: rest, h => by
    unfold insertName at h
    split_ifs at h
    · exact List.mem_cons.mp h
    · exact Or.inr h
    · rcases List.mem_cons.mp h with rfl | h
      · exact Or.inr List.mem_cons_self
      · rcases mem_insertName h with h | h
        · exact Or.inl h
        · exact Or.inr (List.mem_cons_of_mem _ h)

/-- The names come from the entries. -/
theorem mem_idNames {ids : List (Nat × List UInt8)} (h : p ∈ idNames ids) : p ∈ ids := by
  have hfold : ∀ (ids names : List (Nat × List UInt8)),
      p ∈ ids.foldl (fun names q => if q.2 = [] then names else insertName q.1 q.2 names) names →
        p ∈ names ∨ p ∈ ids := by
    intro ids
    induction ids with
    | nil => exact fun _ hp => Or.inl hp
    | cons q ids ih =>
      intro names hp
      rcases ih _ hp with hp | hp
      · dsimp only at hp
        split_ifs at hp
        · exact Or.inl hp
        · rcases mem_insertName hp with rfl | hp
          · exact Or.inr List.mem_cons_self
          · exact Or.inl hp
      · exact Or.inr (List.mem_cons_of_mem _ hp)
  exact (hfold ids [] h).resolve_left List.not_mem_nil

theorem reads_idName_unit (name : List UInt8) : Reads recvIdName (writeIdName name) () := by
  have hbyte : (UInt8.ofNat (min name.length 255)).toNat = min name.length 255 := by
    simp
  refine (reads_byte _).bind ?_
  refine (Reads.exact_of_length ?_).bind_nil (Reads.pure ())
  rw [List.length_take]
  omega

/-- The loop reads the ids up to the zero behind them. -/
theorem recvIdLoop_sent (names : List (Nat × List UInt8)) (h : ∀ p ∈ names, p.1 ≠ 0 ∧ p.1 < 2 ^ 32)
    (fuel : Nat) (hfuel : names.length < fuel) (rest : List UInt8) :
    recvIdLoop opts fuel
        ((names.flatMap fun p => writeVarint30 p.1 opts.wire.intCodec ++ writeIdName p.2) ++
          (writeVarint30 0 opts.wire.intCodec ++ rest)) = .ok ((), rest) := by
  induction names generalizing fuel with
  | nil =>
    obtain ⟨n, rfl⟩ : ∃ n, fuel = n + 1 := ⟨fuel - 1, by rw [List.length_nil] at hfuel; omega⟩
    refine (bind_ok (reads_varint30 (by decide) opts.wire.intCodec rest)).trans ?_
    rfl
  | cons p names ih =>
    obtain ⟨n, rfl⟩ : ∃ n, fuel = n + 1 := ⟨fuel - 1, by rw [List.length_cons] at hfuel; omega⟩
    rw [List.length_cons] at hfuel
    obtain ⟨hne, hlt⟩ := h p List.mem_cons_self
    rw [List.flatMap_cons, List.append_assoc, List.append_assoc]
    refine (bind_ok (reads_varint30 hlt opts.wire.intCodec _)).trans ?_
    rw [if_neg hne]
    refine (bind_ok (reads_idName_unit p.2 _)).trans ?_
    exact ih (fun q hq => h q (List.mem_cons_of_mem p hq)) n (by omega)

theorem reads_ids {names : List (Nat × List UInt8)} (h : ∀ p ∈ names, p.1 < 2 ^ 32) :
    Reads (recvIds opts) (sendIds names opts) () := by
  intro rest
  unfold recvIds sendIds
  rw [List.append_assoc, List.append_assoc]
  -- an id of 0 ends the list, and is therefore never part of it
  have hids : ∀ p ∈ names.filter fun p => p.1 ≠ 0, p.1 ≠ 0 ∧ p.1 < 2 ^ 32 := by
    intro p hp
    rw [List.mem_filter, decide_eq_true_eq] at hp
    exact ⟨hp.2, h p hp.1⟩
  -- an id takes at least a byte, so that the length of the input bounds the rounds
  have hfuel : ∀ l : List (Nat × List UInt8), l.length ≤
      (l.flatMap fun p => writeVarint30 p.1 opts.wire.intCodec ++ writeIdName p.2).length := by
    intro l
    induction l with
    | nil => exact Nat.le_refl 0
    | cons p l ih =>
      have hname : 1 ≤ (writeIdName p.2).length := Nat.le_add_left _ _
      rw [List.flatMap_cons, List.length_append, List.length_append, List.length_cons]
      omega
  have hlist := hfuel (names.filter fun p => p.1 ≠ 0)
  refine (bind_ok (recvIdLoop_sent _ hids _ ?_ _)).trans ?_
  · rw [List.length_append]
    omega
  · unfold recvId0Name
    split_ifs
    · exact reads_idName_unit _ rest
    · rfl

/-- The names of the owners and groups are read back. -/
theorem reads_idList {entries : List FileEntry} (huid : ∀ e ∈ entries, e.uid < 2 ^ 32)
    (hgid : ∀ e ∈ entries, e.gid < 2 ^ 32) :
    Reads (recvIdList opts) (sendIdList entries opts) () := by
  have huids : ∀ p ∈ idNames (entries.map fun e => (e.uid, e.userName)), p.1 < 2 ^ 32 := by
    intro p hp
    obtain ⟨e, he, rfl⟩ := List.mem_map.mp (mem_idNames hp)
    exact huid e he
  have hgids : ∀ p ∈ idNames (entries.map fun e => (e.gid, e.groupName)), p.1 < 2 ^ 32 := by
    intro p hp
    obtain ⟨e, he, rfl⟩ := List.mem_map.mp (mem_idNames hp)
    exact hgid e he
  have huidList : Reads (recvUids opts)
      (if opts.preserveUid then sendIds (idNames (entries.map fun e => (e.uid, e.userName))) opts
        else []) () := by
    unfold recvUids
    split_ifs
    · exact reads_ids huids
    · exact Reads.pure ()
  have hgidList : Reads (recvGids opts)
      (if opts.preserveGid then sendIds (idNames (entries.map fun e => (e.gid, e.groupName))) opts
        else []) () := by
    unfold recvGids
    split_ifs
    · exact reads_ids hgids
    · exact Reads.pure ()
  exact huidList.bind hgidList

end Names

theorem ndxRange_eq {len : Nat} (h : len < 2 ^ 31) : ndxRange len = (List.range len).map Int.ofNat := by
  unfold ndxRange
  rw [toI32_eq ⟨by omega, by omega⟩]
  rfl

variable {o : TransferOptions} {p : NegotiatedProtocol} {r : ReceivedFileList}

/-- A list received at once is numbered by its length. -/
theorem entryNdx_of_batch {input rest : List UInt8} (hbatch : incrementalFlist p o = false)
    (h : recvFileList p o input = .ok (r, rest)) : r.entryNdx = ndxRange r.entries.length := by
  unfold recvFileList at h
  simp only [hbatch] at h
  obtain ⟨entries, tail, -, h⟩ := bind_eq_ok h
  obtain ⟨-, tail', -, h⟩ := bind_eq_ok h
  obtain ⟨rfl, -⟩ := pure_eq_ok h
  have hlen : (canonicalSort entries).length = entries.length := List.length_mergeSort entries
  rw [hlen]

/-- What holds of every entry a decoder returns holds of every entry of a list received at once. -/
theorem recvFileList_forall {P : FileEntry → Prop}
    (hP : ∀ {prev st input d st' rest}, decodeEntry (FileListOptions.fromProtocol p o) prev st input =
      .ok ((.entry d, st'), rest) → P d) {input rest : List UInt8}
    (hbatch : incrementalFlist p o = false) (h : recvFileList p o input = .ok (r, rest)) :
    ∀ e ∈ r.entries, P e := by
  unfold recvFileList at h
  simp only [hbatch] at h
  obtain ⟨entries, tail, hentries, h⟩ := bind_eq_ok h
  obtain ⟨-, tail', -, h⟩ := bind_eq_ok h
  obtain ⟨rfl, -⟩ := pure_eq_ok h
  obtain ⟨list, tail₁, hlist, hentries⟩ := bind_eq_ok hentries
  obtain ⟨-, tail₂, -, hentries⟩ := bind_eq_ok hentries
  obtain ⟨rfl, -⟩ := pure_eq_ok hentries
  intro e he
  exact recvEntries_forall hP hlist e (List.mem_mergeSort.mp he)

end Ferrosync
