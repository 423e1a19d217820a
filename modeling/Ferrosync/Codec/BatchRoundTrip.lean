import Ferrosync.Codec.Exchange

set_option autoImplicit false

/-! # The round trip of a whole file list

Without incremental recursion a list is sent at once. From version 28 on, it is received as it was
sent (`file_list_round_trip`), as long as its entries can be counted by an `i32`.

In version 27 the flags of an entry are one byte, which has no room for the flags of hard links:
the encoder abbreviates the later members of a group, and the decoder cannot tell. A list is
received as it was sent exactly if it has no such members (`oldest_file_list_round_trip`).
-/

namespace Ferrosync

open ByteStream List

variable {opts : FileListOptions} {entries received : List FileEntry}

/-! ## Wire formats -/

theorem WireFormat.flagsFit_new {version compatFlags : Nat} (h : 28 ≤ version) :
    (WireFormat.new version compatFlags).FlagsFit where
  byte := by
    intro hbyte
    simp only [WireFormat.new] at hbyte
    split_ifs at hbyte
  wide := by
    simp [WireFormat.new]
    omega
  inline := by
    simp [WireFormat.new, decide_eq_true_eq]

theorem WireFormat.flagsCodec_new {version compatFlags : Nat} (h : 28 ≤ version) :
    (WireFormat.new version compatFlags).flagsCodec ≠ .byte := by
  simp only [WireFormat.new]
  split_ifs <;> exact FlagsCodec.noConfusion

theorem WireFormat.flagsFit_oldest : (WireFormat.new 27 0).FlagsFit where
  byte := fun _ => ⟨rfl, rfl, rfl⟩
  wide := fun h => absurd rfl h
  inline := fun h => absurd h Bool.false_ne_true

/-! ## A list sent at once -/

/-- Nothing has been sent before a list that is sent at once. -/
theorem Lockstep.batch (opts : FileListOptions) :
    Lockstep opts [] ⟨.default, []⟩ 0 [] [] .default .default where
  synced := Synced.default
  ndxStart := rfl
  links := LinksOf.nil
  tables := ⟨rfl, rfl, rfl⟩
  access_le := Nat.le_refl 0
  dflt_le := Nat.le_refl 0
  xattrs_le := Nat.le_refl 0
  entries := .nil
  sources := fun _ _ _ h => absurd h (by simp)

/-- What is received of a list: the transmitted fields, and where each hard link points to. -/
structure ListArrives (opts : FileListOptions) (entries received : List FileEntry) : Prop where
  fields : List.Forall₂ (Transmitted opts) entries received
  sources : ∀ (i : Nat) (e d : FileEntry), entries[i]? = some e → received[i]? = some d →
    d.hlinkSource = linkSource opts (entries.take i) e

theorem ListArrives.sorted (h : ListArrives opts entries received)
    (hsorted : CanonicallySorted entries) :
    CanonicallySorted received := by
  refine hsorted.of_forall₂ (h.fields.imp fun e d ht => ⟨ht.name.symm, ?_⟩)
  unfold FileEntry.isDir
  rw [ht.mode]

theorem ListArrives.transmitted (h : ListArrives opts entries received) {i : Nat} {e d : FileEntry}
    (he : entries[i]? = some e) (hd : received[i]? = some d) : Transmitted opts e d := by
  obtain ⟨h₁, rfl⟩ := List.getElem?_eq_some_iff.mp he
  obtain ⟨h₂, rfl⟩ := List.getElem?_eq_some_iff.mp hd
  exact h.fields.get h₁ h₂

section Batch

variable {opts : FileListOptions} {entries : List FileEntry}

/-- A list whose references can be resolved is received. -/
theorem reads_batch (hwire : opts.wire.FlagsFit) (hvalid : ∀ e ∈ entries, Valid opts e)
    (hagree : LinksAgree opts entries)
    (hres : Resolvable opts [] ⟨.default, []⟩ 0 [] .default entries)
    (hlen : entries.length < 2 ^ 31) :
    ∃ received, Reads (recvFileListBatch opts) (sendFileListBatch entries opts) received ∧
      ListArrives opts entries received := by
  obtain ⟨ds, dec, hreads, hlock, -⟩ := reads_recvEntries hwire (fun _ _ _ _ => True)
    (fun _ _ _ => trivial) (Int.le_refl 0) (Lockstep.batch opts) trivial hvalid hagree hres
    (by omega) (by rw [length_nil]; omega)
  have hio : Reads (recvIoError opts) (if opts.wire.trailingIoError then writeInt 0 else []) () := by
    unfold recvIoError
    split_ifs
    · exact (reads_int (by decide)).bind_nil (Reads.pure ())
    · exact Reads.pure ()
  refine ⟨ds, ?_, hlock.entries, hlock.sources⟩
  unfold recvFileListBatch sendFileListBatch
  rw [← append_assoc]
  exact hreads.bind (hio.bind_nil (Reads.pure ds))

end Batch

/-! ## From version 28 on -/

/-- A list is received as it was sent, entry `i` has the number `i` on both sides, and nothing
behind it is read. -/
def FileListRoundTrips (p : NegotiatedProtocol) (o : TransferOptions) (entries : List FileEntry) :
    Prop :=
  ∃ received : ReceivedFileList,
    Reads (recvFileList p o) (sendFileList p o entries).bytes received ∧
    ListArrives (FileListOptions.fromProtocol p o) entries received.entries ∧
    (∀ (i : Nat) (e d : FileEntry), entries[i]? = some e → received.entries[i]? = some d →
      sendsChecksum e.mode (FileListOptions.fromProtocol p o) = true → d.checksum = e.checksum) ∧
    received.entryNdx = (List.range entries.length).map Int.ofNat ∧
    (sendFileList p o entries).ndx = (List.range entries.length).map Int.ofNat

/-- The lists that are sent at once: in canonical order, with every field within its bound, and with
the members of a hard link group as names of one file. -/
structure BatchList (p : NegotiatedProtocol) (o : TransferOptions) (entries : List FileEntry) :
    Prop where
  wire : p.wire = WireFormat.new p.version p.compatFlags
  batch : incrementalFlist p o = false
  sorted : CanonicallySorted entries
  valid : ∀ e ∈ entries, Valid (FileListOptions.fromProtocol p o) e
  agree : LinksAgree (FileListOptions.fromProtocol p o) entries

section RoundTrip

variable {p : NegotiatedProtocol} {o : TransferOptions} {entries : List FileEntry}

/-- What `send_file_list` writes is read by `recv_file_list` if the entries are. -/
theorem BatchList.reads (h : BatchList p o entries)
    (hreads : Reads (recvFileListBatch (FileListOptions.fromProtocol p o))
      (sendFileListBatch entries (FileListOptions.fromProtocol p o)) received)
    (harrives : ListArrives (FileListOptions.fromProtocol p o) entries received) :
    Reads (recvFileList p o) (sendFileList p o entries).bytes
      ⟨received, ndxRange entries.length, 0, 1⟩ := by
  have hids : Reads (recvIdListIfSent (FileListOptions.fromProtocol p o))
      (if (FileListOptions.fromProtocol p o).numericIds then []
        else sendIdList entries (FileListOptions.fromProtocol p o)) () := by
    unfold recvIdListIfSent
    split_ifs
    · exact Reads.pure ()
    · exact reads_idList (fun e he => (h.valid e he).sendable.uid)
        (fun e he => (h.valid e he).sendable.gid)
  unfold recvFileList sendFileList
  simp only [h.batch]
  refine hreads.bind (hids.bind_nil ?_)
  rw [canonicalSort_of_sorted (harrives.sorted h.sorted), ← harrives.fields.length_eq]
  exact Reads.pure _

/-- **Round trip of a whole file list.** From version 28 on, a list of fewer than `2 ^ 31` entries
is received as it was sent. -/
theorem file_list_round_trip (h : BatchList p o entries) (hversion : 28 ≤ p.version)
    (hsum : ∀ e ∈ entries, sendsChecksum e.mode (FileListOptions.fromProtocol p o) = true →
      e.checksum.length = p.checksum.digestLen)
    (hlen : entries.length < 2 ^ 31) : FileListRoundTrips p o entries := by
  have hwire : (FileListOptions.fromProtocol p o).wire = WireFormat.new p.version p.compatFlags :=
    h.wire
  have hfit : (FileListOptions.fromProtocol p o).wire.FlagsFit := by
    rw [hwire]
    exact WireFormat.flagsFit_new hversion
  have hbyte : (FileListOptions.fromProtocol p o).wire.flagsCodec ≠ .byte := by
    rw [hwire]
    exact WireFormat.flagsCodec_new hversion
  -- there are no other lists: every reference is to an entry of this one
  have hres : Resolvable (FileListOptions.fromProtocol p o) [] ⟨.default, []⟩ 0 [] .default entries :=
    resolvable_alone entries [] _ fun hb => absurd hb hbyte
  obtain ⟨received, hreads, harrives⟩ := reads_batch hfit h.valid h.agree hres hlen
  have hndx := ndxRange_eq hlen
  refine ⟨⟨received, ndxRange entries.length, 0, 1⟩, h.reads hreads harrives, harrives, ?_, ?_, ?_⟩
  -- a digest is padded to the negotiated length, and comes back if it has that length
  · intro i e d he hd hsends
    rw [(harrives.transmitted he hd).checksum, hsends]
    exact paddedChecksum_eq (hsum e (mem_of_getElem? he) hsends)
  · rw [hndx]
  · simp [sendFileList, h.batch, hndx]

end RoundTrip

/-! ## Examples of lists -/

def plainProtocol (version compatFlags : Nat) : NegotiatedProtocol where
  version := version
  compatFlags := compatFlags
  checksum := .md5
  compress := .none
  properSeedOrder := true
  seed := 0
  wire := WireFormat.new version compatFlags

/-- An entry with nothing but a name, a mode and perhaps links. -/
def plainEntry (mode : UInt32) (name : List UInt8) (info : Option HardLinkInfo) : FileEntry :=
  { FileEntry.default with name := name, mode := mode, hardLinkInfo := info }

def emptyFile (name : List UInt8) : FileEntry := plainEntry sIfreg name none

def linkedFile (name : List UInt8) (ino : Nat) : FileEntry :=
  plainEntry sIfreg name (some ⟨0, ino, 2⟩)

theorem valid_plainEntry (mode : UInt32) (name : List UInt8) (info : Option HardLinkInfo)
    (hname : name.length ≤ maxNameLen) :
    Valid opts (plainEntry mode name info) where
  sendable :=
    { name := hname
      len := by
        show (-2 ^ 63 : Int) ≤ 0 ∧ (0 : Int) < 2 ^ 63
        decide
      compactLen := by
        show _ → (0 : Int) ≤ 0 ∧ (0 : Int) < 2 ^ 58
        exact fun _ => by decide
      mtime := by
        show TimeFits 0 opts
        unfold TimeFits
        split_ifs <;> decide
      mtimeNsec := by show 0 < 2 ^ 32; decide
      uid := by show 0 < 2 ^ 32; decide
      gid := by show 0 < 2 ^ 32; decide
      userName := fun _ => Nat.zero_le _
      groupName := fun _ => Nat.zero_le _
      rdev := by
        show _ → RdevFits 0 opts
        unfold RdevFits
        split_ifs <;> exact fun _ => by decide
      linkTarget := fun _ => Nat.zero_le _ }
  attrs :=
    { access := fun _ => PosixAclEntries.fits_default
      dflt := fun _ => PosixAclEntries.fits_default
      xattrs := fun _ => ExtendedAttributes.fits_empty }
  rdev := fun h => absurd rfl h

/-- Files without links have nothing to agree on. -/
theorem linksAgree_of_none (h : ∀ e ∈ entries, linkKey opts e = none) : LinksAgree opts entries :=
  fun a ha _ _ hne => absurd (h a ha) hne

/-- A list with as many entries as an `i32` has negative values is received without numbers. -/
theorem file_list_too_long :
    BatchList (plainProtocol 31 0) .default (List.replicate (2 ^ 31) (emptyFile [97])) ∧
      ¬ FileListRoundTrips (plainProtocol 31 0) .default
        (List.replicate (2 ^ 31) (emptyFile [97])) := by
  constructor
  · constructor
    case wire => rfl
    case batch => rfl
    case sorted => exact pairwise_replicate.mpr (Or.inr (by decide))
    case valid =>
      intro e he
      rw [eq_of_mem_replicate he]
      exact valid_plainEntry _ [97] none (by decide)
    case agree =>
      refine linksAgree_of_none fun e he => ?_
      rfl
  -- the count is a negative `i32`, and the range up to it is empty
  · rintro ⟨received, hreads, harrives, -, hndx, -⟩
    have hlen := harrives.fields.length_eq
    rw [length_replicate] at hlen
    have hnumbered := entryNdx_of_batch rfl (hreads [])
    rw [← hlen] at hnumbered
    have hcount := congrArg length (hnumbered.symm.trans hndx)
    rw [length_map, length_range, length_replicate] at hcount
    exact absurd hcount (by decide)

theorem linksAgree_pair (opts : FileListOptions) (a b : List UInt8) (ino : Nat) :
    LinksAgree opts [linkedFile a ino, linkedFile b ino] := by
  intro x hx y hy _ _
  have hmem : ∀ e ∈ [linkedFile a ino, linkedFile b ino], ∃ name, e = linkedFile name ino := by
    intro e he
    rcases mem_cons.mp he with rfl | he
    · exact ⟨a, rfl⟩
    · exact ⟨b, mem_singleton.mp he⟩
  obtain ⟨m, rfl⟩ := hmem x hx
  obtain ⟨n, rfl⟩ := hmem y hy
  exact ⟨n, 0, none, rfl⟩

def linkOptions : TransferOptions := { TransferOptions.default with preserveHardLinks := true }

/-- Two names of one file are received. -/
theorem file_list_round_trip_links :
    FileListRoundTrips (plainProtocol 31 0) linkOptions [linkedFile [97] 7, linkedFile [98] 7] := by
  refine file_list_round_trip ?_ (by decide) ?_ (by decide)
  · constructor
    case wire => rfl
    case batch => rfl
    case sorted => decide
    case valid =>
      intro e he
      rcases mem_cons.mp he with rfl | he
      · exact valid_plainEntry _ [97] _ (by decide)
      · rw [mem_singleton.mp he]
        exact valid_plainEntry _ [98] _ (by decide)
    case agree => exact linksAgree_pair _ [97] [98] 7
  · intro e _ hsends
    exact absurd hsends Bool.false_ne_true

/-! ## Version 27 -/

/-- The files and directories version 27 can send. -/
structure OldestEntry (opts : FileListOptions) (e : FileEntry) : Prop where
  kind : e.isFile = true ∨ e.isDir = true
  len : 0 ≤ e.len ∧ e.len < 2 ^ 63
  mtime : 0 ≤ e.mtime ∧ e.mtime < 2 ^ 31
  mtimeNsec : e.mtimeNsec < 2 ^ 32
  uid : e.uid < 2 ^ 32
  gid : e.gid < 2 ^ 32
  rdev : e.rdev = 0
  attrs : AttrsFit opts e

/-- Lists with hard links at version 27, in which the flags of an entry are one byte. -/
structure OldestList (p : NegotiatedProtocol) (o : TransferOptions) (entries : List FileEntry) :
    Prop where
  version : p.version = 27
  compatFlags : p.compatFlags = 0
  wire : p.wire = WireFormat.new p.version p.compatFlags
  links : o.preserveHardLinks = true
  sorted : CanonicallySorted entries
  files : ∀ e ∈ entries, OldestEntry (FileListOptions.fromProtocol p o) e
  agree : LinksAgree (FileListOptions.fromProtocol p o) entries

/-- Every entry is received with its name, length, time and mode, every later member of a hard
link group points to the first, and nothing behind the list is read. -/
def OldestRoundTrips (p : NegotiatedProtocol) (o : TransferOptions) (entries : List FileEntry) :
    Prop :=
  ∃ received : ReceivedFileList,
    Reads (recvFileList p o) (sendFileList p o entries).bytes received ∧
    List.Forall₂ (fun e d : FileEntry =>
      d.name = e.name ∧ d.len = e.len ∧ d.mtime = e.mtime ∧ d.mode = e.mode)
      entries received.entries ∧
    ∀ (i : Nat) (e d : FileEntry), entries[i]? = some e → received.entries[i]? = some d →
      d.hlinkSource = linkSource (FileListOptions.fromProtocol p o) (entries.take i) e

section Oldest

variable {p : NegotiatedProtocol} {o : TransferOptions} {entries : List FileEntry}

theorem OldestEntry.valid {e : FileEntry} (h : OldestEntry opts e)
    (hwire : opts.wire = WireFormat.new 27 0) (hname : e.name.length ≤ maxNameLen) :
    Valid opts e := by
  -- the bounds are those of version 27, which sends every number with its full width
  have hcodec : opts.wire.intCodec = .fixed := by rw [hwire]; rfl
  have hinline : opts.wire.hasInlineNames = false := by rw [hwire]; rfl
  have hmode : e.mode &&& sIfmt = sIfreg ∨ e.mode &&& sIfmt = sIfdir := by
    rcases h.kind with hfile | hdir
    · exact Or.inl (of_decide_eq_true hfile)
    · exact Or.inr (of_decide_eq_true hdir)
  have hfits : RdevFits 0 opts := by
    unfold RdevFits
    split_ifs <;> decide
  obtain ⟨hlen₀, hlen⟩ := h.len
  obtain ⟨htime₀, htime⟩ := h.mtime
  refine ⟨⟨hname, ⟨by omega, hlen⟩, ?_, ?_, h.mtimeNsec, h.uid, h.gid, ?_, ?_, ?_, ?_⟩, h.attrs, ?_⟩
  · intro hc
    exact absurd hc (by rw [hcodec]; exact IntCodec.noConfusion)
  · unfold TimeFits
    rw [hcodec]
    exact ⟨by omega, htime⟩
  · exact fun hc => absurd hc (by rw [hinline]; exact Bool.false_ne_true)
  · exact fun hc => absurd hc (by rw [hinline]; exact Bool.false_ne_true)
  · intro _
    rw [h.rdev]
    exact hfits
  · intro hsends
    unfold sendsTarget at hsends
    rw [Bool.and_eq_true, decide_eq_true_eq] at hsends
    rcases hmode with hm | hm
    all_goals exact absurd (hm.symm.trans hsends.1) (by decide)
  · exact fun hne => absurd h.rdev hne

theorem OldestList.wire_eq (h : OldestList p o entries) :
    (FileListOptions.fromProtocol p o).wire = WireFormat.new 27 0 := by
  show p.wire = _
  rw [h.wire, h.version, h.compatFlags]

theorem OldestList.batch (h : OldestList p o entries) : incrementalFlist p o = false := by
  unfold incrementalFlist
  rw [h.wire, h.version]
  rfl

/-- A list with a later member of a group, or with a name that is too long, is not received. -/
theorem oldest_necessary (h : OldestList p o entries) (hround : OldestRoundTrips p o entries) :
    (∀ e ∈ entries, e.name.length ≤ maxNameLen) ∧
      ∀ (i : Nat) (e : FileEntry), entries[i]? = some e →
        linkSource (FileListOptions.fromProtocol p o) (entries.take i) e = none := by
  obtain ⟨received, hreads, hfields, hsources⟩ := hround
  have hbyte : (FileListOptions.fromProtocol p o).wire.flagsCodec = .byte := by
    rw [h.wire_eq]
    rfl
  have hlen := hfields.length_eq
  have hget : ∀ (i : Nat) (e : FileEntry), entries[i]? = some e →
      ∃ d ∈ received.entries, received.entries[i]? = some d ∧ d.name = e.name := by
    intro i e he
    obtain ⟨hi, rfl⟩ := List.getElem?_eq_some_iff.mp he
    have hi' : i < received.entries.length := hlen ▸ hi
    exact ⟨_, getElem_mem hi', getElem?_eq_getElem hi', (hfields.get hi hi').1⟩
  -- Both conditions hold of every entry that the decoder returns: it refuses a long name, and it
  -- does not see the flag of a hard link in a single byte.
  constructor
  · intro e he
    obtain ⟨i, hi, rfl⟩ := mem_iff_getElem.mp he
    obtain ⟨d, hd, -, hname⟩ := hget i _ (getElem?_eq_getElem hi)
    rw [← hname]
    refine recvFileList_forall (P := fun d => d.name.length ≤ maxNameLen) (fun hdec => ?_) h.batch
      (hreads []) d hd
    obtain ⟨-, -, -, hle, -⟩ := decodeEntry_inv hdec
    exact hle
  · intro i e he
    obtain ⟨d, hd, hdi, -⟩ := hget i e he
    rw [← hsources i e d he hdi]
    exact recvFileList_forall (hlinkSource_of_byte hbyte) h.batch (hreads []) d hd

/-- **Hard links in version 27.** A list is received as it was sent only if its names are not too
long and it has no later members of hard link groups; and such a list, if its entries can be
counted, is. -/
theorem oldest_file_list_round_trip (h : OldestList p o entries) :
    (OldestRoundTrips p o entries → (∀ e ∈ entries, e.name.length ≤ maxNameLen) ∧
      ∀ (i : Nat) (e : FileEntry), entries[i]? = some e →
        linkSource (FileListOptions.fromProtocol p o) (entries.take i) e = none) ∧
    ((∀ e ∈ entries, e.name.length ≤ maxNameLen) →
      (∀ (i : Nat) (e : FileEntry), entries[i]? = some e →
        linkSource (FileListOptions.fromProtocol p o) (entries.take i) e = none) →
      entries.length < 2 ^ 31 → OldestRoundTrips p o entries) := by
  refine ⟨oldest_necessary h, fun hnames hlinks hlen => ?_⟩
  have hvalid : ∀ e ∈ entries, Valid (FileListOptions.fromProtocol p o) e := fun e he =>
    (h.files e he).valid h.wire_eq (hnames e he)
  have hfit : (FileListOptions.fromProtocol p o).wire.FlagsFit := by
    rw [h.wire_eq]
    exact WireFormat.flagsFit_oldest
  -- a back reference would be read as fields of the entry; without later members there is none
  have hres : Resolvable (FileListOptions.fromProtocol p o) [] ⟨.default, []⟩ 0 [] .default entries :=
    resolvable_alone entries [] _ fun _ => hlinks
  obtain ⟨received, hreads, harrives⟩ := reads_batch hfit hvalid h.agree hres hlen
  have hbatch : BatchList p o entries := ⟨h.wire, h.batch, h.sorted, hvalid, h.agree⟩
  refine ⟨_, hbatch.reads hreads harrives, ?_, harrives.sources⟩
  exact harrives.fields.imp fun e d ht => ⟨ht.name, ht.len, ht.mtime, ht.mode⟩

theorem oldestEntry_linkedFile (opts : FileListOptions) (name : List UInt8) (ino : Nat) :
    OldestEntry opts (linkedFile name ino) where
  kind := by
    show decide (sIfreg &&& sIfmt = sIfreg) = true ∨ _
    exact Or.inl (by decide)
  len := by
    show (0 : Int) ≤ 0 ∧ (0 : Int) < 2 ^ 63
    decide
  mtime := by
    show (0 : Int) ≤ 0 ∧ (0 : Int) < 2 ^ 31
    decide
  mtimeNsec := by show 0 < 2 ^ 32; decide
  uid := by show 0 < 2 ^ 32; decide
  gid := by show 0 < 2 ^ 32; decide
  rdev := rfl
  attrs := ⟨fun _ => PosixAclEntries.fits_default, fun _ => PosixAclEntries.fits_default,
    fun _ => ExtendedAttributes.fits_empty⟩

/-- Two files with links elsewhere are received. -/
theorem oldest_file_list_round_trip_apart :
    OldestRoundTrips (plainProtocol 27 0) linkOptions [linkedFile [97] 7, linkedFile [98] 8] := by
  refine (oldest_file_list_round_trip ?_).2 ?_ ?_ (by decide)
  · refine ⟨rfl, rfl, rfl, rfl, by decide, ?_, ?_⟩
    · intro e he
      rcases mem_pair.mp he with rfl | rfl
      · exact oldestEntry_linkedFile _ [97] 7
      · exact oldestEntry_linkedFile _ [98] 8
    · intro a ha b hb _ hkey
      rcases mem_pair.mp ha with rfl | rfl <;> rcases mem_pair.mp hb with rfl | rfl
      · exact ⟨_, _, _, rfl⟩
      · exact absurd hkey (by decide)
      · exact absurd hkey (by decide)
      · exact ⟨_, _, _, rfl⟩
  · intro e he
    rcases mem_pair.mp he with rfl | rfl <;> decide
  · intro i e he
    have hlt : i < 2 := (List.getElem?_eq_some_iff.mp he).1
    obtain rfl | rfl : i = 0 ∨ i = 1 := by omega
    · obtain rfl := Option.some.inj he
      decide
    · obtain rfl := Option.some.inj he
      decide

/-- Two names of one file are not. -/
theorem oldest_links_lost :
    OldestList (plainProtocol 27 0) linkOptions [linkedFile [97] 7, linkedFile [98] 7] ∧
      ¬ OldestRoundTrips (plainProtocol 27 0) linkOptions
        [linkedFile [97] 7, linkedFile [98] 7] := by
  have hlist : OldestList (plainProtocol 27 0) linkOptions
      [linkedFile [97] 7, linkedFile [98] 7] := by
    refine ⟨rfl, rfl, rfl, rfl, by decide, ?_, linksAgree_pair _ [97] [98] 7⟩
    intro e he
    rcases mem_cons.mp he with rfl | he
    · exact oldestEntry_linkedFile _ [97] 7
    · rw [mem_singleton.mp he]
      exact oldestEntry_linkedFile _ [98] 7
  refine ⟨hlist, fun hround => ?_⟩
  have hnone := (oldest_necessary hlist hround).2 1 _ rfl
  exact absurd hnone (by decide)

end Oldest

end Ferrosync
