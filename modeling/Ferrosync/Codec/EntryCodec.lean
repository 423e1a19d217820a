import Ferrosync.Codec.Attributes
import Ferrosync.Codec.Fields

set_option autoImplicit false

/-! # Encoding and decoding one entry

`encode_entry` and `decode_entry`. Both thread a state: the fields of the last entry, the tables
of attributes and, for the encoder, the first index of each hard link group.

* `Supplies`: the decoder's state has what the flags leave out;
* `reads_entry`: then an entry is read back as `receivedEntry`;
* `decodeEntry_duplicate`: a later member of a hard link group, which is sent as a name and the
  index of the first member.
-/

namespace Ferrosync

open ByteStream

/-! ## Hard links -/

/-- The table of `HardLinkEncoder`: device and inode, with the index of the first member. -/
abbrev LinkTable := List ((Nat × Nat) × Int)

def LinkTable.check (seen : LinkTable) (info : HardLinkInfo) (index : Int) :
    HardLinkAction × LinkTable :=
  if info.nlink ≤ 1 then (.notHardLinked, seen)
  else
    match seen.lookup (info.dev, info.ino) with
    | some firstIndex => (.duplicateOf firstIndex, seen)
    | none => (.firstOccurrence, ((info.dev, info.ino), index) :: seen)

def resolveHlinkAction (opts : FileListOptions) (info : Option HardLinkInfo) (seen : LinkTable)
    (index : Int) : HardLinkAction × LinkTable :=
  if opts.preserveHardLinks then
    match info with
    | some info => seen.check info index
    | none => (.notHardLinked, seen)
  else (.notHardLinked, seen)

def encodeHlink (firstIndex : Int) : List UInt8 := writeVarint (firstIndex % 2 ^ 32).toNat

def linkedEntry (first : FileEntry) (name : List UInt8) (f : Nat) : FileEntry :=
  { first with hlinkSource := some first.name, name := name, flags := f }

/-- `prev_entries.get(local_idx)`, where the index counts from the start of the list. A negative
index is huge as a `usize`. -/
def linkTarget? (prev : List FileEntry) (localIdx : Int) : Option FileEntry :=
  if localIdx < 0 then none else prev[localIdx.toNat]?

/-- `decode_hlink`: the entry of a later member whose first member is in the list. -/
def decodeHlink (f : Nat) (opts : FileListOptions) (prev : List FileEntry) (name : List UInt8)
    (delta : DeltaState) : Wire (Option FileEntry) :=
  if !opts.preserveHardLinks || !f.testBit 9 || f.testBit 12 then pure none
  else do
    let firstNdx ← readVarint
    -- the subtraction of two `i32`
    if ¬ IsI32 (toI32 firstNdx - delta.ndxStart) then Reader.fail (.fault .panic)
    else
      pure ((linkTarget? prev (toI32 firstNdx - delta.ndxStart)).map fun first =>
        linkedEntry first name f)

/-! ## The encoder -/

/-- What `encode_entry` threads through. -/
structure EncoderState where
  delta : DeltaState
  links : LinkTable
  acls : AclTables
  xattrs : List ExtendedAttributes
  deriving DecidableEq, Repr

def EncoderState.default : EncoderState := ⟨.default, [], .default, []⟩

/-- `visit_acl` of the encoder. -/
def encodeAclField (e : FileEntry) (opts : FileListOptions) (acls : AclTables) :
    List UInt8 × AclTables :=
  if opts.preserveAcls && !e.isSymlink then encodeAcl e.acl e.mode acls else ([], acls)

/-- `visit_xattr` of the encoder. -/
def encodeXattrField (e : FileEntry) (opts : FileListOptions) (seen : List ExtendedAttributes) :
    List UInt8 × List ExtendedAttributes :=
  if opts.preserveXattrs then encodeXattrs e.xattrs seen else ([], seen)

/-- `traverse_fields` of the encoder, up to the attributes. -/
def encodeMetadata (e : FileEntry) (f : Nat) (opts : FileListOptions) : List UInt8 :=
  encodeFileLength e.len opts ++ (encodeMtime e.mtime f opts ++
    (encodeMtimeNsec e.mtimeNsec f opts ++ (encodeMode e.mode f ++
      (encodeUid e.uid e.userName f opts ++ (encodeGid e.gid e.groupName f opts ++
        (encodeRdev e.mode e.rdev f opts ++ (encodeSymlink e.mode e.linkTarget opts ++
          encodeChecksum e.mode e.checksum opts)))))))

/-- The flags and the name, with which every entry starts. -/
def encodeHead (e : FileEntry) (delta : DeltaState) (opts : FileListOptions)
    (action : HardLinkAction) : List UInt8 :=
  let f := computeXmitFlags e delta opts action
  encodeXmitFlags f opts ++ encodeFilename e.name delta f opts

/-- The fields behind the name of an entry that is sent in full. -/
def encodeFields (e : FileEntry) (st : EncoderState) (opts : FileListOptions)
    (action : HardLinkAction) : List UInt8 :=
  encodeMetadata e (computeXmitFlags e st.delta opts action) opts ++
    ((encodeAclField e opts st.acls).1 ++ (encodeXattrField e opts st.xattrs).1)

def encodeEntry (e : FileEntry) (st : EncoderState) (opts : FileListOptions) (index : Int) :
    List UInt8 × EncoderState :=
  let link := resolveHlinkAction opts e.linkInfo st.links index
  match link.1 with
  | .duplicateOf firstIndex =>
    (encodeHead e st.delta opts link.1 ++ encodeHlink firstIndex,
      { st with delta := st.delta.update e, links := link.2 })
  | _ =>
    (encodeHead e st.delta opts link.1 ++ encodeFields e st opts link.1,
      ⟨st.delta.update e, link.2, (encodeAclField e opts st.acls).2,
        (encodeXattrField e opts st.xattrs).2⟩)

/-! ## The decoder -/

structure DecoderState where
  delta : DeltaState
  acls : AclTables
  xattrs : List ExtendedAttributes
  deriving DecidableEq, Repr

def DecoderState.default : DecoderState := ⟨.default, .default, []⟩

inductive ReadEntryResult where
  | entry (e : FileEntry)
  | endOfList (ioError : Int)
  deriving DecidableEq, Repr

/-- `visit_acl` of the decoder. -/
def decodeAclField (mode : UInt32) (opts : FileListOptions) (acls : AclTables) :
    Wire (Option PosixAcl × AclTables) :=
  if opts.preserveAcls && mode &&& sIfmt ≠ sIflnk then decodeAcl mode acls else pure (none, acls)

/-- `visit_xattr` of the decoder. -/
def decodeXattrField (opts : FileListOptions) (seen : List ExtendedAttributes) :
    Wire (Option ExtendedAttributes × List ExtendedAttributes) :=
  if opts.preserveXattrs then decodeXattrs seen else pure (none, seen)

/-- `traverse_fields` of the decoder and `into_entry`. -/
def decodeFields (name : List UInt8) (f : Nat) (opts : FileListOptions) (st : DecoderState) :
    Wire (FileEntry × DecoderState) := do
  let len ← decodeFileLength opts
  let mtime ← decodeMtime st.delta f opts
  let mtimeNsec ← decodeMtimeNsec f opts
  let mode ← decodeMode st.delta f
  let owner ← decodeUid st.delta f opts
  let group ← decodeGid st.delta f opts
  let rdev ← decodeRdev mode st.delta f opts
  let target ← decodeSymlink mode opts
  let checksum ← decodeChecksum mode opts
  let acl ← decodeAclField mode opts st.acls
  let xattr ← decodeXattrField opts st.xattrs
  let e : FileEntry :=
    { name, len, mtime, mtimeNsec, mode, uid := owner.1, gid := group.1, rdev,
      linkTarget := target, checksum, flags := f, userName := owner.2, groupName := group.2,
      hlinkSource := none, hardLinkInfo := none, acl := acl.1, xattrs := xattr.1 }
  pure (e, ⟨st.delta.update e, acl.2, xattr.2⟩)

/-- What `decode_entry` does behind the name. -/
def decodeBody (f : Nat) (opts : FileListOptions) (prev : List FileEntry) (st : DecoderState)
    (name : List UInt8) : Wire (FileEntry × DecoderState) := do
  let link ← decodeHlink f opts prev name st.delta
  match link with
  | some e => pure (e, { st with delta := st.delta.update e })
  | none => decodeFields name f opts st

def decodeEntry (opts : FileListOptions) (prev : List FileEntry) (st : DecoderState) :
    Wire (ReadEntryResult × DecoderState) := do
  let flags ← decodeXmitFlags opts
  match flags with
  | .endOfList ioError => pure (.endOfList ioError, st)
  | .entry f => do
    let name ← decodeFilename st.delta f opts
    let read ← decodeBody f opts prev st name
    pure (.entry read.1, read.2)

/-! ## Reading an entry back -/

/-- The wire formats whose flags have room for what the decoder looks at. -/
structure WireFormat.FlagsFit (wf : WireFormat) : Prop where
  byte : wf.flagsCodec = .byte → wf.deviceCodec = .singleInt ∧ wf.hasInlineNames = false ∧
    wf.hasNanoseconds = false
  wide : wf.flagsCodec ≠ .byte → wf.deviceCodec ≠ .singleInt
  inline : wf.hasInlineNames = true → wf.intCodec = .compact

/-- The entries whose fields fit their place on the wire. -/
structure Sendable (opts : FileListOptions) (e : FileEntry) : Prop where
  name : e.name.length ≤ maxNameLen
  len : IsI64 e.len
  compactLen : opts.wire.intCodec = .compact → 0 ≤ e.len ∧ e.len < 2 ^ 58
  mtime : TimeFits e.mtime opts
  mtimeNsec : e.mtimeNsec < 2 ^ 32
  uid : e.uid < 2 ^ 32
  gid : e.gid < 2 ^ 32
  userName : opts.wire.hasInlineNames = true → e.userName.length ≤ 255
  groupName : opts.wire.hasInlineNames = true → e.groupName.length ≤ 255
  rdev : shouldSendRdev e.mode opts = true → RdevFits e.rdev opts
  linkTarget : sendsTarget e.mode opts = true → e.linkTarget.length ≤ maxNameLen

/-- The flags `g` of the decoder are the flags `f` of the encoder, where the decoder looks. -/
structure SeenFlags (opts : FileListOptions) (f g : Nat) : Prop where
  sameMode : g.testBit 1 = f.testBit 1
  sameRdev : opts.wire.deviceCodec = .singleInt → g.testBit 2 = f.testBit 2
  sameUid : g.testBit 3 = f.testBit 3
  sameGid : g.testBit 4 = f.testBit 4
  sameName : g.testBit 5 = f.testBit 5
  longName : g.testBit 6 = f.testBit 6
  sameTime : g.testBit 7 = f.testBit 7
  sameRdevMajor : opts.wire.deviceCodec ≠ .singleInt → g.testBit 8 = f.testBit 8
  userNameFollows : opts.wire.hasInlineNames = true → g.testBit 10 = f.testBit 10
  groupNameFollows : opts.wire.hasInlineNames = true → g.testBit 11 = f.testBit 11
  modNsec : opts.wire.hasNanoseconds = true → g.testBit 13 = f.testBit 13

/-- The decoder's state `dec` has what the flags `f` leave out of an entry that was encoded
against `enc`. -/
structure Supplies (opts : FileListOptions) (f : Nat) (enc dec : DeltaState) (e : FileEntry) :
    Prop where
  name : dec.prevName.take (commonPrefixLen enc.prevName e.name) =
    e.name.take (commonPrefixLen enc.prevName e.name)
  mtime : f.testBit 7 = true → dec.prevMtime = e.mtime
  mode : f.testBit 1 = true → dec.prevMode = e.mode
  uid : opts.preserveUid = true → f.testBit 3 = true → dec.prevUid = e.uid
  gid : opts.preserveGid = true → f.testBit 4 = true → dec.prevGid = e.gid
  rdev : opts.wire.deviceCodec = .singleInt → f.testBit 2 = true → dec.prevRdev = e.rdev
  rdevMajor : f.testBit 8 = true → dec.prevRdevMajor = e.rdevMajor

/-- The entry a decoder makes of `e`: encoded with the flags `f`, received with the flags `g`. -/
def receivedEntry (opts : FileListOptions) (dec : DeltaState) (e : FileEntry) (f g : Nat)
    (acl : Option PosixAcl) (xattrs : Option ExtendedAttributes) : FileEntry where
  name := e.name
  len := e.len
  mtime := e.mtime
  mtimeNsec := if opts.wire.hasNanoseconds then e.mtimeNsec else 0
  mode := e.mode
  uid := if opts.preserveUid then e.uid else dec.prevUid
  gid := if opts.preserveGid then e.gid else dec.prevGid
  rdev := if shouldSendRdev e.mode opts then e.rdev else 0
  linkTarget := if sendsTarget e.mode opts then e.linkTarget else []
  checksum :=
    if sendsChecksum e.mode opts then paddedChecksum e.checksum opts.checksumLen else []
  flags := g
  userName := idNameAfter opts.preserveUid (f.testBit 3) (f.testBit 10) e.userName dec.prevUserName
  groupName :=
    idNameAfter opts.preserveGid (f.testBit 4) (f.testBit 11) e.groupName dec.prevGroupName
  hlinkSource := none
  hardLinkInfo := none
  acl := acl
  xattrs := xattrs

section ReadBack

variable {opts : FileListOptions} {e : FileEntry} {f g : Nat} {enc : DeltaState}
variable {action : HardLinkAction}

theorem seenFlags_wireFlags (hwire : opts.wire.FlagsFit) : SeenFlags opts f (wireFlags f opts) := by
  by_cases hbyte : opts.wire.flagsCodec = .byte
  · obtain ⟨hdev, hinline, hnano⟩ := hwire.byte hbyte
    have hlow : ∀ k, 0 < k → k < 8 → (wireFlags f opts).testBit k = f.testBit k := by
      intro k h0 h8
      rw [testBit_wireFlags_byte h0 hbyte, decide_eq_true h8, Bool.true_and]
    constructor
    case sameRdev => exact fun _ => hlow 2 (by decide) (by decide)
    case sameRdevMajor => exact fun h => absurd hdev h
    case userNameFollows | groupNameFollows => exact fun h => absurd h (by rw [hinline]; decide)
    case modNsec => exact fun h => absurd h (by rw [hnano]; decide)
    all_goals exact hlow _ (by decide) (by decide)
  · have hall : ∀ k, k ≠ 2 → (wireFlags f opts).testBit k = f.testBit k :=
      fun k hk => testBit_wireFlags hk hbyte
    constructor
    case sameRdev => exact fun h => absurd h (hwire.wide hbyte)
    case sameRdevMajor | userNameFollows | groupNameFollows | modNsec =>
      exact fun _ => hall _ (by decide)
    all_goals exact hall _ (by decide)

/-- The flags in front of an entry are read back. -/
theorem reads_computedFlags (hwire : opts.wire.FlagsFit) (hf : FlagsOf e enc opts action f) :
    Reads (decodeXmitFlags opts) (encodeXmitFlags f opts) (.entry (wireFlags f opts)) := by
  refine reads_xmitFlags hf.lt ?_ ?_
  · intro hbyte
    have hdev := hwire.wide hbyte
    rw [hf.sameRdev, decide_eq_false fun h => hdev h.1, Bool.and_false]
  · rw [hf.hlinkFirst, hf.hlinked]
    intro hfirst
    rw [decide_eq_true_eq] at hfirst ⊢
    simp [hfirst]

theorem reads_name {dec : DeltaState} (he : Sendable opts e) (hf : FlagsOf e enc opts action f)
    (hg : SeenFlags opts f g) (hs : Supplies opts f enc dec e) :
    Reads (decodeFilename dec g opts) (encodeFilename e.name enc f opts) e.name :=
  reads_filename he.name hf.sameName hf.longName hg.sameName hg.longName hs.name

/-- What `decode_entry` does behind the fields up to the attributes. -/
def decodeAttributes (e : FileEntry) (f g : Nat) (opts : FileListOptions) (st : DecoderState) :
    Wire (FileEntry × DecoderState) := do
  let acl ← decodeAclField e.mode opts st.acls
  let xattr ← decodeXattrField opts st.xattrs
  pure (receivedEntry opts st.delta e f g acl.1 xattr.1,
    ⟨st.delta.update (receivedEntry opts st.delta e f g acl.1 xattr.1), acl.2, xattr.2⟩)

/-- The fields of an entry that is sent in full are read up to its attributes. -/
theorem decodeFields_metadata {st : DecoderState} (hwire : opts.wire.FlagsFit)
    (he : Sendable opts e) (hf : FlagsOf e enc opts action f) (hg : SeenFlags opts f g)
    (hs : Supplies opts f enc st.delta e) (input : List UInt8) :
    decodeFields e.name g opts st (encodeMetadata e f opts ++ input) =
      decodeAttributes e f g opts st input := by
  have hlen : Reads (decodeFileLength opts) (encodeFileLength e.len opts) e.len :=
    reads_varlong30 (by decide) (by decide) he.len he.compactLen
  have huser : f.testBit 10 = true → opts.wire.hasInlineNames = true := by
    rw [hf.userNameFollows]
    intro h
    simp only [Bool.and_eq_true] at h
    exact h.1.2
  have hgroup : f.testBit 11 = true → opts.wire.hasInlineNames = true := by
    rw [hf.groupNameFollows]
    intro h
    simp only [Bool.and_eq_true] at h
    exact h.1.2
  -- field by field, in the order of the wire
  unfold decodeFields encodeMetadata
  simp only [List.append_assoc]
  refine (bind_ok (hlen _)).trans ?_
  refine (bind_ok (reads_mtime hg.sameTime he.mtime hs.mtime _)).trans ?_
  refine (bind_ok (reads_mtimeNsec he.mtimeNsec hf.modNsec hg.modNsec _)).trans ?_
  refine (bind_ok (reads_mode hg.sameMode hs.mode _)).trans ?_
  unfold decodeUid encodeUid
  rw [hg.sameUid]
  refine (bind_ok (reads_id he.uid (fun h => he.userName (huser h)) huser hwire.inline
    hg.userNameFollows hs.uid _)).trans ?_
  unfold decodeGid encodeGid
  rw [hg.sameGid]
  refine (bind_ok (reads_id he.gid (fun h => he.groupName (hgroup h)) hgroup hwire.inline
    hg.groupNameFollows hs.gid _)).trans ?_
  refine (bind_ok (reads_rdev he.rdev hg.sameRdev hg.sameRdevMajor hs.rdev hs.rdevMajor _)).trans ?_
  refine (bind_ok (reads_symlink he.linkTarget _)).trans ?_
  exact bind_ok (reads_checksum e.mode e.checksum _)


/-- The key under which an entry is looked for among the hard links. -/
def linkKey (opts : FileListOptions) (e : FileEntry) : Option (Nat × Nat) :=
  if opts.preserveHardLinks then
    match e.linkInfo with
    | some info => if info.nlink ≤ 1 then none else some (info.dev, info.ino)
    | none => none
  else none

variable {k : Nat × Nat} {index : Int} {seen : LinkTable}

theorem preserve_of_linkKey (h : linkKey opts e = some k) : opts.preserveHardLinks = true := by
  unfold linkKey at h
  split_ifs at h with hpreserve
  exact hpreserve

theorem resolveHlinkAction_of_key (h : linkKey opts e = some k) :
    resolveHlinkAction opts e.linkInfo seen index =
      match seen.lookup k with
      | some firstIndex => (.duplicateOf firstIndex, seen)
      | none => (.firstOccurrence, (k, index) :: seen) := by
  unfold linkKey at h
  unfold resolveHlinkAction LinkTable.check
  cases hpreserve : opts.preserveHardLinks with
  | false => simp [hpreserve] at h
  | true =>
    cases hinfo : e.linkInfo with
    | none => simp [hinfo] at h
    | some info =>
      by_cases hn : info.nlink ≤ 1
      · simp [hinfo, hn] at h
      · simp only [hpreserve, hinfo, if_true, if_neg hn, Option.some.injEq] at h ⊢
        rw [h]

/-- An entry without links. -/
theorem resolveHlinkAction_none (h : linkKey opts e = none) :
    resolveHlinkAction opts e.linkInfo seen index = (.notHardLinked, seen) := by
  unfold linkKey at h
  unfold resolveHlinkAction LinkTable.check
  cases hpreserve : opts.preserveHardLinks with
  | false => rfl
  | true =>
    cases hinfo : e.linkInfo with
    | none => rfl
    | some info =>
      by_cases hn : info.nlink ≤ 1
      · simp [hn]
      · simp [hpreserve, hinfo, hn] at h

theorem resolveHlinkAction_duplicate {first : Int} (h : linkKey opts e = some k)
    (hseen : seen.lookup k = some first) :
    resolveHlinkAction opts e.linkInfo seen index = (.duplicateOf first, seen) := by
  rw [resolveHlinkAction_of_key h, hseen]

theorem resolveHlinkAction_first (h : linkKey opts e = some k) (hseen : seen.lookup k = none) :
    resolveHlinkAction opts e.linkInfo seen index = (.firstOccurrence, (k, index) :: seen) := by
  rw [resolveHlinkAction_of_key h, hseen]

theorem encodeEntry_full {st : EncoderState} {links : LinkTable}
    (h : resolveHlinkAction opts e.linkInfo st.links index = (action, links))
    (haction : ∀ i, action ≠ .duplicateOf i) :
    encodeEntry e st opts index =
      (encodeHead e st.delta opts action ++ encodeFields e st opts action,
        ⟨st.delta.update e, links, (encodeAclField e opts st.acls).2,
          (encodeXattrField e opts st.xattrs).2⟩) := by
  unfold encodeEntry
  rw [h]
  cases action with
  | notHardLinked | firstOccurrence => rfl
  | duplicateOf i => exact absurd rfl (haction i)

theorem encodeEntry_duplicate {st : EncoderState} {firstIndex : Int} {links : LinkTable}
    (h : resolveHlinkAction opts e.linkInfo st.links index = (.duplicateOf firstIndex, links)) :
    encodeEntry e st opts index =
      (encodeHead e st.delta opts (.duplicateOf firstIndex) ++ encodeHlink firstIndex,
        { st with delta := st.delta.update e, links := links }) := by
  unfold encodeEntry
  rw [h]

/-- The head of an entry is read; what follows is read with its name. -/
theorem decodeEntry_head {st : DecoderState} (hwire : opts.wire.FlagsFit) (he : Sendable opts e)
    (hs : Supplies opts (computeXmitFlags e enc opts action) enc st.delta e)
    (prev : List FileEntry) (input : List UInt8) :
    decodeEntry opts prev st (encodeHead e enc opts action ++ input) =
      (decodeBody (wireFlags (computeXmitFlags e enc opts action) opts) opts prev st e.name >>=
        fun read => pure (.entry read.1, read.2)) input := by
  have hf := flagsOf_computeXmitFlags e enc opts action
  have hflags := reads_computedFlags hwire hf
  have hname := reads_name he hf (seenFlags_wireFlags hwire) hs
  unfold encodeHead decodeEntry
  rw [List.append_assoc]
  refine (bind_ok (hflags _)).trans ?_
  exact bind_ok (hname _)

theorem decodeHlink_none {dec : DeltaState} {prev : List FileEntry} {name : List UInt8}
    (h : (!opts.preserveHardLinks || !g.testBit 9 || g.testBit 12) = true) :
    decodeHlink g opts prev name dec = pure none :=
  if_pos h

/-- An entry that is sent in full has no back-reference, whichever flags got through. -/
theorem no_backReference (hf : FlagsOf e enc opts action f)
    (haction : ∀ i, action ≠ .duplicateOf i) :
    (!opts.preserveHardLinks || !(wireFlags f opts).testBit 9 || (wireFlags f opts).testBit 12) =
      true := by
  by_cases hbyte : opts.wire.flagsCodec = .byte
  · rw [testBit_wireFlags_byte (by decide) hbyte]
    simp
  · rw [testBit_wireFlags (by decide) hbyte, testBit_wireFlags (by decide) hbyte, hf.hlinked,
      hf.hlinkFirst]
    cases action with
    | notHardLinked | firstOccurrence => simp
    | duplicateOf i => exact absurd rfl (haction i)

/-- An entry that is sent in full is read up to its attributes. -/
theorem decodeEntry_full {st : DecoderState} (hwire : opts.wire.FlagsFit) (he : Sendable opts e)
    (haction : ∀ i, action ≠ .duplicateOf i) (hf : computeXmitFlags e enc opts action = f)
    (hg : wireFlags f opts = g) (hs : Supplies opts f enc st.delta e) (prev : List FileEntry)
    (input : List UInt8) :
    decodeEntry opts prev st
        (encodeHead e enc opts action ++ (encodeMetadata e f opts ++ input)) =
      (decodeAttributes e f g opts st >>= fun read => pure (.entry read.1, read.2)) input := by
  subst hf hg
  have hflags := flagsOf_computeXmitFlags e enc opts action
  have hbody : decodeBody (wireFlags (computeXmitFlags e enc opts action) opts) opts prev st e.name
      (encodeMetadata e (computeXmitFlags e enc opts action) opts ++ input) =
      decodeAttributes e (computeXmitFlags e enc opts action)
        (wireFlags (computeXmitFlags e enc opts action) opts) opts st input := by
    unfold decodeBody
    rw [decodeHlink_none (no_backReference hflags haction)]
    exact decodeFields_metadata hwire he hflags (seenFlags_wireFlags hwire) hs input
  rw [decodeEntry_head hwire he hs, bind_apply, hbody, bind_apply]

/-- An entry that is sent in full is read back as `receivedEntry`, given what its attributes are
read as. -/
theorem reads_entry {st : DecoderState} {aclBytes xattrBytes : List UInt8}
    {acl : Option PosixAcl × AclTables}
    {xattr : Option ExtendedAttributes × List ExtendedAttributes}
    (hwire : opts.wire.FlagsFit) (he : Sendable opts e) (haction : ∀ i, action ≠ .duplicateOf i)
    (hf : computeXmitFlags e enc opts action = f) (hg : wireFlags f opts = g)
    (hs : Supplies opts f enc st.delta e)
    (hacl : Reads (decodeAclField e.mode opts st.acls) aclBytes acl)
    (hxattr : Reads (decodeXattrField opts st.xattrs) xattrBytes xattr) (prev : List FileEntry) :
    Reads (decodeEntry opts prev st)
      (encodeHead e enc opts action ++ (encodeMetadata e f opts ++ (aclBytes ++ xattrBytes)))
      (.entry (receivedEntry opts st.delta e f g acl.1 xattr.1),
        ⟨st.delta.update (receivedEntry opts st.delta e f g acl.1 xattr.1), acl.2, xattr.2⟩) := by
  have hattrs : Reads (decodeAttributes e f g opts st) (aclBytes ++ xattrBytes) _ :=
    hacl.bind (hxattr.bind_nil (Reads.pure _))
  intro rest
  rw [List.append_assoc, List.append_assoc, decodeEntry_full hwire he haction hf hg hs]
  exact bind_ok (hattrs rest)

/-- A back-reference is looked up in the list; if it is not there, the fields are expected to
follow. -/
theorem decodeEntry_duplicate {st : DecoderState} {firstIndex : Int}
    (hwire : opts.wire.FlagsFit) (hbyte : opts.wire.flagsCodec ≠ .byte) (he : Sendable opts e)
    (hlinks : opts.preserveHardLinks = true)
    (hf : computeXmitFlags e enc opts (.duplicateOf firstIndex) = f) (hg : wireFlags f opts = g)
    (hs : Supplies opts f enc st.delta e) (hindex : IsI32 firstIndex)
    (hdiff : IsI32 (firstIndex - st.delta.ndxStart)) (prev : List FileEntry) (rest : List UInt8) :
    decodeEntry opts prev st
        (encodeHead e enc opts (.duplicateOf firstIndex) ++ (encodeHlink firstIndex ++ rest)) =
      match linkTarget? prev (firstIndex - st.delta.ndxStart) with
      | some first => .ok ((.entry (linkedEntry first e.name g),
          { st with delta := st.delta.update (linkedEntry first e.name g) }), rest)
      | none => (decodeFields e.name g opts st >>= fun read => pure (.entry read.1, read.2)) rest := by
  subst hf hg
  have hflags := flagsOf_computeXmitFlags e enc opts (.duplicateOf firstIndex)
  -- both flags of a back reference survive on the wire, as it has more than a byte for them
  have hback : (!opts.preserveHardLinks ||
      !(wireFlags (computeXmitFlags e enc opts (.duplicateOf firstIndex)) opts).testBit 9 ||
      (wireFlags (computeXmitFlags e enc opts (.duplicateOf firstIndex)) opts).testBit 12) =
        false := by
    rw [testBit_wireFlags (by decide) hbyte, testBit_wireFlags (by decide) hbyte, hflags.hlinked,
      hflags.hlinkFirst, hlinks]
    rfl
  have hvarint : toI32 ((firstIndex % 2 ^ 32).toNat : Int) = firstIndex := by
    obtain ⟨h₁, h₂⟩ := hindex
    unfold toI32
    rw [Int.bmod_def]
    split <;> omega
  rw [decodeEntry_head hwire he hs]
  unfold decodeBody decodeHlink
  generalize wireFlags (computeXmitFlags e enc opts (.duplicateOf firstIndex)) opts = g at *
  rw [hback, if_neg Bool.false_ne_true]
  have hread : Reads readVarint (encodeHlink firstIndex) (firstIndex % 2 ^ 32).toNat :=
    reads_varint (by omega)
  -- the index is sent as 32 bits, and taken relative to the start of the list
  have hlink : (do
      let firstNdx ← readVarint
      if ¬ IsI32 (toI32 firstNdx - st.delta.ndxStart) then Reader.fail (.fault .panic)
      else
        pure ((linkTarget? prev (toI32 firstNdx - st.delta.ndxStart)).map fun first =>
          linkedEntry first e.name g) : Wire (Option FileEntry)) (encodeHlink firstIndex ++ rest) =
      .ok ((linkTarget? prev (firstIndex - st.delta.ndxStart)).map fun first =>
          linkedEntry first e.name g, rest) := by
    refine (bind_ok (hread rest)).trans ?_
    rw [hvarint, if_neg (not_not.mpr hdiff)]
    rfl
  cases hget : linkTarget? prev (firstIndex - st.delta.ndxStart) with
  | some | none =>
    rw [hget] at hlink
    rw [bind_apply, bind_ok hlink]
    rfl

end ReadBack

/-! ## What a decoder can return -/

section Inversion

variable {opts : FileListOptions} {prev : List FileEntry} {st st' : DecoderState} {f : Nat}
variable {d : FileEntry} {name input rest : List UInt8}

theorem length_decodeFilename {dec : DeltaState}
    (h : decodeFilename dec f opts input = .ok (name, rest)) : name.length ≤ maxNameLen := by
  obtain ⟨prefixLen, tail₁, -, h⟩ := bind_eq_ok h
  obtain ⟨suffixLen, tail₂, -, h⟩ := bind_eq_ok h
  split_ifs at h with hlong hprev
  · exact absurd h nofun
  · exact absurd h nofun
  · obtain ⟨suffix, tail₃, hread, h⟩ := bind_eq_ok h
    obtain ⟨rfl, -⟩ := pure_eq_ok h
    obtain ⟨hlen, -⟩ := readExact_eq_ok hread
    simp
    omega

theorem decodeFields_inv (h : decodeFields name f opts st input = .ok ((d, st'), rest)) :
    d.name = name ∧ d.hlinkSource = none ∧ st'.delta = st.delta.update d := by
  obtain ⟨len, _, -, h⟩ := bind_eq_ok h
  obtain ⟨mtime, _, -, h⟩ := bind_eq_ok h
  obtain ⟨mtimeNsec, _, -, h⟩ := bind_eq_ok h
  obtain ⟨mode, _, -, h⟩ := bind_eq_ok h
  obtain ⟨owner, _, -, h⟩ := bind_eq_ok h
  obtain ⟨group, _, -, h⟩ := bind_eq_ok h
  obtain ⟨rdev, _, -, h⟩ := bind_eq_ok h
  obtain ⟨target, _, -, h⟩ := bind_eq_ok h
  obtain ⟨checksum, _, -, h⟩ := bind_eq_ok h
  obtain ⟨acl, _, -, h⟩ := bind_eq_ok h
  obtain ⟨xattr, _, -, h⟩ := bind_eq_ok h
  obtain ⟨h, -⟩ := pure_eq_ok h
  cases h
  exact ⟨rfl, rfl, rfl⟩

/-- An entry is a copy of an earlier one only if its flags say so. -/
theorem decodeBody_inv (h : decodeBody f opts prev st name input = .ok ((d, st'), rest)) :
    d.name = name ∧ st'.delta = st.delta.update d ∧
      (d.hlinkSource = none ∨ opts.preserveHardLinks = true ∧ f.testBit 9 = true ∧
        f.testBit 12 = false ∧ ∃ first ∈ prev, d = linkedEntry first name f) := by
  obtain ⟨link, tail, hlink, h⟩ := bind_eq_ok h
  cases link with
  | none =>
    obtain ⟨hname, hsource, hdelta⟩ := decodeFields_inv h
    exact ⟨hname, hdelta, Or.inl hsource⟩
  | some e =>
    obtain ⟨h, -⟩ := pure_eq_ok h
    cases h
    -- a copy comes from `decodeHlink`, and from there only for these flags
    unfold decodeHlink at hlink
    split_ifs at hlink with hskip
    · obtain ⟨habsurd, -⟩ := pure_eq_ok hlink
      exact absurd habsurd nofun
    · obtain ⟨firstNdx, tail', -, hlink⟩ := bind_eq_ok hlink
      split_ifs at hlink
      · obtain ⟨hget, -⟩ := pure_eq_ok hlink
        obtain ⟨first, htarget, rfl⟩ := Option.map_eq_some_iff.mp hget
        have hmem : first ∈ prev := by
          unfold linkTarget? at htarget
          split_ifs at htarget
          exact List.mem_of_getElem? htarget
        simp only [Bool.or_eq_true, Bool.not_eq_true', not_or, Bool.not_eq_false,
          Bool.not_eq_true] at hskip
        exact ⟨rfl, rfl, Or.inr ⟨hskip.1.1, hskip.1.2, hskip.2, first, hmem, rfl⟩⟩
      · exact absurd hlink nofun

theorem decodeEntry_inv (h : decodeEntry opts prev st input = .ok ((.entry d, st'), rest)) :
    ∃ f tail, decodeXmitFlags opts input = .ok (.entry f, tail) ∧ d.name.length ≤ maxNameLen ∧
      ∃ tail', decodeBody f opts prev st d.name tail' = .ok ((d, st'), rest) := by
  obtain ⟨flags, tail, hflags, h⟩ := bind_eq_ok h
  cases flags with
  | endOfList ioError =>
    obtain ⟨habsurd, -⟩ := pure_eq_ok h
    cases habsurd
  | entry f =>
    obtain ⟨name, tail', hname, h⟩ := bind_eq_ok h
    obtain ⟨⟨e, st₁⟩, tail'', hbody, h⟩ := bind_eq_ok h
    obtain ⟨h, rfl⟩ := pure_eq_ok h
    cases h
    obtain ⟨heq, -⟩ := decodeBody_inv hbody
    refine ⟨f, tail, hflags, ?_, tail', ?_⟩
    · rw [heq]
      exact length_decodeFilename hname
    · rw [heq]
      exact hbody

/-- Flags of one byte cannot say that an entry has links. -/
theorem hlinkSource_of_byte (hbyte : opts.wire.flagsCodec = .byte)
    (h : decodeEntry opts prev st input = .ok ((.entry d, st'), rest)) : d.hlinkSource = none := by
  obtain ⟨f, tail, hflags, -, tail', hbody⟩ := decodeEntry_inv h
  obtain ⟨-, -, hnone | ⟨-, hlinked, -⟩⟩ := decodeBody_inv hbody
  · exact hnone
  · unfold decodeXmitFlags at hflags
    rw [hbyte] at hflags
    obtain ⟨first, tail'', -, hflags⟩ := bind_eq_ok hflags
    split_ifs at hflags
    · obtain ⟨habsurd, -⟩ := pure_eq_ok hflags
      cases habsurd
    · obtain ⟨heq, -⟩ := pure_eq_ok hflags
      cases heq
      have hlow : first.toNat.testBit 9 = false :=
        Nat.testBit_lt_two_pow (first.toNat_lt.trans (by decide))
      exact absurd hlinked (by rw [hlow]; exact Bool.false_ne_true)

end Inversion

end Ferrosync
