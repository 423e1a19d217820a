import Ferrosync.Codec.Entry
import Ferrosync.Engine.ServerOptions
import Ferrosync.Protocol.Varlong
import Ferrosync.Protocol.WireFormat

set_option autoImplicit false

/-! # The flags of a file list entry

An entry is encoded against the one before it: a word of flags says which fields are left out
because they have not changed. The word itself is written in one of three codecs.

* `computeXmitFlags`: the flags of an entry;
* `reads_xmitFlags`: the decoder gets the flags as they were written, up to the bit that marks a
  second byte.
-/

namespace Ferrosync

open ByteStream

/-- `NegotiatedProtocol`, without the chunking strategy. -/
structure NegotiatedProtocol where
  version : Nat
  compatFlags : Nat
  checksum : ChecksumType
  compress : CompressType
  properSeedOrder : Bool
  seed : Int
  wire : WireFormat
  deriving DecidableEq, Repr

structure FileListOptions where
  wire : WireFormat
  preserveUid : Bool
  preserveGid : Bool
  preserveDevices : Bool
  preserveSpecials : Bool
  preserveLinks : Bool
  preserveHardLinks : Bool
  alwaysChecksum : Bool
  checksumLen : Nat
  xmitId0Names : Bool
  numericIds : Bool
  preserveAcls : Bool
  preserveXattrs : Bool

def FileListOptions.fromProtocol (p : NegotiatedProtocol) (o : TransferOptions) :
    FileListOptions where
  wire := p.wire
  preserveUid := o.preserveOwner
  preserveGid := o.preserveGroup || o.preserveOwner
  preserveDevices := o.preserveDevices
  preserveSpecials := o.preserveSpecials
  preserveLinks := o.preserveLinks
  preserveHardLinks := o.preserveHardLinks
  alwaysChecksum := o.checksumMode
  checksumLen := p.checksum.digestLen
  xmitId0Names := p.compatFlags.testBit 8
  numericIds := o.numericIds
  preserveAcls := o.preserveAcls
  preserveXattrs := o.preserveXattrs

structure DeltaState where
  prevName : List UInt8
  prevMtime : Int
  prevMode : UInt32
  prevUid : Nat
  prevGid : Nat
  prevRdev : Nat
  prevRdevMajor : Nat
  prevUserName : List UInt8
  prevGroupName : List UInt8
  ndxStart : Int
  deriving DecidableEq, Repr

def DeltaState.default : DeltaState := ⟨[], 0, 0, 0, 0, 0, 0, [], [], 0⟩

/-- `update_delta_state`. -/
def DeltaState.update (state : DeltaState) (e : FileEntry) : DeltaState where
  prevName := e.name
  prevMtime := e.mtime
  prevMode := e.mode
  prevUid := e.uid
  prevGid := e.gid
  prevRdev := e.rdev
  prevRdevMajor := e.rdevMajor
  prevUserName := e.userName
  prevGroupName := e.groupName
  ndxStart := state.ndxStart

inductive HardLinkAction where
  | notHardLinked
  | firstOccurrence
  | duplicateOf (firstIndex : Int)
  deriving DecidableEq, Repr

/-! ## Computing the flags -/

/-- `common_prefix_len`: at most 255, since the length is sent as one byte. -/
def commonPrefixLen (a b : List UInt8) : Nat :=
  (((a.zip b).take 255).takeWhile fun p => p.1 = p.2).length

def shouldSendRdev (mode : UInt32) (opts : FileListOptions) : Bool :=
  let ft := mode &&& sIfmt
  let isDevice := ft = sIfblk || ft = sIfchr
  let isSpecial := ft = sIfifo || ft = sIfsock
  (opts.preserveDevices && isDevice) ||
    (opts.preserveSpecials && isSpecial && opts.wire.specialRdev)

/-- A word with the given bits. -/
def xmitWord : List (Nat × Bool) → Nat
  | [] => 0
  | (bit, on) :: bits => (if on then 2 ^ bit else 0) ||| xmitWord bits

def sameUid (e : FileEntry) (state : DeltaState) (opts : FileListOptions) : Bool :=
  !opts.preserveUid || (e.uid = state.prevUid && state.prevName ≠ [])

def sameGid (e : FileEntry) (state : DeltaState) (opts : FileListOptions) : Bool :=
  !opts.preserveGid || (e.gid = state.prevGid && state.prevName ≠ [])

def computeXmitFlags (e : FileEntry) (state : DeltaState) (opts : FileListOptions)
    (action : HardLinkAction) : Nat :=
  let commonPrefix := commonPrefixLen state.prevName e.name
  let hasPrev := state.prevName ≠ []
  let sendsRdev := shouldSendRdev e.mode opts
  xmitWord
    [ (0, e.flags.testBit 0),
      (9, action ≠ .notHardLinked),
      (12, action = .firstOccurrence),
      (5, commonPrefix > 0),
      (6, e.name.length - commonPrefix > 255),
      (7, e.mtime = state.prevMtime && hasPrev),
      (1, e.mode = state.prevMode && hasPrev),
      (3, sameUid e state opts),
      (4, sameGid e state opts),
      (8, sendsRdev && opts.wire.deviceCodec ≠ .singleInt && e.rdevMajor = state.prevRdevMajor),
      (2, sendsRdev && opts.wire.deviceCodec = .singleInt && e.rdev = state.prevRdev),
      (13, opts.wire.hasNanoseconds && e.mtimeNsec ≠ 0),
      (10, opts.preserveUid && !sameUid e state opts && opts.wire.hasInlineNames &&
        e.userName ≠ [] && e.userName ≠ state.prevUserName),
      (11, opts.preserveGid && !sameGid e state opts && opts.wire.hasInlineNames &&
        e.groupName ≠ [] && e.groupName ≠ state.prevGroupName) ]

/-! ## The three codecs -/

inductive DecodedFlags where
  | entry (flags : Nat)
  | endOfList (ioError : Int)
  deriving DecidableEq, Repr

def decodeXmitFlags (opts : FileListOptions) : Wire DecodedFlags :=
  match opts.wire.flagsCodec with
  | .varint => do
    let f ← readVarint
    if f = 0 then do
      let ioError ← readVarint
      pure (.endOfList (toI32 ioError))
    else pure (.entry f)
  | .byteExtended => do
    let first ← readByte
    if first = 0 then pure (.endOfList 0)
    else if first.toNat.testBit 2 then do
      let second ← readByte
      let f := first.toNat + 2 ^ 8 * second.toNat
      if f = 2 ^ 2 + 2 ^ 12 then do
        let ioError ← readVarint
        pure (.endOfList (toI32 ioError))
      else pure (.entry f)
    else pure (.entry first.toNat)
  | .byte => do
    let first ← readByte
    if first = 0 then pure (.endOfList 0) else pure (.entry first.toNat)

def encodeXmitFlags (raw : Nat) (opts : FileListOptions) : List UInt8 :=
  match opts.wire.flagsCodec with
  | .varint => writeVarint (if raw = 0 then 2 ^ 2 else raw)
  | .byteExtended =>
    if raw / 2 ^ 8 % 2 ^ 8 ≠ 0 ∨ raw = 0 then writeShortint (raw ||| 2 ^ 2)
    else [UInt8.ofNat raw]
  | .byte => [if raw % 2 ^ 8 = 0 then 1 else UInt8.ofNat raw]

def encodeEndOfFlist (ioError : Int) (opts : FileListOptions) : List UInt8 :=
  match opts.wire.flagsCodec with
  | .varint => writeVarint 0 ++ writeVarint (ioError % 2 ^ 32).toNat
  | .byteExtended =>
    if ioError ≠ 0 then writeShortint (2 ^ 2 + 2 ^ 12) ++ writeVarint (ioError % 2 ^ 32).toNat
    else [0]
  | .byte => [0]

/-! ## The laws of the flags -/

theorem testBit_xmitWord (bits : List (Nat × Bool)) (k : Nat) :
    (xmitWord bits).testBit k = bits.any fun p => p.2 && p.1 == k := by
  induction bits with
  | nil => exact Nat.zero_testBit k
  | cons p bits ih =>
    obtain ⟨bit, on⟩ := p
    rw [xmitWord, Nat.testBit_or, ih, List.any_cons]
    cases on with
    | false => simp
    | true =>
      congr 1
      rw [if_pos rfl, Nat.testBit_two_pow]
      rfl

theorem xmitWord_lt {bits : List (Nat × Bool)} {n : Nat} (h : ∀ p ∈ bits, p.1 < n) :
    xmitWord bits < 2 ^ n := by
  induction bits with
  | nil => exact Nat.two_pow_pos n
  | cons p bits ih =>
    obtain ⟨bit, on⟩ := p
    refine Nat.or_lt_two_pow ?_ (ih fun q hq => h q (List.mem_cons_of_mem _ hq))
    have hbit : bit < n := h (bit, on) List.mem_cons_self
    cases on with
    | false => exact Nat.two_pow_pos n
    | true => exact Nat.pow_lt_pow_right (by decide) hbit

/-- The word a decoder gets for `raw`. -/
def wireFlags (raw : Nat) (opts : FileListOptions) : Nat :=
  match opts.wire.flagsCodec with
  | .varint => if raw = 0 then 2 ^ 2 else raw
  | .byteExtended => if raw / 2 ^ 8 % 2 ^ 8 ≠ 0 ∨ raw = 0 then raw ||| 2 ^ 2 else raw
  | .byte => if raw % 2 ^ 8 = 0 then 1 else raw % 2 ^ 8

theorem testBit_or_four (raw : Nat) {k : Nat} (hk : k ≠ 2) :
    (raw ||| 2 ^ 2).testBit k = raw.testBit k := by
  rw [Nat.testBit_or, Nat.testBit_two_pow_of_ne hk.symm, Bool.or_false]

variable {opts : FileListOptions}

/-- Every flag but the one that announces a second byte arrives, in the codecs that have room for
it. -/
theorem testBit_wireFlags {raw k : Nat} (hk : k ≠ 2) (hbyte : opts.wire.flagsCodec ≠ .byte) :
    (wireFlags raw opts).testBit k = raw.testBit k := by
  unfold wireFlags
  cases hcodec : opts.wire.flagsCodec with
  | byte => exact absurd hcodec hbyte
  | varint =>
    by_cases hraw : raw = 0
    · subst hraw
      exact (Nat.testBit_two_pow_of_ne hk.symm).trans (Nat.zero_testBit k).symm
    · simp [hraw]
  | byteExtended =>
    show (if raw / 2 ^ 8 % 2 ^ 8 ≠ 0 ∨ raw = 0 then raw ||| 2 ^ 2 else raw).testBit k = _
    split_ifs
    · exact testBit_or_four raw hk
    · rfl

/-- One byte holds the first eight flags; the first of them is set where none is. -/
theorem testBit_wireFlags_byte {raw k : Nat} (hk : 0 < k) (hbyte : opts.wire.flagsCodec = .byte) :
    (wireFlags raw opts).testBit k = (decide (k < 8) && raw.testBit k) := by
  have hmod : (raw % 2 ^ 8).testBit k = (decide (k < 8) && raw.testBit k) :=
    Nat.testBit_mod_two_pow raw 8 k
  unfold wireFlags
  rw [hbyte]
  show (if raw % 2 ^ 8 = 0 then 1 else raw % 2 ^ 8).testBit k = _
  split_ifs with hzero
  · rw [← hmod, hzero, Nat.zero_testBit]
    exact Nat.testBit_two_pow_of_ne  hk.ne
  · exact hmod

theorem reads_byteExtended_long {f : Nat} (hcodec : opts.wire.flagsCodec = .byteExtended)
    (hlt : f < 2 ^ 16) (hext : f.testBit 2 = true) (hend : f ≠ 2 ^ 2 + 2 ^ 12) :
    Reads (decodeXmitFlags opts) (writeShortint f) (.entry f) := by
  have hlow : (UInt8.ofNat f).toNat.testBit 2 = true := by
    rw [UInt8.toNat_ofNat', Nat.testBit_mod_two_pow, hext]
    rfl
  have hne : UInt8.ofNat f ≠ 0 := by
    intro h0
    simp [h0] at hlow
  -- the second byte is there because bit 2 is set, and holds the high flags
  have hword : (UInt8.ofNat f).toNat + 2 ^ 8 * (UInt8.ofNat (f / 256)).toNat = f := by
    simp
    omega
  intro rest
  unfold decodeXmitFlags
  rw [hcodec]
  refine (bind_ok (readByte_cons _ _)).trans ?_
  rw [if_neg hne, if_pos hlow]
  refine (bind_ok (readByte_cons _ _)).trans ?_
  rw [hword, if_neg hend]
  rfl

theorem reads_byteExtended_short {f : Nat} (hcodec : opts.wire.flagsCodec = .byteExtended)
    (hlt : f < 2 ^ 8) (hpos : f ≠ 0) (hext : f.testBit 2 = false) :
    Reads (decodeXmitFlags opts) [UInt8.ofNat f] (.entry f) := by
  have hval : (UInt8.ofNat f).toNat = f := by
    simp
    omega
  have hne : UInt8.ofNat f ≠ 0 := by
    intro h0
    rw [h0] at hval
    exact hpos hval.symm
  intro rest
  unfold decodeXmitFlags
  rw [hcodec]
  refine (bind_ok (readByte_cons _ _)).trans ?_
  rw [if_neg hne, hval, if_neg (by rw [hext]; exact Bool.false_ne_true)]
  rfl

/-- A word of flags is read back. The bit that announces a second byte is not one of the flags
outside the codec of one byte, and the first of a hard link group is also a member of it. -/
theorem reads_xmitFlags {raw : Nat} (hlt : raw < 2 ^ 14)
    (hext : opts.wire.flagsCodec ≠ .byte → raw.testBit 2 = false)
    (hfirst : raw.testBit 12 = true → raw.testBit 9 = true) :
    Reads (decodeXmitFlags opts) (encodeXmitFlags raw opts) (.entry (wireFlags raw opts)) := by
  cases hcodec : opts.wire.flagsCodec with
  | varint =>
    have hword : (if raw = 0 then 2 ^ 2 else raw) < 2 ^ 32 := by split_ifs <;> omega
    have hpos : (if raw = 0 then 2 ^ 2 else raw) ≠ 0 := by split_ifs <;> omega
    unfold decodeXmitFlags encodeXmitFlags wireFlags
    simp only [hcodec]
    refine (reads_varint hword).bind_nil ?_
    rw [if_neg hpos]
    exact Reads.pure _
  | byteExtended =>
    have hclear : raw.testBit 2 = false := hext (by rw [hcodec]; decide)
    unfold encodeXmitFlags wireFlags
    simp only [hcodec]
    split_ifs with hlong
    · have hset : (raw ||| 2 ^ 2).testBit 2 = true := by
        rw [Nat.testBit_or, Nat.testBit_two_pow_self, Bool.or_true]
      have hor : raw ||| 2 ^ 2 < 2 ^ 14 := Nat.or_lt_two_pow hlt (by decide)
      refine reads_byteExtended_long hcodec (hor.trans (by decide)) hset ?_
      -- the end marker has the bit of a first link but not the bit of a link
      intro heq
      have h12 : raw.testBit 12 = true := by
        rw [← testBit_or_four raw (by decide), heq]
        decide
      have h9 : raw.testBit 9 = false := by
        rw [← testBit_or_four raw (by decide), heq]
        decide
      exact absurd (hfirst h12) (by rw [h9]; exact Bool.false_ne_true)
    · have hshort : raw / 2 ^ 8 % 2 ^ 8 = 0 ∧ raw ≠ 0 := by
        omega
      exact reads_byteExtended_short hcodec (by omega) hshort.2 hclear
  | byte =>
    unfold decodeXmitFlags encodeXmitFlags wireFlags
    simp only [hcodec]
    refine (reads_byte _).bind_nil ?_
    split_ifs with hzero hval hval
    · exact absurd hval (by decide)
    · exact Reads.pure _
    · have h0 : raw % 2 ^ 8 = 0 := by
        rw [← UInt8.toNat_ofNat', hval]
        rfl
      exact absurd h0 hzero
    · simpa using Reads.pure _

/-- The end of a list without an error is read as such. -/
theorem reads_endOfFlist (opts : FileListOptions) :
    Reads (decodeXmitFlags opts) (encodeEndOfFlist 0 opts) (.endOfList 0) := by
  unfold decodeXmitFlags encodeEndOfFlist
  cases opts.wire.flagsCodec with
  | varint =>
    refine (reads_varint (by decide)).bind ?_
    exact (reads_varint (by decide)).bind_nil (Reads.pure _)
  | byteExtended | byte => exact (reads_byte 0).bind_nil (Reads.pure _)

/-! ## What the computed flags say -/

theorem commonPrefixLen_le (a b : List UInt8) : commonPrefixLen a b ≤ 255 := by
  have h : (((a.zip b).take 255).takeWhile fun p => p.1 = p.2).length ≤ ((a.zip b).take 255).length :=
    (List.takeWhile_sublist _).length_le
  exact h.trans (List.length_take_le 255 _)

/-- What two lists have in common at the front of their first `k` pairs. -/
theorem take_takeWhile_zip (k : Nat) : ∀ a b : List UInt8,
    a.take (((a.zip b).take k).takeWhile fun p => p.1 = p.2).length =
      b.take (((a.zip b).take k).takeWhile fun p => p.1 = p.2).length := by
  induction k with
  | zero => intro a b; rfl
  | succ k ih =>
    intro a b
    match a, b with
    | [], _ => simp
    | _ :: _, [] => simp
    | x :: a, y :: b =>
      by_cases hxy : x = y
      · simp [hxy, ih a b]
      · simp [hxy]

theorem take_commonPrefixLen (a b : List UInt8) :
    a.take (commonPrefixLen a b) = b.take (commonPrefixLen a b) :=
  take_takeWhile_zip 255 a b

theorem commonPrefixLen_le_zip (a b : List UInt8) :
    commonPrefixLen a b ≤ min a.length b.length := by
  have hwhile : commonPrefixLen a b ≤ ((a.zip b).take 255).length :=
    (List.takeWhile_sublist _).length_le
  have htake : ((a.zip b).take 255).length ≤ (a.zip b).length := (List.take_sublist 255 _).length_le
  rw [List.length_zip] at htake
  exact hwhile.trans htake

structure FlagsOf (e : FileEntry) (state : DeltaState) (opts : FileListOptions)
    (action : HardLinkAction) (f : Nat) : Prop where
  sameMode : f.testBit 1 = decide (e.mode = state.prevMode ∧ state.prevName ≠ [])
  sameRdev : f.testBit 2 = (shouldSendRdev e.mode opts &&
    decide (opts.wire.deviceCodec = .singleInt ∧ e.rdev = state.prevRdev))
  sameUid : f.testBit 3 = sameUid e state opts
  sameGid : f.testBit 4 = sameGid e state opts
  sameName : f.testBit 5 = decide (0 < commonPrefixLen state.prevName e.name)
  longName : f.testBit 6 = decide (255 < e.name.length - commonPrefixLen state.prevName e.name)
  sameTime : f.testBit 7 = decide (e.mtime = state.prevMtime ∧ state.prevName ≠ [])
  sameRdevMajor : f.testBit 8 = (shouldSendRdev e.mode opts &&
    decide (opts.wire.deviceCodec ≠ .singleInt ∧ e.rdevMajor = state.prevRdevMajor))
  hlinked : f.testBit 9 = decide (action ≠ .notHardLinked)
  userNameFollows : f.testBit 10 = (opts.preserveUid && !Ferrosync.sameUid e state opts &&
    opts.wire.hasInlineNames && decide (e.userName ≠ [] ∧ e.userName ≠ state.prevUserName))
  groupNameFollows : f.testBit 11 = (opts.preserveGid && !Ferrosync.sameGid e state opts &&
    opts.wire.hasInlineNames && decide (e.groupName ≠ [] ∧ e.groupName ≠ state.prevGroupName))
  hlinkFirst : f.testBit 12 = decide (action = .firstOccurrence)
  modNsec : f.testBit 13 = (opts.wire.hasNanoseconds && decide (e.mtimeNsec ≠ 0))
  lt : f < 2 ^ 14

theorem flagsOf_computeXmitFlags (e : FileEntry) (state : DeltaState) (opts : FileListOptions)
    (action : HardLinkAction) :
    FlagsOf e state opts action (computeXmitFlags e state opts action) := by
  have hlt : computeXmitFlags e state opts action < 2 ^ 14 := by
    apply xmitWord_lt
    simp
  constructor
  all_goals first
    | exact hlt
    | simp [computeXmitFlags, testBit_xmitWord, Bool.and_assoc]

end Ferrosync
