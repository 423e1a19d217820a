import Ferrosync.Codec.Flags

set_option autoImplicit false

/-! # The fields of a file list entry

Each field is a pair of functions, one for the encoder and one for the decoder. The decoder fills
in what the flags leave out from its own state; the lemmas below say what it has to have there.
-/

namespace Ferrosync

open ByteStream

def maxNameLen : Nat := 64 * 1024

/-! ## File name -/

def encodeFilename (name : List UInt8) (state : DeltaState) (f : Nat) (opts : FileListOptions) :
    List UInt8 :=
  let common := commonPrefixLen state.prevName name
  let suffixLen := name.length - common
  (if f.testBit 5 then [UInt8.ofNat common] else []) ++
    (if f.testBit 6 then writeVarint30 (suffixLen % 2 ^ 32) opts.wire.intCodec
      else [UInt8.ofNat suffixLen]) ++
    name.drop common

/-- The number of bytes taken over from the name before. -/
def decodePrefixLen (f : Nat) : Wire Nat :=
  if f.testBit 5 then do
    let b ← readByte
    pure b.toNat
  else pure 0

def decodeSuffixLen (f : Nat) (opts : FileListOptions) : Wire Nat :=
  if f.testBit 6 then readVarint30 opts.wire.intCodec
  else do
    let b ← readByte
    pure b.toNat

def decodeFilename (state : DeltaState) (f : Nat) (opts : FileListOptions) : Wire (List UInt8) := do
  let prefixLen ← decodePrefixLen f
  let suffixLen ← decodeSuffixLen f opts
  if prefixLen + suffixLen > maxNameLen then
    Reader.fail (outOfRange "filename_len" (prefixLen + suffixLen) maxNameLen)
  else if prefixLen > state.prevName.length then
    Reader.fail (.protocol (.handshake ("filename prefix length " ++ toString prefixLen ++
      " exceeds previous name length " ++ toString state.prevName.length)))
  else do
    let suffix ← readExact unexpectedEof suffixLen
    pure (state.prevName.take prefixLen ++ suffix)

/-! ## Length, time and mode -/

def encodeFileLength (len : Int) (opts : FileListOptions) : List UInt8 :=
  writeVarlong30 len 3 opts.wire.intCodec

def decodeFileLength (opts : FileListOptions) : Wire Int := readVarlong30 3 opts.wire.intCodec

def encodeMtime (mtime : Int) (f : Nat) (opts : FileListOptions) : List UInt8 :=
  if f.testBit 7 then []
  else if opts.wire.intCodec = .compact then writeVarlong mtime 4
  else writeInt (toI32 mtime)

def decodeMtime (state : DeltaState) (f : Nat) (opts : FileListOptions) : Wire Int :=
  if f.testBit 7 then pure state.prevMtime
  else if opts.wire.intCodec = .compact then readVarlong 4
  else readInt

def encodeMtimeNsec (mtimeNsec : Nat) (f : Nat) (opts : FileListOptions) : List UInt8 :=
  if opts.wire.hasNanoseconds && f.testBit 13 then writeVarint mtimeNsec else []

def decodeMtimeNsec (f : Nat) (opts : FileListOptions) : Wire Nat :=
  if opts.wire.hasNanoseconds && f.testBit 13 then readVarint else pure 0

def encodeMode (mode : UInt32) (f : Nat) : List UInt8 :=
  if f.testBit 1 then [] else writeInt (toI32 mode.toNat)

def decodeMode (state : DeltaState) (f : Nat) : Wire UInt32 :=
  if f.testBit 1 then pure state.prevMode
  else do
    let mode ← readInt
    pure (UInt32.ofNat (mode % 2 ^ 32).toNat)

/-! ## Owner and group -/

/-- What `encode_uid` and `encode_gid` share. -/
def encodeId (preserve same follows : Bool) (id : Nat) (name : List UInt8) (opts : FileListOptions) :
    List UInt8 :=
  if !preserve || same then []
  else if opts.wire.intCodec = .compact then
    writeVarint id ++ (if follows then UInt8.ofNat name.length :: name else [])
  else writeInt (toI32 id)

def decodeIdNumber (opts : FileListOptions) : Wire Nat :=
  if opts.wire.intCodec = .compact then readVarint
  else do
    let id ← readInt
    pure (id % 2 ^ 32).toNat

def decodeIdName (follows : Bool) (prevName : List UInt8) (opts : FileListOptions) :
    Wire (List UInt8) :=
  if opts.wire.hasInlineNames && follows then do
    let nameLen ← readByte
    readExact unexpectedEof nameLen.toNat
  else pure prevName

/-- What `decode_uid` and `decode_gid` share. -/
def decodeId (preserve same follows : Bool) (prevId : Nat) (prevName : List UInt8)
    (opts : FileListOptions) : Wire (Nat × List UInt8) :=
  if !preserve || same then pure (prevId, prevName)
  else do
    let id ← decodeIdNumber opts
    let name ← decodeIdName follows prevName opts
    pure (id, name)

def encodeUid (uid : Nat) (userName : List UInt8) (f : Nat) (opts : FileListOptions) : List UInt8 :=
  encodeId opts.preserveUid (f.testBit 3) (f.testBit 10) uid userName opts

def decodeUid (state : DeltaState) (f : Nat) (opts : FileListOptions) : Wire (Nat × List UInt8) :=
  decodeId opts.preserveUid (f.testBit 3) (f.testBit 10) state.prevUid state.prevUserName opts

def encodeGid (gid : Nat) (groupName : List UInt8) (f : Nat) (opts : FileListOptions) : List UInt8 :=
  encodeId opts.preserveGid (f.testBit 4) (f.testBit 11) gid groupName opts

def decodeGid (state : DeltaState) (f : Nat) (opts : FileListOptions) : Wire (Nat × List UInt8) :=
  decodeId opts.preserveGid (f.testBit 4) (f.testBit 11) state.prevGid state.prevGroupName opts

/-! ## Device numbers -/

def encodeRdev (mode : UInt32) (rdev : Nat) (f : Nat) (opts : FileListOptions) : List UInt8 :=
  if !shouldSendRdev mode opts then []
  else match opts.wire.deviceCodec with
    | .singleInt => if f.testBit 2 then [] else writeInt (toI32 rdev)
    | .majorMinor varintMinor =>
      (if f.testBit 8 then [] else writeVarint30 (rdev / 2 ^ 8 % 2 ^ 32) opts.wire.intCodec) ++
        (if varintMinor then writeVarint (rdev % 2 ^ 8) else writeInt (toI32 (rdev % 2 ^ 8 : Nat)))

def decodeRdevMajor (state : DeltaState) (f : Nat) (opts : FileListOptions) : Wire Nat :=
  if f.testBit 8 then pure state.prevRdevMajor else readVarint30 opts.wire.intCodec

def decodeRdevMinor (varintMinor : Bool) : Wire Nat :=
  if varintMinor then readVarint
  else do
    let minor ← readInt
    pure (minor % 2 ^ 32).toNat

def decodeRdevSingle (state : DeltaState) (f : Nat) : Wire Nat :=
  if f.testBit 2 then pure state.prevRdev
  else do
    let rdev ← readInt
    pure (asUsize rdev)

def decodeRdev (mode : UInt32) (state : DeltaState) (f : Nat) (opts : FileListOptions) : Wire Nat :=
  if !shouldSendRdev mode opts then pure 0
  else match opts.wire.deviceCodec with
    | .singleInt => decodeRdevSingle state f
    | .majorMinor varintMinor => do
      let major ← decodeRdevMajor state f opts
      let minor ← decodeRdevMinor varintMinor
      pure (major * 2 ^ 8 ||| minor)

/-! ## Link target and checksum -/

def encodeSymlink (mode : UInt32) (linkTarget : List UInt8) (opts : FileListOptions) : List UInt8 :=
  if mode &&& sIfmt ≠ sIflnk ∨ opts.preserveLinks = false then []
  else writeVarint30 (linkTarget.length % 2 ^ 32) opts.wire.intCodec ++ linkTarget

def decodeSymlink (mode : UInt32) (opts : FileListOptions) : Wire (List UInt8) :=
  if mode &&& sIfmt ≠ sIflnk ∨ opts.preserveLinks = false then pure []
  else do
    let linkLen ← readVarint30 opts.wire.intCodec
    if linkLen > maxNameLen then
      Reader.fail (outOfRange "symlink_target_len" linkLen maxNameLen)
    else readExact unexpectedEof linkLen

/-- Whether an entry of the given mode has a checksum on the wire. -/
def sendsChecksum (mode : UInt32) (opts : FileListOptions) : Bool :=
  opts.alwaysChecksum && (mode &&& sIfmt = sIfreg || opts.wire.flagsCodec = .byte)

/-- A checksum cut or filled up with zeros to the length of the wire. -/
def paddedChecksum (checksum : List UInt8) (len : Nat) : List UInt8 :=
  checksum.take len ++ List.replicate (len - checksum.length) 0

def encodeChecksum (mode : UInt32) (checksum : List UInt8) (opts : FileListOptions) : List UInt8 :=
  if !sendsChecksum mode opts then [] else paddedChecksum checksum opts.checksumLen

def decodeChecksum (mode : UInt32) (opts : FileListOptions) : Wire (List UInt8) :=
  if !sendsChecksum mode opts then pure [] else readExact unexpectedEof opts.checksumLen

/-! ## Reading the fields back

The encoder goes by the flags `f` it computed, the decoder by the flags `g` it got. -/

section ReadBack

variable {f g : Nat} {state : DeltaState} {opts : FileListOptions}

theorem toI32_emod (x : Int) : toI32 x % 2 ^ 32 = x % 2 ^ 32 := by
  unfold toI32
  rw [Int.bmod_def]
  split <;> omega

/-- An unsigned number sent as an `i32`. -/
theorem toNat_toI32_emod {n : Nat} (h : n < 2 ^ 32) : (toI32 n % 2 ^ 32).toNat = n := by
  rw [toI32_emod]
  omega

theorem reads_u32AsInt {n : Nat} (h : n < 2 ^ 32) :
    Reads (do let x ← readInt; pure (x % 2 ^ 32).toNat : Wire Nat) (writeInt (toI32 n)) n :=
  ((reads_int (isI32_toI32 n)).map).congr rfl (toNat_toI32_emod h)

theorem reads_prefixLen {common : Nat} (hle : common ≤ 255) (hf : f.testBit 5 = decide (0 < common))
    (hg : g.testBit 5 = f.testBit 5) :
    Reads (decodePrefixLen g) (if f.testBit 5 then [UInt8.ofNat common] else []) common := by
  unfold decodePrefixLen
  rw [hg, hf]
  by_cases hpos : 0 < common
  · rw [decide_eq_true hpos, if_pos rfl]
    refine ((reads_byte _).map).congr rfl ?_
    simp
    omega
  · rw [Nat.eq_zero_of_not_pos hpos]
    exact Reads.pure 0

theorem reads_suffixLen {len : Nat} (hlt : len < 2 ^ 32) (hf : f.testBit 6 = decide (255 < len))
    (hg : g.testBit 6 = f.testBit 6) :
    Reads (decodeSuffixLen g opts)
      (if f.testBit 6 then writeVarint30 (len % 2 ^ 32) opts.wire.intCodec
        else [UInt8.ofNat len]) len := by
  unfold decodeSuffixLen
  rw [hg, hf]
  by_cases hlong : 255 < len
  · rw [decide_eq_true hlong, if_pos rfl, Nat.mod_eq_of_lt hlt]
    exact reads_varint30 hlt _
  · rw [decide_eq_false hlong]
    refine ((reads_byte _).map).congr rfl ?_
    simp
    omega

/-- A name is read back by a decoder whose last name starts with the part that is left out. -/
theorem reads_filename {name : List UInt8} {enc : DeltaState} (hname : name.length ≤ maxNameLen)
    (hsame : f.testBit 5 = decide (0 < commonPrefixLen enc.prevName name))
    (hlong : f.testBit 6 = decide (255 < name.length - commonPrefixLen enc.prevName name))
    (hg5 : g.testBit 5 = f.testBit 5) (hg6 : g.testBit 6 = f.testBit 6)
    (hprev : state.prevName.take (commonPrefixLen enc.prevName name) =
      name.take (commonPrefixLen enc.prevName name)) :
    Reads (decodeFilename state g opts) (encodeFilename name enc f opts) name := by
  unfold decodeFilename encodeFilename
  have hle := (commonPrefixLen_le_zip enc.prevName name).trans (Nat.min_le_right _ _)
  have hcap := commonPrefixLen_le enc.prevName name
  generalize commonPrefixLen enc.prevName name = common at *
  have hmax : maxNameLen = 65536 := rfl
  -- the decoder's last name is long enough, since it has the common part
  have hhas : common ≤ state.prevName.length := by
    have hlen := congrArg List.length hprev
    simp at hlen
    omega
  rw [List.append_assoc]
  refine (reads_prefixLen hcap hsame hg5).bind ?_
  refine (reads_suffixLen (by omega) hlong hg6).bind ?_
  rw [if_neg (by omega), if_neg (by omega)]
  refine (Reads.map (Reads.exact_of_length (List.length_drop))).congr rfl ?_
  rw [hprev, List.take_append_drop]

def TimeFits (mtime : Int) (opts : FileListOptions) : Prop :=
  if opts.wire.intCodec = .compact then 0 ≤ mtime ∧ mtime < 2 ^ 59 else IsI32 mtime

theorem reads_mtime {mtime : Int} (hg : g.testBit 7 = f.testBit 7) (hfits : TimeFits mtime opts)
    (hprev : f.testBit 7 = true → state.prevMtime = mtime) :
    Reads (decodeMtime state g opts) (encodeMtime mtime f opts) mtime := by
  unfold decodeMtime encodeMtime
  unfold TimeFits at hfits
  rw [hg]
  by_cases hsame : f.testBit 7 = true
  · simpa [hsame, hprev hsame] using Reads.pure mtime
  · split_ifs at hfits ⊢ with hcodec
    · exact reads_varlong (by decide) (by decide) hfits.1 hfits.2
    · rw [toI32_eq hfits]
      exact reads_int hfits

theorem reads_mtimeNsec {nsec : Nat} (hlt : nsec < 2 ^ 32)
    (hf : f.testBit 13 = (opts.wire.hasNanoseconds && decide (nsec ≠ 0)))
    (hg : opts.wire.hasNanoseconds = true → g.testBit 13 = f.testBit 13) :
    Reads (decodeMtimeNsec g opts) (encodeMtimeNsec nsec f opts)
      (if opts.wire.hasNanoseconds then nsec else 0) := by
  unfold decodeMtimeNsec encodeMtimeNsec
  cases hnano : opts.wire.hasNanoseconds with
  | false => exact Reads.pure 0
  | true =>
    rw [hg hnano, hf, hnano, Bool.true_and, if_pos rfl]
    by_cases hzero : nsec = 0
    · rw [hzero]
      exact Reads.pure 0
    · rw [decide_eq_true hzero]
      exact reads_varint hlt

theorem reads_mode {mode : UInt32} (hg : g.testBit 1 = f.testBit 1)
    (hprev : f.testBit 1 = true → state.prevMode = mode) :
    Reads (decodeMode state g) (encodeMode mode f) mode := by
  unfold decodeMode encodeMode
  rw [hg]
  by_cases hsame : f.testBit 1 = true
  · simpa [hsame, hprev hsame] using Reads.pure mode
  · rw [if_neg hsame, if_neg hsame]
    refine ((reads_int (isI32_toI32 _)).map).congr rfl ?_
    rw [toNat_toI32_emod mode.toNat_lt, UInt32.ofNat_toNat]

/-- The name a decoder has for an id after reading it. -/
def idNameAfter (preserve same follows : Bool) (name prevName : List UInt8) : List UInt8 :=
  if preserve && !same && follows then name else prevName

theorem reads_idNumber {id : Nat} (hid : id < 2 ^ 32) :
    Reads (decodeIdNumber opts)
      (if opts.wire.intCodec = .compact then writeVarint id else writeInt (toI32 id)) id := by
  unfold decodeIdNumber
  split_ifs
  · exact reads_varint hid
  · exact reads_u32AsInt hid

theorem reads_idName {follows follows' : Bool} {name prevName : List UInt8}
    (hname : follows = true → name.length ≤ 255) (hinline : follows = true → opts.wire.hasInlineNames = true)
    (hfollows : opts.wire.hasInlineNames = true → follows' = follows) :
    Reads (decodeIdName follows' prevName opts)
      (if follows then UInt8.ofNat name.length :: name else [])
      (if follows then name else prevName) := by
  unfold decodeIdName
  cases follows with
  | true =>
    rw [hinline rfl, hfollows (hinline rfl)]
    refine (reads_byte _).bind (Reads.exact_of_length ?_)
    have hlen := hname rfl
    simp
    omega
  -- no name follows, or the version has none; the name of the entry before is kept
  | false =>
    have hnone : (opts.wire.hasInlineNames && follows') = false := by
      cases hin : opts.wire.hasInlineNames with
      | false => rfl
      | true => exact hfollows hin
    rw [hnone]
    exact Reads.pure prevName

/-- An id is read back, or the decoder's own is kept. -/
theorem reads_id {preserve same follows follows' : Bool} {id prevId : Nat}
    {name prevName : List UInt8} (hid : id < 2 ^ 32) (hname : follows = true → name.length ≤ 255)
    (hinline : follows = true → opts.wire.hasInlineNames = true)
    (hcompact : opts.wire.hasInlineNames = true → opts.wire.intCodec = .compact)
    (hfollows : opts.wire.hasInlineNames = true → follows' = follows)
    (hprev : preserve = true → same = true → prevId = id) :
    Reads (decodeId preserve same follows' prevId prevName opts)
      (encodeId preserve same follows id name opts)
      (if preserve then id else prevId, idNameAfter preserve same follows name prevName) := by
  unfold decodeId encodeId idNameAfter
  cases preserve with
  | false => exact Reads.pure _
  | true =>
    cases same with
    | true =>
      rw [← hprev rfl rfl]
      exact Reads.pure _
    | false =>
      -- the two codecs differ in the number only: names are inline with the compact one alone
      have hbytes : (if !true || false then [] else
          if opts.wire.intCodec = .compact then
            writeVarint id ++ (if follows then UInt8.ofNat name.length :: name else [])
          else writeInt (toI32 id)) =
          (if opts.wire.intCodec = .compact then writeVarint id else writeInt (toI32 id)) ++
            (if follows then UInt8.ofNat name.length :: name else []) := by
        by_cases hcodec : opts.wire.intCodec = .compact
        · simp [hcodec]
        · have hnone : follows = false := by
            cases follows with
            | false => rfl
            | true => exact absurd (hcompact (hinline rfl)) hcodec
          rw [if_neg hcodec, if_neg hcodec, hnone]
          exact (List.append_nil _).symm
      rw [hbytes]
      refine (reads_idNumber hid).bind ?_
      exact (reads_idName hname hinline hfollows).map

/-! ### Device numbers, link targets and checksums -/

theorem reads_rdevMinor (varintMinor : Bool) (minor : Nat) (hlt : minor < 2 ^ 8) :
    Reads (decodeRdevMinor varintMinor)
      (if varintMinor then writeVarint minor else writeInt (toI32 minor)) minor := by
  cases varintMinor with
  | true => exact reads_varint (hlt.trans (by decide))
  | false => exact reads_u32AsInt (hlt.trans (by decide))

theorem reads_rdevMajor {major : Nat} (hlt : major < 2 ^ 32) (hg : g.testBit 8 = f.testBit 8)
    (hprev : f.testBit 8 = true → state.prevRdevMajor = major) :
    Reads (decodeRdevMajor state g opts)
      (if f.testBit 8 then [] else writeVarint30 major opts.wire.intCodec) major := by
  unfold decodeRdevMajor
  rw [hg]
  by_cases hsame : f.testBit 8 = true
  · simpa [hsame, hprev hsame] using Reads.pure major
  · simpa [hsame] using reads_varint30 hlt _

theorem reads_rdevSingle {rdev : Nat} (hlt : rdev < 2 ^ 31) (hg : g.testBit 2 = f.testBit 2)
    (hprev : f.testBit 2 = true → state.prevRdev = rdev) :
    Reads (decodeRdevSingle state g) (if f.testBit 2 then [] else writeInt (toI32 rdev)) rdev := by
  unfold decodeRdevSingle
  rw [hg]
  by_cases hsame : f.testBit 2 = true
  · simpa [hsame, hprev hsame] using Reads.pure rdev
  · rw [if_neg hsame, if_neg hsame, toI32_eq ⟨by omega, by omega⟩]
    refine ((reads_int ⟨by omega, by omega⟩).map).congr rfl ?_
    exact asUsize_ofNat (by omega)

/-- A device number is put together from its two halves. -/
theorem major_or_minor (rdev : Nat) (hlt : rdev < 2 ^ 40) :
    rdev / 2 ^ 8 % 2 ^ 32 * 2 ^ 8 ||| rdev % 2 ^ 8 = rdev := by
  rw [Nat.mod_eq_of_lt (by omega), Nat.mul_comm, ← Nat.two_pow_add_eq_or_of_lt (Nat.mod_lt _ (by decide))]
  exact Nat.div_add_mod rdev (2 ^ 8)

def RdevFits (rdev : Nat) (opts : FileListOptions) : Prop :=
  if opts.wire.deviceCodec = .singleInt then rdev < 2 ^ 31 else rdev < 2 ^ 40

theorem reads_rdev {mode : UInt32} {rdev : Nat}
    (hrdev : shouldSendRdev mode opts = true → RdevFits rdev opts)
    (hg2 : opts.wire.deviceCodec = .singleInt → g.testBit 2 = f.testBit 2)
    (hg8 : opts.wire.deviceCodec ≠ .singleInt → g.testBit 8 = f.testBit 8)
    (hprev2 : opts.wire.deviceCodec = .singleInt → f.testBit 2 = true → state.prevRdev = rdev)
    (hprev8 : f.testBit 8 = true → state.prevRdevMajor = rdev / 2 ^ 8 % 2 ^ 32) :
    Reads (decodeRdev mode state g opts) (encodeRdev mode rdev f opts)
      (if shouldSendRdev mode opts then rdev else 0) := by
  unfold decodeRdev encodeRdev
  cases hsends : shouldSendRdev mode opts with
  | false => exact Reads.pure 0
  | true =>
    have hfits := hrdev hsends
    unfold RdevFits at hfits
    -- one number up to version 27, major and minor from 28 on
    cases hcodec : opts.wire.deviceCodec with
    | singleInt =>
      rw [if_pos hcodec] at hfits
      exact reads_rdevSingle hfits (hg2 hcodec) (hprev2 hcodec)
    | majorMinor varintMinor =>
      have hne : opts.wire.deviceCodec ≠ .singleInt := by rw [hcodec]; exact DeviceCodec.noConfusion
      rw [if_neg hne] at hfits
      have hmajor : rdev / 2 ^ 8 % 2 ^ 32 < 2 ^ 32 := Nat.mod_lt _ (by decide)
      have hminor : rdev % 2 ^ 8 < 2 ^ 8 := Nat.mod_lt _ (by decide)
      refine (reads_rdevMajor hmajor (hg8 hne) hprev8).bind ?_
      exact ((reads_rdevMinor varintMinor _ hminor).map).congr rfl (major_or_minor rdev hfits)

/-- Whether an entry of the given mode has a link target on the wire. -/
def sendsTarget (mode : UInt32) (opts : FileListOptions) : Bool :=
  mode &&& sIfmt = sIflnk && opts.preserveLinks

theorem reads_symlink {mode : UInt32} {target : List UInt8}
    (htarget : sendsTarget mode opts = true → target.length ≤ maxNameLen) :
    Reads (decodeSymlink mode opts) (encodeSymlink mode target opts)
      (if sendsTarget mode opts then target else []) := by
  unfold decodeSymlink encodeSymlink sendsTarget
  have hmax : maxNameLen = 65536 := rfl
  by_cases hskip : mode &&& sIfmt ≠ sIflnk ∨ opts.preserveLinks = false
  · have hnone : (decide (mode &&& sIfmt = sIflnk) && opts.preserveLinks) = false := by
      rcases hskip with hmode | hlinks
      · rw [decide_eq_false hmode, Bool.false_and]
      · rw [hlinks, Bool.and_false]
    rw [if_pos hskip, if_pos hskip, hnone]
    exact Reads.pure []
  · have hsends : (decide (mode &&& sIfmt = sIflnk) && opts.preserveLinks) = true := by
      rw [not_or, not_not, Bool.not_eq_false] at hskip
      rw [decide_eq_true hskip.1, hskip.2, Bool.and_true]
    -- the target is within the limit that the decoder checks
    have hlen := htarget hsends
    rw [if_neg hskip, if_neg hskip, hsends, Nat.mod_eq_of_lt (by omega)]
    refine (reads_varint30 (by omega) _).bind ?_
    rw [if_neg (by omega)]
    exact Reads.exact_of_length rfl

theorem length_paddedChecksum (checksum : List UInt8) (len : Nat) :
    (paddedChecksum checksum len).length = len := by
  unfold paddedChecksum
  rw [List.length_append, List.length_take, List.length_replicate]
  omega

theorem paddedChecksum_eq {checksum : List UInt8} {len : Nat} (h : checksum.length = len) :
    paddedChecksum checksum len = checksum := by
  unfold paddedChecksum
  rw [← h, List.take_length, Nat.sub_self]
  exact List.append_nil checksum

theorem reads_checksum (mode : UInt32) (checksum : List UInt8) :
    Reads (decodeChecksum mode opts) (encodeChecksum mode checksum opts)
      (if sendsChecksum mode opts then paddedChecksum checksum opts.checksumLen else []) := by
  unfold decodeChecksum encodeChecksum
  cases sendsChecksum mode opts with
  | false => exact Reads.pure []
  | true => exact Reads.exact_of_length (length_paddedChecksum checksum opts.checksumLen)

end ReadBack

end Ferrosync
