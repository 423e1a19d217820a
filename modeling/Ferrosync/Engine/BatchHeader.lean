import Ferrosync.Engine.ServerOptions
import Ferrosync.Protocol.Varint

set_option autoImplicit false

/-! # The header of a batch file

`write_batch_header` and `read_batch_header`. The two agree, but the compat flags are written by a
varint of the header's own, which is the one of the protocol for one byte below 128 only
(`batch_header_iff`).
-/

namespace Ferrosync

open ByteStream

/-- The options that have a bit in the stream flags. -/
def streamOptions (o : TransferOptions) : List (Bool × UInt32) :=
  [(o.recursive, 0), (o.preserveOwner, 1), (o.preserveGroup, 2), (o.preserveLinks, 3),
    (o.preserveDevices, 4), (o.preserveHardLinks, 5), (o.checksumMode, 6), (o.preserveAcls, 7),
    (o.preserveXattrs, 8), (o.iconv.isSome, 9), (o.preservePerms, 10), (o.preserveTimes, 12)]

def computeStreamFlags (o : TransferOptions) : UInt32 :=
  (streamOptions o).foldl (fun flags f => if f.1 then flags ||| 1 <<< f.2 else flags) 0

def writeVarintSync (val : UInt32) : List UInt8 :=
  if val.toNat < 0xFE then [val.toUInt8]
  else if val.toNat < 0x10000 then 0xFE :: leBytes 2 val.toNat
  else 0xFF :: leBytes 4 val.toNat

def readVarintSync : Wire UInt32 := do
  let b ← readByte
  if b = 0xFE then do
    let buf ← readExact unexpectedEof 2
    pure (UInt32.ofNat (ofLE buf))
  else if b = 0xFF then readU32
  else pure b.toUInt32

/-- The header with the bytes of the compat flags. -/
def batchHeader (version : UInt8) (compat : List UInt8) (seed : Int) (o : TransferOptions) :
    List UInt8 :=
  writeInt version.toNat ++ ((if 30 ≤ version then compat else []) ++
    (writeInt seed ++ writeU32 (computeStreamFlags o)))

def writeBatchHeader (version : UInt8) (compatFlags : UInt32) (seed : Int) (o : TransferOptions) :
    List UInt8 :=
  batchHeader version (writeVarintSync compatFlags) seed o

def readCompatFlags (version : UInt8) : Wire UInt32 :=
  if 30 ≤ version then readVarintSync else pure 0

def readBatchHeader : Wire (UInt8 × UInt32 × Int × UInt32) := do
  let raw ← readInt
  let version := UInt8.ofNat (raw % 256).toNat
  let compatFlags ← readCompatFlags version
  let seed ← readInt
  let streamFlags ← readU32
  pure (version, compatFlags, seed, streamFlags)

/-! ## Round trip -/

theorem reads_varintSync (val : UInt32) : Reads readVarintSync (writeVarintSync val) val := by
  unfold writeVarintSync
  -- one byte below 0xFE; otherwise a marker, and two or four bytes
  split_ifs with hbyte hshort
  · refine (reads_byte _).bind_nil ?_
    have hnat : val.toUInt8.toNat = val.toNat := by
      rw [UInt32.toNat_toUInt8]
      omega
    rw [if_neg, if_neg]
    · have hback : val.toUInt8.toUInt32 = val := by
        rw [← UInt32.toNat_inj, UInt8.toNat_toUInt32, hnat]
      rw [hback]
      exact Reads.pure val
    · rw [← UInt8.toNat_inj, hnat]
      exact (Nat.lt_trans hbyte (by decide)).ne
    · rw [← UInt8.toNat_inj, hnat]
      exact hbyte.ne
  · refine (reads_byte 0xFE).bind ?_
    refine (Reads.exact_of_length (leBytes_length 2 _)).bind_nil ?_
    rw [ofLE_leBytes_of_lt hshort, UInt32.ofNat_toNat]
    exact Reads.pure val
  · refine (reads_byte 0xFF).bind ?_
    exact reads_u32 val

theorem reads_batchHeader {version : UInt8} {compatFlags : UInt32} {seed : Int} (hseed : IsI32 seed)
    (hflags : version < 30 → compatFlags = 0) (o : TransferOptions) :
    Reads readBatchHeader (writeBatchHeader version compatFlags seed o)
      (version, compatFlags, seed, computeStreamFlags o) := by
  have hlt := version.toNat_lt
  have hversion : UInt8.ofNat ((version.toNat : Int) % 256).toNat = version := by
    rw [show ((version.toNat : Int) % 256).toNat = version.toNat by omega, UInt8.ofNat_toNat]
  have hcompat : Reads (readCompatFlags version)
      (if 30 ≤ version then writeVarintSync compatFlags else []) compatFlags := by
    unfold readCompatFlags
    split_ifs with h30
    · exact reads_varintSync compatFlags
    · rw [hflags (UInt8.not_le.mp h30)]
      exact Reads.pure 0
  refine (reads_int ⟨by omega, by omega⟩).bind ?_
  rw [hversion]
  refine hcompat.bind ((reads_int hseed).bind ((reads_u32 _).bind_nil ?_))
  exact Reads.pure _

/-! ## The varint of the protocol -/

/-- The first byte of a varint of the protocol leaves room for the markers. -/
theorem writeVarint_cons (x : Nat) : ∃ b rest, writeVarint x = b :: rest ∧ b.toNat ≤ 240 ∧
    (128 ≤ x → x < 2 ^ 32 → rest ≠ []) := by
  have hcount : varintCount x = 1 ∧ x < 2 ^ 8 ∨ varintCount x = 2 ∨ varintCount x = 3 ∨
      varintCount x = 4 := by
    unfold varintCount
    split_ifs <;> simp_all
  have hne : ∀ w, leBytes (w + 1) x ≠ [] := fun w => List.cons_ne_nil _ _
  unfold writeVarint
  rcases hcount with ⟨hc, hx⟩ | hc | hc | hc <;> rw [hc] <;> norm_num
  all_goals split_ifs <;> refine ⟨_, _, rfl, ?_, ?_⟩
  all_goals first
    | omega
    | (intro _ _; exact hne _)
    | (simp; done)
    | (simp; omega)

theorem writeVarintSync_eq_iff (val : UInt32) :
    writeVarintSync val = writeVarint val.toNat ↔ val.toNat < 128 := by
  obtain ⟨b, rest, heq, hb, hrest⟩ := writeVarint_cons val.toNat
  have hlt := val.toNat_lt
  constructor
  · intro h
    -- the other encoding has more than one byte from 128 on, with a first byte that is no marker
    by_contra hbig
    rw [heq] at h
    unfold writeVarintSync at h
    split_ifs at h
    · exact hrest (by omega) hlt (List.cons.inj h).2.symm
    all_goals
      rw [← (List.cons.inj h).1] at hb
      exact absurd hb (by decide)
  · intro h
    have hbyte : val.toUInt8 = UInt8.ofNat val.toNat := by
      rw [← UInt8.toNat_inj, UInt32.toNat_toUInt8, UInt8.toNat_ofNat']
    have hcount : varintCount val.toNat = 1 := if_pos (by omega)
    rw [writeVarintSync, if_pos (by omega), hbyte]
    unfold writeVarint
    rw [hcount, if_neg (by norm_num; omega), if_neg (by decide)]

/-- **The header is read back**, and its compat flags are in the format of the protocol exactly if
there are none or they are below 128. -/
theorem batch_header_iff {version : UInt8} {compatFlags : UInt32} {seed : Int}
    (hseed : IsI32 seed) (hflags : version < 30 → compatFlags = 0) (o : TransferOptions) :
    Reads readBatchHeader (writeBatchHeader version compatFlags seed o)
        (version, compatFlags, seed, computeStreamFlags o) ∧
      (writeBatchHeader version compatFlags seed o =
          batchHeader version (writeVarint compatFlags.toNat) seed o ↔
        version < 30 ∨ compatFlags.toNat < 128) := by
  refine ⟨reads_batchHeader hseed hflags o, ?_⟩
  rw [← writeVarintSync_eq_iff]
  unfold writeBatchHeader batchHeader
  by_cases h30 : version < 30
  · simp [h30, UInt8.not_le.mpr h30]
  · simp [h30, UInt8.not_lt.mp h30]

/-- In protocol 31 with incremental recursion and varint file list flags negotiated (compat flags
`1 + 128`), the header carries the flags as the one byte 129, where a peer of the protocol reads
the two bytes 128 and 129. -/
theorem compat_flags_not_native :
    writeBatchHeader 31 129 7 .default = [31, 0, 0, 0, 129, 7, 0, 0, 0, 0, 0, 0, 0] ∧
      batchHeader 31 (writeVarint 129) 7 .default =
        [31, 0, 0, 0, 128, 129, 7, 0, 0, 0, 0, 0, 0, 0] := by
  decide

/-- The header of a recursive transfer that keeps the times, in protocol 31 with incremental
recursion: it is read back, and its flags are in the format of the protocol. -/
theorem batch_header_incremental :
    let o := { TransferOptions.default with dirMode := .recurse, preserveTimes := true }
    Reads readBatchHeader (writeBatchHeader 31 1 (-5) o) (31, 1, -5, 0x1001) ∧
      writeBatchHeader 31 1 (-5) o = batchHeader 31 (writeVarint 1) (-5) o := by
  intro o
  have hflags : computeStreamFlags o = 0x1001 := by decide
  obtain ⟨hreads, hnative⟩ := @batch_header_iff 31 1 (-5) (by decide)
    (fun h => absurd h (by decide)) o
  rw [hflags] at hreads
  exact ⟨hreads, hnative.mpr (.inr (by decide))⟩

end Ferrosync
