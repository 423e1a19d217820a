import Ferrosync.Protocol.Varint

set_option autoImplicit false

/-! # Block and file checksums

The rolling checksum of `checksum.rs` in the wrapping arithmetic of `u32`, the seeded strong
checksum of a block and the unseeded checksum of a whole file.
-/

namespace Ferrosync

open ByteStream

/-! ## The rolling checksum -/

structure RollingChecksum where
  s1 : UInt32
  s2 : UInt32
  count : UInt32
  charOffset : UInt32
  deriving DecidableEq, Repr

namespace RollingChecksum

def new (charOffset : UInt32) : RollingChecksum := ⟨0, 0, 0, charOffset⟩

/-- One byte of the accumulation loop shared by `checksum1` and `compute`. -/
def accumulate (charOffset : UInt32) (s : UInt32 × UInt32) (byte : UInt8) : UInt32 × UInt32 :=
  let s1 := s.1 + (byte.toUInt32 + charOffset)
  (s1, s.2 + s1)

def compute (r : RollingChecksum) (data : List UInt8) : RollingChecksum :=
  let s := data.foldl (accumulate r.charOffset) (0, 0)
  { r with s1 := s.1, s2 := s.2, count := UInt32.ofNat data.length }

def roll (r : RollingChecksum) (oldByte newByte : UInt8) : RollingChecksum :=
  let s1 := r.s1 + newByte.toUInt32 - oldByte.toUInt32
  { r with s1 := s1, s2 := r.s2 + s1 - r.count * (oldByte.toUInt32 + r.charOffset) }

def digest (r : RollingChecksum) : UInt32 := (r.s1 &&& (0xFFFF : UInt32)) ||| (r.s2 <<< (16 : UInt32))

/-- The sums of a list from other starting values. -/
theorem foldl_accumulate_add (off : UInt32) (data : List UInt8) :
    ∀ x y d e : UInt32, data.foldl (accumulate off) (x + d, y + e) =
      ((data.foldl (accumulate off) (x, y)).1 + d,
        (data.foldl (accumulate off) (x, y)).2 + UInt32.ofNat data.length * d + e) := by
  induction data with
  | nil => intro x y d e; simp
  | cons byte data ih =>
    intro x y d e
    have hstep : accumulate off (x + d, y + e) byte =
        (x + (byte.toUInt32 + off) + d, y + (x + (byte.toUInt32 + off)) + (d + e)) := by
      simp only [accumulate, Prod.mk.injEq]
      constructor <;> grind
    rw [List.foldl_cons, hstep, ih, List.foldl_cons, List.length_cons, UInt32.ofNat_add]
    simp only [accumulate, Prod.mk.injEq, true_and]
    grind

/-- **Rolling** a window over by one byte gives the checksum of the next window. -/
theorem roll_compute (r : RollingChecksum) (a c : UInt8) (data : List UInt8) :
    (r.compute (a :: data)).roll a c = r.compute (data ++ [c]) := by
  have h := foldl_accumulate_add r.charOffset data 0 0 (a.toUInt32 + r.charOffset)
    (a.toUInt32 + r.charOffset)
  have hstep : accumulate r.charOffset (0, 0) a =
      (0 + (a.toUInt32 + r.charOffset), 0 + (a.toUInt32 + r.charOffset)) := by
    simp [accumulate]
  have hlen : UInt32.ofNat (a :: data).length = UInt32.ofNat data.length + 1 := UInt32.ofNat_add _ _
  have hlen' : UInt32.ofNat (data ++ [c]).length = UInt32.ofNat data.length + 1 := by
    simp
  simp only [roll, compute, List.foldl_cons, List.foldl_append, hstep, h, hlen, hlen']
  generalize data.foldl (accumulate r.charOffset) (0, 0) = s
  simp only [accumulate, RollingChecksum.mk.injEq]
  constructor <;> grind

end RollingChecksum

def checksum1 (data : List UInt8) (charOffset : UInt32) : UInt32 :=
  let s := data.foldl (RollingChecksum.accumulate charOffset) (0, 0)
  (s.1 &&& (0xFFFF : UInt32)) ||| (s.2 <<< (16 : UInt32))

/-- The window of length `w`, computed at the front of the data and rolled on by `k` bytes. -/
def RollingChecksum.rolled (r : RollingChecksum) (data : List UInt8) (w : Nat) :
    Nat → RollingChecksum
  | 0 => r.compute (data.take w)
  | k + 1 => (r.rolled data w k).roll (data.getD k 0) (data.getD (k + w) 0)

theorem RollingChecksum.rolled_eq (r : RollingChecksum) {data : List UInt8} {w k : Nat}
    (hw : 1 ≤ w) (hk : k + w ≤ data.length) :
    r.rolled data w k = r.compute ((data.drop k).take w) := by
  induction k with
  | zero => rfl
  | succ k ih =>
    obtain ⟨w, rfl⟩ := Nat.exists_eq_add_of_le' hw
    have hget : ∀ {i : Nat} (hi : i < data.length), data.getD i 0 = data[i] := by
      intro i hi
      simp [List.getD, hi]
    have hhere : (data.drop k).take (w + 1) = data.getD k 0 :: (data.drop (k + 1)).take w := by
      rw [List.drop_eq_getElem_cons (by omega), List.take_succ_cons, hget]
    have hnext : (data.drop (k + 1)).take (w + 1) =
        (data.drop (k + 1)).take w ++ [data.getD (k + (w + 1)) 0] := by
      rw [List.take_add_one, List.getElem?_drop, List.getElem?_eq_getElem (by omega),
        hget (by omega)]
      simp only [Option.toList_some, show k + 1 + w = k + (w + 1) by omega]
    rw [rolled, ih (by omega), hhere, roll_compute, hnext]

/-- **The rolling checksum is the checksum of the window**, however far it has been rolled. -/
theorem rolled_digest (charOffset : UInt32) {data : List UInt8} {w k : Nat} (hw : 1 ≤ w)
    (hk : k + w ≤ data.length) :
    ((RollingChecksum.new charOffset).rolled data w k).digest =
      checksum1 ((data.drop k).take w) charOffset := by
  rw [RollingChecksum.rolled_eq _ hw hk]
  rfl

theorem rolled_digest_once :
    ((RollingChecksum.new 31).rolled [1, 2, 3] 2 1).digest = checksum1 [2, 3] 31 :=
  rolled_digest 31 (by decide) (by decide)

/-! ## Strong checksums -/

/-- The order in which seed and data are hashed. -/
def seeded (ctx : ProtocolContext) (data : List UInt8) : List UInt8 :=
  let seedBytes := writeInt ctx.seed.toInt
  if ctx.properSeedOrder then seedBytes ++ data else data ++ seedBytes

/-- `ctx.seed as u64`. -/
def seedU64 (ctx : ProtocolContext) : Nat := asUsize ctx.seed.toInt

/-- `checksum2`: the seeded strong checksum of a block. -/
def checksum2 (X : Externals) (data : List UInt8) (ctx : ProtocolContext) : List UInt8 :=
  match ctx.checksumType with
  | .md4 => X.md4 (seeded ctx data)
  | .md5 => X.md5 (seeded ctx data)
  | .blake3 => X.blake3 (seeded ctx data)
  | .xxh3 => leBytes 8 (X.xxh3WithSeed data (seedU64 ctx))
  | .xxh128 => leBytes 16 (X.xxh128WithSeed data (seedU64 ctx))
  | .none => List.replicate ctx.checksumType.digestLen 0

/-- The unseeded digest of one algorithm. -/
def fileDigest (X : Externals) (checksumType : ChecksumType) (data : List UInt8) : List UInt8 :=
  match checksumType with
  | .md4 => X.md4 data
  | .md5 => X.md5 data
  | .blake3 => X.blake3 data
  | .xxh3 => leBytes 8 (X.xxh3 data)
  | .xxh128 => leBytes 16 (X.xxh128 data)
  | .none => List.replicate checksumType.digestLen 0

/-- `file_checksum`: the whole-file transfer checksum. -/
def fileChecksum (X : Externals) (data : List UInt8) (ctx : ProtocolContext) : List UInt8 :=
  fileDigest X ctx.checksumType data

theorem fileDigest_length (X : Externals) (t : ChecksumType) (data : List UInt8) :
    (fileDigest X t data).length = t.digestLen := by
  cases t <;>
    simp [fileDigest, ChecksumType.digestLen, X.md4_length, X.md5_length, X.blake3_length]

theorem checksum2_length (X : Externals) (data : List UInt8) (ctx : ProtocolContext) :
    (checksum2 X data ctx).length = ctx.checksumType.digestLen := by
  unfold checksum2
  split <;> rename_i h <;>
    simp [h, ChecksumType.digestLen, X.md4_length, X.md5_length, X.blake3_length]

/-- `IncrementalChecksum`: the algorithm and the pieces fed so far. The hash crates'
incremental interface digests the concatenation of the pieces. -/
structure IncrementalChecksum where
  checksumType : ChecksumType
  fed : List UInt8
  deriving DecidableEq, Repr

namespace IncrementalChecksum

def new (checksumType : ChecksumType) : IncrementalChecksum := ⟨checksumType, []⟩

def update (c : IncrementalChecksum) (data : List UInt8) : IncrementalChecksum :=
  { c with fed := c.fed ++ data }

def finalize (X : Externals) (c : IncrementalChecksum) : List UInt8 :=
  fileDigest X c.checksumType c.fed

end IncrementalChecksum

end Ferrosync
