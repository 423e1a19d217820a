import Ferrosync.Delta.Checksum

set_option autoImplicit false

/-! # Block signatures

`compute_signatures` and the wire format of `sum.rs`. The scan over the basis is the source's
`while offset < data.len()` loop, run by `Loop.loop`; `computeSignatures_eq` says what it
returns in closed form, block by block.
-/

namespace Ferrosync

open ByteStream

structure SumHead where
  count : Int
  blength : Int
  s2length : Int
  remainder : Int
  deriving DecidableEq, Repr

structure SumEntry where
  sum1 : UInt32
  sum2 : List UInt8
  blockLen : Option UInt32
  deriving DecidableEq, Repr

structure SumStruct where
  head : SumHead
  sums : List SumEntry
  deriving DecidableEq, Repr

def SumHead.default : SumHead := ⟨0, 0, 0, 0⟩

/-! ## Computing signatures -/

def minBlockLen : Int := 700

def maxBlockLen : Int := 2 ^ 17

/-- `compute_block_length`. The square root is taken in `f64` and truncated; where rounding
could differ from the integer root, the value is beyond `maxBlockLen` and clamped. -/
def computeBlockLength (fileLen : Int) : Int :=
  if fileLen ≤ 0 then minBlockLen
  else
    let blength := max minBlockLen (min (Nat.sqrt fileLen.toNat) maxBlockLen)
    (blength + 7) / 8 * 8

def maxDigestLen : Int := 32

/-- `((80.0 + (block_count as f64).log2()) / 8.0).ceil() as i32`. The sum is rounded to a double, the
division by 8 is exact. The logarithm of a negative count is not a number, which is cast to 0; that
of 0 is negative infinity, for which the cast saturates. -/
def s2Estimate (X : Externals) (count : Int) : Int :=
  if count < 0 then 0
  else if count = 0 then -2 ^ 31
  else min ⌈Binary64.round (80 + X.log2 count) / 8⌉ (2 ^ 31 - 1)

/-- `compute_s2length`; a zero block length divides by zero. -/
def computeS2Length (X : Externals) (fileLen blength : Int) : Except Failure Int :=
  if fileLen ≤ 0 then .ok 2
  else if blength = 0 then .error (.fault .panic)
  else
    let blockCount := (fileLen + blength - 1).tdiv blength
    .ok (max (min (s2Estimate X blockCount) maxDigestLen) 2)

/-- The strong checksums are cut to a length from 2 to 32. -/
theorem computeS2Length_range {X : Externals} {fileLen blength s2 : Int}
    (h : computeS2Length X fileLen blength = .ok s2) : 2 ≤ s2 ∧ s2 ≤ 32 := by
  unfold computeS2Length maxDigestLen at h
  split_ifs at h <;> cases h <;> omega

/-- Whatever the logarithm of a positive count is, at least ten bytes are asked for. -/
theorem ten_le_s2Estimate (X : Externals) {count : Int} (hpos : 0 < count) :
    10 ≤ s2Estimate X count := by
  have hlog := X.log2_nonneg count hpos
  have hround : 80 ≤ Binary64.round (80 + X.log2 count) := Binary64.eighty_le_round (by linarith)
  rw [s2Estimate, if_neg (by omega), if_neg (by omega), le_min_iff]
  refine ⟨Int.le_ceil_iff.mpr ?_, by norm_num⟩
  push_cast
  linarith

/-- Sixteen bytes are enough as long as the rounded sum is at most 128. -/
theorem s2Estimate_le_sixteen_iff (X : Externals) {count : Int} (hpos : 0 < count) :
    s2Estimate X count ≤ 16 ↔ Binary64.round (80 + X.log2 count) ≤ 128 := by
  rw [s2Estimate, if_neg (by omega), if_neg (by omega), min_le_iff, or_iff_left (by norm_num),
    Int.ceil_le]
  push_cast
  constructor <;> intro h <;> linarith

/-! ### Hash functions to compute with -/

/-- The outside world in which every hash is a digest of the given function, and the logarithm is
the integer above it. -/
def Externals.ofDigest (digest : Nat → List UInt8 → List UInt8)
    (hlen : ∀ n data, (digest n data).length = n) : Externals where
  md4 := digest 16
  md5 := digest 16
  blake3 := digest 32
  xxh3 := fun data => ofLE (digest 8 data)
  xxh3WithSeed := fun data seed => ofLE (digest 8 data) + seed
  xxh128 := fun data => ofLE (digest 16 data)
  xxh128WithSeed := fun data seed => ofLE (digest 16 data) + seed
  log2 := fun count => Nat.clog 2 count.toNat
  md4_length := hlen 16
  md5_length := hlen 16
  blake3_length := hlen 32
  log2_nonneg := fun _ _ => Nat.cast_nonneg _

section OfDigest

variable {digest : Nat → List UInt8 → List UInt8} {hlen : ∀ n data, (digest n data).length = n}

theorem s2Estimate_ofDigest {count : Int} (hpos : 0 < count) (hle : count ≤ 2 ^ 48) :
    s2Estimate (.ofDigest digest hlen) count = 10 + (Nat.clog 2 count.toNat + 7) / 8 := by
  have hclog : Nat.clog 2 count.toNat ≤ 48 := Nat.clog_le_of_le_pow (by omega)
  have hround : Binary64.round (80 + (Externals.ofDigest digest hlen).log2 count) =
      (80 + Nat.clog 2 count.toNat : ℕ) := by
    rw [← Binary64.round_natCast (n := 80 + Nat.clog 2 count.toNat) (by omega) (by omega)]
    push_cast
    rfl
  rw [s2Estimate, if_neg (by omega), if_neg (by omega), hround]
  generalize Nat.clog 2 count.toNat = c at hclog
  obtain ⟨q, hq⟩ : ∃ q : ℤ, q = ((c : Int) + 7) / 8 := ⟨_, rfl⟩
  have hlow : ((c : ℤ) : ℚ) ≤ (8 * q : ℤ) := Int.cast_le.mpr (by omega)
  have hhigh : ((8 * q : ℤ) : ℚ) < (c + 8 : ℤ) := Int.cast_lt.mpr (by omega)
  have hceil : ⌈((80 + c : ℕ) : ℚ) / 8⌉ = 10 + q := by
    rw [Int.ceil_eq_iff]
    push_cast at hlow hhigh ⊢
    constructor <;> linarith
  rw [hceil, hq, min_eq_left (by omega)]

/-- Files of up to `2 ^ 48` bytes have signatures of ten to sixteen bytes. -/
theorem computeS2Length_ofDigest {n : Nat} {b : Int} (hn : n ≤ 2 ^ 48) (hb : 0 < b) :
    ∃ s2 : Nat, computeS2Length (.ofDigest digest hlen) n b = .ok (s2 : Int) ∧ s2 ≤ 16 ∧
      (0 < n → 10 ≤ s2) := by
  by_cases h0 : (n : Int) ≤ 0
  · exact ⟨2, by rw [computeS2Length, if_pos h0]; rfl, by omega, by omega⟩
  · have hcount : ((n : Int) + b - 1).tdiv b ≤ n := by
      rw [Int.tdiv_eq_ediv_of_nonneg (by omega)]
      refine Int.ediv_le_of_le_mul hb ?_
      nlinarith
    have hpos : 0 < ((n : Int) + b - 1).tdiv b := by
      rw [Int.tdiv_eq_ediv_of_nonneg (by omega)]
      exact Int.le_ediv_of_mul_le hb (by omega)
    have hclog : Nat.clog 2 (((n : Int) + b - 1).tdiv b).toNat ≤ 48 :=
      Nat.clog_le_of_le_pow (by omega)
    refine ⟨10 + (Nat.clog 2 (((n : Int) + b - 1).tdiv b).toNat + 7) / 8, ?_, by omega, by omega⟩
    rw [computeS2Length, if_neg h0, if_neg (by omega)]
    simp only [s2Estimate_ofDigest hpos (by omega), maxDigestLen]
    congr 1
    omega

end OfDigest

/-- Hashes under which everything collides. -/
def collidingExternals : Externals :=
  .ofDigest (fun n _ => List.replicate n 0) fun _ _ => List.length_replicate

/-- The block length `compute_signatures` uses for a file. -/
def signatureBlockLength (data : List UInt8) (ctx : ProtocolContext) : Int :=
  match ctx.blockSizeOverride with
  | some b => b.toInt
  | none => computeBlockLength data.length

def signBlock (X : Externals) (ctx : ProtocolContext) (s2length : Nat) (block : List UInt8) :
    SumEntry :=
  ⟨checksum1 block ctx.charOffset, (checksum2 X block ctx).take s2length, none⟩

/-- One iteration of the signature loop on `(offset, sums)`; the slice of the strong checksum
panics when the digest is shorter than `s2length`. -/
def signatureStep (X : Externals) (ctx : ProtocolContext) (data : List UInt8)
    (blength s2length : Nat) (st : Nat × List SumEntry) :
    Except Failure ((Nat × List SumEntry) ⊕ List SumEntry) :=
  if st.1 < data.length then
    let stop := min (st.1 + blength) data.length
    let block := (data.drop st.1).take (stop - st.1)
    if s2length ≤ (checksum2 X block ctx).length then
      .ok (.inl (stop, st.2 ++ [signBlock X ctx s2length block]))
    else .error (.fault .panic)
  else .ok (.inr st.2)

def computeSignatures (X : Externals) (data : List UInt8) (ctx : ProtocolContext) :
    Except Failure SumStruct :=
  if data = [] then .ok ⟨SumHead.default, []⟩
  else do
    let blength := signatureBlockLength data ctx
    let s2length ← computeS2Length X data.length blength
    let sums ← Loop.loop (.fault .diverged)
      (signatureStep X ctx data (asUsize blength) (asUsize s2length)) (data.length + 1) (0, [])
    let remainder :=
      if data.length % asUsize blength = 0 then blength
      else toI32 (data.length % asUsize blength : Nat)
    pure ⟨⟨toI32 sums.length, blength, s2length, remainder⟩, sums⟩

/-! ## The signature loop in closed form -/

/-- The `i`-th block of `data` for the block length `b`. -/
def blockAt (b : Nat) (data : List UInt8) (i : Nat) : List UInt8 := (data.drop (i * b)).take b

/-- How many blocks of length `b` cover `n` bytes. -/
def blockCount (b n : Nat) : Nat := (n + b - 1) / b

theorem blockCount_le_iff {b n k : Nat} (hb : 0 < b) : blockCount b n ≤ k ↔ n ≤ k * b := by
  unfold blockCount
  rw [Nat.div_le_iff_le_mul_add_pred hb, Nat.mul_comm b k]
  omega

theorem lt_blockCount_iff {b n k : Nat} (hb : 0 < b) : k < blockCount b n ↔ k * b < n := by
  have := blockCount_le_iff (n := n) (k := k) hb
  omega

theorem blockCount_le_self {b : Nat} (hb : 0 < b) (n : Nat) : blockCount b n ≤ n := by
  rw [blockCount_le_iff hb]
  exact Nat.le_mul_of_pos_right n hb

theorem blockAt_length (b : Nat) (data : List UInt8) (i : Nat) :
    (blockAt b data i).length = min b (data.length - i * b) := by
  simp [blockAt]

def signaturesTo (X : Externals) (ctx : ProtocolContext) (data : List UInt8) (b s2 k : Nat) :
    List SumEntry :=
  (List.range k).map fun i => signBlock X ctx s2 (blockAt b data i)

@[simp] theorem signaturesTo_length (X : Externals) (ctx : ProtocolContext)
    (data : List UInt8) (b s2 k : Nat) : (signaturesTo X ctx data b s2 k).length = k := by
  simp [signaturesTo]

theorem signaturesTo_succ (X : Externals) (ctx : ProtocolContext) (data : List UInt8)
    (b s2 k : Nat) :
    signaturesTo X ctx data b s2 (k + 1) =
      signaturesTo X ctx data b s2 k ++ [signBlock X ctx s2 (blockAt b data k)] := by
  simp [signaturesTo, List.range_succ]

theorem signaturesTo_getElem? (X : Externals) (ctx : ProtocolContext) (data : List UInt8)
    {b s2 k i : Nat} (h : i < k) :
    (signaturesTo X ctx data b s2 k)[i]? = some (signBlock X ctx s2 (blockAt b data i)) := by
  simp [signaturesTo, h]

/-- The loop invariant: the first `k` blocks have been signed and `offset` stands behind them. -/
def SignedTo (X : Externals) (ctx : ProtocolContext) (data : List UInt8) (b s2 : Nat)
    (st : Nat × List SumEntry) : Prop :=
  ∃ k, k ≤ blockCount b data.length ∧ st = (min (k * b) data.length, signaturesTo X ctx data b s2 k)

theorem signatureStep_spec (X : Externals) (ctx : ProtocolContext) (data : List UInt8)
    {b s2 : Nat} (hb : 0 < b) (hs2 : s2 ≤ ctx.checksumType.digestLen)
    (st : Nat × List SumEntry) (hst : SignedTo X ctx data b s2 st) :
    (∃ st', signatureStep X ctx data b s2 st = .ok (.inl st') ∧ SignedTo X ctx data b s2 st' ∧
        data.length - st'.1 < data.length - st.1) ∨
      ∃ sums, signatureStep X ctx data b s2 st = .ok (.inr sums) ∧
        sums = signaturesTo X ctx data b s2 (blockCount b data.length) := by
  obtain ⟨k, hk, rfl⟩ := hst
  -- a round signs block `k`, or the offset is at the end and all blocks are signed
  by_cases hlt : k * b < data.length
  · have hoff : min (k * b) data.length = k * b := by omega
    have hstop : min (k * b + b) data.length = min ((k + 1) * b) data.length := by
      rw [Nat.succ_mul]
    have hblock : (data.drop (k * b)).take (min ((k + 1) * b) data.length - k * b)
        = blockAt b data k := by
      rw [blockAt, List.take_eq_take_iff, List.length_drop]
      omega
    left
    refine ⟨_, ?_, ⟨k + 1, (lt_blockCount_iff hb).mpr hlt, rfl⟩, ?_⟩
    · simp [signatureStep, hoff, hlt, hstop, hblock, checksum2_length, hs2, signaturesTo_succ]
    · omega
  · have hge : data.length ≤ k * b := by omega
    have hkeq : k = blockCount b data.length :=
      Nat.le_antisymm hk ((blockCount_le_iff hb).mpr hge)
    right
    refine ⟨_, ?_, rfl⟩
    simp [signatureStep, ← hkeq]
    omega

/-- The remainder field for `n` bytes in blocks of `b`. -/
def remainderOf (b n : Nat) : Nat := if n % b = 0 then b else n % b

/-- **`compute_signatures` in closed form**, for a non-empty file and a positive block length. -/
theorem computeSignatures_eq (X : Externals) {data : List UInt8} {ctx : ProtocolContext}
    {b s2 : Nat} (hdata : data ≠ []) (hb : 0 < b) (hb31 : b < 2 ^ 31)
    (hblen : signatureBlockLength data ctx = b)
    (hs2 : computeS2Length X data.length b = .ok (s2 : Int)) (hs2' : s2 < 2 ^ 31)
    (hdig : s2 ≤ ctx.checksumType.digestLen) :
    computeSignatures X data ctx =
      .ok ⟨⟨toI32 (blockCount b data.length), b, s2, remainderOf b data.length⟩,
        signaturesTo X ctx data b s2 (blockCount b data.length)⟩ := by
  have hbu : asUsize (b : Int) = b := asUsize_ofNat (by omega)
  have hsu : asUsize (s2 : Int) = s2 := asUsize_ofNat (by omega)
  have hstart : SignedTo X ctx data b s2 (0, []) := ⟨0, Nat.zero_le _, by simp [signaturesTo]⟩
  -- the invariant of the loop is `SignedTo`, and its measure what is left of the file
  obtain ⟨sums, hloop, hsums⟩ := Loop.loop_total (.fault .diverged) _
    (SignedTo X ctx data b s2)
    (fun sums => sums = signaturesTo X ctx data b s2 (blockCount b data.length))
    (fun st => data.length - st.1) (signatureStep_spec X ctx data hb hdig)
    (data.length + 1) (0, []) hstart (by simp)
  have hrem : (if data.length % b = 0 then (b : Int) else toI32 (data.length % b : Nat))
      = (remainderOf b data.length : Nat) := by
    unfold remainderOf
    split
    · rfl
    · have hmod : data.length % b < b := Nat.mod_lt _ hb
      exact toI32_eq ⟨by omega, by omega⟩
  simp only [computeSignatures, hdata, hblen, hs2, hbu]
  simp only [bind, Except.bind, hsu, hloop, hsums, hrem, signaturesTo_length]
  rfl

/-! ## Signatures on the wire -/

def writeSumHead (head : SumHead) : List UInt8 :=
  writeInt head.count ++ (writeInt head.blength ++ (writeInt head.s2length ++
    writeInt head.remainder))

def readSumHead : Wire SumHead := do
  let count ← readInt
  let blength ← readInt
  let s2length ← readInt
  let remainder ← readInt
  pure ⟨count, blength, s2length, remainder⟩

def writeSums (sums : SumStruct) : List UInt8 :=
  writeSumHead sums.head ++ sums.sums.flatMap fun entry => writeU32 entry.sum1 ++ entry.sum2

def maxBlockCount : Int := 16 * 1024 * 1024

/-- One entry of `read_sums`. -/
def readSumEntry (s2length : Nat) : Wire SumEntry := do
  let sum1 ← readU32
  let sum2 ← readExact unexpectedEof s2length
  pure ⟨sum1, sum2, none⟩

def readSums : Wire SumStruct := do
  let head ← readSumHead
  if head.count < 0 ∨ head.count > maxBlockCount then
    Reader.fail (outOfRange "sum_count" head.count maxBlockCount)
  else if head.s2length < 0 ∨ head.s2length > 64 then
    Reader.fail (outOfRange "sum_s2length" head.s2length 64)
  else do
    let sums ← (readSumEntry head.s2length.toNat).times head.count.toNat
    pure ⟨head, sums⟩

def SumHead.InRange (head : SumHead) : Prop :=
  IsI32 head.count ∧ IsI32 head.blength ∧ IsI32 head.s2length ∧ IsI32 head.remainder

instance (head : SumHead) : Decidable head.InRange := inferInstanceAs (Decidable (_ ∧ _))

theorem reads_sumHead {head : SumHead} (h : head.InRange) :
    Reads readSumHead (writeSumHead head) head := by
  obtain ⟨h₁, h₂, h₃, h₄⟩ := h
  exact (reads_int h₁).bind ((reads_int h₂).bind ((reads_int h₃).bind (reads_int h₄).map))

theorem reads_sumEntry {entry : SumEntry} {n : Nat} (hlen : entry.sum2.length = n)
    (hfix : entry.blockLen = none) :
    Reads (readSumEntry n) (writeU32 entry.sum1 ++ entry.sum2) entry := by
  have hread : Reads (readSumEntry n) (writeU32 entry.sum1 ++ entry.sum2)
      ⟨entry.sum1, entry.sum2, none⟩ :=
    (reads_u32 entry.sum1).bind (Reads.exact_of_length hlen).map
  refine hread.congr rfl ?_
  rw [← hfix]

/-- **Signatures survive the wire** when the receiver's limits admit their head. -/
theorem reads_sums {s : SumStruct} (hhead : s.head.InRange)
    (hcount : s.head.count = s.sums.length) (hmax : s.head.count ≤ maxBlockCount)
    (hs2 : 0 ≤ s.head.s2length) (hs2' : s.head.s2length ≤ 64)
    (hent : ∀ e ∈ s.sums, e.sum2.length = s.head.s2length.toNat ∧ e.blockLen = none) :
    Reads readSums (writeSums s) s := by
  refine (reads_sumHead hhead).bind ?_
  rw [if_neg (by omega), if_neg (by omega), hcount]
  have hsums := Reads.times (p := readSumEntry s.head.s2length.toNat)
    (fun entry : SumEntry => writeU32 entry.sum1 ++ entry.sum2) id s.sums
    fun e he => reads_sumEntry (hent e he).1 (hent e he).2
  exact hsums.map.congr rfl (by simp)

/-- A head that announces too many blocks is refused, whatever follows it. -/
theorem readSums_count_error {head : SumHead} (h : head.InRange)
    (hcount : head.count > maxBlockCount) (rest : List UInt8) :
    readSums (writeSumHead head ++ rest) =
      .error (outOfRange "sum_count" head.count maxBlockCount) := by
  rw [readSums, bind_ok (reads_sumHead h rest), if_pos (.inr hcount), fail_apply]

theorem readSumHead_ok {bs rest : List UInt8} {head : SumHead}
    (h : readSumHead bs = .ok (head, rest)) :
    head.InRange ∧ rest.length + 16 = bs.length := by
  obtain ⟨count, mid₁, h₁, h⟩ := bind_eq_ok h
  obtain ⟨blength, mid₂, h₂, h⟩ := bind_eq_ok h
  obtain ⟨s2length, mid₃, h₃, h⟩ := bind_eq_ok h
  obtain ⟨remainder, mid₄, h₄, hpure⟩ := bind_eq_ok h
  obtain ⟨rfl, rfl⟩ := pure_eq_ok hpure
  obtain ⟨hcount, hlen₁⟩ := readInt_ok h₁
  obtain ⟨hblength, hlen₂⟩ := readInt_ok h₂
  obtain ⟨hs2length, hlen₃⟩ := readInt_ok h₃
  obtain ⟨hremainder, hlen₄⟩ := readInt_ok h₄
  exact ⟨⟨hcount, hblength, hs2length, hremainder⟩, by omega⟩

theorem readSums_head {bs rest : List UInt8} {sums : SumStruct}
    (h : readSums bs = .ok (sums, rest)) : sums.head.InRange := by
  obtain ⟨head, mid, hhead, h⟩ := bind_eq_ok h
  split_ifs at h
  · cases h
  · cases h
  · obtain ⟨entries, mid', -, hpure⟩ := bind_eq_ok h
    obtain ⟨rfl, -⟩ := pure_eq_ok hpure
    exact (readSumHead_ok hhead).1

theorem stable_sumHead : Stable unexpectedEof readSumHead :=
  stable_int.bind fun _ => stable_int.bind fun _ => stable_int.bind fun _ =>
    stable_int.bind fun _ => Stable.pure _

theorem stable_sums : Stable unexpectedEof readSums := by
  have hentry : ∀ n, Stable unexpectedEof (readSumEntry n) := fun n =>
    stable_u32.bind fun _ => (Stable.exact n).bind fun _ => Stable.pure _
  refine stable_sumHead.bind fun head => ?_
  refine Stable.ite (Stable.fail _) (Stable.ite (Stable.fail _) ?_)
  exact ((hentry _).times _).bind fun _ => Stable.pure _

end Ferrosync
