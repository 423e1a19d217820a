import Ferrosync.Delta.Sum
import Ferrosync.Protocol.Negotiation

set_option autoImplicit false

/-! # Signatures of either kind

A file is signed block by block, the blocks of equal length or found by their contents
(`compute_signatures_cdc`). The two kinds have their own form on the wire: with equal blocks the
lengths are left to the head, otherwise each block brings its own.

* `signature_exchange`: the blocks partition the file, what is written is read back, and signing
  with equal blocks is the same by either function;
* `signatures_total_iff`: for which settings signing returns at all.
-/

namespace Ferrosync

open ByteStream List

variable {s2 n b : Nat} {ctx : ProtocolContext} {data : List UInt8}

/-! ## The chunker -/

structure ChunkInfo where
  offset : Nat
  length : Nat
  deriving DecidableEq, Repr

inductive ChunkingStrategy where
  | fixed (blockSize : Nat)
  | fastCdc (min avg max : Nat)
  deriving DecidableEq, Repr

/-- The chunks of the `fastcdc` crate for its three sizes. -/
abbrev ContentChunker : Type := Nat → Nat → Nat → List UInt8 → List ChunkInfo

/-- One iteration of the loop for blocks of equal length, on `(offset, chunks)`. -/
def chunkStep (blockSize len : Nat) (st : Nat × List ChunkInfo) :
    Except Failure ((Nat × List ChunkInfo) ⊕ List ChunkInfo) :=
  if st.1 < len then
    let length := min blockSize (len - st.1)
    .ok (.inl (st.1 + length, st.2 ++ [⟨st.1, length⟩]))
  else .ok (.inr st.2)

def chunkData (cdc : ContentChunker) (data : List UInt8) (strategy : ChunkingStrategy) :
    Except Failure (List ChunkInfo) :=
  if data = [] then .ok []
  else match strategy with
    | .fixed blockSize =>
      if blockSize = 0 then .ok []
      else Loop.loop (.fault .diverged) (chunkStep blockSize data.length) (data.length + 1) (0, [])
    | .fastCdc min avg max => .ok (cdc min avg max data)

/-- The signature of one chunk; both slices panic if they are out of range. -/
def signChunk (X : Externals) (ctx : ProtocolContext) (data : List UInt8) (s2length : Nat)
    (isCdc : Bool) (chunk : ChunkInfo) : Except Failure SumEntry :=
  let block := (data.drop chunk.offset).take chunk.length
  if chunk.offset + chunk.length ≤ data.length ∧ s2length ≤ (checksum2 X block ctx).length then
    .ok { signBlock X ctx s2length block with
      blockLen := if isCdc then some (UInt32.ofNat chunk.length) else none }
  else .error (.fault .panic)

/-- The block length in the head. -/
def ChunkingStrategy.blength : ChunkingStrategy → Int
  | .fixed blockSize => toI32 blockSize
  | .fastCdc _ avg _ => toI32 avg

def ChunkingStrategy.isCdc : ChunkingStrategy → Bool
  | .fixed _ => false
  | .fastCdc _ _ _ => true

def computeSignaturesCdc (X : Externals) (cdc : ContentChunker) (data : List UInt8)
    (ctx : ProtocolContext) (strategy : ChunkingStrategy) : Except Failure SumStruct :=
  if data = [] then .ok ⟨SumHead.default, []⟩
  else do
    let chunks ← chunkData cdc data strategy
    let s2length ← computeS2Length X data.length strategy.blength
    let sums ← chunks.mapM (signChunk X ctx data (asUsize s2length) strategy.isCdc)
    let remainder := (chunks.getLast?.map fun last => toI32 last.length).getD 0
    pure ⟨⟨toI32 sums.length, strategy.blength, s2length, remainder⟩, sums⟩

/-! ## Signatures with their lengths on the wire -/

def writeSumsCdc (s : SumStruct) : List UInt8 :=
  writeSumHead s.head ++ s.sums.flatMap fun entry =>
    writeU32 (entry.blockLen.getD (UInt32.ofNat (s.head.blength % 2 ^ 32).toNat)) ++
      (writeU32 entry.sum1 ++ entry.sum2)

/-- One entry of `read_sums_cdc`. -/
def readSumEntryCdc (s2length : Nat) : Wire SumEntry := do
  let blockLen ← readU32
  let sum1 ← readU32
  let sum2 ← readExact unexpectedEof s2length
  pure ⟨sum1, sum2, some blockLen⟩

def readSumsCdc : Wire SumStruct := do
  let head ← readSumHead
  if head.count < 0 ∨ head.count > maxBlockCount then
    Reader.fail (outOfRange "sum_count" head.count maxBlockCount)
  else if head.s2length < 0 ∨ head.s2length > 64 then
    Reader.fail (outOfRange "sum_s2length" head.s2length 64)
  else do
    let sums ← (readSumEntryCdc head.s2length.toNat).times head.count.toNat
    pure ⟨head, sums⟩

theorem reads_sumEntryCdc {entry : SumEntry} {bl : UInt32} (hlen : entry.sum2.length = n)
    (hbl : entry.blockLen = some bl) (default : UInt32) :
    Reads (readSumEntryCdc n)
      (writeU32 (entry.blockLen.getD default) ++ (writeU32 entry.sum1 ++ entry.sum2)) entry := by
  have hread : Reads (readSumEntryCdc n) (writeU32 bl ++ (writeU32 entry.sum1 ++ entry.sum2))
      ⟨entry.sum1, entry.sum2, some bl⟩ :=
    (reads_u32 bl).bind ((reads_u32 entry.sum1).bind (Reads.exact_of_length hlen).map)
  refine hread.congr ?_ ?_
  · rw [hbl, Option.getD_some]
  · rw [← hbl]

theorem reads_sumsCdc {s : SumStruct} (hhead : s.head.InRange)
    (hcount : s.head.count = s.sums.length) (hmax : s.head.count ≤ maxBlockCount)
    (hs2 : 0 ≤ s.head.s2length) (hs2' : s.head.s2length ≤ 64)
    (hent : ∀ e ∈ s.sums, e.sum2.length = s.head.s2length.toNat ∧ ∃ bl, e.blockLen = some bl) :
    Reads readSumsCdc (writeSumsCdc s) s := by
  refine (reads_sumHead hhead).bind ?_
  rw [if_neg (by omega), if_neg (by omega), hcount]
  have hsums := Reads.times (p := readSumEntryCdc s.head.s2length.toNat)
    (fun entry : SumEntry =>
      writeU32 (entry.blockLen.getD (UInt32.ofNat (s.head.blength % 2 ^ 32).toNat)) ++
        (writeU32 entry.sum1 ++ entry.sum2)) id s.sums
    fun e he => by
      obtain ⟨hlen, bl, hbl⟩ := hent e he
      exact reads_sumEntryCdc hlen hbl _
  exact hsums.map.congr rfl (by simp)

/-! ## Blocks of equal length -/

section Fixed

variable {data : List UInt8} {b : Nat}

/-- The first `k` chunks of equal length. -/
def chunksTo (b len k : Nat) : List ChunkInfo :=
  (List.range k).map fun i => ⟨i * b, min b (len - i * b)⟩

theorem chunksTo_succ (b len k : Nat) :
    chunksTo b len (k + 1) = chunksTo b len k ++ [⟨k * b, min b (len - k * b)⟩] := by
  simp [chunksTo, range_succ]

/-- The loop of `chunk_data` in closed form. -/
theorem chunkData_fixed (cdc : ContentChunker) (hdata : data ≠ []) (hb : 0 < b) :
    chunkData cdc data (.fixed b) =
      .ok (chunksTo b data.length (blockCount b data.length)) := by
  -- the invariant of the loop: behind `k` rounds there are the first `k` chunks
  have hstep : ∀ st, (∃ k, k ≤ blockCount b data.length ∧
        st = (min (k * b) data.length, chunksTo b data.length k)) →
      (∃ st', chunkStep b data.length st = .ok (.inl st') ∧
        (∃ k, k ≤ blockCount b data.length ∧
          st' = (min (k * b) data.length, chunksTo b data.length k)) ∧
        data.length - st'.1 < data.length - st.1) ∨
      ∃ chunks, chunkStep b data.length st = .ok (.inr chunks) ∧
        chunks = chunksTo b data.length (blockCount b data.length) := by
    rintro _ ⟨k, hk, rfl⟩
    -- a round adds a chunk, or the offset is at the end and all of them are there
    by_cases hlt : k * b < data.length
    · have hoff : min (k * b) data.length = k * b := by omega
      have hnext : k * b + min b (data.length - k * b) = min ((k + 1) * b) data.length := by
        rw [Nat.succ_mul]
        omega
      left
      refine ⟨_, ?_, ⟨k + 1, (lt_blockCount_iff hb).mpr hlt, rfl⟩, ?_⟩
      · simp only [chunkStep, hoff, hlt, if_true, hnext, chunksTo_succ]
      · omega
    · have hge : data.length ≤ k * b := by omega
      have hkeq : k = blockCount b data.length :=
        Nat.le_antisymm hk ((blockCount_le_iff hb).mpr hge)
      right
      refine ⟨_, ?_, rfl⟩
      simp only [chunkStep, Nat.min_eq_right hge, Nat.lt_irrefl, if_false, ← hkeq]
  obtain ⟨chunks, hloop, rfl⟩ := Loop.loop_total (.fault .diverged) _ _ _
    (fun st => data.length - st.1) hstep (data.length + 1) (0, [])
    ⟨0, Nat.zero_le _, by simp [chunksTo]⟩ (by simp)
  rw [chunkData, if_neg hdata, if_neg (by omega), hloop]

/-- The blocks that are signed. -/
def blocksOf (b : Nat) (data : List UInt8) : List (List UInt8) :=
  (List.range (blockCount b data.length)).map (blockAt b data)

theorem flatten_blocks (b : Nat) (data : List UInt8) (k : Nat) :
    ((List.range k).map (blockAt b data)).flatten = data.take (k * b) := by
  induction k with
  | zero => simp
  | succ k ih =>
    rw [range_succ, map_append, flatten_append, ih, map_singleton,
      flatten_singleton, blockAt, Nat.succ_mul, take_add]

theorem flatten_blocksOf (hb : 0 < b) (data : List UInt8) : (blocksOf b data).flatten = data := by
  rw [blocksOf, flatten_blocks]
  exact take_of_length_le ((blockCount_le_iff hb).mp le_rfl)

/-- The length of the last block is the remainder. -/
theorem length_lastBlock (hb : 0 < b) (hn : 0 < n) :
    min b (n - (blockCount b n - 1) * b) = remainderOf b n := by
  have hpos : 0 < blockCount b n := (lt_blockCount_iff hb).mpr (by omega)
  have hlow : (blockCount b n - 1) * b < n := (lt_blockCount_iff hb).mp (by omega)
  have hhigh : n ≤ (blockCount b n - 1) * b + b := by
    have hle := (blockCount_le_iff (n := n) hb).mp le_rfl
    rwa [show blockCount b n = (blockCount b n - 1) + 1 by omega, Nat.succ_mul] at hle
  generalize (blockCount b n - 1) = q at hlow hhigh
  obtain ⟨r, rfl⟩ : ∃ r, n = q * b + r := ⟨n - q * b, by omega⟩
  have hmod : (q * b + r) % b = r % b := Nat.mul_add_mod_self_right q b r
  unfold remainderOf
  rw [hmod, Nat.add_sub_cancel_left]
  rcases Nat.lt_or_ge r b with hlt | hge
  · rw [Nat.mod_eq_of_lt hlt, if_neg (by omega)]
    omega
  · obtain rfl : r = b := by omega
    rw [Nat.mod_self, if_pos rfl, Nat.min_self]

/-- What the signatures say of the data: it is cut into blocks of `b` bytes but for the last, each
of which has its signature, and the head has their number and the length of the last. -/
structure Signs (X : Externals) (ctx : ProtocolContext) (data : List UInt8) (b : Nat)
    (s : SumStruct) (blocks : List (List UInt8)) : Prop where
  partition : blocks.flatten = data
  sums : s.sums = blocks.map (signBlock X ctx s.head.s2length.toNat)
  count : s.head.count = blocks.length
  ceiling : blocks.length = (data.length + b - 1) / b
  full : ∀ block ∈ blocks.dropLast, block.length = b
  remainder : ∀ last, blocks.getLast? = some last → s.head.remainder = last.length

theorem getLast?_map_range {α : Type} (f : Nat → α) (hn : 0 < n) :
    ((List.range n).map f).getLast? = some (f (n - 1)) := by
  obtain ⟨n, rfl⟩ : ∃ k, n = k + 1 := ⟨n - 1, by omega⟩
  simp [range_succ]

/-- The signatures in closed form are those of the blocks. -/
theorem signs_blocksOf (X : Externals) (hb : 0 < b) (hdata : data ≠ [])
    (hlen : data.length < 2 ^ 31) :
    Signs X ctx data b ⟨⟨toI32 (blockCount b data.length), b, s2, remainderOf b data.length⟩,
      signaturesTo X ctx data b s2 (blockCount b data.length)⟩ (blocksOf b data) where
  partition := flatten_blocksOf hb data
  sums := by
    rw [blocksOf, map_map]
    rfl
  count := by
    have hle := blockCount_le_self hb data.length
    have hfits : IsI32 (blockCount b data.length) := ⟨by omega, by omega⟩
    rw [blocksOf, length_map, length_range, toI32_eq hfits]
  ceiling := by
    rw [blocksOf, length_map, length_range]
    rfl
  full := by
    intro block hblock
    rw [blocksOf, ← map_dropLast] at hblock
    obtain ⟨i, hi, rfl⟩ := mem_map.mp hblock
    -- a block that is not the last has another behind it, and so the full length
    have hnext : i + 1 < blockCount b data.length := by
      obtain ⟨k, hk⟩ : ∃ k, blockCount b data.length = k := ⟨_, rfl⟩
      rw [hk] at hi ⊢
      cases k with
      | zero => simp at hi
      | succ k =>
        rw [range_succ, dropLast_concat, mem_range] at hi
        omega
    have hfull := (lt_blockCount_iff hb).mp hnext
    rw [blockAt_length]
    rw [Nat.succ_mul] at hfull
    omega
  remainder := by
    intro last hlast
    have hpos : 0 < data.length := length_pos_iff.mpr hdata
    have hcount : 0 < blockCount b data.length := (lt_blockCount_iff hb).mpr (by omega)
    rw [blocksOf, getLast?_map_range _ hcount] at hlast
    rw [← Option.some.inj hlast, blockAt_length, length_lastBlock hb hpos]

end Fixed

theorem mapM_ok {ε α β : Type} {f : α → Except ε β} {g : α → β} {l : List α}
    (h : ∀ a ∈ l, f a = .ok (g a)) : l.mapM f = .ok (l.map g) := by
  induction l with
  | nil => rfl
  | cons a l ih =>
    rw [mapM_cons, h a mem_cons_self, ih fun x hx => h x (mem_cons_of_mem a hx)]
    rfl

/-- Blocks of equal length are signed alike by either function. -/
theorem computeSignaturesCdc_fixed (X : Externals) (cdc : ContentChunker) (hdata : data ≠ [])
    (hb : 0 < b) (hb31 : b < 2 ^ 31) (hlen : data.length < 2 ^ 31)
    (hs2 : computeS2Length X data.length b = .ok (s2 : Int))
    (hdig : s2 ≤ ctx.checksumType.digestLen) :
    computeSignaturesCdc X cdc data ctx (.fixed b) =
      .ok ⟨⟨toI32 (blockCount b data.length), b, s2, remainderOf b data.length⟩,
        signaturesTo X ctx data b s2 (blockCount b data.length)⟩ := by
  obtain ⟨hlow, hhigh⟩ := computeS2Length_range hs2
  have hpos : 0 < data.length := length_pos_iff.mpr hdata
  have hcount : 0 < blockCount b data.length := (lt_blockCount_iff hb).mpr (by omega)
  have hblength : (ChunkingStrategy.fixed b).blength = b := toI32_eq ⟨by omega, by omega⟩
  -- no content chunker is used: each chunk is the block at its offset
  have hsums : (chunksTo b data.length (blockCount b data.length)).mapM
      (signChunk X ctx data s2 false) =
        .ok (signaturesTo X ctx data b s2 (blockCount b data.length)) := by
    rw [chunksTo, mapM_map]
    refine mapM_ok fun i hi => ?_
    have hlt := (lt_blockCount_iff hb).mp (mem_range.mp hi)
    have hblock : (data.drop (i * b)).take (min b (data.length - i * b)) = blockAt b data i := by
      rw [blockAt, take_eq_take_iff, length_drop]
      omega
    unfold signChunk
    dsimp only [Function.comp_apply]
    rw [hblock, checksum2_length, if_pos ⟨by omega, hdig⟩]
    rfl
  have hlast : (chunksTo b data.length (blockCount b data.length)).getLast? =
      some ⟨(blockCount b data.length - 1) * b, remainderOf b data.length⟩ := by
    rw [chunksTo, getLast?_map_range _ hcount, length_lastBlock hb hpos]
  -- the remainder comes from the last chunk; for the blocks it is computed from the length
  have hrem : toI32 (remainderOf b data.length : Nat) = remainderOf b data.length := by
    have hmod := Nat.mod_lt data.length hb
    unfold remainderOf
    split_ifs <;> exact toI32_eq ⟨by omega, by omega⟩
  have hsu : asUsize (s2 : Int) = s2 := asUsize_ofNat (by omega)
  rw [computeSignaturesCdc, if_neg hdata, chunkData_fixed cdc hdata hb, hblength]
  simp only [bind, Except.bind, hs2, hsu, ChunkingStrategy.isCdc, hsums, hlast, Option.map_some,
    hrem, signaturesTo_length]
  rfl

/-! ## Content-defined blocks -/

/-- Chunks that follow each other from one offset to another. -/
def Consecutive : Nat → List ChunkInfo → Nat → Prop
  | start, [], stop => start = stop
  | start, chunk :: chunks, stop =>
    chunk.offset = start ∧ Consecutive (start + chunk.length) chunks stop

section Cdc

variable {start stop : Nat} {chunks : List ChunkInfo}

theorem Consecutive.sum_lengths (h : Consecutive start chunks stop) :
    start + (chunks.map ChunkInfo.length).sum = stop := by
  induction chunks generalizing start with
  | nil => exact h
  | cons chunk chunks ih =>
    rw [map_cons, sum_cons, ← Nat.add_assoc]
    exact ih h.2

theorem Consecutive.in_range (h : Consecutive start chunks stop) {chunk : ChunkInfo}
    (hmem : chunk ∈ chunks) : chunk.offset + chunk.length ≤ stop := by
  induction chunks generalizing start with
  | nil => cases hmem
  | cons first chunks ih =>
    rcases mem_cons.mp hmem with rfl | hmem
    · have hsum := h.2.sum_lengths
      rw [h.1]
      omega
    · exact ih h.2 hmem

def chunkEntry (X : Externals) (ctx : ProtocolContext) (data : List UInt8) (s2 : Nat)
    (chunk : ChunkInfo) : SumEntry :=
  { signBlock X ctx s2 ((data.drop chunk.offset).take chunk.length) with
    blockLen := some (UInt32.ofNat chunk.length) }

/-- `compute_signatures_cdc` in closed form, for chunks found by their contents. -/
theorem computeSignaturesCdc_fastCdc (X : Externals) (cdc : ContentChunker) {min avg max : Nat}
    (hdata : data ≠ []) (havg31 : avg < 2 ^ 31)
    (hs2 : computeS2Length X data.length avg = .ok (s2 : Int))
    (hdig : s2 ≤ ctx.checksumType.digestLen)
    (hchunks : Consecutive 0 (cdc min avg max data) data.length) :
    ∃ remainder, IsI32 remainder ∧
      computeSignaturesCdc X cdc data ctx (.fastCdc min avg max) =
        .ok ⟨⟨toI32 (cdc min avg max data).length, avg, s2, remainder⟩,
          (cdc min avg max data).map (chunkEntry X ctx data s2)⟩ := by
  obtain ⟨hlow, hhigh⟩ := computeS2Length_range hs2
  have hblength : (ChunkingStrategy.fastCdc min avg max).blength = avg :=
    toI32_eq ⟨by omega, by omega⟩
  have hsu : asUsize (s2 : Int) = s2 := asUsize_ofNat (by omega)
  have hsums : (cdc min avg max data).mapM (signChunk X ctx data s2 true) =
      .ok ((cdc min avg max data).map (chunkEntry X ctx data s2)) := by
    refine mapM_ok fun chunk hmem => ?_
    unfold signChunk
    dsimp only
    rw [checksum2_length, if_pos ⟨hchunks.in_range hmem, hdig⟩]
    rfl
  refine ⟨((cdc min avg max data).getLast?.map fun last => toI32 last.length).getD 0, ?_, ?_⟩
  · cases (cdc min avg max data).getLast? with
    | none => exact ⟨by decide, by decide⟩
    | some last =>
      rw [Option.map_some, Option.getD_some]
      exact isI32_toI32 _
  · rw [computeSignaturesCdc, if_neg hdata, chunkData, if_neg hdata, hblength]
    simp only [bind, Except.bind, hs2, hsu, ChunkingStrategy.isCdc, hsums, length_map]
    rfl

end Cdc

/-! ## The exchange -/

theorem length_sum2 (X : Externals) (ctx : ProtocolContext) (block : List UInt8)
    (hdig : s2 ≤ ctx.checksumType.digestLen) : (signBlock X ctx s2 block).sum2.length = s2 := by
  show ((checksum2 X block ctx).take s2).length = s2
  rw [length_take, checksum2_length]
  omega

theorem SumHead.inRange_of_nat {count remainder : Int} (hcount : IsI32 count) (hb : b < 2 ^ 31)
    (hs2 : s2 < 2 ^ 31) (hremainder : IsI32 remainder) :
    SumHead.InRange ⟨count, b, s2, remainder⟩ :=
  ⟨hcount, ⟨by simp only; omega, by simp only; omega⟩, ⟨by simp only; omega, by simp only; omega⟩,
    hremainder⟩

/-- The length a block brings. -/
def SumEntry.ownLength (entry : SumEntry) : Nat := (entry.blockLen.map UInt32.toNat).getD 0

/-- **Signature exchange.** With blocks of equal length: they partition the file, the signatures are
read back, and both functions compute the same. With blocks found by their contents: the signatures
are read back, and the lengths of the blocks add up. -/
theorem signature_exchange (X : Externals) (cdc : ContentChunker) {data : List UInt8}
    {ctx : ProtocolContext} (hlen : data.length < 2 ^ 31) :
    (∀ b s2 : Nat, 0 < b → b < 2 ^ 31 → signatureBlockLength data ctx = b →
      computeS2Length X data.length b = .ok (s2 : Int) → s2 ≤ ctx.checksumType.digestLen →
      ∃ s blocks, computeSignatures X data ctx = .ok s ∧ Signs X ctx data b s blocks ∧
        (s.head.count ≤ maxBlockCount → Reads readSums (writeSums s) s) ∧
        computeSignaturesCdc X cdc data ctx (.fixed b) = .ok s) ∧
    (∀ min avg max s2 : Nat, 0 < avg → avg < 2 ^ 31 →
      Consecutive 0 (cdc min avg max data) data.length →
      computeS2Length X data.length avg = .ok (s2 : Int) → s2 ≤ ctx.checksumType.digestLen →
      ∃ s, computeSignaturesCdc X cdc data ctx (.fastCdc min avg max) = .ok s ∧
        (s.sums.map SumEntry.ownLength).sum = data.length ∧
        (s.sums.length ≤ maxBlockCount → Reads readSumsCdc (writeSumsCdc s) s)) := by
  constructor
  · intro b s2 hb hb31 hblen hs2 hdig
    by_cases hdata : data = []
    · subst hdata
      refine ⟨⟨SumHead.default, []⟩, [], rfl, ?_, fun _ => ?_, rfl⟩
      · refine ⟨rfl, rfl, rfl, ?_, nofun, nofun⟩
        exact (Nat.div_eq_of_lt (by simp only [length_nil]; omega)).symm
      · exact reads_sums (by decide) rfl (by decide) (by decide) (by decide) nofun
    · obtain ⟨hlow, hhigh⟩ := computeS2Length_range hs2
      have hlow' : (0 : Int) ≤ s2 := by omega
      have hhigh' : (s2 : Int) ≤ 64 := by omega
      have hle := blockCount_le_self hb data.length
      have hcount : toI32 (blockCount b data.length) = blockCount b data.length :=
        toI32_eq ⟨by omega, by omega⟩
      have hrem : remainderOf b data.length ≤ b := by
        have hmod := Nat.mod_lt data.length hb
        unfold remainderOf
        split_ifs <;> omega
      refine ⟨_, blocksOf b data,
        computeSignatures_eq X hdata hb hb31 hblen hs2 (by omega) hdig,
        signs_blocksOf X hb hdata hlen, fun hmax => ?_,
        computeSignaturesCdc_fixed X cdc hdata hb hb31 hlen hs2 hdig⟩
      have hhead : SumHead.InRange
          ⟨toI32 (blockCount b data.length), b, s2, remainderOf b data.length⟩ :=
        SumHead.inRange_of_nat (isI32_toI32 _) hb31 (by omega) ⟨by omega, by omega⟩
      refine reads_sums hhead ?_ hmax hlow' hhigh' fun e he => ?_
      · simp only [signaturesTo_length, hcount]
      · obtain ⟨i, -, rfl⟩ := mem_map.mp he
        exact ⟨length_sum2 X ctx _ hdig, rfl⟩
  · intro min avg max s2 havg havg31 hchunks hs2 hdig
    by_cases hdata : data = []
    · subst hdata
      refine ⟨⟨SumHead.default, []⟩, rfl, rfl, fun _ => ?_⟩
      exact reads_sumsCdc (by decide) rfl (by decide) (by decide) (by decide) nofun
    · obtain ⟨hlow, hhigh⟩ := computeS2Length_range hs2
      have hlow' : (0 : Int) ≤ s2 := by omega
      have hhigh' : (s2 : Int) ≤ 64 := by omega
      obtain ⟨remainder, hrem, hsums⟩ :=
        computeSignaturesCdc_fastCdc X cdc hdata havg31 hs2 hdig hchunks
      refine ⟨_, hsums, ?_, fun hmax => ?_⟩
      · rw [map_map]
        have hsum := hchunks.sum_lengths
        rw [Nat.zero_add] at hsum
        rw [← hsum]
        refine congrArg sum (map_congr_left fun chunk hmem => ?_)
        have hrange := hchunks.in_range hmem
        show (UInt32.ofNat chunk.length).toNat = chunk.length
        rw [UInt32.toNat_ofNat']
        omega
      · simp only [length_map] at hmax
        unfold maxBlockCount at hmax
        have hcount : toI32 (cdc min avg max data).length = (cdc min avg max data).length :=
          toI32_eq ⟨by omega, by omega⟩
        have hhead : SumHead.InRange ⟨toI32 (cdc min avg max data).length, avg, s2, remainder⟩ :=
          SumHead.inRange_of_nat (isI32_toI32 _) havg31 (by omega) hrem
        refine reads_sumsCdc hhead ?_ ?_ hlow' hhigh' fun e he => ?_
        · simp only [length_map, hcount]
        · simp only [hcount]
          exact hmax
        · obtain ⟨chunk, -, rfl⟩ := mem_map.mp he
          exact ⟨length_sum2 X ctx _ hdig, _, rfl⟩

/-- Three bytes in blocks of two, and as one chunk and two. -/
theorem signature_exchange_three :
    (∃ s, computeSignatures collidingExternals [1, 2, 3] ⟨0, .md5, 0, true, some 2⟩ = .ok s ∧
      Reads readSums (writeSums s) s) ∧
    ∃ s, computeSignaturesCdc collidingExternals (fun _ _ _ _ => [⟨0, 1⟩, ⟨1, 2⟩]) [1, 2, 3]
        ⟨0, .md5, 0, true, some 2⟩ (.fastCdc 1 2 4) = .ok s ∧
      (s.sums.map SumEntry.ownLength).sum = 3 ∧ Reads readSumsCdc (writeSumsCdc s) s := by
  have hs2 : computeS2Length collidingExternals 3 2 = .ok 11 := by decide +kernel
  obtain ⟨hfixed, hcdc⟩ := @signature_exchange collidingExternals (fun _ _ _ _ => [⟨0, 1⟩, ⟨1, 2⟩])
    [1, 2, 3] ⟨0, .md5, 0, true, some 2⟩ (by decide)
  constructor
  · obtain ⟨s, blocks, hs, hsigns, hreads, -⟩ := hfixed 2 11 (by decide) (by decide) rfl hs2
      (by decide)
    refine ⟨s, hs, hreads ?_⟩
    rw [hsigns.count, hsigns.ceiling]
    decide
  · obtain ⟨s, hs, hsum, hreads⟩ := hcdc 1 2 4 11 (by decide) (by decide) ⟨rfl, rfl, rfl⟩ hs2
      (by decide)
    have hcount : (computeSignaturesCdc collidingExternals (fun _ _ _ _ => [⟨0, 1⟩, ⟨1, 2⟩]) [1, 2, 3]
        ⟨0, .md5, 0, true, some 2⟩ (.fastCdc 1 2 4)).toOption.map (·.sums.length) = some 2 := by
      decide +kernel
    rw [hs] at hcount
    have hlen : s.sums.length = 2 := Option.some.inj hcount
    refine ⟨s, hs, hsum, hreads ?_⟩
    rw [hlen]
    decide

/-! ## For which settings signing returns -/

/-- The digests of the algorithm are as long as the estimate for `count` blocks asks for. A digest of
16 bytes is enough up to a logarithm of about 48, the 8 bytes of `xxh3` are never enough for a
positive count, and there is a count that is not positive only if the block size is negative. -/
def DigestFits (X : Externals) (checksumType : ChecksumType) (count : Int) : Prop :=
  match checksumType with
  | .blake3 => True
  | .md4 | .md5 | .xxh128 => 0 < count → Binary64.round (80 + X.log2 count) ≤ 128
  | .xxh3 => count ≤ 0
  | .none => False

theorem s2Estimate_le_of_not_pos (X : Externals) {count : Int} (h : count ≤ 0) :
    s2Estimate X count ≤ 0 := by
  unfold s2Estimate
  split_ifs <;> omega

theorem asUsize_s2Length_le_iff (X : Externals) (checksumType : ChecksumType) (count : Int) :
    asUsize (max (min (s2Estimate X count) maxDigestLen) 2) ≤ checksumType.digestLen ↔
      DigestFits X checksumType count := by
  have hsixteen : s2Estimate X count ≤ 16 ↔
      (0 < count → Binary64.round (80 + X.log2 count) ≤ 128) := by
    rcases Int.lt_or_le 0 count with hpos | hneg
    · rw [s2Estimate_le_sixteen_iff X hpos, imp_iff_right hpos]
    · have := s2Estimate_le_of_not_pos X hneg
      exact iff_of_true (by omega) fun hpos => by omega
  have height : s2Estimate X count ≤ 8 ↔ count ≤ 0 := by
    refine ⟨fun hle => ?_, fun hneg => (s2Estimate_le_of_not_pos X hneg).trans (by decide)⟩
    by_contra hpos
    have := ten_le_s2Estimate X (Int.not_le.mp hpos)
    omega
  unfold maxDigestLen
  rw [asUsize_of_nonneg (by omega) (by omega)]
  cases checksumType <;>
    simp only [DigestFits, ChecksumType.digestLen, ← hsixteen, ← height, iff_true, iff_false] <;>
    omega

theorem isI32_signatureBlockLength (data : List UInt8) (ctx : ProtocolContext) :
    IsI32 (signatureBlockLength data ctx) := by
  unfold signatureBlockLength
  cases ctx.blockSizeOverride with
  | some b => exact ⟨b.le_toInt, b.toInt_lt⟩
  | none =>
    unfold computeBlockLength minBlockLen maxBlockLen IsI32
    dsimp only
    split_ifs <;> omega

/-- A block length other than 0 is a positive `usize`, also if it is negative. -/
theorem asUsize_pos {x : Int} (h : IsI32 x) (hne : x ≠ 0) : 0 < asUsize x := by
  unfold IsI32 at h
  unfold asUsize
  omega

/-- The first block of a file tells whether the digests are long enough. -/
theorem signatureStep_short (X : Externals) (hdata : data ≠ [])
    (hdig : ¬ s2 ≤ ctx.checksumType.digestLen) :
    signatureStep X ctx data b s2 (0, []) = .error (.fault .panic) := by
  unfold signatureStep
  dsimp only
  rw [if_pos (length_pos_iff.mpr hdata), checksum2_length, if_neg hdig]

theorem computeS2Length_eq (X : Externals) {b : Int} (hdata : data ≠ []) (hb : b ≠ 0) :
    computeS2Length X data.length b = .ok (max
      (min (s2Estimate X ((data.length + b - 1).tdiv b)) maxDigestLen) 2) := by
  have hpos := length_pos_iff.mpr hdata
  unfold computeS2Length
  rw [if_neg (by omega), if_neg hb]

/-- **When signing returns**: the block length is not 0, and the digests are as long as the number
of blocks asks for. -/
theorem signatures_total_iff (X : Externals) (data : List UInt8) (ctx : ProtocolContext) :
    (∃ s, computeSignatures X data ctx = .ok s) ↔
      data = [] ∨ signatureBlockLength data ctx ≠ 0 ∧
        DigestFits X ctx.checksumType ((data.length + signatureBlockLength data ctx - 1).tdiv
          (signatureBlockLength data ctx)) := by
  by_cases hdata : data = []
  · exact ⟨fun _ => Or.inl hdata, fun _ => ⟨_, if_pos hdata⟩⟩
  rw [or_iff_right hdata, computeSignatures, if_neg hdata]
  have hrange := isI32_signatureBlockLength data ctx
  revert hrange
  generalize signatureBlockLength data ctx = b
  intro hrange
  -- a block length of 0 is a division by zero
  by_cases hb : b = 0
  · subst hb
    have hpos := length_pos_iff.mpr hdata
    have hs2 : computeS2Length X data.length 0 = .error (.fault .panic) := by
      unfold computeS2Length
      rw [if_neg (by omega), if_pos rfl]
    refine iff_of_false ?_ fun h => h.1 rfl
    rintro ⟨s, hs⟩
    simp only [hs2, bind] at hs
    cases hs
  rw [and_iff_right hb, ← asUsize_s2Length_le_iff]
  simp only [computeS2Length_eq X hdata hb, Loop.ok_bind]
  generalize asUsize (max (min (s2Estimate X ((data.length + b - 1).tdiv b)) maxDigestLen) 2) = s2
  constructor
  · rintro ⟨s, hs⟩
    by_contra hdig
    -- a digest that is too short fails in the first round, which there is as the file is not empty
    rw [Loop.loop_error (signatureStep_short X hdata hdig)] at hs
    cases hs
  · intro hdig
    have hstart : SignedTo X ctx data (asUsize b) s2 (0, []) :=
      ⟨0, Nat.zero_le _, by simp [signaturesTo]⟩
    obtain ⟨sums, hloop, -⟩ := Loop.loop_total (.fault .diverged) _
      (SignedTo X ctx data (asUsize b) s2)
      (fun sums => sums = signaturesTo X ctx data (asUsize b) s2 (blockCount (asUsize b) data.length))
      (fun st => data.length - st.1)
      (signatureStep_spec X ctx data (asUsize_pos hrange hb) hdig)
      (data.length + 1) (0, []) hstart (by simp)
    rw [hloop]
    exact ⟨_, rfl⟩

/-- Signing panics with two of the checksums that are negotiated, and with a block size of 0. -/
theorem signing_panics :
    (∀ t ∈ [ChecksumType.xxh3, .none],
      negotiateAlgorithm checksumList t.wireName ChecksumType.fromName = .ok t ∧
      computeSignatures collidingExternals [0] ⟨0, t, 0, true, none⟩ = .error (.fault .panic)) ∧
    computeSignatures collidingExternals [0] ⟨0, .md5, 0, true, some 0⟩ = .error (.fault .panic) := by
  refine ⟨fun t ht => ⟨negotiateAlgorithm_wireName t, ?_⟩, by decide +kernel⟩
  fin_cases ht <;> decide +kernel

end Ferrosync
