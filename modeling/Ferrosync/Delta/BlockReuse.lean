import Ferrosync.Delta.Matcher

set_option autoImplicit false

/-! # Reusing whole blocks

A source that is made of full blocks of the basis is sent without literals: the scan stands at a
block boundary with the checksum of the window, and the hash table has a block with the same
checksums, if only the block the window was taken from (`findMatch_hit`). Which block is found does
not matter, so nothing is assumed about collisions.

The signatures have the number of their blocks as an `i32`. If it is not positive there, nothing is
looked up (`full_reuse_iff`).
-/

namespace Ferrosync

open ByteStream List

/-! ## The lookup finds a block -/

theorem mem_foldl_push {key : UInt32} {i : Nat} :
    ∀ (entries : List (SumEntry × Nat)) (table : HashTable),
      ((∃ p ∈ entries, p.1.sum1 = key ∧ p.2 = i) ∨ ∃ c, table key = some c ∧ i ∈ c) →
      ∃ c, (entries.foldl (fun table p => table.push p.1.sum1 p.2) table) key = some c ∧ i ∈ c
  | [], _, h => h.resolve_left fun ⟨_, hp, _⟩ => absurd hp List.not_mem_nil
  | p :: entries, table, h => by
    refine mem_foldl_push entries (table.push p.1.sum1 p.2) ?_
    have hkeep : (∃ c, table key = some c ∧ i ∈ c) →
        ∃ c, table.push p.1.sum1 p.2 key = some c ∧ i ∈ c := by
      rintro ⟨c, hc, hi⟩
      unfold HashTable.push
      split_ifs with heq
      · subst heq
        rw [hc]
        exact ⟨_, rfl, mem_append_left _ hi⟩
      · exact ⟨c, hc, hi⟩
    rcases h with ⟨q, hq, hkey, hi⟩ | hold
    · rcases mem_cons.mp hq with rfl | hq
      · -- the entry is pushed now
        refine Or.inr ⟨_, if_pos hkey.symm, mem_append_right _ ?_⟩
        exact mem_singleton.mpr hi.symm
      · exact Or.inl ⟨q, hq, hkey, hi⟩
    · exact Or.inr (hkeep hold)

/-- Every block is found under its rolling checksum. -/
theorem mem_buildHashTable {sums : List SumEntry} {i : Nat} {entry : SumEntry}
    (h : sums[i]? = some entry) : ∃ c, buildHashTable sums entry.sum1 = some c ∧ i ∈ c := by
  refine mem_foldl_push _ _ (Or.inl ⟨(entry, i), ?_, rfl, rfl⟩)
  rw [mk_mem_zipIdx_iff_getElem?]
  exact h

/-- Some candidate is taken if one has the strong checksum. -/
theorem firstCandidate_hit {sum2Entries : List (List UInt8)} {strong : List UInt8} {i : Nat}
    (hi : sum2Entries[i]? = some strong) :
    ∀ {candidates : List Nat}, (∀ j ∈ candidates, j < sum2Entries.length) → i ∈ candidates →
      ∃ idx, firstCandidate sum2Entries strong candidates = .ok (some idx)
  | [], _, h => absurd h List.not_mem_nil
  | idx :: candidates, hbelow, h => by
    have hidx : idx < sum2Entries.length := hbelow idx List.mem_cons_self
    rw [firstCandidate, indexChecked_eq hidx, Loop.ok_bind]
    by_cases heq : sum2Entries[idx] = strong
    · exact ⟨idx, by rw [if_pos heq]; rfl⟩
    · rw [if_neg heq]
      refine firstCandidate_hit hi (fun j hj => hbelow j (List.mem_cons_of_mem idx hj)) ?_
      refine (List.mem_cons.mp h).resolve_left ?_
      rintro rfl
      rw [List.getElem?_eq_getElem hidx] at hi
      exact heq (Option.some.inj hi)

theorem digest_compute (r : RollingChecksum) (window : List UInt8) :
    (r.compute window).digest = checksum1 window r.charOffset := rfl

section Scan

variable {X : Externals} {sums : SumStruct} {ctx : ProtocolContext} {source : List UInt8}
variable {st : ScanState}

/-- A window that has a signature is found, if the rolling checksum is that of the window. -/
theorem findMatch_hit {i : Nat} {entry : SumEntry}
    (hpos : st.pos + (MatcherConfig.ofSums sums ctx).blength ≤ source.length)
    (hentry : sums.sums[i]? = some entry)
    (hsum1 : entry.sum1 = st.rolling.digest)
    (hsum2 : entry.sum2 = (MatcherConfig.ofSums sums ctx).strongTruncated X
      (slice source st.pos (st.pos + (MatcherConfig.ofSums sums ctx).blength))) :
    ∃ idx, findMatch X (MatcherConfig.ofSums sums ctx) source st = .ok (some idx) := by
  -- the block is among the candidates under its weak checksum
  obtain ⟨c, hc, hi⟩ := mem_buildHashTable hentry
  have htable : (MatcherConfig.ofSums sums ctx).hashTable st.rolling.digest = some c :=
    hsum1 ▸ hc
  have hbelow : ∀ j ∈ c, j < (MatcherConfig.ofSums sums ctx).sum2Entries.length := by
    intro j hj
    have hlt := buildHashTable_below sums.sums _ _ hc j hj
    show j < (sums.sums.map SumEntry.sum2).length
    rw [length_map]
    exact hlt
  have hget : (MatcherConfig.ofSums sums ctx).sum2Entries[i]? = some entry.sum2 := by
    show (sums.sums.map SumEntry.sum2)[i]? = _
    rw [getElem?_map, hentry]
    rfl
  unfold findMatch
  rw [htable]
  simp only [sliceChecked_eq (Nat.le_add_right _ _) hpos]
  exact firstCandidate_hit (hget.trans (congrArg some hsum2)) hbelow hi

end Scan

/-! ## The scan over whole blocks -/

theorem length_flatten_blocks {b : Nat} {blocks : List (List UInt8)}
    (h : ∀ block ∈ blocks, block.length = b) : blocks.flatten.length = blocks.length * b := by
  induction blocks with
  | nil => simp
  | cons block blocks ih =>
    rw [flatten_cons, length_append, h block mem_cons_self,
      ih fun c hc => h c (mem_cons_of_mem block hc), length_cons, Nat.succ_mul,
      Nat.add_comm]

theorem slice_flatten {b : Nat} {blocks : List (List UInt8)} {k : Nat} {block : List UInt8}
    (h : ∀ block ∈ blocks, block.length = b) (hk : blocks[k]? = some block) :
    slice blocks.flatten (k * b) (k * b + b) = block := by
  induction blocks generalizing k with
  | nil => exact absurd hk (by simp)
  | cons first blocks ih =>
    have hfirst := h first mem_cons_self
    unfold slice
    rw [Nat.add_sub_cancel_left, flatten_cons]
    cases k with
    | zero =>
      obtain rfl := Option.some.inj hk
      rw [Nat.zero_mul, drop_zero, take_left' hfirst]
    | succ k =>
      have hrest := ih (fun c hc => h c (mem_cons_of_mem first hc)) hk
      unfold slice at hrest
      rw [Nat.add_sub_cancel_left] at hrest
      rw [Nat.succ_mul, Nat.add_comm, ← drop_drop, drop_left' hfirst]
      exact hrest

/-- Every block has a signature with its two checksums. -/
def Signed (X : Externals) (sums : SumStruct) (ctx : ProtocolContext)
    (blocks : List (List UInt8)) : Prop :=
  ∀ block ∈ blocks, ∃ (i : Nat) (entry : SumEntry), sums.sums[i]? = some entry ∧
    entry.sum1 = checksum1 block ctx.charOffset ∧
    entry.sum2 = (MatcherConfig.ofSums sums ctx).strongTruncated X block

def AllCopies (ops : List DiffOp) : Prop := ∀ op ∈ ops, ∃ bref, op = .copy bref

/-- The scan stands behind the `k`-th block, with the checksum of the window. -/
structure AtBlock (ctx : ProtocolContext) (b : Nat) (source : List UInt8) (k : Nat)
    (st : ScanState) : Prop where
  pos : st.pos = k * b
  literalStart : st.literalStart = k * b
  charOffset : st.rolling.charOffset = ctx.charOffset
  digest : k * b + b ≤ source.length →
    st.rolling.digest = checksum1 (slice source (k * b) (k * b + b)) ctx.charOffset
  count : st.ops.length = k
  copies : AllCopies st.ops

section Blocks

variable {X : Externals} {sums : SumStruct} {ctx : ProtocolContext}
variable {blocks : List (List UInt8)} {k b : Nat} {st : ScanState}

/-- A match at a block boundary moves the scan behind the block. -/
theorem AtBlock.matched {cfg : MatcherConfig} {source : List UInt8} {idx : Nat}
    (h : AtBlock ctx cfg.blength source k st) :
    ∃ st', scanMatched cfg source source.length st idx = .ok st' ∧
      AtBlock ctx cfg.blength source (k + 1) st' := by
  have hnext : k * cfg.blength + cfg.blength = (k + 1) * cfg.blength := (Nat.succ_mul _ _).symm
  have hflush : flushLiteral source st.literalStart st.pos st.ops = .ok st.ops := by
    simp [flushLiteral, h.literalStart, h.pos]
  have hcopies : AllCopies (st.ops ++ [cfg.copyOp idx]) := by
    intro op hop
    rcases mem_append.mp hop with hop | hop
    · exact h.copies op hop
    · exact ⟨_, mem_singleton.mp hop⟩
  have hcount : (st.ops ++ [cfg.copyOp idx]).length = k + 1 := by
    simp [h.count]
  unfold scanMatched
  rw [hflush, Loop.ok_bind]
  rw [h.pos, hnext]
  -- at the end of the source there is no next window to compute a checksum for
  by_cases hroom : (k + 1) * cfg.blength + cfg.blength ≤ source.length
  · rw [if_pos hroom, sliceChecked_eq (Nat.le_add_right _ _) hroom]
    refine ⟨_, rfl, rfl, rfl, h.charOffset, fun _ => ?_, hcount, hcopies⟩
    rw [digest_compute, h.charOffset]
  · rw [if_neg hroom]
    exact ⟨_, rfl, rfl, rfl, h.charOffset, fun hle => absurd hle hroom, hcount, hcopies⟩

/-- The scan over signed blocks copies each of them. -/
theorem scan_blocks (hb : (MatcherConfig.ofSums sums ctx).blength = b) (hpos : 0 < b)
    (hlen : ∀ block ∈ blocks, block.length = b) (hsigned : Signed X sums ctx blocks)
    (hst : AtBlock ctx b blocks.flatten 0 st) :
    ∃ st', scan X (MatcherConfig.ofSums sums ctx) blocks.flatten blocks.flatten.length st =
        .ok st' ∧ AtBlock ctx b blocks.flatten blocks.length st' := by
  have htotal := length_flatten_blocks hlen
  refine Loop.loop_total (Failure.fault .diverged) _
    (fun st => ∃ k, k ≤ blocks.length ∧ AtBlock ctx b blocks.flatten k st)
    (fun st' => AtBlock ctx b blocks.flatten blocks.length st')
    (fun st => blocks.flatten.length - st.pos) ?_
    (blocks.flatten.length + 1) st ⟨0, Nat.zero_le _, hst⟩ (by omega)
  rintro st ⟨k, hk, h⟩
  unfold scanStep
  rcases Nat.lt_or_eq_of_le hk with hlt | rfl
  · -- the window is the next block
    have hroom : k * b + b ≤ blocks.flatten.length := by
      rw [htotal, ← Nat.succ_mul]
      exact Nat.mul_le_mul_right b hlt
    have hget := getElem?_eq_getElem hlt
    have hwindow := slice_flatten hlen hget
    obtain ⟨i, entry, hentry, hsum1, hsum2⟩ := hsigned _ (getElem_mem hlt)
    obtain ⟨idx, hfind⟩ : ∃ idx,
        findMatch X (MatcherConfig.ofSums sums ctx) blocks.flatten st = .ok (some idx) := by
      refine findMatch_hit (by rw [h.pos, hb]; exact hroom) hentry ?_ ?_
      · rw [h.digest hroom, hwindow, hsum1]
      · rw [h.pos, hb, hwindow, hsum2]
    rw [← hb] at h
    obtain ⟨st', hmatched, hnext⟩ := h.matched
    rw [hb] at hnext
    refine Or.inl ⟨st', ?_, ⟨k + 1, hlt, hnext⟩, ?_⟩
    · rw [h.pos, hb, if_pos hroom, hfind]
      show (scanMatched _ _ _ st idx >>= _) = _
      rw [hmatched]
      rfl
    · rw [hnext.pos, h.pos, hb, Nat.succ_mul]
      omega
  · refine Or.inr ⟨st, ?_, h⟩
    rw [h.pos, if_neg (by omega)]

theorem matchBlocks_signed (hcount : 0 < sums.head.count) (hblen : sums.head.blength = b)
    (hpos : 0 < b) (hb : b < 2 ^ 64) (hlen : ∀ block ∈ blocks, block.length = b)
    (hsigned : Signed X sums ctx blocks) :
    ∃ ops, matchBlocks X blocks.flatten sums ctx = .ok ops ∧ ops.length = blocks.length ∧
      AllCopies ops := by
  have hcfg : (MatcherConfig.ofSums sums ctx).blength = b := by
    show asUsize sums.head.blength = b
    rw [hblen]
    exact asUsize_ofNat hb
  have htotal := length_flatten_blocks hlen
  unfold matchBlocks
  cases hblocks : blocks with
  | nil => exact ⟨[], rfl, rfl, fun op hop => absurd hop not_mem_nil⟩
  | cons first rest =>
    rw [← hblocks]
    have hone : b ≤ blocks.flatten.length := by
      rw [htotal, hblocks, length_cons, Nat.succ_mul]
      exact Nat.le_add_left _ _
    have hne : blocks.flatten ≠ [] := by
      intro hnil
      rw [hnil, length_nil] at hone
      omega
    -- the scan starts at the first block with its checksum computed
    have hstart : AtBlock ctx b blocks.flatten 0
        ⟨(RollingChecksum.new ctx.charOffset).compute (slice blocks.flatten 0 b), 0, 0, false, []⟩ := by
      refine ⟨(Nat.zero_mul b).symm, (Nat.zero_mul b).symm, rfl, fun _ => ?_, rfl, ?_⟩
      · rw [Nat.zero_mul, Nat.zero_add]
        rfl
      · exact fun op hop => absurd hop not_mem_nil
    obtain ⟨st, hscan, hend⟩ := scan_blocks hcfg hpos hlen hsigned hstart
    refine ⟨st.ops, ?_, hend.count, hend.copies⟩
    rw [if_neg hne, if_neg (by omega)]
    dsimp only
    rw [hcfg, if_neg (by omega), sliceChecked_eq (Nat.zero_le _) hone, Loop.ok_bind, hscan]
    simp [flushLiteral, hend.literalStart, htotal]

end Blocks

/-! ## The blocks of the basis -/

/-- The source is sent as one copy for each of its blocks. -/
def SentAsCopies (X : Externals) (sums : SumStruct) (ctx : ProtocolContext)
    (blocks : List (List UInt8)) : Prop :=
  ∃ ops, matchBlocks X blocks.flatten sums ctx = .ok ops ∧ ops.length = blocks.length ∧
    AllCopies ops

section Basis

variable {X : Externals} {ctx : ProtocolContext} {basis : List UInt8} {b s2 : Nat}

/-- The full blocks of the basis have signatures. -/
theorem signed_of_full (hb : 0 < b) (hs2 : s2 < 2 ^ 31) (hdig : s2 ≤ ctx.checksumType.digestLen)
    {head : SumHead} (hhead : head.s2length = s2) {indices : List Nat}
    (hfull : ∀ i ∈ indices, (i + 1) * b ≤ basis.length) :
    Signed X ⟨head, signaturesTo X ctx basis b s2 (blockCount b basis.length)⟩ ctx
      (indices.map (blockAt b basis)) := by
  intro block hblock
  obtain ⟨i, hi, rfl⟩ := mem_map.mp hblock
  have hlt : i < blockCount b basis.length := by
    rw [lt_blockCount_iff hb]
    have := hfull i hi
    rw [Nat.succ_mul] at this
    omega
  refine ⟨i, _, signaturesTo_getElem? X ctx basis hlt, rfl, ?_⟩
  show (checksum2 X (blockAt b basis i) ctx).take s2 =
    (checksum2 X (blockAt b basis i) ctx).take
      (min (asUsize head.s2length) (checksum2 X (blockAt b basis i) ctx).length)
  rw [hhead, asUsize_ofNat (by omega), checksum2_length, Nat.min_eq_left hdig]

/-- Without a positive number of blocks everything is literal. -/
theorem not_sentAsCopies {sums : SumStruct} {blocks : List (List UInt8)}
    (hcount : sums.head.count ≤ 0) (hne : blocks.flatten ≠ []) :
    ¬ SentAsCopies X sums ctx blocks := by
  rintro ⟨ops, hops, -, hcopies⟩
  unfold matchBlocks at hops
  rw [if_neg hne, if_pos (Or.inl hcount)] at hops
  obtain rfl := Except.ok.inj hops
  obtain ⟨bref, hbref⟩ := hcopies _ (mem_singleton.mpr rfl)
  exact absurd hbref nofun

/-- **Full reuse of whole blocks.** A source made of full blocks of the basis is sent as copies, one
for each, if and only if it is empty or the number of the basis' blocks is positive as an `i32`. -/
theorem full_reuse_iff (hb : 0 < b) (hb31 : b < 2 ^ 31) (hblen : signatureBlockLength basis ctx = b)
    (hs2 : computeS2Length X basis.length b = .ok (s2 : Int))
    (hdig : s2 ≤ ctx.checksumType.digestLen) :
    ∃ sums, computeSignatures X basis ctx = .ok sums ∧
      ∀ indices : List Nat, (∀ i ∈ indices, (i + 1) * b ≤ basis.length) →
        (SentAsCopies X sums ctx (indices.map (blockAt b basis)) ↔
          indices = [] ∨ 0 < toI32 (blockCount b basis.length)) := by
  have hempty : ∀ sums, SentAsCopies X sums ctx [] := fun sums =>
    ⟨[], rfl, rfl, fun op hop => absurd hop not_mem_nil⟩
  by_cases hbasis : basis = []
  · -- an empty basis has no full block
    refine ⟨⟨SumHead.default, []⟩, by unfold computeSignatures; rw [if_pos hbasis], ?_⟩
    intro indices hfull
    have hnil : indices = [] := by
      refine eq_nil_iff_forall_not_mem.mpr fun i hi => ?_
      have := hfull i hi
      rw [hbasis, length_nil, Nat.succ_mul] at this
      omega
    subst hnil
    exact ⟨fun _ => Or.inl rfl, fun _ => hempty _⟩
  · have hlt : s2 < 2 ^ 31 := by
      obtain ⟨-, hle⟩ := computeS2Length_range hs2
      omega
    refine ⟨_, computeSignatures_eq X hbasis hb hb31 hblen hs2 hlt hdig, ?_⟩
    intro indices hfull
    have hsigned : ∀ count remainder, Signed X
        ⟨⟨count, b, s2, remainder⟩, signaturesTo X ctx basis b s2 (blockCount b basis.length)⟩ ctx
        (indices.map (blockAt b basis)) := fun _ _ => signed_of_full hb hlt hdig rfl hfull
    -- the number of blocks as the signatures have it
    generalize toI32 (blockCount b basis.length) = count at *
    have hlen : ∀ block ∈ indices.map (blockAt b basis), block.length = b := by
      intro block hblock
      obtain ⟨i, hi, rfl⟩ := mem_map.mp hblock
      have := hfull i hi
      rw [Nat.succ_mul] at this
      rw [blockAt_length]
      omega
    constructor
    · intro hsent
      by_contra hcond
      rw [not_or] at hcond
      refine not_sentAsCopies (Int.not_lt.mp hcond.2) ?_ hsent
      intro hnil
      have htotal := length_flatten_blocks hlen
      rw [hnil, length_map] at htotal
      have hzero := (Nat.mul_eq_zero.mp htotal.symm).resolve_right (by omega)
      exact hcond.1 (length_eq_zero_iff.mp hzero)
    · rintro (rfl | hcount)
      · exact hempty _
      · exact matchBlocks_signed hcount rfl hb (by omega) hlen (hsigned _ _)

end Basis

/-! ## Few blocks and too many -/

def blockContext (b : Int32) : ProtocolContext := ⟨0, .md5, 0, true, some b⟩

/-- Three blocks out of two. -/
theorem full_reuse_three :
    ∃ sums, computeSignatures collidingExternals [1, 2] (blockContext 1) = .ok sums ∧
      SentAsCopies collidingExternals sums (blockContext 1)
        ([1, 0, 1].map (blockAt 1 [1, 2])) := by
  have hs2 : computeS2Length collidingExternals ([1, 2] : List UInt8).length (1 : Nat) =
      .ok ((11 : Nat) : Int) := by decide +kernel
  have hblen : signatureBlockLength [1, 2] (blockContext 1) = (1 : Nat) := rfl
  obtain ⟨sums, hsums, hiff⟩ := full_reuse_iff (by decide) (by decide) hblen hs2 (by decide)
  exact ⟨sums, hsums, (hiff [1, 0, 1] (by decide)).mpr (Or.inr (by decide))⟩

/-- A basis of `n` blocks of one byte, if this is no positive `i32`. -/
theorem too_many_blocks {n : Nat} (hpos : 0 < n) (hle : n ≤ 2 ^ 48) (hcount : toI32 n ≤ 0) :
    ∃ sums, computeSignatures collidingExternals (List.replicate n 0) (blockContext 1) = .ok sums ∧
      ¬ SentAsCopies collidingExternals sums (blockContext 1) [[0]] := by
  have hne : replicate n (0 : UInt8) ≠ [] := by
    rw [Ne, replicate_eq_nil_iff]
    omega
  have hone : blockCount 1 (replicate n (0 : UInt8)).length = n := by
    simp [blockCount]
  obtain ⟨s2, hs2, hdigest, -⟩ : ∃ s2 : Nat,
      computeS2Length collidingExternals (replicate n (0 : UInt8)).length (1 : Nat) =
        .ok (s2 : Int) ∧ s2 ≤ 16 ∧ _ :=
    computeS2Length_ofDigest (by rw [length_replicate]; exact hle) Int.one_pos
  have hblen : signatureBlockLength (replicate n 0) (blockContext 1) = (1 : Nat) := rfl
  have hsums := computeSignatures_eq collidingExternals hne Nat.one_pos (by decide) hblen hs2
    (by omega) hdigest
  rw [hone] at hsums
  generalize toI32 n = count at hsums hcount
  exact ⟨_, hsums, not_sentAsCopies hcount (by decide)⟩

/-- A basis of `2 ^ 31` blocks: not even one block is reused. -/
theorem block_count_overflows :
    ∃ sums, computeSignatures collidingExternals (List.replicate (2 ^ 31) 0) (blockContext 1) =
        .ok sums ∧
      ¬ SentAsCopies collidingExternals sums (blockContext 1) [[0]] :=
  too_many_blocks (by decide) (by decide) (by decide)

end Ferrosync
