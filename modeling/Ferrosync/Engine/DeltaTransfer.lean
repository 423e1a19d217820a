import Ferrosync.Engine.Receiver

set_option autoImplicit false

/-! # The delta transfer of one file

Signatures of the basis go to the sender, the sender's operations come back as tokens, and the
receiver rebuilds the source from them. The end-to-end result is `delta_round_trip`; its parts
are that signatures survive the wire, that the matcher describes the source, and that the
receiver resolves a block reference to the same bytes the matcher meant by it
(`deliver_copyOp`).
-/

namespace Ferrosync

open ByteStream

variable {basis source : List UInt8} {ctx : ProtocolContext} {X : Externals} {idx : Nat} {b : Int32}

/-- The block length `receiver_loop_pipelined` passes to the receive functions. -/
def recvBlockLength (sigs : SumStruct) : Nat :=
  if sigs.head.blength > 0 then sigs.head.blength.toNat else 700

/-- What the sender writes for one file in the plain encoding: tokens, end of file, checksum. -/
def sendDelta (X : Externals) (ctx : ProtocolContext) (source : List UInt8) (sums : SumStruct) :
    Except Failure (List UInt8) := do
  let ops ← matchBlocks X source sums ctx
  let (tokens, w) ← writeDiffops plainTokenWriter (asUsize sums.head.blength) ops ()
  let (eof, _) ← plainTokenWriter.writeEof w
  pure (tokens ++ (eof ++ fileChecksum X source ctx))

/-- The collision assumption on the strong checksum: a window of the source whose truncated
checksum is the stored one of a basis block is that block. -/
def NoFalseMatch (X : Externals) (ctx : ProtocolContext) (basis source : List UInt8) : Prop :=
  ∀ sigs, computeSignatures X basis ctx = .ok sigs →
    ∀ window, window <:+: source → window.length = sigs.head.blength.toNat →
      ∀ i entry, sigs.sums[i]? = some entry →
        (checksum2 X window ctx).take sigs.head.s2length.toNat = entry.sum2 →
          window = blockAt sigs.head.blength.toNat basis i

/-- A block size that the user gives is positive; the source takes any `i32`. -/
def ProtocolContext.BlockSizePositive (ctx : ProtocolContext) : Prop :=
  ∀ b, ctx.blockSizeOverride = some b → 0 < b.toInt

/-! ## Signatures that describe a basis -/

/-- The signatures of a non-empty basis in blocks of `b`, with strong checksums of `s2` bytes. -/
def signaturesOf (X : Externals) (ctx : ProtocolContext) (basis : List UInt8) (b s2 : Nat) :
    SumStruct :=
  ⟨⟨blockCount b basis.length, b, s2, remainderOf b basis.length⟩,
    signaturesTo X ctx basis b s2 (blockCount b basis.length)⟩

theorem computeS2Length_ok (X : Externals) {fileLen blength : Int} (hb : blength ≠ 0) :
    ∃ s2 : Nat, computeS2Length X fileLen blength = .ok (s2 : Int) ∧ 2 ≤ s2 ∧ s2 ≤ 32 := by
  obtain ⟨s2, hs2⟩ : ∃ s2, computeS2Length X fileLen blength = .ok s2 := by
    unfold computeS2Length
    rw [if_neg hb]
    split_ifs <;> exact ⟨_, rfl⟩
  obtain ⟨hlow, hhigh⟩ := computeS2Length_range hs2
  refine ⟨s2.toNat, ?_, by omega, by omega⟩
  rw [hs2, Int.toNat_of_nonneg (by omega)]

theorem computeBlockLength_bounds (fileLen : Int) :
    0 < computeBlockLength fileLen ∧ computeBlockLength fileLen < 2 ^ 31 := by
  unfold computeBlockLength minBlockLen maxBlockLen
  split
  · omega
  · dsimp only
    omega

theorem signatureBlockLength_bounds (h : ctx.BlockSizePositive) :
    ∃ b : Nat, signatureBlockLength basis ctx = b ∧ 0 < b ∧ b < 2 ^ 31 := by
  have hbounds : 0 < signatureBlockLength basis ctx ∧ signatureBlockLength basis ctx < 2 ^ 31 := by
    unfold signatureBlockLength
    cases hov : ctx.blockSizeOverride with
    | none => exact computeBlockLength_bounds _
    | some b => exact ⟨h b hov, Int32.toInt_lt b⟩
  exact ⟨(signatureBlockLength basis ctx).toNat, by omega, by omega, by omega⟩

/-- The fields of a head that has been computed are numbers of 32 bits. -/
theorem computeSignatures_inRange {data : List UInt8} {sigs : SumStruct}
    (h : computeSignatures X data ctx = .ok sigs) : sigs.head.InRange := by
  unfold computeSignatures at h
  split_ifs at h with hnil
  · cases h
    decide
  · obtain ⟨s2, hs2, h₁⟩ := Loop.except_bind_eq_ok h
    obtain ⟨sums, -, hpure⟩ := Loop.except_bind_eq_ok h₁
    -- the block length is computed within bounds, or given as an `i32`
    have hblen : IsI32 (signatureBlockLength data ctx) := by
      unfold signatureBlockLength
      cases ctx.blockSizeOverride with
      | none =>
        have := computeBlockLength_bounds data.length
        dsimp only
        exact ⟨by omega, by omega⟩
      | some b => exact ⟨Int32.le_toInt b, Int32.toInt_lt b⟩
    have hlen : IsI32 s2 := by
      obtain ⟨hlow, hhigh⟩ := computeS2Length_range hs2
      exact ⟨by omega, by omega⟩
    have hsigs := Loop.pure_inj hpure
    subst hsigs
    unfold SumHead.InRange
    dsimp only
    refine ⟨isI32_toI32 _, hblen, hlen, ?_⟩
    split_ifs
    · exact hblen
    · exact isI32_toI32 _

/-- The block length of a head is the one of the file. -/
theorem computeSignatures_blength {data : List UInt8} {sigs : SumStruct}
    (h : computeSignatures X data ctx = .ok sigs) (hne : data ≠ []) :
    sigs.head.blength = signatureBlockLength data ctx := by
  unfold computeSignatures at h
  rw [if_neg hne] at h
  obtain ⟨s2, -, h₁⟩ := Loop.except_bind_eq_ok h
  obtain ⟨sums, -, hpure⟩ := Loop.except_bind_eq_ok h₁
  rw [← Loop.pure_inj hpure]

/-- The strong digest is long enough for the signatures of `basis`: `compute_s2length` asks for at
most the bytes that the algorithm has. -/
def DigestLongEnough (X : Externals) (ctx : ProtocolContext) (basis : List UInt8) : Prop :=
  basis ≠ [] → ∀ s2, computeS2Length X basis.length (signatureBlockLength basis ctx) = .ok s2 →
    s2 ≤ ctx.checksumType.digestLen

theorem computeSignatures_of_ne_nil (X : Externals) (ctx : ProtocolContext)
    (basis : List UInt8) (hne : basis ≠ [])
    (hcount : blockCount (signatureBlockLength basis ctx).toNat basis.length < 2 ^ 31)
    (hblock : ctx.BlockSizePositive) (hdig : DigestLongEnough X ctx basis) :
    ∃ b s2 : Nat, signatureBlockLength basis ctx = b ∧ 0 < b ∧ b < 2 ^ 31 ∧ s2 ≤ 32 ∧
      s2 ≤ ctx.checksumType.digestLen ∧ computeS2Length X basis.length b = .ok (s2 : Int) ∧
      computeSignatures X basis ctx = .ok (signaturesOf X ctx basis b s2) := by
  obtain ⟨b, hb, hpos, hlt⟩ := signatureBlockLength_bounds hblock
  obtain ⟨s2, hs2, -, hs32⟩ := computeS2Length_ok X
    (by omega : (b : Int) ≠ 0)
  have hdigest : s2 ≤ ctx.checksumType.digestLen := by
    have h := hdig hne s2 (by rw [hb]; exact hs2)
    omega
  refine ⟨b, s2, hb, hpos, hlt, hs32, hdigest, hs2, ?_⟩
  rw [hb, Int.toNat_natCast] at hcount
  rw [computeSignatures_eq X hne hpos hlt hb hs2 (by omega) hdigest,
    toI32_eq ⟨by omega, by omega⟩]
  rfl

theorem remainderOf_le {b : Nat} (hb : 0 < b) (n : Nat) : remainderOf b n ≤ b := by
  unfold remainderOf
  split
  · exact le_rfl
  · exact (Nat.mod_lt n hb).le

/-- Signatures of a basis survive the wire unless they are too many. -/
theorem reads_signaturesOf {b s2 : Nat} (hpos : 0 < b) (hlt : b < 2 ^ 31) (hs2 : s2 ≤ 32)
    (hdig : s2 ≤ ctx.checksumType.digestLen) (hmax : blockCount b basis.length ≤ 16 * 1024 * 1024) :
    Reads readSums (writeSums (signaturesOf X ctx basis b s2))
      (signaturesOf X ctx basis b s2) := by
  have hrem := remainderOf_le hpos basis.length
  refine reads_sums ⟨⟨?_, ?_⟩, ⟨?_, ?_⟩, ⟨?_, ?_⟩, ?_, ?_⟩ ?_ ?_ ?_ ?_ ?_ <;>
    simp only [signaturesOf, signaturesTo_length, maxBlockCount]
  case refine_13 =>
    intro e he
    obtain ⟨i, -, rfl⟩ := List.mem_map.mp he
    simp [signBlock, checksum2_length, hdig]
  all_goals omega

/-! ## References to blocks -/

section Blocks

variable {X : Externals} {ctx : ProtocolContext} {basis : List UInt8} {b s2 : Nat}

theorem ofSums_blength (hlt : b < 2 ^ 31) :
    (MatcherConfig.ofSums (signaturesOf X ctx basis b s2) ctx).blength = b :=
  asUsize_ofNat (by omega)

/-- The copy of block `idx`, with the numbers of the basis. -/
theorem ofSums_copyOp (hcount : blockCount b basis.length < 2 ^ 31) (hpos : 0 < b)
    (hlt : b < 2 ^ 31) (idx : Nat) :
    (MatcherConfig.ofSums (signaturesOf X ctx basis b s2) ctx).copyOp idx =
      .copy ⟨idx * b,
        blockByteLength idx b (blockCount b basis.length) (remainderOf b basis.length)⟩ := by
  have hrem := remainderOf_le hpos basis.length
  have h₁ : asUsize (b : Int) = b := asUsize_ofNat (by omega)
  have h₂ : asUsize (blockCount b basis.length : Int) = blockCount b basis.length :=
    asUsize_ofNat (by omega)
  have h₃ : asUsize (remainderOf b basis.length : Int) = remainderOf b basis.length :=
    asUsize_ofNat (by omega)
  simp only [MatcherConfig.copyOp, MatcherConfig.ofSums, signaturesOf, h₁, h₂, h₃]

/-- A block of full length is never the short last one. -/
theorem blockByteLength_full (hpos : 0 < b) (hfull : idx * b + b ≤ basis.length) :
    blockByteLength idx b (blockCount b basis.length) (remainderOf b basis.length) = b := by
  refine if_neg ?_
  rintro ⟨hcount, hidx, -, hrem⟩
  have hle : basis.length ≤ blockCount b basis.length * b := (blockCount_le_iff hpos).mp le_rfl
  have hcount' : blockCount b basis.length = idx + 1 := by omega
  rw [hcount', Nat.succ_mul] at hle
  have hlen : basis.length = (idx + 1) * b := by rw [Nat.succ_mul]; omega
  rw [remainderOf, hlen, Nat.mul_mod_left] at hrem
  exact Nat.lt_irrefl b hrem

theorem copy_bytes_full (hpos : 0 < b) (hfull : idx * b + b ≤ basis.length) :
    (DiffOp.copy ⟨idx * b, blockByteLength idx b (blockCount b basis.length)
      (remainderOf b basis.length)⟩).bytes basis = blockAt b basis idx := by
  rw [blockByteLength_full hpos hfull, DiffOp.bytes, if_pos (by dsimp only; omega)]
  rw [Nat.min_eq_left hfull, slice, blockAt, Nat.add_sub_cancel_left]

/-- The collision assumption makes every confirmed match a faithful copy. -/
theorem matchSound_signaturesOf (hcount : blockCount b basis.length < 2 ^ 31) (hpos : 0 < b)
    (hlt : b < 2 ^ 31) (hs2 : s2 ≤ 32)
    (hsigs : computeSignatures X basis ctx = .ok (signaturesOf X ctx basis b s2))
    (hash : NoFalseMatch X ctx basis source) :
    MatchSound X (MatcherConfig.ofSums (signaturesOf X ctx basis b s2) ctx) basis source := by
  intro window hwin hwlen idx hidx
  rw [ofSums_blength hlt] at hwlen
  simp only [MatcherConfig.ofSums, List.getElem?_map, Option.map_eq_some_iff] at hidx
  obtain ⟨entry, hentry, hsum2⟩ := hidx
  -- a match is confirmed by the truncated digest; that it is the block is the assumption
  have hblock : window = blockAt b basis idx := by
    refine hash _ hsigs window hwin (by simpa [signaturesOf] using hwlen) idx entry hentry ?_
    rw [hsum2]
    show _ = List.take (min (asUsize (s2 : Int)) _) _
    rw [asUsize_ofNat (by omega), ← List.take_eq_take_min]
    rfl
  have hfull : idx * b + b ≤ basis.length := by
    have := blockAt_length b basis idx
    rw [← hblock] at this
    omega
  rw [ofSums_copyOp hcount hpos hlt, copy_bytes_full hpos hfull, hblock]

/-- **The receiver resolves a reference as the matcher meant it.** -/
theorem deliver_copyOp (hcount : blockCount b basis.length < 2 ^ 31) (hpos : 0 < b)
    (hlt : b < 2 ^ 31) (hidx : idx < blockCount b basis.length) :
    deliver basis b (.blockMatch idx) =
      .ok (.piece ((DiffOp.copy ⟨idx * b, blockByteLength idx b (blockCount b basis.length)
        (remainderOf b basis.length)⟩).bytes basis)) := by
  have hoff : idx * b < basis.length := (lt_blockCount_iff hpos).mp hidx
  have hne : basis ≠ [] := by
    rintro rfl
    simp at hoff
  have hprod : idx * b < 2 ^ 31 * 2 ^ 31 := Nat.mul_lt_mul'' (hidx.trans hcount) hlt
  have husize : asUsize (idx : Int) = idx := asUsize_ofNat (by omega)
  have hrecv : recvBlockCount basis b = blockCount b basis.length := if_pos ⟨hpos, hne⟩
  have hrem : recvRemainder basis b = remainderOf b basis.length := by
    unfold recvRemainder remainderOf
    by_cases hmod : basis.length % b = 0
    · rw [if_neg (by simp [hmod]), if_pos hmod]
    · rw [if_pos ⟨hpos, hne, hmod⟩, if_neg hmod]
  simp only [deliver, blockPiece, husize, hrecv, hrem]
  rw [if_neg (by omega), if_neg (by omega), if_pos hoff, DiffOp.bytes, if_pos hoff]

end Blocks

/-! ## From operations to the receiver -/

/-- The bytes the receiver takes from a token. -/
def tokenValue (basis : List UInt8) (blength : Nat) (t : Token) : List UInt8 :=
  match deliver basis blength t with
  | .ok (.piece bytes) => bytes
  | _ => []

/-- The receiver rebuilds an operation's bytes from its tokens. `b` is the sender's block
length, `r` the receiver's; they differ only when there is no basis. -/
structure Delivered (basis : List UInt8) (b r : Nat) (op : DiffOp) : Prop where
  sendable : op.Sendable b
  pieces : ∀ t ∈ op.tokens b, deliver basis r t = .ok (.piece (tokenValue basis r t))
  bytes_eq : (op.tokens b).flatMap (tokenValue basis r) = op.bytes basis

theorem delivered_literal (basis : List UInt8) (b r : Nat) (data : List UInt8) :
    Delivered basis b r (.literal data) where
  sendable := trivial
  pieces := by
    intro t ht
    obtain ⟨chunk, -, rfl⟩ := List.mem_map.mp ht
    rfl
  bytes_eq := by
    have hvalue : ∀ chunk : List UInt8, tokenValue basis r (.data chunk) = chunk := fun _ => rfl
    rw [DiffOp.tokens, List.flatMap_map]
    simp only [hvalue, List.flatMap_id']
    exact chunks_flatten dataChunkSize_pos data

theorem delivered_copyOp {b : Nat} (hcount : blockCount b basis.length < 2 ^ 31) (hpos : 0 < b)
    (hlt : b < 2 ^ 31) (hidx : idx < blockCount b basis.length) :
    Delivered basis b b (.copy ⟨idx * b, blockByteLength idx b (blockCount b basis.length)
      (remainderOf b basis.length)⟩) := by
  have hdiv : idx * b / b = idx := Nat.mul_div_cancel idx hpos
  have hsend : idx * b / b < 2 ^ 31 - 1 := by omega
  have htok : (⟨idx * b, blockByteLength idx b (blockCount b basis.length)
      (remainderOf b basis.length)⟩ : BasisRef).blockIndex b = idx := by
    rw [blockIndex_eq hsend, hdiv]
  have hdeliver := deliver_copyOp hcount hpos hlt hidx
  refine ⟨hsend, ?_, ?_⟩
  all_goals simp [DiffOp.tokens, htok, tokenValue, hdeliver]

/-- Delivered operations that describe the source are received as the source. -/
theorem sendDelta_spec {sums : SumStruct} {r : Nat} {ops : List DiffOp}
    (hmatch : matchBlocks X source sums ctx = .ok ops) (happly : applyDiffops basis ops = source)
    (hops : ∀ op ∈ ops, Delivered basis (asUsize sums.head.blength) r op) :
    ∃ wire, sendDelta X ctx source sums = .ok wire ∧
      Reads (recvFileDeltaWith X plainTokenReader () basis r ctx) wire source := by
  set b := asUsize sums.head.blength with hb
  set tokens := ops.flatMap (DiffOp.tokens b) with htokens
  have hwrite : writeDiffops plainTokenWriter b ops () = .ok (tokens.flatMap encodeToken, ()) :=
    writeDiffops_plain fun op hop => (hops op hop).sendable
  -- each operation is sent as tokens, and each token delivered as its bytes
  have hpieces : ∀ t ∈ tokens, t.Sendable ∧
      deliver basis r t = .ok (.piece (tokenValue basis r t)) := by
    intro t ht
    obtain ⟨op, hop, hmem⟩ := List.mem_flatMap.mp ht
    exact ⟨(tokens_sendable (hops op hop).sendable t hmem).1, (hops op hop).pieces t hmem⟩
  have hvalue : tokens.flatMap (tokenValue basis r) = source := by
    rw [← happly, List.flatMap_assoc, applyDiffops, List.flatMap_congr]
    exact fun op hop => (hops op hop).bytes_eq
  refine ⟨tokens.flatMap encodeToken ++ (sendEof ++ fileChecksum X source ctx), ?_, ?_⟩
  · rw [sendDelta, hmatch, Loop.ok_bind, hwrite]
    rfl
  -- behind the tokens stand the end of the file and its digest
  · intro rest
    have hrecv := recvTokens_plain (tokenValue basis r)
      (fileChecksum X source ctx ++ rest) hpieces
    have hsplit : tokens.flatMap encodeToken ++ (sendEof ++ fileChecksum X source ctx) ++ rest =
        tokens.flatMap encodeToken ++
          (encodeToken .endOfFile ++ (fileChecksum X source ctx ++ rest)) := by
      simp [sendEof, encodeToken]
    have hcheck := (reads_verifyChecksum
      (fileDigest_length X ctx.checksumType source)).map (g := fun _ => source)
    rw [recvFileDeltaWith, hsplit, hrecv, hvalue]
    exact hcheck rest

/-! ## The round trip -/

/-- **Delta round trip.** For every basis and source, and every context with a positive block
size and a long enough digest, signatures survive the wire, and what the sender writes for the
source is received as exactly the source, no byte more or less being consumed. The number of
blocks is bounded because `read_sums` refuses more than `MAX_BLOCK_COUNT`. -/
theorem delta_round_trip {X : Externals} {ctx : ProtocolContext} {basis source : List UInt8}
    (hblock : ctx.BlockSizePositive) (hdig : DigestLongEnough X ctx basis)
    (hcount : blockCount (signatureBlockLength basis ctx).toNat basis.length ≤ 16 * 1024 * 1024)
    (hash : NoFalseMatch X ctx basis source) :
    ∃ sigs wire, computeSignatures X basis ctx = .ok sigs ∧
      Reads readSums (writeSums sigs) sigs ∧
      sendDelta X ctx source sigs = .ok wire ∧
      Reads (recvFileDeltaWith X plainTokenReader () basis (recvBlockLength sigs) ctx) wire
        source := by
  by_cases hne : basis = []
  · -- without a basis there are no signatures, and the whole source is one literal
    subst hne
    obtain ⟨ops, hmatch, hops⟩ := matchBlocks_spec X [] source ⟨SumHead.default, []⟩ ctx
      (by decide) (matchSound_of_none rfl _ _)
    have hdel : ∀ op ∈ ops, Delivered [] (asUsize SumHead.default.blength)
        (recvBlockLength ⟨SumHead.default, []⟩) op := by
      intro op hop
      cases op with
      | literal data => exact delivered_literal _ _ _ data
      | copy bref =>
        obtain ⟨idx, hidx, -⟩ := hops.emits _ hop
        exact absurd hidx (Nat.not_lt_zero idx)
    obtain ⟨wire, hsend, hrecv⟩ := sendDelta_spec hmatch hops.apply_eq hdel
    have hhead : SumHead.default.InRange := by decide
    exact ⟨⟨SumHead.default, []⟩, wire, rfl,
      reads_sums hhead rfl (by decide) (by decide) (by decide) (by simp), hsend, hrecv⟩
  · obtain ⟨b, s2, hb, hpos, hlt, hs2, hdigest, -, hsigs⟩ :=
      computeSignatures_of_ne_nil X ctx basis hne (by omega) hblock hdig
    rw [hb, Int.toNat_natCast] at hcount
    obtain ⟨ops, hmatch, hops⟩ := matchBlocks_spec X basis source
      (signaturesOf X ctx basis b s2) ctx
      (by simp only [signaturesOf]; omega)
      (matchSound_signaturesOf (by omega) hpos hlt hs2 hsigs hash)
    have hr : recvBlockLength (signaturesOf X ctx basis b s2) = b := by
      simp [recvBlockLength, signaturesOf, hpos]
    have hdel : ∀ op ∈ ops, Delivered basis
        (asUsize (signaturesOf X ctx basis b s2).head.blength)
        (recvBlockLength (signaturesOf X ctx basis b s2)) op := by
      rw [hr, show asUsize (signaturesOf X ctx basis b s2).head.blength = b from
        asUsize_ofNat (by omega)]
      intro op hop
      cases op with
      | literal data => exact delivered_literal _ _ _ data
      | copy bref =>
        obtain ⟨idx, hidx, hcopy⟩ := hops.emits _ hop
        rw [hcopy, ofSums_copyOp (by omega) hpos hlt]
        exact delivered_copyOp (by omega) hpos hlt
          (by simpa [MatcherConfig.ofSums, signaturesOf] using hidx)
    obtain ⟨wire, hsend, hrecv⟩ := sendDelta_spec hmatch hops.apply_eq hdel
    exact ⟨_, wire, hsigs, reads_signaturesOf hpos hlt hs2 hdigest hcount, hsend, hrecv⟩

/-! ### An instance of the outside world

A hash that pads or cuts its input. It satisfies the collision assumption for blocks of up to six
bytes that divide the basis evenly. -/

def padTo (n : Nat) (data : List UInt8) : List UInt8 := (data ++ List.replicate n 0).take n

theorem padTo_length (n : Nat) (data : List UInt8) : (padTo n data).length = n := by
  simp [padTo]

def padExternals : Externals := .ofDigest padTo padTo_length

def padContext (b : Int32) : ProtocolContext := ⟨0, .md5, 0, true, some b⟩

theorem take_padTo (seed data : List UInt8) {n : Nat} (h : seed.length + data.length ≤ n)
    (hn : n ≤ 16) :
    (((padTo 16 (seed ++ data)).take n).drop seed.length).take data.length = data := by
  rw [padTo, List.take_take, List.append_assoc, List.drop_take, List.drop_left, List.take_take,
    Nat.min_eq_left (by omega), List.take_left]

theorem padExternals_s2 {n : Nat} {b : Int} (hn : n < 2 ^ 31) (hb : 0 < b) :
    ∃ s2 : Nat, computeS2Length padExternals n b = .ok (s2 : Int) ∧ s2 ≤ 16 ∧ (0 < n → 10 ≤ s2) :=
  computeS2Length_ofDigest (by omega) hb

theorem padExternals_digest (hlen : basis.length < 2 ^ 31) (hb : 0 < b.toInt) :
    DigestLongEnough padExternals (padContext b) basis := by
  intro _ s2 hs2
  obtain ⟨s2', h, hle, -⟩ := padExternals_s2 hlen hb
  have heq : s2 = s2' := Except.ok.inj (hs2.symm.trans h)
  have hdig : (padContext b).checksumType.digestLen = 16 := rfl
  omega

theorem padContext_blockCount (hlen : basis.length < 2 ^ 31) (hb : 0 < b.toInt) :
    blockCount (signatureBlockLength basis (padContext b)).toNat basis.length < 2 ^ 31 := by
  have hpos : 0 < (signatureBlockLength basis (padContext b)).toNat := by
    show 0 < b.toInt.toNat
    omega
  exact (blockCount_le_self hpos _).trans_lt hlen

theorem padContext_blockSizePositive (hb : 0 < b.toInt) :
    (padContext b).BlockSizePositive := by
  rintro _ ⟨⟩
  exact hb

theorem padExternals_noFalseMatch (hlen : basis.length < 2 ^ 31) (hb : 0 < b.toInt)
    (hb6 : b.toInt ≤ 6) (hdvd : basis.length % b.toInt.toNat = 0) :
    NoFalseMatch padExternals (padContext b) basis source := by
  intro sigs hsigs window _ hwlen i entry hentry heq
  by_cases hne : basis = []
  · subst hne
    cases hsigs
    simp at hentry
  obtain ⟨c, s2, hc, hpos, -, -, hdig, hcs2, hsigs'⟩ := computeSignatures_of_ne_nil padExternals _ _
    hne (padContext_blockCount hlen hb) (padContext_blockSizePositive hb) (padExternals_digest hlen hb)
  obtain rfl : sigs = signaturesOf padExternals (padContext b) basis c s2 :=
    Except.ok.inj (hsigs.symm.trans hsigs')
  have hcb : b.toInt = c := hc
  have hs2 : 10 ≤ s2 := by
    obtain ⟨t, ht, -, h10⟩ := padExternals_s2 (b := c) hlen (by omega)
    have heq : (s2 : Int) = t := Except.ok.inj (hcs2.symm.trans ht)
    have := List.length_pos_iff.mpr hne
    omega
  simp only [signaturesOf, Int.toNat_natCast] at hwlen hentry heq ⊢
  have hi : i < blockCount c basis.length := by
    have := (List.getElem?_eq_some_iff.mp hentry).1
    simpa using this
  rw [signaturesTo_getElem? _ _ _ hi, Option.some.injEq] at hentry
  subst hentry
  -- the blocks divide the basis, so that the last one is as long as the others
  have hblen : (blockAt c basis i).length = c := by
    rw [blockAt_length]
    have hoff := (lt_blockCount_iff hpos).mp hi
    rw [hcb, Int.toNat_natCast] at hdvd
    obtain ⟨k, hk⟩ := Nat.dvd_of_mod_eq_zero hdvd
    have hik : i < k := by
      rw [hk, Nat.mul_comm c k] at hoff
      exact Nat.lt_of_mul_lt_mul_right hoff
    have : i * c + c ≤ k * c := by
      rw [← Nat.succ_mul]
      exact Nat.mul_le_mul_right c hik
    rw [Nat.mul_comm c k] at hk
    omega
  have hs16 : s2 ≤ 16 := hdig
  have hseed : (writeInt (padContext b).seed.toInt).length = 4 := writeInt_length _
  -- the digest is the padded text: as many of its bytes as are sent hold the block itself
  have hw := take_padTo (writeInt (padContext b).seed.toInt) window (n := s2)
    (by omega) hs16
  have hv := take_padTo (writeInt (padContext b).seed.toInt) (blockAt c basis i)
    (n := s2) (by omega) hs16
  rw [← hw, ← hv, hwlen, hblen]
  exact congrArg (fun l => (l.drop (writeInt (padContext b).seed.toInt).length).take c) heq

/-- A transfer with a short literal, a copied block and a shifted one. -/
theorem delta_round_trip_small :
    ∃ sigs wire, computeSignatures padExternals [1, 2, 3, 4, 5, 6, 7, 8] (padContext 4) = .ok sigs ∧
      Reads readSums (writeSums sigs) sigs ∧
      sendDelta padExternals (padContext 4) [9, 5, 6, 7, 8, 1, 2] sigs = .ok wire ∧
      Reads (recvFileDeltaWith padExternals plainTokenReader () [1, 2, 3, 4, 5, 6, 7, 8]
        (recvBlockLength sigs) (padContext 4)) wire [9, 5, 6, 7, 8, 1, 2] :=
  delta_round_trip (padContext_blockSizePositive (by decide))
    (padExternals_digest (by decide) (by decide)) (by decide)
    (padExternals_noFalseMatch (by decide) (by decide) (by decide) (by decide))

/-- Beyond `MAX_BLOCK_COUNT` the round trip fails: with one-byte blocks and a basis of
`2 ^ 24 + 1` bytes, everything else being as required, `read_sums` refuses the signatures. -/
theorem delta_round_trip_too_many_blocks :
    let basis := List.replicate (2 ^ 24 + 1) (0 : UInt8)
    basis.length < 2 ^ 31 ∧ (padContext 1).BlockSizePositive ∧
      DigestLongEnough padExternals (padContext 1) basis ∧
      NoFalseMatch padExternals (padContext 1) basis [1] ∧
      ∃ sigs, computeSignatures padExternals basis (padContext 1) = .ok sigs ∧
        readSums (writeSums sigs) = .error (outOfRange "sum_count" (2 ^ 24 + 1) maxBlockCount) := by
  intro basis
  have hlength : basis.length = 2 ^ 24 + 1 := List.length_replicate
  have hlen : basis.length < 2 ^ 31 := by omega
  have hne : basis ≠ [] := by
    intro h
    rw [h] at hlength
    cases hlength
  have hone : (1 : Int32).toInt = 1 := rfl
  have hdig := padExternals_digest (b := 1) hlen (by decide)
  have hpos := padContext_blockSizePositive (b := 1) (by decide)
  refine ⟨hlen, hpos, hdig, padExternals_noFalseMatch hlen (by decide) (by decide) ?_, ?_⟩
  · exact Nat.mod_one _
  · obtain ⟨b, s2, hb, hbpos, -, hs2, -, -, hsigs⟩ :=
      computeSignatures_of_ne_nil _ _ basis hne (padContext_blockCount hlen (by decide)) hpos hdig
    obtain rfl : b = 1 := by
      have : ((1 : Int32).toInt : Int) = b := hb
      omega
    have hcount : blockCount 1 basis.length = 2 ^ 24 + 1 := by
      unfold blockCount
      omega
    have hrem := remainderOf_le hbpos basis.length
    refine ⟨_, hsigs, ?_⟩
    -- every field of the head is in range, only their number is above the limit
    rw [writeSums, readSums_count_error]
    · simp only [signaturesOf, hcount]
      rfl
    · refine ⟨⟨?_, ?_⟩, ⟨?_, ?_⟩, ⟨?_, ?_⟩, ?_, ?_⟩ <;> simp only [signaturesOf] <;> omega
    · simp only [signaturesOf, maxBlockCount]
      omega

end Ferrosync
