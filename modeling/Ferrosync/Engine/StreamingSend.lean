import Ferrosync.Delta.Streaming
import Ferrosync.Engine.DeltaTransfer

set_option autoImplicit false

/-! # Sending a large file in chunks

The loop of `sender_loop` that calls `process_chunk` until it reports that it is done. The
result `streamSource_correct_iff` says exactly when the operations describe the whole source and
the checksum has seen all of it: unless there is no basis, a chunk must hold a block or the whole
source.
-/

namespace Ferrosync

open ByteStream

/-- The state of the loop: matcher, reader and checksum, and the operations sent so far. -/
structure StreamState where
  matcher : StreamingMatcher
  io : StreamIO
  ops : List DiffOp

/-- One iteration: a call of `process_chunk`, whose operations are sent. -/
def streamStep (X : Externals) (st : StreamState) :
    Except Failure (StreamState ⊕ (List DiffOp × IncrementalChecksum)) := do
  let ((ops, done), m, io) ← processChunk X st.matcher st.io
  if done then pure (.inr (st.ops ++ ops, io.checksum)) else pure (.inl ⟨m, io, st.ops ++ ops⟩)

/-- The loop before its first call. `willing` is the pattern of short reads. -/
def streamStart (sums : SumStruct) (ctx : ProtocolContext) (chunk : Nat) (source : List UInt8)
    (willing : Nat → Nat) : StreamState :=
  ⟨.new sums ctx chunk, ⟨⟨source, willing, 0⟩, .new ctx.checksumType⟩, []⟩

/-- Send a source in chunks: all operations, and the checksum that has been fed. -/
def streamSource (X : Externals) (sums : SumStruct) (ctx : ProtocolContext) (chunk : Nat)
    (source : List UInt8) (willing : Nat → Nat) :
    Except Failure (List DiffOp × IncrementalChecksum) :=
  Loop.loop (.fault .diverged) (streamStep X) (source.length + 1)
    (streamStart sums ctx chunk source willing)

/-- A run that loses nothing: it ends, its operations give the source, and the checksum has been
fed the source. -/
def StreamsWhole (X : Externals) (sums : SumStruct) (ctx : ProtocolContext) (chunk : Nat)
    (basis source : List UInt8) (willing : Nat → Nat) : Prop :=
  ∃ ops checksum, streamSource X sums ctx chunk source willing = .ok (ops, checksum) ∧
    applyDiffops basis ops = source ∧ checksum.fed = source

/-! ## Runs -/

section Runs

variable {X : Externals} {source : List UInt8} {ctx : ProtocolContext} {willing : Nat → Nat}
  {I : StreamingMatcher → StreamIO → List DiffOp → Prop} {Q : List DiffOp → List UInt8 → Prop}

theorem streamStep_done {st : StreamState} {ops : List DiffOp} {m : StreamingMatcher} {io : StreamIO}
    (h : processChunk X st.matcher st.io = .ok ((ops, true), m, io)) :
    streamStep X st = .ok (.inr (st.ops ++ ops, io.checksum)) := by
  rw [streamStep, h]
  rfl

/-- An iteration whose call makes progress. -/
theorem streamStep_progress {st : StreamState} {left : Nat}
    (h : ∃ r, processChunk X st.matcher st.io = .ok r ∧ Progress I Q st.ops left r) :
    (∃ st', streamStep X st = .ok (.inl st') ∧ I st'.matcher st'.io st'.ops ∧
        st'.io.reader.remaining.length < left) ∨
      ∃ a, streamStep X st = .ok (.inr a) ∧ Q a.1 a.2.fed := by
  obtain ⟨⟨⟨ops, done⟩, m, io⟩, hcall, hprog⟩ := h
  rcases hprog with ⟨hdone, hQ⟩ | ⟨hmore, hI, hlt⟩
  · obtain rfl : done = true := hdone
    exact .inr ⟨_, streamStep_done hcall, hQ⟩
  · obtain rfl : done = false := hmore
    left
    refine ⟨⟨m, io, st.ops ++ ops⟩, ?_, hI, hlt⟩
    rw [streamStep, hcall]
    rfl

/-- **The run rule.** A run whose calls all make progress ends as its last call does. -/
theorem streams_of_progress {sums : SumStruct} {chunk : Nat}
    (hcall : ∀ m io ops, I m io ops → ∃ r, processChunk X m io = .ok r ∧
      Progress I Q ops io.reader.remaining.length r)
    (hstart : ∃ r, processChunk X (streamStart sums ctx chunk source willing).matcher
        (streamStart sums ctx chunk source willing).io = .ok r ∧
      Progress I Q [] source.length r) :
    ∃ ops checksum, streamSource X sums ctx chunk source willing = .ok (ops, checksum) ∧
      Q ops checksum.fed := by
  -- the measure is what is left of the source: a call that is not the last reads some of it
  obtain ⟨⟨ops, checksum⟩, hrun, hQ⟩ := Loop.loop_total (Failure.fault .diverged)
    (streamStep X)
    (fun st => st = streamStart sums ctx chunk source willing ∨ I st.matcher st.io st.ops)
    (fun a => Q a.1 a.2.fed)
    (fun st => st.io.reader.remaining.length) (by
      rintro st (rfl | hI)
      · rcases streamStep_progress hstart with ⟨st', hstep, hI, hlt⟩ | hdone
        · exact .inl ⟨st', hstep, .inr hI, hlt⟩
        · exact .inr hdone
      · rcases streamStep_progress (hcall _ _ _ hI) with ⟨st', hstep, hI', hlt⟩ | hdone
        · exact .inl ⟨st', hstep, .inr hI', hlt⟩
        · exact .inr hdone)
    (source.length + 1) (streamStart sums ctx chunk source willing) (.inl rfl)
    (Nat.lt_succ_self _)
  exact ⟨ops, checksum, hrun, hQ⟩

/-- The run ends with a checksum of the negotiated algorithm. -/
theorem streamSource_checksumType {sums : SumStruct} {chunk : Nat} {ops : List DiffOp}
    {checksum : IncrementalChecksum}
    (h : streamSource X sums ctx chunk source willing = .ok (ops, checksum)) :
    checksum.checksumType = ctx.checksumType := by
  -- an invariant of the loop, and what it says of the result
  refine Loop.loop_partial (I := fun st => st.io.checksum.checksumType = ctx.checksumType)
    (Q := fun a => a.2.checksumType = ctx.checksumType) ?_ ?_ _ rfl h
  · intro st st' hst hstep
    obtain ⟨⟨⟨ops, done⟩, m, io⟩, hcall, hif⟩ := Loop.except_bind_eq_ok hstep
    dsimp only at hif
    split_ifs at hif
    · cases hif
    · cases hif
      exact (processChunk_checksumType hcall).trans hst
  · intro st a hst hstep
    obtain ⟨⟨⟨ops, done⟩, m, io⟩, hcall, hif⟩ := Loop.except_bind_eq_ok hstep
    dsimp only at hif
    split_ifs at hif
    · cases hif
      exact (processChunk_checksumType hcall).trans hst
    · cases hif

end Runs

section Start

variable {X : Externals} {ctx : ProtocolContext} {basis source : List UInt8} {chunk : Nat}
  {willing : Nat → Nat} {sums : SumStruct}

theorem streamStart_fresh (hcount : 0 < sums.head.count) (hblength : 0 < sums.head.blength) :
    Fresh (MatcherConfig.ofSums sums ctx) source chunk false
      (streamStart sums ctx chunk source willing).matcher
      (streamStart sums ctx chunk source willing).io := by
  -- there are signatures, and blocks of some length: the matcher is set up with them
  have hsums : decide (sums.head.count ≤ 0 ∨ sums.head.blength ≤ 0) = false :=
    decide_eq_false (by omega)
  have hnew : StreamingMatcher.new sums ctx chunk =
      { cfg := MatcherConfig.ofSums sums ctx
        chunkSize := chunk
        noSums := false
        rolling := .new ctx.charOffset
        buf := List.replicate (asUsize sums.head.blength + chunk) 0
        bufLen := 0
        pos := 0
        literalStart := 0
        initialized := false
        exhausted := false
        needRollingInit := true } := by
    simp only [StreamingMatcher.new, hsums]
    rfl
  rw [streamStart, hnew]
  exact ⟨rfl, rfl, rfl, rfl, rfl, rfl, rfl, List.length_replicate, rfl, rfl⟩

/-- With signatures, and a chunk that holds a block or the whole source. -/
theorem streams_of_fit (hcount : 0 < sums.head.count) (hblength : 0 < sums.head.blength)
    (hlt : sums.head.blength < 2 ^ 64) (hchunk : 0 < chunk)
    (hfit : sums.head.blength ≤ chunk ∨ source.length ≤ chunk) :
    ∃ ops checksum, streamSource X sums ctx chunk source willing = .ok (ops, checksum) ∧
      Covers X (MatcherConfig.ofSums sums ctx) ops source ∧ checksum.fed = source := by
  set cfg := MatcherConfig.ofSums sums ctx with hcfg
  have hblen : cfg.blength = sums.head.blength.toNat := asUsize_of_nonneg (by omega) hlt
  have htable : cfg.hashTable.Below cfg.sum2Entries.length := by
    simpa [hcfg, MatcherConfig.ofSums] using buildHashTable_below _
  refine streams_of_progress (I := Between X cfg source chunk)
    (Q := Complete (Covers X cfg) source) ?_ ?_
  · intro m io ops hI
    exact processChunk_next (by omega) htable hchunk hI
  · exact processChunk_first (by omega) htable hchunk (by omega)
      (streamStart_fresh hcount hblength)

/-- Without signatures: what holds of nothing, and is kept when a literal is sent, holds of the whole
source. -/
theorem streams_of_no_sums {D : List DiffOp → List UInt8 → Prop}
    (hnone : sums.head.count ≤ 0 ∨ sums.head.blength ≤ 0) (hchunk : 0 < chunk) (hnil : D [] [])
    (hD : ∀ {ops fed data}, D ops fed → data ≠ [] → D (ops ++ [.literal data]) (fed ++ data)) :
    ∃ ops checksum, streamSource X sums ctx chunk source willing = .ok (ops, checksum) ∧
      D ops source ∧ checksum.fed = source := by
  refine streams_of_progress (I := BetweenLiteral D source chunk) (Q := Complete D source) ?_ ?_
  · intro m io ops hI
    exact processChunk_literal hchunk hD hI
  · refine processChunk_literal hchunk hD ⟨rfl, ?_, rfl, ?_, rfl, hnil⟩
    all_goals simp [streamStart, StreamingMatcher.new, hnone]

/-- With signatures of blocks longer than a chunk, a source longer than a chunk is cut off. -/
theorem streamSource_lost (hcount : 0 < sums.head.count) (hlt : sums.head.blength < 2 ^ 64)
    (hchunk : 0 < chunk) (hblock : chunk < sums.head.blength) (hlong : chunk < source.length) :
    ∃ checksum, streamSource X sums ctx chunk source willing =
        .ok ([.literal (source.take chunk)], checksum) ∧
      checksum.fed = source.take chunk := by
  have hblen : (MatcherConfig.ofSums sums ctx).blength = sums.head.blength.toNat :=
    asUsize_of_nonneg (by omega) hlt
  have hfresh : Fresh (MatcherConfig.ofSums sums ctx) source chunk false
      (streamStart sums ctx chunk source willing).matcher
      (streamStart sums ctx chunk source willing).io :=
    streamStart_fresh hcount (by omega)
  obtain ⟨m, io, hcall, hfed⟩ := processChunk_first_lost (X := X) hchunk (by omega) hlong hfresh
  refine ⟨io.checksum, Loop.loop_inr ?_, hfed⟩
  rw [streamStep, hcall]
  rfl

end Start

theorem blockCount_pos {basis : List UInt8} {b : Nat} (hne : basis ≠ []) (hpos : 0 < b) :
    0 < blockCount b basis.length := by
  rw [lt_blockCount_iff hpos, Nat.zero_mul]
  exact List.length_pos_iff.mpr hne

/-- **When streaming loses no data.** For signatures that `read_sums` accepts, every chunk size
and every pattern of short reads: the operations give exactly the source, no index leaves the
buffer and the checksum is fed the whole source, if and only if there is no basis, or a chunk
holds a block, or a chunk holds the whole source. -/
theorem streamSource_correct_iff {X : Externals} {ctx : ProtocolContext}
    {basis source : List UInt8} {chunk : Nat} {sigs : SumStruct} (hchunk : 0 < chunk)
    (hblock : ctx.BlockSizePositive) (hdig : DigestLongEnough X ctx basis)
    (hcount : blockCount (signatureBlockLength basis ctx).toNat basis.length ≤ 16 * 1024 * 1024)
    (hsigs : computeSignatures X basis ctx = .ok sigs) (hash : NoFalseMatch X ctx basis source)
    (willing : Nat → Nat) :
    StreamsWhole X sigs ctx chunk basis source willing ↔
      basis = [] ∨ signatureBlockLength basis ctx ≤ chunk ∨ source.length ≤ chunk := by
  -- without a basis every chunk is a literal, whatever its size
  by_cases hne : basis = []
  · subst hne
    obtain rfl : sigs = ⟨SumHead.default, []⟩ := (Except.ok.inj hsigs).symm
    refine ⟨fun _ => .inl rfl, fun _ => ?_⟩
    have hnone : (SumStruct.mk .default []).head.count ≤ 0 ∨
        (SumStruct.mk .default []).head.blength ≤ 0 := .inl le_rfl
    obtain ⟨ops, checksum, hrun, hops, hfed⟩ := streams_of_no_sums hnone hchunk
      (D := fun ops data => applyDiffops [] ops = data) rfl (by
        intro ops fed data h _
        rw [applyDiffops_append, applyDiffops_singleton, h]
        rfl)
    exact ⟨ops, checksum, hrun, hops, hfed⟩
  · obtain ⟨b, s2, hb, hpos, hlt, hs2, -, -, hsigs'⟩ :=
      computeSignatures_of_ne_nil X ctx basis hne (by omega) hblock hdig
    obtain rfl : sigs = signaturesOf X ctx basis b s2 := Except.ok.inj (hsigs.symm.trans hsigs')
    rw [hb, Int.toNat_natCast] at hcount
    have hblocks : 0 < (signaturesOf X ctx basis b s2).head.count :=
      Int.natCast_pos.mpr (blockCount_pos hne hpos)
    have hblength : (signaturesOf X ctx basis b s2).head.blength = b := rfl
    constructor
    · rintro ⟨ops, checksum, hrun, hops, -⟩
      -- the first chunk is shorter than a block and than the source: it is emitted as the last one
      by_contra hcon
      simp only [not_or, not_le] at hcon
      obtain ⟨-, hbc, hsc⟩ := hcon
      obtain ⟨checksum', hlost, -⟩ :=
        streamSource_lost (X := X) hblocks (by omega) hchunk (by omega) hsc
      obtain ⟨rfl, -⟩ := Prod.mk.inj (Except.ok.inj (hrun.symm.trans hlost))
      have hlen := congrArg List.length hops
      rw [applyDiffops_singleton, DiffOp.bytes, List.length_take] at hlen
      omega
    · rintro (hnil | hfit)
      · exact absurd hnil hne
      · have hsound := matchSound_signaturesOf (by omega) hpos hlt hs2 hsigs hash
        have hfits : (signaturesOf X ctx basis b s2).head.blength ≤ chunk ∨
            source.length ≤ chunk := by omega
        obtain ⟨ops, checksum, hrun, hops, hfed⟩ := @streams_of_fit X ctx source chunk willing _
          hblocks (by omega) (by omega) hchunk hfits
        exact ⟨ops, checksum, hrun, (hops.describes hsound List.infix_rfl).apply_eq, hfed⟩

/-- A run with blocks of four bytes, chunks of five and one-byte reads. -/
theorem streamSource_correct_small :
    ∃ sigs, computeSignatures padExternals [1, 2, 3, 4, 5, 6, 7, 8] (padContext 4) = .ok sigs ∧
      StreamsWhole padExternals sigs (padContext 4) 5 [1, 2, 3, 4, 5, 6, 7, 8]
        [9, 5, 6, 7, 8, 1, 2, 3, 4] (fun _ => 1) := by
  obtain ⟨b, s2, -, -, -, -, -, -, hsigs⟩ := computeSignatures_of_ne_nil padExternals
    (padContext 4) [1, 2, 3, 4, 5, 6, 7, 8] (by decide) (by decide)
    (padContext_blockSizePositive (by decide)) (padExternals_digest (by decide) (by decide))
  exact ⟨_, hsigs, (streamSource_correct_iff (by decide) (padContext_blockSizePositive (by decide))
    (padExternals_digest (by decide) (by decide)) (by decide) hsigs
    (padExternals_noFalseMatch (by decide) (by decide) (by decide) (by decide)) _).mpr
    (.inr (.inl (by decide)))⟩

/-- With blocks of four bytes and chunks of two, the source `[9, 8, 7]` is sent as `[9, 8]`. -/
theorem streamSource_loses_data :
    NoFalseMatch padExternals (padContext 4) [1, 2, 3, 4] [9, 8, 7] ∧
      ∃ sigs, computeSignatures padExternals [1, 2, 3, 4] (padContext 4) = .ok sigs ∧
        ¬ StreamsWhole padExternals sigs (padContext 4) 2 [1, 2, 3, 4] [9, 8, 7] (fun _ => 2) := by
  obtain ⟨b, s2, hb, hpos, hlt, -, -, -, hsigs⟩ := computeSignatures_of_ne_nil padExternals
    (padContext 4) [1, 2, 3, 4] (by decide) (by decide)
    (padContext_blockSizePositive (by decide)) (padExternals_digest (by decide) (by decide))
  obtain rfl : b = 4 := by
    have : ((4 : Int32).toInt : Int) = b := hb
    have h4 : (4 : Int32).toInt = 4 := rfl
    omega
  refine ⟨padExternals_noFalseMatch (by decide) (by decide) (by decide) (by decide), _, hsigs, ?_⟩
  rintro ⟨ops, checksum, hrun, hops, -⟩
  obtain ⟨checksum', hlost, -⟩ : ∃ checksum', streamSource padExternals
      (signaturesOf padExternals (padContext 4) [1, 2, 3, 4] 4 s2) (padContext 4) 2 [9, 8, 7]
      (fun _ => 2) = .ok ([.literal [9, 8]], checksum') ∧ checksum'.fed = [9, 8] :=
    streamSource_lost (show (0 : Int) < 1 by decide) (show (4 : Int) < 2 ^ 64 by decide)
      (by decide) (show (2 : Int) < 4 by decide) (by decide)
  obtain ⟨rfl, -⟩ := Prod.mk.inj (Except.ok.inj (hrun.symm.trans hlost))
  exact absurd hops (by decide)

end Ferrosync
