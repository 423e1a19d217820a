import Ferrosync.Protocol.WireFormat
import Ferrosync.Fs.AtomicWriter
import Ferrosync.Engine.DeltaTransfer

set_option autoImplicit false

/-! # Receiving one requested file

The `GeneratorItem::Transfer` arm of `receiver_loop_pipelined` in the default mode (neither
`--inplace` nor `--append`, `--backup`, `--partial-dir` or `--sparse`): read the response header,
open the atomic writer, run the delta receiver into it, drop the writer.

The writer is dropped on every path that leaves the arm after it has been opened. `BreaksOff`
describes the streams on which the delta receiver fails, by the bytes it has handed to the writer
until then; `failed_receive_keeps_dest_iff` says for which of them the destination survives.
-/

namespace Ferrosync

open ByteStream

/-! ## The transfer arm -/

/-- The header of the sender's response: index, item flags and `sum_head`. -/
structure ResponseHeader where
  ndx : Int
  ndxState : NdxState
  iflags : Nat
  head : SumHead

def readResponseHeader (wf : WireFormat) (state : NdxState) : Wire ResponseHeader := do
  let (ndx, state) ← readNdx state wf.intCodec
  let iflags ← wf.readIflags
  let head ← readSumHead
  pure ⟨ndx, state, iflags, head⟩

/-- The header of a response is read back. -/
theorem reads_responseHeader (wf : WireFormat) {state : NdxState} {ndx : Int} {iflags : Nat}
    {head : SumHead} (hstate : state.Valid) (hndx : -2 ^ 31 < ndx ∧ ndx < 2 ^ 31)
    (hiflags : Reads wf.readIflags (wf.writeIflags iflags) (wf.seenIflags iflags))
    (hhead : head.InRange) :
    Reads (readResponseHeader wf state)
      ((writeNdx ndx state wf.intCodec).1 ++ (wf.writeIflags iflags ++ writeSumHead head))
      ⟨ndx, (writeNdx ndx state wf.intCodec).2, wf.seenIflags iflags, head⟩ := by
  refine (reads_ndx hstate hndx).bind ?_
  refine hiflags.bind ?_
  exact (reads_sumHead hhead).map

def ResponseHeader.blength (h : ResponseHeader) (blength : Nat) : Nat :=
  if h.head.blength > 0 then h.head.blength.toNat else blength

/-- What the arm works with. `tokensStart` is the initial state of the token reader; it is an
error where `Decompressor::from_type` refuses the negotiated compression. `tmpPath` is the name
`unique_tmp_name` makes from the process id and a counter. -/
structure FileReceive (σ π : Type) where
  wire : WireFormat
  ndxState : NdxState
  tokens : TokenReader σ
  tokensStart : Except Failure σ
  basis : List UInt8
  blength : Nat
  ctx : ProtocolContext
  mode : Option Nat
  tmpPath : π
  destPath : π
  tmp_ne_dest : tmpPath ≠ destPath
  faults : WriteFaults

section Receive

variable {σ π : Type} [DecidableEq π]

/-- The delta receiver on an open writer, and the drop of the writer. -/
def receiveInto (X : Externals) (r : FileReceive σ π) (blength : Nat) (w : AtomicFileWriter π)
    (files : Files π) (input : List UInt8) : Except Failure (Nat × List UInt8) × Files π :=
  match r.tokensStart with
  | .error e => (.error e, dropWriter r.faults files w)
  | .ok s =>
    match recvFileDeltaToWriterWith X r.tokens s r.basis blength r.ctx
        (atomicWriteAll r.faults) w input with
    | .error (e, w) => (.error e, dropWriter r.faults files w)
    -- `finish_file` only touches the metadata in the default mode
    | .ok ((n, w), rest) => (.ok (n, rest), dropWriter r.faults files w)

/-- The transfer arm: the number of bytes written and the unread rest of the stream, or the
error, and the files it leaves. -/
def receiveFile (X : Externals) (r : FileReceive σ π) (files : Files π) (input : List UInt8) :
    Except Failure (Nat × List UInt8) × Files π :=
  match readResponseHeader r.wire r.ndxState input with
  | .error e => (.error e, files)
  | .ok (h, rest) =>
    match writeFileStream r.faults files r.tmpPath r.destPath r.mode with
    | .error e => (.error e, files)
    | .ok (w, files) => receiveInto X r (h.blength r.blength) w files rest

end Receive

/-! ## Streams that break off -/

/-- The delta receiver in reader state `s`, having written `out` in `k` writes, fails on the
stream `bs` after the writer has taken `out'` in all. -/
inductive BreaksOff {σ : Type} (X : Externals) (R : TokenReader σ) (basis : List UInt8)
    (blength : Nat) (ctx : ProtocolContext) (faults : WriteFaults) :
    σ → List UInt8 → List UInt8 → Nat → List UInt8 → Prop where
  /-- The stream is cut or malformed where a token is expected. -/
  | unreadable {s bs out k e} (hread : R.readToken s bs = .error e) :
      BreaksOff X R basis blength ctx faults s bs out k out
  /-- A block reference is out of range. -/
  | badReference {s bs out k t s' rest e} (hread : R.readToken s bs = .ok ((t, s'), rest))
      (hdel : deliver basis blength t = .error e) :
      BreaksOff X R basis blength ctx faults s bs out k out
  /-- The writer refuses a piece after its first `n` bytes. -/
  | refused {s bs out k t s' rest p n} (hread : R.readToken s bs = .ok ((t, s'), rest))
      (hdel : deliver basis blength t = .ok (.piece p)) (hwrite : faults.write k = some n) :
      BreaksOff X R basis blength ctx faults s bs out k (out ++ p.take n)
  /-- The whole-file checksum is cut or wrong. -/
  | badChecksum {s bs out k t s' rest e} (hread : R.readToken s bs = .ok ((t, s'), rest))
      (hdel : deliver basis blength t = .ok .finish)
      (hsum : verifyChecksum ctx.checksumType.digestLen (fileDigest X ctx.checksumType out) rest
        = .error e) :
      BreaksOff X R basis blength ctx faults s bs out k out
  /-- A piece is written and the stream breaks off later. -/
  | piece {s bs out k t s' rest p out'} (hread : R.readToken s bs = .ok ((t, s'), rest))
      (hdel : deliver basis blength t = .ok (.piece p)) (hwrite : faults.write k = none)
      (later : BreaksOff X R basis blength ctx faults s' rest (out ++ p) (k + 1) out') :
      BreaksOff X R basis blength ctx faults s bs out k out'
  /-- A block reference past the end of the basis adds nothing. -/
  | skip {s bs out k t s' rest out'} (hread : R.readToken s bs = .ok ((t, s'), rest))
      (hdel : deliver basis blength t = .ok .skip)
      (later : BreaksOff X R basis blength ctx faults s' rest out k out') :
      BreaksOff X R basis blength ctx faults s bs out k out'

/-- The arm fails on `input` with its writer open, after the writer has taken `out`. -/
def AbortsAfter {σ π : Type} (X : Externals) (r : FileReceive σ π) (input out : List UInt8) :
    Prop :=
  r.faults.create = false ∧ ∃ h rest, readResponseHeader r.wire r.ndxState input = .ok (h, rest) ∧
    ((∃ e, r.tokensStart = .error e ∧ out = []) ∨
      ∃ s, r.tokensStart = .ok s ∧
        BreaksOff X r.tokens r.basis (h.blength r.blength) r.ctx r.faults s rest [] 0 out)

/-! ## The delta receiver fails exactly on those streams -/

section Failure

variable {σ π : Type} (X : Externals) (R : TokenReader σ) (basis : List UInt8) (blength : Nat)
  (ctx : ProtocolContext) (faults : WriteFaults) (w : AtomicFileWriter π)

/-- The writer after it has taken `out` in `k` writes. -/
def AtomicFileWriter.having (w : AtomicFileWriter π) (out : List UInt8) (k : Nat) :
    AtomicFileWriter π :=
  { w with accepted := out, writes := k }

/-- The locals of the delta receiver at that point. -/
def sinkAt (out : List UInt8) (k : Nat) : WriterSink (AtomicFileWriter π) :=
  ⟨⟨ctx.checksumType, out⟩, w.having out k, out.length⟩

/-- What follows the token loop in `recv_file_delta_to_writer_with`. -/
def afterTokens :
    Except (Failure × WriterSink (AtomicFileWriter π))
        (RecvState σ (WriterSink (AtomicFileWriter π))) →
      Except (Failure × AtomicFileWriter π) ((Nat × AtomicFileWriter π) × List UInt8)
  | .error (e, s) => .error (e, s.writer)
  | .ok st =>
    match verifyChecksum ctx.checksumType.digestLen (st.sink.hasher.finalize X) st.input with
    | .error e => .error (e, st.sink.writer)
    | .ok ((), rest) => .ok ((st.sink.bytesWritten, st.sink.writer), rest)

/-- The delta receiver from the middle of a stream, with at most `n` more tokens. -/
def receiveFrom (n : Nat) (s : σ) (bs out : List UInt8) (k : Nat) :
    Except (Failure × AtomicFileWriter π) ((Nat × AtomicFileWriter π) × List UInt8) :=
  afterTokens X ctx (Loop.loop (.fault .diverged, sinkAt ctx w [] 0)
    (recvStep R (writerSink (atomicWriteAll faults)) basis blength) n ⟨s, bs, sinkAt ctx w out k⟩)

variable {X R basis blength ctx faults w}

theorem recvFileDeltaToWriterWith_eq {s : σ} {bs : List UInt8} (hnew : w.having [] 0 = w) :
    recvFileDeltaToWriterWith X R s basis blength ctx (atomicWriteAll faults) w bs =
      receiveFrom X R basis blength ctx faults w (R.bound s bs + 1) s bs [] 0 := by
  have hsink : sinkAt ctx w [] 0 = ⟨.new ctx.checksumType, w, 0⟩ := by
    rw [sinkAt, hnew]
    rfl
  rw [receiveFrom, hsink, recvFileDeltaToWriterWith, recvTokens]
  generalize Loop.loop _ _ _ _ = result
  rcases result with ⟨e, sink⟩ | st <;> rfl

/-- What the receiver does with the next token. -/
theorem receiveFrom_succ {n k : Nat} {s : σ} {bs out : List UInt8} :
    receiveFrom X R basis blength ctx faults w (n + 1) s bs out k =
      match R.readToken s bs with
      | .error e => .error (e, w.having out k)
      | .ok ((t, s'), rest) =>
        match deliver basis blength t, faults.write k with
        | .error e, _ => .error (e, w.having out k)
        | .ok .finish, _ =>
          match verifyChecksum ctx.checksumType.digestLen (fileDigest X ctx.checksumType out)
              rest with
          | .error e => .error (e, w.having out k)
          | .ok ((), rest) => .ok ((out.length, w.having out k), rest)
        | .ok .skip, _ => receiveFrom X R basis blength ctx faults w n s' rest out k
        | .ok (.piece p), none =>
          receiveFrom X R basis blength ctx faults w n s' rest (out ++ p) (k + 1)
        | .ok (.piece p), some m =>
          .error (.protocol (.io .other), w.having (out ++ p.take m) (k + 1)) := by
  rw [receiveFrom, Loop.loop, recvStep]
  -- the branches of one round: unreadable, delivered or not, written or not
  rcases R.readToken s bs with e | ⟨⟨t, s'⟩, rest⟩
  · rfl
  dsimp only
  rcases deliver basis blength t with e | _ | p | _
  · rfl
  · rfl
  · cases hwrite : faults.write k <;>
      simp [recvDelivered, writerSink, atomicWriteAll, sinkAt, AtomicFileWriter.having, hwrite,
        IncrementalChecksum.update, receiveFrom, afterTokens]
  · rfl

/-- On a stream that breaks off the receiver fails, with the writer that has taken `out'`. -/
theorem BreaksOff.receiveFrom_error {s : σ} {bs out out' : List UInt8} {k : Nat}
    (h : BreaksOff X R basis blength ctx faults s bs out k out') :
    ∀ n, R.bound s bs ≤ n → ∃ e k', receiveFrom X R basis blength ctx faults w (n + 1) s bs out k =
      .error (e, w.having out' k') := by
  induction h with
  | unreadable hread | badReference hread hdel | badChecksum hread hdel hsum
  | refused hread hdel hwrite =>
    simp [receiveFrom_succ, *]
  -- a token that is not the end shortens what is left, so that the fuel suffices
  | piece hread hdel hwrite _ ih =>
    intro n hn
    have hlt := R.bound_lt hread (by rintro rfl; simp [deliver] at hdel)
    obtain ⟨n, rfl⟩ := Nat.exists_eq_add_of_lt (hlt.trans_le hn)
    simp only [receiveFrom_succ (n := _ + 1), hread, hdel, hwrite]
    exact ih _ (by omega)
  | skip hread hdel _ ih =>
    intro n hn
    have hlt := R.bound_lt hread (by rintro rfl; simp [deliver] at hdel)
    obtain ⟨n, rfl⟩ := Nat.exists_eq_add_of_lt (hlt.trans_le hn)
    simp only [receiveFrom_succ (n := _ + 1), hread, hdel]
    exact ih _ (by omega)

/-- Whenever the receiver fails, the stream breaks off and the writer has taken what it says. -/
theorem breaksOff_of_receiveFrom_error {e : Failure} {w' : AtomicFileWriter π} :
    ∀ (n : Nat) {s : σ} {bs out : List UInt8} {k : Nat}, R.bound s bs < n →
      receiveFrom X R basis blength ctx faults w n s bs out k = .error (e, w') →
      ∃ out' k', w' = w.having out' k' ∧
        BreaksOff X R basis blength ctx faults s bs out k out'
  | 0, _, _, _, _, hn, _ => absurd hn (Nat.not_lt_zero _)
  | n + 1, s, bs, out, k, hn, h => by
    rcases hread : R.readToken s bs with e' | ⟨⟨t, s'⟩, rest⟩ <;>
      simp only [receiveFrom_succ, hread] at h
    · cases h
      exact ⟨out, k, rfl, .unreadable hread⟩
    rcases hdel : deliver basis blength t with e' | d <;> simp only [hdel] at h
    · cases h
      exact ⟨out, k, rfl, .badReference hread hdel⟩
    -- every round but the last is a step of the induction
    have hlt : d ≠ .finish → R.bound s' rest < R.bound s bs := by
      intro hd
      refine R.bound_lt hread ?_
      rintro rfl
      simp only [deliver, Except.ok.injEq] at hdel
      exact hd hdel.symm
    cases d with
    | finish =>
      dsimp only at h
      split at h
      · next hsum =>
        cases h
        exact ⟨out, k, rfl, .badChecksum hread hdel hsum⟩
      · cases h
    | skip =>
      have hb := hlt (by simp)
      obtain ⟨out', k', hw, hbreak⟩ := breaksOff_of_receiveFrom_error n (by omega) h
      exact ⟨out', k', hw, .skip hread hdel hbreak⟩
    | piece p =>
      cases hwrite : faults.write k with
      | none =>
        rw [hwrite] at h
        have hb := hlt (by simp)
        obtain ⟨out', k', hw, hbreak⟩ := breaksOff_of_receiveFrom_error n (by omega) h
        exact ⟨out', k', hw, .piece hread hdel hwrite hbreak⟩
      | some m =>
        rw [hwrite] at h
        cases h
        exact ⟨_, _, rfl, .refused hread hdel hwrite⟩

end Failure

/-! ## What is left at the destination -/

section Destination

variable {σ π : Type} [DecidableEq π] {X : Externals} {r : FileReceive σ π} {files files' : Files π}
  {input out : List UInt8}

def FileReceive.newWriter (r : FileReceive σ π) : AtomicFileWriter π :=
  ⟨r.tmpPath, r.destPath, r.mode, [], 0, false⟩

/-- The files once the writer, opened on `files`, is dropped with `out` taken. -/
def FileReceive.afterDrop (r : FileReceive σ π) (files : Files π) (out : List UInt8) (k : Nat) :
    Files π :=
  dropWriter r.faults (Function.update files r.tmpPath (some [])) (r.newWriter.having out k)

theorem FileReceive.afterDrop_commits (k : Nat) (h : ¬ CommitFails r.faults r.mode) :
    r.afterDrop files out k r.destPath = some out :=
  dropWriter_commits (w := r.newWriter.having out k) rfl h

theorem FileReceive.afterDrop_keeps (k : Nat) (h : CommitFails r.faults r.mode) :
    r.afterDrop files out k r.destPath = files r.destPath := by
  have hne : r.destPath ≠ r.tmpPath := r.tmp_ne_dest.symm
  have hdrop : r.afterDrop files out k r.destPath =
      Function.update files r.tmpPath (some []) r.destPath :=
    dropWriter_keeps (w := r.newWriter.having out k) rfl hne h
  exact hdrop.trans (Function.update_of_ne hne _ _)

/-- The delta receiver on the new writer, once the token reader has been made. -/
theorem receiveInto_newWriter {blength : Nat} {s : σ} {bs : List UInt8} (hstart : r.tokensStart = .ok s) :
    receiveInto X r blength r.newWriter files bs =
      match receiveFrom X r.tokens r.basis blength r.ctx r.faults r.newWriter
          (r.tokens.bound s bs + 1) s bs [] 0 with
      | .error (e, w) => (.error e, dropWriter r.faults files w)
      | .ok ((n, w), rest) => (.ok (n, rest), dropWriter r.faults files w) := by
  have heq : recvFileDeltaToWriterWith X r.tokens s r.basis blength r.ctx
        (atomicWriteAll r.faults) r.newWriter bs =
      receiveFrom X r.tokens r.basis blength r.ctx r.faults r.newWriter (r.tokens.bound s bs + 1)
        s bs [] 0 := recvFileDeltaToWriterWith_eq rfl
  simp only [receiveInto, hstart, heq]

theorem receiveFile_open {h : ResponseHeader} {rest : List UInt8}
    (hhead : readResponseHeader r.wire r.ndxState input = .ok (h, rest))
    (hcreate : r.faults.create = false) :
    receiveFile X r files input =
      receiveInto X r (h.blength r.blength) r.newWriter
        (Function.update files r.tmpPath (some [])) rest := by
  simp only [receiveFile, hhead, writeFileStream, hcreate, Bool.false_eq_true, if_false]
  rfl

/-- Where the arm aborts after `out`, it fails and has dropped a writer that holds `out`. -/
theorem AbortsAfter.receiveFile_eq (h : AbortsAfter X r input out) (files : Files π) :
    ∃ e k, receiveFile X r files input = (.error e, r.afterDrop files out k) := by
  obtain ⟨hcreate, hd, rest, hhead, hcase⟩ := h
  rw [receiveFile_open hhead hcreate]
  obtain ⟨e, hstart, rfl⟩ | ⟨s, hstart, hbreak⟩ := hcase
  · exact ⟨e, 0, by rw [receiveInto, hstart]; rfl⟩
  · obtain ⟨e, k, herr⟩ := hbreak.receiveFrom_error (w := r.newWriter) _ (Nat.le_refl _)
    exact ⟨e, k, by rw [receiveInto_newWriter hstart, herr]; rfl⟩

/-- A failure of the arm touches no file, or comes with the drop of a writer. -/
theorem receiveFile_error_cases {e : Failure} (h : receiveFile X r files input = (.error e, files')) :
    files' = files ∨ ∃ out k, AbortsAfter X r input out ∧ files' = r.afterDrop files out k := by
  rcases hhead : readResponseHeader r.wire r.ndxState input with e' | ⟨hd, rest⟩
  · simp only [receiveFile, hhead] at h
    exact .inl (Prod.mk.inj h).2.symm
  by_cases hcreate : r.faults.create = true
  · simp only [receiveFile, hhead, writeFileStream, hcreate] at h
    exact .inl (Prod.mk.inj h).2.symm
  have hcreate' : r.faults.create = false := by simpa using hcreate
  rw [receiveFile_open hhead hcreate'] at h
  -- from here on the writer is open, and dropped on every failure
  right
  rcases hstart : r.tokensStart with e' | s
  · rw [receiveInto, hstart] at h
    exact ⟨[], 0, ⟨hcreate', hd, rest, hhead, .inl ⟨e', hstart, rfl⟩⟩, (Prod.mk.inj h).2.symm⟩
  · rw [receiveInto_newWriter hstart] at h
    split at h
    · next e' w' herr =>
      obtain ⟨out, k, hw, hbreak⟩ := breaksOff_of_receiveFrom_error _ (Nat.lt_succ_self _) herr
      refine ⟨out, k, ⟨hcreate', hd, rest, hhead, .inr ⟨s, hstart, hbreak⟩⟩, ?_⟩
      rw [← (Prod.mk.inj h).2, hw]
      rfl
    · cases (Prod.mk.inj h).1

/-- **A failed receive keeps the destination exactly when nothing is committed by the drop of the
writer**: on every stream on which the arm aborts with its writer open, the commit itself has to
fail, or the bytes written so far have to be the old content. -/
theorem failed_receive_keeps_dest_iff (X : Externals) (r : FileReceive σ π) (files : Files π)
    (input : List UInt8) :
    (∀ e files', receiveFile X r files input = (.error e, files') →
        files' r.destPath = files r.destPath) ↔
      ∀ out, AbortsAfter X r input out →
        CommitFails r.faults r.mode ∨ files r.destPath = some out := by
  -- the drop commits what was written, unless the commit itself fails
  constructor
  · intro hkeep out habort
    obtain ⟨e, k, heq⟩ := habort.receiveFile_eq files
    by_cases hcommit : CommitFails r.faults r.mode
    · exact .inl hcommit
    · right
      rw [← hkeep e _ heq, r.afterDrop_commits k hcommit]
  · intro hcond e files' heq
    obtain rfl | ⟨out, k, habort, rfl⟩ := receiveFile_error_cases heq
    · rfl
    obtain hcommit | hprior := hcond out habort
    · exact r.afterDrop_keeps k hcommit
    · by_cases hcommit : CommitFails r.faults r.mode
      · exact r.afterDrop_keeps k hcommit
      · rw [r.afterDrop_commits k hcommit, hprior]

end Destination

def plainReceive (ctx : ProtocolContext) : FileReceive Unit Bool where
  wire := .new 28 0
  ndxState := .default
  tokens := plainTokenReader
  tokensStart := .ok ()
  basis := []
  blength := 700
  ctx := ctx
  mode := none
  tmpPath := false
  destPath := true
  tmp_ne_dest := by decide
  faults := .none

/-- A response header, one literal byte, and the end of the connection. -/
def cutStream : List UInt8 :=
  (writeInt 0 ++ writeSumHead ⟨0, 0, 0, 0⟩) ++ (encodeToken (.data [9]) ++ [])

theorem cutStream_aborts (X : Externals) (ctx : ProtocolContext) :
    AbortsAfter X (plainReceive ctx) cutStream [9] := by
  have hhead : Reads (readResponseHeader (.new 28 0) .default)
      (writeInt 0 ++ writeSumHead ⟨0, 0, 0, 0⟩) ⟨0, .default, 0, ⟨0, 0, 0, 0⟩⟩ :=
    ((reads_int (by decide)).map).bind ((reads_sumHead (by decide)).map)
  refine ⟨rfl, _, _, hhead _, .inr ⟨(), rfl, ?_⟩⟩
  have hread := plainTokenReader_read (t := .data [9]) (by simp [Token.Sendable, maxWireAlloc]) []
  exact .piece hread rfl rfl (.unreadable rfl)

def priorFiles : Files Bool := fun path => if path then some [1, 2, 3] else none

/-- A stream cut after its first literal replaces the three bytes at the destination by one. -/
theorem failed_receive_replaces_dest :
    priorFiles (plainReceive (padContext 4)).destPath = some [1, 2, 3] ∧
      ∃ e files', receiveFile padExternals (plainReceive (padContext 4)) priorFiles cutStream =
          (.error e, files') ∧
        files' (plainReceive (padContext 4)).destPath = some [9] := by
  obtain ⟨e, k, heq⟩ := (cutStream_aborts padExternals (padContext 4)).receiveFile_eq priorFiles
  refine ⟨rfl, e, _, heq, ?_⟩
  exact (plainReceive (padContext 4)).afterDrop_commits k
    (by simp [CommitFails, plainReceive, WriteFaults.none])

end Ferrosync
