import Ferrosync.Engine.Receiver

set_option autoImplicit false

/-! # A buffered writer on the destination itself

With `--append` and `--inplace` the receiver does not write to a temporary file: `create_writer`
opens the destination, at its end or truncated, behind a `std::io::BufWriter`. Unlike
`AtomicFileWriter`, whose temporary file nobody looks at, it matters here which bytes have left
the buffer, because a mapped basis is a view of the same file.
-/

namespace Ferrosync

open ByteStream

/-- `BufWriter<File>`: the content of the file, whose end is the position of the next write, and
the bytes that have not reached it. -/
structure BufWriter where
  file : List UInt8
  buf : List UInt8
  deriving DecidableEq, Repr

namespace BufWriter

/-- `DEFAULT_BUF_SIZE`. -/
def capacity : Nat := 8 * 1024

def flushBuf (w : BufWriter) : BufWriter := ⟨w.file ++ w.buf, []⟩

/-- `write_all_cold`: data that does not fit empties the buffer first, and data that no buffer
can hold goes to the file directly. -/
def writeAllCold (w : BufWriter) (data : List UInt8) : BufWriter :=
  let w := if data.length > capacity - w.buf.length then w.flushBuf else w
  if data.length ≥ capacity then ⟨w.file ++ data, w.buf⟩ else ⟨w.file, w.buf ++ data⟩

def writeAll (w : BufWriter) (data : List UInt8) : BufWriter :=
  if data.length < capacity - w.buf.length then ⟨w.file, w.buf ++ data⟩
  else w.writeAllCold data

/-- What the file holds once the writer has been dropped. -/
def content (w : BufWriter) : List UInt8 := w.file ++ w.buf

/-- `write_all` as the receive functions call it, on a disk that takes everything. -/
def sinkAll : WriteAll BufWriter := fun w data => .ok (w.writeAll data)

/-- The buffer holds at most its capacity. -/
def Fits (w : BufWriter) : Prop := w.buf.length ≤ capacity

theorem Fits.writeAll {w : BufWriter} (h : w.Fits) (data : List UInt8) :
    (w.writeAll data).Fits := by
  unfold Fits at h ⊢
  unfold BufWriter.writeAll writeAllCold flushBuf
  split_ifs <;> simp only [List.length_append, List.length_nil] <;> omega

/-- Nothing is lost or reordered on the way through the buffer. -/
theorem content_writeAll {w : BufWriter} (h : w.Fits) (data : List UInt8) :
    (w.writeAll data).content = w.content ++ data := by
  unfold Fits at h
  unfold writeAll writeAllCold flushBuf content
  split_ifs with hsmall hflush hdirect hdirect
  · rw [List.append_assoc]
  · rw [List.append_nil]
  · rfl
  · -- a buffer that a direct write passes by is empty
    have hempty : w.buf = [] := List.eq_nil_of_length_eq_zero (by omega)
    simp [hempty]
  · rw [List.append_assoc]

/-- The writer after these pieces. -/
def writePieces (w : BufWriter) (pieces : List (List UInt8)) : BufWriter :=
  pieces.foldl writeAll w

theorem Fits.writePieces {w : BufWriter} (h : w.Fits) (pieces : List (List UInt8)) :
    (w.writePieces pieces).Fits := by
  induction pieces generalizing w with
  | nil => exact h
  | cons p pieces ih => exact ih (h.writeAll p)

theorem content_writePieces {w : BufWriter} (h : w.Fits) (pieces : List (List UInt8)) :
    (w.writePieces pieces).content = w.content ++ pieces.flatten := by
  induction pieces generalizing w with
  | nil => simp [writePieces]
  | cons p pieces ih =>
    have hrest := ih (h.writeAll p)
    rw [content_writeAll h, List.append_assoc] at hrest
    exact hrest

end BufWriter

/-! ## The delta receiver in front of it -/

section Receive

variable {σ : Type} {X : Externals} {R : TokenReader σ} {basis : List UInt8} {blength : Nat}
  {ctx : ProtocolContext}

/-- The locals of `recv_file_delta_to_writer_with` after a piece. -/
def WriterSink.take (x : WriterSink BufWriter) (p : List UInt8) : WriterSink BufWriter :=
  ⟨x.hasher.update p, x.writer.writeAll p, x.bytesWritten + p.length⟩

theorem foldl_take (pieces : List (List UInt8)) (x : WriterSink BufWriter) :
    pieces.foldl WriterSink.take x =
      ⟨x.hasher.update pieces.flatten, x.writer.writePieces pieces,
        x.bytesWritten + pieces.flatten.length⟩ := by
  induction pieces generalizing x with
  | nil => simp [IncrementalChecksum.update, BufWriter.writePieces]
  | cons p pieces ih =>
    simp [ih, WriterSink.take, IncrementalChecksum.update, BufWriter.writePieces]
    omega

/-- A stream whose tokens all stand for pieces, with the checksum of the pieces behind them, is
received whole. -/
theorem TokenReader.Gives.recvToBufWriter {s : σ} {bs rest : List UInt8} {ts : List Token}
    (value : Token → List UInt8)
    (h : R.Gives s bs ts (fileDigest X ctx.checksumType (ts.flatMap value) ++ rest))
    (hpiece : ∀ t ∈ ts, deliver basis blength t = .ok (.piece (value t))) (w : BufWriter) :
    recvFileDeltaToWriterWith X R s basis blength ctx BufWriter.sinkAll w bs =
      .ok (((ts.flatMap value).length, w.writePieces (ts.map value)), rest) := by
  obtain ⟨s', hrun⟩ := h.recvTokens (writerSink BufWriter.sinkAll) WriterSink.take value
    (fun _ _ => rfl) hpiece ⟨.new ctx.checksumType, w, 0⟩
  rw [foldl_take, ← List.flatMap_def] at hrun
  have hsum := reads_verifyChecksum (fileDigest_length X ctx.checksumType (ts.flatMap value)) rest
  rw [recvFileDeltaToWriterWith, hrun]
  simp only [IncrementalChecksum.update, IncrementalChecksum.new, IncrementalChecksum.finalize,
    List.nil_append, hsum, Nat.zero_add]

end Receive

end Ferrosync
