import Ferrosync.Delta.CompressedToken

set_option autoImplicit false

/-! # Writing the tokens of a compressed stream

`CompressedTokenWriter`, over an arbitrary compressor. Literal data waits in a buffer until the
token behind it is known. It is then compressed in chunks of `DATA_CHUNK_SIZE`; the output of a
chunk goes out in frames of at most `MAX_DATA_COUNT` bytes. Block references are held back as long
as they continue a run.
-/

namespace Ferrosync

open ByteStream

inductive CompressorType where
  | zlib
  | zstd
  | lz4
  deriving DecidableEq, Repr

/-- A compressor as the writer uses it. -/
structure Compressor (κ : Type) where
  kind : CompressorType
  reset : κ → Except Failure κ
  compress : κ → List UInt8 → Except Failure (List UInt8 × κ)

def syncFlushTrailer : List UInt8 := [0x00, 0x00, 0xFF, 0xFF]

def maybeStripTrailer (compressed : List UInt8) (kind : CompressorType) : List UInt8 :=
  if kind = .zlib ∧ compressed.length ≥ 4 ∧
      compressed.drop (compressed.length - 4) = syncFlushTrailer then
    compressed.take (compressed.length - 4)
  else compressed

/-- A `DEFLATED_DATA` header and its data. -/
def deflatedFrame (output : List UInt8) : List UInt8 :=
  [UInt8.ofNat (0x40 + output.length / 256), UInt8.ofNat (output.length % 256)] ++ output

/-- The frames for the output of one chunk. -/
def deflatedFrames (output : List UInt8) : List UInt8 :=
  if output = [] then []
  else if output.length > maxDataCount then (chunks maxDataCount output).flatMap deflatedFrame
  else deflatedFrame output

/-- `CompressedTokenWriter`. The token `-1` stands for the end of a file and `-2` for data
only. -/
structure CompressedTokenWriter (κ : Type) where
  lastToken : Int
  runStart : Int
  lastRunEnd : Int
  flushPending : Bool
  compressor : κ
  traitPendingData : List UInt8

def CompressedTokenWriter.new {κ : Type} (c : κ) : CompressedTokenWriter κ :=
  ⟨-1, 0, 0, false, c, []⟩

section Writer

variable {κ : Type}

/-- The loop of `compress_and_send`: only the output of the last chunk loses its trailer. -/
def compressChunks (C : Compressor κ) (doFlush : Bool) :
    List (List UInt8) → κ → Except Failure (List UInt8 × κ)
  | [], c => .ok ([], c)
  | chunk :: rest, c => do
    let (compressed, c) ← C.compress c chunk
    let output := if rest = [] ∧ doFlush then maybeStripTrailer compressed C.kind else compressed
    let (bs, c) ← compressChunks C doFlush rest c
    pure (deflatedFrames output ++ bs, c)

/-- The chunks that `compress_and_send` compresses. Without data, a flush that is due compresses
one empty chunk. -/
def chunksToSend (data : List UInt8) (flushPending : Bool) : List (List UInt8) :=
  if data = [] then (if flushPending then [[]] else []) else chunks dataChunkSize data

def CompressedTokenWriter.flushRun (w : CompressedTokenWriter κ) :
    List UInt8 × CompressedTokenWriter κ :=
  let r := toI32 (w.runStart - w.lastRunEnd)
  let n := toI32 (w.lastToken - w.runStart)
  let head :=
    if 0 ≤ r ∧ r ≤ 63 then [UInt8.ofNat ((if n = 0 then 0x80 else 0xC0) + r.toNat)]
    else (if n = 0 then 0x20 else 0x21) :: writeInt w.runStart
  let count := if n ≠ 0 then
      [UInt8.ofNat (n % 256).toNat, UInt8.ofNat (n / 256 % 256).toNat] else []
  (head ++ count, { w with lastRunEnd := w.lastToken })

/-- The first part of `send_token`: the start of a file, or the end of a run. -/
def CompressedTokenWriter.beginToken (C : Compressor κ) (w : CompressedTokenWriter κ)
    (data : List UInt8) (token : Int) : Except Failure (List UInt8 × CompressedTokenWriter κ) :=
  if w.lastToken = -1 then do
    let c ← C.reset w.compressor
    pure ([], { w with compressor := c, lastRunEnd := 0, runStart := token, flushPending := false })
  else if w.lastToken = -2 then .ok ([], { w with runStart := token })
  else if data ≠ [] ∨ token ≠ toI32 (w.lastToken + 1) ∨ token ≥ toI32 (w.runStart + 65536) then
    .ok (w.flushRun.1, { w.flushRun.2 with runStart := token })
  else .ok ([], w)

/-- The second part: the data in front of the token. -/
def CompressedTokenWriter.putData (C : Compressor κ) (w : CompressedTokenWriter κ)
    (data : List UInt8) (token : Int) : Except Failure (List UInt8 × CompressedTokenWriter κ) :=
  if data ≠ [] ∨ w.flushPending then do
    let (bs, c) ← compressChunks C (token ≠ -2) (chunksToSend data w.flushPending) w.compressor
    pure (bs, { w with compressor := c, flushPending := token = -2 })
  else .ok ([], w)

def CompressedTokenWriter.sendToken (C : Compressor κ) (w : CompressedTokenWriter κ)
    (data : List UInt8) (token : Int) : Except Failure (List UInt8 × CompressedTokenWriter κ) := do
  let (run, w) ← w.beginToken C data token
  let (frames, w) ← ({ w with lastToken := token } : CompressedTokenWriter κ).putData C data token
  pure (run ++ (frames ++ (if token = -1 then [0x00] else [])), w)

/-- `CompressedTokenWriter` as a token writer. -/
def compressedTokenWriter (C : Compressor κ) : TokenWriter (CompressedTokenWriter κ) where
  writeData w data :=
    if w.traitPendingData = [] then .ok ([], { w with traitPendingData := data })
    else ({ w with traitPendingData := data } : CompressedTokenWriter κ).sendToken C
      w.traitPendingData (-2)
  writeBlockMatch w index :=
    ({ w with traitPendingData := [] } : CompressedTokenWriter κ).sendToken C
      w.traitPendingData index
  writeEof w :=
    ({ w with traitPendingData := [] } : CompressedTokenWriter κ).sendToken C
      w.traitPendingData (-1)

end Writer

end Ferrosync
