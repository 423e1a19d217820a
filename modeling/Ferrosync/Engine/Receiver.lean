import Ferrosync.Delta.Matcher

set_option autoImplicit false

/-! # Receiving one file

`recv_file_delta_with` and `recv_file_delta_to_writer_with` of `receiver.rs`. Both run the same
token loop and differ in where the reconstructed bytes go, so the loop is written once over a
*sink*: the state that takes the pieces, which may refuse one. A failure of the loop carries the
sink as it was then, because what has been written before an error is what the commit of the
destination file acts on.
-/

namespace Ferrosync

open ByteStream

/-! ## The bytes a token stands for -/

/-- `block_count` of the receiver. -/
def recvBlockCount (basis : List UInt8) (blength : Nat) : Nat :=
  if blength > 0 ∧ basis ≠ [] then blockCount blength basis.length else 0

/-- `remainder` of the receiver. -/
def recvRemainder (basis : List UInt8) (blength : Nat) : Nat :=
  if blength > 0 ∧ basis ≠ [] ∧ basis.length % blength ≠ 0 then basis.length % blength
  else blength

/-- The bytes of a block reference; `none` where the source appends nothing. -/
def blockPiece (basis : List UInt8) (blength : Nat) (index : Int) :
    Except Failure (Option (List UInt8)) :=
  let idx := asUsize index
  let count := recvBlockCount basis blength
  if idx ≥ count then .error (outOfRange "block_index" index (count - 1 : Nat))
  else if idx * blength ≥ 2 ^ 64 then .error (outOfRange "block_offset" index (2 ^ 63 - 1))
  else
    let offset := idx * blength
    let len := blockByteLength idx blength count (recvRemainder basis blength)
    if offset < basis.length then
      .ok (some (slice basis offset (min (offset + len) basis.length)))
    else .ok none

/-- What the loop does with a token: leave, or hand a piece to the sink. -/
inductive Delivery where
  | finish
  | piece (bytes : List UInt8)
  | skip
  deriving DecidableEq, Repr

def deliver (basis : List UInt8) (blength : Nat) : Token → Except Failure Delivery
  | .data bytes => .ok (.piece bytes)
  | .blockMatch index =>
    match blockPiece basis blength index with
    | .ok (some bytes) => .ok (.piece bytes)
    | .ok none => .ok .skip
    | .error e => .error e
  | .endOfFile => .ok .finish

/-! ## The token loop -/

/-- A sink takes a piece, or fails with the state it is left in. -/
def Sink (τ : Type) : Type := τ → List UInt8 → Except (Failure × τ) τ

structure RecvState (σ τ : Type) where
  reader : σ
  input : List UInt8
  sink : τ

section Loop

variable {σ τ : Type}

/-- Act on a token that has been read. -/
def recvDelivered (sink : Sink τ) (st : RecvState σ τ) :
    Except Failure Delivery → Except (Failure × τ) (RecvState σ τ ⊕ RecvState σ τ)
  | .ok .finish => .ok (.inr st)
  | .ok .skip => .ok (.inl st)
  | .ok (.piece bytes) =>
    match sink st.sink bytes with
    | .ok s => .ok (.inl { st with sink := s })
    | .error e => .error e
  | .error e => .error (e, st.sink)

/-- One iteration of the token loop. -/
def recvStep (R : TokenReader σ) (sink : Sink τ) (basis : List UInt8) (blength : Nat)
    (st : RecvState σ τ) : Except (Failure × τ) (RecvState σ τ ⊕ RecvState σ τ) :=
  match R.readToken st.reader st.input with
  | .error e => .error (e, st.sink)
  | .ok ((t, reader), rest) =>
    recvDelivered sink ⟨reader, rest, st.sink⟩ (deliver basis blength t)

/-- The token loop up to and including the end-of-file token. -/
def recvTokens (R : TokenReader σ) (sink : Sink τ) (basis : List UInt8) (blength : Nat)
    (st : RecvState σ τ) : Except (Failure × τ) (RecvState σ τ) :=
  Loop.loop (.fault .diverged, st.sink) (recvStep R sink basis blength)
    (R.bound st.reader st.input + 1) st

end Loop

/-! ## The two receive functions -/

def hexEncode (bytes : List UInt8) : String :=
  String.ofList (bytes.flatMap fun b => [Nat.digitChar (b.toNat / 16), Nat.digitChar (b.toNat % 16)])

def checksumMismatch (received computed : List UInt8) : Failure :=
  .protocol (.checksumMismatch (hexEncode received) (hexEncode computed))

/-- Read the sender's checksum and compare it with the receiver's. -/
def verifyChecksum (digestLen : Nat) (computed : List UInt8) : Wire Unit := do
  let received ← readExact unexpectedEof digestLen
  if received ≠ computed then Reader.fail (checksumMismatch received computed) else pure ()

/-- The sink of `recv_file_delta_with`: `output.extend_from_slice`. -/
def bufferSink : Sink (List UInt8) := fun output bytes => .ok (output ++ bytes)

def recvFileDeltaWith {σ : Type} (X : Externals) (R : TokenReader σ) (reader : σ)
    (basis : List UInt8) (blength : Nat) (ctx : ProtocolContext) : Wire (List UInt8) :=
  fun input =>
    match recvTokens R bufferSink basis blength ⟨reader, input, []⟩ with
    | .error (e, _) => .error e
    | .ok st =>
      (do verifyChecksum ctx.checksumType.digestLen (fileChecksum X st.sink ctx)
          pure st.sink : Wire (List UInt8)) st.input

/-- `std::io::Write::write_all`: all of the bytes, or an error with the writer it leaves. -/
def WriteAll (ω : Type) : Type := ω → List UInt8 → Except (IoKind × ω) ω

/-- The locals of `recv_file_delta_to_writer_with`. -/
structure WriterSink (ω : Type) where
  hasher : IncrementalChecksum
  writer : ω
  bytesWritten : Nat

/-- Hash a piece, then write it. -/
def writerSink {ω : Type} (writeAll : WriteAll ω) : Sink (WriterSink ω) := fun s bytes =>
  let s := { s with hasher := s.hasher.update bytes }
  match writeAll s.writer bytes with
  | .ok w => .ok { s with writer := w, bytesWritten := s.bytesWritten + bytes.length }
  | .error (kind, w) => .error (.protocol (.io kind), { s with writer := w })

/-- `recv_file_delta_to_writer_with`: the number of bytes written, the writer and the unread
rest of the stream; on failure the error and the writer. -/
def recvFileDeltaToWriterWith {σ ω : Type} (X : Externals) (R : TokenReader σ) (reader : σ)
    (basis : List UInt8) (blength : Nat) (ctx : ProtocolContext) (writeAll : WriteAll ω)
    (writer : ω) (input : List UInt8) :
    Except (Failure × ω) ((Nat × ω) × List UInt8) :=
  match recvTokens R (writerSink writeAll) basis blength
      ⟨reader, input, ⟨.new ctx.checksumType, writer, 0⟩⟩ with
  | .error (e, s) => .error (e, s.writer)
  | .ok st =>
    match verifyChecksum ctx.checksumType.digestLen (st.sink.hasher.finalize X) st.input with
    | .error e => .error (e, st.sink.writer)
    | .ok ((), rest) => .ok ((st.sink.bytesWritten, st.sink.writer), rest)

/-! ## The loop on a well-formed stream -/

theorem reads_verifyChecksum {computed : List UInt8} {n : Nat} (h : computed.length = n) :
    Reads (verifyChecksum n computed) computed () := by
  refine (Reads.exact_of_length h).bind_nil ?_
  rw [if_neg (by simp)]
  exact Reads.pure ()

/-- The plain reader on the encoding of a token. -/
theorem plainTokenReader_read {t : Token} (h : t.Sendable) (rest : List UInt8) :
    plainTokenReader.readToken () (encodeToken t ++ rest) = .ok ((t, ()), rest) :=
  bind_ok (reads_token h rest)

/-- From a stream the reader gets these tokens, and then the end of the file. -/
inductive TokenReader.Gives {σ : Type} (R : TokenReader σ) :
    σ → List UInt8 → List Token → List UInt8 → Prop
  | eof {s s' bs rest} (hread : R.readToken s bs = .ok ((.endOfFile, s'), rest)) :
      Gives R s bs [] rest
  | token {s s' bs mid rest t ts} (hread : R.readToken s bs = .ok ((t, s'), mid))
      (hne : t ≠ .endOfFile) (later : Gives R s' mid ts rest) : Gives R s bs (t :: ts) rest

/-- The tokens of a well-formed plain stream. -/
theorem gives_plain (rest : List UInt8) {ts : List Token}
    (h : ∀ t ∈ ts, t.Sendable ∧ t ≠ .endOfFile) :
    plainTokenReader.Gives () (ts.flatMap encodeToken ++ (encodeToken .endOfFile ++ rest)) ts
      rest := by
  induction ts with
  | nil =>
    have hread := plainTokenReader_read (t := .endOfFile) trivial rest
    simpa using .eof hread
  | cons t ts ih =>
    obtain ⟨hsend, hne⟩ := h t List.mem_cons_self
    rw [List.flatMap_cons, List.append_assoc]
    refine .token (plainTokenReader_read hsend _) hne (ih ?_)
    intro u hu
    exact h u (List.mem_cons_of_mem t hu)

section Run

variable {σ τ : Type} {R : TokenReader σ} {sink : Sink τ} {basis : List UInt8} {blength : Nat}

/-- The loop over the tokens of a stream, in front of a sink that takes every piece. -/
theorem TokenReader.Gives.loop {s : σ} {bs rest : List UInt8} {ts : List Token}
    (h : R.Gives s bs ts rest) (put : τ → List UInt8 → τ) (value : Token → List UInt8)
    (hsink : ∀ x p, sink x p = .ok (put x p))
    (hpiece : ∀ t ∈ ts, deliver basis blength t = .ok (.piece (value t)))
    (diverged : Failure × τ) :
    ∀ (n : Nat) (x : τ), R.bound s bs < n → ∃ s',
      Loop.loop diverged (recvStep R sink basis blength) n ⟨s, bs, x⟩ =
        .ok ⟨s', rest, (ts.map value).foldl put x⟩ := by
  induction h with
  | @eof s s' bs rest hread =>
    rintro (_ | n) x hn
    · exact absurd hn (Nat.not_lt_zero _)
    · have hstep : recvStep R sink basis blength ⟨s, bs, x⟩ = .ok (.inr ⟨s', rest, x⟩) := by
        simp only [recvStep, hread, deliver, recvDelivered]
      exact ⟨s', Loop.loop_inr hstep⟩
  | token hread hne _ ih =>
    rintro (_ | n) x hn
    · exact absurd hn (Nat.not_lt_zero _)
    -- every token takes something from the bound, so that the fuel is enough
    · have hlt := R.bound_lt hread hne
      have hfirst := hpiece _ List.mem_cons_self
      obtain ⟨s', hloop⟩ := ih (fun t ht => hpiece t (List.mem_cons_of_mem _ ht)) n (put x _)
        (by omega)
      refine ⟨s', ?_⟩
      rw [List.map_cons, List.foldl_cons, ← hloop]
      refine Loop.loop_inl ?_
      simp only [recvStep, hread, hfirst, recvDelivered, hsink]

theorem TokenReader.Gives.recvTokens {s : σ} {bs rest : List UInt8} {ts : List Token}
    (h : R.Gives s bs ts rest) (sink : Sink τ) (put : τ → List UInt8 → τ) (value : Token → List UInt8)
    (hsink : ∀ x p, sink x p = .ok (put x p))
    (hpiece : ∀ t ∈ ts, deliver basis blength t = .ok (.piece (value t))) (x : τ) :
    ∃ s', Ferrosync.recvTokens R sink basis blength ⟨s, bs, x⟩ =
      .ok ⟨s', rest, (ts.map value).foldl put x⟩ :=
  h.loop put value hsink hpiece _ _ x (Nat.lt_succ_self _)

end Run

/-- **The token loop decodes a well-formed stream.** -/
theorem recvTokens_plain {basis : List UInt8} {blength : Nat} (value : Token → List UInt8)
    {ts : List Token} (rest : List UInt8)
    (h : ∀ t ∈ ts, t.Sendable ∧ deliver basis blength t = .ok (.piece (value t))) :
    recvTokens plainTokenReader bufferSink basis blength
        ⟨(), ts.flatMap encodeToken ++ (encodeToken .endOfFile ++ rest), []⟩ =
      .ok ⟨(), rest, ts.flatMap value⟩ := by
  have hne : ∀ t ∈ ts, t.Sendable ∧ t ≠ .endOfFile := by
    intro t ht
    refine ⟨(h t ht).1, ?_⟩
    rintro rfl
    cases (h _ ht).2
  obtain ⟨⟨⟩, hrun⟩ := (gives_plain rest hne).recvTokens bufferSink (· ++ ·) value
    (fun _ _ => rfl) (fun t ht => (h t ht).2) []
  rw [hrun, List.foldl_append_eq_append, List.nil_append, List.flatMap_def, List.map_id']

end Ferrosync
