import Ferrosync.Engine.ReceiveFile
import Ferrosync.Fs.BufWriter

set_option autoImplicit false

/-! # Receiving in place

With `--inplace` the receiver truncates the destination and writes the new content to it. The
basis is the same file: `map_file` reads a small one into memory, but maps one of
`MMAP_THRESHOLD` bytes and more, and a mapping shows the file as it is at the moment of the read.
A read behind the end of the file kills the process.

`inplace_receive_iff` says which deltas survive this: every block they refer to must already have
been written again, unchanged, and must have left the writer's buffer.
-/

namespace Ferrosync

open ByteStream

/-! ## The mapped basis -/

def mmapThreshold : Nat := 32 * 1024

/-- The bytes of the basis that a block reference stands for, as positions. -/
def blockSpan (basis : List UInt8) (blength : Nat) (index : Int) : Nat × Nat :=
  let offset := asUsize index * blength
  (offset, min (offset + blockByteLength (asUsize index) blength (recvBlockCount basis blength)
    (recvRemainder basis blength)) basis.length)

/-- A block reference through the mapping of a file whose content was `prior` when it was mapped
and is `file` now. The mapping keeps its length; a read behind the end of the file is a bus
error. -/
def liveBlock (prior file : List UInt8) (blength : Nat) (index : Int) :
    Except Failure (Option (List UInt8)) :=
  let idx := asUsize index
  let count := recvBlockCount prior blength
  if idx ≥ count then .error (outOfRange "block_index" index (count - 1 : Nat))
  else if idx * blength ≥ 2 ^ 64 then .error (outOfRange "block_offset" index (2 ^ 63 - 1))
  else if idx * blength < prior.length then
    let span := blockSpan prior blength index
    if span.2 ≤ file.length then
      .ok (some (slice file span.1 span.2))
    else .error (.fault .panic)
  else .ok none

def liveDeliver (prior file : List UInt8) (blength : Nat) :
    Token → Except Failure Delivery
  | .data bytes => .ok (.piece bytes)
  | .blockMatch index =>
    match liveBlock prior file blength index with
    | .ok (some bytes) => .ok (.piece bytes)
    | .ok none => .ok .skip
    | .error e => .error e
  | .endOfFile => .ok .finish

/-! ## The receive -/

section Receive

variable {σ : Type}

/-- One iteration of the token loop, with the mapping as the basis. -/
def liveStep (R : TokenReader σ) (prior : List UInt8) (blength : Nat)
    (st : RecvState σ (WriterSink BufWriter)) :
    Except (Failure × WriterSink BufWriter)
      (RecvState σ (WriterSink BufWriter) ⊕ RecvState σ (WriterSink BufWriter)) :=
  match R.readToken st.reader st.input with
  | .error e => .error (e, st.sink)
  | .ok ((t, reader), rest) =>
    recvDelivered (writerSink BufWriter.sinkAll) ⟨reader, rest, st.sink⟩
      (liveDeliver prior st.sink.writer.file blength t)

/-- `recv_file_delta_to_writer_with` on a mapped basis. -/
def recvLive (X : Externals) (R : TokenReader σ) (reader : σ)
    (prior : List UInt8) (blength : Nat) (ctx : ProtocolContext) (w : BufWriter)
    (input : List UInt8) :
    Except (Failure × BufWriter) ((Nat × BufWriter) × List UInt8) :=
  match Loop.loop (.fault .diverged, ⟨.new ctx.checksumType, w, 0⟩) (liveStep R prior blength)
      (R.bound reader input + 1) ⟨reader, input, ⟨.new ctx.checksumType, w, 0⟩⟩ with
  | .error (e, s) => .error (e, s.writer)
  | .ok st =>
    match verifyChecksum ctx.checksumType.digestLen (st.sink.hasher.finalize X) st.input with
    | .error e => .error (e, st.sink.writer)
    | .ok ((), rest) => .ok ((st.sink.bytesWritten, st.sink.writer), rest)

/-- What the destination holds when the writer is gone. A process that is killed does not drop
its writer, so the buffer is lost. -/
def leftBehind : Except (Failure × BufWriter) ((Nat × BufWriter) × List UInt8) → List UInt8
  | .error (.fault _, w) => w.file
  | .error (_, w) => w.content
  | .ok ((_, w), _) => w.content

/-- What the transfer arm works with under `--inplace`. -/
structure InPlaceReceive (σ : Type) where
  wire : WireFormat
  ndxState : NdxState
  tokens : TokenReader σ
  tokensStart : Except Failure σ
  blength : Nat
  ctx : ProtocolContext

/-- The transfer arm: the content of the destination, which was `prior`, after it. -/
def InPlaceReceive.receive (X : Externals) (r : InPlaceReceive σ) (prior input : List UInt8) :
    List UInt8 :=
  match readResponseHeader r.wire r.ndxState input with
  | .error _ => prior
  | .ok (h, rest) =>
    -- `write_file_inplace_stream` truncates the file
    match r.tokensStart with
    | .error _ => []
    | .ok s =>
      if prior.length < mmapThreshold then
        leftBehind (recvFileDeltaToWriterWith X r.tokens s prior (h.blength r.blength) r.ctx
          BufWriter.sinkAll ⟨[], []⟩ rest)
      else
        leftBehind (recvLive X r.tokens s prior (h.blength r.blength) r.ctx ⟨[], []⟩ rest)

end Receive

/-! ## Deltas that survive -/

/-- The bytes that a token stands for over the basis as it was. -/
def tokenPiece (prior : List UInt8) (blength : Nat) : Token → List UInt8
  | .data bytes => bytes
  | .blockMatch index =>
    slice prior (blockSpan prior blength index).1 (blockSpan prior blength index).2
  | .endOfFile => []

/-- A delta over the basis: every token stands for a piece, so that no reference is out of range. -/
def Refers (prior : List UInt8) (blength : Nat) (ts : List Token) : Prop :=
  ∀ t ∈ ts, deliver prior blength t = .ok (.piece (tokenPiece prior blength t))

/-- The writer after the pieces of these tokens. -/
def writtenAfter (prior : List UInt8) (blength : Nat) (ts : List Token) : BufWriter :=
  BufWriter.writePieces ⟨[], []⟩ (ts.map (tokenPiece prior blength))

/-- A reference that is read as it was meant: the block lies in the part of the new content
that has reached the file, and the old bytes are there already. -/
def ReadsBack (prior source : List UInt8) (blength : Nat) (before : List Token)
    (index : Int) : Prop :=
  let reached := source.take (writtenAfter prior blength before).file.length
  let span := blockSpan prior blength index
  span.2 ≤ reached.length ∧ slice reached span.1 span.2 = slice prior span.1 span.2

/-- Every reference of the delta is read as it was meant, although the file that it is read from is
the one being written: what the tokens before it have written does not reach it or is the same. -/
def Undisturbed (prior source : List UInt8) (blength : Nat) (ts : List Token) :
    Prop :=
  ∀ before index later, ts = before ++ .blockMatch index :: later →
    ReadsBack prior source blength before index

section Blocks

variable {prior : List UInt8} {blength : Nat} {index : Int}

/-- A reference that stands for a piece is in range. -/
theorem blockPiece_inv {p : List UInt8} (h : blockPiece prior blength index = .ok (some p)) :
    asUsize index < recvBlockCount prior blength ∧ asUsize index * blength < 2 ^ 64 ∧
      asUsize index * blength < prior.length ∧
      p = slice prior (blockSpan prior blength index).1 (blockSpan prior blength index).2 := by
  unfold blockPiece at h
  dsimp only at h
  split_ifs at h with hidx hoff hlt
  · exact ⟨not_le.mp hidx, not_le.mp hoff, hlt, (Option.some.inj (Except.ok.inj h)).symm⟩
  · cases h

theorem blockSpan_lt (h : asUsize index < recvBlockCount prior blength)
    (hlt : asUsize index * blength < prior.length) :
    (blockSpan prior blength index).1 < (blockSpan prior blength index).2 ∧
      (blockSpan prior blength index).2 ≤ prior.length := by
  have hpos : 0 < blength := by
    by_contra hzero
    rw [recvBlockCount, if_neg (by omega)] at h
    omega
  have hlen : 0 < blockByteLength (asUsize index) blength (recvBlockCount prior blength)
      (recvRemainder prior blength) := by
    unfold blockByteLength
    split_ifs <;> omega
  unfold blockSpan
  dsimp only
  omega

theorem liveBlock_eq {p : List UInt8} (h : blockPiece prior blength index = .ok (some p))
    (file : List UInt8) :
    liveBlock prior file blength index =
      if (blockSpan prior blength index).2 ≤ file.length then
        .ok (some (slice file (blockSpan prior blength index).1
          (blockSpan prior blength index).2))
      else .error (.fault .panic) := by
  obtain ⟨hidx, hoff, hlt, -⟩ := blockPiece_inv h
  unfold liveBlock
  rw [if_neg (not_le.mpr hidx), if_neg (not_le.mpr hoff), if_pos hlt]

end Blocks

section Run

variable {σ : Type} {X : Externals} {R : TokenReader σ} {prior source : List UInt8}
  {blength : Nat} {type : ChecksumType}

/-- The locals of the receiver after these tokens, read as they were meant. -/
def sinkAfter (type : ChecksumType) (prior : List UInt8) (blength : Nat) (ts : List Token) :
    WriterSink BufWriter :=
  ⟨⟨type, ts.flatMap (tokenPiece prior blength)⟩, writtenAfter prior blength ts,
    (ts.flatMap (tokenPiece prior blength)).length⟩

theorem sinkAfter_snoc (ts : List Token) (t : Token) :
    sinkAfter type prior blength (ts ++ [t]) =
      (sinkAfter type prior blength ts).take (tokenPiece prior blength t) := by
  simp [sinkAfter, WriterSink.take, writtenAfter, BufWriter.writePieces, IncrementalChecksum.update]

theorem writtenAfter_fits (ts : List Token) : (writtenAfter prior blength ts).Fits :=
  BufWriter.Fits.writePieces (Nat.zero_le _) _

theorem content_writtenAfter (ts : List Token) :
    (writtenAfter prior blength ts).content = ts.flatMap (tokenPiece prior blength) := by
  rw [writtenAfter, BufWriter.content_writePieces (Nat.zero_le _)]
  rfl

/-- What has reached the file is the beginning of the new content. -/
theorem file_eq_take {before ts : List Token}
    (hsource : (before ++ ts).flatMap (tokenPiece prior blength) = source) :
    (writtenAfter prior blength before).file =
      source.take (writtenAfter prior blength before).file.length := by
  have hcontent := @content_writtenAfter prior blength before
  rw [BufWriter.content] at hcontent
  rw [← hsource, List.flatMap_append, ← hcontent, List.append_assoc,
    List.take_append_of_le_length le_rfl, List.take_length]

/-- A token that is read as it was meant. -/
def Good (prior source : List UInt8) (blength : Nat) (before : List Token)
    (t : Token) : Prop :=
  ∀ index, t = .blockMatch index → ReadsBack prior source blength before index

/-- A reference that stands for a piece has passed the checks of `block_data`. -/
theorem blockPiece_of_deliver {index : Int} {p : List UInt8}
    (h : deliver prior blength (.blockMatch index) = .ok (.piece p)) :
    blockPiece prior blength index = .ok (some p) := by
  simp only [deliver] at h
  split at h
  · next hp => rw [hp, Delivery.piece.inj (Except.ok.inj h)]
  · cases h
  · cases h

theorem tokenPiece_pos {index : Int}
    (h : deliver prior blength (.blockMatch index) =
      .ok (.piece (tokenPiece prior blength (.blockMatch index)))) :
    0 < (tokenPiece prior blength (.blockMatch index)).length := by
  obtain ⟨hidx, -, hlt, -⟩ := blockPiece_inv (blockPiece_of_deliver h)
  obtain ⟨hspan, hend⟩ := blockSpan_lt hidx hlt
  rw [tokenPiece, slice_length hend]
  omega

theorem liveStep_good {s s' : σ} {bs mid : List UInt8} {before ts : List Token} {t : Token}
    (hread : R.readToken s bs = .ok ((t, s'), mid))
    (hpiece : deliver prior blength t = .ok (.piece (tokenPiece prior blength t)))
    (hsource : (before ++ ts).flatMap (tokenPiece prior blength) = source)
    (hgood : Good prior source blength before t) :
    liveStep R prior blength ⟨s, bs, sinkAfter type prior blength before⟩ =
      .ok (.inl ⟨s', mid, sinkAfter type prior blength (before ++ [t])⟩) := by
  -- only a reference looks at the file; it finds there what it would find in the old one
  have hlive : liveDeliver prior (writtenAfter prior blength before).file blength t =
      .ok (.piece (tokenPiece prior blength t)) := by
    cases t with
    | data bytes => rfl
    | endOfFile => cases hpiece
    | blockMatch index =>
      obtain ⟨hreached, hsame⟩ := hgood index rfl
      rw [← file_eq_take hsource] at hreached hsame
      rw [liveDeliver, liveBlock_eq (blockPiece_of_deliver hpiece), if_pos hreached, hsame]
      rfl
  rw [sinkAfter_snoc]
  simp only [liveStep, hread]
  show recvDelivered _ _
    (liveDeliver prior (writtenAfter prior blength before).file blength t) = _
  rw [hlive]
  rfl

theorem liveStep_eof {s s' : σ} {bs rest : List UInt8} {x : WriterSink BufWriter}
    (hread : R.readToken s bs = .ok ((.endOfFile, s'), rest)) :
    liveStep R prior blength ⟨s, bs, x⟩ = .ok (.inr ⟨s', rest, x⟩) := by
  simp only [liveStep, hread, liveDeliver, recvDelivered]

/-- The loop over a delta whose references are all read as they were meant. -/
theorem loop_undisturbed {diverged : Failure × WriterSink BufWriter} {s : σ}
    {bs rest : List UInt8} {ts : List Token} (h : R.Gives s bs ts rest) :
    ∀ (before : List Token) (n : Nat), Refers prior blength ts →
      (before ++ ts).flatMap (tokenPiece prior blength) = source →
      (∀ pre t post, ts = pre ++ t :: post → Good prior source blength (before ++ pre) t) →
      R.bound s bs < n → ∃ s',
        Loop.loop diverged (liveStep R prior blength) n
            ⟨s, bs, sinkAfter type prior blength before⟩ =
          .ok ⟨s', rest, sinkAfter type prior blength (before ++ ts)⟩ := by
  induction h with
  | @eof s s' bs rest hread =>
    rintro before (_ | n) hrefers hsource hgood hn
    · exact absurd hn (Nat.not_lt_zero _)
    · simpa using ⟨s', Loop.loop_inr (liveStep_eof hread)⟩
  | @token s s' bs mid rest t ts hread hne _ ih =>
    rintro before (_ | n) hrefers hsource hgood hn
    · exact absurd hn (Nat.not_lt_zero _)
    -- the token is delivered, and joins those `before` that made the file what it is
    · have hlt := R.bound_lt hread hne
      have hfirst := hgood [] t ts rfl
      rw [List.append_nil] at hfirst
      have hstep := @liveStep_good _ R prior source blength type _ _ _ _ _ _ _ hread
        (hrefers t List.mem_cons_self) hsource hfirst
      have hsource' : (before ++ [t] ++ ts).flatMap (tokenPiece prior blength) = source := by
        simpa using hsource
      have hgood' : ∀ pre u post, ts = pre ++ u :: post →
          Good prior source blength (before ++ [t] ++ pre) u := by
        intro pre u post hsplit
        rw [List.append_assoc]
        exact hgood (t :: pre) u post (by rw [hsplit]; rfl)
      obtain ⟨s'', hloop⟩ := ih (before ++ [t]) n
        (fun u hu => hrefers u (List.mem_cons_of_mem t hu)) hsource' hgood' (by omega)
      refine ⟨s'', ?_⟩
      simp [Loop.loop_inl hstep, hloop]

/-! ### A reference that is misread -/

/-- Neither the file nor what the dropped writer would leave is the new content. -/
def Off (source : List UInt8) (w : BufWriter) : Prop := w.content ≠ source ∧ w.file ≠ source

theorem file_isPrefix_content (w : BufWriter) : w.file <+: w.content :=
  List.prefix_append _ _

theorem off_of_short {w : BufWriter} (h : w.content.length < source.length) : Off source w := by
  have hfile := (file_isPrefix_content w).length_le
  constructor
  · rintro rfl
    exact lt_irrefl _ h
  · rintro rfl
    omega

/-- A writer that has taken bytes which the new content does not start with. -/
def Astray (source : List UInt8) (w : BufWriter) : Prop :=
  w.Fits ∧ ∃ bad, bad <+: w.content ∧ bad.length ≤ source.length ∧ ¬ bad <+: source

theorem Astray.writeAll {w : BufWriter} (h : Astray source w) (p : List UInt8) :
    Astray source (w.writeAll p) := by
  obtain ⟨hfits, bad, hbad, hlen, hnot⟩ := h
  refine ⟨hfits.writeAll p, bad, ?_, hlen, hnot⟩
  rw [BufWriter.content_writeAll hfits]
  exact hbad.trans (List.prefix_append _ _)

theorem Astray.off {w : BufWriter} (h : Astray source w) : Off source w := by
  obtain ⟨-, bad, hbad, hlen, hnot⟩ := h
  constructor
  · rintro rfl
    exact hnot hbad
  · rintro rfl
    exact hnot (List.prefix_of_prefix_length_le hbad (file_isPrefix_content w) hlen)

/-- A step leaves the writer alone or hands it one piece. -/
def Keeps (x : WriterSink BufWriter) :
    Except (Failure × WriterSink BufWriter)
      (RecvState σ (WriterSink BufWriter) ⊕ RecvState σ (WriterSink BufWriter)) → Prop
  | .error e => e.2 = x
  | .ok (.inr st) => st.sink = x
  | .ok (.inl st) => st.sink = x ∨ ∃ p, st.sink = x.take p

theorem liveStep_keeps (st : RecvState σ (WriterSink BufWriter)) :
    Keeps st.sink (liveStep R prior blength st) := by
  unfold liveStep
  split
  · exact rfl
  · next t s bs _ =>
      cases liveDeliver prior st.sink.writer.file blength t with
      | error e => exact rfl
      | ok d =>
        cases d with
        | finish => exact rfl
        | skip => exact .inl rfl
        | piece p => exact .inr ⟨p, rfl⟩

/-- Whichever way a loop ends, its writer has the property. -/
def EndsWith (P : BufWriter → Prop) :
    Except (Failure × WriterSink BufWriter) (RecvState σ (WriterSink BufWriter)) → Prop
  | .ok st => P st.sink.writer
  | .error e => P e.2.writer

/-- Bytes that have gone astray are never put right. -/
theorem loop_astray {diverged : Failure × WriterSink BufWriter}
    (hdiverged : Off source diverged.2.writer) (n : Nat)
    {st : RecvState σ (WriterSink BufWriter)} (h : Astray source st.sink.writer) :
    EndsWith (Off source) (Loop.loop diverged (liveStep R prior blength) n st) := by
  induction n generalizing st with
  | zero => exact hdiverged
  | succ n ih =>
    have hkeeps := @liveStep_keeps σ R prior blength st
    -- a step ends with what is written, or writes more behind it
    match hstep : liveStep R prior blength st with
    | .error e =>
      rw [hstep] at hkeeps
      rw [Loop.loop_error hstep]
      show Off source e.2.writer
      rw [show e.2 = st.sink from hkeeps]
      exact h.off
    | .ok (.inr a) =>
      rw [hstep] at hkeeps
      rw [Loop.loop_inr hstep]
      show Off source a.sink.writer
      rw [show a.sink = st.sink from hkeeps]
      exact h.off
    | .ok (.inl a) =>
      rw [hstep] at hkeeps
      rw [Loop.loop_inl hstep]
      apply ih
      obtain hsame | ⟨p, hp⟩ := hkeeps
      · rw [hsame]
        exact h
      · rw [hp]
        exact h.writeAll p

theorem astray_of_ne {before ts : List Token} {t : Token} {p : List UInt8}
    (hsource : (before ++ t :: ts).flatMap (tokenPiece prior blength) = source)
    (hne : p ≠ tokenPiece prior blength t)
    (hlen : p.length = (tokenPiece prior blength t).length) :
    Astray source ((writtenAfter prior blength before).writeAll p) := by
  rw [List.flatMap_append] at hsource
  refine ⟨(writtenAfter_fits before).writeAll p,
    before.flatMap (tokenPiece prior blength) ++ p, ?_, ?_, ?_⟩
  · rw [BufWriter.content_writeAll (writtenAfter_fits before), content_writtenAfter]
  · simp [← hsource]
    omega
  · rintro ⟨rest, hrest⟩
    rw [← hsource, List.append_assoc] at hrest
    exact hne (List.append_inj (List.append_cancel_left hrest) hlen).1

/-- What a step does with the first reference that is misread: the process dies on it, or a piece
that is not the new content goes to the writer. -/
theorem liveStep_bad {s s' : σ} {bs mid : List UInt8} {before ts : List Token} {t : Token}
    (hread : R.readToken s bs = .ok ((t, s'), mid))
    (hpiece : deliver prior blength t = .ok (.piece (tokenPiece prior blength t)))
    (hsource : (before ++ t :: ts).flatMap (tokenPiece prior blength) = source)
    (hbad : ¬ Good prior source blength before t) :
    (Off source (writtenAfter prior blength before) ∧
        ∃ e, liveStep R prior blength ⟨s, bs, sinkAfter type prior blength before⟩ =
          .error (e, sinkAfter type prior blength before)) ∨
      ∃ x : WriterSink BufWriter, Astray source x.writer ∧
        liveStep R prior blength ⟨s, bs, sinkAfter type prior blength before⟩ =
          .ok (.inl ⟨s', mid, x⟩) := by
  unfold Good at hbad
  push Not at hbad
  obtain ⟨index, rfl, hreads⟩ := hbad
  have hblock := blockPiece_of_deliver hpiece
  obtain ⟨hidx, -, hlt, -⟩ := blockPiece_inv hblock
  obtain ⟨hspan, hend⟩ := blockSpan_lt hidx hlt
  unfold ReadsBack at hreads
  rw [← file_eq_take hsource] at hreads
  -- the span lies within the file as it is, and holds other bytes; or it reaches beyond its end
  by_cases hmapped : (blockSpan prior blength index).2 ≤
      (writtenAfter prior blength before).file.length
  · right
    have hne := not_and.mp hreads hmapped
    refine ⟨(sinkAfter type prior blength before).take
      (slice (writtenAfter prior blength before).file
        (blockSpan prior blength index).1 (blockSpan prior blength index).2), ?_, ?_⟩
    · apply astray_of_ne hsource hne
      rw [slice_length hmapped]
      exact (slice_length hend).symm
    · simp only [liveStep, hread]
      show recvDelivered _ _ (liveDeliver prior (writtenAfter prior blength before).file
        blength (.blockMatch index)) = _
      rw [liveDeliver, liveBlock_eq hblock, if_pos hmapped]
      rfl
  · left
    refine ⟨off_of_short ?_, .fault .panic, ?_⟩
    · have hpos := tokenPiece_pos hpiece
      simp [content_writtenAfter, ← hsource]
      omega
    · simp only [liveStep, hread]
      show recvDelivered _ _ (liveDeliver prior (writtenAfter prior blength before).file
        blength (.blockMatch index)) = _
      rw [liveDeliver, liveBlock_eq hblock, if_neg hmapped]
      rfl

/-- The loop over a delta with a reference that is misread. -/
theorem loop_disturbed {diverged : Failure × WriterSink BufWriter}
    (hdiverged : Off source diverged.2.writer) {s : σ} {bs rest : List UInt8} {ts : List Token}
    (h : R.Gives s bs ts rest) :
    ∀ (before : List Token) (n : Nat), Refers prior blength ts →
      (before ++ ts).flatMap (tokenPiece prior blength) = source →
      (∃ pre t post, ts = pre ++ t :: post ∧ ¬ Good prior source blength (before ++ pre) t) →
      EndsWith (Off source) (Loop.loop diverged (liveStep R prior blength) n
        ⟨s, bs, sinkAfter type prior blength before⟩) := by
  induction h with
  | eof =>
    rintro before n hrefers hsource ⟨pre, t, post, hsplit, -⟩
    exact absurd hsplit (by simp)
  | @token s s' bs mid rest t ts hread hne _ ih =>
    rintro before (_ | n) hrefers hsource hbad
    · exact hdiverged
    have hpiece := hrefers t List.mem_cons_self
    by_cases hgood : Good prior source blength before t
    · -- the misread one comes later
      have hstep := @liveStep_good _ R prior source blength type _ _ _ _ _ _ _ hread
        hpiece hsource hgood
      rw [Loop.loop_inl hstep]
      apply ih (before ++ [t]) n (fun u hu => hrefers u (List.mem_cons_of_mem t hu))
      · simpa using hsource
      · obtain ⟨pre, u, post, hsplit, hu⟩ := hbad
        cases pre with
        | nil =>
          obtain ⟨rfl, -⟩ := List.cons.inj hsplit
          rw [List.append_nil] at hu
          exact absurd hgood hu
        | cons t' pre =>
          obtain ⟨rfl, hrest⟩ := List.cons.inj hsplit
          refine ⟨pre, u, post, hrest, ?_⟩
          simpa using hu
    · obtain ⟨hoff, e, hstep⟩ | ⟨x, hx, hstep⟩ :=
        @liveStep_bad _ R prior source blength type _ _ _ _ _ _ _ hread hpiece hsource hgood
      · rw [Loop.loop_error hstep]
        exact hoff
      · rw [Loop.loop_inl hstep]
        exact loop_astray hdiverged n hx

end Run

/-! ## The whole receive -/

section Whole

variable {σ : Type} {X : Externals} {r : InPlaceReceive σ} {prior source : List UInt8}
  {blength : Nat} {s : σ} {body rest : List UInt8} {ts : List Token}

/-- The locals at the start of `recv_file_delta_to_writer_with`. -/
theorem sinkAfter_nil (type : ChecksumType) :
    sinkAfter type prior blength [] = ⟨.new type, ⟨[], []⟩, 0⟩ := rfl

/-- References through a mapping, all read as they were meant. -/
theorem recvLive_undisturbed
    (hgives : r.tokens.Gives s body ts (fileDigest X r.ctx.checksumType source ++ rest))
    (hrefers : Refers prior blength ts)
    (hsource : ts.flatMap (tokenPiece prior blength) = source)
    (h : Undisturbed prior source blength ts) :
    leftBehind (recvLive X r.tokens s prior blength r.ctx ⟨[], []⟩ body) = source := by
  have hgood : ∀ pre t post, ts = pre ++ t :: post →
      Good prior source blength ([] ++ pre) t := by
    rintro pre t post hsplit index rfl
    exact h pre index post hsplit
  have hloop := fun diverged => @loop_undisturbed _ _ _ _ _ r.ctx.checksumType diverged _ _ _ _
    hgives [] (r.tokens.bound s body + 1) hrefers hsource hgood (Nat.lt_succ_self _)
  rw [recvLive, ← @sinkAfter_nil prior blength]
  obtain ⟨s', hloop⟩ := hloop (.fault .diverged, sinkAfter r.ctx.checksumType prior blength [])
  rw [hloop]
  have hsum := reads_verifyChecksum (fileDigest_length X r.ctx.checksumType source) rest
  simp only [sinkAfter, List.nil_append, hsource, IncrementalChecksum.finalize, hsum, leftBehind]
  rw [content_writtenAfter, hsource]

theorem leftBehind_ne {w : BufWriter} (h : Off source w) (e : Failure) :
    leftBehind (.error (e, w)) ≠ source := by
  cases e with
  | fault f => exact h.2
  | protocol | fs => exact h.1

/-- References through a mapping, one of them misread. -/
theorem recvLive_disturbed
    (hgives : r.tokens.Gives s body ts (fileDigest X r.ctx.checksumType source ++ rest))
    (hrefers : Refers prior blength ts)
    (hsource : ts.flatMap (tokenPiece prior blength) = source)
    (h : ¬ Undisturbed prior source blength ts) :
    leftBehind (recvLive X r.tokens s prior blength r.ctx ⟨[], []⟩ body) ≠ source := by
  unfold Undisturbed at h
  push Not at h
  obtain ⟨pre, index, post, hsplit, hreads⟩ := h
  have hbad : ¬ Good prior source blength ([] ++ pre) (.blockMatch index) :=
    fun hgood => hreads (hgood index rfl)
  -- the source is not empty, so that a run that stops early does not have it
  have hpos : 0 < source.length := by
    have hpiece := tokenPiece_pos (hrefers (.blockMatch index) (by simp [hsplit]))
    simp [← hsource, hsplit]
    omega
  have hloop := @loop_disturbed _ _ _ _ _ r.ctx.checksumType
    (.fault .diverged, sinkAfter r.ctx.checksumType prior blength []) (off_of_short hpos) _ _ _ _
    hgives [] (r.tokens.bound s body + 1) hrefers hsource ⟨pre, _, post, hsplit, hbad⟩
  rw [recvLive, ← @sinkAfter_nil prior blength]
  split
  · next e x hrun =>
      rw [hrun] at hloop
      exact leftBehind_ne hloop e
  · next st hrun =>
      rw [hrun] at hloop
      split
      · next e _ => exact leftBehind_ne hloop e
      · exact hloop.1

/-- **Receiving in place.** A delta that describes the new file over the old one is received as
the new file exactly when the basis was read into memory, or every reference finds the old bytes
in what has already been written. -/
theorem inplace_receive_iff {input : List UInt8} {h : ResponseHeader} (X : Externals)
    (r : InPlaceReceive σ) (hheader : readResponseHeader r.wire r.ndxState input = .ok (h, body))
    (hstart : r.tokensStart = .ok s)
    (hgives : r.tokens.Gives s body ts (fileDigest X r.ctx.checksumType source ++ rest))
    (hrefers : Refers prior (h.blength r.blength) ts)
    (hsource : ts.flatMap (tokenPiece prior (h.blength r.blength)) = source) :
    r.receive X prior input = source ↔
      prior.length < mmapThreshold ∨ Undisturbed prior source (h.blength r.blength) ts := by
  have hreceive : r.receive X prior input =
      if prior.length < mmapThreshold then
        leftBehind (recvFileDeltaToWriterWith X r.tokens s prior (h.blength r.blength) r.ctx
          BufWriter.sinkAll ⟨[], []⟩ body)
      else leftBehind (recvLive X r.tokens s prior (h.blength r.blength) r.ctx ⟨[], []⟩
        body) := by
    rw [InPlaceReceive.receive, hheader, hstart]
  rw [hreceive]
  -- a small basis was read before the file was opened for writing
  by_cases hsmall : prior.length < mmapThreshold
  · rw [if_pos hsmall]
    rw [← hsource] at hgives
    rw [hgives.recvToBufWriter (tokenPiece prior (h.blength r.blength)) hrefers ⟨[], []⟩]
    exact iff_of_true ((content_writtenAfter ts).trans hsource) (.inl hsmall)
  · rw [if_neg hsmall]
    by_cases hquiet : Undisturbed prior source (h.blength r.blength) ts
    · exact iff_of_true (recvLive_undisturbed hgives hrefers hsource hquiet) (.inr hquiet)
    · exact iff_of_false (recvLive_disturbed hgives hrefers hsource hquiet)
        (by simp [hsmall, hquiet])

/-- A delta that starts with a reference to a mapped basis leaves an empty file. -/
theorem receive_first_reference {input mid p : List UInt8} {h : ResponseHeader} {s' : σ}
    {index : Int} (hheader : readResponseHeader r.wire r.ndxState input = .ok (h, body))
    (hstart : r.tokensStart = .ok s)
    (hread : r.tokens.readToken s body = .ok ((.blockMatch index, s'), mid))
    (hblock : blockPiece prior (h.blength r.blength) index = .ok (some p))
    (hlarge : mmapThreshold ≤ prior.length) : r.receive X prior input = [] := by
  obtain ⟨hidx, -, hlt, -⟩ := blockPiece_inv hblock
  obtain ⟨hspan, -⟩ := blockSpan_lt hidx hlt
  have hstep : liveStep r.tokens prior (h.blength r.blength)
      ⟨s, body, ⟨.new r.ctx.checksumType, ⟨[], []⟩, 0⟩⟩ =
      .error (.fault .panic, ⟨.new r.ctx.checksumType, ⟨[], []⟩, 0⟩) := by
    simp only [liveStep, hread, liveDeliver, liveBlock_eq hblock]
    rw [if_neg (by simp only [List.length_nil]; omega)]
    rfl
  rw [InPlaceReceive.receive, hheader, hstart]
  dsimp only
  rw [if_neg (not_lt.mpr hlarge), recvLive, Loop.loop_error hstep]
  rfl

end Whole

/-! ## An unchanged file -/

theorem blockPiece_whole {file : List UInt8} (h : file ≠ []) :
    blockPiece file file.length 0 = .ok (some file) := by
  have hpos : 0 < file.length := List.length_pos_iff.mpr h
  have hcount : recvBlockCount file file.length = 1 := by
    rw [recvBlockCount, if_pos ⟨hpos, h⟩]
    exact Nat.div_eq_of_lt_le (by omega) (by omega)
  have hlen : blockByteLength 0 file.length 1 (recvRemainder file file.length) = file.length := by
    simp [recvRemainder, blockByteLength]
  have hzero : asUsize 0 = 0 := rfl
  unfold blockPiece
  dsimp only
  rw [hcount, hzero, hlen, Nat.zero_mul, if_neg (by omega), if_neg (by omega), if_pos hpos,
    Nat.zero_add, Nat.min_self, slice, List.drop_zero, Nat.sub_zero, List.take_length]

def plainInPlace : InPlaceReceive Unit where
  wire := .new 28 0
  ndxState := .default
  tokens := plainTokenReader
  tokensStart := .ok ()
  blength := 700
  ctx := padContext 4

def oneBlockHead (file : List UInt8) : SumHead := ⟨1, file.length, 16, 0⟩

/-- The response for a file whose one block is unchanged. -/
def unchangedStream (file : List UInt8) : List UInt8 :=
  (writeInt 0 ++ writeSumHead (oneBlockHead file)) ++ (encodeToken (.blockMatch 0) ++
    (encodeToken .endOfFile ++ fileDigest padExternals (padContext 4).checksumType file))

theorem reads_oneBlockHead {file : List UInt8} (h : file.length < 2 ^ 31) :
    Reads (readResponseHeader plainInPlace.wire plainInPlace.ndxState)
      (writeInt 0 ++ writeSumHead (oneBlockHead file)) ⟨0, .default, 0, oneBlockHead file⟩ := by
  refine ((reads_int (by decide)).map).bind ((reads_sumHead ?_).map)
  simp only [SumHead.InRange, oneBlockHead, IsI32]
  omega

theorem sendable_first : (Token.blockMatch 0).Sendable := ⟨by decide, by decide⟩

def oneBlockFile : List UInt8 := List.replicate 32768 7

/-- An unchanged file of 32 KiB is lost. -/
theorem inplace_receive_empties :
    plainInPlace.receive padExternals oneBlockFile (unchangedStream oneBlockFile) = [] := by
  have hlen : oneBlockFile.length = 32768 := List.length_replicate
  have hne : oneBlockFile ≠ [] := List.ne_nil_of_length_pos (by omega)
  refine receive_first_reference (p := oneBlockFile) (reads_oneBlockHead (by omega) _) rfl
    (plainTokenReader_read sendable_first _) ?_ (by rw [hlen, mmapThreshold])
  rw [ResponseHeader.blength, oneBlockHead, if_pos (by simp only; omega)]
  exact blockPiece_whole hne

/-- An unchanged file of two bytes survives. -/
theorem inplace_receive_small :
    plainInPlace.receive padExternals [1, 2] (unchangedStream [1, 2]) = [1, 2] := by
  have hone : ∀ {P : Token → Prop}, P (.blockMatch 0) → ∀ t ∈ [Token.blockMatch 0], P t := by
    rintro P h t ht
    rwa [List.mem_singleton.mp ht]
  have hgives := gives_plain (fileDigest padExternals (padContext 4).checksumType [1, 2] ++ [])
    (hone ⟨sendable_first, by decide⟩)
  have hrefers : Refers [1, 2] 2 [.blockMatch 0] := hone rfl
  have hread := @reads_oneBlockHead [1, 2] (by decide)
  have hstream : unchangedStream [1, 2] = (writeInt 0 ++ writeSumHead (oneBlockHead [1, 2])) ++
      ([Token.blockMatch 0].flatMap encodeToken ++ (encodeToken .endOfFile ++
        (fileDigest padExternals (padContext 4).checksumType [1, 2] ++ []))) := by
    rfl
  exact (inplace_receive_iff padExternals plainInPlace (hread _) rfl hgives hrefers rfl).mpr
    (.inl (by decide))

end Ferrosync
