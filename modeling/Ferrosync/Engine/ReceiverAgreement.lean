import Ferrosync.Delta.BlockReuse
import Ferrosync.Engine.Receiver

set_option autoImplicit false

/-! # The two receivers of a file agree

`recv_file_delta_with` collects the file in memory, `recv_file_delta_to_writer_with` hashes and
writes each piece. The loops run in step on every stream, whether or not it makes sense
(`recvTokens_alike`), so that both functions end alike (`receivers_agree`).

The offset and the end of a block are computed from a block length nobody has checked. With
`blockPieceChecked` each step of that computation can fail; it never does, because the index is an
`i32` and so was the block length (`blockPieceChecked_eq`).
-/

namespace Ferrosync

open ByteStream

variable {e : Failure} {input basis : List UInt8} {blength : Nat} {index : Int}

/-! ## The bounds of a block -/

/-- `a + b` on `usize`, which must not overflow. -/
def addChecked (a b : Nat) : Except Failure Nat :=
  if a + b < 2 ^ 64 then .ok (a + b) else .error (.fault .panic)

/-- The bytes of a block reference, as in `blockPiece`, with each index checked. -/
def blockPieceChecked (basis : List UInt8) (blength : Nat) (index : Int) :
    Except Failure (Option (List UInt8)) :=
  let idx := asUsize index
  let count := recvBlockCount basis blength
  if idx ≥ count then .error (outOfRange "block_index" index (count - 1 : Nat))
  else if idx * blength ≥ 2 ^ 64 then .error (outOfRange "block_offset" index (2 ^ 63 - 1))
  else do
    let offset := idx * blength
    let len := blockByteLength idx blength count (recvRemainder basis blength)
    let stop ← addChecked offset len
    if offset < basis.length then do
      let bytes ← sliceChecked basis offset (min stop basis.length)
      pure (some bytes)
    else .ok none

/-- The length of a block is at most the block length. -/
theorem blockByteLength_le (idx blength count remainder : Nat) :
    blockByteLength idx blength count remainder ≤ blength := by
  unfold blockByteLength
  split_ifs with h
  · exact h.2.2.2.le
  · exact le_rfl

/-- A block reference never slices the basis out of range, and its bounds do not overflow. -/
theorem blockPieceChecked_eq (hblength : blength < 2 ^ 31) (h₀ : 0 ≤ index) (h₁ : index < 2 ^ 31) :
    blockPieceChecked basis blength index = blockPiece basis blength index := by
  have hidx : asUsize index < 2 ^ 31 := by
    rw [asUsize_of_nonneg h₀ (by omega)]
    omega
  have hoffset : asUsize index * blength ≤ 2 ^ 31 * 2 ^ 31 := Nat.mul_le_mul hidx.le hblength.le
  have hlen := blockByteLength_le (asUsize index) blength (recvBlockCount basis blength)
    (recvRemainder basis blength)
  unfold blockPieceChecked blockPiece
  dsimp only
  split_ifs with hcount hover hin
  · rfl
  · rfl
  · unfold addChecked
    rw [if_pos (by omega), Loop.ok_bind, sliceChecked_eq (by omega) (Nat.min_le_right _ _)]
    rfl
  · unfold addChecked
    rw [if_pos (by omega)]
    rfl

/-- The plain reader returns only block indices that are not negative. -/
theorem plainToken_index {rest : List UInt8} (h : recvToken input = .ok (.blockMatch index, rest)) :
    0 ≤ index ∧ index < 2 ^ 31 := by
  obtain ⟨token, mid, hint, h⟩ := bind_eq_ok h
  have hrange : IsI32 token := (readInt_ok hint).1
  unfold IsI32 at hrange
  unfold tokenBody at h
  split_ifs at h with h₁ h₂ h₃
  · exact absurd (pure_eq_ok h).1 nofun
  · exact absurd h nofun
  · obtain ⟨buf, mid', -, h⟩ := bind_eq_ok h
    exact absurd (pure_eq_ok h).1 nofun
  · obtain ⟨h, -⟩ := pure_eq_ok h
    cases h
    omega

/-! ## The loops in step -/

section Loops

variable {σ τ τ' : Type} {R : TokenReader σ} {sink : Sink τ} {sink' : Sink τ'}
variable {basis : List UInt8} {blength : Nat} {Rel : τ → τ' → Prop}

/-- Two loops in front of the same stream, whose sinks are related. -/
structure SameStream (Rel : τ → τ' → Prop) (st : RecvState σ τ) (st' : RecvState σ τ') : Prop where
  reader : st.reader = st'.reader
  input : st.input = st'.input
  sink : Rel st.sink st'.sink

def SameError (p : Failure × τ) (q : Failure × τ') : Prop := p.1 = q.1

/-- Sinks that take every piece and stay related keep the loops in step. -/
theorem recvStep_alike
    (hsink : ∀ s s' bytes, Rel s s' →
      Loop.Alike SameError Rel (sink s bytes) (sink' s' bytes))
    {st : RecvState σ τ} {st' : RecvState σ τ'} (h : SameStream Rel st st') :
    Loop.Alike SameError (Sum.LiftRel (SameStream Rel) (SameStream Rel))
      (recvStep R sink basis blength st) (recvStep R sink' basis blength st') := by
  unfold recvStep
  rw [h.reader, h.input]
  cases R.readToken st'.reader st'.input with
  | error e => exact rfl
  | ok read =>
    obtain ⟨⟨t, reader⟩, rest⟩ := read
    dsimp only
    cases deliver basis blength t with
    | error e => exact rfl
    | ok delivery =>
      cases delivery with
      | finish => exact Sum.LiftRel.inr ⟨rfl, rfl, h.sink⟩
      | skip => exact Sum.LiftRel.inl ⟨rfl, rfl, h.sink⟩
      -- the sinks take a piece or refuse it, both alike
      | piece bytes =>
        have hpiece := hsink _ _ bytes h.sink
        unfold recvDelivered
        dsimp only
        cases hs : sink st.sink bytes with
        | error e =>
          rw [hs] at hpiece
          cases hs' : sink' st'.sink bytes with
          | error e' => rw [hs'] at hpiece; exact hpiece
          | ok s' => rw [hs'] at hpiece; exact hpiece.elim
        | ok s =>
          rw [hs] at hpiece
          cases hs' : sink' st'.sink bytes with
          | error e' => rw [hs'] at hpiece; exact hpiece.elim
          | ok s' => rw [hs'] at hpiece; exact Sum.LiftRel.inl ⟨rfl, rfl, hpiece⟩

theorem recvTokens_alike
    (hsink : ∀ s s' bytes, Rel s s' →
      Loop.Alike SameError Rel (sink s bytes) (sink' s' bytes))
    {st : RecvState σ τ} {st' : RecvState σ τ'} (h : SameStream Rel st st') :
    Loop.Alike SameError (SameStream Rel) (recvTokens R sink basis blength st)
      (recvTokens R sink' basis blength st') := by
  unfold recvTokens
  rw [h.reader, h.input]
  refine Loop.loop_alike (fun _ _ hstep => recvStep_alike hsink hstep) ?_ _ h
  exact rfl

end Loops

/-! ## No faults -/

theorem recvToken_error (h : recvToken input = .error e) :
    ∃ p, e = .protocol p := by
  have hexact : ∀ {n : Nat} {bs : List UInt8} {e : Failure},
      readExact unexpectedEof n bs = .error e → ∃ p, e = .protocol p := by
    intro n bs e hread
    unfold readExact at hread
    split_ifs at hread
    exact ⟨_, (Except.error.inj hread).symm⟩
  rcases bind_eq_error h with h | ⟨token, mid, -, h⟩
  · rcases bind_eq_error h with h | ⟨b, mid, -, h⟩
    · exact hexact h
    · exact absurd h nofun
  · unfold tokenBody at h
    split_ifs at h
    · exact ⟨_, (Except.error.inj h).symm⟩
    · rcases bind_eq_error h with h | ⟨buf, mid', -, h⟩
      · exact hexact h
      · exact absurd h nofun

theorem blockPiece_error (h : blockPiece basis blength index = .error e) :
    ∃ p, e = .protocol p := by
  unfold blockPiece at h
  dsimp only at h
  split_ifs at h
  all_goals exact ⟨_, (Except.error.inj h).symm⟩

theorem deliver_error {t : Token} (h : deliver basis blength t = .error e) :
    ∃ p, e = .protocol p := by
  cases t with
  | data | endOfFile => exact absurd h nofun
  | blockMatch index =>
    dsimp only [deliver] at h
    cases hpiece : blockPiece basis blength index with
    | error e' =>
      rw [hpiece] at h
      obtain rfl := Except.error.inj h
      exact blockPiece_error hpiece
    | ok piece =>
      rw [hpiece] at h
      cases piece <;> exact absurd h nofun

section Buffer

variable {basis : List UInt8} {blength : Nat}

theorem recvStep_decreases {σ τ : Type} {R : TokenReader σ} {sink : Sink τ}
    {st st' : RecvState σ τ} (h : recvStep R sink basis blength st = .ok (.inl st')) :
    R.bound st'.reader st'.input < R.bound st.reader st.input := by
  unfold recvStep at h
  cases hread : R.readToken st.reader st.input with
  | error e => rw [hread] at h; exact absurd h nofun
  | ok read =>
    obtain ⟨⟨t, reader⟩, rest⟩ := read
    rw [hread] at h
    dsimp only at h
    -- the loop goes on behind a token only if it is not the end
    have hne : t ≠ .endOfFile := by
      rintro rfl
      exact absurd h nofun
    have hlt := R.bound_lt hread hne
    unfold recvDelivered at h
    split at h
    · exact absurd h nofun
    · cases h
      exact hlt
    · split at h
      · cases h
        exact hlt
      · exact absurd h nofun
    · exact absurd h nofun

/-- A step on a plain stream fails with protocol errors only. -/
theorem recvStep_error {st : RecvState Unit (List UInt8)} {p : Failure × List UInt8}
    (h : recvStep plainTokenReader bufferSink basis blength st = .error p) :
    ∃ q, p.1 = .protocol q := by
  unfold recvStep at h
  cases hread : plainTokenReader.readToken st.reader st.input with
  | error e =>
    rw [hread] at h
    obtain rfl := Except.error.inj h
    rcases bind_eq_error hread with hread | ⟨t, mid, -, hread⟩
    · exact recvToken_error hread
    · exact absurd hread nofun
  | ok read =>
    rw [hread] at h
    cases hdeliver : deliver basis blength read.1.1 with
    | error e =>
      simp only [hdeliver] at h
      obtain rfl := Except.error.inj h
      exact deliver_error hdeliver
    | ok delivery => cases delivery <;> simp [hdeliver, recvDelivered, bufferSink] at h

/-- The loop that collects a plain stream fails with protocol errors only. -/
theorem recvTokens_error {out : List UInt8}
    (h : recvTokens plainTokenReader bufferSink basis blength ⟨(), input, []⟩ = .error (e, out)) :
    ∃ p, e = .protocol p := by
  unfold recvTokens at h
  have hdecr : ∀ st st', recvStep plainTokenReader bufferSink basis blength st = .ok (.inl st') →
      plainTokenReader.bound st'.reader st'.input < plainTokenReader.bound st.reader st.input :=
    fun _ _ => recvStep_decreases
  -- the loop has fuel for the whole stream: its last resort may be any error, so a protocol error
  rw [Loop.loop_bounded (Failure.fault .diverged, []) (unexpectedEof, []) hdecr _
    ⟨(), input, []⟩ (Nat.lt_succ_self _)] at h
  have hdiverged : ∃ q, (unexpectedEof, ([] : List UInt8)).1 = Failure.protocol q := ⟨_, rfl⟩
  have herror : ∀ st p, True → recvStep plainTokenReader bufferSink basis blength st = .error p →
      ∃ q, p.1 = .protocol q :=
    fun _ _ _ => recvStep_error
  have hout := Loop.loop_outcome (I := fun _ => True) (Q := fun _ => True)
    (fun _ _ _ _ => trivial) (fun _ _ _ _ => trivial) herror hdiverged
    (plainTokenReader.bound () input + 1) (s := ⟨(), input, []⟩) trivial
  rcases hout with ⟨a, ha, -⟩ | ⟨p, hp, hE⟩
  · exact absurd (h.symm.trans ha) nofun
  · obtain rfl := Except.error.inj (h.symm.trans hp)
    exact hE

end Buffer

theorem verifyChecksum_error {n : Nat} {computed : List UInt8}
    (h : verifyChecksum n computed input = .error e) : ∃ p, e = .protocol p := by
  rcases bind_eq_error h with h | ⟨received, mid, -, h⟩
  · unfold readExact at h
    split_ifs at h
    exact ⟨_, (Except.error.inj h).symm⟩
  · split_ifs at h
    · exact ⟨_, (Except.error.inj h).symm⟩

/-! ## The two functions -/

section Agreement

variable {ω : Type}

/-- A writer that does not fail, and what has been written to it. -/
def WriteAll.Accepts (writeAll : WriteAll ω) (written : ω → List UInt8) : Prop :=
  ∀ w bytes, ∃ w', writeAll w bytes = .ok w' ∧ written w' = written w ++ bytes

/-- The buffer of one loop and the hasher, the writer and the counter of the other. -/
structure Mirrors (checksumType : ChecksumType) (written : ω → List UInt8) (writer : ω)
    (output : List UInt8) (s : WriterSink ω) : Prop where
  checksumType : s.hasher.checksumType = checksumType
  fed : s.hasher.fed = output
  written : written s.writer = written writer ++ output
  bytesWritten : s.bytesWritten = output.length

theorem sinks_alike {writeAll : WriteAll ω} {written : ω → List UInt8}
    (hw : writeAll.Accepts written) {ct : ChecksumType} {writer : ω} (output : List UInt8)
    (s : WriterSink ω) (bytes : List UInt8) (h : Mirrors ct written writer output s) :
    Loop.Alike SameError (Mirrors ct written writer) (bufferSink output bytes)
      (writerSink writeAll s bytes) := by
  obtain ⟨w', hwrite, hwritten⟩ := hw s.writer bytes
  unfold bufferSink writerSink
  dsimp only
  rw [hwrite]
  exact
    { checksumType := h.checksumType
      fed := congrArg (· ++ bytes) h.fed
      written := by rw [hwritten, h.written, List.append_assoc]
      bytesWritten := by rw [h.bytesWritten, List.length_append] }

/-- The same bytes, as many as are reported, and the same rest of the stream. -/
structure SameFile (written : ω → List UInt8) (writer : ω) (p : List UInt8 × List UInt8)
    (q : (Nat × ω) × List UInt8) : Prop where
  bytes : written q.1.2 = written writer ++ p.1
  count : q.1.1 = p.1.length
  rest : q.2 = p.2

def SameProtocolError (e : Failure) (q : Failure × ω) : Prop := e = q.1 ∧ ∃ p, e = .protocol p

/-- **The two receivers agree** on every stream of the plain reader, for every block length an
`i32` can hold: the same file and the same rest of the stream, or the same protocol error. No
block reference of such a stream is computed or cut out of range. -/
theorem receivers_agree (X : Externals) (basis : List UInt8) (blength : Nat)
    (hblength : blength < 2 ^ 31) (ctx : ProtocolContext) (writeAll : WriteAll ω)
    (written : ω → List UInt8) (hw : writeAll.Accepts written) (writer : ω)
    (input : List UInt8) :
    Loop.Alike SameProtocolError (SameFile written writer)
        (recvFileDeltaWith X plainTokenReader () basis blength ctx input)
        (recvFileDeltaToWriterWith X plainTokenReader () basis blength ctx writeAll writer input) ∧
      ∀ stream index rest, recvToken stream = .ok (.blockMatch index, rest) →
        blockPieceChecked basis blength index = blockPiece basis blength index := by
  constructor
  · have hstart : SameStream (Mirrors ctx.checksumType written writer) ⟨(), input, []⟩
        ⟨(), input, ⟨.new ctx.checksumType, writer, 0⟩⟩ :=
      ⟨rfl, rfl, rfl, rfl, (List.append_nil _).symm, rfl⟩
    have halike : Loop.Alike SameError (SameStream (Mirrors ctx.checksumType written writer))
        (recvTokens plainTokenReader bufferSink basis blength _)
        (recvTokens plainTokenReader (writerSink writeAll) basis blength _) :=
      recvTokens_alike (sinks_alike hw) hstart
    unfold recvFileDeltaWith recvFileDeltaToWriterWith
    cases hbuffer : recvTokens plainTokenReader bufferSink basis blength ⟨(), input, []⟩ with
    | error e =>
      rw [hbuffer] at halike
      cases hwriter : recvTokens plainTokenReader (writerSink writeAll) basis blength
          ⟨(), input, ⟨.new ctx.checksumType, writer, 0⟩⟩ with
      | error e' =>
        rw [hwriter] at halike
        exact ⟨halike, recvTokens_error hbuffer⟩
      | ok st' => rw [hwriter] at halike; exact halike.elim
    | ok st =>
      rw [hbuffer] at halike
      cases hwriter : recvTokens plainTokenReader (writerSink writeAll) basis blength
          ⟨(), input, ⟨.new ctx.checksumType, writer, 0⟩⟩ with
      | error e' => rw [hwriter] at halike; exact halike.elim
      | ok st' =>
        rw [hwriter] at halike
        have hm := halike.sink
        -- both compare the sender's checksum with the digest of the same bytes
        have hdigest : st'.sink.hasher.finalize X = fileChecksum X st.sink ctx := by
          unfold IncrementalChecksum.finalize fileChecksum
          rw [hm.checksumType, hm.fed]
        dsimp only
        rw [hdigest, ← halike.input]
        cases hverify : verifyChecksum ctx.checksumType.digestLen
            (fileChecksum X st.sink ctx) st.input with
        | error e =>
          rw [bind_error hverify]
          exact ⟨rfl, verifyChecksum_error hverify⟩
        | ok r =>
          rw [bind_ok hverify]
          exact ⟨hm.written, hm.bytesWritten, rfl⟩
  · intro stream index rest hread
    obtain ⟨h₀, h₁⟩ := plainToken_index hread
    exact blockPieceChecked_eq hblength h₀ h₁

end Agreement

def listWriter : WriteAll (List UInt8) := fun w bytes => .ok (w ++ bytes)

theorem listWriter_accepts : listWriter.Accepts id := fun w bytes => ⟨w ++ bytes, rfl, rfl⟩

/-- A reference to block 7 of a basis of two blocks is refused by both. -/
theorem receivers_agree_two_blocks :
    Loop.Alike SameProtocolError (SameFile id [])
        (recvFileDeltaWith collidingExternals plainTokenReader () [1, 2, 3] 2 (blockContext 2)
          (encodeToken (.blockMatch 7)))
        (recvFileDeltaToWriterWith collidingExternals plainTokenReader () [1, 2, 3] 2 (blockContext 2)
          listWriter [] (encodeToken (.blockMatch 7))) ∧
      ∀ stream index rest, recvToken stream = .ok (.blockMatch index, rest) →
        blockPieceChecked [1, 2, 3] 2 index = blockPiece [1, 2, 3] 2 index :=
  receivers_agree collidingExternals [1, 2, 3] 2 (by decide) (blockContext 2) listWriter id
    listWriter_accepts [] _

end Ferrosync
