import Ferrosync.Delta.Ops

set_option autoImplicit false

/-! # Transfer tokens

The token stream of one file: literal data, references to basis blocks, end of file.
`TokenWriter` and `TokenReader` are the two traits of `token.rs`; the plain encoding is given
here. A token reader carries a bound on how many more tokens it can return from a stream, which
is what makes the receiver's token loop terminate.
-/

namespace Ferrosync

open ByteStream

inductive Token where
  | data (bytes : List UInt8)
  | blockMatch (index : Int)
  | endOfFile
  deriving DecidableEq, Repr

def dataChunkSize : Nat := 32 * 1024

def maxWireAlloc : Nat := 256 * 1024 * 1024

/-! ## The traits -/

/-- `TokenWriter`: each method returns the bytes it appends to the stream. -/
structure TokenWriter (τ : Type) where
  writeData : τ → List UInt8 → Except Failure (List UInt8 × τ)
  writeBlockMatch : τ → Int → Except Failure (List UInt8 × τ)
  writeEof : τ → Except Failure (List UInt8 × τ)

/-- `TokenReaderT`. Every token other than the end of file uses up some of the bound. -/
structure TokenReader (σ : Type) where
  readToken : σ → Wire (Token × σ)
  bound : σ → List UInt8 → Nat
  bound_lt : ∀ {s s' : σ} {bs rest : List UInt8} {t : Token},
    readToken s bs = .ok ((t, s'), rest) → t ≠ .endOfFile → bound s' rest < bound s bs

/-- The body of the loop of `write_diffops`. -/
def writeDiffop {τ : Type} (T : TokenWriter τ) (blength : Nat) (s : τ) :
    DiffOp → Except Failure (List UInt8 × τ)
  | .literal data => T.writeData s data
  | .copy bref => T.writeBlockMatch s (bref.blockIndex blength)

def writeDiffops {τ : Type} (T : TokenWriter τ) (blength : Nat) :
    List DiffOp → τ → Except Failure (List UInt8 × τ)
  | [], s => .ok ([], s)
  | op :: ops, s => do
    let (bs, s) ← writeDiffop T blength s op
    let (rest, s) ← writeDiffops T blength ops s
    pure (bs ++ rest, s)

/-! ## The plain encoding -/

def sendData (data : List UInt8) : List UInt8 :=
  (chunks dataChunkSize data).flatMap fun chunk => writeInt (toI32 chunk.length) ++ chunk

/-- `send_block_match`: `-(index + 1)`, both steps checked. -/
def sendBlockMatch (index : Int) : Except Failure (List UInt8) :=
  if IsI32 (index + 1) ∧ IsI32 (-(index + 1)) then .ok (writeInt (-(index + 1)))
  else .error (outOfRange "block_index" index (2 ^ 31 - 1))

def sendEof : List UInt8 := writeInt 0

/-- `recv_token` after the leading integer. -/
def tokenBody (token : Int) : Wire Token :=
  if token = 0 then pure .endOfFile
  else if token > 0 then
    if token.toNat > maxWireAlloc then
      Reader.fail (outOfRange "token_data_len" token maxWireAlloc)
    else do
      let buf ← readExact unexpectedEof token.toNat
      pure (.data buf)
  else pure (.blockMatch (-(token + 1)))

def recvToken : Wire Token := do
  let token ← readInt
  tokenBody token

def plainTokenWriter : TokenWriter Unit where
  writeData _ data := .ok (sendData data, ())
  writeBlockMatch _ index := (sendBlockMatch index).map fun bs => (bs, ())
  writeEof _ := .ok (sendEof, ())

theorem writeBlockMatch_plain {index : Int} {bs : List UInt8}
    (h : sendBlockMatch index = .ok bs) :
    plainTokenWriter.writeBlockMatch () index = .ok (bs, ()) := by
  show (sendBlockMatch index).map (fun bs => (bs, ())) = _
  rw [h]
  rfl

/-- A token that is read has used up bytes of the stream. -/
theorem recvToken_length {bs rest : List UInt8} {t : Token} (h : recvToken bs = .ok (t, rest)) :
    rest.length < bs.length := by
  obtain ⟨token, mid, hint, hrest⟩ := bind_eq_ok h
  have hlen := (readInt_ok hint).2
  unfold tokenBody at hrest
  split_ifs at hrest with h₁ h₂ h₃
  · obtain ⟨-, rfl⟩ := pure_eq_ok hrest
    omega
  · cases hrest
  · obtain ⟨buf, mid', hbuf, hpure⟩ := bind_eq_ok hrest
    obtain ⟨-, rfl⟩ := readExact_eq_ok hbuf
    obtain ⟨-, rfl⟩ := pure_eq_ok hpure
    rw [List.length_append] at hlen
    omega
  · obtain ⟨-, rfl⟩ := pure_eq_ok hrest
    omega

def plainTokenReader : TokenReader Unit where
  readToken _ := do
    let t ← recvToken
    pure (t, ())
  bound _ bs := bs.length
  bound_lt := by
    intro _ _ bs rest t h _
    obtain ⟨t', mid, ht, hpure⟩ := bind_eq_ok h
    obtain ⟨-, rfl⟩ := pure_eq_ok hpure
    exact recvToken_length ht

/-! ## Tokens survive the wire -/

def encodeToken : Token → List UInt8
  | .data bytes => writeInt (toI32 bytes.length) ++ bytes
  | .blockMatch index => writeInt (-(index + 1))
  | .endOfFile => writeInt 0

def Token.Sendable : Token → Prop
  | .data bytes => 0 < bytes.length ∧ bytes.length ≤ maxWireAlloc
  | .blockMatch index => 0 ≤ index ∧ index < 2 ^ 31 - 1
  | .endOfFile => True

theorem reads_token {t : Token} (h : t.Sendable) : Reads recvToken (encodeToken t) t := by
  cases t with
  | data bytes =>
    obtain ⟨hpos, hmax⟩ := h
    have hmax' : bytes.length ≤ 268435456 := hmax
    have hi32 : IsI32 bytes.length := ⟨by omega, by omega⟩
    have hne : ¬ ((bytes.length : Int) = 0) := by omega
    have hgt : (bytes.length : Int) > 0 := by omega
    rw [encodeToken, toI32_eq hi32]
    refine (reads_int hi32).bind ?_
    rw [tokenBody, if_neg hne, if_pos hgt, if_neg (by omega)]
    exact (Reads.exact unexpectedEof bytes).map
  -- references are sent as negative numbers, from -1 on
  | blockMatch index =>
    obtain ⟨h₀, h₁⟩ := h
    have hi32 : IsI32 (-(index + 1)) := ⟨by omega, by omega⟩
    refine (reads_int hi32).bind_nil ?_
    rw [tokenBody, if_neg (by omega), if_neg (by omega)]
    exact (Reads.pure _).congr rfl (by rw [show -(-(index + 1) + 1) = index by omega])
  | endOfFile =>
    refine (reads_int (by decide)).bind_nil ?_
    exact Reads.pure _

def DiffOp.tokens (blength : Nat) : DiffOp → List Token
  | .literal data => (chunks dataChunkSize data).map .data
  | .copy bref => [.blockMatch (bref.blockIndex blength)]

/-- The operations whose block references the plain writer accepts. -/
def DiffOp.Sendable (blength : Nat) : DiffOp → Prop
  | .literal _ => True
  | .copy bref => bref.offset / blength < 2 ^ 31 - 1

variable {blength : Nat}

theorem blockIndex_eq {bref : BasisRef} (h : bref.offset / blength < 2 ^ 31 - 1) :
    bref.blockIndex blength = (bref.offset / blength : Nat) := by
  rw [BasisRef.blockIndex]
  generalize bref.offset / blength = index at h ⊢
  exact toI32_eq ⟨by omega, by omega⟩

theorem dataChunkSize_pos : 0 < dataChunkSize := by norm_num [dataChunkSize]

theorem dataChunkSize_le_maxWireAlloc : dataChunkSize ≤ maxWireAlloc := by
  norm_num [dataChunkSize, maxWireAlloc]

theorem tokens_sendable {op : DiffOp} (h : op.Sendable blength) :
    ∀ t ∈ op.tokens blength, t.Sendable ∧ t ≠ .endOfFile := by
  intro t ht
  cases op with
  | literal data =>
    simp only [DiffOp.tokens, List.mem_map] at ht
    obtain ⟨chunk, hchunk, rfl⟩ := ht
    obtain ⟨hpos, hle⟩ := chunks_length dataChunkSize_pos hchunk
    exact ⟨⟨hpos, hle.trans dataChunkSize_le_maxWireAlloc⟩, by simp⟩
  | copy bref =>
    simp only [DiffOp.tokens, List.mem_singleton] at ht
    rw [DiffOp.Sendable] at h
    rw [blockIndex_eq h] at ht
    generalize bref.offset / blength = index at ht h
    subst ht
    exact ⟨⟨by omega, by omega⟩, by simp⟩

theorem sendBlockMatch_eq {bref : BasisRef} (h : bref.offset / blength < 2 ^ 31 - 1) :
    sendBlockMatch (bref.blockIndex blength) =
      .ok (encodeToken (.blockMatch (bref.blockIndex blength))) := by
  rw [blockIndex_eq h]
  generalize bref.offset / blength = index at h
  have h₁ : IsI32 (index + 1) := ⟨by omega, by omega⟩
  have h₂ : IsI32 (-(index + 1)) := ⟨by omega, by omega⟩
  rw [sendBlockMatch, if_pos ⟨h₁, h₂⟩, encodeToken]

theorem writeDiffop_plain {op : DiffOp} (h : op.Sendable blength) :
    writeDiffop plainTokenWriter blength () op =
      .ok ((op.tokens blength).flatMap encodeToken, ()) := by
  cases op with
  | literal data => simp [writeDiffop, plainTokenWriter, DiffOp.tokens, sendData,
      List.flatMap_map, encodeToken]
  | copy bref =>
    simp [writeDiffop, writeBlockMatch_plain (sendBlockMatch_eq h), DiffOp.tokens]

/-- **`write_diffops` in the plain encoding** writes the encodings of the operations' tokens. -/
theorem writeDiffops_plain {ops : List DiffOp} (h : ∀ op ∈ ops, op.Sendable blength) :
    writeDiffops plainTokenWriter blength ops () =
      .ok ((ops.flatMap (DiffOp.tokens blength)).flatMap encodeToken, ()) := by
  induction ops with
  | nil => rfl
  | cons op ops ih =>
    have hop := writeDiffop_plain (h op (by simp))
    have hops := ih fun o ho => h o (by simp [ho])
    rw [writeDiffops, hop, List.flatMap_cons, List.flatMap_append]
    simp only [bind, hops]
    rfl

end Ferrosync
