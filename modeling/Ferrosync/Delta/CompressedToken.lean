import Ferrosync.Delta.Token

set_option autoImplicit false

/-! # Tokens of a compressed stream

`CompressedTokenReader::recv_token`, over an arbitrary decompressor. A flag byte introduces
compressed data, the end of the file, or a block reference with an optional run count; the
members of a run are then returned without reading further bytes.

The numbers of the blocks are `i32`, and the reader adds to them what the stream says. It is written
for both builds, with overflow checks (`recvTokenIn .checked`) and with arithmetic that wraps around,
which is `recvTokenCompressed`.
-/

namespace Ferrosync

open ByteStream

/-- A decompressor (zlib, zstd or lz4) as the reader uses it. -/
structure Decompressor (δ : Type) where
  isZlib : Bool
  reset : δ → Except Failure δ
  decompress : δ → List UInt8 → Nat → Except Failure (List UInt8 × δ)

inductive CompressRecvState where
  | init
  | idle
  | running
  deriving DecidableEq, Repr

structure CompressedTokenReader (δ : Type) where
  decompressor : δ
  rxToken : Int32
  rxRun : Int32
  state : CompressRecvState
  deriving DecidableEq

def CompressedTokenReader.new {δ : Type} (d : δ) : CompressedTokenReader δ := ⟨d, 0, 0, .init⟩

def maxDataCount : Nat := 16383

/-! ## Arithmetic of either build -/

def Build.addI32 (b : Build) (x y : Int32) : Except Failure Int32 :=
  if b = .checked ∧ ¬ IsI32 (x.toInt + y.toInt) then .error (.fault .panic) else .ok (x + y)

def Build.subI32 (b : Build) (x y : Int32) : Except Failure Int32 :=
  if b = .checked ∧ ¬ IsI32 (x.toInt - y.toInt) then .error (.fault .panic) else .ok (x - y)

@[simp] theorem Build.addI32_wrapping (x y : Int32) : Build.wrapping.addI32 x y = .ok (x + y) :=
  if_neg fun h => Build.noConfusion h.1

@[simp] theorem Build.subI32_wrapping (x y : Int32) : Build.wrapping.subI32 x y = .ok (x - y) :=
  if_neg fun h => Build.noConfusion h.1

section Reader

variable {δ : Type}

/-- The run count behind a block reference. -/
def readRun (token : Int32) (r : CompressedTokenReader δ) :
    Wire (Token × CompressedTokenReader δ) := do
  let lo ← readByte
  let hi ← readByte
  pure (.blockMatch token.toInt, { r with
    rxToken := token, rxRun := Int32.ofNat (lo.toNat + hi.toNat * 256), state := .running })

def singleBlock (token : Int32) (r : CompressedTokenReader δ) :
    Wire (Token × CompressedTokenReader δ) :=
  pure (.blockMatch token.toInt, { r with rxToken := token })

/-- A flag byte that introduces a block reference: relative to the last number, or with a number of
its own behind the flag. -/
def recvBlockIn (b : Build) (flag : UInt8) (r : CompressedTokenReader δ) :
    Wire (Token × CompressedTokenReader δ) :=
  if flag.toNat ≥ 0x80 then do
    let token ← Reader.lift (b.addI32 r.rxToken (Int32.ofNat (flag.toNat % 64)))
    if flag.toNat / 64 % 2 = 1 then readRun token r else singleBlock token r
  else do
    let token ← readInt
    if token < 0 then
      Reader.fail (.protocol (.handshake "invalid token number in compressed stream"))
    else if flag.toNat % 2 = 1 then readRun (Int32.ofInt token) r
    else singleBlock (Int32.ofInt token) r

/-- Read a frame of `len` bytes and decompress it. -/
def inflateFrame (D : Decompressor δ) (r : CompressedTokenReader δ) (len : Nat) :
    Wire (List UInt8 × CompressedTokenReader δ) := do
  let compressed ← readExact unexpectedEof len
  Reader.lift do
    -- zlib frames are sent without their sync-flush trailer
    let payload := if D.isZlib then compressed ++ [0, 0, 0xFF, 0xFF] else compressed
    let (out, d) ← D.decompress r.decompressor payload dataChunkSize
    pure (out, { r with decompressor := d })

/-- The loop of `recv_token` in the idle state; empty frames continue it, and `block` reads the
block references. -/
def recvIdle (block : UInt8 → CompressedTokenReader δ → Wire (Token × CompressedTokenReader δ))
    (D : Decompressor δ) : Nat → CompressedTokenReader δ → Wire (Token × CompressedTokenReader δ)
  | 0, _ => Reader.fail (.fault .diverged)
  | n + 1, r => do
    let flag ← readByte
    if flag.toNat / 64 = 1 then do
      let lo ← readByte
      let len := flag.toNat % 64 * 256 + lo.toNat
      if len = 0 then recvIdle block D n r
      else if len > maxDataCount then
        Reader.fail (outOfRange "compressed_data_len" len maxDataCount)
      else do
        let (out, r) ← inflateFrame D r len
        if out ≠ [] then pure (.data out, r) else recvIdle block D n r
    else if flag = 0 then pure (.endOfFile, { r with state := .init })
    else block flag r

/-- The next member of a run. The count is decremented before it is compared with 0, so that a
count of 0 does not end the run. -/
def recvMemberIn (b : Build) (r : CompressedTokenReader δ) :
    Except Failure (Token × CompressedTokenReader δ) := do
  let token ← b.addI32 r.rxToken 1
  let run ← b.subI32 r.rxRun 1
  pure (.blockMatch token.toInt, { r with
    rxToken := token, rxRun := run, state := if run = 0 then .idle else .running })

/-- The state in which the loop begins; `none` if there is a member of a run to return. -/
def startIdle (D : Decompressor δ) (r : CompressedTokenReader δ) :
    Except Failure (Option (CompressedTokenReader δ)) :=
  match r.state with
  | .init => do
    let d ← D.reset r.decompressor
    pure (some { r with decompressor := d, state := .idle, rxToken := 0 })
  | .running => .ok none
  | .idle => .ok (some r)

/-- `CompressedTokenReader::recv_token`, in either build. Every round of the loop takes a byte, so
that the length of the input bounds the rounds. -/
def recvTokenIn (b : Build) (D : Decompressor δ) (r : CompressedTokenReader δ) :
    Wire (Token × CompressedTokenReader δ) := fun bs =>
  match startIdle D r with
  | .error e => .error e
  | .ok none => (recvMemberIn b r).map fun x => (x, bs)
  | .ok (some r) => recvIdle (recvBlockIn b) D (bs.length + 1) r bs

/-- `recv_token` with arithmetic that wraps around. -/
def recvTokenCompressed (D : Decompressor δ) (r : CompressedTokenReader δ) :
    Wire (Token × CompressedTokenReader δ) :=
  recvTokenIn .wrapping D r

/-! ## What a read leaves -/

theorem readByte_ok {bs rest : List UInt8} {b : UInt8} (h : readByte bs = .ok (b, rest)) :
    rest.length + 1 = bs.length := by
  obtain ⟨x, mid, hread, hpure⟩ := bind_eq_ok h
  obtain ⟨hlen, rfl⟩ := readExact_eq_ok hread
  obtain ⟨-, rfl⟩ := pure_eq_ok hpure
  rw [List.length_append]
  omega

theorem lift_eq_ok {ε α : Type} {x : Except ε α} {a : α} {bs rest : List UInt8}
    (h : Reader.lift x bs = .ok (a, rest)) : x = .ok a ∧ bs = rest := by
  cases x with
  | error e => cases h
  | ok b =>
    obtain ⟨rfl, rfl⟩ := Prod.mk.inj (Except.ok.inj h)
    exact ⟨rfl, rfl⟩

theorem inflateFrame_ok {D : Decompressor δ} {r r' : CompressedTokenReader δ} {len : Nat}
    {bs rest out : List UInt8} (h : inflateFrame D r len bs = .ok ((out, r'), rest)) :
    rest.length ≤ bs.length := by
  obtain ⟨compressed, mid, hread, hlift⟩ := bind_eq_ok h
  obtain ⟨-, rfl⟩ := readExact_eq_ok hread
  obtain ⟨-, rfl⟩ := lift_eq_ok hlift
  rw [List.length_append]
  omega

end Reader

end Ferrosync
