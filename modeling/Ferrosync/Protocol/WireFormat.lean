import Ferrosync.Protocol.Varint

set_option autoImplicit false

/-! # Version-dependent wire format

`WireFormat::new` resolves the negotiated version and compatibility flags once; the transfer
loops then only look at its fields. The item flags (`iflags`) that accompany an index are read
and written here.
-/

namespace Ferrosync

open ByteStream

inductive FlagsCodec where
  | byte
  | byteExtended
  | varint
  deriving DecidableEq, Repr

inductive DeviceCodec where
  | singleInt
  | majorMinor (varintMinor : Bool)
  deriving DecidableEq, Repr

/-- `WireFormat`, without the version kept for log messages. -/
structure WireFormat where
  intCodec : IntCodec
  flagsCodec : FlagsCodec
  deviceCodec : DeviceCodec
  hasInlineNames : Bool
  hasNanoseconds : Bool
  specialRdev : Bool
  phaseCount : Nat
  hasIflags : Bool
  hasErrorExitSync : Bool
  supportsIncrementalFlist : Bool
  trailingIoError : Bool
  deriving DecidableEq, Repr

def WireFormat.new (version compatFlags : Nat) : WireFormat where
  intCodec := if version ≥ 30 then .compact else .fixed
  flagsCodec :=
    if compatFlags.testBit 7 then .varint else if version ≥ 28 then .byteExtended else .byte
  deviceCodec := if version < 28 then .singleInt else .majorMinor (version ≥ 30)
  hasInlineNames := version ≥ 30
  hasNanoseconds := version ≥ 31
  specialRdev := version < 31
  phaseCount := if version ≥ 29 then 2 else 1
  hasIflags := version ≥ 29
  hasErrorExitSync := version ≥ 31
  supportsIncrementalFlist := decide (version ≥ 30) && compatFlags.testBit 0
  trailingIoError := version < 30

/-! ## Item flags -/

def itemTransfer : Nat := 2 ^ 15

/-- The optional basis type behind `ITEM_BASIS_TYPE_FOLLOWS`. -/
def readBasisType (iflags : Nat) : Wire Unit :=
  if iflags.testBit 11 then do
    let _ ← readByte
    pure ()
  else pure ()

/-- The optional name behind `ITEM_XNAME_FOLLOWS`. -/
def readXname (iflags : Nat) : Wire Unit :=
  if iflags.testBit 12 then do
    let nameLen ← readVarint
    if nameLen > 0x10000 then Reader.fail (outOfRange "xname_len" nameLen 0x10000)
    else do
      let _ ← readExact unexpectedEof nameLen
      pure ()
  else pure ()

def WireFormat.readIflags (wf : WireFormat) : Wire Nat :=
  if wf.hasIflags then do
    let iflags ← readShortint
    readBasisType iflags
    readXname iflags
    pure iflags
  else pure 0

def WireFormat.writeIflags (wf : WireFormat) (iflags : Nat) : List UInt8 :=
  if wf.hasIflags then writeShortint iflags else []

def WireFormat.writeIflagsEcho (wf : WireFormat) (iflags : Nat) : List UInt8 :=
  if wf.hasIflags then
    writeShortint iflags ++ (if iflags.testBit 11 then [0] else []) ++
      (if iflags.testBit 12 then writeVarint 0 else [])
  else []

/-- The item flags a reader sees: none before version 29. -/
def WireFormat.seenIflags (wf : WireFormat) (iflags : Nat) : Nat := if wf.hasIflags then iflags else 0

/-- Flags without a basis type or a name behind them are read back. -/
theorem WireFormat.reads_iflags (wf : WireFormat) {iflags : Nat} (hlt : iflags < 2 ^ 16)
    (hbasis : iflags.testBit 11 = false) (hxname : iflags.testBit 12 = false) :
    Reads wf.readIflags (wf.writeIflags iflags) (wf.seenIflags iflags) := by
  unfold readIflags writeIflags seenIflags
  split_ifs
  · refine (reads_shortint hlt).bind_nil ?_
    simp only [readBasisType, readXname, hbasis, hxname]
    exact Reads.pure iflags
  · exact Reads.pure 0

theorem WireFormat.stable_iflags (wf : WireFormat) : Stable unexpectedEof wf.readIflags := by
  have hbasis : ∀ iflags, Stable unexpectedEof (readBasisType iflags) := fun iflags =>
    Stable.ite (stable_byte.bind fun _ => Stable.pure _) (Stable.pure _)
  have hxname : ∀ iflags, Stable unexpectedEof (readXname iflags) := by
    intro iflags
    refine Stable.ite (stable_varint.bind fun nameLen => ?_) (Stable.pure _)
    exact Stable.ite (Stable.fail _) ((Stable.exact _).bind fun _ => Stable.pure _)
  refine Stable.ite (stable_shortint.bind fun iflags => ?_) (Stable.pure _)
  exact (hbasis iflags).bind fun _ => (hxname iflags).bind fun _ => Stable.pure _

end Ferrosync
