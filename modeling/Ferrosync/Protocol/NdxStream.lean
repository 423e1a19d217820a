import Ferrosync.Protocol.Varint

set_option autoImplicit false

/-! # A stream of file indices

The writer and the reader of indices keep a state each, against which they code differences. From
equal states they stay in lockstep over any sequence of indices (`ndx_stream_roundTrip`), in a build
whose arithmetic wraps around and in one that checks it: nothing overflows.
-/

namespace Ferrosync

open ByteStream

/-- `write_ndx` for one index after the other: the bytes, and the state after each index. -/
def writeNdxs (b : Build) (codec : IntCodec) :
    List Int → NdxState → Except Failure (List UInt8 × List NdxState)
  | [], _ => .ok ([], [])
  | ndx :: ndxs, state => do
    let written ← writeNdxIn b ndx state codec
    let rest ← writeNdxs b codec ndxs written.2
    pure (written.1 ++ rest.1, written.2 :: rest.2)

/-- `read_ndx` a number of times, with the state after each index. -/
def readNdxs (b : Build) (codec : IntCodec) : Nat → NdxState → Wire (List (Int × NdxState))
  | 0, _ => pure []
  | n + 1, state => do
    let read ← readNdxIn b state codec
    let rest ← readNdxs b codec n read.2
    pure (read :: rest)

/-- **Indices in lockstep.** -/
theorem ndx_stream_roundTrip (b : Build) (codec : IntCodec) {ndxs : List Int} {state : NdxState}
    (hstate : state.Fits b) (hndxs : ∀ ndx ∈ ndxs, -(2 ^ 31 - 2) ≤ ndx ∧ ndx ≤ 2 ^ 31 - 2) :
    ∃ bytes states, writeNdxs b codec ndxs state = .ok (bytes, states) ∧
      states.length = ndxs.length ∧
      Reads (readNdxs b codec ndxs.length state) bytes (ndxs.zip states) := by
  induction ndxs generalizing state with
  | nil => exact ⟨[], [], rfl, rfl, Reads.pure []⟩
  | cons ndx ndxs ih =>
    obtain ⟨hndx, hrest⟩ := List.forall_mem_cons.mp hndxs
    obtain ⟨first, state', hwrite, hfits, hread⟩ : ∃ first state',
        writeNdxIn b ndx state codec = .ok (first, state') ∧ state'.Fits b ∧
          Reads (readNdxIn b state codec) first (ndx, state') :=
      reads_ndxIn hstate ⟨by omega, by omega⟩ fun _ => hndx
    obtain ⟨bytes, states, hwrites, hlength, hreads⟩ := ih hfits hrest
    refine ⟨first ++ bytes, state' :: states, ?_, ?_, ?_⟩
    · simp only [writeNdxs, hwrite, hwrites, bind, Except.bind, pure, Except.pure]
    · simp [hlength]
    · exact hread.bind (hreads.map (g := fun rest => (ndx, state') :: rest))

/-- A run forward, a jump back, a negative index and the end of a phase. -/
theorem ndx_stream_mixed : ∃ bytes states,
    writeNdxs .checked .compact [0, 1, 300, 7, -101, -1] .default = .ok (bytes, states) ∧
      states.length = 6 ∧
      Reads (readNdxs .checked .compact 6 .default) bytes ([0, 1, 300, 7, -101, -1].zip states) :=
  ndx_stream_roundTrip .checked .compact (NdxState.valid_default.fits .checked) (by decide)

end Ferrosync
