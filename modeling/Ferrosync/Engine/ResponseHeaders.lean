import Ferrosync.Engine.Sender
import Ferrosync.Engine.ReceiveFile
import Ferrosync.Codec.DecoderSafety

set_option autoImplicit false

/-! # The headers of the sender's answers

A transfer is answered by NDX, item flags and signature head in front of the data, a notice without
a transfer by NDX and item flags. `read_iflags` takes the fields that two of the flags announce
from the stream. The echo of a notice writes them, the header of a transfer does not.

* `senderLoop_output`: the output of `sender_loop`, answer by answer;
* `response_headers_iff`: which answers are read back.
-/

namespace Ferrosync

open ByteStream Session

/-! ## Item flags with fields behind them -/

variable {iflags : Nat} {rest bs : List UInt8}

/-- The echo of item flags is read back, whatever they announce. -/
theorem WireFormat.reads_iflagsEcho (wf : WireFormat) (hlt : iflags < 2 ^ 16) :
    Reads wf.readIflags (wf.writeIflagsEcho iflags) (wf.seenIflags iflags) := by
  have hbasis : Reads (readBasisType iflags) (if iflags.testBit 11 then [0] else []) () := by
    unfold readBasisType
    split_ifs
    · exact (reads_byte 0).map
    · exact Reads.pure ()
  have hxname : Reads (readXname iflags) (if iflags.testBit 12 then writeVarint 0 else []) () := by
    unfold readXname
    split_ifs
    · refine (reads_varint (Nat.two_pow_pos 32)).bind_nil ?_
      simpa using (Reads.exact unexpectedEof []).map
    · exact Reads.pure ()
  unfold readIflags writeIflagsEcho seenIflags
  by_cases hwf : wf.hasIflags = true
  · simpa [hwf] using (reads_shortint hlt).bind (hbasis.bind hxname.map)
  · simpa [hwf] using Reads.pure 0

/-- Flags that announce a field make the reader take bytes that `write_iflags` has not written. -/
theorem WireFormat.readIflags_takes_more {wf : WireFormat} (hwf : wf.hasIflags = true) {n : Nat}
    (hlt : iflags < 2 ^ 16) (hbits : iflags.testBit 11 = true ∨ iflags.testBit 12 = true)
    {more : List UInt8} (h : wf.readIflags (wf.writeIflags iflags ++ more) = .ok (n, rest)) :
    rest.length < more.length := by
  unfold readIflags writeIflags at h
  rw [if_pos hwf, if_pos hwf, bind_ok (reads_shortint hlt more)] at h
  obtain ⟨_, mid, hbasis, h₁⟩ := bind_eq_ok h
  obtain ⟨_, mid', hxname, hpure⟩ := bind_eq_ok h₁
  obtain ⟨-, rfl⟩ := pure_eq_ok hpure
  have htame₁ : Tame Reported (readBasisType iflags) :=
    .ite (tame_byte.bind fun _ => .pure _) (.pure _)
  have htame₂ : Tame Reported (readXname iflags) :=
    .ite (tame_varint.bind fun _ => .ite (.fail ⟨_, rfl⟩) ((tame_exact _).bind fun _ => .pure _))
      (.pure _)
  have hle₁ := htame₁.length hbasis
  have hle₂ := htame₂.length hxname
  -- the basis type is a byte, the name at least its length
  rcases hbits with hbit | hbit
  · rw [readBasisType, if_pos hbit] at hbasis
    obtain ⟨b, mid₂, hbyte, hpure'⟩ := bind_eq_ok hbasis
    obtain ⟨-, rfl⟩ := pure_eq_ok hpure'
    exact lt_of_le_of_lt hle₂ (consumes_byte.length hbyte)
  · rw [readXname, if_pos hbit] at hxname
    obtain ⟨nameLen, mid₂, hvarint, hname⟩ := bind_eq_ok hxname
    have hle₃ : mid'.length ≤ mid₂.length := by
      refine Tame.length (E := Reported) ?_ hname
      exact .ite (.fail ⟨_, rfl⟩) ((tame_exact _).bind fun _ => .pure _)
    have hlt' := consumes_varint.length hvarint
    omega

/-- `read_sum_head` takes sixteen bytes and returns `i32` values. -/
theorem writeSumHead_length (head : SumHead) : (writeSumHead head).length = 16 := by
  simp [writeSumHead, writeInt]

/-- The header of a transfer is read back exactly if its flags announce nothing. -/
theorem reads_responseHeader_iff (wf : WireFormat) {state : NdxState} {ndx : Int} {head : SumHead}
    (hstate : state.Valid) (hndx : -2 ^ 31 < ndx ∧ ndx < 2 ^ 31) (hlt : iflags < 2 ^ 16)
    (hseen : wf.seenIflags iflags = iflags) (hhead : head.InRange) :
    Reads (readResponseHeader wf state)
        ((writeNdx ndx state wf.intCodec).1 ++ (wf.writeIflags iflags ++ writeSumHead head))
        ⟨ndx, (writeNdx ndx state wf.intCodec).2, iflags, head⟩ ↔
      iflags.testBit 11 = false ∧ iflags.testBit 12 = false := by
  constructor
  · intro hreads
    by_contra hbits
    have hbits : iflags.testBit 11 = true ∨ iflags.testBit 12 = true := by
      rwa [Decidable.not_and_iff_or_not, Bool.not_eq_false, Bool.not_eq_false] at hbits
    have hwf : wf.hasIflags = true := by
      by_contra hno
      rw [WireFormat.seenIflags, if_neg hno] at hseen
      subst hseen
      simp at hbits
    -- nothing follows the header, so the bytes taken by the flags are missing in its head
    have h := hreads []
    rw [List.append_nil, readResponseHeader, bind_ok (reads_ndx hstate hndx _)] at h
    obtain ⟨n, mid, hflags, h⟩ := bind_eq_ok h
    obtain ⟨head', rest, hread, -⟩ := bind_eq_ok h
    have hshort := WireFormat.readIflags_takes_more hwf hlt hbits hflags
    have hlen := (readSumHead_ok hread).2
    rw [writeSumHead_length] at hshort
    omega
  · rintro ⟨hbasis, hxname⟩
    have hiflags := wf.reads_iflags hlt hbasis hxname
    rw [hseen] at hiflags
    have h := reads_responseHeader wf hstate hndx (by rw [hseen]; exact hiflags) hhead
    rwa [hseen] at h

/-! ## What the sender has read -/

def Request.InRange (wf : WireFormat) : Request → Prop
  | .echo ndx iflags =>
    (0 ≤ ndx ∧ ndx < 2 ^ 31) ∧ iflags < 2 ^ 16 ∧ wf.seenIflags iflags = iflags
  | .transfer ndx iflags _ sums =>
    (0 ≤ ndx ∧ ndx < 2 ^ 31) ∧ (iflags < 2 ^ 16 ∧ wf.seenIflags iflags = iflags) ∧
      sums.head.InRange
  | _ => True

theorem WireFormat.readIflags_ok {wf : WireFormat} (h : wf.readIflags bs = .ok (iflags, rest)) :
    iflags < 2 ^ 16 ∧ wf.seenIflags iflags = iflags := by
  unfold readIflags at h
  by_cases hwf : wf.hasIflags = true
  · rw [if_pos hwf] at h
    obtain ⟨n, mid, hshort, h⟩ := bind_eq_ok h
    obtain ⟨_, mid₂, -, h⟩ := bind_eq_ok h
    obtain ⟨_, mid₃, -, hpure⟩ := bind_eq_ok h
    obtain ⟨rfl, -⟩ := pure_eq_ok hpure
    obtain ⟨bytes, mid₄, hexact, hpure⟩ := bind_eq_ok hshort
    obtain ⟨hlen, -⟩ := readExact_eq_ok hexact
    obtain ⟨rfl, -⟩ := pure_eq_ok hpure
    have hlt := ofLE_lt bytes
    rw [hlen] at hlt
    exact ⟨hlt, if_pos hwf⟩
  · rw [if_neg hwf] at h
    obtain ⟨rfl, -⟩ := pure_eq_ok h
    exact ⟨by decide, if_neg hwf⟩

theorem readNdxValue_lt {prev ndx : Int} {val : UInt8}
    (h : readNdxValueIn .wrapping prev val bs = .ok (ndx, rest)) : ndx < 2 ^ 31 := by
  unfold readNdxValueIn at h
  split_ifs at h
  · obtain ⟨hi, mid, -, h⟩ := bind_eq_ok h
    obtain ⟨lo, mid₂, -, h⟩ := bind_eq_ok h
    split_ifs at h
    · obtain ⟨b₀, mid₃, -, h⟩ := bind_eq_ok h
      obtain ⟨b₁, mid₄, -, hpure⟩ := bind_eq_ok h
      obtain ⟨rfl, -⟩ := pure_eq_ok hpure
      have h₀ := b₀.toNat_lt
      have h₁ := b₁.toNat_lt
      have hlo := lo.toNat_lt
      omega
    · obtain ⟨rfl, -⟩ := pure_eq_ok h
      exact (isI32_toI32 _).2
  · obtain ⟨rfl, -⟩ := pure_eq_ok h
    exact (isI32_toI32 _).2

theorem readNdx_lt {state state' : NdxState} {codec : IntCodec} {ndx : Int}
    (h : readNdx state codec bs = .ok ((ndx, state'), rest)) : ndx < 2 ^ 31 := by
  cases codec with
  | fixed =>
    obtain ⟨n, mid, hint, hpure⟩ := bind_eq_ok h
    obtain ⟨heq, -⟩ := pure_eq_ok hpure
    cases heq
    exact (readInt_ok hint).1.2
  -- the end marker, a negative number, or a difference to the last one
  | compact =>
    obtain ⟨val, mid, -, h⟩ := bind_eq_ok h
    split_ifs at h
    · obtain ⟨heq, -⟩ := pure_eq_ok h
      cases heq
      decide
    · obtain ⟨val', mid₂, -, h⟩ := bind_eq_ok h
      obtain ⟨n, mid₃, -, hpure⟩ := bind_eq_ok h
      obtain ⟨heq, -⟩ := pure_eq_ok hpure
      cases heq
      exact (isI32_toI32 _).2
    · obtain ⟨n, mid₂, hvalue, hpure⟩ := bind_eq_ok h
      obtain ⟨heq, -⟩ := pure_eq_ok hpure
      cases heq
      exact readNdxValue_lt hvalue

namespace Sender

variable {τ : Type}

variable {S : Sender τ} {rest input out : List UInt8} {r : Request} {pending : List (List UInt8)}
  {X : Externals}

theorem readSignatures_inRange {bs : List UInt8} {sums : SumStruct}
    (h : S.readSignatures bs = .ok (sums, rest)) : sums.head.InRange := by
  unfold readSignatures at h
  split_ifs at h
  · obtain ⟨head, mid, hhead, hpure⟩ := bind_eq_ok h
    obtain ⟨rfl, -⟩ := pure_eq_ok hpure
    exact (readSumHead_ok hhead).1
  · obtain ⟨head, mid, hhead, h⟩ := bind_eq_ok h
    split_ifs at h
    · cases h
    · cases h
    · obtain ⟨entries, mid₂, -, hpure⟩ := bind_eq_ok h
      obtain ⟨rfl, -⟩ := pure_eq_ok hpure
      exact (readSumHead_ok hhead).1

/-- Whatever bytes the sender reads, the values of the request are in range. -/
theorem readRequest_inRange {state state' : NdxState}
    (h : S.readRequest state input = .ok ((r, state'), rest)) : r.InRange S.wire := by
  obtain ⟨⟨ndx, st⟩, mid, hndx, h⟩ := bind_eq_ok h
  dsimp only at h
  split_ifs at h with hdone hneg
  · obtain ⟨heq, -⟩ := pure_eq_ok h
    cases heq
    trivial
  · obtain ⟨heq, -⟩ := pure_eq_ok h
    cases heq
    trivial
  have hrange : 0 ≤ ndx ∧ ndx < 2 ^ 31 := by
    unfold ndxDone at hdone
    exact ⟨by omega, readNdx_lt hndx⟩
  obtain ⟨iflags, mid₂, hflags, h⟩ := bind_eq_ok h
  obtain ⟨r', mid₃, hbody, hpure⟩ := bind_eq_ok h
  obtain ⟨heq, -⟩ := pure_eq_ok hpure
  cases heq
  unfold readBody at hbody
  -- only echoes and transfers carry values; the others are in range trivially
  cases hentry : S.entry? ndx with
  | none =>
    simp only [hentry] at hbody
    obtain ⟨rfl, -⟩ := pure_eq_ok hbody
    trivial
  | some e =>
    simp only [hentry] at hbody
    split_ifs at hbody
    · obtain ⟨rfl, -⟩ := pure_eq_ok hbody
      trivial
    · obtain ⟨rfl, -⟩ := pure_eq_ok hbody
      exact ⟨hrange, WireFormat.readIflags_ok hflags⟩
    · obtain ⟨rfl, -⟩ := pure_eq_ok hbody
      trivial
    · obtain ⟨sums, mid₄, hsums, hpure⟩ := bind_eq_ok hbody
      obtain ⟨rfl, -⟩ := pure_eq_ok hpure
      exact ⟨hrange, WireFormat.readIflags_ok hflags, readSignatures_inRange hsums⟩

/-- The requests that stand at the beginning of a stream, one after the other. -/
inductive Asked (S : Sender τ) : NdxState → List UInt8 → List Request → Prop
  | nil {state input} : Asked S state input []
  | cons {state state' input mid r rs}
      (hread : S.readRequest state input = .ok ((r, state'), mid)) (rest : Asked S state' mid rs) :
      Asked S state input (r :: rs)

/-! ## The answers -/

/-- What an answer begins with, and the index state behind it. -/
def replyTo (S : Sender τ) (state : NdxState) : Request → List UInt8 × NdxState
  | .done => writeNdx ndxDone state S.wire.intCodec
  | .skip => ([], state)
  | .count _ => ([], state)
  | .echo ndx iflags =>
    ((writeNdx ndx state S.wire.intCodec).1 ++ S.wire.writeIflagsEcho iflags,
      (writeNdx ndx state S.wire.intCodec).2)
  | .transfer ndx iflags _ sums =>
    (S.responseHeader state ndx iflags sums.head, (writeNdx ndx state S.wire.intCodec).2)

def replyData (X : Externals) (S : Sender τ) : Request → Except Failure (List UInt8)
  | .transfer _ _ e sums => S.fileData X e sums
  | _ => .ok []

/-- The bytes that answer a sequence of requests, with the sub-lists in between. -/
def output (X : Externals) (S : Sender τ) :
    List (List UInt8) → NdxState → List Request → Except Failure (List UInt8)
  | _, _, [] => .ok []
  | pending, state, r :: rs => do
    let data ← S.replyData X r
    let rest ← output X S pending.tail (S.replyTo state r).2 rs
    pure (pending.headD [] ++ ((S.replyTo state r).1 ++ (data ++ rest)))

theorem inject_output {u : Unit} (h : Fallible.Returns (inject pending) input out u rest) :
    out = pending.headD [] := by
  cases pending with
  | nil => exact (Fallible.Returns.pure_inv h).2.2
  | cons bs pending =>
    cases bs with
    | nil => exact (Fallible.Returns.pure_inv h).2.2
    | cons b bs => exact (Fallible.Returns.send_inv h).2

/-- An answer with which the loop goes on. -/
theorem answer_inl_output {v v' : SenderVars}
    (h : Fallible.Returns (S.answer X v r) input out (.inl v') rest) :
    v'.genState = v.genState ∧ v'.pending = v.pending ∧ v'.sendState = (S.replyTo v.sendState r).2 ∧
      ∃ data, S.replyData X r = .ok data ∧ out = (S.replyTo v.sendState r).1 ++ data := by
  cases r with
  | done =>
    unfold answer at h
    split_ifs at h
    · cases (Fallible.Returns.pure_inv h).1
    · obtain ⟨u, mid, out₁, out₂, hsend, hpure, rfl⟩ := Fallible.Returns.bind_inv h
      obtain ⟨rfl, rfl⟩ := Fallible.Returns.send_inv hsend
      obtain ⟨hv, rfl, rfl⟩ := Fallible.Returns.pure_inv hpure
      cases hv
      exact ⟨rfl, rfl, rfl, [], rfl, rfl⟩
  | skip | count =>
    obtain ⟨hv, rfl, rfl⟩ := Fallible.Returns.pure_inv h
    cases hv
    exact ⟨rfl, rfl, rfl, [], rfl, rfl⟩
  | echo ndx iflags =>
    obtain ⟨u, mid, out₁, out₂, hsend, hpure, rfl⟩ := Fallible.Returns.bind_inv h
    obtain ⟨rfl, rfl⟩ := Fallible.Returns.send_inv hsend
    obtain ⟨hv, rfl, rfl⟩ := Fallible.Returns.pure_inv hpure
    cases hv
    exact ⟨rfl, rfl, rfl, [], rfl, rfl⟩
  -- header, file, end: the output is the header of the reply and then the data
  | transfer ndx iflags e sums =>
    obtain ⟨u, mid₁, out₁, out₂, hhead, h₁, rfl⟩ := Fallible.Returns.bind_inv h
    obtain ⟨data, mid₂, out₃, out₄, hdata, h₂, rfl⟩ := Fallible.Returns.bind_inv h₁
    obtain ⟨u', mid₃, out₅, out₆, hsend, hpure, rfl⟩ := Fallible.Returns.bind_inv h₂
    obtain ⟨rfl, rfl⟩ := Fallible.Returns.send_inv hhead
    obtain ⟨hfile, rfl, rfl⟩ := Fallible.Returns.lift_inv hdata
    obtain ⟨rfl, rfl⟩ := Fallible.Returns.send_inv hsend
    obtain ⟨hv, rfl, rfl⟩ := Fallible.Returns.pure_inv hpure
    cases hv
    exact ⟨rfl, rfl, rfl, _, hfile, by rw [List.append_nil]; rfl⟩

theorem answer_inr_output {v v' : SenderVars}
    (h : Fallible.Returns (S.answer X v r) input out (.inr v') rest) :
    r = .done ∧ v'.sendState = v.sendState ∧ out = [] := by
  cases r with
  | done =>
    unfold answer at h
    split_ifs at h
    · obtain ⟨hv, -, rfl⟩ := Fallible.Returns.pure_inv h
      cases hv
      exact ⟨rfl, rfl, rfl⟩
    · obtain ⟨u, mid, out₁, out₂, -, hpure, -⟩ := Fallible.Returns.bind_inv h
      cases (Fallible.Returns.pure_inv hpure).1
  | skip | count => cases (Fallible.Returns.pure_inv h).1
  | echo ndx iflags =>
    obtain ⟨u, mid, out₁, out₂, -, hpure, -⟩ := Fallible.Returns.bind_inv h
    cases (Fallible.Returns.pure_inv hpure).1
  | transfer ndx iflags e sums =>
    obtain ⟨u, mid₁, out₁, out₂, -, h, -⟩ := Fallible.Returns.bind_inv h
    obtain ⟨data, mid₂, out₃, out₄, -, h, -⟩ := Fallible.Returns.bind_inv h
    obtain ⟨u', mid₃, out₅, out₆, -, hpure, -⟩ := Fallible.Returns.bind_inv h
    cases (Fallible.Returns.pure_inv hpure).1

/-- An iteration writes a pending sub-list, reads a request and answers it. -/
theorem iteration_parts {v : SenderVars} {x : SenderVars ⊕ SenderVars}
    (h : Fallible.Returns (S.iteration X v) input out x rest) :
    ∃ r genState answered, S.readRequest v.genState input = .ok ((r, genState), rest) ∧
      Fallible.Returns
        (S.answer X { v with pending := v.pending.tail, genState := genState } r) rest answered x
        rest ∧
      out = v.pending.headD [] ++ answered := by
  obtain ⟨u, mid₁, out₁, out₂, hinject, h₁, rfl⟩ := Fallible.Returns.bind_inv h
  obtain ⟨⟨r, genState⟩, mid₂, out₃, out₄, hrecv, h₂, rfl⟩ := Fallible.Returns.bind_inv h₁
  obtain rfl := inject_inv hinject
  obtain rfl := inject_output hinject
  obtain ⟨hread, rfl⟩ := Fallible.Returns.recv_inv hrecv
  obtain ⟨rfl, -⟩ := answer_inv h₂
  exact ⟨r, genState, out₄, hread, h₂, rfl⟩

/-- **The output of `sender_loop`**, answer by answer. -/
theorem senderLoop_output {sent : List FileEntry}
    (h : Fallible.Returns (S.senderLoop X pending) input out sent rest) :
    ∃ rs, Asked S .default input rs ∧ S.output X pending .default rs = .ok out := by
  obtain ⟨v, mid₁, out₁, out₂, hloop, h₁, rfl⟩ := Fallible.Returns.bind_inv h
  obtain ⟨u, mid₂, out₃, out₄, hlast, hpure, rfl⟩ := Fallible.Returns.bind_inv h₁
  obtain ⟨-, rfl⟩ := Fallible.Returns.send_inv hlast
  obtain ⟨-, -, rfl⟩ := Fallible.Returns.pure_inv hpure
  rw [List.append_nil]
  -- the last `NDX_DONE` is behind the loop, so it is part of what the induction is about
  refine Fallible.Returns.loop_induction (P := fun s input out v _ => ∃ rs,
    Asked S s.genState input rs ∧ S.output X s.pending s.sendState rs =
      .ok (out ++ (writeNdx ndxDone v.sendState S.wire.intCodec).1)) ?_ ?_ hloop
  · intro s input out v rest hbody
    obtain ⟨r, genState, answered, hread, hanswer, rfl⟩ := iteration_parts hbody
    obtain ⟨rfl, hstate, rfl⟩ := answer_inr_output hanswer
    refine ⟨[.done], .cons hread .nil, ?_⟩
    rw [hstate]
    simp [output, replyData, replyTo]
  · intro s s' input mid out out' v rest hbody ih
    obtain ⟨rs, hasked, hrest⟩ := ih
    obtain ⟨r, genState, answered, hread, hanswer, rfl⟩ := iteration_parts hbody
    obtain ⟨hgen, hpending, hstate, data, hdata, rfl⟩ := answer_inl_output hanswer
    rw [hgen] at hasked
    rw [hpending, hstate] at hrest
    refine ⟨r :: rs, .cons hread hasked, ?_⟩
    simp [output, hdata, Loop.ok_bind, hrest]

/-! ## Reading them -/

/-- An echo as the receiver reads it: index, index state and item flags. -/
def readEcho (wf : WireFormat) (state : NdxState) : Wire (Int × NdxState × Nat) := do
  let (ndx, state) ← readNdx state wf.intCodec
  let iflags ← wf.readIflags
  pure (ndx, state, iflags)

/-- What the answer to a request begins with is read back, up to its last byte. -/
def ReadBack (S : Sender τ) (state : NdxState) (r : Request) : Prop :=
  match r with
  | .done => Reads (readNdx state S.wire.intCodec) (S.replyTo state r).1
      (ndxDone, (S.replyTo state r).2)
  | .skip => True
  | .count _ => True
  | .echo ndx iflags => Reads (readEcho S.wire state) (S.replyTo state r).1
      (ndx, (S.replyTo state r).2, iflags)
  | .transfer ndx iflags _ sums => Reads (readResponseHeader S.wire state) (S.replyTo state r).1
      ⟨ndx, (S.replyTo state r).2, iflags, responseHead sums.head⟩

/-- All answers are read back, by a receiver that goes through the same index states. -/
def HeadersRead (S : Sender τ) : NdxState → List Request → Prop
  | _, [] => True
  | state, r :: rs => S.ReadBack state r ∧ HeadersRead S (S.replyTo state r).2 rs

end Sender

/-- The item flags of a transfer announce neither a basis type nor a name. -/
def Request.Plain : Request → Prop
  | .transfer _ iflags _ _ => iflags.testBit 11 = false ∧ iflags.testBit 12 = false
  | _ => True

namespace Sender

variable {τ : Type}

variable {S : Sender τ} {state : NdxState} {rs : List Request}

theorem valid_replyTo {r : Request} (hstate : state.Valid) (hr : r.InRange S.wire) :
    (S.replyTo state r).2.Valid := by
  cases r with
  | done => exact hstate.writeNdx (by decide)
  | skip | count => exact hstate
  | echo ndx iflags =>
    obtain ⟨⟨hlow, hhigh⟩, -⟩ := hr
    exact hstate.writeNdx ⟨by omega, hhigh⟩
  | transfer ndx iflags e sums =>
    obtain ⟨⟨hlow, hhigh⟩, -⟩ := hr
    exact hstate.writeNdx ⟨by omega, hhigh⟩

theorem readBack_iff {r : Request} (hstate : state.Valid) (hr : r.InRange S.wire) :
    S.ReadBack state r ↔ r.Plain := by
  cases r with
  | done => exact iff_of_true (reads_ndx hstate (by decide)) trivial
  | skip | count => exact Iff.rfl
  | echo ndx iflags =>
    obtain ⟨⟨hlow, hhigh⟩, hlt, hseen⟩ := hr
    refine iff_of_true ?_ trivial
    have hflags := S.wire.reads_iflagsEcho hlt
    rw [hseen] at hflags
    exact (reads_ndx hstate ⟨by omega, hhigh⟩).bind hflags.map
  | transfer ndx iflags e sums =>
    obtain ⟨⟨hlow, hhigh⟩, ⟨hlt, hseen⟩, hhead⟩ := hr
    refine reads_responseHeader_iff S.wire hstate ⟨by omega, hhigh⟩ hlt hseen ?_
    unfold responseHead
    split_ifs
    · decide
    · exact hhead

/-- Induction on the requests: both sides keep the same valid index state. -/
theorem headersRead_iff (hrs : ∀ r ∈ rs, r.InRange S.wire) :
    ∀ {state : NdxState}, state.Valid → (S.HeadersRead state rs ↔ ∀ r ∈ rs, r.Plain) := by
  induction rs with
  | nil => exact fun _ => iff_of_true trivial (List.forall_mem_nil _)
  | cons r rs ih =>
    intro state hstate
    have hr := hrs r List.mem_cons_self
    simp [HeadersRead, readBack_iff hstate hr, ih (fun r hr => hrs r (List.mem_cons_of_mem _ hr)) (valid_replyTo hstate hr)]

theorem Asked.inRange {input : List UInt8} (h : Asked S state input rs) :
    ∀ r ∈ rs, r.InRange S.wire := by
  induction h with
  | nil => exact List.forall_mem_nil _
  | cons hread _ ih =>
    intro r hr
    rcases List.mem_cons.mp hr with rfl | hr
    · exact readRequest_inRange hread
    · exact ih r hr

/-- **Which headers are read back**: whatever requests the stream of the generator begins with, all
answers to them are read back exactly if no transfer has item flags that announce a field; and the
output of `sender_loop` consists of these answers. -/
theorem response_headers_iff (X : Externals) (S : Sender τ) (input : List UInt8) :
    (∀ rs, Asked S .default input rs → (S.HeadersRead .default rs ↔ ∀ r ∈ rs, r.Plain)) ∧
      ∀ pending out sent rest, Fallible.Returns (S.senderLoop X pending) input out sent rest →
        ∃ rs, Asked S .default input rs ∧ S.output X pending .default rs = .ok out :=
  ⟨fun _ hasked => headersRead_iff hasked.inRange NdxState.valid_default,
    fun _ _ _ _ hrun => senderLoop_output hrun⟩

end Sender

def thirtyFile : FileEntry := { FileEntry.default with name := [0x66], mode := sIfreg }

def thirtyPush : Sender Unit where
  wire := .new 30 0
  ctx := ⟨0, .md5, 0, true, none⟩
  entries := [thirtyFile]
  ndxs := [0]
  source _ := []
  willing _ _ := 0
  tokens := plainTokenWriter
  tokensStart := .ok ()
  dryRun := false
  appendMode := false
  ndxs_length := by decide

/-- A notice with both fields behind its flags, and a transfer. -/
theorem response_headers_read :
    thirtyPush.HeadersRead .default
      [.echo 0 0x1800, .transfer 0 0x8000 thirtyFile ⟨.default, []⟩] := by
  have hnotice : thirtyPush.readRequest .default
      ([0x01, 0x00, 0x18, 0x02, 0x01, 0x78, 0xFE, 0x00, 0x00, 0x00, 0x80] ++ List.replicate 16 0) =
      .ok ((.echo 0 0x1800, ⟨0, 1⟩),
        [0xFE, 0x00, 0x00, 0x00, 0x80] ++ List.replicate 16 0) := by
    decide +kernel
  have htransfer : thirtyPush.readRequest ⟨0, 1⟩
      ([0xFE, 0x00, 0x00, 0x00, 0x80] ++ List.replicate 16 0) =
      .ok ((.transfer 0 0x8000 thirtyFile ⟨.default, []⟩, ⟨0, 1⟩), []) := by
    decide +kernel
  refine ((Sender.response_headers_iff padExternals thirtyPush _).1 _
    (.cons hnotice (.cons htransfer .nil))).mpr ?_
  intro r hr
  fin_cases hr
  · trivial
  · exact ⟨by decide, by decide⟩

/-- A transfer whose flags announce a basis type: the receiver misses a byte of the head. -/
theorem response_header_misread :
    thirtyPush.readRequest .default ([0x01, 0x00, 0x88, 0x02] ++ List.replicate 16 0) =
      .ok ((.transfer 0 0x8800 thirtyFile ⟨.default, []⟩, ⟨0, 1⟩), []) ∧
    (readResponseHeader thirtyPush.wire .default
      (thirtyPush.responseHeader .default 0 0x8800 .default)).toOption.isNone = true := by
  constructor <;> decide +kernel

end Ferrosync
