import Ferrosync.Types

set_option autoImplicit false

/-! # Integers on the wire

The encodings of `varint.rs`: fixed-width integers, the prefix-coded `varint`, and the
delta-coded file indices (NDX). Every writer is a function from the value to the bytes it
appends; every reader is a `Wire` reader, and the two are tied by a `Reads` law.
-/

namespace Ferrosync

open ByteStream

def readByte : Wire UInt8 := do
  let b ← readExact unexpectedEof 1
  pure (b.headD 0)

/-- `read_shortint`: two bytes, little-endian, unsigned. -/
def readShortint : Wire Nat := do
  let b ← readExact unexpectedEof 2
  pure (ofLE b)

def writeShortint (val : Nat) : List UInt8 := leBytes 2 val

/-- A `u32` in little-endian order, as `u32::from_le_bytes` after `read_exact`. -/
def readU32 : Wire UInt32 := do
  let b ← readExact unexpectedEof 4
  pure (UInt32.ofNat (ofLE b))

/-- `u32::to_le_bytes`. -/
def writeU32 (val : UInt32) : List UInt8 := leBytes 4 val.toNat

/-- `read_int`: four bytes, little-endian, signed. -/
def readInt : Wire Int := do
  let b ← readExact unexpectedEof 4
  pure (toI32 (ofLE b))

def writeInt (val : Int) : List UInt8 := leBytes 4 (val % 2 ^ 32).toNat

@[simp] theorem writeInt_length (val : Int) : (writeInt val).length = 4 := leBytes_length _ _

theorem reads_byte (b : UInt8) : Reads readByte [b] b :=
  (Reads.exact_of_length (n := 1) rfl).map

theorem readByte_cons (b : UInt8) (bs : List UInt8) : readByte (b :: bs) = .ok (b, bs) :=
  reads_byte b bs

theorem reads_shortint {val : Nat} (h : val < 2 ^ 16) :
    Reads readShortint (writeShortint val) val := by
  have hread : Reads readShortint (writeShortint val) (ofLE (writeShortint val)) :=
    (Reads.exact_of_length (leBytes_length 2 val)).map
  exact hread.congr rfl (ofLE_leBytes_of_lt (by simpa using h))

theorem reads_u32 (val : UInt32) : Reads readU32 (writeU32 val) val := by
  have hread : Reads readU32 (writeU32 val) (UInt32.ofNat (ofLE (writeU32 val))) :=
    (Reads.exact_of_length (leBytes_length 4 val.toNat)).map
  refine hread.congr rfl ?_
  have hlt : val.toNat < 256 ^ 4 := val.toNat_lt
  rw [writeU32, ofLE_leBytes_of_lt hlt, UInt32.ofNat_toNat]

theorem reads_int {val : Int} (h : IsI32 val) : Reads readInt (writeInt val) val := by
  have hread : Reads readInt (writeInt val) (toI32 (ofLE (writeInt val))) :=
    (Reads.exact_of_length (leBytes_length 4 _)).map
  refine hread.congr rfl ?_
  have hlt : (val % 2 ^ 32).toNat < 256 ^ 4 := by omega
  rw [writeInt, ofLE_leBytes_of_lt hlt]
  obtain ⟨h₁, h₂⟩ := h
  unfold toI32
  rw [Int.bmod_def]
  split <;> omega

theorem stable_byte : Stable unexpectedEof readByte :=
  (Stable.exact 1).bind fun _ => Stable.pure _

theorem stable_shortint : Stable unexpectedEof readShortint :=
  (Stable.exact 2).bind fun _ => Stable.pure _

theorem stable_u32 : Stable unexpectedEof readU32 :=
  (Stable.exact 4).bind fun _ => Stable.pure _

theorem stable_int : Stable unexpectedEof readInt :=
  (Stable.exact 4).bind fun _ => Stable.pure _

/-- What `read_int` returns is an `i32`, and it has consumed four bytes. -/
theorem readInt_ok {bs rest : List UInt8} {val : Int} (h : readInt bs = .ok (val, rest)) :
    IsI32 val ∧ rest.length + 4 = bs.length := by
  obtain ⟨b, mid, hread, hpure⟩ := bind_eq_ok h
  obtain ⟨hlen, rfl⟩ := readExact_eq_ok hread
  obtain ⟨rfl, rfl⟩ := pure_eq_ok hpure
  refine ⟨isI32_toI32 _, ?_⟩
  rw [List.length_append]
  omega

/-! ## Compact varints -/

/-- `INT_BYTE_EXTRA`: the number of bytes that follow a first byte, indexed by `first / 4`. -/
def intByteExtra : List Nat :=
  List.replicate 32 0 ++ List.replicate 16 1 ++ List.replicate 8 2 ++ List.replicate 4 3 ++
    [4, 4, 5, 6]

def invalidVarint (detail : String) : Failure := .protocol (.invalidVarint detail)

def readVarint : Wire Nat := do
  let ch ← readByte
  let extra := intByteExtra.getD (ch.toNat / 4) 0
  if extra = 0 then pure ch.toNat
  else if extra > 4 then Reader.fail (invalidVarint "extra bytes exceed 4")
  else do
    let b ← readExact unexpectedEof extra
    -- with four extra bytes the first one carries no data bits
    let top := if extra < 4 then ch.toNat % 2 ^ (8 - extra) else 0
    pure (ofLE b + top * 256 ^ extra)

/-- The index of the highest non-zero byte of a `u32`, counted from one. -/
def varintCount (x : Nat) : Nat :=
  if x < 2 ^ 8 then 1 else if x < 2 ^ 16 then 2 else if x < 2 ^ 24 then 3 else 4

def writeVarint (x : Nat) : List UInt8 :=
  let cnt := varintCount x
  let bit := 2 ^ (8 - cnt)
  let top := x / 256 ^ (cnt - 1) % 256
  if top ≥ bit then UInt8.ofNat (256 - bit) :: leBytes cnt x
  else if cnt > 1 then UInt8.ofNat (top + (256 - 2 * bit)) :: leBytes (cnt - 1) x
  else [UInt8.ofNat x]

theorem stable_varint : Stable unexpectedEof readVarint := by
  refine stable_byte.bind fun ch => ?_
  refine Stable.ite (Stable.pure _) (Stable.ite (Stable.fail _) ?_)
  exact (Stable.exact _).bind fun _ => Stable.pure _

/-! ## File indices -/

inductive IntCodec where
  | fixed
  | compact
  deriving DecidableEq, Repr

structure NdxState where
  prevPositive : Int
  prevNegative : Int
  deriving DecidableEq, Repr

def NdxState.default : NdxState := ⟨-1, 1⟩

def ndxDone : Int := -1

/-! The two functions are written once, with the `i32` arithmetic left open: the release build wraps
around, and a build with overflow checks panics. -/

/-- The value behind the byte `val` of a compact index, relative to `prev`. -/
def readNdxValueIn (b : Build) (prev : Int) (val : UInt8) : Wire Int :=
  if val = 0xFE then do
    let hi ← readByte
    let lo ← readByte
    if hi &&& (0x80 : UInt8) ≠ 0 then do
      let b₀ ← readByte
      let b₁ ← readByte
      -- four bytes, absolute
      pure ((hi.toNat % 128 * 2 ^ 24 + b₁.toNat * 2 ^ 16 + b₀.toNat * 2 ^ 8 + lo.toNat : Nat) : Int)
    else Reader.lift (b.i32 (prev + (hi.toNat * 256 + lo.toNat : Nat)))
  else Reader.lift (b.i32 (prev + val.toNat))

/-- `read_ndx` in the compact codec. -/
def readNdxCompactIn (b : Build) (state : NdxState) : Wire (Int × NdxState) := do
  let val ← readByte
  if val = 0 then pure (ndxDone, state)
  else if val = 0xFF then do
    let val ← readByte
    let ndx ← readNdxValueIn b state.prevNegative val
    let neg ← Reader.lift (b.i32 (-ndx))
    pure (neg, { state with prevNegative := ndx })
  else do
    let ndx ← readNdxValueIn b state.prevPositive val
    pure (ndx, { state with prevPositive := ndx })

def readNdxIn (b : Build) (state : NdxState) : IntCodec → Wire (Int × NdxState)
  | .fixed => do
    let ndx ← readInt
    pure (ndx, state)
  | .compact => readNdxCompactIn b state

/-- `read_ndx` of the release build. -/
def readNdx (state : NdxState) (codec : IntCodec) : Wire (Int × NdxState) :=
  readNdxIn .wrapping state codec

section WriteNdx

variable {m : Type → Type} [Monad m] (i32 : Int → m Int)

/-- The bytes of a non-negative index relative to `prev`. -/
def writeNdxValueWith (prev absNdx : Int) : m (List UInt8) := do
  let diff ← i32 (absNdx - prev)
  if 0 < diff ∧ diff < 0xFE then pure [UInt8.ofNat diff.toNat]
  else if 0 ≤ diff ∧ diff ≤ 0x7FFF then
    pure [0xFE, UInt8.ofNat (diff.toNat / 256), UInt8.ofNat diff.toNat]
  else
    let n := (absNdx % 2 ^ 32).toNat
    pure [0xFE, UInt8.ofNat (n / 2 ^ 24) ||| (0x80 : UInt8), UInt8.ofNat n, UInt8.ofNat (n / 2 ^ 8),
      UInt8.ofNat (n / 2 ^ 16)]

def writeNdxWith (ndx : Int) (state : NdxState) : IntCodec → m (List UInt8 × NdxState)
  | .fixed => pure (writeInt ndx, state)
  | .compact =>
    if ndx = ndxDone then pure ([0], state)
    else if ndx < 0 then do
      let absNdx ← i32 (-ndx)
      let bytes ← writeNdxValueWith i32 state.prevNegative absNdx
      pure (0xFF :: bytes, { state with prevNegative := absNdx })
    else do
      let bytes ← writeNdxValueWith i32 state.prevPositive ndx
      pure (bytes, { state with prevPositive := ndx })

end WriteNdx

def writeNdxIn (b : Build) (ndx : Int) (state : NdxState) (codec : IntCodec) :
    Except Failure (List UInt8 × NdxState) :=
  writeNdxWith b.i32 ndx state codec

/-- `write_ndx` of the release build, which cannot fail. -/
def writeNdx (ndx : Int) (state : NdxState) (codec : IntCodec) : List UInt8 × NdxState :=
  Id.run (writeNdxWith toI32 ndx state codec)

theorem writeNdxValueWith_wrapping (prev absNdx : Int) :
    writeNdxValueWith Build.wrapping.i32 prev absNdx =
      .ok (writeNdxValueWith (m := Id) toI32 prev absNdx) := by
  show (if _ then _ else _) = Except.ok (if _ then _ else _)
  split_ifs <;> rfl

theorem writeNdxIn_wrapping (ndx : Int) (state : NdxState) (codec : IntCodec) :
    writeNdxIn .wrapping ndx state codec = .ok (writeNdx ndx state codec) := by
  cases codec with
  | fixed => rfl
  | compact =>
    unfold writeNdxIn writeNdx writeNdxWith
    split_ifs with hdone hneg
    · rfl
    · show (writeNdxValueWith Build.wrapping.i32 state.prevNegative (toI32 (-ndx)) >>= _) = _
      rw [writeNdxValueWith_wrapping]
      rfl
    · rw [writeNdxValueWith_wrapping]
      rfl

/-! ## The laws of the index codec -/

/-- The states a codec reaches: both previous values are ones an index can have. -/
structure NdxState.Valid (state : NdxState) : Prop where
  positive : -1 ≤ state.prevPositive ∧ state.prevPositive < 2 ^ 31
  negative : 0 ≤ state.prevNegative ∧ state.prevNegative < 2 ^ 31

theorem NdxState.valid_default : NdxState.default.Valid := ⟨by decide, by decide⟩

/-- The states from which a build computes with indices: a difference to one of the previous
values must fit if it is checked. -/
structure NdxState.Fits (b : Build) (state : NdxState) : Prop where
  positive : IsI32 state.prevPositive
  negative : IsI32 state.prevNegative
  checked : b = .checked → -1 ≤ state.prevPositive ∧ -1 ≤ state.prevNegative

variable {state : NdxState} {codec : IntCodec}

theorem NdxState.Valid.fits (h : state.Valid) (b : Build) : state.Fits b where
  positive := ⟨by linarith [h.positive.1], h.positive.2⟩
  negative := ⟨by linarith [h.negative.1], h.negative.2⟩
  checked := fun _ => ⟨h.positive.1, by linarith [h.negative.1]⟩

/-- A property of a byte holds if it holds of each of the 256 numbers. -/
theorem byte_cases {P : UInt8 → Prop} (h : ∀ n : Fin 256, P (UInt8.ofFin n)) (b : UInt8) : P b :=
  h b.toFin

theorem and_high_ne_zero (b : UInt8) : b &&& (0x80 : UInt8) ≠ 0 ↔ 128 ≤ b.toNat := by
  revert b
  refine byte_cases ?_
  decide +kernel

theorem toNat_or_high (b : UInt8) (h : b.toNat < 128) :
    (b ||| (0x80 : UInt8)).toNat = b.toNat + 128 := by
  revert b
  refine byte_cases ?_
  decide +kernel

section NdxValue

variable {b : Build} {prev ndx : Int}

theorem Reads.lift_ok {x : Int} (h : b.i32 x = .ok ndx) :
    Reads (Reader.lift (b.i32 x) : Wire Int) [] ndx := by
  rw [h]
  exact fun _ => rfl

theorem reads_ndxValue_byte {val : UInt8} (hval : val ≠ 0xFE)
    (h : b.i32 (prev + val.toNat) = .ok ndx) : Reads (readNdxValueIn b prev val) [] ndx := by
  rw [readNdxValueIn, if_neg hval]
  exact Reads.lift_ok h

/-- A larger difference follows the mark in two bytes. -/
theorem reads_ndxValue_diff {hi lo : UInt8} (hhi : hi.toNat < 128)
    (h : b.i32 (prev + (hi.toNat * 256 + lo.toNat : Nat)) = .ok ndx) :
    Reads (readNdxValueIn b prev 0xFE) [hi, lo] ndx := by
  refine (reads_byte hi).bind (c := [lo]) ((reads_byte lo).bind_nil ?_)
  rw [if_neg (by rw [and_high_ne_zero]; omega)]
  exact Reads.lift_ok h

/-- An absolute index follows the mark in four bytes, the first with its high bit set. -/
theorem reads_ndxValue_absolute {hi lo b₀ b₁ : UInt8} (hhi : hi.toNat < 128)
    (h : ((hi.toNat * 2 ^ 24 + b₁.toNat * 2 ^ 16 + b₀.toNat * 2 ^ 8 + lo.toNat : Nat) : Int) =
      ndx) :
    Reads (readNdxValueIn b prev 0xFE) [hi ||| (0x80 : UInt8), lo, b₀, b₁] ndx := by
  have hor := toNat_or_high hi hhi
  refine (reads_byte _).bind (c := [lo, b₀, b₁]) ((reads_byte lo).bind (c := [b₀, b₁]) ?_)
  rw [if_pos (by rw [and_high_ne_zero]; omega)]
  refine ((reads_byte b₀).bind (c := [b₁]) (reads_byte b₁).map).congr rfl ?_
  rw [hor, Nat.add_mod_right, Nat.mod_eq_of_lt hhi]
  exact h

/-- What `write_ndx` writes for a value never begins with a byte that has a meaning of its
own. -/
theorem reads_ndxValue {diff : Int} (hdiff : b.i32 (ndx - prev) = .ok diff)
    (hndx : 0 ≤ ndx ∧ ndx < 2 ^ 31) :
    ∃ val bs, writeNdxValueWith b.i32 prev ndx = .ok (val :: bs) ∧ val ≠ 0 ∧ val ≠ 0xFF ∧
      Reads (readNdxValueIn b prev val) bs ndx := by
  have hsum : b.i32 (prev + diff) = .ok ndx :=
    Build.i32_add_of_sub ⟨by omega, hndx.2⟩ hdiff
  unfold writeNdxValueWith
  rw [hdiff]
  simp only [bind, Except.bind]
  split_ifs with hbyte htwo
  · -- the difference fits the byte
    obtain ⟨n, rfl⟩ := Int.eq_ofNat_of_zero_le hbyte.1.le
    have hn : n < 256 := by omega
    have hval : (UInt8.ofNat n).toNat = n := by rw [UInt8.toNat_ofNat', Nat.mod_eq_of_lt hn]
    refine ⟨_, _, rfl, ?_, ?_, reads_ndxValue_byte ?_ ?_⟩
    · rw [Int.toNat_natCast, ← UInt8.toNat_inj.ne]; simp; omega
    · rw [Int.toNat_natCast, ← UInt8.toNat_inj.ne]; simp; omega
    · rw [Int.toNat_natCast, ← UInt8.toNat_inj.ne]; simp; omega
    · simpa [hval] using hsum
  · obtain ⟨n, rfl⟩ := Int.eq_ofNat_of_zero_le htwo.1
    refine ⟨_, _, rfl, by decide, by decide, reads_ndxValue_diff ?_ ?_⟩
    · simp
      omega
    · rw [Int.toNat_natCast, UInt8.toNat_ofNat', UInt8.toNat_ofNat',
        show n / 256 % 2 ^ 8 * 256 + n % 2 ^ 8 = n by omega]
      exact hsum
  · refine ⟨_, _, rfl, by decide, by decide, reads_ndxValue_absolute ?_ ?_⟩
    · rw [UInt8.toNat_ofNat']; omega
    · simp only [UInt8.toNat_ofNat']; omega

end NdxValue

/-- In either build `read_ndx` reads what `write_ndx` wrote, and both end in the same state, from
which they go on. -/
theorem reads_ndxIn {b : Build} {ndx : Int} (hstate : state.Fits b)
    (hndx : -2 ^ 31 < ndx ∧ ndx < 2 ^ 31)
    (hlarge : b = .checked → -(2 ^ 31 - 2) ≤ ndx ∧ ndx ≤ 2 ^ 31 - 2) :
    ∃ bytes state', writeNdxIn b ndx state codec = .ok (bytes, state') ∧ state'.Fits b ∧
      Reads (readNdxIn b state codec) bytes (ndx, state') := by
  -- a difference fits, or wraps around
  have hdiff : ∀ {x prev : Int}, IsI32 prev → (b = .checked → -1 ≤ prev) → 0 ≤ x ∧ x < 2 ^ 31 →
      (b = .checked → x ≤ 2 ^ 31 - 2) → ∃ diff, b.i32 (x - prev) = .ok diff := by
    intro x prev hprev hlow hx hhigh
    cases b with
    | checked =>
      obtain ⟨-, hprev'⟩ := hprev
      exact ⟨_, Build.i32_eq ⟨by omega, by linarith [hlow rfl, hhigh rfl]⟩⟩
    | wrapping => exact ⟨_, rfl⟩
  cases codec with
  | fixed => exact ⟨_, _, rfl, hstate, (reads_int ⟨hndx.1.le, hndx.2⟩).map⟩
  | compact =>
    unfold writeNdxIn writeNdxWith readNdxIn readNdxCompactIn
    split_ifs with hdone hneg
    · subst hdone
      exact ⟨_, _, rfl, hstate, (reads_byte 0).bind_nil (Reads.pure _)⟩
    · have habs : b.i32 (-ndx) = .ok (-ndx) := Build.i32_eq ⟨by omega, by omega⟩
      obtain ⟨diff, hdiff'⟩ := hdiff hstate.negative (fun hb => (hstate.checked hb).2)
        (x := -ndx) ⟨by omega, by omega⟩ (fun hb => by linarith [(hlarge hb).1])
      obtain ⟨val, bs, hbytes, -, -, hread⟩ := reads_ndxValue hdiff' ⟨by omega, by omega⟩
      rw [habs]
      refine ⟨0xFF :: val :: bs, { state with prevNegative := -ndx }, ?_, ?_, ?_⟩
      · simp [hbytes]
      · exact ⟨hstate.positive, ⟨by simp only; omega, by simp only; omega⟩,
          fun hb => ⟨(hstate.checked hb).1, by simp only; omega⟩⟩
      · refine (reads_byte 0xFF).bind (c := val :: bs) ((reads_byte val).bind (c := bs) ?_)
        refine hread.bind_nil ?_
        have hneg' : b.i32 (- -ndx) = .ok ndx := by
          rw [neg_neg]
          exact Build.i32_eq ⟨hndx.1.le, hndx.2⟩
        exact (Reads.lift_ok hneg').map
    · obtain ⟨diff, hdiff'⟩ := hdiff hstate.positive (fun hb => (hstate.checked hb).1)
        ⟨not_lt.mp hneg, hndx.2⟩ (fun hb => (hlarge hb).2)
      obtain ⟨val, bs, hbytes, hzero, hff, hread⟩ :=
        reads_ndxValue hdiff' ⟨not_lt.mp hneg, hndx.2⟩
      rw [hbytes]
      refine ⟨val :: bs, { state with prevPositive := ndx }, rfl, ?_, ?_⟩
      · exact ⟨⟨hndx.1.le, hndx.2⟩, hstate.negative,
          fun hb => ⟨by simp only; omega, (hstate.checked hb).2⟩⟩
      · refine (reads_byte val).bind (c := bs) ?_
        rw [if_neg hzero, if_neg hff]
        exact hread.map (g := fun n => (n, { state with prevPositive := n }))

/-- `read_ndx` reads what `write_ndx` wrote, and both end in the same state. -/
theorem reads_ndx {ndx : Int} (hstate : state.Valid) (hndx : -2 ^ 31 < ndx ∧ ndx < 2 ^ 31) :
    Reads (readNdx state codec) (writeNdx ndx state codec).1
      (ndx, (writeNdx ndx state codec).2) := by
  obtain ⟨bytes, state', hwrite, -, hread⟩ : ∃ bytes state',
      writeNdxIn .wrapping ndx state codec = .ok (bytes, state') ∧ _ ∧ _ :=
    reads_ndxIn (hstate.fits .wrapping) hndx nofun
  rw [writeNdxIn_wrapping] at hwrite
  rw [Except.ok.inj hwrite]
  exact hread

theorem NdxState.Valid.writeNdx {ndx : Int} (hstate : state.Valid)
    (hndx : -2 ^ 31 < ndx ∧ ndx < 2 ^ 31) : (writeNdx ndx state codec).2.Valid := by
  cases codec with
  | fixed => exact hstate
  | compact =>
    unfold Ferrosync.writeNdx writeNdxWith
    split_ifs with hdone hneg
    · exact hstate
    · rw [toI32_eq ⟨by omega, by omega⟩]
      have hneg' : 0 ≤ -ndx ∧ -ndx < 2 ^ 31 := by omega
      exact ⟨hstate.positive, hneg'⟩
    · have hpos : -1 ≤ ndx ∧ ndx < 2 ^ 31 := by omega
      exact ⟨hpos, hstate.negative⟩

theorem stable_ndxValue (prev : Int) (val : UInt8) :
    Stable unexpectedEof (readNdxValueIn .wrapping prev val) := by
  refine Stable.ite (stable_byte.bind fun hi => stable_byte.bind fun lo => ?_) (Stable.pure _)
  refine Stable.ite (stable_byte.bind fun b₀ => stable_byte.bind fun b₁ => ?_) (Stable.pure _)
  exact Stable.pure _

theorem stable_ndx (state : NdxState) (codec : IntCodec) :
    Stable unexpectedEof (readNdx state codec) := by
  cases codec with
  | fixed => exact stable_int.bind fun _ => Stable.pure _
  | compact =>
    refine stable_byte.bind fun val => Stable.ite (Stable.pure _) (Stable.ite ?_ ?_)
    · exact stable_byte.bind fun val => (stable_ndxValue _ _).bind fun _ => Stable.pure _
    · exact (stable_ndxValue _ _).bind fun _ => Stable.pure _

/-! ## The end of a phase -/

/-- The bytes of `NDX_DONE`, which do not depend on the state. -/
def doneBytes (codec : IntCodec) : List UInt8 := (writeNdx ndxDone .default codec).1

theorem writeNdx_done (state : NdxState) (codec : IntCodec) :
    writeNdx ndxDone state codec = (doneBytes codec, state) := by
  cases codec <;> rfl

theorem reads_done (state : NdxState) (codec : IntCodec) :
    Reads (readNdx state codec) (doneBytes codec) (ndxDone, state) := by
  cases codec with
  | fixed => exact (reads_int (by decide)).map
  | compact => exact (reads_byte 0).bind_nil (Reads.pure _)

theorem doneBytes_ne_nil (codec : IntCodec) : doneBytes codec ≠ [] := by
  cases codec <;> decide

end Ferrosync
