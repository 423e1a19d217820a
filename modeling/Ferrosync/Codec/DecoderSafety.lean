import Ferrosync.Codec.IncrementalLinks
import Ferrosync.Delta.Streaming

set_option autoImplicit false

/-! # The file-list decoder on untrusted bytes

The decoders of this directory are total functions. Here the operations of the source that can
panic are written out: indexing and slicing (`PrimitivesInRange`: none is ever out of range), and
the `i32` arithmetic on file indices, in `recvFileListChecked`.

A list sent at once uses no such arithmetic, but for a subtraction of zero. An incremental one does,
on numbers the peer chooses: its decoder is safe exactly if it is not used
(`decoder_safe_iff`).
-/

namespace Ferrosync

open ByteStream

variable {st : DecoderState} {n : Nat} {α : Type} {input rest : List UInt8} {p : NegotiatedProtocol}
  {o : TransferOptions}

/-! ## Indices and slices -/

/-- `1u8 << k`, which must not shift all bits out. -/
def shlChecked (k : Nat) : Except Failure Nat :=
  if k < 8 then .ok (2 ^ k) else .error (.fault .panic)

/-- `buf[i] = x`, which panics out of range. -/
def setChecked (buf : List UInt8) (i : Nat) (x : UInt8) : Except Failure (List UInt8) :=
  if i < buf.length then .ok (buf.set i x) else .error (.fault .panic)

/-- The top byte of a compact integer: `ch & (bit - 1)` at `buf[at]`. -/
def setTopChecked (buf : List UInt8) (i extra : Nat) (ch : UInt8) : Except Failure (List UInt8) := do
  let shift ← subChecked 7 extra
  let bit ← shlChecked (shift + 1)
  setChecked buf i (UInt8.ofNat (ch.toNat % bit))

def readVarintChecked : Wire Nat := do
  let ch ← readByte
  let extra ← Reader.lift (indexChecked intByteExtra (ch.toNat / 4))
  if extra = 0 then pure ch.toNat
  else if extra > 4 then Reader.fail (invalidVarint "extra bytes exceed 4")
  else do
    let _ ← Reader.lift (sliceChecked (List.replicate 4 0) 0 extra)
    let read ← readExact unexpectedEof extra
    let b := read ++ List.replicate (4 - extra) 0
    if extra < 4 then do
      let b ← Reader.lift (setTopChecked b extra extra ch)
      pure (ofLE b)
    else pure (ofLE b)

/-- The part of `read_varlong` behind the first bytes, with its accesses checked. -/
def readVarlongTailChecked (minBytes : Nat) (b : List UInt8) : Wire Int := do
  let first ← Reader.lift (indexChecked b 0)
  let extra ← Reader.lift (indexChecked intByteExtra (first.toNat / 4))
  let low ← Reader.lift (sliceChecked b 1 minBytes)
  let _ ← Reader.lift (sliceChecked (List.replicate 8 0) 0 (minBytes - 1))
  let result := low ++ List.replicate (8 - (minBytes - 1)) 0
  if extra = 0 then do
    let result ← Reader.lift (setChecked result (minBytes - 1) first)
    pure (toI64 (ofLE result))
  else if minBytes - 1 + extra ≥ 8 then
    Reader.fail (invalidVarint "extra bytes would overflow u64")
  else do
    let _ ← Reader.lift (sliceChecked result (minBytes - 1) (minBytes - 1 + extra))
    let more ← readExact unexpectedEof extra
    let result := low ++ more ++ List.replicate (8 - (minBytes - 1 + extra)) 0
    let result ← Reader.lift (setTopChecked result (minBytes - 1 + extra) extra first)
    pure (toI64 (ofLE result))

/-- `read_varlong` with its accesses checked: `b` is a buffer of eight bytes. -/
def readVarlongChecked (minBytes : Nat) : Wire Int := do
  let _ ← Reader.lift (sliceChecked (List.replicate 8 0) 0 minBytes)
  let read ← readExact unexpectedEof minBytes
  readVarlongTailChecked minBytes (read ++ List.replicate (8 - minBytes) 0)

/-- `a + b` on `usize`. -/
def addLenChecked (a b : Nat) : Except Failure Nat :=
  if a + b < 2 ^ 64 then .ok (a + b) else .error (.fault .panic)

def decodeFilenameChecked (state : DeltaState) (f : Nat) (opts : FileListOptions) :
    Wire (List UInt8) := do
  let prefixLen ← decodePrefixLen f
  let suffixLen ← decodeSuffixLen f opts
  let total ← Reader.lift (addLenChecked prefixLen suffixLen)
  if total > maxNameLen then Reader.fail (outOfRange "filename_len" total maxNameLen)
  else if prefixLen > state.prevName.length then
    Reader.fail (.protocol (.handshake ("filename prefix length " ++ toString prefixLen ++
      " exceeds previous name length " ++ toString state.prevName.length)))
  else do
    let front ← Reader.lift (sliceChecked state.prevName 0 prefixLen)
    let suffix ← readExact unexpectedEof suffixLen
    pure (front ++ suffix)

/-- A shared value of `decode_one_acl` or `decode_xattrs`, with its accesses checked. -/
def decodeSharedChecked {α : Type} (inline : Wire α) (kind : String) (seen : List α) :
    Wire (α × List α) := do
  let ndx ← readVarint
  if ndx = 0 then do
    let x ← inline
    pure (x, seen ++ [x])
  else do
    let idx ← Reader.lift (subChecked ndx 1)
    if idx ≥ seen.length then Reader.fail (dedupOutOfRange kind ndx seen.length)
    else do
      let x ← Reader.lift (indexChecked seen idx)
      pure (x, seen)

/-- None of the accesses is ever out of range: a decoder that panics there is the same function as
the one that does not look. -/
structure PrimitivesInRange : Prop where
  varint : readVarintChecked = readVarint
  varlong : ∀ minBytes, 1 ≤ minBytes → minBytes ≤ 8 →
    readVarlongChecked minBytes = readVarlong minBytes
  filename : decodeFilenameChecked = decodeFilename
  shared : ∀ {α : Type} (inline : Wire α) (kind : String) (seen : List α),
    decodeSharedChecked inline kind seen = decodeShared inline kind seen

theorem lift_ok_bind {ε β : Type} (a : α) (f : α → Reader ε β) :
    (Reader.lift (.ok a) >>= f) = f a := rfl

theorem ofLE_append (a b : List UInt8) : ofLE (a ++ b) = ofLE a + 256 ^ a.length * ofLE b := by
  induction a with
  | nil => simp [ofLE]
  | cons x a ih =>
    rw [List.cons_append, ofLE, ofLE, ih, List.length_cons]
    ring

theorem ofLE_zeros (n : Nat) : ofLE (List.replicate n 0) = 0 := by
  induction n with
  | zero => rfl
  | succ n ih =>
    rw [List.replicate_succ, ofLE, ih]
    rfl

/-- Setting the byte behind `low` in a buffer that is zero there. -/
theorem ofLE_set (low : List UInt8) (hn : 0 < n) (x : UInt8) :
    ofLE ((low ++ List.replicate n 0).set low.length x) = ofLE low + x.toNat * 256 ^ low.length := by
  obtain ⟨k, rfl⟩ : ∃ k, n = k + 1 := ⟨n - 1, by omega⟩
  rw [List.set_append_right _ _ le_rfl, Nat.sub_self, List.replicate_succ, List.set_cons_zero,
    ofLE_append, ofLE, ofLE_zeros, Nat.add_zero, Nat.mul_comm]

theorem intByteExtra_index (ch : UInt8) :
    indexChecked intByteExtra (ch.toNat / 4) = .ok (intByteExtra.getD (ch.toNat / 4) 0) := by
  have hlt : ch.toNat / 4 < intByteExtra.length := by
    have hch := ch.toNat_lt
    have hlen : intByteExtra.length = 64 := rfl
    omega
  rw [indexChecked_eq hlt, List.getD_eq_getElem?_getD, List.getElem?_eq_getElem hlt]
  rfl

theorem intByteExtra_le (k : Nat) : intByteExtra.getD k 0 ≤ 6 := by
  by_cases hk : k < intByteExtra.length
  · rw [List.getD_eq_getElem?_getD, List.getElem?_eq_getElem hk]
    have hall : ∀ x ∈ intByteExtra, x ≤ 6 := by decide
    exact hall _ (List.getElem_mem hk)
  · rw [List.getD_eq_getElem?_getD, List.getElem?_eq_none (by omega)]
    exact Nat.zero_le 6

theorem setTopChecked_eq (low : List UInt8) {extra : Nat} (hn : 0 < n) (hextra : 0 < extra)
    (hle : extra ≤ 6) (ch : UInt8) :
    setTopChecked (low ++ List.replicate n 0) low.length extra ch =
      .ok ((low ++ List.replicate n 0).set low.length (UInt8.ofNat (ch.toNat % 2 ^ (8 - extra)))) := by
  have hshift : 7 - extra + 1 = 8 - extra := by omega
  unfold setTopChecked subChecked
  rw [if_pos (by omega), Loop.ok_bind, hshift]
  unfold shlChecked setChecked
  rw [if_pos (by omega), Loop.ok_bind, if_pos (by
    rw [List.length_append, List.length_replicate]
    omega)]

theorem toNat_top (ch : UInt8) (k : Nat) : (UInt8.ofNat (ch.toNat % 2 ^ k)).toNat = ch.toNat % 2 ^ k := by
  have hle := Nat.mod_le ch.toNat (2 ^ k)
  have hch := ch.toNat_lt
  simp
  omega

theorem readVarintChecked_eq : readVarintChecked = readVarint := by
  unfold readVarintChecked readVarint
  congr 1
  funext ch
  rw [intByteExtra_index, lift_ok_bind]
  have hle := intByteExtra_le (ch.toNat / 4)
  generalize intByteExtra.getD (ch.toNat / 4) 0 = extra at hle
  by_cases hzero : extra = 0
  · rw [if_pos hzero, if_pos hzero]
  by_cases hbig : extra > 4
  · simp [hzero, hbig]
  rw [if_neg hzero, if_neg hzero, if_neg hbig, if_neg hbig,
    sliceChecked_eq (Nat.zero_le _) (by rw [List.length_replicate]; omega), lift_ok_bind]
  funext input
  refine bind_congr_ok fun read mid hread => ?_
  obtain ⟨hlen, -⟩ := readExact_eq_ok hread
  -- the top bits of the first byte go into the byte behind those read, if there is one
  by_cases hfour : extra < 4
  · have hroom : 0 < 4 - extra := by omega
    have htop := setTopChecked_eq read hroom (by omega) hle ch
    have hset := ofLE_set read hroom (UInt8.ofNat (ch.toNat % 2 ^ (8 - extra)))
    rw [hlen] at htop hset
    rw [toNat_top] at hset
    simp only [if_pos hfour, htop, lift_ok_bind, hset]
  · obtain rfl : extra = 4 := by omega
    simp

theorem readVarlongChecked_eq {minBytes : Nat} (hmin : 1 ≤ minBytes) (hmax : minBytes ≤ 8) :
    readVarlongChecked minBytes = readVarlong minBytes := by
  unfold readVarlongChecked readVarlong
  rw [sliceChecked_eq (Nat.zero_le _) (by rw [List.length_replicate]; omega), lift_ok_bind]
  funext input
  refine bind_congr_ok fun read mid hread => ?_
  obtain ⟨hlen, -⟩ := readExact_eq_ok hread
  obtain ⟨first, low, rfl⟩ : ∃ first low, read = first :: low := by
    cases read with
    | nil => rw [List.length_nil] at hlen; omega
    | cons first low => exact ⟨first, low, rfl⟩
  rw [List.length_cons] at hlen
  have hlow : minBytes - 1 = low.length := by omega
  -- the indices are within the array of 8 bytes, so that each checked access is the plain one
  have hfirst : indexChecked (first :: low ++ List.replicate (8 - minBytes) 0) 0 = .ok first := rfl
  have hslice : sliceChecked (first :: low ++ List.replicate (8 - minBytes) 0) 1 minBytes =
      .ok low := by
    rw [sliceChecked_eq hmin (by simp; omega)]
    unfold slice
    rw [List.cons_append, List.drop_succ_cons, List.drop_zero, hlow, List.take_left]
  have hle := intByteExtra_le (first.toNat / 4)
  show _ = readVarlongTail minBytes first.toNat low mid
  unfold readVarlongTailChecked readVarlongTail
  rw [hfirst, lift_ok_bind, intByteExtra_index, lift_ok_bind, hslice, lift_ok_bind,
    sliceChecked_eq (Nat.zero_le _) (by rw [List.length_replicate]; omega), lift_ok_bind]
  obtain ⟨extra, hextra⟩ : ∃ extra, intByteExtra.getD (first.toNat / 4) 0 = extra := ⟨_, rfl⟩
  rw [hextra] at hle ⊢
  by_cases hzero : extra = 0
  · have hset := ofLE_set low (n := 8 - (minBytes - 1)) (by omega) first
    have hcheck : setChecked (low ++ List.replicate (8 - (minBytes - 1)) 0) (minBytes - 1) first =
        .ok ((low ++ List.replicate (8 - (minBytes - 1)) 0).set (minBytes - 1) first) :=
      if_pos (by simp; omega)
    rw [← hlow] at hset
    rw [if_pos hzero, if_pos hzero, hcheck, lift_ok_bind, hset]
  by_cases hover : minBytes - 1 + extra ≥ 8
  · simp [hzero, hover]
  rw [if_neg hzero, if_neg hzero, if_neg hover, if_neg hover,
    sliceChecked_eq (Nat.le_add_right _ _) (by simp; omega), lift_ok_bind]
  refine bind_congr_ok fun more mid' hmore => ?_
  obtain ⟨hmorelen, -⟩ := readExact_eq_ok hmore
  have hroom : 0 < 8 - (minBytes - 1 + extra) := by omega
  have htop := setTopChecked_eq (low ++ more) hroom (by omega) hle first
  have hset := ofLE_set (low ++ more) hroom (UInt8.ofNat (first.toNat % 2 ^ (8 - extra)))
  rw [List.length_append, ← hlow, hmorelen] at htop hset
  rw [toNat_top] at hset
  simp only [htop, lift_ok_bind, hset]

theorem readVarint_lt (h : readVarint input = .ok (n, rest)) :
    n < 2 ^ 32 := by
  obtain ⟨ch, mid, -, h⟩ := bind_eq_ok h
  have hch := ch.toNat_lt
  dsimp only at h
  generalize intByteExtra.getD (ch.toNat / 4) 0 = extra at h
  split_ifs at h with hzero hbig hfour
  · obtain ⟨rfl, -⟩ := pure_eq_ok h
    omega
  · exact absurd h nofun
  · obtain ⟨b, mid', hread, h⟩ := bind_eq_ok h
    obtain ⟨hlen, -⟩ := readExact_eq_ok hread
    obtain ⟨rfl, -⟩ := pure_eq_ok h
    have hlow := ofLE_lt b
    rw [hlen] at hlow
    have htop : ch.toNat % 2 ^ (8 - extra) < 2 ^ (8 - extra) := Nat.mod_lt _ (by positivity)
    -- `extra` bytes and `8 - extra` bits on top of them
    obtain rfl | rfl | rfl : extra = 1 ∨ extra = 2 ∨ extra = 3 := by omega
    all_goals
      omega
  · obtain ⟨b, mid', hread, h⟩ := bind_eq_ok h
    obtain ⟨hlen, -⟩ := readExact_eq_ok hread
    obtain ⟨rfl, -⟩ := pure_eq_ok h
    have hlow := ofLE_lt b
    obtain rfl : extra = 4 := by omega
    simpa [hlen] using hlow

theorem readVarint30_lt {codec : IntCodec} (h : readVarint30 codec input = .ok (n, rest)) :
    n < 2 ^ 32 := by
  cases codec with
  | compact => exact readVarint_lt h
  | fixed =>
    obtain ⟨v, mid, -, h⟩ := bind_eq_ok h
    obtain ⟨rfl, -⟩ := pure_eq_ok h
    omega

theorem decodeFilenameChecked_eq : decodeFilenameChecked = decodeFilename := by
  funext state f opts
  funext input
  refine bind_congr_ok fun prefixLen mid hinitial => ?_
  refine bind_congr_ok fun suffixLen mid' hsuffix => ?_
  have hfront : prefixLen < 256 := by
    unfold decodePrefixLen at hinitial
    split_ifs at hinitial
    · obtain ⟨b, m, -, h⟩ := bind_eq_ok hinitial
      obtain ⟨rfl, -⟩ := pure_eq_ok h
      exact b.toNat_lt
    · obtain ⟨rfl, -⟩ := pure_eq_ok hinitial
      decide
  have hback : suffixLen < 2 ^ 32 := by
    unfold decodeSuffixLen at hsuffix
    split_ifs at hsuffix
    · exact readVarint30_lt hsuffix
    · obtain ⟨b, m, -, h⟩ := bind_eq_ok hsuffix
      obtain ⟨rfl, -⟩ := pure_eq_ok h
      have hb := b.toNat_lt
      omega
  have hadd : addLenChecked prefixLen suffixLen = .ok (prefixLen + suffixLen) :=
    if_pos (by omega)
  rw [hadd, lift_ok_bind]
  by_cases hlong : prefixLen + suffixLen > maxNameLen
  · simp [hlong]
  by_cases hprev : prefixLen > state.prevName.length
  · simp [hlong, hprev]
  · rw [if_neg hlong, if_neg hlong, if_neg hprev, if_neg hprev,
      sliceChecked_eq (Nat.zero_le _) (by omega)]
    rfl

theorem decodeSharedChecked_eq (inline : Wire α) (kind : String) (seen : List α) :
    decodeSharedChecked inline kind seen = decodeShared inline kind seen := by
  unfold decodeSharedChecked decodeShared
  congr 1
  funext ndx
  by_cases hzero : ndx = 0
  · rw [if_pos hzero, if_pos hzero]
  have hsub : subChecked ndx 1 = .ok (ndx - 1) := if_pos (by omega)
  rw [if_neg hzero, if_neg hzero, hsub, lift_ok_bind]
  by_cases hidx : ndx - 1 < seen.length
  · rw [if_neg (by omega), indexChecked_eq hidx, lift_ok_bind, List.getElem?_eq_getElem hidx]
  · rw [if_pos (by omega), List.getElem?_eq_none (by omega)]

theorem primitivesInRange : PrimitivesInRange where
  varint := readVarintChecked_eq
  varlong := fun _ => readVarlongChecked_eq
  filename := decodeFilenameChecked_eq
  shared := decodeSharedChecked_eq

/-! ## Errors of the decoders -/

/-- An error that is reported, and no panic. -/
def Reported (e : Failure) : Prop := ∃ p, e = .protocol p

theorem reported_eof : Reported unexpectedEof := ⟨_, rfl⟩

theorem tame_exact (n : Nat) : Tame Reported (readExact unexpectedEof n) := .exact reported_eof n

theorem tame_byte : Tame Reported readByte := (tame_exact 1).bind fun _ => .pure _

theorem tame_int : Tame Reported readInt := (tame_exact 4).bind fun _ => .pure _

theorem tame_varint : Tame Reported readVarint :=
  tame_byte.bind fun _ => .ite (.pure _) (.ite (.fail ⟨_, rfl⟩)
    ((tame_exact _).bind fun _ => .pure _))

theorem tame_varint30 (codec : IntCodec) : Tame Reported (readVarint30 codec) := by
  cases codec with
  | fixed => exact tame_int.bind fun _ => .pure _
  | compact => exact tame_varint

theorem tame_varlong (minBytes : Nat) : Tame Reported (readVarlong minBytes) :=
  (tame_exact minBytes).bind fun _ => .ite (.pure _) (.ite (.fail ⟨_, rfl⟩)
    ((tame_exact _).bind fun _ => .pure _))

theorem tame_longint : Tame Reported readLongint := by
  refine tame_int.bind fun _ => .ite (.pure _) ?_
  exact (tame_exact 8).bind fun _ => .pure _

section Fields

variable {opts : FileListOptions}

theorem tame_filename (state : DeltaState) (f : Nat) :
    Tame Reported (decodeFilename state f opts) := by
  have hinitial : Tame Reported (decodePrefixLen f) :=
    .ite (tame_byte.bind fun _ => .pure _) (.pure _)
  have hsuffix : Tame Reported (decodeSuffixLen f opts) :=
    .ite (tame_varint30 _) (tame_byte.bind fun _ => .pure _)
  refine hinitial.bind fun _ => hsuffix.bind fun _ => ?_
  exact .ite (.fail ⟨_, rfl⟩) (.ite (.fail ⟨_, rfl⟩) ((tame_exact _).bind fun _ => .pure _))

theorem tame_fileLength : Tame Reported (decodeFileLength opts) := by
  unfold decodeFileLength
  cases opts.wire.intCodec with
  | fixed => exact tame_longint
  | compact => exact tame_varlong 3

theorem tame_mtime (state : DeltaState) (f : Nat) : Tame Reported (decodeMtime state f opts) :=
  .ite (.pure _) (.ite (tame_varlong 4) tame_int)

theorem tame_id (preserve same follows : Bool) (prevId : Nat) (prevName : List UInt8) :
    Tame Reported (decodeId preserve same follows prevId prevName opts) := by
  have hnumber : Tame Reported (decodeIdNumber opts) :=
    .ite tame_varint (tame_int.bind fun _ => .pure _)
  have hname : Tame Reported (decodeIdName follows prevName opts) :=
    .ite (tame_byte.bind fun _ => tame_exact _) (.pure _)
  exact .ite (.pure _) (hnumber.bind fun _ => hname.bind fun _ => .pure _)

theorem tame_rdev (mode : UInt32) (state : DeltaState) (f : Nat) :
    Tame Reported (decodeRdev mode state f opts) := by
  refine .ite (.pure _) ?_
  cases opts.wire.deviceCodec with
  | singleInt => exact .ite (.pure _) (tame_int.bind fun _ => .pure _)
  | majorMinor varintMinor =>
    have hmajor : Tame Reported (decodeRdevMajor state f opts) := .ite (.pure _) (tame_varint30 _)
    have hminor : Tame Reported (decodeRdevMinor varintMinor) :=
      .ite tame_varint (tame_int.bind fun _ => .pure _)
    exact hmajor.bind fun _ => hminor.bind fun _ => .pure _

theorem tame_symlink (mode : UInt32) : Tame Reported (decodeSymlink mode opts) :=
  .ite (.pure _) ((tame_varint30 _).bind fun _ => .ite (.fail ⟨_, rfl⟩) (tame_exact _))

theorem tame_checksum (mode : UInt32) : Tame Reported (decodeChecksum mode opts) :=
  .ite (.pure _) (tame_exact _)

theorem tame_shared {inline : Wire α} (h : Tame Reported inline) (kind : String) (seen : List α) :
    Tame Reported (decodeShared inline kind seen) := by
  refine tame_varint.bind fun ndx => .ite (h.bind fun _ => .pure _) ?_
  cases seen[ndx - 1]? with
  | none => exact .fail ⟨_, rfl⟩
  | some x => exact .pure _

theorem tame_oneAcl (seen : List PosixAclEntries) : Tame Reported (decodeOneAcl seen) := by
  have hopt : ∀ present, Tame Reported (readOptVarint present) :=
    fun _ => .ite (tame_varint.bind fun _ => .pure _) (.pure _)
  have hname : ∀ present, Tame Reported (decodeAceName present) :=
    fun _ => .ite (tame_varint.bind fun _ => (tame_exact _).bind fun _ => .pure _) (.pure _)
  have hace : Tame Reported decodeAce :=
    tame_varint.bind fun _ => tame_varint.bind fun _ => (hname _).bind fun _ => .pure _
  have hnamed : ∀ present, Tame Reported (decodeNamed present) :=
    fun _ => .ite (tame_varint.bind fun _ => hace.times _) (.pure _)
  refine tame_shared (tame_byte.bind fun _ => ?_) _ _
  exact (hopt _).bind fun _ => (hopt _).bind fun _ => (hopt _).bind fun _ =>
    (hopt _).bind fun _ => (hnamed _).bind fun _ => .pure _

theorem tame_aclField (mode : UInt32) (acls : AclTables) :
    Tame Reported (decodeAclField mode opts acls) := by
  have hdefault : ∀ seen, Tame Reported (decodeDefault mode seen) :=
    fun seen => .ite ((tame_oneAcl seen).bind fun _ => .pure _) (.pure _)
  exact .ite ((tame_oneAcl _).bind fun _ => (hdefault _).bind fun _ => .pure _) (.pure _)

theorem tame_xattrField (seen : List ExtendedAttributes) :
    Tame Reported (decodeXattrField opts seen) := by
  have hentry : Tame Reported decodeXattrEntry :=
    tame_varint.bind fun _ => tame_varint.bind fun _ => (tame_exact _).bind fun _ =>
      (tame_exact _).bind fun _ => .pure _
  have hset : Tame Reported decodeXattrSet :=
    tame_varint.bind fun _ => (hentry.times _).bind fun _ => .pure _
  exact .ite ((tame_shared hset _ _).bind fun _ => .pure _) (.pure _)

theorem tame_fields (name : List UInt8) (f : Nat) (st : DecoderState) :
    Tame Reported (decodeFields name f opts st) := by
  refine tame_fileLength.bind fun _ => (tame_mtime _ _).bind fun _ => ?_
  refine Tame.bind (.ite tame_varint (.pure _)) fun _ => ?_
  refine Tame.bind (.ite (.pure _) (tame_int.bind fun _ => .pure _)) fun mode => ?_
  refine (tame_id _ _ _ _ _).bind fun _ => (tame_id _ _ _ _ _).bind fun _ => ?_
  refine (tame_rdev mode _ _).bind fun _ => (tame_symlink mode).bind fun _ => ?_
  refine (tame_checksum mode).bind fun _ => (tame_aclField mode _).bind fun _ => ?_
  exact (tame_xattrField _).bind fun _ => .pure _

theorem consumes_byte : Consumes readByte :=
  (consumes_exact Nat.one_pos).bind (E := Reported) fun _ => .pure _

theorem consumes_varint : Consumes readVarint :=
  consumes_byte.bind (E := Reported) fun _ => .ite (.pure _) (.ite (.fail ⟨_, rfl⟩)
    ((tame_exact _).bind fun _ => .pure _))

theorem consumes_varint30 (codec : IntCodec) : Consumes (readVarint30 codec) := by
  cases codec with
  | fixed =>
    have hint : Consumes readInt :=
      (consumes_exact (Nat.succ_pos 3)).bind (E := Reported) fun _ => .pure _
    exact hint.bind (E := Reported) fun _ => .pure _
  | compact => exact consumes_varint

theorem tame_xmitFlags : Tame Reported (decodeXmitFlags opts) ∧ Consumes (decodeXmitFlags opts) := by
  unfold decodeXmitFlags
  cases opts.wire.flagsCodec with
  | varint =>
    exact tame_consumes_bind ⟨tame_varint, consumes_varint⟩
      fun _ => .ite (tame_varint.bind fun _ => .pure _) (.pure _)
  | byteExtended =>
    refine tame_consumes_bind ⟨tame_byte, consumes_byte⟩
      fun _ => .ite (.pure _) (.ite ?_ (.pure _))
    exact tame_byte.bind fun _ => .ite (tame_varint.bind fun _ => .pure _) (.pure _)
  | byte =>
    exact tame_consumes_bind ⟨tame_byte, consumes_byte⟩ fun _ => .ite (.pure _) (.pure _)

/-! ## A list that is sent at once -/

/-- A back-reference is safe if the list starts at zero. -/
theorem tame_hlink {delta : DeltaState} (h : delta.ndxStart = 0) (f : Nat) (prev : List FileEntry)
    (name : List UInt8) : Tame Reported (decodeHlink f opts prev name delta) := by
  refine .ite (.pure _) (tame_varint.bind fun firstNdx => ?_)
  rw [h, Int.sub_zero, if_neg (not_not.mpr (isI32_toI32 _))]
  exact .pure _

theorem tame_body (h : st.delta.ndxStart = 0) (f : Nat) (prev : List FileEntry) (name : List UInt8) :
    Tame Reported (decodeBody f opts prev st name) := by
  refine (tame_hlink h f prev name).bind fun link => ?_
  cases link with
  | none => exact tame_fields name f st
  | some e => exact .pure _

theorem tame_entry (h : st.delta.ndxStart = 0) (prev : List FileEntry) :
    Tame Reported (decodeEntry opts prev st) ∧ Consumes (decodeEntry opts prev st) := by
  refine tame_consumes_bind tame_xmitFlags fun flags => ?_
  cases flags with
  | endOfList ioError => exact .pure _
  | entry f =>
    exact (tame_filename _ _).bind fun name => (tame_body h f prev name).bind fun _ => .pure _

theorem ndxStart_entry {prev : List FileEntry} {st' : DecoderState} {d : FileEntry}
    (h : decodeEntry opts prev st input = .ok ((.entry d, st'), rest)) :
    st'.delta.ndxStart = st.delta.ndxStart := by
  obtain ⟨f, _, -, -, tail, hbody⟩ := decodeEntry_inv h
  obtain ⟨-, hdelta, -⟩ := decodeBody_inv hbody
  rw [hdelta]
  rfl

/-- Every entry takes a byte at least, so the fuel lasts. -/
theorem tame_entries (fuel : Nat) : ∀ {prev : List FileEntry} {st : DecoderState}
    {input : List UInt8}, st.delta.ndxStart = 0 → input.length < fuel →
      TameAt Reported (decodeEntries opts fuel prev st) input := by
  induction fuel with
  | zero => exact fun _ hfuel => absurd hfuel (Nat.not_lt_zero _)
  | succ fuel ih =>
    intro prev st input hstart hfuel
    refine ((tame_entry hstart prev).1.tameAt input).bind fun ⟨one, st'⟩ tail hentry => ?_
    have hless := (tame_entry hstart prev).2.length hentry
    cases one with
    | endOfList ioError => exact (Tame.pure _).tameAt _
    | entry d => exact ih ((ndxStart_entry hentry).trans hstart) (by omega)

theorem tame_recvEntries (h : st.delta.ndxStart = 0) : Tame Reported (recvEntries opts st) :=
  tame_iff.mpr fun _ => tame_entries _ h (Nat.lt_succ_self _)

theorem tame_batch : Tame Reported (recvFileListBatch opts) :=
  (tame_recvEntries rfl).bind fun _ =>
    (Tame.ite (tame_int.bind fun _ => .pure _) (.pure _)).bind fun _ => .pure _

theorem tame_idName : Tame Reported recvIdName :=
  tame_byte.bind fun _ => (tame_exact _).bind fun _ => .pure _

theorem tame_idLoop (fuel : Nat) : ∀ {input : List UInt8}, input.length < fuel →
    TameAt Reported (recvIdLoop opts fuel) input := by
  induction fuel with
  | zero => exact fun hfuel => absurd hfuel (Nat.not_lt_zero _)
  | succ fuel ih =>
    intro input hfuel
    refine ((tame_varint30 _).tameAt input).bind fun id tail hid => ?_
    have hless := (consumes_varint30 _).length hid
    by_cases hzero : id = 0
    · rw [if_pos hzero]
      exact (Tame.pure _).tameAt _
    · rw [if_neg hzero]
      refine (tame_idName.tameAt tail).bind fun _ rest hname => ih ?_
      have hle := tame_idName.length hname
      omega

theorem tame_ids : Tame Reported (recvIds opts) := by
  have hloop : Tame Reported fun input => recvIdLoop opts (input.length + 1) input :=
    tame_iff.mpr fun _ => tame_idLoop _ (Nat.lt_succ_self _)
  exact hloop.bind fun _ => .ite tame_idName (.pure _)

theorem tame_idList : Tame Reported (recvIdListIfSent opts) :=
  .ite (.pure _) ((Tame.ite tame_ids (.pure _)).bind fun _ => .ite tame_ids (.pure _))

end Fields

/-! ## An incremental list -/

/-- The result of an addition, subtraction or negation of `i32`s, which must be one. -/
def i32Checked (x : Int) : Wire Int := Reader.lift (Build.checked.i32 x)

/-- The loop of `recv_sub_flist_with_state`, which counts entries and the gap behind them. -/
def decodeEntriesChecked (opts : FileListOptions) :
    Nat → List FileEntry → DecoderState → Int → Wire ((List FileEntry × DecoderState) × Int)
  | 0, _, _, _ => Reader.fail (.fault .diverged)
  | fuel + 1, prev, st, nextNdx => do
    let read ← decodeEntry opts prev st
    let next ← i32Checked (nextNdx + 1)
    match read.1 with
    | .entry e => decodeEntriesChecked opts fuel (prev ++ [e]) read.2 next
    | .endOfList _ => pure ((prev, read.2), next)

def recvSubFlistChecked (opts : FileListOptions) (r : IncrementalReceiver) :
    Wire (SubFileList × IncrementalReceiver) := do
  let list ← fun input => decodeEntriesChecked opts (input.length + 1) []
    ⟨{ r.delta with ndxStart := r.nextNdx }, .default, []⟩ r.nextNdx input
  pure (⟨r.nextNdx, list.1.1⟩, { r with nextNdx := list.2, delta := list.1.2.delta })

/-- The numbers `ndx_start + i as i32` of a list that has been sorted. -/
def numbersChecked (start : Int) : List (FileEntry × Nat) → Wire (List Int)
  | [] => pure []
  | p :: rest => do
    let ndx ← i32Checked (start + toI32 p.2)
    let more ← numbersChecked start rest
    pure (ndx :: more)

def sortAndAssignChecked (list : SubFileList) (acc : Received) : Wire Received := do
  let numbers ← numbersChecked list.ndxStart (canonicalSort list.entries).zipIdx
  pure ⟨acc.entries ++ canonicalSort list.entries, acc.entryNdx ++ numbers, acc.numFlists + 1⟩

def recvSubFlistsChecked (opts : FileListOptions) :
    Nat → Received → IncrementalReceiver → Wire Received
  | 0, _, _ => Reader.fail (.fault .diverged)
  | fuel + 1, acc, r => do
    let ndx ← readNdxIn .checked r.ndxState opts.wire.intCodec
    if ndx.1 = ndxFlistEof then pure acc
    else if ndx.1 ≤ ndxFlistOffset then do
      let _dirNdx ← i32Checked (ndxFlistOffset - ndx.1)
      let list ← recvSubFlistChecked opts { r with ndxState := ndx.2 }
      let acc ← sortAndAssignChecked list.1 acc
      recvSubFlistsChecked opts fuel acc list.2
    else
      Reader.fail (.protocol (.handshake ("unexpected NDX value " ++ toString ndx.1 ++
        " during file list reception")))

def recvFileListIncrementalChecked (opts : FileListOptions) : Wire (Received × Int) := do
  let first ← recvSubFlistChecked opts .default
  let acc ← sortAndAssignChecked first.1 ⟨[], [], 0⟩
  let all ← fun input => recvSubFlistsChecked opts (input.length + 1) acc first.2 input
  pure (all, first.1.ndxStart)

/-- `recv_file_list` with its sums checked; at once, it does none but those of `decodeEntry`. -/
def recvFileListChecked (p : NegotiatedProtocol) (o : TransferOptions) : Wire ReceivedFileList :=
  if incrementalFlist p o then do
    let all ← recvFileListIncrementalChecked (FileListOptions.fromProtocol p o)
    pure ⟨all.1.entries, all.1.entryNdx, all.2, all.1.numFlists⟩
  else recvFileList p o

/-! ## What the peer can do -/

theorem i32Checked_ok {x : Int} (h : IsI32 x) (input : List UInt8) :
    i32Checked x input = .ok (x, input) := by
  unfold i32Checked
  rw [Build.i32_eq h]
  rfl

/-- The call returns a list or an error of the protocol: it neither panics nor runs on forever. -/
def NoPanic {α : Type} (r : Except Failure α) : Prop := ∀ fault, r ≠ .error (.fault fault)

/-- At once, every failure is reported. -/
theorem tame_recvFileList (h : incrementalFlist p o = false) :
    Tame Reported (recvFileList p o) := by
  unfold recvFileList
  simp only [h]
  exact tame_batch.bind fun _ => tame_idList.bind fun _ => .pure _

theorem noPanic_batch (h : incrementalFlist p o = false) (input : List UInt8) :
    NoPanic (recvFileListChecked p o input) := by
  intro fault hfault
  have heq : recvFileListChecked p o = recvFileList p o := by
    unfold recvFileListChecked
    rw [h]
    rfl
  rw [heq] at hfault
  obtain ⟨_, hreport⟩ := (tame_recvFileList h).error hfault
  exact absurd hreport nofun

/-- A list without entries, behind which the counter is one further. -/
theorem recvSubFlistChecked_empty (opts : FileListOptions) {r : IncrementalReceiver}
    (h : IsI32 (r.nextNdx + 1)) (rest : List UInt8) :
    recvSubFlistChecked opts r (encodeEndOfFlist 0 opts ++ rest) =
      .ok ((⟨r.nextNdx, []⟩, { r with
        nextNdx := r.nextNdx + 1, delta := { r.delta with ndxStart := r.nextNdx } }), rest) := by
  have hentry : decodeEntry opts [] ⟨{ r.delta with ndxStart := r.nextNdx }, .default, []⟩
      (encodeEndOfFlist 0 opts ++ rest) =
        .ok ((.endOfList 0, ⟨{ r.delta with ndxStart := r.nextNdx }, .default, []⟩), rest) :=
    bind_ok (reads_endOfFlist opts rest)
  have hlist : decodeEntriesChecked opts ((encodeEndOfFlist 0 opts ++ rest).length + 1) []
      ⟨{ r.delta with ndxStart := r.nextNdx }, .default, []⟩ r.nextNdx
      (encodeEndOfFlist 0 opts ++ rest) =
        .ok ((([], ⟨{ r.delta with ndxStart := r.nextNdx }, .default, []⟩), r.nextNdx + 1), rest) := by
    refine (bind_ok hentry).trans ((bind_ok (i32Checked_ok h rest)).trans ?_)
    rfl
  exact bind_ok hlist

theorem sortAndAssignChecked_empty (start : Int) (acc : Received) (input : List UInt8) :
    sortAndAssignChecked ⟨start, []⟩ acc input =
      .ok (⟨acc.entries, acc.entryNdx, acc.numFlists + 1⟩, input) := by
  have hsort : canonicalSort [] = [] := List.mergeSort_nil
  unfold sortAndAssignChecked
  rw [hsort, List.append_nil]
  refine (bind_ok (show numbersChecked start [] input = .ok ([], input) from rfl)).trans ?_
  rw [List.append_nil]
  rfl

/-- Two markers: the first sets the last negative index to the largest there is, the second is
one further. -/
def overflowingMarkers (opts : FileListOptions) : List UInt8 :=
  0xFF :: 0xFE :: 0xFF :: 0xFF :: 0xFF :: 0xFF :: (encodeEndOfFlist 0 opts ++ [0xFF, 1])

theorem readNdxIn_largest (rest : List UInt8) :
    readNdxIn .checked ⟨-1, 1⟩ .compact (0xFF :: 0xFE :: 0xFF :: 0xFF :: 0xFF :: 0xFF :: rest) =
      .ok ((-(2 ^ 31 - 1), ⟨-1, 2 ^ 31 - 1⟩), rest) := by
  have hvalue : readNdxValueIn .checked 1 0xFE (0xFF :: 0xFF :: 0xFF :: 0xFF :: rest) =
      .ok (2 ^ 31 - 1, rest) := by
    unfold readNdxValueIn
    refine (bind_ok (readByte_cons _ _)).trans ((bind_ok (readByte_cons _ _)).trans ?_)
    refine (bind_ok (readByte_cons _ _)).trans ((bind_ok (readByte_cons _ _)).trans ?_)
    rfl
  refine (bind_ok (readByte_cons _ _)).trans ?_
  refine (bind_ok (readByte_cons _ _)).trans ((bind_ok hvalue).trans ?_)
  exact bind_ok (i32Checked_ok (by decide) rest)

theorem readNdxIn_overflow :
    readNdxIn .checked ⟨-1, 2 ^ 31 - 1⟩ .compact [0xFF, 1] = .error (.fault .panic) := by
  refine (bind_ok (readByte_cons _ _)).trans ?_
  refine (bind_ok (readByte_cons _ _)).trans (bind_error ?_)
  have hpanic : Build.checked.i32 (2 ^ 31 - 1 + 1) = .error (.fault .panic) := by decide
  unfold readNdxValueIn
  rw [if_neg (by decide)]
  exact congrArg (fun r => (Reader.lift r : Wire Int) []) hpanic

theorem recvSubFlistsChecked_overflow {opts : FileListOptions} (hcodec : opts.wire.intCodec = .compact)
    (fuel : Nat) (acc : Received) {r : IncrementalReceiver} (hmarker : r.ndxState = .default)
    (hnext : IsI32 (r.nextNdx + 1)) :
    recvSubFlistsChecked opts (fuel + 2) acc r (overflowingMarkers opts) =
      .error (.fault .panic) := by
  unfold recvSubFlistsChecked overflowingMarkers
  rw [hcodec, hmarker]
  refine (bind_ok (readNdxIn_largest _)).trans ?_
  refine (bind_ok (i32Checked_ok (by decide) _)).trans ?_
  refine (bind_ok (recvSubFlistChecked_empty opts (by exact hnext) [0xFF, 1])).trans ?_
  refine (bind_ok (sortAndAssignChecked_empty _ acc _)).trans ?_
  unfold recvSubFlistsChecked
  rw [hcodec]
  exact bind_error readNdxIn_overflow

/-- In an incremental transfer the peer can make the decoder panic. -/
theorem panics_incremental (hwire : p.wire = WireFormat.new p.version p.compatFlags)
    (hinc : incrementalFlist p o = true) :
    recvFileListChecked p o (encodeEndOfFlist 0 (FileListOptions.fromProtocol p o) ++
      overflowingMarkers (FileListOptions.fromProtocol p o)) = .error (.fault .panic) := by
  have hcodec : (FileListOptions.fromProtocol p o).wire.intCodec = .compact := by
    have h := hinc
    unfold incrementalFlist at h
    rw [hwire] at h
    simp only [WireFormat.new, Bool.and_eq_true, decide_eq_true_eq] at h
    show p.wire.intCodec = .compact
    rw [hwire]
    exact if_pos h.1.1
  unfold recvFileListChecked
  rw [if_pos hinc]
  refine bind_error ?_
  refine (bind_ok (recvSubFlistChecked_empty _ (by decide) _)).trans ?_
  refine (bind_ok (sortAndAssignChecked_empty _ _ _)).trans (bind_error ?_)
  obtain ⟨fuel, hfuel⟩ : ∃ fuel,
      (overflowingMarkers (FileListOptions.fromProtocol p o)).length + 1 = fuel + 2 := ⟨_, rfl⟩
  rw [hfuel]
  exact recvSubFlistsChecked_overflow hcodec fuel _ rfl (by decide)

/-- Indices and slices are in range whatever the bytes, and so is all arithmetic exactly if the
list is sent at once. -/
theorem decoder_safe_iff (p : NegotiatedProtocol) (o : TransferOptions)
    (hwire : p.wire = WireFormat.new p.version p.compatFlags) :
    PrimitivesInRange ∧
      ((∀ input, NoPanic (recvFileListChecked p o input)) ↔ incrementalFlist p o = false) := by
  refine ⟨primitivesInRange, fun hsafe => ?_, noPanic_batch⟩
  by_contra hinc
  exact hsafe _ _ (panics_incremental hwire (Bool.eq_true_of_not_eq_false hinc))

/-- Version 31 without incremental recursion, and the oldest version. -/
theorem decoder_safe_at_once :
    (∀ input, NoPanic (recvFileListChecked (plainProtocol 31 0) recursiveLinks input)) ∧
      ∀ input, NoPanic (recvFileListChecked (plainProtocol 27 0) recursiveLinks input) :=
  ⟨(decoder_safe_iff _ _ rfl).2.mpr rfl, (decoder_safe_iff _ _ rfl).2.mpr rfl⟩

/-- A second index behind the largest, and a hard link to the smallest index. -/
theorem peer_panics_decoder :
    ¬ NoPanic (recvFileListChecked (plainProtocol 31 1) recursiveLinks
        [0, 0xFF, 0xFE, 0xFF, 0xFF, 0xFF, 0xFF, 0, 0xFF, 1]) ∧
      ¬ NoPanic (recvFileListChecked (plainProtocol 31 1) recursiveLinks
        [4, 2, 1, 97, 0xF0, 0, 0, 0, 0x80]) :=
  ⟨fun h => h _ (panics_incremental (p := plainProtocol 31 1) (o := recursiveLinks) rfl rfl),
    fun h => h .panic rfl⟩

end Ferrosync
