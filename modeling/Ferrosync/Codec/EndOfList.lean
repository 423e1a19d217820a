import Ferrosync.Codec.BatchRoundTrip

set_option autoImplicit false

/-! # Entries and the end of a list

The end of a file list is marked in the place of the flags of a next entry. The flags of an entry
are never taken for it: where no flag is set one is added that the decoder does not look at, and the
marker with an error has the bit of a first hard link without the bit of a link
(`entry_not_end_of_list`).

`decodeBody_sameDecoding` says which flags the decoder looks at.
-/

namespace Ferrosync

open ByteStream

/-! ## The flags that matter -/

/-- The flags `g` are the flags `f`, also those of hard links. -/
structure SameDecoding (opts : FileListOptions) (f g : Nat) : Prop extends SeenFlags opts f g where
  hlinked : g.testBit 9 = f.testBit 9
  hlinkFirst : g.testBit 12 = f.testBit 12

section Decoding

variable {opts : FileListOptions} {f g : Nat}

theorem decodeFilename_sameDecoding (h : SameDecoding opts f g) (state : DeltaState) :
    decodeFilename state g opts = decodeFilename state f opts := by
  unfold decodeFilename decodePrefixLen decodeSuffixLen
  rw [h.sameName, h.longName]

theorem decodeMtimeNsec_sameDecoding (h : SameDecoding opts f g) :
    decodeMtimeNsec g opts = decodeMtimeNsec f opts := by
  unfold decodeMtimeNsec
  cases hnano : opts.wire.hasNanoseconds with
  | true => rw [h.modNsec hnano]
  | false => rfl

/-- The name of an owner is looked for where names are sent with the entries. -/
theorem decodeId_follows {preserve same : Bool} {prevId : Nat} {prevName : List UInt8} {a b : Bool}
    (hab : opts.wire.hasInlineNames = true → a = b) :
    decodeId preserve same a prevId prevName opts = decodeId preserve same b prevId prevName opts := by
  unfold decodeId decodeIdName
  cases hinline : opts.wire.hasInlineNames with
  | true => rw [hab hinline]
  | false => simp only [Bool.false_and]

theorem decodeRdev_sameDecoding (h : SameDecoding opts f g) (mode : UInt32) (state : DeltaState) :
    decodeRdev mode state g opts = decodeRdev mode state f opts := by
  unfold decodeRdev decodeRdevSingle decodeRdevMajor
  cases hdevice : opts.wire.deviceCodec with
  | singleInt => rw [h.sameRdev hdevice]
  | majorMinor varintMinor =>
    rw [h.sameRdevMajor (by rw [hdevice]; exact DeviceCodec.noConfusion)]

theorem decodeFields_sameDecoding (h : SameDecoding opts f g) (name : List UInt8)
    (st : DecoderState) :
    decodeFields name g opts st =
      (fun read => ({ read.1 with flags := g }, read.2)) <$> decodeFields name f opts st := by
  have htime : decodeMtime st.delta g opts = decodeMtime st.delta f opts := by
    unfold decodeMtime
    rw [h.sameTime]
  have hmode : decodeMode st.delta g = decodeMode st.delta f := by
    unfold decodeMode
    rw [h.sameMode]
  have huid : decodeUid st.delta g opts = decodeUid st.delta f opts := by
    unfold decodeUid
    rw [h.sameUid, decodeId_follows h.userNameFollows]
  have hgid : decodeGid st.delta g opts = decodeGid st.delta f opts := by
    unfold decodeGid
    rw [h.sameGid, decodeId_follows h.groupNameFollows]
  -- the flags are read in these fields, and otherwise only kept
  unfold decodeFields
  simp only [htime, hmode, huid, hgid, decodeMtimeNsec_sameDecoding h, decodeRdev_sameDecoding h,
    map_bind]
  rfl

theorem decodeHlink_sameDecoding (h : SameDecoding opts f g) (prev : List FileEntry)
    (name : List UInt8) (delta : DeltaState) :
    decodeHlink g opts prev name delta =
      (Option.map fun e => { e with flags := g }) <$> decodeHlink f opts prev name delta := by
  unfold decodeHlink
  rw [h.hlinked, h.hlinkFirst]
  -- no reference, or one that is looked up alike
  by_cases hin : (!opts.preserveHardLinks || !f.testBit 9 || f.testBit 12) = true
  · simp [hin, map_pure]
  · rw [if_neg hin, if_neg hin]
    funext bs
    rw [map_apply]
    cases hread : readVarint bs with
    | error e => rw [bind_error hread, bind_error hread]
    | ok x =>
      rw [bind_ok hread, bind_ok hread]
      by_cases hfits : IsI32 (toI32 x.1 - delta.ndxStart)
      · rw [if_neg (not_not.mpr hfits), if_neg (not_not.mpr hfits), pure_apply, pure_apply]
        dsimp only
        rw [Option.map_map]
        rfl
      · simp [hfits]

/-- **What the decoder looks at.** Flags that agree where it looks lead to the same entry, which
keeps the flags themselves. -/
theorem decodeBody_sameDecoding (h : SameDecoding opts f g) (prev : List FileEntry)
    (st : DecoderState) (name : List UInt8) :
    decodeBody g opts prev st name =
      (fun read => ({ read.1 with flags := g }, read.2)) <$> decodeBody f opts prev st name := by
  unfold decodeBody
  rw [decodeHlink_sameDecoding h, bind_map_left, map_bind]
  refine bind_congr fun link => ?_
  cases link with
  | none => exact decodeFields_sameDecoding h name st
  | some e => rfl

end Decoding

/-! ## The end of a list -/

theorem toI32_toNat_emod {x : Int} (h : IsI32 x) : toI32 (x % 2 ^ 32).toNat = x := by
  obtain ⟨hlow, hhigh⟩ := h
  unfold toI32
  rw [Int.bmod_def]
  split <;> omega

/-- The end of a list is read as such, with the error where the codec has room for it. -/
theorem reads_endOfFlist_error {ioError : Int} (h : IsI32 ioError) (opts : FileListOptions) :
    Reads (decodeXmitFlags opts) (encodeEndOfFlist ioError opts)
      (.endOfList (if opts.wire.flagsCodec = .byte then 0 else ioError)) := by
  have herror : Reads (readVarint >>= fun code => pure (DecodedFlags.endOfList (toI32 code)))
      (writeVarint (ioError % 2 ^ 32).toNat) (.endOfList ioError) :=
    (reads_varint (by omega)).map.congr rfl (by rw [toI32_toNat_emod h])
  unfold decodeXmitFlags encodeEndOfFlist
  cases opts.wire.flagsCodec with
  | varint =>
    refine (reads_varint (by decide)).bind ?_
    exact herror
  | byteExtended =>
    by_cases hzero : ioError = 0
    · subst hzero
      exact (reads_byte 0).bind_nil (Reads.pure _)
    · dsimp only
      rw [if_pos hzero, show writeShortint (2 ^ 2 + 2 ^ 12) = [4] ++ [16] from by decide]
      refine (reads_byte 4).bind ?_
      refine (reads_byte 16).bind ?_
      exact herror
  -- a single byte has no room for the error
  | byte => exact (reads_byte 0).bind_nil (Reads.pure _)

/-- The formats of the versions: the flags are a `varint` only where that has been negotiated. -/
theorem WireFormat.flagsFit_version {version compatFlags : Nat}
    (hcompat : version < 28 → compatFlags.testBit 7 = false) :
    (WireFormat.new version compatFlags).FlagsFit := by
  rcases lt_or_ge version 28 with hold | hnew
  · have hbyte : (WireFormat.new version compatFlags).flagsCodec = .byte := by
      simp [WireFormat.new, hcompat hold]
      omega
    refine ⟨fun _ => ⟨if_pos hold, ?_, ?_⟩, fun h => absurd hbyte h, fun h => ?_⟩
    · exact decide_eq_false (by omega)
    · exact decide_eq_false (by omega)
    · exact if_pos (of_decide_eq_true h)
  · exact WireFormat.flagsFit_new hnew

/-- **Entries and the end of a list.** In every version the flags of an entry are read as those of
an entry, and agree where the decoder looks; and the end of the list is read as such. -/
theorem entry_not_end_of_list {version compatFlags : Nat} {opts : FileListOptions}
    (hcompat : version < 28 → compatFlags.testBit 7 = false)
    (hwire : opts.wire = WireFormat.new version compatFlags) (e : FileEntry) (state : DeltaState)
    (action : HardLinkAction) (haction : opts.wire.flagsCodec = .byte → action = .notHardLinked) :
    (∃ g, Reads (decodeXmitFlags opts)
        (encodeXmitFlags (computeXmitFlags e state opts action) opts) (.entry g) ∧
      SameDecoding opts (computeXmitFlags e state opts action) g) ∧
    ∀ ioError, IsI32 ioError → Reads (decodeXmitFlags opts) (encodeEndOfFlist ioError opts)
      (.endOfList (if opts.wire.flagsCodec = .byte then 0 else ioError)) := by
  have hfit : opts.wire.FlagsFit := hwire ▸ WireFormat.flagsFit_version hcompat
  have hflags := flagsOf_computeXmitFlags e state opts action
  refine ⟨⟨_, reads_computedFlags hfit hflags, ?_⟩, fun _ h => reads_endOfFlist_error h opts⟩
  have hlink : ∀ k, 8 ≤ k → k ≠ 2 →
      (opts.wire.flagsCodec = .byte → (computeXmitFlags e state opts action).testBit k = false) →
      (wireFlags (computeXmitFlags e state opts action) opts).testBit k =
        (computeXmitFlags e state opts action).testBit k := by
    intro k hk htwo hclear
    by_cases hbyte : opts.wire.flagsCodec = .byte
    · rw [testBit_wireFlags_byte (by omega) hbyte, hclear hbyte, Bool.and_false]
    · exact testBit_wireFlags htwo hbyte
  -- one byte has no room for hard links, and there are none
  refine ⟨seenFlags_wireFlags hfit, hlink 9 (by decide) (by decide) fun hbyte => ?_,
    hlink 12 (by decide) (by decide) fun hbyte => ?_⟩
  · rw [hflags.hlinked, haction hbyte]
    rfl
  · rw [hflags.hlinkFirst, haction hbyte]
    rfl

def uidOptions : FileListOptions :=
  { FileListOptions.fromProtocol ⟨29, 0, .md4, .none, false, 0, .new 29 0⟩ .default with
    preserveUid := true, preserveGid := true }

/-- The first entry of a list has no flag at all. -/
theorem first_entry_not_end_of_list :
    computeXmitFlags .default .default uidOptions .notHardLinked = 0 ∧
    ∃ g, Reads (decodeXmitFlags uidOptions) (encodeXmitFlags
      (computeXmitFlags .default .default uidOptions .notHardLinked) uidOptions) (.entry g) := by
  refine ⟨by decide, ?_⟩
  obtain ⟨⟨g, hreads, -⟩, -⟩ := entry_not_end_of_list
    (by decide : 29 < 28 → Nat.testBit 0 7 = false) (rfl : uidOptions.wire = WireFormat.new 29 0)
    .default .default .notHardLinked fun _ => rfl
  exact ⟨g, hreads⟩

end Ferrosync
