import Ferrosync.Types
import Ferrosync.Lib.ByteStream
import Ferrosync.Lib.Text

set_option autoImplicit false

/-! # Demultiplexing

Frames of data and control messages, read in two ways: `MplexReader::read_message` takes one message
after the other from the stream, `parse_frames_from_staging` takes what is complete of a buffer.
The first one reads messages of fixed size whatever the length in the header says, and reports tags
it does not know; the second one goes by the length, and skips those. So they agree on a sequence of
frames exactly if the tags are known and messages of fixed size have their size
(`demultiplexers_agree_iff`).
-/

namespace Ferrosync

open ByteStream List

/-! ## Messages -/

inductive MsgCode where
  | data
  | errorXfer
  | info
  | error
  | warning
  | errorSocket
  | log
  | client
  | errorUtf8
  | redo
  | stats
  | ioError
  | ioTimeout
  | noop
  | errorExit
  | success
  | deleted
  | noSend
  deriving DecidableEq, Repr

def msgCodes : List (UInt8 × MsgCode) :=
  [(0, .data), (1, .errorXfer), (2, .info), (3, .error), (4, .warning), (5, .errorSocket), (6, .log),
    (7, .client), (8, .errorUtf8), (9, .redo), (10, .stats), (22, .ioError), (33, .ioTimeout),
    (42, .noop), (86, .errorExit), (100, .success), (101, .deleted), (102, .noSend)]

def MsgCode.fromTag (tag : UInt8) : Option MsgCode := msgCodes.lookup tag

inductive MplexMessage where
  | data (bytes : List UInt8)
  | info (text : Text)
  | error (code : MsgCode) (text : Text)
  | warning (text : Text)
  | log (text : Text)
  | redo (ndx : Int)
  | success (text : Text)
  | deleted (text : Text)
  | noSend (text : Text)
  | ioError (flags : Int)
  | ioTimeout (seconds : Int)
  | stats (bytes : List UInt8)
  | noop
  | errorExit (bytes : List UInt8)
  deriving DecidableEq, Repr

inductive MplexError where
  | invalidMplexTag (tag : UInt8)
  | unexpectedMessageType (code : UInt8)
  | unexpectedEof
  deriving DecidableEq, Repr

/-- Added to the code of a message. -/
def mplexBase : UInt8 := 7

/-- The messages that are a number of four bytes. -/
def MsgCode.number : MsgCode → Option (Int → MplexMessage)
  | .redo => some .redo
  | .ioError => some .ioError
  | .ioTimeout => some .ioTimeout
  | _ => none

/-- The messages that are what the payload is. -/
def MsgCode.whole (code : MsgCode) (payload : List UInt8) : MplexMessage :=
  match code with
  | .data => .data payload
  | .info => .info (Text.fromUtf8Lossy payload)
  | .warning => .warning (Text.fromUtf8Lossy payload)
  | .log | .client => .log (Text.fromUtf8Lossy payload)
  | .success => .success (Text.fromUtf8Lossy payload)
  | .deleted => .deleted (Text.fromUtf8Lossy payload)
  | .noSend => .noSend (Text.fromUtf8Lossy payload)
  | .stats => .stats payload
  | .errorExit => .errorExit payload
  | .error | .errorXfer | .errorSocket | .errorUtf8 => .error code (Text.fromUtf8Lossy payload)
  | .noop | .redo | .ioError | .ioTimeout => .noop

/-- `i32::from_le_bytes`. -/
def leI32 (bytes : List UInt8) : Int := toI32 (ofLE bytes)

/-! ## One message after the other -/

def readPayload (code : MsgCode) (payloadLen : Nat) : Reader MplexError MplexMessage :=
  match code.number with
  | some message => do
    let bytes ← readExact .unexpectedEof 4
    pure (message (leI32 bytes))
  | none =>
    if code = .noop then pure .noop
    else do
      let payload ← readExact .unexpectedEof payloadLen
      pure (code.whole payload)

/-- `read_message`: three bytes of length, the tag, and the payload. -/
def readMessage : Reader MplexError MplexMessage := fun
  | b₀ :: b₁ :: b₂ :: tag :: rest =>
    if tag < mplexBase then .error (.invalidMplexTag tag)
    else
      match MsgCode.fromTag (tag - mplexBase) with
      | some code => readPayload code (ofLE [b₀, b₁, b₂]) rest
      | none => .error (.unexpectedMessageType (tag - mplexBase))
  | _ => .error .unexpectedEof

/-- The data bytes, the control messages, and whether an error is reported. -/
structure Demuxed where
  data : List UInt8
  controls : List MplexMessage
  failed : Bool
  deriving DecidableEq, Repr

def Demuxed.none : Demuxed := ⟨[], [], false⟩

/-- A message comes before others. -/
def Demuxed.add (d : Demuxed) : MplexMessage → Demuxed
  | .data bytes => { d with data := bytes ++ d.data }
  | message => { d with controls := message :: d.controls }

variable {message : MplexMessage}

theorem readPayload_suffix {code : MsgCode} {n : Nat} {bytes rest : List UInt8}
    (h : readPayload code n bytes = .ok (message, rest)) : rest <:+ bytes := by
  have hread : ∀ {k : Nat} {f : List UInt8 → MplexMessage},
      (readExact MplexError.unexpectedEof k >>= fun taken => pure (f taken)) bytes =
        .ok (message, rest) →
      rest <:+ bytes := by
    intro k f h
    obtain ⟨taken, mid, hread, hpure⟩ := bind_eq_ok h
    obtain ⟨-, rfl⟩ := readExact_eq_ok hread
    obtain ⟨-, rfl⟩ := pure_eq_ok hpure
    exact suffix_append _ _
  unfold readPayload at h
  -- the three kinds of payload: a number, none, or the bytes of the frame
  cases hnumber : code.number with
  | some make =>
    rw [hnumber] at h
    exact hread h
  | none =>
    rw [hnumber] at h
    by_cases hnoop : code = .noop
    · simp only [if_pos hnoop] at h
      exact (pure_eq_ok h).2 ▸ suffix_rfl
    · simp only [if_neg hnoop] at h
      exact hread h

theorem readMessage_ok {bytes rest : List UInt8} (h : readMessage bytes = .ok (message, rest)) :
    ∃ b₀ b₁ b₂ tag code behind, bytes = b₀ :: b₁ :: b₂ :: tag :: behind ∧ ¬ tag < mplexBase ∧
      MsgCode.fromTag (tag - mplexBase) = some code ∧
      readPayload code (ofLE [b₀, b₁, b₂]) behind = .ok (message, rest) := by
  unfold readMessage at h
  split at h
  · split_ifs at h with htag
    split at h
    · exact ⟨_, _, _, _, _, _, rfl, htag, ‹_›, h⟩
    · cases h
  · cases h

/-- The stream is read to its end, or to an error. -/
def demux (bytes : List UInt8) : Demuxed :=
  if bytes = [] then .none
  else
    match h : readMessage bytes with
    | .ok (message, rest) =>
      have : rest.length < bytes.length := by
        obtain ⟨b₀, b₁, b₂, tag, code, behind, rfl, -, -, hread⟩ := readMessage_ok h
        have := (readPayload_suffix hread).length_le
        simp
        omega
      (demux rest).add message
    | .error _ => ⟨[], [], true⟩
  termination_by bytes.length

/-! ## What is complete of a buffer -/

/-- `decode_control_message`, and the branch for data in front of it. -/
def decodeControlMessage (code : UInt8) (payload : List UInt8) : MplexMessage :=
  match MsgCode.fromTag code with
  | none => .noop
  | some code =>
    match code.number with
    | some message => if 4 ≤ payload.length then message (leI32 (payload.take 4)) else .noop
    | none => code.whole payload

/-- `parse_frames_from_staging`: what stays in the buffer, and the messages in front of it. -/
def parseFramesFromStaging (staging : List UInt8) : List UInt8 × List MplexMessage :=
  match staging with
  | b₀ :: b₁ :: b₂ :: tag :: rest =>
    if rest.length < ofLE [b₀, b₁, b₂] then (b₀ :: b₁ :: b₂ :: tag :: rest, [])
    else
      let next := parseFramesFromStaging (rest.drop (ofLE [b₀, b₁, b₂]))
      if tag < mplexBase then next
      else
        (next.1, decodeControlMessage (tag - mplexBase) (rest.take (ofLE [b₀, b₁, b₂])) :: next.2)
  | staging => (staging, [])
  termination_by staging.length
  decreasing_by
    simp only [List.length_cons, List.length_drop]
    omega

/-- The bytes arrive in pieces. -/
def feedStaging : List (List UInt8) → List UInt8 → List MplexMessage
  | [], _ => []
  | chunk :: chunks, staging =>
    let r := parseFramesFromStaging (staging ++ chunk)
    r.2 ++ feedStaging chunks r.1

/-- What the messages are; the buffer reports no error. -/
def collect (messages : List MplexMessage) : Demuxed := messages.foldr (fun m d => d.add m) .none

/-! ## Frames -/

/-- A frame whose length fits in its header. -/
structure Frame where
  tag : UInt8
  payload : List UInt8
  fits : payload.length < 2 ^ 24

namespace Frame

def bytes (f : Frame) : List UInt8 := leBytes 3 f.payload.length ++ f.tag :: f.payload

/-- What the buffer makes of a frame. -/
def messages (f : Frame) : List MplexMessage :=
  if f.tag < mplexBase then [] else [decodeControlMessage (f.tag - mplexBase) f.payload]

/-- Bytes that are frames without data. -/
def Padding (bytes : List UInt8) : Prop :=
  ∃ k, bytes = (List.replicate k [0, 0, 0, mplexBase]).flatten

/-- What the stream does not read of the payload. -/
def unread (f : Frame) (code : MsgCode) : List UInt8 :=
  if code.number.isSome then f.payload.drop 4 else if code = .noop then f.payload else []

/-- The tag is known, a number has its four bytes, and the payload is read but for padding. -/
def Aligned (f : Frame) : Prop :=
  ¬ f.tag < mplexBase ∧ ∃ code, MsgCode.fromTag (f.tag - mplexBase) = some code ∧
    (code.number.isSome = true → 4 ≤ f.payload.length) ∧ Padding (f.unread code)

end Frame

section Frames

variable {f : Frame} {staging more rest : List UInt8} {d d' : Demuxed} {m : MplexMessage}

theorem Frame.bytes_eq (f : Frame) : ∃ b₀ b₁ b₂, ofLE [b₀, b₁, b₂] = f.payload.length ∧
    f.bytes = b₀ :: b₁ :: b₂ :: f.tag :: f.payload :=
  ⟨_, _, _, @ofLE_leBytes_of_lt _ 3 f.fits, rfl⟩

theorem parse_frame (f : Frame) (rest : List UInt8) :
    parseFramesFromStaging (f.bytes ++ rest) =
      ((parseFramesFromStaging rest).1, f.messages ++ (parseFramesFromStaging rest).2) := by
  obtain ⟨b₀, b₁, b₂, hlen, hbytes⟩ := f.bytes_eq
  rw [hbytes, cons_append, cons_append, cons_append, cons_append,
    parseFramesFromStaging, hlen, if_neg (by simp), drop_left, take_left, Frame.messages]
  split_ifs <;> rfl

theorem parse_append (staging more : List UInt8) :
    parseFramesFromStaging (staging ++ more) =
      ((parseFramesFromStaging ((parseFramesFromStaging staging).1 ++ more)).1,
        (parseFramesFromStaging staging).2 ++
          (parseFramesFromStaging ((parseFramesFromStaging staging).1 ++ more)).2) := by
  -- a frame that is complete is parsed alike with more behind it; an incomplete one waits for it
  fun_induction parseFramesFromStaging staging with
  | case1 => rfl
  | case2 b₀ b₁ b₂ tag rest hlen next htag ih =>
    have hdrop := @drop_append_of_le_length _ _ more _ (Nat.not_lt.mp hlen)
    refine Eq.trans ?_ ih
    simp [parseFramesFromStaging, htag, hdrop]
    omega
  | case3 b₀ b₁ b₂ tag rest hlen next htag ih =>
    have hdrop := @drop_append_of_le_length _ _ more _ (Nat.not_lt.mp hlen)
    have htake := @take_append_of_le_length _ _ more _ (Nat.not_lt.mp hlen)
    rw [cons_append, cons_append, cons_append, cons_append,
      parseFramesFromStaging, if_neg (by rw [length_append]; omega), if_neg htag, hdrop, htake,
      ih]
    rfl
  | case4 => rfl

theorem feed_eq {chunks : List (List UInt8)}
    (hstuck : parseFramesFromStaging staging = (staging, [])) :
    feedStaging chunks staging = (parseFramesFromStaging (staging ++ chunks.flatten)).2 := by
  induction chunks generalizing staging with
  | nil => rw [flatten_nil, append_nil, hstuck]; rfl
  | cons chunk chunks ih =>
    have hnext := parse_append (staging ++ chunk) []
    rw [append_nil, append_nil] at hnext
    have hstuck' : parseFramesFromStaging (parseFramesFromStaging (staging ++ chunk)).1 =
        ((parseFramesFromStaging (staging ++ chunk)).1, []) := by
      have hsnd := congrArg Prod.snd hnext
      exact Prod.ext (congrArg Prod.fst hnext).symm (self_eq_append_right.mp hsnd)
    rw [feedStaging, ih hstuck', flatten_cons, ← append_assoc,
      parse_append (staging ++ chunk)]

theorem Demuxed.add_inj (h : d.add m = d'.add m) : d = d' := by
  obtain ⟨data, controls, failed⟩ := d
  obtain ⟨data', controls', failed'⟩ := d'
  cases m <;> simpa [Demuxed.add] using h

theorem Demuxed.foldr_add_inj {messages : List MplexMessage}
    (h : messages.foldr (fun m d => d.add m) d = messages.foldr (fun m d => d.add m) d') :
    d = d' := by
  induction messages with
  | nil => exact h
  | cons m messages ih => exact ih (add_inj h)

theorem demux_ok (h : readMessage staging = .ok (m, rest)) : demux staging = (demux rest).add m := by
  have hne : staging ≠ [] := by
    rintro rfl
    cases h
  rw [demux, if_neg hne]
  split
  · rename_i hok
    rw [h] at hok
    cases hok
    rfl
  · rename_i herror
    rw [h] at herror
    cases herror

theorem demux_error {e : MplexError} (hne : staging ≠ []) (h : readMessage staging = .error e) :
    demux staging = ⟨[], [], true⟩ := by
  rw [demux, if_neg hne]
  split
  · rename_i hok
    rw [h] at hok
    cases hok
  · rfl

theorem demux_padding (h : Frame.Padding staging) (rest : List UInt8) :
    demux (staging ++ rest) = demux rest := by
  obtain ⟨k, rfl⟩ := h
  induction k with
  | zero => rfl
  | succ k ih =>
    rw [replicate_succ, flatten_cons, append_assoc]
    exact (demux_ok (m := .data []) rfl).trans (congrArg (Demuxed.add · _) ih)

variable {code : MsgCode} {bytes : List UInt8}

theorem readPayload_number {make : Int → MplexMessage} {n : Nat} (h : code.number = some make)
    (bytes : List UInt8) :
    readPayload code n bytes =
      if 4 ≤ bytes.length then .ok (make (leI32 (bytes.take 4)), bytes.drop 4)
      else .error .unexpectedEof := by
  unfold readPayload
  rw [h]
  refine (bind_apply ..).trans ?_
  unfold readExact
  split_ifs <;> rfl

theorem readPayload_whole (h : code.number = none) (hne : code ≠ .noop) (n : Nat)
    (bytes : List UInt8) :
    readPayload code n bytes =
      if n ≤ bytes.length then .ok (code.whole (bytes.take n), bytes.drop n)
      else .error .unexpectedEof := by
  unfold readPayload
  rw [h]
  dsimp only
  rw [if_neg hne]
  refine (bind_apply ..).trans ?_
  unfold readExact
  split_ifs <;> rfl

/-- Data without bytes is a header. -/
theorem readMessage_empty (h : readMessage bytes = .ok (.data [], rest)) :
    bytes = [0, 0, 0, mplexBase] ++ rest := by
  obtain ⟨b₀, b₁, b₂, tag, code, behind, rfl, htag, hcode, hread⟩ := readMessage_ok h
  -- no other code gives data
  obtain ⟨rfl, hlen, rfl⟩ : code = .data ∧ ofLE [b₀, b₁, b₂] = 0 ∧ behind = rest := by
    cases hnumber : code.number with
    | some make =>
      rw [readPayload_number hnumber] at hread
      split_ifs at hread
      cases code <;> cases hnumber <;> cases hread
    | none =>
      by_cases hnoop : code = .noop
      · subst hnoop
        cases hread
      rw [readPayload_whole hnumber hnoop] at hread
      split_ifs at hread with hlen
      cases code <;> cases hnumber <;> try cases hread
      simp only [MsgCode.whole, Except.ok.injEq, Prod.mk.injEq, MplexMessage.data.injEq] at hread
      obtain ⟨htake, rfl⟩ := hread
      have hzero : ofLE [b₀, b₁, b₂] = 0 := by
        rw [← length_take_of_le hlen, htake, length_nil]
      exact ⟨rfl, hzero, by rw [hzero, drop_zero]⟩
  have hbytes : b₀ = 0 ∧ b₁ = 0 ∧ b₂ = 0 := by
    simp only [ofLE, ← UInt8.toNat_inj, UInt8.toNat_zero] at hlen ⊢
    omega
  have htag : tag - mplexBase = 0 := by
    obtain ⟨before, after, hcodes, -⟩ := lookup_eq_some_iff.mp hcode
    have hmem : (tag - mplexBase, MsgCode.data) ∈ msgCodes := by
      rw [hcodes]
      simp
    simpa [msgCodes] using hmem
  obtain ⟨rfl, rfl, rfl⟩ := hbytes
  rw [UInt8.sub_eq_iff_eq_add.mp htag]
  rfl

/-- Only padding is read as nothing. -/
theorem padding_of_demux (h : demux bytes = .none) : Frame.Padding bytes := by
  induction hlen : bytes.length using Nat.strong_induction_on generalizing bytes with
  | _ n ih =>
    rcases eq_or_ne bytes [] with rfl | hne
    · exact ⟨0, rfl⟩
    cases hread : readMessage bytes with
    | error e =>
      rw [demux_error hne hread] at h
      cases congrArg Demuxed.failed h
    | ok r =>
      obtain ⟨m, rest⟩ := r
      rw [demux_ok hread] at h
      -- every message but empty data leaves a trace
      obtain ⟨rfl, hrest⟩ : m = .data [] ∧ demux rest = .none := by
        generalize demux rest = d at h ⊢
        obtain ⟨data, controls, failed⟩ := d
        cases m <;> simp_all [Demuxed.add, Demuxed.none]
      obtain rfl := readMessage_empty hread
      have hlt : rest.length < n := by
        simp [← hlen]
        omega
      obtain ⟨k, rfl⟩ := ih _ hlt hrest rfl
      exact ⟨k + 1, by rw [replicate_succ, flatten_cons]⟩

theorem readMessage_tag (htag : ¬ f.tag < mplexBase)
    (hcode : MsgCode.fromTag (f.tag - mplexBase) = some code) (rest : List UInt8) :
    readMessage (f.bytes ++ rest) = readPayload code f.payload.length (f.payload ++ rest) := by
  obtain ⟨b₀, b₁, b₂, hlen, hbytes⟩ := f.bytes_eq
  rw [hbytes, ← hlen]
  simp only [cons_append, readMessage, if_neg htag, hcode]

/-- A message is the one of the buffer, and what is not read is in front of the rest. -/
theorem readMessage_frame (htag : ¬ f.tag < mplexBase)
    (hcode : MsgCode.fromTag (f.tag - mplexBase) = some code)
    (hlen : code.number.isSome = true → 4 ≤ f.payload.length) (rest : List UInt8) :
    readMessage (f.bytes ++ rest) =
      .ok (decodeControlMessage (f.tag - mplexBase) f.payload, f.unread code ++ rest) := by
  rw [readMessage_tag htag hcode, decodeControlMessage, hcode, Frame.unread]
  dsimp only
  cases hnumber : code.number with
  | some make =>
    have hlen := hlen (by rw [hnumber]; rfl)
    rw [readPayload_number hnumber, if_pos (by rw [length_append]; omega),
      take_append_of_le_length hlen, drop_append_of_le_length hlen]
    simp [hlen]
  | none =>
    rw [if_neg (by simp)]
    by_cases hnoop : code = .noop
    · subst hnoop
      rfl
    · simp [readPayload_whole hnumber hnoop, hnoop]

/-- **A frame that is aligned is read like a frame of the buffer.** -/
theorem demux_aligned (h : f.Aligned) (rest : List UInt8) :
    demux (f.bytes ++ rest) = f.messages.foldr (fun m d => d.add m) (demux rest) := by
  obtain ⟨htag, code, hcode, hlen, hpadding⟩ := h
  rw [demux_ok (readMessage_frame htag hcode hlen rest), demux_padding hpadding, Frame.messages,
    if_neg htag]
  rfl

theorem collect_failed (messages : List MplexMessage) : (collect messages).failed = false := by
  induction messages with
  | nil => rfl
  | cons m messages ih => cases m <;> exact ih

/-- Any other frame is not. -/
theorem aligned_of_demux (h : demux f.bytes = collect f.messages) : f.Aligned := by
  -- the intended messages have no failure, and so the frame is read without one
  have hread : ∀ e, readMessage f.bytes ≠ .error e := by
    intro e he
    rw [demux_error (by simp [Frame.bytes]) he] at h
    have := congrArg Demuxed.failed h
    rw [collect_failed] at this
    cases this
  obtain ⟨b₀, b₁, b₂, hlen, hbytes⟩ := f.bytes_eq
  have htag : ¬ f.tag < mplexBase := fun htag =>
    hread (.invalidMplexTag f.tag) (by rw [hbytes, readMessage, if_pos htag])
  obtain ⟨code, hcode⟩ : ∃ code, MsgCode.fromTag (f.tag - mplexBase) = some code := by
    rw [← Option.ne_none_iff_exists']
    intro hcode
    exact hread (.unexpectedMessageType _) (by rw [hbytes, readMessage, if_neg htag, hcode])
  have hfour : code.number.isSome = true → 4 ≤ f.payload.length := by
    intro hnumber
    obtain ⟨make, hmake⟩ := Option.isSome_iff_exists.mp hnumber
    by_contra hshort
    have hmessage := readMessage_tag htag hcode []
    rw [append_nil, append_nil, readPayload_number hmake, if_neg hshort] at hmessage
    exact hread _ hmessage
  refine ⟨htag, code, hcode, hfour, padding_of_demux ?_⟩
  have hmessage := readMessage_frame htag hcode hfour []
  rw [append_nil, append_nil] at hmessage
  rw [demux_ok hmessage, Frame.messages, if_neg htag] at h
  exact Demuxed.add_inj h

theorem aligned_prefix {frames : List Frame} (h : ∀ f ∈ frames, f.Aligned) (rest : List UInt8) :
    demux (frames.flatMap Frame.bytes ++ rest) =
      (frames.flatMap Frame.messages).foldr (fun m d => d.add m) (demux rest) := by
  induction frames with
  | nil => rfl
  | cons f frames ih =>
    rw [forall_mem_cons] at h
    simp [demux_aligned h.1, ih h.2]

theorem parse_frames (frames : List Frame) :
    parseFramesFromStaging (frames.flatMap Frame.bytes) = ([], frames.flatMap Frame.messages) := by
  induction frames with
  | nil => simp [parseFramesFromStaging]
  | cons f frames ih => rw [flatMap_cons, parse_frame, ih, flatMap_cons]

end Frames

/-- **The two demultiplexers agree on a sequence of frames, after each of them and however it is
cut, exactly if every frame is aligned.** -/
theorem demultiplexers_agree_iff (frames : List Frame) :
    (∀ k chunks, chunks.flatten = (frames.take k).flatMap Frame.bytes →
        demux chunks.flatten = collect (feedStaging chunks [])) ↔
      ∀ f ∈ frames, f.Aligned := by
  have hfeed : ∀ {chunks : List (List UInt8)} {k},
      chunks.flatten = (frames.take k).flatMap Frame.bytes →
      feedStaging chunks [] = (frames.take k).flatMap Frame.messages := by
    intro chunks k h
    rw [feed_eq (by simp [parseFramesFromStaging]), nil_append, h, parse_frames]
  constructor
  · intro h
    -- the frames before the first bad one are read alike, so it is this one that is not
    have hprefix : ∀ k, ∀ f ∈ frames.take k, f.Aligned := by
      intro k
      induction k with
      | zero => simp
      | succ k ih =>
        have hk := h (k + 1) [(frames.take (k + 1)).flatMap Frame.bytes] (by simp)
        rw [hfeed flatten_singleton, flatten_singleton] at hk
        rw [take_add_one] at hk ⊢
        cases hnext : frames[k]? with
        | none => simpa [hnext] using ih
        | some f =>
          rw [hnext, Option.toList_some, flatMap_append, flatMap_append,
            aligned_prefix ih, collect, foldr_append, flatMap_singleton,
            flatMap_singleton] at hk
          rw [Option.toList_some, forall_mem_append, forall_mem_singleton]
          exact ⟨ih, aligned_of_demux (Demuxed.foldr_add_inj hk)⟩
    intro f hf
    exact hprefix frames.length f (by rwa [take_length])
  · intro h k chunks hchunks
    have haligned : ∀ f ∈ frames.take k, f.Aligned := fun f hf => h f (mem_of_mem_take hf)
    have hdemux := aligned_prefix haligned []
    rw [append_nil] at hdemux
    rw [hfeed hchunks, hchunks, hdemux, demux, if_pos rfl]
    rfl

/-- A number that is missing is an error for the stream; the buffer skips the frame. -/
theorem short_redo_skipped :
    demux [0, 0, 0, 16] = ⟨[], [], true⟩ ∧
      collect (feedStaging [[0, 0, 0, 16]] []) = ⟨[], [.noop], false⟩ := by
  constructor
  · exact demux_error (by decide) rfl
  · rw [feed_eq (by simp [parseFramesFromStaging])]
    exact congrArg (collect ·.2) (parse_frames [⟨16, [], by decide⟩])

end Ferrosync
