import Ferrosync.Engine.Sender
import Ferrosync.Engine.ReceiveFile
import Ferrosync.Fs.BufWriter

set_option autoImplicit false

/-! # A transfer with `--append`

The generator sends only the head of the signatures of the destination, the sender matches the
source against an empty list of signatures, and the receiver opens the destination at its end.
`create_writer` expects the sender to send the missing tail; the sender sends everything.
-/

namespace Ferrosync

open ByteStream

/-! ## One file of the push -/

/-- A regular file that a client pushes in append mode: the client's side of the session, the
entry and its index, and the states of the index codec and of the server's token reader. -/
structure AppendPush (τ σ : Type) where
  sender : Sender τ
  ndx : Int
  entry : FileEntry
  genState : NdxState
  sendState : NdxState
  reader : TokenReader σ
  readerStart : Except Failure σ
  append : sender.appendMode = true
  wet : sender.dryRun = false
  entry_eq : sender.entry? ndx = some entry
  isFile : entry.isFile = true
  len_eq : entry.len = (sender.source entry).length
  ndx_range : 0 ≤ ndx ∧ ndx < 2 ^ 31
  genState_valid : genState.Valid
  sendState_valid : sendState.Valid

namespace AppendPush

variable {τ σ : Type}

def source (P : AppendPush τ σ) : List UInt8 := P.sender.source P.entry

/-- What the generator sends for the file: index, item flags and the head of the signatures. -/
def request (P : AppendPush τ σ) (head : SumHead) : List UInt8 :=
  (writeNdx P.ndx P.genState P.sender.wire.intCodec).1 ++
    (P.sender.wire.writeIflags itemTransfer ++ writeSumHead head)

/-- The sender's answer. If the data cannot be made, nothing follows the header. -/
def response (X : Externals) (P : AppendPush τ σ) (ndx : Int) (iflags : Nat) (e : FileEntry)
    (sums : SumStruct) : List UInt8 :=
  P.sender.responseHeader P.sendState ndx iflags sums.head ++
    match P.sender.fileData X e sums with
    | .ok data => data
    | .error _ => []

/-- The receiver's arm: read the header, open the destination at its end, receive, close. The
result, and what the destination holds then. -/
def receive (X : Externals) (P : AppendPush τ σ) (blength : Nat) (dest input : List UInt8) :
    Except Failure (Nat × List UInt8) × List UInt8 :=
  match readResponseHeader P.sender.wire P.sendState input with
  | .error e => (.error e, dest)
  | .ok (h, rest) =>
    match P.readerStart with
    | .error e => (.error e, dest)
    | .ok s =>
      match recvFileDeltaToWriterWith X P.reader s dest (h.blength blength) P.sender.ctx
          BufWriter.sinkAll ⟨dest, []⟩ rest with
      | .error (e, w) => (.error e, w.content)
      | .ok ((n, w), rest) => (.ok (n, rest), w.content)

/-- The transfer of the file, with the destination as it was. -/
def transfer (X : Externals) (P : AppendPush τ σ) (dest : List UInt8) :
    Except Failure (Nat × List UInt8) × List UInt8 :=
  match computeSignatures X dest P.sender.ctx with
  | .error e => (.error e, dest)
  | .ok sigs =>
    match P.sender.readRequest P.genState (P.request sigs.head) with
    | .ok ((.transfer ndx iflags e sums, _), _) =>
      P.receive X (if sigs.head.blength > 0 then sigs.head.blength.toNat else 700) dest
        (P.response X ndx iflags e sums)
    | .ok _ => (.error unexpectedEof, dest)
    | .error e => (.error e, dest)

end AppendPush

/-! ## Tokens that keep their data -/

/-- The reader hands out exactly the data that the writer was given as literals. -/
def Lossless {τ σ : Type} (T : TokenWriter τ) (w : τ) (R : TokenReader σ) (s : σ) : Prop :=
  ∀ (blength : Nat) (data : List (List UInt8)), ∃ (tokens : List UInt8) (w' : τ) (eof : List UInt8) (w'' : τ)
      (pieces : List (List UInt8)),
    writeDiffops T blength (data.map .literal) w = .ok (tokens, w') ∧
      T.writeEof w' = .ok (eof, w'') ∧ pieces.flatten = data.flatten ∧
      ∀ rest, R.Gives s (tokens ++ (eof ++ rest)) (pieces.map .data) rest

/-- The plain encoding keeps its data. -/
theorem lossless_plain : Lossless plainTokenWriter () plainTokenReader () := by
  intro blength data
  have hlit : ∀ op ∈ data.map DiffOp.literal, op.Sendable blength := by
    intro op hop
    obtain ⟨d, -, rfl⟩ := List.mem_map.mp hop
    trivial
  have htokens : (data.map DiffOp.literal).flatMap (DiffOp.tokens blength) =
      (data.flatMap (chunks dataChunkSize)).map .data := by
    rw [List.flatMap_map, List.map_flatMap]
    rfl
  refine ⟨_, (), sendEof, (), data.flatMap (chunks dataChunkSize), writeDiffops_plain hlit, rfl,
    ?_, fun rest => ?_⟩
  -- the chunks of a literal are the literal
  · clear hlit htokens
    induction data with
    | nil => rfl
    | cons d data ih =>
      simp [chunks_flatten dataChunkSize_pos, ih]
  · rw [htokens]
    refine gives_plain rest fun t ht => ?_
    rw [← htokens, List.mem_flatMap] at ht
    obtain ⟨op, hop, ht⟩ := ht
    exact tokens_sendable (hlit op hop) t ht

/-! ## What is sent -/

/-- Without signatures only literals cover a source. -/
theorem Covers.literals {X : Externals} {cfg : MatcherConfig} (hnone : cfg.sum2Entries = []) :
    ∀ {ops : List DiffOp} {source : List UInt8}, Covers X cfg ops source →
      ∃ data : List (List UInt8), ops = data.map .literal ∧ data.flatten = source
  | [], _, h => ⟨[], rfl, h.symm⟩
  | .literal _ :: _, _, ⟨_, _, rfl, rfl, h⟩ => by
    obtain ⟨data, rfl, rfl⟩ := Covers.literals hnone h
    exact ⟨_ :: data, rfl, rfl⟩
  | .copy _ :: _, _, ⟨_, _, _, ⟨idx, _, _, hidx⟩, _⟩ => by
    rw [hnone] at hidx
    cases hidx

namespace AppendPush

variable {τ σ : Type} {X : Externals} {P : AppendPush τ σ} {dest : List UInt8} {head : SumHead}

/-- The source is large enough to be streamed, and a chunk does not hold a block: the matcher then
never fills its window and stops after the first chunk. -/
def Cut (P : AppendPush τ σ) (head : SumHead) : Prop :=
  streamingThreshold ≤ P.source.length ∧ 0 < head.count ∧ defaultStreamChunk < head.blength

instance (P : AppendPush τ σ) (head : SumHead) : Decidable (P.Cut head) :=
  inferInstanceAs (Decidable (_ ∧ _ ∧ _))

/-- The data of the file: everything, up to the defect of streaming. -/
def sent (P : AppendPush τ σ) (head : SumHead) : List UInt8 :=
  if P.Cut head then P.source.take defaultStreamChunk else P.source

theorem cut_iff (P : AppendPush τ σ) (head : SumHead) :
    P.sender.Cut P.entry head ↔ P.Cut head := by
  have hchunk : (defaultStreamChunk : Int) < streamingThreshold := by decide
  unfold Sender.Cut Cut
  rw [P.len_eq, show P.sender.source P.entry = P.source from rfl]
  constructor
  · exact fun ⟨hlarge, hcount, hblock, _⟩ => ⟨hlarge, hcount, hblock⟩
  · exact fun ⟨hlarge, hcount, hblock⟩ => ⟨hlarge, hcount, hblock, by omega⟩

/-- The sender describes the file by literals, and hashes what it sends. -/
theorem describe_eq (hblength : head.blength < 2 ^ 31) :
    ∃ data : List (List UInt8), data.flatten = P.sent head ∧
      P.sender.describe X P.entry ⟨head, []⟩ =
        .ok (data.map .literal, fileDigest X P.sender.ctx.checksumType data.flatten) := by
  by_cases hcut : P.Cut head
  · refine ⟨[P.source.take defaultStreamChunk], ?_, ?_⟩
    · rw [List.flatten_singleton, sent, if_pos hcut]
    · rw [List.flatten_singleton]
      exact Sender.describe_of_cut X hblength ((cut_iff P head).mpr hcut)
  · obtain ⟨ops, hdescribe, hcovers⟩ := @Sender.describe_of_not_cut _ P.sender P.entry
      ⟨head, []⟩ X hblength (mt (cut_iff P head).mp hcut)
    obtain ⟨data, rfl, hdata⟩ := Covers.literals rfl hcovers
    refine ⟨data, ?_, ?_⟩
    · rw [hdata, sent, if_neg hcut]
      rfl
    · rw [hdata]
      exact hdescribe

/-! ## The transfer -/

def tokenData : Token → List UInt8
  | .data bytes => bytes
  | _ => []

/-- The sender gets the request as it was made, with an empty list of signatures. -/
theorem readRequest_eq (P : AppendPush τ σ) (hhead : head.InRange) :
    ∃ state, P.sender.readRequest P.genState (P.request head) =
      .ok ((.transfer P.ndx (P.sender.wire.seenIflags itemTransfer) P.entry ⟨head, []⟩, state),
        []) := by
  obtain ⟨hnonneg, hlt⟩ := P.ndx_range
  have hiflags := P.sender.wire.reads_iflags (by decide : itemTransfer < 2 ^ 16) (by decide)
    (by decide)
  have hbody : Reads (P.sender.readBody P.ndx (P.sender.wire.seenIflags itemTransfer))
      (writeSumHead head)
      (.transfer P.ndx (P.sender.wire.seenIflags itemTransfer) P.entry ⟨head, []⟩) := by
    -- the flags ask for a transfer, as far as the version has flags at all
    have htransfer : ¬ (P.sender.wire.hasIflags = true ∧
        (P.sender.wire.seenIflags itemTransfer).testBit 15 = false) := by
      rintro ⟨hflags, hbit⟩
      rw [WireFormat.seenIflags, if_pos hflags] at hbit
      exact absurd hbit (by decide)
    unfold Sender.readBody Sender.readSignatures
    rw [P.entry_eq]
    dsimp only
    rw [if_neg (by rw [P.isFile]; decide), if_neg htransfer, if_neg (by rw [P.wet]; decide),
      if_pos P.append]
    exact (reads_sumHead hhead).map.map
  have hread : Reads (P.sender.readRequest P.genState) (P.request head)
      (.transfer P.ndx (P.sender.wire.seenIflags itemTransfer) P.entry ⟨head, []⟩,
        (writeNdx P.ndx P.genState P.sender.wire.intCodec).2) := by
    refine (reads_ndx P.genState_valid ⟨by omega, hlt⟩).bind ?_
    dsimp only
    rw [if_neg (by unfold ndxDone; omega), if_neg (by omega)]
    exact hiflags.bind hbody.map
  have hall := hread []
  rw [List.append_nil] at hall
  exact ⟨_, hall⟩

/-- The data of the file, as the receiver's token reader sees it. -/
theorem fileData_eq {w : τ} {s : σ} (hw : P.sender.tokensStart = .ok w)
    (hcodec : Lossless P.sender.tokens w P.reader s) (hblength : head.blength < 2 ^ 31) :
    ∃ (bytes : List UInt8) (pieces : List (List UInt8)),
      P.sender.fileData X P.entry ⟨head, []⟩ = .ok bytes ∧ pieces.flatten = P.sent head ∧
        P.reader.Gives s bytes (pieces.map .data)
          (fileDigest X P.sender.ctx.checksumType pieces.flatten) := by
  obtain ⟨data, hdata, hdesc⟩ := describe_eq (X := X) (P := P) hblength
  obtain ⟨tokens, w', eof, w'', pieces, hwrite, heof, hpieces, hgives⟩ :=
    hcodec (asUsize head.blength) data
  refine ⟨_, pieces, ?_, hpieces.trans hdata, hgives _⟩
  unfold Sender.fileData
  rw [hw, Loop.ok_bind, hdesc, Loop.ok_bind]
  dsimp only
  rw [hwrite, Loop.ok_bind]
  rw [heof, hpieces]
  rfl

theorem readHeader_eq (P : AppendPush τ σ) (hhead : head.InRange) (rest : List UInt8) :
    ∃ h, readResponseHeader P.sender.wire P.sendState
      (P.sender.responseHeader P.sendState P.ndx (P.sender.wire.seenIflags itemTransfer) head ++
        rest) = .ok (h, rest) := by
  obtain ⟨hnonneg, hlt⟩ := P.ndx_range
  have hseen : P.sender.wire.seenIflags itemTransfer < 2 ^ 16 ∧
      (P.sender.wire.seenIflags itemTransfer).testBit 11 = false ∧
      (P.sender.wire.seenIflags itemTransfer).testBit 12 = false := by
    unfold WireFormat.seenIflags
    split_ifs <;> decide
  have hiflags := P.sender.wire.reads_iflags hseen.1 hseen.2.1 hseen.2.2
  have hresponse : (Sender.responseHead head).InRange := by
    unfold Sender.responseHead
    split_ifs
    · decide
    · exact hhead
  exact ⟨_, reads_responseHeader P.sender.wire P.sendState_valid ⟨by omega, hlt⟩ hiflags
    hresponse rest⟩

theorem receive_eq {w : τ} {s : σ} (hw : P.sender.tokensStart = .ok w)
    (hs : P.readerStart = .ok s) (hcodec : Lossless P.sender.tokens w P.reader s)
    (hhead : head.InRange) (blength : Nat) (dest : List UInt8) :
    (P.receive X blength dest (P.response X P.ndx (P.sender.wire.seenIflags itemTransfer) P.entry
      ⟨head, []⟩)).2 = dest ++ P.sent head := by
  obtain ⟨bytes, pieces, hfile, hpieces, hgives⟩ :=
    fileData_eq (X := X) hw hcodec hhead.2.1.2
  obtain ⟨h, hheader⟩ := P.readHeader_eq hhead bytes
  have hflat : (pieces.map Token.data).flatMap tokenData = pieces.flatten := by
    rw [List.flatMap_map]
    exact List.flatMap_id'
  have hmap : (pieces.map Token.data).map tokenData = pieces := by
    rw [List.map_map]
    exact List.map_id' pieces
  -- there are no references in the tokens: every one of them is data, whatever the destination
  -- holds
  have hpiece : ∀ t ∈ pieces.map Token.data,
      deliver dest (h.blength blength) t = .ok (.piece (tokenData t)) := by
    intro t ht
    obtain ⟨p, -, rfl⟩ := List.mem_map.mp ht
    rfl
  rw [← hflat, ← List.append_nil (fileDigest _ _ _)] at hgives
  have hrecv := hgives.recvToBufWriter tokenData hpiece ⟨dest, []⟩
  rw [hmap] at hrecv
  rw [receive, response, hfile, hheader, hs]
  dsimp only
  rw [hrecv]
  show (BufWriter.writePieces ⟨dest, []⟩ pieces).content = _
  rw [BufWriter.content_writePieces (Nat.zero_le _), hpieces]
  show dest ++ [] ++ _ = _
  rw [List.append_nil]

theorem transfer_eq {w : τ} {s : σ} (hw : P.sender.tokensStart = .ok w)
    (hs : P.readerStart = .ok s) (hcodec : Lossless P.sender.tokens w P.reader s)
    {sigs : SumStruct} (hsigs : computeSignatures X dest P.sender.ctx = .ok sigs) :
    (P.transfer X dest).2 = dest ++ P.sent sigs.head := by
  have hhead := computeSignatures_inRange hsigs
  obtain ⟨state, hrequest⟩ := P.readRequest_eq hhead
  rw [transfer, hsigs]
  dsimp only
  rw [hrequest]
  exact receive_eq hw hs hcodec hhead _ dest

/-- What saves a transfer onto a non-empty destination: only the first chunk of a large source is
sent, because a block is longer than a chunk, and this chunk happens to be what is missing. -/
structure CutToFit (X : Externals) (P : AppendPush τ σ) (dest : List UInt8) : Prop where
  signed : ∃ sigs, computeSignatures X dest P.sender.ctx = .ok sigs ∧ 0 < sigs.head.count
  streamed : streamingThreshold ≤ P.source.length
  blocks : defaultStreamChunk < signatureBlockLength dest P.sender.ctx
  fits : dest ++ P.source.take defaultStreamChunk = P.source

end AppendPush

/-- **A transfer with `--append`** onto a proper prefix of the source gives the source just where
the prefix is empty, up to an accident of the streaming sender. -/
theorem append_transfer_iff {τ σ : Type} (X : Externals) (P : AppendPush τ σ) {w : τ} {s : σ}
    (hw : P.sender.tokensStart = .ok w) (hs : P.readerStart = .ok s)
    (hcodec : Lossless P.sender.tokens w P.reader s) {dest : List UInt8}
    (hdest : dest <+: P.source) (hproper : dest ≠ P.source) :
    (P.transfer X dest).2 = P.source ↔ dest = [] ∨ P.CutToFit X dest := by
  cases hsigs : computeSignatures X dest P.sender.ctx with
  | error e =>
    have hkept : (P.transfer X dest).2 = dest := by rw [AppendPush.transfer, hsigs]
    rw [hkept]
    constructor
    · exact fun h => absurd h hproper
    · rintro (rfl | hcut)
      · cases hsigs
      · obtain ⟨sigs, hok, -⟩ := hcut.signed
        rw [hsigs] at hok
        cases hok
  | ok sigs =>
    rw [AppendPush.transfer_eq hw hs hcodec hsigs, AppendPush.sent]
    by_cases hcut : P.Cut sigs.head
    · rw [if_pos hcut]
      have hne : dest ≠ [] := by
        rintro rfl
        cases hsigs
        exact absurd hcut.2.1 (by decide)
      have hblocks := hcut.2.2
      rw [computeSignatures_blength hsigs hne] at hblocks
      constructor
      · exact fun hfits => .inr ⟨⟨sigs, hsigs, hcut.2.1⟩, hcut.1, hblocks, hfits⟩
      · rintro (hnil | hfit)
        · exact absurd hnil hne
        · exact hfit.fits
    · rw [if_neg hcut]
      constructor
      · intro h
        exact .inl (List.self_eq_append_left.mp h.symm)
      · rintro (rfl | hfit)
        · rfl
        · -- a destination with signatures of that block length would have been cut
          obtain ⟨sigs', hok, hcount⟩ := hfit.signed
          rw [hsigs] at hok
          cases hok
          have hne : dest ≠ [] := by
            rintro rfl
            cases hsigs
            exact absurd hcount (by decide)
          have hblocks := hfit.blocks
          rw [← computeSignatures_blength hsigs hne] at hblocks
          exact absurd ⟨hfit.streamed, hcount, hblocks⟩ hcut

/-- A push of a file with the bytes 1 and 2 in protocol 28. -/
def twoBytePush : AppendPush Unit Unit where
  sender :=
    { wire := .new 28 0
      ctx := padContext 4
      entries := [{ FileEntry.default with name := [0x66], mode := sIfreg, len := 2 }]
      ndxs := [0]
      source := fun _ => [1, 2]
      willing := fun _ _ => 0
      tokens := plainTokenWriter
      tokensStart := .ok ()
      dryRun := false
      appendMode := true
      ndxs_length := rfl }
  ndx := 0
  entry := { FileEntry.default with name := [0x66], mode := sIfreg, len := 2 }
  genState := .default
  sendState := .default
  reader := plainTokenReader
  readerStart := .ok ()
  append := rfl
  wet := rfl
  entry_eq := by decide
  isFile := by decide
  len_eq := rfl
  ndx_range := by decide
  genState_valid := NdxState.valid_default
  sendState_valid := NdxState.valid_default

/-- A destination that holds the first byte gets the whole file behind it. -/
theorem append_repeats_prefix_bytes :
    [1] <+: twoBytePush.source ∧ [1] ≠ twoBytePush.source ∧
      (twoBytePush.transfer padExternals [1]).2 = [1, 1, 2] := by
  refine ⟨by decide, by decide, ?_⟩
  decide +kernel

/-- An empty destination gets the file. -/
theorem append_transfer_empty :
    (twoBytePush.transfer padExternals []).2 = twoBytePush.source :=
  (append_transfer_iff padExternals twoBytePush rfl rfl lossless_plain List.nil_prefix
    (by decide)).mpr (.inl rfl)

end Ferrosync
