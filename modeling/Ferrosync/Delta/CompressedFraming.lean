import Ferrosync.Delta.CompressedSending

set_option autoImplicit false

/-! # Compressed literals and their frames

zlib ends every flushed output with a trailer of four bytes that the stream leaves out: the writer
strips it from the last output in front of a token, and the reader puts it back behind every
frame. The two do not fit each other. An output in front of more data keeps its trailer, and an
output of more than `MAX_DATA_COUNT` bytes becomes several frames.

The compressor and the decompressor are arbitrary machines that record what they have produced and
what they have been handed. `compressed_framing` says when the two records agree.
-/

namespace Ferrosync

open ByteStream List

variable {last start n : Nat} {data : List UInt8} {token : Int} {file : List (List UInt8)}

/-! ## Recorded compression -/

/-- A compression library that does not fail. -/
structure Machine (κ : Type) where
  reset : κ → κ
  run : κ → List UInt8 → List UInt8 × κ

/-- What has passed a machine: for each file, the latest first, one byte string for each call. -/
abbrev Log := List (List (List UInt8))

def Log.add : Log → List UInt8 → Log
  | [], x => [[x]]
  | file :: files, x => (file ++ [x]) :: files

section Recorders

variable {κ δ : Type}

/-- The compressor that remembers what it has produced. -/
def recordingCompressor (kind : CompressorType) (M : Machine κ) : Compressor (κ × Log) where
  kind := kind
  reset c := .ok (M.reset c.1, [] :: c.2)
  compress c chunk :=
    .ok ((M.run c.1 chunk).1, (M.run c.1 chunk).2, c.2.add (M.run c.1 chunk).1)

/-- The decompressor that remembers what it has been handed. -/
def recordingDecompressor (kind : CompressorType) (M : Machine δ) : Decompressor (δ × Log) where
  isZlib := kind = .zlib
  reset d := .ok (M.reset d.1, [] :: d.2)
  decompress d payload _ :=
    .ok ((M.run d.1 payload).1, (M.run d.1 payload).2, d.2.add payload)

/-- The state of a machine after these calls. -/
def Machine.after (M : Machine κ) (k : κ) (inputs : List (List UInt8)) : κ :=
  inputs.foldl (fun k x => (M.run k x).2) k

/-- The outputs of these calls; the flags go along. -/
def Machine.outputs (M : Machine κ) : κ → List (List UInt8 × Bool) → List (List UInt8 × Bool)
  | _, [] => []
  | k, (x, flushed) :: rest => ((M.run k x).1, flushed) :: M.outputs (M.run k x).2 rest

theorem Machine.outputs_append (M : Machine κ) (k : κ) (xs ys : List (List UInt8 × Bool)) :
    M.outputs k (xs ++ ys) = M.outputs k xs ++ M.outputs (M.after k (xs.map Prod.fst)) ys := by
  induction xs generalizing k with
  | nil => rfl
  | cons x xs ih =>
    rw [cons_append, outputs, outputs, ih]
    rfl

theorem Machine.after_append (M : Machine κ) (k : κ) (xs ys : List (List UInt8)) :
    M.after k (xs ++ ys) = M.after (M.after k xs) ys := List.foldl_append

/-! ### One call of the compressor -/

/-- What is framed of the output of a call. -/
def sentOutput (kind : CompressorType) (o : List UInt8 × Bool) : List UInt8 :=
  if o.2 then maybeStripTrailer o.1 kind else o.1

/-- What the reader hands over for a frame: `maybe_append_trailer`. -/
def withTrailer (kind : CompressorType) (x : List UInt8) : List UInt8 :=
  if kind = .zlib then x ++ syncFlushTrailer else x

/-- What the decompressor is handed for the output of a call. -/
def handedFor (kind : CompressorType) (o : List UInt8 × Bool) : List (List UInt8) :=
  (chunks maxDataCount (sentOutput kind o)).map (withTrailer kind)

theorem maxDataCount_pos : 0 < maxDataCount := by decide

theorem deflatedFrames_eq (output : List UInt8) :
    deflatedFrames output = (chunks maxDataCount output).flatMap deflatedFrame := by
  unfold deflatedFrames
  split_ifs with hnil hlong
  · rw [hnil, chunks_nil, flatMap_nil]
  · rfl
  · simp [chunks_of_length_le hnil (not_lt.mp hlong)]

/-- Calls of the compressor add to the log of the file. -/
theorem compressChunks_eq (kind : CompressorType) (M : Machine κ) (doFlush : Bool)
    (chunks : List (List UInt8)) (k : κ) (file : List (List UInt8)) (log : Log) :
    compressChunks (recordingCompressor kind M) doFlush chunks (k, file :: log) =
      .ok ((M.outputs k (flagged doFlush chunks)).flatMap
          (fun o => deflatedFrames (sentOutput kind o)),
        M.after k chunks, (file ++ (M.outputs k (flagged doFlush chunks)).map Prod.fst) :: log) := by
  induction chunks generalizing k file with
  | nil => simp [compressChunks, flagged, Machine.outputs, Machine.after]
  | cons c rest ih =>
    have hcall : (recordingCompressor kind M).compress (k, file :: log) c =
        .ok ((M.run k c).1, (M.run k c).2, (file ++ [(M.run k c).1]) :: log) := rfl
    rw [compressChunks, hcall]
    simp only [bind, Except.bind, ih]
    simp [flagged, Machine.outputs, Machine.after, sentOutput, recordingCompressor, pure,
      Except.pure]

variable {r : CompressedTokenReader (δ × Log)}

/-- Frames that are read add to the log of the file. -/
theorem continues_frames (kind : CompressorType) (M : Machine δ) (xs : List (List UInt8))
    (hxs : ∀ x ∈ xs, 0 < x.length ∧ x.length ≤ maxDataCount) (d : δ) (file : List (List UInt8))
    (log : Log) (hidle : r.state = .idle) (hstate : r.decompressor = (d, file :: log)) :
    Continues (recordingDecompressor kind M) r (xs.flatMap deflatedFrame) { r with
      decompressor := (M.after d (xs.map (withTrailer kind)),
        (file ++ xs.map (withTrailer kind)) :: log) } := by
  induction xs generalizing r d file with
  | nil =>
    rw [map_nil, append_nil]
    have hsame : ({ r with decompressor := (M.after d [], file :: log) } :
        CompressedTokenReader (δ × Log)) = r := by
      cases r
      rw [show M.after d [] = d from rfl]
      simp only at hstate
      rw [hstate]
    rw [hsame]
    exact Continues.refl r
  -- a frame that yields nothing is skipped by the reader, and so it is `Continues` and not `Yields`
  | cons x xs ih =>
    obtain ⟨hpos, hmax⟩ := hxs x mem_cons_self
    have hpayload : (if (recordingDecompressor kind M).isZlib then x ++ [0, 0, 0xFF, 0xFF] else x) =
        withTrailer kind x := by
      simp [recordingDecompressor, withTrailer, syncFlushTrailer]
    have hinflate : (recordingDecompressor kind M).decompress r.decompressor
        (if (recordingDecompressor kind M).isZlib then x ++ [0, 0, 0xFF, 0xFF] else x)
        dataChunkSize = .ok ((M.run d (withTrailer kind x)).1,
          (M.run d (withTrailer kind x)).2, (file ++ [withTrailer kind x]) :: log) := by
      rw [hpayload, hstate]
      rfl
    have hfirst := continues_frame hidle (length_pos_iff.mp hpos) hmax hinflate
    have hrest := ih (fun y hy => hxs y (mem_cons_of_mem x hy))
      (M.run d (withTrailer kind x)).2 (file ++ [withTrailer kind x])
      (r := { r with decompressor :=
        ((M.run d (withTrailer kind x)).2, (file ++ [withTrailer kind x]) :: log) }) hidle rfl
    rw [append_assoc] at hrest
    exact hfirst.trans hrest

theorem continues_outputs (kind : CompressorType) (M : Machine δ) (os : List (List UInt8 × Bool))
    {d : δ} {log : Log} (hr : ReaderAt r last (d, file :: log)) :
    ∃ r', ReaderAt r' last (M.after d (os.flatMap (handedFor kind)),
        (file ++ os.flatMap (handedFor kind)) :: log) ∧
      Continues (recordingDecompressor kind M) r
        (os.flatMap fun o => deflatedFrames (sentOutput kind o)) r' := by
  -- an output is cut into frames; each of them is handed over with a trailer of its own
  have hbytes : (os.flatMap fun o => deflatedFrames (sentOutput kind o)) =
      (os.flatMap fun o => chunks maxDataCount (sentOutput kind o)).flatMap deflatedFrame := by
    rw [flatMap_assoc]
    simp only [deflatedFrames_eq]
  have hhanded : os.flatMap (handedFor kind) =
      (os.flatMap fun o => chunks maxDataCount (sentOutput kind o)).map (withTrailer kind) := by
    rw [map_flatMap]
    rfl
  have hlengths : ∀ x ∈ os.flatMap fun o => chunks maxDataCount (sentOutput kind o),
      0 < x.length ∧ x.length ≤ maxDataCount := by
    intro x hx
    obtain ⟨o, -, ho⟩ := mem_flatMap.mp hx
    exact chunks_length maxDataCount_pos ho
  rw [hbytes, hhanded]
  refine ⟨_, ?_, continues_frames kind M _ hlengths d file log hr.idle hr.decompressor⟩
  exact ⟨hr.idle, hr.token, rfl⟩

/-- What the compressor does for these files: for each, the outputs with their marks. -/
def filesOutputs (M : Machine κ) : κ → List (List TokenCall) → List (List (List UInt8 × Bool))
  | _, [] => []
  | k, calls :: files =>
    M.outputs (M.reset k) (fileChunks [] false calls) ::
      filesOutputs M (M.after (M.reset k) ((fileChunks [] false calls).map Prod.fst)) files

/-- The reader returns the tokens of this many files. -/
inductive FilesRead (D : Decompressor δ) :
    Nat → CompressedTokenReader δ → List UInt8 → CompressedTokenReader δ → List UInt8 → Prop
  | nil {r : CompressedTokenReader δ} {bs : List UInt8} : FilesRead D 0 r bs r bs
  | cons {n : Nat} {r r₁ r' : CompressedTokenReader δ} {bs mid rest : List UInt8}
      (file : FileRead D r bs r₁ mid) (files : FilesRead D n r₁ mid r' rest) :
      FilesRead D (n + 1) r bs r' rest

/-- Two recorders: each chunk adds the outputs for it to the one log, and what is handed over for
them to the other. -/
def recordingRelay (kind : CompressorType) (M : Machine κ) (N : Machine δ) :
    Relay (recordingCompressor kind M) (recordingDecompressor kind N) where
  Carries c d xs c' d' := ∃ k file log e handed dlog, c = (k, file :: log) ∧ d = (e, handed :: dlog) ∧
    c' = (M.after k (xs.map Prod.fst), (file ++ (M.outputs k xs).map Prod.fst) :: log) ∧
    d' = (N.after e ((M.outputs k xs).flatMap (handedFor kind)),
      (handed ++ (M.outputs k xs).flatMap (handedFor kind)) :: dlog)
  Follows r bs _ r' := Continues (recordingDecompressor kind N) r bs r'
  nil := by
    rintro c c' d d' ⟨k, file, log, e, handed, dlog, rfl, rfl, rfl, rfl⟩
    simp [Machine.outputs, Machine.after]
  split := by
    rintro c c' d d' xs ys ⟨k, file, log, e, handed, dlog, rfl, rfl, rfl, rfl⟩
    refine ⟨_, _, ⟨k, file, log, e, handed, dlog, rfl, rfl, rfl, rfl⟩,
      ⟨_, _, _, _, _, _, rfl, rfl, ?_, ?_⟩⟩
    all_goals simp [Machine.outputs_append, Machine.after_append]
  chunks := by
    rintro c c' d d' doFlush cs ⟨k, file, log, e, handed, dlog, rfl, rfl, rfl, rfl⟩
    rw [flagged_chunks]
    exact ⟨_, compressChunks_eq kind M doFlush cs k file log, continues_outputs kind N _⟩
  of_yields := Yields.continues
  trans := Continues.trans

/-- The logs after several files. -/
theorem carriesFiles_recording (kind : CompressorType) (M : Machine κ) (N : Machine δ)
    (files : List (List TokenCall)) (k : κ) (log : Log) (e : δ) (dlog : Log) :
    ∃ k' e', (recordingRelay kind M N).CarriesFiles (k, log) (e, dlog) files
      (k', ((filesOutputs M k files).map (List.map Prod.fst)).reverse ++ log)
      (e', ((filesOutputs M k files).map (List.flatMap (handedFor kind))).reverse ++ dlog) := by
  induction files generalizing k log e dlog with
  | nil => exact ⟨k, e, .nil⟩
  | cons calls files ih =>
    obtain ⟨k', e', hfiles⟩ := ih (M.after (M.reset k) ((fileChunks [] false calls).map Prod.fst))
      ((M.outputs (M.reset k) (fileChunks [] false calls)).map Prod.fst :: log)
      (N.after (N.reset e)
        ((M.outputs (M.reset k) (fileChunks [] false calls)).flatMap (handedFor kind)))
      ((M.outputs (M.reset k) (fileChunks [] false calls)).flatMap (handedFor kind) :: dlog)
    refine ⟨k', e', .cons rfl rfl ⟨_, [], log, _, [], dlog, rfl, rfl, rfl, rfl⟩ ?_⟩
    simp [filesOutputs]
    omega

/-- A reader that follows reads all files to their end. -/
theorem filesRead_of_follows {kind : CompressorType} {M : Machine κ} {N : Machine δ}
    {files : List (List TokenCall)} {bs : List UInt8} {d d' : δ × Log}
    (h : (recordingRelay kind M N).FollowsFiles d files bs d') (hinit : r.state = .init)
    (hr : r.decompressor = d) (rest : List UInt8) :
    ∃ r', FilesRead (recordingDecompressor kind N) files.length r (bs ++ rest) r' rest ∧
      r'.decompressor = d' := by
  induction h generalizing r with
  | nil => exact ⟨r, .nil, hr⟩
  | @cons d d₀ d₁ d' calls files bs bs' ts last hd _ file _ ih =>
    obtain ⟨r₁, hr₁, hcont⟩ := file
      (r := { r with decompressor := d₀, state := .idle, rxToken := 0 }) ⟨rfl, rfl, rfl⟩
    obtain ⟨r', hfiles, hd'⟩ := ih (r := { r₁ with state := .init }) rfl hr₁.decompressor
    refine ⟨r', .cons (FileRead.of_init hinit (hr ▸ hd) ?_) hfiles, hd'⟩
    rw [append_assoc, append_assoc]
    exact hcont (fileRead_eof hr₁.idle (bs' ++ rest))

/-- Files go through one writer and one reader, and what the two logs are then. -/
theorem transmit_files (kind : CompressorType) (M : Machine κ) (N : Machine δ)
    (files : List (List TokenCall)) (k : κ) (d : δ) :
    ∃ bs w r, writeFiles (compressedTokenWriter (recordingCompressor kind M)) files
        (.new (k, [])) = .ok (bs, w) ∧
      FilesRead (recordingDecompressor kind N) files.length (.new (d, [])) bs r [] ∧
      w.compressor.2 = ((filesOutputs M k files).map (List.map Prod.fst)).reverse ∧
      r.decompressor.2 = ((filesOutputs M k files).map (List.flatMap (handedFor kind))).reverse := by
  obtain ⟨k', e', hcarries⟩ := carriesFiles_recording kind M N files k [] d []
  obtain ⟨bs, w, hwrite, hc, hfollows⟩ :=
    (recordingRelay kind M N).writeFiles_follows (w := .new (k, [])) rfl rfl hcarries
  obtain ⟨r, hfiles, hd⟩ := filesRead_of_follows hfollows (r := .new (d, [])) rfl rfl []
  rw [append_nil] at hc hd hfiles
  exact ⟨bs, w, r, hwrite, hfiles, by rw [hc], by rw [hd]⟩

end Recorders

/-! ## What is handed over for what is produced -/

/-- For zlib and zstd the decompressor gets the compressor's stream; for lz4 every call of it gets
the output of one call. -/
def Faithful : CompressorType → List (List UInt8) → List (List UInt8) → Prop
  | .lz4, produced, handed => handed = produced.filter (· ≠ [])
  | _, produced, handed => handed.flatten = produced.flatten

/-- An output that goes through in one frame. A flushed output of zlib has to be longer than its
trailer; an output that is not flushed must not have any bytes. -/
def CleanOutput : CompressorType → List UInt8 × Bool → Prop
  | .zlib, (output, true) => 4 < output.length ∧ output.length ≤ maxDataCount + 4
  | .zlib, (output, false) => output = []
  | .zstd, _ => True
  | .lz4, (output, _) => output.length ≤ maxDataCount

/-- The output of a flushed call of zlib ends with the trailer. -/
def EndsFlushed (kind : CompressorType) (o : List UInt8 × Bool) : Prop :=
  kind = .zlib → o.2 = true → syncFlushTrailer <:+ o.1

/-- The output of a flushed call of zlib is more than the trailer. A bare trailer is dropped, which
can make up for a trailer too many elsewhere. -/
def NotBare (kind : CompressorType) (o : List UInt8 × Bool) : Prop :=
  kind = .zlib → o.2 = true → o.1 ≠ syncFlushTrailer

section Outputs

variable {kind : CompressorType} {o : List UInt8 × Bool} {os : List (List UInt8 × Bool)}

theorem maybeStripTrailer_append (x : List UInt8) :
    maybeStripTrailer (x ++ syncFlushTrailer) .zlib = x := by
  have hlen : (x ++ syncFlushTrailer).length - 4 = x.length := by
    rw [length_append]
    exact Nat.add_sub_cancel x.length 4
  rw [maybeStripTrailer, hlen, drop_left, take_left]
  exact if_pos ⟨rfl, by rw [length_append]; exact Nat.le_add_left 4 _, rfl⟩

theorem maybeStripTrailer_of_ne (h : kind ≠ .zlib) (x : List UInt8) :
    maybeStripTrailer x kind = x := if_neg (fun hall => h hall.1)

theorem sentOutput_of_ne (h : kind ≠ .zlib) : sentOutput kind o = o.1 := by
  unfold sentOutput
  rw [maybeStripTrailer_of_ne h, ite_self]

/-- Every frame of zlib brings a trailer. -/
theorem handed_zlib_length (x : List UInt8) :
    ((chunks maxDataCount x).map (withTrailer .zlib)).flatten.length =
      x.length + 4 * (chunks maxDataCount x).length := by
  have hsum : ∀ cs : List (List UInt8), (cs.map (withTrailer .zlib)).flatten.length =
      cs.flatten.length + 4 * cs.length := by
    intro cs
    induction cs with
    | nil => rfl
    | cons c cs ih =>
      simp [ih, withTrailer, syncFlushTrailer]
      omega
  rw [hsum, chunks_flatten maxDataCount_pos]

theorem sentOutput_flushed {x : List UInt8} :
    sentOutput .zlib (x ++ syncFlushTrailer, true) = x := maybeStripTrailer_append x

theorem handedFor_one (hpos : sentOutput kind o ≠ [])
    (hmax : (sentOutput kind o).length ≤ maxDataCount) :
    handedFor kind o = [withTrailer kind (sentOutput kind o)] := by
  rw [handedFor, chunks_of_length_le hpos hmax, map_singleton]

theorem handedFor_zlib_clean (htrailer : EndsFlushed .zlib o) (h : CleanOutput .zlib o) :
    (handedFor .zlib o).flatten = o.1 := by
  obtain ⟨output, flushed⟩ := o
  cases flushed with
  | false =>
    obtain rfl : output = [] := h
    rfl
  | true =>
    obtain ⟨x, rfl⟩ := htrailer rfl rfl
    obtain ⟨hpos, hmax⟩ := h
    have hne : x ≠ [] := by
      rintro rfl
      exact absurd hpos (by decide)
    have hone := @handedFor_one .zlib (x ++ syncFlushTrailer, true)
    rw [sentOutput_flushed] at hone
    rw [hone hne (by simpa [syncFlushTrailer] using hmax), withTrailer, if_pos rfl,
      flatten_singleton]

/-- Framing never takes bytes away from an output of zlib, and adds some unless it is clean. -/
theorem handedFor_zlib_length (htrailer : EndsFlushed .zlib o) (hbare : NotBare .zlib o) :
    o.1.length ≤ (handedFor .zlib o).flatten.length ∧
      (o.1.length = (handedFor .zlib o).flatten.length → CleanOutput .zlib o) := by
  obtain ⟨output, flushed⟩ := o
  cases flushed with
  -- an output that is not flushed keeps its bytes and gets trailers that were never cut off
  | false =>
    have hlen : (handedFor .zlib (output, false)).flatten.length =
        output.length + 4 * (chunks maxDataCount output).length := handed_zlib_length output
    dsimp only
    refine ⟨by omega, fun heq => ?_⟩
    by_contra hne
    have hpos := length_pos_iff.mpr (chunks_ne_nil maxDataCount_pos hne)
    omega
  | true =>
    obtain ⟨x, rfl⟩ := htrailer rfl rfl
    have hne : x ≠ [] := by
      rintro rfl
      exact hbare rfl rfl rfl
    -- of a flushed one the trailer is cut off once and added once for each frame
    have hlen : (handedFor .zlib (x ++ syncFlushTrailer, true)).flatten.length =
        x.length + 4 * (chunks maxDataCount x).length := by
      rw [handedFor, sentOutput_flushed, handed_zlib_length]
    have hpos := length_pos_iff.mpr (chunks_ne_nil maxDataCount_pos hne)
    have htotal : (x ++ syncFlushTrailer).length = x.length + 4 := length_append
    rw [htotal]
    refine ⟨by omega, fun heq => ?_⟩
    have hx := length_pos_iff.mpr hne
    have hmax : x.length ≤ maxDataCount := length_le_of_chunks maxDataCount_pos (by omega)
    show 4 < _ ∧ _ ≤ _
    omega

theorem handedFor_lz4 : handedFor .lz4 o = chunks maxDataCount o.1 := by
  have hid : withTrailer .lz4 = id := rfl
  rw [handedFor, sentOutput_of_ne (by decide), hid, map_id]

theorem handedFor_lz4_clean (h : CleanOutput .lz4 o) :
    handedFor .lz4 o = [o.1].filter (· ≠ []) := by
  rw [handedFor_lz4]
  by_cases hnil : o.1 = []
  · rw [hnil]
    rfl
  · rw [chunks_of_length_le hnil h, filter_cons_of_pos (by simpa using hnil),
      filter_nil]

theorem handedFor_lz4_length : ([o.1].filter (· ≠ [])).length ≤ (handedFor .lz4 o).length ∧
    (([o.1].filter (· ≠ [])).length = (handedFor .lz4 o).length → CleanOutput .lz4 o) := by
  rw [handedFor_lz4]
  by_cases hnil : o.1 = []
  · refine ⟨by simp [hnil], fun _ => ?_⟩
    show o.1.length ≤ maxDataCount
    rw [hnil]
    exact Nat.zero_le _
  · have hpos := length_pos_iff.mpr (chunks_ne_nil maxDataCount_pos hnil)
    rw [filter_cons_of_pos (by simpa using hnil), filter_nil]
    exact ⟨hpos, fun heq => length_le_of_chunks maxDataCount_pos heq.ge⟩

theorem handedFor_zstd : (handedFor .zstd o).flatten = o.1 := by
  have hid : withTrailer .zstd = id := rfl
  rw [handedFor, sentOutput_of_ne (by decide), hid, map_id, chunks_flatten maxDataCount_pos]

/-- Where no part is smaller and the sums agree, the parts agree. -/
theorem parts_eq_of_sum_eq {α : Type} {l : List α} {f g : α → Nat} (hle : ∀ a ∈ l, f a ≤ g a)
    (hsum : (l.map f).sum = (l.map g).sum) : ∀ a ∈ l, f a = g a := by
  intro a ha
  by_contra hne
  have hlt := sum_lt_sum f g hle ⟨a, ha, lt_of_le_of_ne (hle a ha) hne⟩
  omega

theorem faithful_of_clean (htrailer : ∀ o ∈ os, EndsFlushed kind o)
    (h : ∀ o ∈ os, CleanOutput kind o) :
    Faithful kind (os.map Prod.fst) (os.flatMap (handedFor kind)) := by
  induction os with
  | nil => cases kind <;> rfl
  | cons o os ih =>
    have hrest := ih (fun p hp => htrailer p (mem_cons_of_mem o hp))
      (fun p hp => h p (mem_cons_of_mem o hp))
    have htrailer := htrailer o mem_cons_self
    have h := h o mem_cons_self
    rw [flatMap_cons]
    cases kind with
    | zlib =>
      show flatten (_ ++ _) = _
      simpa [handedFor_zlib_clean htrailer h] using congrArg (o.1 ++ ·) hrest
    | zstd =>
      show flatten (_ ++ _) = _
      simpa [handedFor_zstd] using congrArg (o.1 ++ ·) hrest
    | lz4 =>
      show _ ++ _ = filter _ ([o.1] ++ _)
      rw [handedFor_lz4_clean h, filter_append]
      exact congrArg (_ ++ ·) hrest

/-- A file that arrives has clean outputs, unless some are bare trailers. -/
theorem clean_of_faithful (htrailer : ∀ o ∈ os, EndsFlushed kind o)
    (hbare : ∀ o ∈ os, NotBare kind o)
    (h : Faithful kind (os.map Prod.fst) (os.flatMap (handedFor kind))) :
    ∀ o ∈ os, CleanOutput kind o := by
  cases kind with
  | zlib =>
    -- the numbers of bytes agree, and no output loses any
    have hlengths : (os.map fun o => o.1.length).sum =
        (os.map fun o => (handedFor .zlib o).flatten.length).sum := by
      have hflat : (os.flatMap (handedFor .zlib)).flatten = (os.map Prod.fst).flatten := h
      have hlen := congrArg length hflat
      rw [← flatMap_id, flatMap_assoc, length_flatMap, ← flatMap_def,
        length_flatMap] at hlen
      simp only [flatMap_id] at hlen
      exact hlen.symm
    intro o ho
    exact (handedFor_zlib_length (htrailer o ho) (hbare o ho)).2
      (parts_eq_of_sum_eq (fun p hp =>
        (handedFor_zlib_length (htrailer p hp) (hbare p hp)).1) hlengths o ho)
  | zstd => exact fun _ _ => trivial
  | lz4 =>
    -- the numbers of calls agree
    have hlengths : (os.map fun o => ([o.1].filter (· ≠ [])).length).sum =
        (os.map fun o => (handedFor .lz4 o).length).sum := by
      have hfilter : (os.map Prod.fst).filter (· ≠ []) =
          os.flatMap fun o => [o.1].filter (· ≠ []) := by
        rw [map_eq_flatMap, filter_flatMap]
      have hcalls : os.flatMap (handedFor .lz4) = (os.map Prod.fst).filter (· ≠ []) := h
      have hlen := congrArg length (hcalls.trans hfilter)
      rw [length_flatMap, length_flatMap] at hlen
      exact hlen.symm
    intro o ho
    exact handedFor_lz4_length.2 (parts_eq_of_sum_eq (fun p hp => handedFor_lz4_length.1)
      hlengths o ho)

end Outputs

/-! ## The whole transmission -/

section Transmission

variable {κ δ : Type}

/-- **Compressed literals and their frames.** Any files go through one writer and one reader, and
the reader reads all of them to their end. What the decompressor is handed is what the compressor
produced if every output is clean. Conversely, as long as no flushed output of zlib is a bare
trailer, an output that is not clean shows. -/
theorem compressed_framing (kind : CompressorType) (M : Machine κ) (N : Machine δ) (k : κ) (d : δ)
    (files : List (List TokenCall))
    (htrailer : ∀ os ∈ filesOutputs M k files, ∀ o ∈ os, EndsFlushed kind o) :
    ∃ bs w r, writeFiles (compressedTokenWriter (recordingCompressor kind M)) files
          (.new (k, [])) = .ok (bs, w) ∧
      FilesRead (recordingDecompressor kind N) files.length (.new (d, [])) bs r [] ∧
      ((∀ os ∈ filesOutputs M k files, ∀ o ∈ os, CleanOutput kind o) →
        List.Forall₂ (Faithful kind) w.compressor.2 r.decompressor.2) ∧
      ((∀ os ∈ filesOutputs M k files, ∀ o ∈ os, NotBare kind o) →
        List.Forall₂ (Faithful kind) w.compressor.2 r.decompressor.2 →
        ∀ os ∈ filesOutputs M k files, ∀ o ∈ os, CleanOutput kind o) := by
  obtain ⟨bs, w, r, hwrite, hfiles, hlog, hhanded⟩ := transmit_files kind M N files k d
  refine ⟨bs, w, r, hwrite, hfiles, ?_⟩
  -- the logs have the last file first; they are compared file by file
  rw [hlog, hhanded, forall₂_reverse_iff, forall₂_map_left_iff,
    forall₂_map_right_iff, forall₂_same]
  constructor
  · intro hclean os hos
    exact faithful_of_clean (htrailer os hos) (hclean os hos)
  · intro hbare hfaithful os hos
    exact clean_of_faithful (htrailer os hos) (hbare os hos) (hfaithful os hos)

end Transmission

/-! ## A trailer too many -/

/-- A compressor that stores: its output is its input and the trailer. -/
def storing : Machine Unit where
  reset _ := ()
  run _ x := (x ++ syncFlushTrailer, ())

/-- Two data calls in a row, and the end of the file. -/
def twoLiterals : List (List TokenCall) := [[.data [1], .data [2]]]

/-- The first output arrives with a second trailer. -/
theorem consecutive_literals_gain_trailer :
    ∃ bs w r, writeFiles (compressedTokenWriter (recordingCompressor .zlib storing)) twoLiterals
          (.new ((), [])) = .ok (bs, w) ∧
      FilesRead (recordingDecompressor .zlib storing) 1 (.new ((), [])) bs r [] ∧
      w.compressor.2 = [[[1, 0, 0, 0xFF, 0xFF], [2, 0, 0, 0xFF, 0xFF]]] ∧
      r.decompressor.2 = [[[1, 0, 0, 0xFF, 0xFF, 0, 0, 0xFF, 0xFF], [2, 0, 0, 0xFF, 0xFF]]] := by
  obtain ⟨bs, w, r, hwrite, hfiles, hlog, hhanded⟩ :=
    transmit_files .zlib storing storing twoLiterals () ()
  exact ⟨bs, w, r, hwrite, hfiles, hlog.trans rfl, hhanded.trans rfl⟩

/-- Two files, the data calls of the first one apart from each other. -/
def literalsApart : List (List TokenCall) :=
  [[.data [1], .block 0 (by decide), .data [2]], [.data [3]]]

/-- Data calls with a block reference between them go through, over two files. -/
theorem compressed_framing_apart :
    ∃ bs w r, writeFiles (compressedTokenWriter (recordingCompressor .zlib storing)) literalsApart
          (.new ((), [])) = .ok (bs, w) ∧
      FilesRead (recordingDecompressor .zlib storing) 2 (.new ((), [])) bs r [] ∧
      List.Forall₂ (Faithful .zlib) w.compressor.2 r.decompressor.2 := by
  have houtputs : ∀ os ∈ filesOutputs storing () literalsApart, ∀ o ∈ os,
      ∃ x, o = ([x, 0, 0, 0xFF, 0xFF], true) := by
    intro os hos o ho
    rcases mem_pair.mp hos with rfl | rfl
    · rcases mem_pair.mp ho with rfl | rfl
      · exact ⟨1, rfl⟩
      · exact ⟨2, rfl⟩
    · exact ⟨3, mem_singleton.mp ho⟩
  obtain ⟨bs, w, r, hwrite, hfiles, hclean, -⟩ := compressed_framing .zlib storing storing () ()
    literalsApart (by
      intro os hos o ho _ _
      obtain ⟨x, rfl⟩ := houtputs os hos o ho
      exact ⟨[x], rfl⟩)
  refine ⟨bs, w, r, hwrite, hfiles, hclean ?_⟩
  intro os hos o ho
  obtain ⟨x, rfl⟩ := houtputs os hos o ho
  exact ⟨Nat.lt_succ_self 4, by simp [maxDataCount]⟩

end Ferrosync
