import Ferrosync.Delta.CompressedFraming

set_option autoImplicit false

/-! # The tokens of a compressed stream, written and read

With a compressor that makes one frame out of each chunk, and a decompressor that makes the chunk
out of the frame, the reader returns the references and the data in the order in which they were
written. A reference is late by the run that is held back, and data by the token behind it; a data
write of more than `DATA_CHUNK_SIZE` bytes comes back in pieces.

The tokens are compared as sequences of symbols; `mergeData_eq` goes back to the tokens.
-/

namespace Ferrosync

open ByteStream

/-! ## Tokens without the borders of the data -/

/-- Data in front of tokens. -/
def consData (bytes : List UInt8) : List Token → List Token
  | .data more :: rest => .data (bytes ++ more) :: rest
  | rest => .data bytes :: rest

theorem consData_consData (xs ys : List UInt8) (ts : List Token) :
    consData xs (consData ys ts) = consData (xs ++ ys) ts := by
  match ts with
  | [] => rfl
  | .data more :: rest => simp [consData]
  | .blockMatch index :: rest => rfl
  | .endOfFile :: rest => rfl

/-- Adjacent data tokens become one. -/
def mergeData : List Token → List Token
  | [] => []
  | .data bytes :: ts => consData bytes (mergeData ts)
  | .blockMatch index :: ts => .blockMatch index :: mergeData ts
  | .endOfFile :: ts => .endOfFile :: mergeData ts

/-- The tokens of a sequence of symbols, with as much data in a token as possible. -/
def regroup : List Symbol → List Token
  | [] => []
  | .byte b :: s => consData [b] (regroup s)
  | .block index :: s => .blockMatch index :: regroup s
  | .endOfFile :: s => .endOfFile :: regroup s

def NoEmptyData (ts : List Token) : Prop := Token.data [] ∉ ts

theorem regroup_bytes {bytes : List UInt8} (hne : bytes ≠ []) (s : List Symbol) :
    regroup (bytes.map .byte ++ s) = consData bytes (regroup s) := by
  induction bytes with
  | nil => exact absurd rfl hne
  | cons b bytes ih =>
    rw [List.map_cons, List.cons_append, regroup]
    by_cases hnil : bytes = []
    · subst hnil
      rfl
    · simp [ih hnil, consData_consData]

/-- Merging depends on the symbols only. -/
theorem mergeData_eq {ts : List Token} (h : NoEmptyData ts) :
    mergeData ts = regroup (symbols ts) := by
  induction ts with
  | nil => rfl
  | cons t ts ih =>
    obtain ⟨hne, hts⟩ := List.ne_and_not_mem_of_not_mem_cons h
    cases t with
    | data bytes =>
      have hbytes : bytes ≠ [] := fun hnil => hne (by rw [hnil])
      rw [mergeData, ih hts, symbols_cons, Token.symbols, regroup_bytes hbytes]
    | blockMatch index =>
      rw [mergeData, ih hts]
      rfl
    | endOfFile =>
      rw [mergeData, ih hts]
      rfl

/-! ## A compressor that makes one frame of each chunk -/

section Ideal

variable {κ δ : Type} {C : Compressor κ} {D : Decompressor δ}

/-- From these states, each of the calls of the compressor gives one frame, and the decompressor
gives the chunk for it. The mark says that the output loses its trailer. -/
inductive Ideal (C : Compressor κ) (D : Decompressor δ) :
    κ → δ → List (List UInt8 × Bool) → κ → δ → Prop
  | nil {c : κ} {d : δ} : Ideal C D c d [] c d
  | cons {c c₁ c' : κ} {d d₁ d' : δ} {chunk out : List UInt8} {flushed : Bool}
      {rest : List (List UInt8 × Bool)} (hcompress : C.compress c chunk = .ok (out, c₁))
      (hpos : sentOutput C.kind (out, flushed) ≠ [])
      (hmax : (sentOutput C.kind (out, flushed)).length ≤ maxDataCount)
      (hinflate : D.decompress d
        (if D.isZlib then sentOutput C.kind (out, flushed) ++ [0, 0, 0xFF, 0xFF]
          else sentOutput C.kind (out, flushed)) dataChunkSize = .ok (chunk, d₁))
      (next : Ideal C D c₁ d₁ rest c' d') : Ideal C D c d ((chunk, flushed) :: rest) c' d'

theorem Ideal.append_inv {c c' : κ} {d d' : δ} {xs ys : List (List UInt8 × Bool)}
    (h : Ideal C D c d (xs ++ ys) c' d') :
    ∃ c₁ d₁, Ideal C D c d xs c₁ d₁ ∧ Ideal C D c₁ d₁ ys c' d' := by
  induction xs generalizing c d with
  | nil => exact ⟨c, d, .nil, h⟩
  | cons x xs ih =>
    cases h with
    | cons hcompress hpos hmax hinflate next =>
      obtain ⟨c₁, d₁, hxs, hys⟩ := ih next
      exact ⟨c₁, d₁, .cons hcompress hpos hmax hinflate hxs, hys⟩

/-- The files go through the compressor and the decompressor one after the other. -/
inductive IdealFiles (C : Compressor κ) (D : Decompressor δ) :
    κ → δ → List (List TokenCall) → Prop
  | nil {c : κ} {d : δ} : IdealFiles C D c d []
  | cons {c c₀ c₁ : κ} {d d₀ d₁ : δ} {calls : List TokenCall} {files : List (List TokenCall)}
      (hc : C.reset c = .ok c₀) (hd : D.reset d = .ok d₀)
      (file : Ideal C D c₀ d₀ (fileChunks [] false calls) c₁ d₁)
      (next : IdealFiles C D c₁ d₁ files) : IdealFiles C D c d (calls :: files)

/-- The frames of chunks yield the chunks. -/
theorem compressChunks_ideal {doFlush : Bool} {cs : List (List UInt8)} {c c' : κ} {d d' : δ}
    (h : Ideal C D c d (flagged doFlush cs) c' d') (hcs : [] ∉ cs) :
    ∃ frames, compressChunks C doFlush cs c = .ok (frames, c') ∧
      ∀ {r : CompressedTokenReader δ} {last : Nat}, ReaderAt r last d →
        ∃ r', ReaderAt r' last d' ∧ Yields D r frames (cs.map .data) r' := by
  induction cs generalizing c d with
  | nil =>
    cases h
    exact ⟨[], rfl, fun hr => ⟨_, hr, Yields.refl _⟩⟩
  | cons chunk rest ih =>
    obtain ⟨hne, hrest⟩ := List.ne_and_not_mem_of_not_mem_cons hcs
    cases h with
    | @cons _ c₁ _ _ d₁ _ _ out _ _ hcompress hpos hmax hinflate next =>
      obtain ⟨frames, hframes, hread⟩ := ih next hrest
      -- the output fits into one frame, so that it is not cut
      have hframe : deflatedFrames (sentOutput C.kind (out, decide (rest = [] ∧ doFlush = true))) =
          deflatedFrame (sentOutput C.kind (out, decide (rest = [] ∧ doFlush = true))) := by
        rw [deflatedFrames, if_neg hpos, if_neg (not_lt.mpr hmax)]
      refine ⟨deflatedFrame (sentOutput C.kind (out, decide (rest = [] ∧ doFlush = true))) ++
        frames, ?_, ?_⟩
      · rw [compressChunks, hcompress]
        simp only [bind, Except.bind, hframes, pure, Except.pure]
        rw [← hframe, sentOutput]
        simp only [decide_eq_true_eq]
      · rintro r last ⟨hidle, htoken, rfl⟩
        have hfirst := yields_frame hidle hpos hmax hinflate hne.symm
        obtain ⟨r', hr', hyields⟩ := hread
          (r := { r with decompressor := d₁ }) ⟨hidle, htoken, rfl⟩
        exact ⟨r', hr', hfirst.trans hyields⟩

/-- One frame for each chunk, and no empty chunk. -/
def idealRelay (C : Compressor κ) (D : Decompressor δ) : Relay C D where
  Carries c d xs c' d' := Ideal C D c d xs c' d' ∧ ∀ x ∈ xs, x.1 ≠ []
  Follows := Yields D
  nil := by
    rintro c c' d d' ⟨⟨⟩, -⟩
    exact ⟨rfl, rfl⟩
  split := by
    rintro c c' d d' xs ys ⟨hideal, hne⟩
    obtain ⟨c₁, d₁, hxs, hys⟩ := hideal.append_inv
    rw [List.forall_mem_append] at hne
    exact ⟨c₁, d₁, ⟨hxs, hne.1⟩, hys, hne.2⟩
  chunks := by
    rintro c c' d d' doFlush cs ⟨hideal, hne⟩
    refine compressChunks_ideal hideal fun hmem => ?_
    rw [← flagged_chunks doFlush cs] at hmem
    obtain ⟨x, hx, hnil⟩ := List.mem_map.mp hmem
    exact hne x hx hnil
  of_yields h _ := h
  trans := Yields.trans

theorem sentChunks_ne_nil {data : List UInt8} {flush : Bool} (h : flush = true → data ≠ [])
    (token : Int) : ∀ x ∈ sentChunks data flush token, x.1 ≠ [] := by
  intro x hx
  have hmem : x.1 ∈ chunksToSend data flush := by
    rw [← flagged_chunks (token ≠ -2) (chunksToSend data flush)]
    exact List.mem_map_of_mem hx
  unfold chunksToSend at hmem
  split_ifs at hmem with hdata hflush
  · exact absurd hdata (h hflush)
  · exact absurd hmem List.not_mem_nil
  · exact List.length_pos_iff.mp (chunks_length dataChunkSize_pos hmem).1

/-- The chunks of a file without empty data. -/
theorem fileChunks_ne_nil : ∀ {calls : List TokenCall} {pending : List UInt8} {flush : Bool},
    (flush = true → pending ≠ []) → (∀ bytes, TokenCall.data bytes ∈ calls → bytes ≠ []) →
    ∀ x ∈ fileChunks pending flush calls, x.1 ≠ []
  | [], _, _, hflush, _ => sentChunks_ne_nil hflush _
  | .data bytes :: calls, pending, flush, hflush, hdata => by
    have hbytes : bytes ≠ [] := hdata bytes List.mem_cons_self
    have hrest := fun b (hb : TokenCall.data b ∈ calls) => hdata b (List.mem_cons_of_mem _ hb)
    unfold fileChunks
    split_ifs
    · exact fileChunks_ne_nil (fun _ => hbytes) hrest
    · rw [List.forall_mem_append]
      exact ⟨sentChunks_ne_nil hflush _, fileChunks_ne_nil (fun _ => hbytes) hrest⟩
  | .block index _ :: calls, pending, flush, hflush, hdata => by
    unfold fileChunks
    rw [List.forall_mem_append]
    exact ⟨sentChunks_ne_nil hflush _, fileChunks_ne_nil (absurd · Bool.false_ne_true)
      fun b hb => hdata b (List.mem_cons_of_mem _ hb)⟩

theorem IdealFiles.carries {files : List (List TokenCall)} {c : κ} {d : δ}
    (h : IdealFiles C D c d files)
    (hdata : ∀ calls ∈ files, ∀ bytes, TokenCall.data bytes ∈ calls → bytes ≠ []) :
    ∃ c' d', (idealRelay C D).CarriesFiles c d files c' d' := by
  induction h with
  | nil => exact ⟨_, _, .nil⟩
  | cons hc hd file _ ih =>
    rw [List.forall_mem_cons] at hdata
    obtain ⟨c', d', hfiles⟩ := ih hdata.2
    exact ⟨c', d', .cons hc hd ⟨file, fileChunks_ne_nil nofun hdata.1⟩ hfiles⟩

/-! ## Whole files -/

def written (calls : List TokenCall) : List Token := calls.map TokenCall.token ++ [.endOfFile]

/-- A reader that follows returns the tokens of all files. -/
theorem yields_of_follows {files : List (List TokenCall)} {bs : List UInt8} {d d' : δ}
    (h : (idealRelay C D).FollowsFiles d files bs d') {r : CompressedTokenReader δ}
    (hinit : r.state = .init) (hr : r.decompressor = d) :
    ∃ ts r', Yields D r bs ts r' ∧ symbols ts = symbols (files.flatMap written) := by
  induction h generalizing r with
  | nil => exact ⟨[], r, Yields.refl r, rfl⟩
  | @cons d d₀ d₁ d' calls files bs bs' ts last hd hts file _ ih =>
    obtain ⟨r₁, hr₁, hyields₁⟩ := file
      (r := { r with decompressor := d₀, state := .idle, rxToken := 0 }) ⟨rfl, rfl, rfl⟩
    obtain ⟨us, r', hyields₂, hus⟩ := ih (r := { r₁ with state := .init }) rfl hr₁.decompressor
    refine ⟨ts ++ [.endOfFile] ++ us, r', Yields.trans (fun more => ?_) hyields₂, ?_⟩
    · exact (hyields₁.trans (yields_eof hr₁.idle) more).of_init hinit (hr ▸ hd) (by simp)
    · simp [written, symbols_append, hts, hus]

theorem recvBlockIn_ne_data {flag : UInt8} {r r' : CompressedTokenReader δ}
    {bs rest data : List UInt8} {t : Token}
    (h : recvBlockIn .wrapping flag r bs = .ok ((t, r'), rest)) : t ≠ .data data := by
  -- every way out of a block reference is a block match
  have hrun : ∀ {token : Int32} {bs : List UInt8}, readRun token r bs = .ok ((t, r'), rest) →
      t ≠ .data data := by
    intro token bs h
    obtain ⟨lo, mid, -, h⟩ := bind_eq_ok h
    obtain ⟨hi, mid', -, h⟩ := bind_eq_ok h
    cases h
    exact nofun
  unfold recvBlockIn at h
  by_cases hrelative : flag.toNat ≥ 0x80
  · rw [if_pos hrelative, Build.addI32_wrapping, bind_ok rfl] at h
    split_ifs at h
    · exact hrun h
    · cases h
      exact nofun
  · rw [if_neg hrelative] at h
    obtain ⟨token, mid, -, h⟩ := bind_eq_ok h
    split_ifs at h
    · cases h
    · exact hrun h
    · cases h
      exact nofun

theorem recvIdle_ne_nil : ∀ {n : Nat} {r r' : CompressedTokenReader δ} {bs rest : List UInt8}
    {t : Token}, recvIdle (recvBlockIn .wrapping) D n r bs = .ok ((t, r'), rest) → t ≠ .data []
  | 0, _, _, _, _, _, h => absurd h nofun
  | n + 1, r, r', bs, rest, t, h => by
    obtain ⟨flag, mid, -, h⟩ := bind_eq_ok h
    split_ifs at h
    · obtain ⟨lo, mid', -, h⟩ := bind_eq_ok h
      dsimp only at h
      split_ifs at h
      · exact recvIdle_ne_nil h
      · exact absurd h nofun
      · obtain ⟨⟨out, r₁⟩, mid₁, -, h⟩ := bind_eq_ok h
        -- data is returned only if there is some
        split_ifs at h with hout
        · cases h
          simp
          omega
        · exact recvIdle_ne_nil h
    · cases h
      exact nofun
    · exact recvBlockIn_ne_data h

theorem ReadsTokens.noEmptyData {r r' : CompressedTokenReader δ} {bs rest : List UInt8}
    {ts : List Token} (h : ReadsTokens D r bs ts r' rest) : NoEmptyData ts := by
  induction h with
  | nil => exact List.not_mem_nil
  | @cons r _ _ bs _ _ t _ h _ ih =>
    refine List.not_mem_cons_of_ne_of_not_mem (Ne.symm ?_) ih
    unfold recvTokenCompressed recvTokenIn at h
    split at h
    · cases h
    · cases h
      exact nofun
    · exact recvIdle_ne_nil h

theorem noEmptyData_written {calls : List TokenCall}
    (hdata : ∀ bytes, TokenCall.data bytes ∈ calls → bytes ≠ []) : NoEmptyData (written calls) := by
  intro hmem
  rcases List.mem_append.mp hmem with hmem | hmem
  · obtain ⟨call, hcall, htoken⟩ := List.mem_map.mp hmem
    cases call with
    | data bytes =>
      cases htoken
      exact hdata [] hcall rfl
    | block index hindex => cases htoken
  · simp at hmem

/-- **Compressed tokens, written and read.** For any files of references and non-empty data, one
reader returns what one writer was given, up to the borders between adjacent data. -/
theorem compressed_tokens_roundTrip (C : Compressor κ) (D : Decompressor δ) (c : κ) (d : δ)
    (files : List (List TokenCall))
    (hdata : ∀ calls ∈ files, ∀ bytes, TokenCall.data bytes ∈ calls → bytes ≠ [])
    (hideal : IdealFiles C D c d files) :
    ∃ bs w', writeFiles (compressedTokenWriter C) files (.new c) = .ok (bs, w') ∧
      ∀ rest, ∃ ts r', ReadsTokens D (.new d) (bs ++ rest) ts r' rest ∧
        mergeData ts = mergeData (files.flatMap written) := by
  obtain ⟨c', d', hcarries⟩ := hideal.carries hdata
  obtain ⟨bs, w', hwrite, -, hfollows⟩ :=
    (idealRelay C D).writeFiles_follows (w := .new c) rfl rfl hcarries
  obtain ⟨ts, r', hyields, hsymbols⟩ := yields_of_follows hfollows (r := .new d) rfl rfl
  refine ⟨bs, w', hwrite, fun rest => ⟨ts, r', hyields rest, ?_⟩⟩
  have hwritten : NoEmptyData (files.flatMap written) := by
    intro hmem
    obtain ⟨calls, hcalls, hmem⟩ := List.mem_flatMap.mp hmem
    exact noEmptyData_written (hdata calls hcalls) hmem
  rw [mergeData_eq (hyields rest).noEmptyData, mergeData_eq hwritten, hsymbols]

end Ideal

/-- A compressor that puts one byte in front of a chunk. -/
def tagging : Compressor Unit where
  kind := .lz4
  reset _ := .ok ()
  compress _ chunk := .ok (1 :: chunk, ())

def untagging : Decompressor Unit where
  isZlib := false
  reset _ := .ok ()
  decompress _ payload _ := .ok (payload.tail, ())

/-- A run, a step back, data in two pieces, and an empty file. -/
def mixedFiles : List (List TokenCall) :=
  [[.block 3 (by decide), .block 4 (by decide), .data [7], .block 1 (by decide)],
    [.data [8], .data [9]], []]

theorem mixed_tokens_roundTrip :
    ∃ bs w', writeFiles (compressedTokenWriter tagging) mixedFiles (.new ()) = .ok (bs, w') ∧
      ∀ rest, ∃ ts r', ReadsTokens untagging (.new ()) (bs ++ rest) ts r' rest ∧
        mergeData ts = [.blockMatch 3, .blockMatch 4, .data [7], .blockMatch 1, .endOfFile,
          .data [8, 9], .endOfFile, .endOfFile] := by
  have hdata : ∀ calls ∈ mixedFiles, ∀ bytes, TokenCall.data bytes ∈ calls → bytes ≠ [] := by
    simp [mixedFiles]
  have hideal : IdealFiles tagging untagging () () mixedFiles :=
    .cons rfl rfl (.cons rfl (by decide) (by decide) rfl .nil)
      (.cons rfl rfl (.cons rfl (by decide) (by decide) rfl
        (.cons rfl (by decide) (by decide) rfl .nil)) (.cons rfl rfl .nil .nil))
  exact compressed_tokens_roundTrip tagging untagging () () mixedFiles hdata hideal

end Ferrosync
