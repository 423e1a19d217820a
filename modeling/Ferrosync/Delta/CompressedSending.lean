import Ferrosync.Delta.CompressedReading

set_option autoImplicit false

/-! # Files written to a compressed stream

What one send of the writer appends to the stream, and how far a reader gets with it. The writer
holds back a run of references and the data of the last call, and data comes in chunks; so the two
sides are compared as sequences of symbols, one for each byte of data.

The compressor and the decompressor are left open. A `Relay` says what the two do with the chunks of
a send, and what it means that a reader follows; `Relay.writeFiles_follows` carries that over to
whole files.
-/

namespace Ferrosync

open ByteStream List

/-- A call of the writer inside a file. -/
inductive TokenCall where
  | data (bytes : List UInt8)
  | block (index : Nat) (h : index < 2 ^ 31)

/-- The token that a call asks for. -/
def TokenCall.token : TokenCall → Token
  | .data bytes => .data bytes
  | .block index _ => .blockMatch index

variable {last start n : Nat} {data : List UInt8} {token : Int}

/-! ## Tokens without the borders of the data -/

/-- A byte of data, a block reference or the end of a file. -/
inductive Symbol where
  | byte (b : UInt8)
  | block (index : Int)
  | endOfFile
  deriving DecidableEq, Repr

def Token.symbols : Token → List Symbol
  | .data bytes => bytes.map .byte
  | .blockMatch index => [.block index]
  | .endOfFile => [.endOfFile]

def symbols (ts : List Token) : List Symbol := ts.flatMap Token.symbols

@[simp] theorem symbols_nil : symbols [] = [] := rfl

@[simp] theorem symbols_cons (t : Token) (ts : List Token) :
    symbols (t :: ts) = t.symbols ++ symbols ts := rfl

@[simp] theorem symbols_append (ts us : List Token) :
    symbols (ts ++ us) = symbols ts ++ symbols us := List.flatMap_append

theorem symbols_data (cs : List (List UInt8)) :
    symbols (cs.map .data) = cs.flatten.map .byte := by
  induction cs with
  | nil => rfl
  | cons c cs ih => rw [map_cons, symbols_cons, ih, flatten_cons, map_append]; rfl

section Sending

variable {κ δ : Type} {C : Compressor κ} {D : Decompressor δ} {c c' : κ} {d d' : δ}

/-! ## One send of the writer -/

/-- The chunks of one `compress_and_send` with the mark of the last one. -/
def flagged (doFlush : Bool) : List (List UInt8) → List (List UInt8 × Bool)
  | [] => []
  | chunk :: rest => (chunk, rest = [] ∧ doFlush) :: flagged doFlush rest

theorem flagged_chunks (doFlush : Bool) (chunks : List (List UInt8)) :
    (flagged doFlush chunks).map Prod.fst = chunks := by
  induction chunks with
  | nil => rfl
  | cons c rest ih => rw [flagged, map_cons, ih]

/-- The run that ends at the last token has not been written yet. -/
def HoldsRun (w : CompressedTokenWriter κ) : Prop :=
  ∃ start n : Nat, w.runStart = start ∧ w.lastToken = (start + n : Nat) ∧ n < 65536 ∧
    start + n < 2 ^ 31

/-- The writer in the middle of a file: the runs up to `last` have been written. -/
structure InStep (w : CompressedTokenWriter κ) (last : Nat) : Prop where
  runEnd : w.lastRunEnd = last
  last_lt : last < 2 ^ 31
  held : w.lastToken = -2 ∨ HoldsRun w

/-- The tokens that `send_token` is called with. -/
def Sends (data : List UInt8) (token : Int) : Prop :=
  (token = -2 ∧ data ≠ []) ∨ token = -1 ∨ ∃ index : Nat, token = index ∧ index < 2 ^ 31

/-- The reader between two tokens of a file. -/
structure ReaderAt (r : CompressedTokenReader δ) (last : Nat) (d : δ) : Prop where
  idle : r.state = .idle
  token : r.rxToken = Int32.ofNat last
  decompressor : r.decompressor = d

variable {w : CompressedTokenWriter κ}

theorem flushRun_eq (hend : w.lastRunEnd = last) (hlast : last < 2 ^ 31)
    (hstart : w.runStart = start) (htoken : w.lastToken = (start + n : Nat)) (hn : n < 65536)
    (hmax : start + n < 2 ^ 31) :
    w.flushRun = (encodeRun last start n, { w with lastRunEnd := (start + n : Nat) }) := by
  have hr : toI32 (w.runStart - w.lastRunEnd) = (start : Int) - last := by
    rw [hstart, hend]
    exact toI32_eq ⟨by omega, by omega⟩
  have hcount : toI32 (w.lastToken - w.runStart) = n := by
    simpa [htoken, hstart] using toI32_eq ⟨by omega, by omega⟩
  have hnear : (0 ≤ (start : Int) - last ∧ (start : Int) - last ≤ 63) ↔
      (last ≤ start ∧ start ≤ last + 63) := by omega
  have hzero : (n : Int) = 0 ↔ n = 0 := by omega
  have hlo : ((n : Int) % 256).toNat = n % 256 := by omega
  have hhi : ((n : Int) / 256 % 256).toNat = n / 256 := by omega
  have hdiff : ((start : Int) - last).toNat = start - last := by omega
  unfold CompressedTokenWriter.flushRun encodeRun
  rw [hr, hcount, htoken, hstart]
  simp only [hnear, hzero, hlo, hhi, hdiff, ite_not]

/-- A run that is held back and continued. -/
theorem holdsRun_succ {index : Nat} (hstart : w.runStart = start)
    (htoken : w.lastToken = (start + n : Nat)) (hmax : start + n < 2 ^ 31) (hindex : index < 2 ^ 31)
    (hnext : (index : Int) = toI32 (w.lastToken + 1))
    (hnear : (index : Int) < toI32 (w.runStart + 65536)) :
    index = start + (n + 1) ∧ n + 1 < 65536 := by
  unfold toI32 at hnext hnear
  rw [Int.bmod_def] at hnext hnear
  split_ifs at hnext hnear <;> omega

/-- A token that starts a new run, once everything before it has been written. -/
theorem inStep_start (hlast : last < 2 ^ 31) (hsends : Sends data token) (hne : token ≠ -1) :
    InStep { w with runStart := token, lastRunEnd := (last : Nat), lastToken := token } last := by
  refine ⟨rfl, hlast, ?_⟩
  obtain ⟨htoken, -⟩ | htoken | ⟨index, rfl, hindex⟩ := hsends
  · exact .inl htoken
  · exact absurd htoken hne
  · exact .inr ⟨index, 0, rfl, rfl, by omega, by omega⟩

/-- The references that are held back. -/
def heldRun (w : CompressedTokenWriter κ) : List Token :=
  if 0 ≤ w.lastToken then blockRun w.runStart.toNat (w.lastToken - w.runStart + 1).toNat else []

/-- The reference that a send adds to them. -/
def sentBlock (token : Int) : List Token := if 0 ≤ token then [.blockMatch token] else []

theorem heldRun_eq (hstart : w.runStart = start) (htoken : w.lastToken = (start + n : Nat)) :
    heldRun w = blockRun start (n + 1) := by
  rw [heldRun, if_pos (by omega), hstart]
  congr 1
  omega

/-- A token that starts a new run is all that is held. -/
theorem heldRun_start (token last : Int) :
    heldRun { w with runStart := token, lastRunEnd := last, lastToken := token } =
      sentBlock token := by
  unfold heldRun sentBlock
  split_ifs with h
  · obtain ⟨n, rfl⟩ := Int.eq_ofNat_of_zero_le h
    rw [sub_self]
    rfl
  · rfl

/-- The first part of `send_token` in the middle of a file: what is held is written and the reader
follows, or the token continues the run. -/
theorem beginToken_inStep (C : Compressor κ) (D : Decompressor δ) (h : InStep w last)
    (hsends : Sends data token) :
    ∃ run start last' ts, w.beginToken C data token =
        .ok (run, { w with runStart := start, lastRunEnd := (last' : Nat) }) ∧
      (token ≠ -1 → InStep { w with
        runStart := start, lastRunEnd := (last' : Nat), lastToken := token } last') ∧
      (ts = heldRun w ∧ heldRun { w with
          runStart := start, lastRunEnd := (last' : Nat), lastToken := token } = sentBlock token ∨
        data = [] ∧ ts = [] ∧ heldRun { w with
          runStart := start, lastRunEnd := (last' : Nat), lastToken := token } =
            heldRun w ++ sentBlock token) ∧
      Token.endOfFile ∉ ts ∧
      ∀ {r : CompressedTokenReader δ} {d : δ}, ReaderAt r last d →
        ∃ r', ReaderAt r' last' d ∧ Yields D r run ts r' := by
  obtain ⟨hend, hlast, hheld⟩ := h
  obtain htwo | ⟨start, n, hstart, htoken, hn, hmax⟩ := hheld
  · -- only data has been sent since the last run
    refine ⟨[], token, last, [], ?_, inStep_start hlast hsends, .inl ⟨?_, heldRun_start _ _⟩,
      not_mem_nil, ?_⟩
    · simp [CompressedTokenWriter.beginToken, htwo, ← hend]
    · rw [heldRun, if_neg (by omega)]
    · intro r d hr
      exact ⟨r, hr, Yields.refl r⟩
  rw [CompressedTokenWriter.beginToken, if_neg (by omega), if_neg (by omega)]
  by_cases hbreak : data ≠ [] ∨ token ≠ toI32 (w.lastToken + 1) ∨
      token ≥ toI32 (w.runStart + 65536)
  · rw [if_pos hbreak, flushRun_eq hend hlast hstart htoken hn hmax]
    refine ⟨encodeRun last start n, token, start + n, blockRun start (n + 1), rfl,
      inStep_start hmax hsends, .inl ⟨(heldRun_eq hstart htoken).symm, heldRun_start _ _⟩,
      endOfFile_not_mem_blockRun _ _, ?_⟩
    rintro r d ⟨hidle, hrx, hd⟩
    refine ⟨_, ?_, yields_run hidle hrx hn hmax⟩
    exact ⟨hidle, rfl, hd⟩
  · rw [if_neg hbreak]
    push Not at hbreak
    obtain ⟨hdata, hnext, hnear⟩ := hbreak
    obtain ⟨-, hdata'⟩ | rfl | ⟨index, rfl, hindex⟩ := hsends
    · exact absurd hdata hdata'
    · -- the end of the file does not continue a run
      unfold toI32 at hnext
      rw [Int.bmod_def] at hnext
      split_ifs at hnext <;> omega
    · obtain ⟨rfl, hcount⟩ := holdsRun_succ hstart htoken hmax hindex hnext hnear
      refine ⟨[], w.runStart, last, [], by rw [← hend], ?_, .inr ⟨hdata, rfl, ?_⟩,
        not_mem_nil, fun hr => ⟨_, hr, Yields.refl _⟩⟩
      · intro _
        exact ⟨rfl, hlast, .inr ⟨start, n + 1, hstart, rfl, hcount, hindex⟩⟩
      · rw [
          heldRun_eq (w := { w with runStart := w.runStart, lastRunEnd := (last : Nat), lastToken := (start + (n + 1) : Nat) }) hstart rfl,
          heldRun_eq hstart htoken, sentBlock]
        rw [blockRun, range_succ, map_append]
        rfl

/-- The chunks that a send compresses, with the mark of the one whose trailer is stripped. -/
def sentChunks (data : List UInt8) (flushPending : Bool) (token : Int) :
    List (List UInt8 × Bool) :=
  flagged (token ≠ -2) (chunksToSend data flushPending)

theorem chunksToSend_nil : chunksToSend [] false = [] := rfl

theorem symbols_chunksToSend (data : List UInt8) (flushPending : Bool) :
    symbols ((chunksToSend data flushPending).map .data) = data.map .byte := by
  rw [symbols_data, chunksToSend]
  split_ifs with hdata
  · rw [hdata]
    rfl
  · rw [hdata]
    rfl
  · rw [chunks_flatten dataChunkSize_pos]

/-- A compressor and a decompressor that work together: how their states change with the chunks of
a send, and how a reader changes with bytes that stand for these tokens. -/
structure Relay (C : Compressor κ) (D : Decompressor δ) where
  Carries : κ → δ → List (List UInt8 × Bool) → κ → δ → Prop
  Follows : CompressedTokenReader δ → List UInt8 → List Token → CompressedTokenReader δ → Prop
  nil : ∀ {c c' : κ} {d d' : δ}, Carries c d [] c' d' → c' = c ∧ d' = d
  split : ∀ {c c' : κ} {d d' : δ} {xs ys : List (List UInt8 × Bool)},
    Carries c d (xs ++ ys) c' d' → ∃ c₁ d₁, Carries c d xs c₁ d₁ ∧ Carries c₁ d₁ ys c' d'
  chunks : ∀ {c c' : κ} {d d' : δ} {doFlush : Bool} {cs : List (List UInt8)},
    Carries c d (flagged doFlush cs) c' d' →
    ∃ frames, compressChunks C doFlush cs c = .ok (frames, c') ∧
      ∀ {r : CompressedTokenReader δ} {last : Nat}, ReaderAt r last d →
        ∃ r', ReaderAt r' last d' ∧ Follows r frames (cs.map .data) r'
  of_yields : ∀ {r r' : CompressedTokenReader δ} {bs : List UInt8} {ts : List Token},
    Yields D r bs ts r' → Token.endOfFile ∉ ts → Follows r bs ts r'
  trans : ∀ {r₁ r₂ r₃ : CompressedTokenReader δ} {bs cs : List UInt8} {ts us : List Token},
    Follows r₁ bs ts r₂ → Follows r₂ cs us r₃ → Follows r₁ (bs ++ cs) (ts ++ us) r₃

/-- The second part of `send_token`: the data in front of the token. -/
theorem Relay.putData_follows (K : Relay C D) (hsends : Sends data token)
    (h : K.Carries w.compressor d (sentChunks data w.flushPending token) c' d') :
    ∃ frames, w.putData C data token =
        .ok (frames, { w with compressor := c', flushPending := token = -2 }) ∧
      ∀ {r : CompressedTokenReader δ} {last : Nat}, ReaderAt r last d → ∃ r', ReaderAt r' last d' ∧
        K.Follows r frames ((chunksToSend data w.flushPending).map .data) r' := by
  unfold CompressedTokenWriter.putData
  -- without data and without a pending flush the compressor is not called
  by_cases hany : data ≠ [] ∨ w.flushPending
  · obtain ⟨frames, hframes, hread⟩ := K.chunks h
    refine ⟨frames, ?_, hread⟩
    rw [if_pos hany, hframes]
    rfl
  · push Not at hany
    obtain ⟨rfl, hpending⟩ := hany
    have hpending' : w.flushPending = false := by simpa using hpending
    have htoken : ¬ token = -2 := by
      rintro rfl
      obtain ⟨-, hne⟩ | hone | ⟨index, hindex, -⟩ := hsends
      · exact hne rfl
      · omega
      · omega
    rw [sentChunks, hpending'] at h
    obtain ⟨rfl, rfl⟩ := K.nil h
    rw [hpending', chunksToSend_nil, decide_eq_false htoken, ← hpending']
    exact ⟨[], if_neg (by simp [hpending']), fun hr =>
      ⟨_, hr, K.of_yields (Yields.refl _) not_mem_nil⟩⟩

theorem sendToken_eq {w₁ w₂ : CompressedTokenWriter κ} {run frames : List UInt8}
    (hbegin : w.beginToken C data token = .ok (run, w₁))
    (hput : ({ w₁ with lastToken := token } : CompressedTokenWriter κ).putData C data token =
      .ok (frames, w₂)) :
    w.sendToken C data token =
      .ok (run ++ frames ++ (if token = -1 then [0x00] else []), w₂) := by
  rw [CompressedTokenWriter.sendToken, hbegin]
  simp only [bind, Except.bind, hput, pure, Except.pure, append_assoc]

/-- The writer behind a send. -/
def CompressedTokenWriter.behind (w : CompressedTokenWriter κ) (start : Int) (last : Nat)
    (token : Int) (c : κ) : CompressedTokenWriter κ :=
  { w with
    runStart := start, lastRunEnd := last, lastToken := token, compressor := c
    flushPending := token = -2 }

/-- The bytes between two states of the writer stand for the symbols `s`, apart from the run that is
held back, and a reader that had got as far as the writer gets as far as the writer again. -/
def Relay.Delivers (K : Relay C D) (w w' : CompressedTokenWriter κ) (last last' : Nat) (d d' : δ)
    (s : List Symbol) (bs : List UInt8) : Prop :=
  ∃ ts, symbols ts ++ symbols (heldRun w') = symbols (heldRun w) ++ s ∧
    ∀ {r : CompressedTokenReader δ}, ReaderAt r last d →
      ∃ r', ReaderAt r' last' d' ∧ K.Follows r bs ts r'

theorem Relay.Delivers.trans {K : Relay C D} {w₁ w' : CompressedTokenWriter κ} {last₁ last' : Nat}
    {d₁ : δ} {s₁ s₂ s : List Symbol} {bs₁ bs₂ : List UInt8}
    (h₁ : K.Delivers w w₁ last last₁ d d₁ s₁ bs₁) (h₂ : K.Delivers w₁ w' last₁ last' d₁ d' s₂ bs₂)
    (hs : s = s₁ ++ s₂) : K.Delivers w w' last last' d d' s (bs₁ ++ bs₂) := by
  obtain ⟨ts₁, horder₁, hread₁⟩ := h₁
  obtain ⟨ts₂, horder₂, hread₂⟩ := h₂
  refine ⟨ts₁ ++ ts₂, ?_, fun hr => ?_⟩
  · rw [symbols_append, append_assoc, horder₂, ← append_assoc, horder₁, hs,
      append_assoc]
  · obtain ⟨r₁, hr₁, hfollows₁⟩ := hread₁ hr
    obtain ⟨r₂, hr₂, hfollows₂⟩ := hread₂ hr₁
    exact ⟨r₂, hr₂, K.trans hfollows₁ hfollows₂⟩

/-- `send_token` in the middle of a file. -/
theorem Relay.sendToken_delivers (K : Relay C D) (h : InStep w last) (hsends : Sends data token)
    (hcarries : K.Carries w.compressor d (sentChunks data w.flushPending token) c' d') :
    ∃ bs start last', w.sendToken C data token =
        .ok (bs ++ (if token = -1 then [0x00] else []), w.behind start last' token c') ∧
      (token ≠ -1 → InStep (w.behind start last' token c') last') ∧
      K.Delivers w (w.behind start last' token c') last last' d d'
        (data.map .byte ++ symbols (sentBlock token)) bs := by
  obtain ⟨run, start, last', ts, hbegin, hinstep, hheld, hts, hread⟩ :=
    beginToken_inStep C D h hsends
  obtain ⟨frames, hput, hframes⟩ := K.putData_follows (w := { w with
    runStart := start, lastRunEnd := (last' : Nat), lastToken := token }) hsends hcarries
  refine ⟨run ++ frames, start, last', sendToken_eq hbegin hput, ?_,
    ts ++ (chunksToSend data w.flushPending).map .data, ?_, ?_⟩
  · intro hne
    obtain ⟨hend, hlast, hrun⟩ := hinstep hne
    exact ⟨hend, hlast, hrun⟩
  -- the run that was held is written in front of the data, or it goes on and there is no data
  · rw [symbols_append, symbols_chunksToSend]
    obtain ⟨rfl, hnew⟩ | ⟨rfl, rfl, hnew⟩ := hheld
    · rw [append_assoc]
      exact congrArg (fun ts => symbols (heldRun w) ++ (data.map .byte ++ symbols ts)) hnew
    · rw [symbols_nil, nil_append, map_nil, nil_append, nil_append,
        ← symbols_append]
      exact congrArg symbols hnew
  · intro r hr
    obtain ⟨r₁, hr₁, hyields⟩ := hread hr
    obtain ⟨r₂, hr₂, hfollows⟩ := hframes hr₁
    exact ⟨r₂, hr₂, K.trans (K.of_yields hyields hts) hfollows⟩

/-! ## Whole files -/

def writeFile {τ : Type} (T : TokenWriter τ) : List TokenCall → τ → Except Failure (List UInt8 × τ)
  | [], w => T.writeEof w
  | .data bytes :: calls, w => do
    let (bs, w) ← T.writeData w bytes
    let (rest, w) ← writeFile T calls w
    pure (bs ++ rest, w)
  | .block index _ :: calls, w => do
    let (bs, w) ← T.writeBlockMatch w index
    let (rest, w) ← writeFile T calls w
    pure (bs ++ rest, w)

def writeFiles {τ : Type} (T : TokenWriter τ) :
    List (List TokenCall) → τ → Except Failure (List UInt8 × τ)
  | [], w => .ok ([], w)
  | calls :: files, w => do
    let (bs, w) ← writeFile T calls w
    let (rest, w) ← writeFiles T files w
    pure (bs ++ rest, w)

/-- The chunks that are compressed for a file. Data waits for the call behind it: another data
call sends it without a flush. -/
def fileChunks : List UInt8 → Bool → List TokenCall → List (List UInt8 × Bool)
  | pending, flush, [] => sentChunks pending flush (-1)
  | pending, flush, .data bytes :: calls =>
    if pending = [] then fileChunks bytes flush calls
    else sentChunks pending flush (-2) ++ fileChunks bytes true calls
  | pending, flush, .block index _ :: calls =>
    sentChunks pending flush index ++ fileChunks [] false calls

theorem writeFile_cons {τ : Type} {T : TokenWriter τ} {w w₁ w' : τ} {bs₁ bs₂ : List UInt8}
    (call : TokenCall) {calls : List TokenCall}
    (hcall : (match call with
      | .data bytes => T.writeData w bytes
      | .block index _ => T.writeBlockMatch w index) = .ok (bs₁, w₁))
    (hrest : writeFile T calls w₁ = .ok (bs₂, w')) :
    writeFile T (call :: calls) w = .ok (bs₁ ++ bs₂, w') := by
  cases call with
  | data | block =>
    simp [writeFile, hcall, hrest, bind, Except.bind, pure, Except.pure]

/-- A whole file, from the middle of it on. Induction on the calls: what the writer holds back and
the data that waits are ahead of the calls that are left. -/
theorem Relay.writeFile_delivers (K : Relay C D) (calls : List TokenCall) (h : InStep w last)
    (hcarries : K.Carries w.compressor d (fileChunks w.traitPendingData w.flushPending calls)
      c' d') :
    ∃ bs w' last', writeFile (compressedTokenWriter C) calls w = .ok (bs ++ [0x00], w') ∧
      w'.lastToken = -1 ∧ w'.traitPendingData = [] ∧ w'.compressor = c' ∧
      K.Delivers w w' last last' d d'
        (w.traitPendingData.map .byte ++ symbols (calls.map TokenCall.token)) bs := by
  induction calls generalizing w last d with
  | nil =>
    have hinstep : InStep { w with traitPendingData := [] } last :=
      ⟨h.runEnd, h.last_lt, h.held⟩
    obtain ⟨bs, start, last', hsend, -, hdelivers⟩ :=
      K.sendToken_delivers hinstep (.inr (.inl rfl)) hcarries
    exact ⟨bs, _, last', hsend, rfl, rfl, rfl, hdelivers⟩
  | cons call calls ih =>
    cases call with
    | data bytes =>
      have hinstep : InStep { w with traitPendingData := bytes } last :=
        ⟨h.runEnd, h.last_lt, h.held⟩
      rw [fileChunks] at hcarries
      by_cases hempty : w.traitPendingData = []
      · -- the data only waits
        rw [if_pos hempty] at hcarries
        obtain ⟨bs, w', last', hrest, hlast, hpending, hc', hdelivers⟩ := ih hinstep hcarries
        have hcall : (compressedTokenWriter C).writeData w bytes =
            .ok ([], { w with traitPendingData := bytes }) := if_pos hempty
        have hfile := writeFile_cons (.data bytes) hcall hrest
        refine ⟨bs, w', last', hfile, hlast, hpending, hc', ?_⟩
        rw [hempty]
        exact hdelivers
      · rw [if_neg hempty] at hcarries
        obtain ⟨c₁, d₁, hfirst, hnext⟩ := K.split hcarries
        obtain ⟨bs₁, start, last₁, hsend, hinstep₁, hdelivers₁⟩ :=
          K.sendToken_delivers hinstep (.inl ⟨rfl, hempty⟩) hfirst
        obtain ⟨bs₂, w', last', hrest, hlast, hpending, hc', hdelivers₂⟩ :=
          ih (hinstep₁ (by decide)) hnext
        have hcall : (compressedTokenWriter C).writeData w bytes = .ok (bs₁ ++ [], _) :=
          (if_neg hempty).trans hsend
        rw [append_nil] at hcall
        refine ⟨bs₁ ++ bs₂, w', last', ?_, hlast, hpending, hc', hdelivers₁.trans hdelivers₂ ?_⟩
        · rw [writeFile_cons (.data bytes) hcall hrest, append_assoc]
        · simp [sentBlock, CompressedTokenWriter.behind, TokenCall.token, Token.symbols]
    | block index hindex =>
      have hinstep : InStep { w with traitPendingData := [] } last :=
        ⟨h.runEnd, h.last_lt, h.held⟩
      obtain ⟨c₁, d₁, hfirst, hnext⟩ := K.split hcarries
      obtain ⟨bs₁, start, last₁, hsend, hinstep₁, hdelivers₁⟩ :=
        K.sendToken_delivers hinstep (.inr (.inr ⟨index, rfl, hindex⟩)) hfirst
      have hflush : decide ((index : Int) = -2) = false := decide_eq_false (by omega)
      obtain ⟨bs₂, w', last', hrest, hlast, hpending, hc', hdelivers₂⟩ :=
        ih (hinstep₁ (by omega)) hnext
      rw [if_neg (by omega), append_nil] at hsend
      have hcall : (compressedTokenWriter C).writeBlockMatch w index = .ok (bs₁, _) := hsend
      refine ⟨bs₁ ++ bs₂, w', last', ?_, hlast, hpending, hc', hdelivers₁.trans hdelivers₂ ?_⟩
      · rw [writeFile_cons (.block index hindex) hcall hrest, append_assoc]
      · simp [sentBlock, CompressedTokenWriter.behind, TokenCall.token, Token.symbols]

/-! ## Several files -/

/-- A writer that is ready for a file, as if the file had been begun with this compressor. -/
def CompressedTokenWriter.begun (w : CompressedTokenWriter κ) (c : κ) : CompressedTokenWriter κ :=
  { w with lastToken := -2, lastRunEnd := 0, flushPending := false, compressor := c }

theorem sendToken_begun (h : w.lastToken = -1) (hreset : C.reset w.compressor = .ok c)
    (data : List UInt8) (token : Int) :
    w.sendToken C data token = (w.begun c).sendToken C data token := by
  simp only [CompressedTokenWriter.sendToken, CompressedTokenWriter.beginToken, h, if_true, hreset]
  rfl

/-- The first call that sends something begins the file. -/
theorem writeFile_begun (calls : List TokenCall) (h : w.lastToken = -1)
    (hreset : C.reset w.compressor = .ok c) :
    writeFile (compressedTokenWriter C) calls w =
      writeFile (compressedTokenWriter C) calls (w.begun c) := by
  induction calls generalizing w with
  | nil => exact sendToken_begun (w := { w with traitPendingData := [] }) h hreset _ _
  | cons call calls ih =>
    cases call with
    -- the first data is only kept; the writer begins with the first call that sends
    | data bytes =>
      by_cases hempty : w.traitPendingData = []
      · have hw : (compressedTokenWriter C).writeData w bytes =
            .ok ([], { w with traitPendingData := bytes }) := if_pos hempty
        have ho : (compressedTokenWriter C).writeData (w.begun c) bytes =
            .ok ([], { w.begun c with traitPendingData := bytes }) := if_pos hempty
        have hrest := ih (w := { w with traitPendingData := bytes }) h hreset
        simp only [writeFile, hw, ho, bind, Except.bind, hrest]
        rfl
      · have hcall : (compressedTokenWriter C).writeData w bytes =
            (compressedTokenWriter C).writeData (w.begun c) bytes := by
          refine (if_neg hempty).trans (Eq.trans ?_ (if_neg hempty).symm)
          exact sendToken_begun (w := { w with traitPendingData := bytes }) h hreset _ _
        simp only [writeFile, hcall]
    | block index hindex =>
      have hcall : (compressedTokenWriter C).writeBlockMatch w index =
          (compressedTokenWriter C).writeBlockMatch (w.begun c) index :=
        sendToken_begun (w := { w with traitPendingData := [] }) h hreset _ _
      simp only [writeFile, hcall]

/-- The states of the two through several files. -/
inductive Relay.CarriesFiles (K : Relay C D) : κ → δ → List (List TokenCall) → κ → δ → Prop
  | nil {c : κ} {d : δ} : CarriesFiles K c d [] c d
  | cons {c c₀ c₁ c' : κ} {d d₀ d₁ d' : δ} {calls : List TokenCall}
      {files : List (List TokenCall)} (hc : C.reset c = .ok c₀) (hd : D.reset d = .ok d₀)
      (file : K.Carries c₀ d₀ (fileChunks [] false calls) c₁ d₁)
      (next : CarriesFiles K c₁ d₁ files c' d') : CarriesFiles K c d (calls :: files) c' d'

/-- The bytes of several files, through which a reader follows. -/
inductive Relay.FollowsFiles (K : Relay C D) : δ → List (List TokenCall) → List UInt8 → δ → Prop
  | nil {d : δ} : FollowsFiles K d [] [] d
  | cons {d d₀ d₁ d' : δ} {calls : List TokenCall} {files : List (List TokenCall)}
      {bs bs' : List UInt8} {ts : List Token} {last : Nat} (hd : D.reset d = .ok d₀)
      (hts : symbols ts = symbols (calls.map TokenCall.token))
      (file : ∀ {r : CompressedTokenReader δ}, ReaderAt r 0 d₀ →
        ∃ r', ReaderAt r' last d₁ ∧ K.Follows r bs ts r')
      (next : FollowsFiles K d₁ files bs' d') :
      FollowsFiles K d (calls :: files) (bs ++ [0x00] ++ bs') d'

/-- One file after another. -/
theorem Relay.writeFiles_follows (K : Relay C D) {files : List (List TokenCall)}
    (hlast : w.lastToken = -1) (hpending : w.traitPendingData = [])
    (hcarries : K.CarriesFiles w.compressor d files c' d') :
    ∃ bs w', writeFiles (compressedTokenWriter C) files w = .ok (bs, w') ∧ w'.compressor = c' ∧
      K.FollowsFiles d files bs d' := by
  induction files generalizing w d with
  | nil =>
    cases hcarries
    exact ⟨[], w, rfl, rfl, .nil⟩
  | cons calls files ih =>
    cases hcarries with
    | @cons _ c₀ c₁ _ _ d₀ d₁ _ _ _ hc hd file next =>
      -- a file begins with both sides reset and nothing held
      have hinstep : InStep (w.begun c₀) 0 := ⟨rfl, by omega, .inl rfl⟩
      have hnone : (w.begun c₀).traitPendingData = [] := hpending
      rw [← hnone] at file
      obtain ⟨bs₁, w₁, last₁, hfile, hlast₁, hpending₁, rfl, ts, horder, hread⟩ :=
        K.writeFile_delivers calls hinstep file
      obtain ⟨bs₂, w', hrest, hc', hfollows⟩ := ih hlast₁ hpending₁ next
      refine ⟨bs₁ ++ [0x00] ++ bs₂, w', ?_, hc', .cons hd ?_ hread hfollows⟩
      · rw [writeFiles, writeFile_begun calls hlast hc, hfile]
        simp only [bind, Except.bind, hrest, pure, Except.pure]
      · have hheld : heldRun (w.begun c₀) = [] := rfl
        rw [hnone, hheld, heldRun, if_neg (by omega)] at horder
        simpa using horder

end Sending

end Ferrosync
