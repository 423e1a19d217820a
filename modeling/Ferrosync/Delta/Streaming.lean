import Ferrosync.Delta.Matcher

set_option autoImplicit false

/-! # The streaming matcher

`StreamingMatcher::process_chunk`: the scan of `Matcher.lean` over a buffer that holds an
overlap of one block and a chunk of fresh bytes, shifted and refilled between calls. The source
arrives through a reader that may return fewer bytes than asked for.
-/

namespace Ferrosync

open ByteStream List

variable {prev ops : List DiffOp} {start : Nat}

/-! ## The source reader -/

/-- A `dyn Read` over a file: what is left of it, and how much the next reads are willing to
return. A read returns at least one byte unless the file is at its end. -/
structure SourceReader where
  remaining : List UInt8
  willing : Nat → Nat
  calls : Nat

/-- `Read::read` into a buffer of `room` bytes. -/
def SourceReader.read (r : SourceReader) (room : Nat) : List UInt8 × SourceReader :=
  let n := min (max 1 (r.willing r.calls)) room
  (r.remaining.take n, { r with remaining := r.remaining.drop n, calls := r.calls + 1 })

/-- One iteration of `read_fill` on the bytes read so far. -/
def readFillStep (room : Nat) (st : List UInt8 × SourceReader) :
    Except Failure ((List UInt8 × SourceReader) ⊕ (List UInt8 × SourceReader)) :=
  if st.1.length < room then
    let (bytes, reader) := st.2.read (room - st.1.length)
    if bytes = [] then .ok (.inr (st.1, reader)) else .ok (.inl (st.1 ++ bytes, reader))
  else .ok (.inr st)

/-- `read_fill`: fill `room` bytes, or as many as the file has. -/
def readFill (reader : SourceReader) (room : Nat) :
    Except Failure (List UInt8 × SourceReader) :=
  Loop.loop (.fault .diverged) (readFillStep room) (room + 1) ([], reader)

/-- **`read_fill` hides short reads.** -/
theorem readFill_spec (reader : SourceReader) (room : Nat) :
    ∃ reader', readFill reader room = .ok (reader.remaining.take room, reader') ∧
      reader'.remaining = reader.remaining.drop room := by
  obtain ⟨⟨bytes, reader'⟩, hloop, hbytes, hrest⟩ :=
    Loop.loop_total (Failure.fault .diverged) (readFillStep room)
      (fun st => ∃ k, k ≤ room ∧ k ≤ reader.remaining.length ∧
        st.1 = reader.remaining.take k ∧ st.2.remaining = reader.remaining.drop k)
      (fun st => st.1 = reader.remaining.take room ∧ st.2.remaining = reader.remaining.drop room)
      (fun st => room - st.1.length) (by
        rintro ⟨bytes, r⟩ ⟨k, hroom, hlen, rfl, hr⟩
        dsimp only at hr
        have htake : (reader.remaining.take k).length = k := length_take_of_le hlen
        simp only [readFillStep, htake, SourceReader.read, hr]
        by_cases hlt : k < room
        · rw [if_pos hlt]
          set n := min (max 1 (r.willing r.calls)) (room - k) with hn
          by_cases hend : (reader.remaining.drop k).take n = []
          · -- a read of nothing: the file is at its end
            have hk : k = reader.remaining.length := by
              have h := congrArg length hend
              simp at h
              omega
            right
            rw [if_pos hend]
            refine ⟨_, rfl, ?_, ?_⟩
            all_goals
              simp [hk]
              omega
          · left
            rw [if_neg hend]
            have hjoin : reader.remaining.take k ++ (reader.remaining.drop k).take n =
                reader.remaining.take (k + n) := by rw [← take_add]
            have hk : k < reader.remaining.length := by
              by_contra hge
              rw [drop_of_length_le (by omega), take_nil] at hend
              exact hend rfl
            refine ⟨_, rfl, ⟨min (k + n) reader.remaining.length, by omega, by omega, ?_, ?_⟩, ?_⟩
            · rw [hjoin, ← take_eq_take_min]
            · rw [drop_drop]
              by_cases hle : k + n ≤ reader.remaining.length
              · rw [Nat.min_eq_left hle]
              · simp
            · rw [hjoin, length_take]
              omega
        · right
          rw [if_neg hlt]
          obtain rfl : k = room := by omega
          exact ⟨_, rfl, rfl, hr⟩)
      (room + 1) ([], reader) ⟨0, by omega, by omega, by simp, by simp⟩ (by simp)
  dsimp only at hbytes hrest
  exact ⟨reader', by rw [readFill, hloop, hbytes], hrest⟩

/-! ## The buffer -/

/-- Overwrite `buf` with `data` from `start` on. -/
def bufWrite (buf : List UInt8) (start : Nat) (data : List UInt8) : List UInt8 :=
  buf.take start ++ (data ++ buf.drop (start + data.length))

/-- `buf.copy_within(i..j, 0)`. -/
def copyWithin (buf : List UInt8) (i j : Nat) : Except Failure (List UInt8) := do
  let overlap ← sliceChecked buf i j
  pure (bufWrite buf 0 overlap)

theorem bufWrite_length {buf data : List UInt8} (h : start + data.length ≤ buf.length) :
    (bufWrite buf start data).length = buf.length := by
  simp only [bufWrite, length_append, length_take, length_drop]
  omega

theorem bufWrite_take (buf data : List UInt8) (h : start ≤ buf.length) :
    (bufWrite buf start data).take (start + data.length) = buf.take start ++ data := by
  have hlen : (buf.take start).length = start := length_take_of_le h
  rw [bufWrite, ← append_assoc, take_left' (by rw [length_append, hlen])]

theorem bufWrite_slice (buf data : List UInt8) (h : start ≤ buf.length) :
    slice (bufWrite buf start data) start (start + data.length) = data := by
  have hlen : (buf.take start).length = start := length_take_of_le h
  rw [slice, bufWrite, drop_left' hlen, Nat.add_sub_cancel_left, take_left]

/-! ## The matcher -/

structure StreamingMatcher where
  cfg : MatcherConfig
  chunkSize : Nat
  noSums : Bool
  rolling : RollingChecksum
  buf : List UInt8
  bufLen : Nat
  pos : Nat
  literalStart : Nat
  initialized : Bool
  exhausted : Bool
  needRollingInit : Bool

def StreamingMatcher.new (sums : SumStruct) (ctx : ProtocolContext) (chunkSize : Nat) :
    StreamingMatcher :=
  let noSums := decide (sums.head.count ≤ 0 ∨ sums.head.blength ≤ 0)
  let blength := if noSums then 0 else asUsize sums.head.blength
  { cfg := { MatcherConfig.ofSums sums ctx with blength := blength }
    chunkSize := chunkSize
    noSums := noSums
    rolling := .new ctx.charOffset
    buf := List.replicate (blength + chunkSize) 0
    bufLen := 0
    pos := 0
    literalStart := 0
    initialized := false
    exhausted := false
    needRollingInit := true }

/-- The two `&mut` arguments of `process_chunk`. -/
structure StreamIO where
  reader : SourceReader
  checksum : IncrementalChecksum

/-- The matcher after `data` has been read into the buffer at `start`. -/
def StreamingMatcher.filled (m : StreamingMatcher) (start : Nat) (data : List UInt8) :
    StreamingMatcher :=
  { m with
    buf := bufWrite m.buf start data
    bufLen := start + data.length
    exhausted := m.exhausted || decide (data.length < m.chunkSize) }

/-- Read a chunk into `buf[start..start + chunk_size]` and feed it to the file checksum. -/
def fillFrom (m : StreamingMatcher) (io : StreamIO) (start : Nat) :
    Except Failure (StreamingMatcher × StreamIO) := do
  let _ ← sliceChecked m.buf start (start + m.chunkSize)
  let (data, reader) ← readFill io.reader m.chunkSize
  let fresh ← sliceChecked (bufWrite m.buf start data) start (start + data.length)
  let checksum := if data.length > 0 then io.checksum.update fresh else io.checksum
  pure (m.filled start data, ⟨reader, checksum⟩)

/-- `a - b` on `usize`, which must not underflow. -/
def subChecked (a b : Nat) : Except Failure Nat :=
  if b ≤ a then .ok (a - b) else .error (.fault .panic)

/-- Move the last block of the buffer to its front, flushing the literal bytes that the move
discards. -/
def shiftOverlap (m : StreamingMatcher) : Except Failure (List DiffOp × StreamingMatcher) := do
  let shiftBy := m.bufLen - m.cfg.blength
  let ops ← flushLiteral m.buf m.literalStart shiftBy []
  let buf ← copyWithin m.buf shiftBy m.bufLen
  let pos ← subChecked m.pos shiftBy
  let literalStart ← subChecked (max m.literalStart shiftBy) shiftBy
  pure (ops, { m with buf := buf, pos := pos, literalStart := literalStart })

/-- Step 1 of `process_chunk`: fill the buffer. -/
def fillBuffer (m : StreamingMatcher) (io : StreamIO) :
    Except Failure (List DiffOp × StreamingMatcher × StreamIO) :=
  if m.initialized = false then do
    let (m, io) ← fillFrom m io 0
    pure ([], { m with initialized := true }, io)
  else if m.noSums = true ∨ m.cfg.blength = 0 then do
    let (m, io) ← fillFrom m io 0
    pure ([], m, io)
  else do
    let (ops, m) ← shiftOverlap m
    let (m, io) ← fillFrom m io m.cfg.blength
    pure (ops, m, io)

/-- Step 3: the rolling checksum of the window at `pos`, computed afresh if needed. -/
def initRolling (m : StreamingMatcher) : Except Failure RollingChecksum :=
  if m.needRollingInit then do
    let window ← sliceChecked m.buf m.pos (m.pos + m.cfg.blength)
    pure (m.rolling.compute window)
  else .ok m.rolling

def StreamingMatcher.afterScan (m : StreamingMatcher) (st : ScanState) : StreamingMatcher :=
  { m with
    rolling := st.rolling
    pos := st.pos
    literalStart := st.literalStart
    needRollingInit := st.needRollingInit }

/-- Steps 3 to 5: initialise the rolling checksum if needed, scan, flush at the end. -/
def matchBuffer (X : Externals) (m : StreamingMatcher) (ops : List DiffOp) :
    Except Failure ((List DiffOp × Bool) × StreamingMatcher) := do
  let rolling ← initRolling m
  let st ← scan X m.cfg m.buf m.bufLen ⟨rolling, m.pos, m.literalStart, false, ops⟩
  if m.exhausted then do
    let ops ← flushLiteral m.buf st.literalStart m.bufLen st.ops
    pure ((ops, true), m.afterScan st)
  else pure ((st.ops, false), m.afterScan st)

/-- Steps 2 to 5 of `process_chunk`. -/
def processBuffer (X : Externals) (m : StreamingMatcher) (ops : List DiffOp) :
    Except Failure ((List DiffOp × Bool) × StreamingMatcher) :=
  if m.bufLen = 0 then .ok ((ops, true), m)
  else if m.noSums then do
    let data ← sliceChecked m.buf 0 m.bufLen
    pure ((ops ++ [.literal data], m.exhausted), m)
  else if m.bufLen < m.cfg.blength then do
    -- reports `done` even though the reader may hold more
    let data ← sliceChecked m.buf 0 m.bufLen
    pure ((ops ++ [.literal data], true), m)
  else matchBuffer X m ops

def processChunk (X : Externals) (m : StreamingMatcher) (io : StreamIO) :
    Except Failure ((List DiffOp × Bool) × StreamingMatcher × StreamIO) := do
  let (ops, m, io) ← fillBuffer m io
  let (result, m) ← processBuffer X m ops
  pure (result, m, io)

/-! ## The algorithm of the file checksum -/

theorem fillFrom_checksumType {m m' : StreamingMatcher} {io io' : StreamIO}
    (h : fillFrom m io start = .ok (m', io')) :
    io'.checksum.checksumType = io.checksum.checksumType := by
  obtain ⟨_, -, h₁⟩ := Loop.except_bind_eq_ok h
  obtain ⟨⟨data, reader⟩, -, h₂⟩ := Loop.except_bind_eq_ok h₁
  obtain ⟨fresh, -, h₃⟩ := Loop.except_bind_eq_ok h₂
  cases h₃
  split_ifs <;> rfl

theorem fillBuffer_checksumType {m m' : StreamingMatcher} {io io' : StreamIO}
    (h : fillBuffer m io = .ok (ops, m', io')) :
    io'.checksum.checksumType = io.checksum.checksumType := by
  unfold fillBuffer at h
  split_ifs at h
  · obtain ⟨⟨m₁, io₁⟩, hfill, hpure⟩ := Loop.except_bind_eq_ok h
    cases hpure
    exact fillFrom_checksumType hfill
  · obtain ⟨⟨m₁, io₁⟩, hfill, hpure⟩ := Loop.except_bind_eq_ok h
    cases hpure
    exact fillFrom_checksumType hfill
  · obtain ⟨⟨ops₁, m₁⟩, -, h₁⟩ := Loop.except_bind_eq_ok h
    obtain ⟨⟨m₂, io₂⟩, hfill, hpure⟩ := Loop.except_bind_eq_ok h₁
    cases hpure
    exact fillFrom_checksumType hfill

/-- A call feeds the checksum and leaves its algorithm alone. -/
theorem processChunk_checksumType {X : Externals} {m m' : StreamingMatcher} {io io' : StreamIO}
    {result : List DiffOp × Bool} (h : processChunk X m io = .ok (result, m', io')) :
    io'.checksum.checksumType = io.checksum.checksumType := by
  obtain ⟨⟨ops, m₁, io₁⟩, hfill, h₁⟩ := Loop.except_bind_eq_ok h
  obtain ⟨⟨result', m₂⟩, -, hpure⟩ := Loop.except_bind_eq_ok h₁
  cases hpure
  exact fillBuffer_checksumType hfill

/-! ## One call -/

/-- **Filling the buffer** appends a chunk of the source to what the checksum has seen. -/
theorem fillFrom_spec (m : StreamingMatcher) (io : StreamIO) (start : Nat)
    (h : start + m.chunkSize ≤ m.buf.length) :
    ∃ io', fillFrom m io start =
        .ok (m.filled start (io.reader.remaining.take m.chunkSize), io') ∧
      io'.reader.remaining = io.reader.remaining.drop m.chunkSize ∧
      io'.checksum.fed = io.checksum.fed ++ io.reader.remaining.take m.chunkSize := by
  obtain ⟨reader, hfill, hrest⟩ := readFill_spec io.reader m.chunkSize
  set data := io.reader.remaining.take m.chunkSize with hdata
  have hlen : data.length ≤ m.chunkSize := length_take_le _ _
  -- what is read back for the checksum is what was written into the buffer
  have hfresh : sliceChecked (bufWrite m.buf start data) start (start + data.length) =
      .ok data := by
    rw [sliceChecked_eq (Nat.le_add_right _ _) (by rw [bufWrite_length] <;> omega),
      bufWrite_slice _ _ (by omega)]
  refine ⟨⟨reader, if data.length > 0 then io.checksum.update data else io.checksum⟩,
    ?_, hrest, ?_⟩
  · simp only [fillFrom, sliceChecked_eq (Nat.le_add_right _ _) h, hfill, hfresh, Loop.ok_bind]
    rfl
  · split
    · rfl
    · have hnil : data = [] := length_eq_zero_iff.mp (by omega)
      rw [hnil, append_nil]

/-! ## The part of the buffer that is filled -/

section Filled

variable {X : Externals} {cfg : MatcherConfig} {buf : List UInt8} {n i j : Nat}

theorem sliceChecked_take (hn : n ≤ buf.length) (hj : j ≤ n) :
    sliceChecked buf i j = sliceChecked (buf.take n) i j := by
  have hlen : (buf.take n).length = n := length_take_of_le hn
  unfold sliceChecked
  rw [hlen]
  by_cases hij : i ≤ j
  · have hslice : slice buf i j = slice (buf.take n) i j := by
      rw [slice, slice, drop_take, take_take]
      congr 1
      omega
    rw [if_pos ⟨hij, by omega⟩, if_pos ⟨hij, hj⟩, hslice]
  · rw [if_neg (fun h => hij h.1), if_neg (fun h => hij h.1)]

theorem indexChecked_take (hi : i < n) :
    indexChecked buf i = indexChecked (buf.take n) i := by
  unfold indexChecked
  rw [getElem?_take_of_lt hi]

/-- The scan looks only at the filled part of the buffer. -/
theorem scanStep_take (hb : 0 < cfg.blength) (hn : n ≤ buf.length) (st : ScanState) :
    scanStep X cfg buf n st = scanStep X cfg (buf.take n) n st := by
  unfold scanStep
  by_cases hpos : st.pos + cfg.blength ≤ n
  · have hfind : findMatch X cfg buf st = findMatch X cfg (buf.take n) st := by
      unfold findMatch
      rw [sliceChecked_take hn hpos]
    -- behind a window the step looks one byte, or one block, further: only if it is filled
    have hnext : ∀ found, scanNext cfg buf n st found = scanNext cfg (buf.take n) n st found := by
      intro found
      cases found with
      | none =>
        show scanAdvance cfg buf n st = scanAdvance cfg (buf.take n) n st
        unfold scanAdvance
        rw [indexChecked_take (show st.pos < n by omega)]
        dsimp only
        by_cases hroom : st.pos + 1 + cfg.blength ≤ n
        · rw [indexChecked_take (show st.pos + 1 + cfg.blength - 1 < n by omega)]
        · simp only [if_neg hroom]
      | some idx =>
        show scanMatched cfg buf n st idx = scanMatched cfg (buf.take n) n st idx
        unfold scanMatched flushLiteral
        rw [sliceChecked_take hn (show st.pos ≤ n by omega)]
        dsimp only
        by_cases hroom : st.pos + cfg.blength + cfg.blength ≤ n
        · rw [sliceChecked_take hn hroom]
        · simp only [if_neg hroom]
    rw [hfind]
    simp only [hnext]
  · rw [if_neg hpos, if_neg hpos]

theorem scan_take (hb : 0 < cfg.blength) (hn : n ≤ buf.length) (st : ScanState) :
    scan X cfg buf n st = scan X cfg (buf.take n) n st := by
  unfold scan
  rw [funext (scanStep_take hb hn)]

end Filled

/-! ## A buffer and what it holds -/

section Call

variable {X : Externals} {cfg : MatcherConfig} {source held : List UInt8} {chunk i j : Nat}
variable {m : StreamingMatcher} {io : StreamIO}

/-- Between two calls with signatures: the buffer holds the end of the bytes read so far, the
operations emitted describe everything before `literalStart`, and less than a block of the
buffer is unscanned. -/
structure Between (X : Externals) (cfg : MatcherConfig) (source : List UInt8) (chunk : Nat)
    (m : StreamingMatcher) (io : StreamIO) (prev : List DiffOp) : Prop where
  cfg_eq : m.cfg = cfg
  chunk_eq : m.chunkSize = chunk
  noSums : m.noSums = false
  initialized : m.initialized = true
  exhausted : m.exhausted = false
  buf_length : m.buf.length = cfg.blength + chunk
  block_le : cfg.blength ≤ chunk
  block_le_bufLen : cfg.blength ≤ m.bufLen
  bufLen_le : m.bufLen ≤ m.buf.length
  fed : io.checksum.fed ++ io.reader.remaining = source
  window_end : m.bufLen < m.pos + cfg.blength
  held : ∃ pre, io.checksum.fed = pre ++ m.buf.take m.bufLen ∧
    Scanned X cfg prev pre m.buf m.bufLen
      ⟨m.rolling, m.pos, m.literalStart, m.needRollingInit, []⟩

/-- Between two calls without signatures everything read has been sent as literals. -/
structure BetweenLiteral (D : List DiffOp → List UInt8 → Prop) (source : List UInt8) (chunk : Nat)
    (m : StreamingMatcher) (io : StreamIO) (prev : List DiffOp) : Prop where
  chunk_eq : m.chunkSize = chunk
  noSums : m.noSums = true
  exhausted : m.exhausted = false
  buf_length : chunk ≤ m.buf.length
  fed : io.checksum.fed ++ io.reader.remaining = source
  describes : D prev io.checksum.fed

structure Loaded (cfg : MatcherConfig) (chunk : Nat) (held : List UInt8) (m : StreamingMatcher) :
    Prop where
  cfg_eq : m.cfg = cfg
  chunk_eq : m.chunkSize = chunk
  initialized : m.initialized = true
  buf_length : m.buf.length = cfg.blength + chunk
  bufLen : m.bufLen = held.length
  held : m.buf.take m.bufLen = held

theorem Loaded.bufLen_le (h : Loaded cfg chunk held m) : m.bufLen ≤ m.buf.length := by
  have hlen := congrArg length h.held
  simpa [← h.bufLen] using hlen

theorem Loaded.slice_eq (h : Loaded cfg chunk held m) (hij : i ≤ j) (hj : j ≤ held.length) :
    sliceChecked m.buf i j = .ok (slice held i j) := by
  rw [sliceChecked_take h.bufLen_le (by rw [h.bufLen]; exact hj), h.held, sliceChecked_eq hij hj]

theorem Loaded.flushLiteral_eq (h : Loaded cfg chunk held m) (hj : j ≤ held.length)
    (ops : List DiffOp) : flushLiteral m.buf i j ops = .ok (ops ++ pending held i j) := by
  unfold flushLiteral pending
  split_ifs with hlt
  · rw [h.slice_eq hlt.le hj]
    rfl
  · rw [append_nil]

theorem Loaded.initRolling_ok (h : Loaded cfg chunk held m) (hpos : m.pos ≤ chunk) :
    ∃ rolling, initRolling m = .ok rolling := by
  unfold initRolling
  split_ifs
  · rw [h.cfg_eq, sliceChecked_eq (Nat.le_add_right _ _) (by rw [h.buf_length]; omega)]
    exact ⟨_, rfl⟩
  · exact ⟨_, rfl⟩

/-- The scan of a loaded buffer is the scan of what it holds. -/
theorem Loaded.matchBuffer_eq (h : Loaded cfg chunk held m) (hb : 0 < cfg.blength)
    {rolling : RollingChecksum} (hinit : initRolling m = .ok rolling) {st : ScanState}
    (hscan : scan X cfg held held.length ⟨rolling, m.pos, m.literalStart, false, ops⟩ = .ok st) :
    matchBuffer X m ops = .ok ((if m.exhausted then
      st.ops ++ pending held st.literalStart held.length else st.ops, m.exhausted),
      m.afterScan st) := by
  unfold matchBuffer
  rw [hinit, Loop.ok_bind, h.cfg_eq, scan_take hb h.bufLen_le, h.held, h.bufLen, hscan,
    Loop.ok_bind, h.flushLiteral_eq le_rfl]
  cases m.exhausted <;> rfl

/-- A call that has filled the buffer with at least a block. -/
theorem Loaded.processBuffer_eq (h : Loaded cfg chunk held m) (hsums : m.noSums = false)
    (hb : 0 < cfg.blength) (hblock : cfg.blength ≤ held.length) :
    processBuffer X m ops = matchBuffer X m ops := by
  unfold processBuffer
  rw [if_neg (by rw [h.bufLen]; omega), if_neg (by rw [hsums]; exact Bool.false_ne_true),
    if_neg (by rw [h.bufLen, h.cfg_eq]; omega)]

theorem processBuffer_empty (h : m.bufLen = 0) :
    processBuffer X m ops = .ok ((ops, true), m) := if_pos h

/-- Without signatures, or with less than a block, all of the buffer is sent. -/
theorem processBuffer_whole (ops : List DiffOp) (hlen : m.bufLen = held.length)
    (hheld : m.buf.take m.bufLen = held) (hne : held ≠ [])
    (hwhole : m.noSums = true ∨ m.bufLen < m.cfg.blength) :
    processBuffer X m ops =
      .ok ((ops ++ [.literal held], if m.noSums then m.exhausted else true), m) := by
  have hzero : m.bufLen ≠ 0 := fun h => hne (length_eq_zero_iff.mp (hlen ▸ h))
  have hslice : sliceChecked m.buf 0 m.bufLen = .ok held := by
    have hle := congrArg length hheld
    rw [length_take] at hle
    rw [sliceChecked_eq (Nat.zero_le _) (by omega), slice, drop_zero, Nat.sub_zero, hheld]
  unfold processBuffer
  rw [if_neg hzero, hslice]
  cases hsums : m.noSums with
  | true => rfl
  | false =>
    have hshort : m.bufLen < m.cfg.blength :=
      hwhole.resolve_left (by rw [hsums]; exact Bool.false_ne_true)
    simp [hshort]

theorem processChunk_eq {m₁ m₂ : StreamingMatcher} {io' : StreamIO} {result : List DiffOp × Bool}
    (hfill : fillBuffer m io = .ok (ops, m₁, io'))
    (hbuffer : processBuffer X m₁ ops = .ok (result, m₂)) :
    processChunk X m io = .ok (result, m₂, io') := by
  rw [processChunk, hfill, Loop.ok_bind]
  simp only [hbuffer]
  rfl

/-! ## Filling the buffer -/

structure Fresh (cfg : MatcherConfig) (source : List UInt8) (chunk : Nat) (noSums : Bool)
    (m : StreamingMatcher) (io : StreamIO) : Prop where
  cfg_eq : m.cfg = cfg
  chunk_eq : m.chunkSize = chunk
  noSums : m.noSums = noSums
  initialized : m.initialized = false
  exhausted : m.exhausted = false
  pos : m.pos = 0
  literalStart : m.literalStart = 0
  buf_length : m.buf.length = cfg.blength + chunk
  remaining : io.reader.remaining = source
  fed : io.checksum.fed = []

theorem fillBuffer_first {noSums : Bool} (h : Fresh cfg source chunk noSums m io) :
    ∃ m₁ io', fillBuffer m io = .ok ([], m₁, io') ∧ Loaded cfg chunk (source.take chunk) m₁ ∧
      m₁.exhausted = decide (source.length < chunk) ∧ m₁.noSums = noSums ∧ m₁.pos = 0 ∧
      m₁.literalStart = 0 ∧ m₁.rolling = m.rolling ∧ m₁.needRollingInit = m.needRollingInit ∧
      io'.reader.remaining = source.drop chunk ∧ io'.checksum.fed = source.take chunk := by
  -- the first buffer has no block of an earlier one in front
  obtain ⟨io', hfill, hrest, hfed⟩ := fillFrom_spec m io 0
    (by rw [h.buf_length, h.chunk_eq]; omega)
  rw [h.remaining, h.chunk_eq] at hfill hrest hfed
  rw [h.fed] at hfed
  have hlen : (source.take chunk).length = min chunk source.length := length_take
  refine ⟨{ m.filled 0 (source.take chunk) with initialized := true }, io', ?_,
    ⟨h.cfg_eq, h.chunk_eq, rfl, ?_, Nat.zero_add _, ?_⟩, ?_, h.noSums, h.pos, h.literalStart, rfl,
    rfl, hrest, hfed⟩
  · rw [fillBuffer, if_pos h.initialized, hfill]
    rfl
  · show (bufWrite m.buf 0 (source.take chunk)).length = _
    rw [bufWrite_length (by rw [h.buf_length]; omega), h.buf_length]
  · have htake := bufWrite_take m.buf (source.take chunk) (Nat.zero_le _)
    rwa [take_zero, nil_append] at htake
  · show (m.exhausted || decide ((source.take chunk).length < m.chunkSize)) = _
    simp [h.exhausted, h.chunk_eq, hlen]

variable (io) in
/-- The next buffer: the last block of the one before, and a chunk of fresh bytes. -/
theorem fillBuffer_next (h : Loaded cfg chunk held m) (hsums : m.noSums = false)
    (hexhausted : m.exhausted = false) (hb : 0 < cfg.blength) (hblock : cfg.blength ≤ held.length)
    (hlit : m.literalStart ≤ m.pos) (hend : held.length < m.pos + cfg.blength) :
    ∃ m₁ io', fillBuffer m io =
        .ok (pending held m.literalStart (held.length - cfg.blength), m₁, io') ∧
      Loaded cfg chunk (held.drop (held.length - cfg.blength) ++ io.reader.remaining.take chunk)
        m₁ ∧
      m₁.exhausted = decide (io.reader.remaining.length < chunk) ∧ m₁.noSums = false ∧
      m₁.pos = m.pos - (held.length - cfg.blength) ∧
      m₁.literalStart = m.literalStart - (held.length - cfg.blength) ∧
      m₁.rolling = m.rolling ∧ m₁.needRollingInit = m.needRollingInit ∧
      io'.reader.remaining = io.reader.remaining.drop chunk ∧
      io'.checksum.fed = io.checksum.fed ++ io.reader.remaining.take chunk := by
  have hbufLen := h.bufLen
  set shiftBy := held.length - cfg.blength with hshiftBy
  set overlap := held.drop shiftBy with hoverlap
  have hovlen : overlap.length = cfg.blength := by
    rw [length_drop]
    omega
  -- what is neither matched nor kept in the overlap is flushed as a literal
  have hflush : flushLiteral m.buf m.literalStart shiftBy [] =
      .ok (pending held m.literalStart shiftBy) := h.flushLiteral_eq (by omega) []
  -- the overlap moves to the front, and the chunk is read behind it
  have hcopy : copyWithin m.buf shiftBy m.bufLen = .ok (bufWrite m.buf 0 overlap) := by
    have hslice : slice held shiftBy held.length = overlap := by
      rw [slice, ← length_drop, take_length]
    rw [copyWithin, hbufLen, h.slice_eq (by omega) le_rfl, hslice]
    rfl
  have hshift : shiftOverlap m = .ok (pending held m.literalStart shiftBy, { m with
      buf := bufWrite m.buf 0 overlap, pos := m.pos - shiftBy,
      literalStart := m.literalStart - shiftBy }) := by
    have hmax : max m.literalStart shiftBy - shiftBy = m.literalStart - shiftBy := by omega
    rw [shiftOverlap, h.cfg_eq, hbufLen, ← hshiftBy]
    simp only [hflush, subChecked]
    rw [← hbufLen, hcopy, if_pos (by omega), Loop.ok_bind, if_pos (by omega), Loop.ok_bind, hmax]
    rfl
  set m' : StreamingMatcher := { m with
    buf := bufWrite m.buf 0 overlap, pos := m.pos - shiftBy,
    literalStart := m.literalStart - shiftBy } with hm'
  have hlen' : m'.buf.length = cfg.blength + chunk := by
    rw [bufWrite_length (by rw [h.buf_length]; omega), h.buf_length]
  have htake' : m'.buf.take cfg.blength = overlap := by
    have htake := bufWrite_take m.buf overlap (Nat.zero_le _)
    simpa [hovlen] using htake
  have hchunk' : m'.chunkSize = chunk := h.chunk_eq
  obtain ⟨io', hfill, hrest, hfed⟩ := fillFrom_spec m' io cfg.blength (by rw [hlen', hchunk'])
  rw [hchunk'] at hfill hrest hfed
  set data := io.reader.remaining.take chunk with hdata
  have hdlen : data.length = min chunk io.reader.remaining.length := length_take
  refine ⟨m'.filled cfg.blength data, io', ?_, ⟨h.cfg_eq, h.chunk_eq, h.initialized, ?_, ?_, ?_⟩,
    ?_, hsums, rfl, rfl, rfl, rfl, hrest, hfed⟩
  · rw [fillBuffer, if_neg (by rw [h.initialized]; exact Bool.true_eq_false_eq_False),
      if_neg (by simp [hsums, h.cfg_eq]; omega), hshift]
    show (fillFrom m' io m.cfg.blength >>= _) = _
    rw [h.cfg_eq, hfill]
    rfl
  · show (bufWrite m'.buf cfg.blength data).length = _
    have hfit : cfg.blength + data.length ≤ m'.buf.length := by
      omega
    rw [bufWrite_length hfit, hlen']
  · show cfg.blength + data.length = _
    rw [length_append, hovlen]
  · rw [← htake']
    exact bufWrite_take _ _ (by rw [hlen']; omega)
  · show (m.exhausted || decide (data.length < m.chunkSize)) = _
    simp [hexhausted, h.chunk_eq, hdlen]

variable (io) in
/-- Without signatures every chunk is read to the front of the buffer. -/
theorem fillBuffer_literal (hsums : m.noSums = true) (hchunk : m.chunkSize = chunk)
    (hbuf : chunk ≤ m.buf.length) :
    ∃ m₁ io', fillBuffer m io = .ok ([], m₁, io') ∧
      m₁.bufLen = (io.reader.remaining.take chunk).length ∧
      m₁.buf.take m₁.bufLen = io.reader.remaining.take chunk ∧
      m₁.buf.length = m.buf.length ∧ m₁.chunkSize = chunk ∧ m₁.noSums = true ∧
      m₁.exhausted = (m.exhausted || decide (io.reader.remaining.length < chunk)) ∧
      io'.reader.remaining = io.reader.remaining.drop chunk ∧
      io'.checksum.fed = io.checksum.fed ++ io.reader.remaining.take chunk := by
  obtain ⟨io', hfill, hrest, hfed⟩ := fillFrom_spec m io 0 (by rw [Nat.zero_add, hchunk]; exact hbuf)
  rw [hchunk] at hfill hrest hfed
  set data := io.reader.remaining.take chunk with hdata
  have hdlen : data.length = min chunk io.reader.remaining.length := length_take
  have htake : (bufWrite m.buf 0 data).take (0 + data.length) = data := by
    rw [bufWrite_take _ _ (Nat.zero_le _), take_zero, nil_append]
  have hexhausted : (m.exhausted || decide (data.length < m.chunkSize)) =
      (m.exhausted || decide (io.reader.remaining.length < chunk)) := by
    exact congrArg _ (decide_eq_decide.mpr (by omega))
  have hlen : (bufWrite m.buf 0 data).length = m.buf.length := bufWrite_length (by omega)
  -- the first call takes another branch, which does the same
  by_cases hinit : m.initialized = false
  · exact ⟨{ m.filled 0 data with initialized := true }, io',
      by rw [fillBuffer, if_pos hinit, hfill]; rfl, Nat.zero_add _, htake, hlen, hchunk, hsums,
      hexhausted, hrest, hfed⟩
  · exact ⟨m.filled 0 data, io', by rw [fillBuffer, if_neg hinit, if_pos (.inl hsums), hfill]; rfl,
      Nat.zero_add _, htake, hlen, hchunk, hsums, hexhausted, hrest, hfed⟩

/-! ## One call -/

/-- What a call leaves behind: either it was the last one, and the operations and what the checksum
has been fed satisfy `Q`, or the state between calls `I` holds with fewer bytes left to read. -/
def Progress (I : StreamingMatcher → StreamIO → List DiffOp → Prop)
    (Q : List DiffOp → List UInt8 → Prop) (prev : List DiffOp) (left : Nat)
    (r : (List DiffOp × Bool) × StreamingMatcher × StreamIO) : Prop :=
  (r.1.2 = true ∧ Q (prev ++ r.1.1) r.2.2.checksum.fed) ∨
    (r.1.2 = false ∧ I r.2.1 r.2.2 (prev ++ r.1.1) ∧ r.2.2.reader.remaining.length < left)

/-- The source is completely described and hashed. -/
def Complete (D : List DiffOp → List UInt8 → Prop) (source : List UInt8) (ops : List DiffOp)
    (fed : List UInt8) : Prop := D ops source ∧ fed = source

/-- A filled buffer of at least a block, with signatures. -/
theorem Loaded.processBuffer_spec (h : Loaded cfg chunk held m) (prev ops : List DiffOp)
    (pre : List UInt8) (left : Nat)
    (hb : 0 < cfg.blength) (htable : cfg.hashTable.Below cfg.sum2Entries.length)
    (hsums : m.noSums = false)
    (hblock : cfg.blength ≤ chunk) (hge : cfg.blength ≤ held.length) (hpos : m.pos ≤ chunk)
    (hheld : io.checksum.fed = pre ++ held)
    (hfed : io.checksum.fed ++ io.reader.remaining = source)
    (hdone : m.exhausted = true → io.reader.remaining = [])
    (hmore : m.exhausted = false → io.reader.remaining.length < left)
    (hlit : m.literalStart ≤ m.pos) (hend : m.pos ≤ held.length)
    (hops : Covers X cfg (prev ++ ops) (pre ++ held.take m.literalStart)) :
    ∃ res m', processBuffer X m ops = .ok (res, m') ∧
      Progress (Between X cfg source chunk) (Complete (Covers X cfg) source) prev
        left (res, m', io) := by
  obtain ⟨rolling, hrolling⟩ := h.initRolling_ok hpos
  have hstart : Scanned X cfg prev pre held held.length
      ⟨rolling, m.pos, m.literalStart, false, ops⟩ := ⟨hlit, hend, hops⟩
  obtain ⟨st, hscan, hst, hstop⟩ := scan_spec hb htable hstart
  refine ⟨_, _, (h.processBuffer_eq hsums hb hge).trans (h.matchBuffer_eq hb hrolling hscan), ?_⟩
  cases hex : m.exhausted with
  | true =>
    have hall : io.checksum.fed = source := by rw [← hfed, hdone hex, append_nil]
    have hflushed := hst.covers.pending held.length
    rw [Nat.max_eq_right (hst.lit_le.trans hst.pos_le), take_length, ← hheld, hall,
      append_assoc] at hflushed
    exact .inl ⟨rfl, hflushed, hall⟩
  | false =>
    -- what the buffer holds up to the literal is what was scanned up to it
    have hkept : Scanned X cfg (prev ++ st.ops) pre m.buf m.bufLen { st with ops := [] } := by
      refine ⟨hst.lit_le, by rw [h.bufLen]; exact hst.pos_le, ?_⟩
      rw [append_nil, ← Nat.min_eq_left (hst.lit_le.trans hst.pos_le), ← h.bufLen,
        ← take_take, h.held]
      exact hst.covers
    exact .inr ⟨rfl, ⟨h.cfg_eq, h.chunk_eq, hsums, h.initialized, hex, h.buf_length, hblock,
      by rw [← h.bufLen] at hge; exact hge, h.bufLen_le, hfed, by rw [← h.bufLen] at hstop; exact hstop,
      pre, by rw [hheld, ← h.held]; rfl, hkept⟩, hmore hex⟩

/-- The first call with signatures, when a chunk holds a block or the whole source. -/
theorem processChunk_first (hb : 0 < cfg.blength)
    (htable : cfg.hashTable.Below cfg.sum2Entries.length)
    (hchunk : 0 < chunk)
    (hfit : cfg.blength ≤ chunk ∨ source.length ≤ chunk)
    (h : Fresh cfg source chunk false m io) :
    ∃ r, processChunk X m io = .ok r ∧
      Progress (Between X cfg source chunk) (Complete (Covers X cfg) source) []
        source.length r := by
  obtain ⟨m₁, io', hfill, hloaded, hexhausted, hsums, hpos, hlit, -, -, hrest, hfed⟩ :=
    fillBuffer_first h
  have hlen : (source.take chunk).length = min chunk source.length := length_take
  by_cases hge : cfg.blength ≤ (source.take chunk).length
  · obtain ⟨res, m', hproc, hprog⟩ := hloaded.processBuffer_spec (X := X) [] [] []
      source.length hb htable hsums (by omega) hge (by omega) hfed
      (by rw [hfed, hrest, take_append_drop])
      (by
        intro hex
        rw [hrest, drop_of_length_le (of_decide_eq_true (hexhausted ▸ hex)).le])
      (by
        intro _
        rw [hrest, length_drop]
        omega)
      (by omega) (by omega)
      (by
        rw [hlit]
        exact covers_nil X cfg)
    exact ⟨_, processChunk_eq hfill hproc, hprog⟩
  · -- less than a block: the code stops here, which is right only at the end of the source
    have hall : source.take chunk = source := take_of_length_le (by omega)
    rw [hall] at hloaded hfed hge
    by_cases hnil : source = []
    · refine ⟨_, processChunk_eq hfill (processBuffer_empty ?_), .inl ⟨rfl, ?_, hfed⟩⟩
      · rw [hloaded.bufLen, hnil]
        rfl
      · rw [hnil]
        exact covers_nil X cfg
    · have hproc := processBuffer_whole (X := X) [] hloaded.bufLen hloaded.held hnil
        (.inr (by rw [hloaded.bufLen, hloaded.cfg_eq]; omega))
      rw [hsums] at hproc
      exact ⟨_, processChunk_eq hfill hproc,
        .inl ⟨rfl, (covers_nil X cfg).snocLiteral source, hfed⟩⟩

/-- A later call with signatures: **the shift loses nothing**. What leaves the front of the buffer
has been described, and the last block has moved to the front. -/
theorem processChunk_next (hb : 0 < cfg.blength)
    (htable : cfg.hashTable.Below cfg.sum2Entries.length)
    (hchunk : 0 < chunk) (h : Between X cfg source chunk m io prev) :
    ∃ r, processChunk X m io = .ok r ∧
      Progress (Between X cfg source chunk) (Complete (Covers X cfg) source) prev
        io.reader.remaining.length r := by
  obtain ⟨pre, hheld, hst⟩ := h.held
  set held := m.buf.take m.bufLen with hheldDef
  have hheldLen : held.length = m.bufLen := length_take_of_le h.bufLen_le
  have hge := h.block_le_bufLen
  have hblock := h.block_le
  have hend := h.window_end
  have hlit : m.literalStart ≤ m.pos := hst.lit_le
  have hpos : m.pos ≤ m.bufLen := hst.pos_le
  obtain ⟨m₁, io', hfill, hloaded, hexhausted, hsums, hpos₁, hlit₁, -, -, hrest, hfed⟩ :=
    fillBuffer_next io
      ⟨h.cfg_eq, h.chunk_eq, h.initialized, h.buf_length, hheldLen.symm, rfl⟩ h.noSums h.exhausted
      hb (by omega) hlit (by omega)
  set shiftBy := held.length - cfg.blength with hshiftBy
  set data := io.reader.remaining.take chunk with hdata
  have hovlen : (held.drop shiftBy).length = cfg.blength := by
    rw [length_drop]
    omega
  have hnew : (held.drop shiftBy ++ data).length = cfg.blength + data.length := by
    rw [length_append, hovlen]
  have hkept : m.buf.take m.literalStart = held.take m.literalStart := by
    rw [take_take, Nat.min_eq_left (hlit.trans hpos)]
  -- the literal bytes kept in the overlap are those right behind the shift
  have hops : Covers X cfg (prev ++ pending held m.literalStart shiftBy)
      (pre ++ held.take shiftBy ++ (held.drop shiftBy ++ data).take m₁.literalStart) := by
    have hdescribes := hst.covers
    rw [append_nil, hkept] at hdescribes
    have hmax : shiftBy + (m.literalStart - shiftBy) = max m.literalStart shiftBy := by omega
    rw [hlit₁, take_append_of_le_length (by omega), append_assoc, ← take_add, hmax]
    exact hdescribes.pending shiftBy
  have hread : io'.checksum.fed ++ io'.reader.remaining = source := by
    simp [hfed, hrest, hdata, h.fed]
  obtain ⟨res, m', hproc, hprog⟩ := hloaded.processBuffer_spec (X := X) _ _ _
    io.reader.remaining.length hb htable hsums hblock (by omega) (by omega)
    (by rw [hfed, hheld, append_assoc, append_assoc, ← append_assoc (held.take _),
      take_append_drop]) hread
    (by
      intro hex
      rw [hrest, drop_of_length_le (of_decide_eq_true (hexhausted ▸ hex)).le])
    (by
      intro hex
      have hlong : ¬ io.reader.remaining.length < chunk := of_decide_eq_false (hexhausted ▸ hex)
      rw [hrest, length_drop]
      omega)
    (by omega) (by omega) hops
  exact ⟨_, processChunk_eq hfill hproc, hprog⟩

/-- A call without signatures, the first one included. -/
theorem processChunk_literal {D : List DiffOp → List UInt8 → Prop} (hchunk : 0 < chunk)
    (hD : ∀ {ops fed data}, D ops fed → data ≠ [] → D (ops ++ [.literal data]) (fed ++ data))
    (h : BetweenLiteral D source chunk m io prev) :
    ∃ r, processChunk X m io = .ok r ∧
      Progress (BetweenLiteral D source chunk) (Complete D source) prev
        io.reader.remaining.length r := by
  obtain ⟨m₁, io', hfill, hbufLen, hheld, hlen, hchunk₁, hsums, hexhausted, hrest, hfed⟩ :=
    fillBuffer_literal io h.noSums h.chunk_eq h.buf_length
  rw [h.exhausted] at hexhausted
  have hread : io'.checksum.fed ++ io'.reader.remaining = source := by
    simp [hfed, hrest, h.fed]
  have hdone : io.reader.remaining.length < chunk → io'.checksum.fed = source := by
    simp [← hread, hrest]
    omega
  -- at the end of the source nothing is read, and nothing emitted
  by_cases hnil : io.reader.remaining.take chunk = []
  · have hempty : io.reader.remaining = [] := (take_eq_nil_iff.mp hnil).resolve_left (by omega)
    have hall : io'.checksum.fed = source := hdone (by rw [hempty]; exact hchunk)
    refine ⟨_, processChunk_eq hfill (processBuffer_empty (by rw [hbufLen, hnil]; rfl)),
      .inl ⟨rfl, ?_, hall⟩⟩
    simpa [← hall, hfed, hnil] using h.describes
  · have hops := hD h.describes hnil
    rw [← hfed] at hops
    have hproc := processBuffer_whole (X := X) [] hbufLen hheld hnil (.inl hsums)
    rw [hsums] at hproc
    refine ⟨_, processChunk_eq hfill hproc, ?_⟩
    -- a short chunk is the last one
    by_cases hlt : io.reader.remaining.length < chunk
    · rw [hdone hlt] at hops
      exact .inl ⟨hexhausted.trans (decide_eq_true hlt), hops, hdone hlt⟩
    · refine .inr ⟨hexhausted.trans (decide_eq_false hlt), ⟨hchunk₁, hsums,
        hexhausted.trans (decide_eq_false hlt), by rw [hlen]; exact h.buf_length, hread, hops⟩, ?_⟩
      rw [hrest, length_drop]
      omega

/-- **The defect**: when a chunk holds neither a block nor the whole source, the first call
reports that it is done after a single chunk. -/
theorem processChunk_first_lost (hchunk : 0 < chunk) (hblock : chunk < cfg.blength)
    (hlong : chunk < source.length) (h : Fresh cfg source chunk false m io) :
    ∃ m' io', processChunk X m io = .ok (([.literal (source.take chunk)], true), m', io') ∧
      io'.checksum.fed = source.take chunk := by
  obtain ⟨m₁, io', hfill, hloaded, -, hsums, -, -, -, -, -, hfed⟩ := fillBuffer_first h
  have hlen : (source.take chunk).length = chunk := length_take_of_le hlong.le
  have hproc := processBuffer_whole (X := X) [] hloaded.bufLen hloaded.held
    (ne_nil_of_length_pos (by omega))
    (.inr (by rw [hloaded.bufLen, hloaded.cfg_eq]; omega))
  rw [hsums] at hproc
  exact ⟨m₁, io', processChunk_eq hfill hproc, hfed⟩

end Call

end Ferrosync
