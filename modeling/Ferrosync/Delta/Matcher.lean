import Ferrosync.Delta.Token

set_option autoImplicit false

/-! # Block matching

The scan that both matchers of `matcher.rs` run: slide a window over a buffer, look its rolling
checksum up, confirm a candidate with the strong checksum, and emit literals and copies. All
indexing is checked, so a value returned by the model means that the source does not panic.

The invariant of the scan is `Scanned`: the operations emitted so far describe everything before
`literal_start`. A confirmed match extends it because the copied block equals the window
(`MatchSound`), which is where the collision assumption on the strong checksum enters.
-/

namespace Ferrosync

open ByteStream

/-! ## Checked indexing -/

/-- `data[i..j]`, which panics out of range. -/
def sliceChecked (data : List UInt8) (i j : Nat) : Except Failure (List UInt8) :=
  if i ≤ j ∧ j ≤ data.length then .ok (slice data i j) else .error (.fault .panic)

/-- `xs[i]`, which panics out of range. -/
def indexChecked {α : Type} (xs : List α) (i : Nat) : Except Failure α :=
  match xs[i]? with
  | some x => .ok x
  | none => .error (.fault .panic)

theorem sliceChecked_eq {data : List UInt8} {i j : Nat} (h : i ≤ j) (h' : j ≤ data.length) :
    sliceChecked data i j = .ok (slice data i j) := if_pos ⟨h, h'⟩

theorem indexChecked_eq {α : Type} {xs : List α} {i : Nat} (h : i < xs.length) :
    indexChecked xs i = .ok xs[i] := by
  simp [indexChecked, h]

/-! ## The hash table -/

/-- `HashMap<u32, Vec<usize>>`. -/
def HashTable : Type := UInt32 → Option (List Nat)

/-- `table.entry(key).or_default().push(i)`. -/
def HashTable.push (table : HashTable) (key : UInt32) (i : Nat) : HashTable := fun k =>
  if k = key then some ((table key).getD [] ++ [i]) else table k

def buildHashTable (sums : List SumEntry) : HashTable :=
  sums.zipIdx.foldl (fun table p => table.push p.1.sum1 p.2) fun _ => none

/-- Every index a table holds is below `n`. -/
def HashTable.Below (table : HashTable) (n : Nat) : Prop :=
  ∀ key candidates, table key = some candidates → ∀ i ∈ candidates, i < n

theorem HashTable.Below.push {table : HashTable} {n i : Nat} (h : table.Below n) (hi : i < n)
    (key : UInt32) : (table.push key i).Below n := by
  intro k candidates hk j hj
  unfold HashTable.push at hk
  split at hk
  · cases hk
    rcases List.mem_append.mp hj with hj | hj
    · cases ht : table key with
      | none => rw [ht] at hj; cases hj
      | some c => rw [ht] at hj; exact h key c ht j hj
    · rw [List.mem_singleton.mp hj]
      exact hi
  · exact h k candidates hk j hj

theorem foldl_push_below {n : Nat} :
    ∀ (entries : List (SumEntry × Nat)) (table : HashTable), table.Below n →
      (∀ p ∈ entries, p.2 < n) →
      (entries.foldl (fun table p => table.push p.1.sum1 p.2) table).Below n
  | [], _, ht, _ => ht
  | p :: entries, table, ht, hp =>
    foldl_push_below entries _ (ht.push (hp p (by simp)) p.1.sum1)
      fun q hq => hp q (by simp [hq])

theorem buildHashTable_below (sums : List SumEntry) :
    (buildHashTable sums).Below sums.length := by
  refine foldl_push_below sums.zipIdx _ (fun _ _ h => by cases h) ?_
  intro p hp
  have hlt := (List.mem_zipIdx hp).2.1
  omega

/-! ## The scan -/

/-- What both matchers take from the signatures. -/
structure MatcherConfig where
  hashTable : HashTable
  sum2Entries : List (List UInt8)
  blength : Nat
  s2length : Nat
  blockCount : Nat
  remainder : Nat
  ctx : ProtocolContext

def MatcherConfig.ofSums (sums : SumStruct) (ctx : ProtocolContext) : MatcherConfig where
  hashTable := buildHashTable sums.sums
  sum2Entries := sums.sums.map SumEntry.sum2
  blength := asUsize sums.head.blength
  s2length := asUsize sums.head.s2length
  blockCount := asUsize sums.head.count
  remainder := asUsize sums.head.remainder
  ctx := ctx

def blockByteLength (idx blength blockCount remainder : Nat) : Nat :=
  if blockCount > 0 ∧ idx = blockCount - 1 ∧ remainder > 0 ∧ remainder < blength then remainder
  else blength

/-- The copy emitted for block `idx`. -/
def MatcherConfig.copyOp (cfg : MatcherConfig) (idx : Nat) : DiffOp :=
  .copy ⟨idx * cfg.blength, blockByteLength idx cfg.blength cfg.blockCount cfg.remainder⟩

/-- The strong checksum of a window, cut to the length the signatures use. -/
def MatcherConfig.strongTruncated (X : Externals) (cfg : MatcherConfig) (window : List UInt8) :
    List UInt8 :=
  let strong := checksum2 X window cfg.ctx
  strong.take (min cfg.s2length strong.length)

structure ScanState where
  rolling : RollingChecksum
  pos : Nat
  literalStart : Nat
  needRollingInit : Bool
  ops : List DiffOp
  deriving DecidableEq, Repr

/-- The loop over the candidates of a hash hit. -/
def firstCandidate (sum2Entries : List (List UInt8)) (strong : List UInt8) :
    List Nat → Except Failure (Option Nat)
  | [] => .ok none
  | idx :: candidates => do
    let sum2 ← indexChecked sum2Entries idx
    if sum2 = strong then pure (some idx) else firstCandidate sum2Entries strong candidates

/-- The block that matches the window at `pos`, if any. -/
def findMatch (X : Externals) (cfg : MatcherConfig) (buf : List UInt8) (st : ScanState) :
    Except Failure (Option Nat) :=
  match cfg.hashTable st.rolling.digest with
  | none => .ok none
  | some candidates => do
    let window ← sliceChecked buf st.pos (st.pos + cfg.blength)
    firstCandidate cfg.sum2Entries (cfg.strongTruncated X window) candidates

/-- Push `buf[i..j]` as a literal unless it is empty. -/
def flushLiteral (buf : List UInt8) (i j : Nat) (ops : List DiffOp) :
    Except Failure (List DiffOp) :=
  if i < j then do
    let data ← sliceChecked buf i j
    pure (ops ++ [.literal data])
  else .ok ops

/-- A confirmed match of block `idx` at `pos`. -/
def scanMatched (cfg : MatcherConfig) (buf : List UInt8) (bufLen : Nat) (st : ScanState)
    (idx : Nat) : Except Failure ScanState := do
  let ops ← flushLiteral buf st.literalStart st.pos st.ops
  let pos := st.pos + cfg.blength
  let st' : ScanState :=
    { st with pos := pos, literalStart := pos, ops := ops ++ [cfg.copyOp idx] }
  if pos + cfg.blength ≤ bufLen then do
    let window ← sliceChecked buf pos (pos + cfg.blength)
    pure { st' with rolling := st.rolling.compute window }
  else
    -- The next chunk has to initialise the rolling checksum; `match_blocks` has no next chunk.
    pure { st' with needRollingInit := true }

/-- No match at `pos`: advance the window by one byte. -/
def scanAdvance (cfg : MatcherConfig) (buf : List UInt8) (bufLen : Nat) (st : ScanState) :
    Except Failure ScanState := do
  let oldByte ← indexChecked buf st.pos
  let pos := st.pos + 1
  if pos + cfg.blength ≤ bufLen then do
    let newByte ← indexChecked buf (pos + cfg.blength - 1)
    pure { st with pos := pos, rolling := st.rolling.roll oldByte newByte }
  else pure { st with pos := pos }

/-- The rest of an iteration, after the lookup. -/
def scanNext (cfg : MatcherConfig) (buf : List UInt8) (bufLen : Nat) (st : ScanState) :
    Option Nat → Except Failure ScanState
  | some idx => scanMatched cfg buf bufLen st idx
  | none => scanAdvance cfg buf bufLen st

/-- One iteration of the match loop over `buf[..bufLen]`. -/
def scanStep (X : Externals) (cfg : MatcherConfig) (buf : List UInt8) (bufLen : Nat)
    (st : ScanState) : Except Failure (ScanState ⊕ ScanState) :=
  if st.pos + cfg.blength ≤ bufLen then do
    let found ← findMatch X cfg buf st
    let st' ← scanNext cfg buf bufLen st found
    pure (.inl st')
  else .ok (.inr st)

/-- The match loop, at most `bufLen + 1` iterations. -/
def scan (X : Externals) (cfg : MatcherConfig) (buf : List UInt8) (bufLen : Nat)
    (st : ScanState) : Except Failure ScanState :=
  Loop.loop (.fault .diverged) (scanStep X cfg buf bufLen) (bufLen + 1) st

def matchBlocks (X : Externals) (source : List UInt8) (sums : SumStruct)
    (ctx : ProtocolContext) : Except Failure (List DiffOp) :=
  if source = [] then .ok []
  else if sums.head.count ≤ 0 ∨ sums.head.blength ≤ 0 then .ok [.literal source]
  else
    let cfg := MatcherConfig.ofSums sums ctx
    if source.length < cfg.blength then .ok [.literal source]
    else do
      let window ← sliceChecked source 0 cfg.blength
      let rolling := (RollingChecksum.new ctx.charOffset).compute window
      let st ← scan X cfg source source.length ⟨rolling, 0, 0, false, []⟩
      flushLiteral source st.literalStart source.length st.ops

/-! ## What the scan keeps -/

/-- A window of the source whose truncated strong checksum is the stored one of a block is
copied faithfully by the operation that refers to the block. -/
def MatchSound (X : Externals) (cfg : MatcherConfig) (basis source : List UInt8) : Prop :=
  ∀ window, window <:+: source → window.length = cfg.blength →
    ∀ idx, cfg.sum2Entries[idx]? = some (cfg.strongTruncated X window) →
      (cfg.copyOp idx).bytes basis = window

/-- Without signatures nothing matches. -/
theorem matchSound_of_none {X : Externals} {cfg : MatcherConfig} (hnone : cfg.sum2Entries = [])
    (basis source : List UInt8) : MatchSound X cfg basis source := by
  intro window _ _ idx hidx
  rw [hnone] at hidx
  cases hidx

/-- The operations a matcher may emit: literals, and copies of blocks it has signatures of. -/
def MatcherConfig.Emits (cfg : MatcherConfig) : DiffOp → Prop
  | .literal _ => True
  | .copy bref => ∃ idx, idx < cfg.sum2Entries.length ∧ .copy bref = cfg.copyOp idx

/-- `ops` is a matcher's description of `data` over the basis. -/
structure Describes (cfg : MatcherConfig) (basis : List UInt8) (ops : List DiffOp)
    (data : List UInt8) : Prop where
  apply_eq : applyDiffops basis ops = data
  emits : ∀ op ∈ ops, cfg.Emits op

/-- What an operation stands for, as far as the sender can know: the bytes of a literal, or a window
of the source with the strong checksum of the block that is copied. -/
def StandsFor (X : Externals) (cfg : MatcherConfig) : DiffOp → List UInt8 → Prop
  | .literal lit, bytes => bytes = lit
  | .copy bref, bytes => ∃ idx, .copy bref = cfg.copyOp idx ∧ bytes.length = cfg.blength ∧
      cfg.sum2Entries[idx]? = some (cfg.strongTruncated X bytes)

/-- The operations stand, one after the other, for all of `data`. -/
def Covers (X : Externals) (cfg : MatcherConfig) : List DiffOp → List UInt8 → Prop
  | [], data => data = []
  | op :: ops, data => ∃ first rest, data = first ++ rest ∧ StandsFor X cfg op first ∧
      Covers X cfg ops rest

section Covers

variable {X : Externals} {cfg : MatcherConfig} {basis data first : List UInt8} {op : DiffOp}

theorem covers_nil (X : Externals) (cfg : MatcherConfig) : Covers X cfg [] [] := rfl

theorem Covers.snoc : ∀ {ops : List DiffOp} {data : List UInt8}, Covers X cfg ops data →
    StandsFor X cfg op first → Covers X cfg (ops ++ [op]) (data ++ first)
  | [], _, h, hop => ⟨first, [], by rw [h, List.append_nil]; rfl, hop, rfl⟩
  | _ :: _, _, ⟨head, rest, hdata, hhead, h⟩, hop =>
    ⟨head, rest ++ first, by rw [hdata, List.append_assoc], hhead, h.snoc hop⟩

theorem Covers.snocLiteral {ops : List DiffOp} (h : Covers X cfg ops data) (lit : List UInt8) :
    Covers X cfg (ops ++ [.literal lit]) (data ++ lit) := h.snoc rfl

/-- Where every match is faithful, the operations give the data when they are applied to the
basis. -/
theorem Covers.describes {source : List UInt8} (hsound : MatchSound X cfg basis source) :
    ∀ {ops : List DiffOp} {data : List UInt8}, Covers X cfg ops data → data <:+: source →
      Describes cfg basis ops data
  | [], _, rfl, _ => ⟨rfl, by simp⟩
  | op :: ops, _, ⟨first, rest, rfl, hop, h⟩, hdata => by
    have hfirst : first <:+: source := (List.prefix_append first rest).isInfix.trans hdata
    have hrest := h.describes hsound ((List.suffix_append first rest).isInfix.trans hdata)
    obtain ⟨hbytes, hemits⟩ : op.bytes basis = first ∧ cfg.Emits op := by
      cases op with
      | literal lit => exact ⟨hop.symm, trivial⟩
      | copy bref =>
        obtain ⟨idx, heq, hlen, hidx⟩ := hop
        exact ⟨heq ▸ hsound first hfirst hlen idx hidx, idx, (List.getElem?_eq_some_iff.mp hidx).1,
          heq⟩
    refine ⟨?_, List.forall_mem_cons.mpr ⟨hemits, hrest.emits⟩⟩
    have hsplit := applyDiffops_append basis [op] ops
    rw [applyDiffops_singleton, hbytes, hrest.apply_eq] at hsplit
    exact hsplit

end Covers

/-- The invariant of the scan over `buf[..bufLen]`, which stands behind the bytes `pre` of the
source: the operations emitted so far, those of earlier calls (`prev`) included, stand for
everything before `literalStart`. -/
structure Scanned (X : Externals) (cfg : MatcherConfig) (prev : List DiffOp)
    (pre buf : List UInt8) (bufLen : Nat) (st : ScanState) : Prop where
  lit_le : st.literalStart ≤ st.pos
  pos_le : st.pos ≤ bufLen
  covers : Covers X cfg (prev ++ st.ops) (pre ++ buf.take st.literalStart)

/-- The literal for `buf[i..j]`, if there is any. -/
def pending (buf : List UInt8) (i j : Nat) : List DiffOp :=
  if i < j then [.literal (slice buf i j)] else []

theorem flushLiteral_eq {buf : List UInt8} {i j : Nat} (hj : j ≤ buf.length) (ops : List DiffOp) :
    flushLiteral buf i j ops = .ok (ops ++ pending buf i j) := by
  unfold flushLiteral pending
  split_ifs with h
  · rw [sliceChecked_eq h.le hj]
    rfl
  · rw [List.append_nil]

theorem Covers.pending {X : Externals} {cfg : MatcherConfig} {pre buf : List UInt8} {i : Nat}
    {ops : List DiffOp} (h : Covers X cfg ops (pre ++ buf.take i)) (j : Nat) :
    Covers X cfg (ops ++ pending buf i j) (pre ++ buf.take (max i j)) := by
  unfold Ferrosync.pending
  split_ifs with hlt
  · have hlit := h.snocLiteral (slice buf i j)
    rw [Nat.max_eq_right hlt.le]
    rwa [List.append_assoc, take_append_slice buf hlt.le] at hlit
  · rw [List.append_nil, Nat.max_eq_left (by omega)]
    exact h

theorem firstCandidate_spec {sum2Entries : List (List UInt8)} {strong : List UInt8} :
    ∀ {candidates : List Nat}, (∀ i ∈ candidates, i < sum2Entries.length) →
      ∃ found, firstCandidate sum2Entries strong candidates = .ok found ∧
        ∀ idx, found = some idx → sum2Entries[idx]? = some strong
  | [], _ => ⟨none, rfl, by simp⟩
  | idx :: candidates, h => by
    have hidx : idx < sum2Entries.length := h idx (by simp)
    rw [firstCandidate, indexChecked_eq hidx, Loop.ok_bind]
    by_cases heq : sum2Entries[idx] = strong
    · refine ⟨some idx, by rw [if_pos heq]; rfl, ?_⟩
      rintro _ ⟨⟩
      rw [List.getElem?_eq_getElem hidx, heq]
    · rw [if_neg heq]
      exact firstCandidate_spec fun i hi => h i (by simp [hi])

section Scan

variable {X : Externals} {cfg : MatcherConfig} {pre buf : List UInt8}
  {prev : List DiffOp} {bufLen : Nat} {st : ScanState}

theorem findMatch_spec (htable : cfg.hashTable.Below cfg.sum2Entries.length)
    (hpos : st.pos + cfg.blength ≤ buf.length) :
    ∃ found, findMatch X cfg buf st = .ok found ∧ ∀ idx, found = some idx →
      cfg.sum2Entries[idx]? =
        some (cfg.strongTruncated X (slice buf st.pos (st.pos + cfg.blength))) := by
  unfold findMatch
  cases hc : cfg.hashTable st.rolling.digest with
  | none => exact ⟨none, rfl, by simp⟩
  | some candidates =>
    simp only [sliceChecked_eq (Nat.le_add_right _ _) hpos]
    exact firstCandidate_spec fun i hi => htable _ _ hc i hi

/-- The positions of the scan. -/
structure Positions (n : Nat) (st : ScanState) : Prop where
  lit_le : st.literalStart ≤ st.pos
  pos_le : st.pos ≤ n

/-- What an iteration does after the lookup: a match flushes the literal before it and adds a
copy. -/
theorem scanNext_spec (hb : 0 < cfg.blength) (hbuf : bufLen ≤ buf.length)
    (hpos : st.pos + cfg.blength ≤ bufLen) (hst : Positions bufLen st) (found : Option Nat) :
    ∃ st', scanNext cfg buf bufLen st found = .ok st' ∧ Positions bufLen st' ∧ st.pos < st'.pos ∧
      (found = none → st'.literalStart = st.literalStart ∧ st'.ops = st.ops) ∧
      ∀ idx, found = some idx → st'.literalStart = st.pos + cfg.blength ∧
        st'.ops = st.ops ++ pending buf st.literalStart st.pos ++ [cfg.copyOp idx] := by
  have hlit := hst.lit_le
  -- without a match the window moves by a byte, with one behind the block
  cases found with
  | none =>
    show ∃ st', scanAdvance cfg buf bufLen st = .ok st' ∧ _
    simp only [scanAdvance, indexChecked_eq (show st.pos < buf.length by omega), Loop.ok_bind]
    by_cases hnext : st.pos + 1 + cfg.blength ≤ bufLen
    · rw [if_pos hnext, indexChecked_eq (by omega)]
      exact ⟨_, rfl, ⟨Nat.le_succ_of_le hlit, by dsimp only; omega⟩, Nat.lt_succ_self _,
        fun _ => ⟨rfl, rfl⟩, nofun⟩
    · rw [if_neg hnext]
      exact ⟨_, rfl, ⟨Nat.le_succ_of_le hlit, by dsimp only; omega⟩, Nat.lt_succ_self _,
        fun _ => ⟨rfl, rfl⟩, nofun⟩
  | some idx =>
    show ∃ st', scanMatched cfg buf bufLen st idx = .ok st' ∧ _
    simp only [scanMatched, flushLiteral_eq (show st.pos ≤ buf.length by omega), Loop.ok_bind]
    by_cases hnext : st.pos + cfg.blength + cfg.blength ≤ bufLen
    · rw [if_pos hnext, sliceChecked_eq (Nat.le_add_right _ _) (by omega)]
      refine ⟨_, rfl, ⟨le_rfl, hpos⟩, by dsimp only; omega, nofun, ?_⟩
      rintro _ ⟨⟩
      exact ⟨rfl, rfl⟩
    · rw [if_neg hnext]
      refine ⟨_, rfl, ⟨le_rfl, hpos⟩, by dsimp only; omega, nofun, ?_⟩
      rintro _ ⟨⟩
      exact ⟨rfl, rfl⟩

/-- **The rule of the scan.** It returns, stops only when less than a block is left, and keeps
what every match keeps. -/
theorem scan_rule {I : Nat → List DiffOp → Prop} (hb : 0 < cfg.blength)
    (htable : cfg.hashTable.Below cfg.sum2Entries.length) (hbuf : bufLen ≤ buf.length)
    (hmatch : ∀ i pos ops idx, i ≤ pos → pos + cfg.blength ≤ bufLen →
      cfg.sum2Entries[idx]? = some (cfg.strongTruncated X (slice buf pos (pos + cfg.blength))) →
      I i ops → I (pos + cfg.blength) (ops ++ pending buf i pos ++ [cfg.copyOp idx]))
    (hst : Positions bufLen st) (hI : I st.literalStart st.ops) :
    ∃ st', scan X cfg buf bufLen st = .ok st' ∧
      (Positions bufLen st' ∧ I st'.literalStart st'.ops) ∧ bufLen < st'.pos + cfg.blength := by
  -- the measure: what is left of the buffer behind the window
  refine Loop.loop_total (Failure.fault .diverged) _
    (fun st => Positions bufLen st ∧ I st.literalStart st.ops)
    (fun st' => (Positions bufLen st' ∧ I st'.literalStart st'.ops) ∧
      bufLen < st'.pos + cfg.blength)
    (fun st => bufLen - st.pos) ?_ (bufLen + 1) st ⟨hst, hI⟩ (by omega)
  rintro st ⟨hst, hI⟩
  unfold scanStep
  by_cases hpos : st.pos + cfg.blength ≤ bufLen
  · left
    obtain ⟨found, hfound, hidx⟩ :=
      findMatch_spec (X := X) htable (by omega : st.pos + cfg.blength ≤ buf.length)
    obtain ⟨st', hst', hpositions, hlt, hnone, hsome⟩ := scanNext_spec hb hbuf hpos hst found
    have hI' : I st'.literalStart st'.ops := by
      cases found with
      | none =>
        obtain ⟨hlit, hops⟩ := hnone rfl
        rw [hlit, hops]
        exact hI
      | some idx =>
        obtain ⟨hlit, hops⟩ := hsome idx rfl
        rw [hlit, hops]
        exact hmatch _ _ _ idx hst.lit_le hpos (hidx idx rfl) hI
    refine ⟨st', ?_, ⟨hpositions, hI'⟩, by omega⟩
    rw [if_pos hpos, hfound, Loop.ok_bind, hst']
    rfl
  · right
    exact ⟨st, by rw [if_neg hpos], ⟨hst, hI⟩, by omega⟩

/-- The operations of the scan stand for what it has passed. -/
theorem scan_spec (hb : 0 < cfg.blength)
    (htable : cfg.hashTable.Below cfg.sum2Entries.length)
    (hst : Scanned X cfg prev pre buf buf.length st) :
    ∃ st', scan X cfg buf buf.length st = .ok st' ∧ Scanned X cfg prev pre buf buf.length st' ∧
      buf.length < st'.pos + cfg.blength := by
  obtain ⟨st', hscan, ⟨hpositions, hops⟩, hend⟩ := scan_rule
    (I := fun i ops => Covers X cfg (prev ++ ops) (pre ++ buf.take i)) hb htable le_rfl (by
      intro i pos ops idx hi hpos hidx hops
      have hcopy : StandsFor X cfg (cfg.copyOp idx) (slice buf pos (pos + cfg.blength)) := by
        refine ⟨idx, rfl, ?_, hidx⟩
        rw [slice_length (by omega)]
        omega
      have h := (hops.pending pos).snoc hcopy
      rwa [Nat.max_eq_right hi, List.append_assoc, List.append_assoc, List.append_assoc,
        take_append_slice buf (Nat.le_add_right _ _), ← List.append_assoc ops] at h)
    ⟨hst.lit_le, hst.pos_le⟩ hst.covers
  exact ⟨st', hscan, ⟨hpositions.lit_le, hpositions.pos_le, hops⟩, hend⟩

end Scan

/-- **`match_blocks` covers the source.** It returns, and its operations stand for exactly the
source. -/
theorem matchBlocks_covers (X : Externals) (source : List UInt8) (sums : SumStruct)
    (ctx : ProtocolContext) (hblen : sums.head.blength < 2 ^ 64) :
    ∃ ops, matchBlocks X source sums ctx = .ok ops ∧
      Covers X (MatcherConfig.ofSums sums ctx) ops source := by
  set cfg := MatcherConfig.ofSums sums ctx with hcfg
  have hliteral : Covers X cfg [.literal source] source :=
    (covers_nil X cfg).snocLiteral source
  unfold matchBlocks
  -- the ways out before the scan: nothing to send, no signatures, less than a block
  by_cases hempty : source = []
  · exact ⟨[], by rw [if_pos hempty], hempty⟩
  rw [if_neg hempty]
  by_cases hnone : sums.head.count ≤ 0 ∨ sums.head.blength ≤ 0
  · exact ⟨_, by rw [if_pos hnone], hliteral⟩
  rw [if_neg hnone, ← hcfg]
  by_cases hshort : source.length < cfg.blength
  · exact ⟨_, by simp only [if_pos hshort], hliteral⟩
  have hb : 0 < cfg.blength := by
    have h : cfg.blength = sums.head.blength.toNat := asUsize_of_nonneg (by omega) hblen
    omega
  have htable : cfg.hashTable.Below cfg.sum2Entries.length := by
    simpa [hcfg, MatcherConfig.ofSums] using buildHashTable_below sums.sums
  have hstart : Scanned X cfg [] [] source source.length
      ⟨(RollingChecksum.new ctx.charOffset).compute (slice source 0 cfg.blength), 0, 0, false,
        []⟩ :=
    ⟨le_rfl, Nat.zero_le _, rfl⟩
  obtain ⟨st, hscan, hst, -⟩ := scan_spec hb htable hstart
  have hops := hst.covers.pending source.length
  rw [Nat.max_eq_right (hst.lit_le.trans hst.pos_le), List.take_length] at hops
  refine ⟨_, ?_, hops⟩
  simp only [if_neg hshort]
  rw [sliceChecked_eq (Nat.zero_le _) (by omega), Loop.ok_bind, hscan, Loop.ok_bind,
    flushLiteral_eq le_rfl, List.nil_append]

/-- With faithful matches, the operations applied to the basis give the source. -/
theorem matchBlocks_spec (X : Externals) (basis source : List UInt8) (sums : SumStruct)
    (ctx : ProtocolContext) (hblen : sums.head.blength < 2 ^ 64)
    (hsound : MatchSound X (MatcherConfig.ofSums sums ctx) basis source) :
    ∃ ops, matchBlocks X source sums ctx = .ok ops ∧
      Describes (MatcherConfig.ofSums sums ctx) basis ops source := by
  obtain ⟨ops, hrun, hcovers⟩ := matchBlocks_covers X source sums ctx hblen
  exact ⟨ops, hrun, hcovers.describes hsound List.infix_rfl⟩

end Ferrosync
