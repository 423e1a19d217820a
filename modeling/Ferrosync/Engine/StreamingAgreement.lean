import Ferrosync.Delta.BlockReuse
import Ferrosync.Engine.Sender

set_option autoImplicit false

/-! # The streaming matcher against the batch matcher

`StreamingMatcher` promises the operations of `match_blocks`, cut into more literals. Between two
buffers it moves its window one byte past the end without rolling the checksum, so that from there
on, until a block matches, windows are looked up under a checksum that has missed a step.

## How the two are compared

Both matchers are walks over the windows of the source: at each window they ask for a block, copy
the block or send a byte, and go on (`walk`). They differ in the checksum a window is looked up
under: `match_blocks` has the checksum of the window (`windowLookup`), the streaming matcher one
that misses the steps over the ends of chunks (`chunkLookup`). What is put out determines what was
found at each window, so the matchers agree exactly if each window `match_blocks` looks at is looked
up alike (`streaming_agrees_iff`).
-/

namespace Ferrosync

open ByteStream List

/-! ## Operations up to the cuts of literals -/

/-- Put a literal in front of merged operations. -/
def consLiteral (data : List UInt8) : List DiffOp → List DiffOp
  | .literal more :: ops => .literal (data ++ more) :: ops
  | ops => .literal data :: ops

/-- Join adjacent literals. -/
def mergeLiterals : List DiffOp → List DiffOp
  | [] => []
  | .literal data :: ops => consLiteral data (mergeLiterals ops)
  | .copy bref :: ops => .copy bref :: mergeLiterals ops

/-- What is put out for one byte or one block: a byte that is sent, or a block that is copied. -/
abbrev OpSymbol : Type := UInt8 ⊕ BasisRef

def DiffOp.asSymbols : DiffOp → List OpSymbol
  | .literal data => data.map .inl
  | .copy bref => [.inr bref]

def opSymbols (ops : List DiffOp) : List OpSymbol := ops.flatMap DiffOp.asSymbols

/-- The merged operations for some symbols. -/
def ofSymbols : List OpSymbol → List DiffOp
  | [] => []
  | .inl byte :: rest => consLiteral [byte] (ofSymbols rest)
  | .inr bref :: rest => .copy bref :: ofSymbols rest

/-- No operation is an empty literal. -/
def NoEmpty (ops : List DiffOp) : Prop := ∀ op ∈ ops, op ≠ .literal []

section Symbols

variable {ops ops' : List DiffOp}

@[simp] theorem opSymbols_append : opSymbols (ops ++ ops') = opSymbols ops ++ opSymbols ops' :=
  List.flatMap_append

theorem opSymbols_consLiteral (data : List UInt8) (ops : List DiffOp) :
    opSymbols (consLiteral data ops) = data.map .inl ++ opSymbols ops := by
  unfold consLiteral
  split <;> simp [opSymbols, DiffOp.asSymbols]

theorem opSymbols_ofSymbols (s : List OpSymbol) : opSymbols (ofSymbols s) = s := by
  induction s with
  | nil => rfl
  | cons x s ih =>
    cases x with
    | inl byte => rw [ofSymbols, opSymbols_consLiteral, ih]; rfl
    | inr bref => exact congrArg (_ :: ·) ih

theorem consLiteral_cons (byte : UInt8) (data : List UInt8) (ops : List DiffOp) :
    consLiteral (byte :: data) ops = consLiteral [byte] (consLiteral data ops) := by
  unfold consLiteral
  split <;> rfl

theorem ofSymbols_literal {data : List UInt8} (hne : data ≠ []) (s : List OpSymbol) :
    ofSymbols (data.map .inl ++ s) = consLiteral data (ofSymbols s) := by
  induction data with
  | nil => exact absurd rfl hne
  | cons byte data ih =>
    by_cases hdata : data = []
    · rw [hdata]
      rfl
    · rw [map_cons, cons_append, ofSymbols, ih hdata, ← consLiteral_cons]

theorem NoEmpty.append (h : NoEmpty ops) (h' : NoEmpty ops') : NoEmpty (ops ++ ops') :=
  List.forall_mem_append.mpr ⟨h, h'⟩

theorem mergeLiterals_eq (h : NoEmpty ops) : mergeLiterals ops = ofSymbols (opSymbols ops) := by
  induction ops with
  | nil => rfl
  | cons op ops ih =>
    obtain ⟨hop, hops⟩ := forall_mem_cons.mp h
    cases op with
    | copy bref => exact congrArg (_ :: ·) (ih hops)
    | literal data =>
      have hne : data ≠ [] := fun hnil => hop (congrArg _ hnil)
      rw [mergeLiterals, ih hops]
      exact (ofSymbols_literal hne _).symm

/-- Where literals are cut does not show in the symbols, and nothing else is lost in them. -/
theorem mergeLiterals_eq_iff (h : NoEmpty ops) (h' : NoEmpty ops') :
    mergeLiterals ops = mergeLiterals ops' ↔ opSymbols ops = opSymbols ops' := by
  rw [mergeLiterals_eq h, mergeLiterals_eq h']
  refine ⟨fun heq => ?_, fun heq => by rw [heq]⟩
  have hsymbols := congrArg opSymbols heq
  rwa [opSymbols_ofSymbols, opSymbols_ofSymbols] at hsymbols

theorem opSymbols_literal (data : List UInt8) : opSymbols [.literal data] = data.map .inl := by
  simp [opSymbols, DiffOp.asSymbols]

theorem opSymbols_pending (buf : List UInt8) (i j : Nat) :
    opSymbols (pending buf i j) = (slice buf i j).map .inl := by
  unfold pending
  split_ifs with h
  · exact opSymbols_literal _
  · rw [slice, Nat.sub_eq_zero_of_le (by omega)]
    rfl

theorem noEmpty_literal {data : List UInt8} (hne : data ≠ []) : NoEmpty [.literal data] := by
  intro op hop heq
  rw [mem_singleton.mp hop] at heq
  exact hne (DiffOp.literal.inj heq)

theorem noEmpty_pending {buf : List UInt8} {i j : Nat} (hj : j ≤ buf.length) :
    NoEmpty (pending buf i j) := by
  unfold pending
  split_ifs with h
  · refine noEmpty_literal (ne_nil_of_length_pos ?_)
    rw [slice_length hj]
    omega
  · exact fun op hop => absurd hop not_mem_nil

end Symbols

/-! ## Walks over the windows -/

/-- A walk over the source: the window it is at, the one where the checksum was last computed
afresh, and what was put out. -/
structure Walk where
  fresh : Nat
  pos : Nat
  out : List OpSymbol

/-- Look at a window, copy the block that is found or send a byte. -/
def Walk.next (cfg : MatcherConfig) (source : List UInt8) (f : Nat → Nat → Option Nat) (w : Walk) :
    Walk :=
  if w.pos + cfg.blength ≤ source.length then
    match f w.fresh w.pos with
    | some idx =>
      ⟨w.pos + cfg.blength, w.pos + cfg.blength, w.out ++ (cfg.copyOp idx).asSymbols⟩
    | none => ⟨w.fresh, w.pos + 1, w.out ++ [.inl (source.getD w.pos 0)]⟩
  else w

/-- The walk after `n` windows, where `f` says what is found at a window. -/
def walk (cfg : MatcherConfig) (source : List UInt8) (f : Nat → Nat → Option Nat) (n : Nat) : Walk :=
  (Walk.next cfg source f)^[n] ⟨0, 0, []⟩

/-- All that is put out: behind the last window the rest is sent. -/
def emitted (cfg : MatcherConfig) (source : List UInt8) (f : Nat → Nat → Option Nat) : List OpSymbol :=
  let w := walk cfg source f (source.length + 1)
  w.out ++ (source.drop w.pos).map .inl

section Walks

variable {cfg : MatcherConfig} {source : List UInt8} {f g : Nat → Nat → Option Nat} {n : Nat}
  {w : Walk}

theorem walk_succ (n : Nat) :
    walk cfg source f (n + 1) = (walk cfg source f n).next cfg source f :=
  Function.iterate_succ_apply' ..

/-- The symbol for what is found at a window. -/
def foundSymbol (cfg : MatcherConfig) (source : List UInt8) (pos : Nat) : Option Nat → OpSymbol
  | some idx => .inr ⟨idx * cfg.blength,
      blockByteLength idx cfg.blength cfg.blockCount cfg.remainder⟩
  | none => .inl (source.getD pos 0)

theorem foundSymbol_injective (hb : 0 < cfg.blength) (pos : Nat) :
    Function.Injective (foundSymbol cfg source pos) := by
  intro a b h
  cases a with
  | none =>
    cases b with
    | none => rfl
    | some j => cases h
  | some i =>
    cases b with
    | none => cases h
    | some j =>
      have hoffset := congrArg BasisRef.offset (Sum.inr.inj h)
      rw [Nat.eq_of_mul_eq_mul_right hb hoffset]

theorem next_out (h : w.pos + cfg.blength ≤ source.length) :
    (w.next cfg source f).out = w.out ++ [foundSymbol cfg source w.pos (f w.fresh w.pos)] := by
  unfold Walk.next
  rw [if_pos h]
  cases f w.fresh w.pos <;> rfl

theorem next_of_end (h : source.length < w.pos + cfg.blength) : w.next cfg source f = w :=
  if_neg (by omega)

theorem lt_next_pos (hb : 0 < cfg.blength) (h : w.pos + cfg.blength ≤ source.length) :
    w.pos < (w.next cfg source f).pos := by
  unfold Walk.next
  rw [if_pos h]
  cases f w.fresh w.pos with
  | none => exact Nat.lt_succ_self _
  | some idx =>
    dsimp only
    omega

theorem fresh_le_pos (n : Nat) : (walk cfg source f n).fresh ≤ (walk cfg source f n).pos := by
  induction n with
  | zero => exact le_rfl
  | succ n ih =>
    rw [walk_succ, Walk.next]
    split_ifs
    · cases f (walk cfg source f n).fresh (walk cfg source f n).pos with
      | none => exact Nat.le_succ_of_le ih
      | some idx => exact le_rfl
    · exact ih

theorem walk_out_mono (n k : Nat) :
    (walk cfg source f n).out <+: (walk cfg source f (n + k)).out := by
  induction k with
  | zero => exact prefix_rfl
  | succ k ih =>
    refine ih.trans ?_
    rw [← Nat.add_assoc, walk_succ]
    by_cases h : (walk cfg source f (n + k)).pos + cfg.blength ≤ source.length
    · rw [next_out h]
      exact prefix_append _ _
    · rw [next_of_end (by omega)]

/-- Each window is one further at least. -/
theorem le_pos_of_window (hb : 0 < cfg.blength)
    (h : (walk cfg source f n).pos + cfg.blength ≤ source.length) :
    n ≤ (walk cfg source f n).pos := by
  induction n with
  | zero => exact Nat.zero_le _
  | succ n ih =>
    rw [walk_succ] at h ⊢
    by_cases hn : (walk cfg source f n).pos + cfg.blength ≤ source.length
    · have := ih hn
      have := lt_next_pos (f := f) hb hn
      omega
    · rw [next_of_end (by omega)] at h
      exact absurd h hn

theorem walk_add_of_end (h : source.length < (walk cfg source f n).pos + cfg.blength) (k : Nat) :
    walk cfg source f (n + k) = walk cfg source f n := by
  induction k with
  | zero => rfl
  | succ k ih => rw [← Nat.add_assoc, walk_succ, ih, next_of_end h]

/-- A walk that is at its end has put out everything but the rest. -/
theorem emitted_eq (hb : 0 < cfg.blength)
    (h : source.length < (walk cfg source f n).pos + cfg.blength) :
    emitted cfg source f =
      (walk cfg source f n).out ++ (source.drop (walk cfg source f n).pos).map .inl := by
  have hend : source.length < (walk cfg source f (source.length + 1)).pos + cfg.blength := by
    by_contra hmore
    have := le_pos_of_window hb (Nat.not_lt.mp hmore)
    omega
  have hsame : walk cfg source f (source.length + 1) = walk cfg source f n := by
    rcases Nat.le_total n (source.length + 1) with hle | hle
    · obtain ⟨k, hk⟩ := Nat.exists_eq_add_of_le hle
      rw [hk, walk_add_of_end h]
    · obtain ⟨k, hk⟩ := Nat.exists_eq_add_of_le hle
      rw [hk, walk_add_of_end hend]
  rw [emitted, hsame]

/-- What is found at a window is put out. -/
theorem found_prefix_emitted (hb : 0 < cfg.blength)
    (h : (walk cfg source f n).pos + cfg.blength ≤ source.length) :
    (walk cfg source f n).out ++ [foundSymbol cfg source (walk cfg source f n).pos
      (f (walk cfg source f n).fresh (walk cfg source f n).pos)] <+: emitted cfg source f := by
  have hn := le_pos_of_window hb h
  obtain ⟨k, hk⟩ : ∃ k, source.length + 1 = n + 1 + k := ⟨source.length - n, by omega⟩
  rw [← next_out h, ← walk_succ]
  refine (walk_out_mono (n + 1) k).trans ?_
  rw [← hk]
  exact prefix_append _ _

/-- **Two walks put out the same** exactly if they find the same at each window of the first. -/
theorem emitted_eq_iff (hb : 0 < cfg.blength) :
    emitted cfg source f = emitted cfg source g ↔
      ∀ n, (walk cfg source f n).pos + cfg.blength ≤ source.length →
        f (walk cfg source f n).fresh (walk cfg source f n).pos =
          g (walk cfg source f n).fresh (walk cfg source f n).pos := by
  -- as long as they find the same, they are at the same window
  have hstep : ∀ n, walk cfg source f n = walk cfg source g n →
      ((walk cfg source f n).pos + cfg.blength ≤ source.length →
        f (walk cfg source f n).fresh (walk cfg source f n).pos =
          g (walk cfg source f n).fresh (walk cfg source f n).pos) →
      walk cfg source f (n + 1) = walk cfg source g (n + 1) := by
    intro n hsame hfound
    rw [walk_succ, walk_succ, ← hsame]
    unfold Walk.next
    split_ifs with hpos
    · rw [hfound hpos]
    · rfl
  constructor
  · intro hout n
    have hboth : ∀ n, walk cfg source f n = walk cfg source g n →
        (walk cfg source f n).pos + cfg.blength ≤ source.length →
        f (walk cfg source f n).fresh (walk cfg source f n).pos =
          g (walk cfg source f n).fresh (walk cfg source f n).pos := by
      intro n hsame hpos
      have hf := found_prefix_emitted hb hpos
      have hg := found_prefix_emitted (f := g) hb (hsame ▸ hpos)
      rw [← hsame, ← hout] at hg
      have hlist := (prefix_of_prefix_length_le hf hg (by simp)).eq_of_length (by simp)
      exact foundSymbol_injective hb _ (singleton_inj.mp (append_cancel_left hlist))
    have hwalk : ∀ n, walk cfg source f n = walk cfg source g n := by
      intro n
      induction n with
      | zero => rfl
      | succ n ih => exact hstep n ih (hboth n ih)
    exact hboth n (hwalk n)
  · intro hfound
    have hwalk : ∀ n, walk cfg source f n = walk cfg source g n := by
      intro n
      induction n with
      | zero => rfl
      | succ n ih => exact hstep n ih (hfound n)
    rw [emitted, emitted, hwalk]

end Walks

/-! ## Lookups -/

/-- The block whose signature fits: its checksum is the given one, and its strong checksum that of
the window. -/
def lookup (X : Externals) (cfg : MatcherConfig) (digest : UInt32) (window : List UInt8) :
    Option Nat :=
  ((cfg.hashTable digest).getD []).find? fun idx =>
    cfg.sum2Entries[idx]? = some (cfg.strongTruncated X window)

/-- The checksum a scan in chunks has `k` windows behind the window `q`, where it was computed. The
step over the end of a chunk moves the window and leaves the checksum as it is. -/
def rolledInChunks (charOffset : UInt32) (b chunk : Nat) (source : List UInt8) (q : Nat) :
    Nat → RollingChecksum
  | 0 => (RollingChecksum.new charOffset).compute (slice source q (q + b))
  | k + 1 =>
    let r := rolledInChunks charOffset b chunk source q k
    if chunk ∣ q + k + b then r else r.roll (source.getD (q + k) 0) (source.getD (q + k + b) 0)

/-- What the streaming matcher finds at a window. -/
def chunkLookup (X : Externals) (cfg : MatcherConfig) (source : List UInt8) (chunk : Nat)
    (fresh pos : Nat) : Option Nat :=
  lookup X cfg
    (rolledInChunks cfg.ctx.charOffset cfg.blength chunk source fresh (pos - fresh)).digest
    (slice source pos (pos + cfg.blength))

/-- What `match_blocks` finds at a window. -/
def windowLookup (X : Externals) (cfg : MatcherConfig) (source : List UInt8) (_fresh pos : Nat) :
    Option Nat :=
  lookup X cfg (checksum1 (slice source pos (pos + cfg.blength)) cfg.ctx.charOffset)
    (slice source pos (pos + cfg.blength))

/-- Each window `match_blocks` comes to is looked up alike under its own checksum and under the one
that misses the steps over the ends of chunks since the last match. -/
def LookupsAgree (X : Externals) (cfg : MatcherConfig) (chunk : Nat) (source : List UInt8) : Prop :=
  ∀ n ≤ source.length, let w := walk cfg source (windowLookup X cfg source) n
    w.pos + cfg.blength ≤ source.length →
      windowLookup X cfg source w.fresh w.pos = chunkLookup X cfg source chunk w.fresh w.pos

instance (X : Externals) (cfg : MatcherConfig) (chunk : Nat) (source : List UInt8) :
    Decidable (LookupsAgree X cfg chunk source) :=
  inferInstanceAs (Decidable (∀ n ≤ source.length, _ → _))

section Lookup

variable {X : Externals} {cfg : MatcherConfig} {buf source : List UInt8} {st : ScanState}
  {chunk b q k : Nat} {off : UInt32}

theorem firstCandidate_eq {sum2Entries : List (List UInt8)} {strong : List UInt8}
    {candidates : List Nat} (h : ∀ i ∈ candidates, i < sum2Entries.length) :
    firstCandidate sum2Entries strong candidates =
      .ok (candidates.find? fun idx => sum2Entries[idx]? = some strong) := by
  induction candidates with
  | nil => rfl
  | cons idx candidates ih =>
    obtain ⟨hidx, hrest⟩ := forall_mem_cons.mp h
    rw [firstCandidate, indexChecked_eq hidx, Loop.ok_bind, ih hrest]
    by_cases heq : sum2Entries[idx] = strong <;> simp [hidx, heq]
    rfl

theorem findMatch_eq (htable : cfg.hashTable.Below cfg.sum2Entries.length)
    (hpos : st.pos + cfg.blength ≤ buf.length) :
    findMatch X cfg buf st =
      .ok (lookup X cfg st.rolling.digest (slice buf st.pos (st.pos + cfg.blength))) := by
  unfold findMatch lookup
  cases hc : cfg.hashTable st.rolling.digest with
  | none => rfl
  | some candidates =>
    simp only [sliceChecked_eq (Nat.le_add_right _ _) hpos]
    exact firstCandidate_eq fun i hi => htable _ _ hc i hi

theorem getD_eq {i : Nat} (hi : i < source.length) : source.getD i 0 = source[i] := by
  simp [getD, hi]

/-- One window further. -/
theorem compute_roll (r : RollingChecksum) (hb : 0 < b) {p : Nat} (hp : p + b < source.length) :
    (r.compute (slice source p (p + b))).roll (source.getD p 0) (source.getD (p + b) 0) =
      r.compute (slice source (p + 1) (p + 1 + b)) := by
  have h := @RollingChecksum.rolled_eq r source b (p + 1) hb (by omega)
  rw [RollingChecksum.rolled, RollingChecksum.rolled_eq r hb (by omega)] at h
  simpa only [slice, Nat.add_sub_cancel_left] using h

/-- Where no end of a chunk was passed, the checksum is that of the window. -/
theorem rolledInChunks_eq (hb : 0 < b) (hlen : q + k + b ≤ source.length)
    (hends : ∀ i < k, ¬ chunk ∣ q + i + b) :
    rolledInChunks off b chunk source q k =
      (RollingChecksum.new off).compute (slice source (q + k) (q + k + b)) := by
  induction k with
  | zero => rfl
  | succ k ih =>
    rw [rolledInChunks, ih (by omega) fun i hi => hends i (Nat.lt_succ_of_lt hi),
      if_neg (hends k (Nat.lt_succ_self k)), compute_roll _ hb (by omega)]
    rfl

theorem lookupsAgree_iff (hb : 0 < cfg.blength) :
    LookupsAgree X cfg chunk source ↔
      emitted cfg source (windowLookup X cfg source) =
        emitted cfg source (chunkLookup X cfg source chunk) := by
  rw [emitted_eq_iff hb]
  constructor
  · intro h n hpos
    have hn := le_pos_of_window hb hpos
    exact h n (by omega) hpos
  · exact fun h n _ hpos => h n hpos

/-- In one buffer all steps are made. -/
theorem lookupsAgree_of_le (hb : 0 < cfg.blength) (hsource : source.length ≤ chunk) :
    LookupsAgree X cfg chunk source := by
  intro n _ w hpos
  have hfresh : w.fresh ≤ w.pos := fresh_le_pos n
  unfold windowLookup chunkLookup
  rw [rolledInChunks_eq hb (by omega), Nat.add_sub_cancel' hfresh]
  · rfl
  · intro i hi hdvd
    have := Nat.le_of_dvd (by omega) hdvd
    omega

end Lookup

/-! ## Scanning a buffer -/

theorem slice_slice {source : List UInt8} {base stop i j : Nat} (h : base + j ≤ stop) :
    slice (slice source base stop) i j = slice source (base + i) (base + j) := by
  unfold slice
  rw [drop_take, take_take, drop_drop]
  congr 1
  omega

theorem drop_slice {source : List UInt8} {i j : Nat} (k : Nat) :
    (slice source i j).drop k = slice source (i + k) j := by
  rw [slice, slice, drop_take, drop_drop, Nat.sub_sub]

/-- A chunk read behind `i`, which is cut off at the end of the source. -/
theorem take_drop_eq_slice (source : List UInt8) (i chunk : Nat) :
    (source.drop i).take chunk = slice source i (min (i + chunk) source.length) := by
  rw [slice, take_eq_take_iff, length_drop]
  omega

theorem slice_eq_nil {source : List UInt8} {i j : Nat} (h : j ≤ i) : slice source i j = [] := by
  rw [slice, Nat.sub_eq_zero_of_le h]
  rfl

/-- What is put out up to `k`, and what is left behind it. -/
theorem slice_append_slice_max {source : List UInt8} {i j k : Nat} (hk : k ≤ j) :
    slice source i k ++ slice source (max i k) j = slice source i j := by
  rcases le_total i k with h | h
  · rw [max_eq_right h, slice_append_slice source h hk]
  · rw [max_eq_left h, slice_eq_nil h, nil_append]

theorem slice_succ {source : List UInt8} {i j : Nat} (hij : i ≤ j) (hj : j < source.length) :
    slice source i (j + 1) = slice source i j ++ [source.getD j 0] := by
  have hone : slice source j (j + 1) = [source.getD j 0] := by
    rw [slice, Nat.add_sub_cancel_left, drop_eq_getElem_cons hj, take_succ_cons, getD_eq hj]
    rfl
  rw [← slice_append_slice source hij (Nat.le_succ j), hone]

theorem compute_eq {r : RollingChecksum} {off : UInt32} (h : r.charOffset = off) (data : List UInt8) :
    r.compute data = (RollingChecksum.new off).compute data := by
  subst h
  rfl

/-- A buffer that holds the source from `base` to `stop`; its windows up to `low` have been looked at
before. It ends at the end of a chunk, or with the source. -/
structure BufferSpan (source : List UInt8) (chunk base low stop : Nat) : Prop where
  base_le : base ≤ stop
  stop_le : stop ≤ source.length
  stop_chunk : stop < source.length → chunk ∣ stop
  low_chunk : chunk ∣ low
  stop_low : stop ≤ low + chunk

/-- The scan of a buffer is where a walk over the source is. The operations `prev` are those of the
buffers before. -/
structure Tracks (cfg : MatcherConfig) (source : List UInt8) (chunk base low stop : Nat)
    (prev : List DiffOp) (w : Walk) (st : ScanState) : Prop where
  pos : w.pos = base + st.pos
  pos_le : w.pos ≤ stop
  fresh_le : w.fresh ≤ w.pos
  lit_le : st.literalStart ≤ st.pos
  low : low < w.pos + cfg.blength
  out : w.out = opSymbols (prev ++ st.ops) ++ (slice source (base + st.literalStart) w.pos).map .inl
  noEmpty : NoEmpty (prev ++ st.ops)
  offset : st.rolling.charOffset = cfg.ctx.charOffset
  init : st.needRollingInit = true → w.fresh = w.pos ∧ stop < w.pos + cfg.blength
  -- behind the last window of the source the checksum does not matter
  rolling : st.needRollingInit = false → w.pos + cfg.blength ≤ stop ∨ stop < source.length →
    st.rolling =
      rolledInChunks cfg.ctx.charOffset cfg.blength chunk source w.fresh (w.pos - w.fresh)

/-- Before the end of a buffer there is no end of a chunk. -/
theorem BufferSpan.not_end {source : List UInt8} {chunk base low stop i : Nat}
    (h : BufferSpan source chunk base low stop) (hlow : low < i) (hstop : i < stop) : ¬ chunk ∣ i := by
  obtain ⟨a, ha⟩ := h.low_chunk
  rintro ⟨c, rfl⟩
  have hle := h.stop_low
  have hac : a < c := by
    rw [ha] at hlow
    exact Nat.lt_of_mul_lt_mul_left hlow
  have hmul : chunk * (a + 1) ≤ chunk * c := Nat.mul_le_mul_left chunk hac
  rw [Nat.mul_succ, ← ha] at hmul
  omega

section Scan

variable {X : Externals} {cfg : MatcherConfig} {source : List UInt8} {chunk base low stop : Nat}
  {prev : List DiffOp} {w : Walk} {st : ScanState}

theorem indexChecked_slice {i : Nat} (hi : base + i < stop) (hstop : stop ≤ source.length) :
    indexChecked (slice source base stop) i = .ok (source.getD (base + i) 0) := by
  have hlen : (slice source base stop).length = stop - base := slice_length hstop
  rw [indexChecked_eq (by omega), getD_eq (by omega)]
  simp [slice]

theorem scanAdvance_slice (hpos : base + st.pos + cfg.blength ≤ stop) (hb : 0 < cfg.blength)
    (hstop : stop ≤ source.length) :
    scanAdvance cfg (slice source base stop) (stop - base) st = .ok { st with
      pos := st.pos + 1
      rolling := if base + st.pos + 1 + cfg.blength ≤ stop then
        st.rolling.roll (source.getD (base + st.pos) 0)
          (source.getD (base + st.pos + cfg.blength) 0) else st.rolling } := by
  unfold scanAdvance
  rw [indexChecked_slice (by omega) hstop, Loop.ok_bind]
  by_cases hnext : base + st.pos + 1 + cfg.blength ≤ stop
  · have hindex : base + (st.pos + 1 + cfg.blength - 1) = base + st.pos + cfg.blength := by omega
    rw [if_pos (by omega), if_pos hnext, indexChecked_slice (by omega) hstop, hindex]
    rfl
  · rw [if_neg (by omega), if_neg hnext]
    rfl

theorem scanMatched_slice (hpos : base + st.pos + cfg.blength ≤ stop)
    (hstop : stop ≤ source.length) (idx : Nat) :
    scanMatched cfg (slice source base stop) (stop - base) st idx = .ok
      { rolling := if base + st.pos + cfg.blength + cfg.blength ≤ stop then
          st.rolling.compute (slice source (base + st.pos + cfg.blength)
            (base + st.pos + cfg.blength + cfg.blength)) else st.rolling
        pos := st.pos + cfg.blength
        literalStart := st.pos + cfg.blength
        needRollingInit := if base + st.pos + cfg.blength + cfg.blength ≤ stop then
          st.needRollingInit else true
        ops := st.ops ++ pending (slice source base stop) st.literalStart st.pos ++
          [cfg.copyOp idx] } := by
  have hlen : (slice source base stop).length = stop - base := slice_length hstop
  unfold scanMatched
  rw [flushLiteral_eq (by omega), Loop.ok_bind]
  -- behind the block there is another window, or the rolling sum has to be set up anew later
  by_cases hnext : base + st.pos + cfg.blength + cfg.blength ≤ stop
  · have hwindow : slice (slice source base stop) (st.pos + cfg.blength)
        (st.pos + cfg.blength + cfg.blength) = slice source (base + st.pos + cfg.blength)
          (base + st.pos + cfg.blength + cfg.blength) := by
      rw [slice_slice (by omega)]
      simp only [Nat.add_assoc]
    dsimp only
    rw [if_pos (by omega), if_pos hnext, if_pos hnext,
      sliceChecked_eq (Nat.le_add_right _ _) (by omega), hwindow]
    rfl
  · dsimp only
    rw [if_neg (by omega), if_neg hnext, if_neg hnext]
    rfl

/-- At a window of the buffer the checksum is set up. -/
theorem Tracks.needRollingInit_eq (h : Tracks cfg source chunk base low stop prev w st)
    (hpos : w.pos + cfg.blength ≤ stop) : st.needRollingInit = false := by
  by_contra hinit
  rw [Bool.not_eq_false] at hinit
  have := (h.init hinit).2
  omega

theorem Tracks.findMatch (htable : cfg.hashTable.Below cfg.sum2Entries.length)
    (hseg : BufferSpan source chunk base low stop) (h : Tracks cfg source chunk base low stop prev w st)
    (hpos : w.pos + cfg.blength ≤ stop) :
    Ferrosync.findMatch X cfg (slice source base stop) st =
      .ok (chunkLookup X cfg source chunk w.fresh w.pos) := by
  have hlen : (slice source base stop).length = stop - base := slice_length hseg.stop_le
  have hbase := h.pos
  rw [findMatch_eq htable (by omega), slice_slice (by omega),
    h.rolling (h.needRollingInit_eq hpos) (.inl hpos), ← Nat.add_assoc, ← hbase]
  rfl

/-- No block is found at a window: the scan goes on with the next byte. -/
theorem Tracks.advance (hb : 0 < cfg.blength) (hseg : BufferSpan source chunk base low stop)
    (h : Tracks cfg source chunk base low stop prev w st) (hpos : w.pos + cfg.blength ≤ stop) :
    ∃ st', scanAdvance cfg (slice source base stop) (stop - base) st = .ok st' ∧
      Tracks cfg source chunk base low stop prev
        ⟨w.fresh, w.pos + 1, w.out ++ [.inl (source.getD w.pos 0)]⟩ st' ∧ st.pos < st'.pos := by
  have hstop := hseg.stop_le
  have hbase := h.pos
  have hneed := h.needRollingInit_eq hpos
  refine ⟨_, scanAdvance_slice (by omega) hb hstop, ?_, Nat.lt_succ_self _⟩
  constructor
  case pos => dsimp only; omega
  case pos_le => dsimp only; omega
  case fresh_le => exact Nat.le_succ_of_le h.fresh_le
  case lit_le => exact Nat.le_succ_of_le h.lit_le
  case low =>
    have := h.low
    dsimp only
    omega
  case out =>
    have hlit := h.lit_le
    dsimp only
    rw [h.out, slice_succ (by omega) (by omega), map_append, append_assoc]
    rfl
  case noEmpty => exact h.noEmpty
  case offset =>
    dsimp only
    split_ifs <;> exact h.offset
  case init =>
    intro hinit
    rw [hneed] at hinit
    cases hinit
  case rolling =>
    intro _ hmore
    have hsucc : w.pos + 1 - w.fresh = w.pos - w.fresh + 1 := Nat.succ_sub h.fresh_le
    have hwindow : w.fresh + (w.pos - w.fresh) = w.pos := Nat.add_sub_cancel' h.fresh_le
    dsimp only at hmore ⊢
    rw [hsucc, rolledInChunks, ← h.rolling hneed (.inl hpos), hwindow, ← hbase]
    by_cases hnext : w.pos + 1 + cfg.blength ≤ stop
    · rw [if_pos hnext, if_neg (hseg.not_end h.low (by omega))]
    · -- the end of the buffer is the end of a chunk, as more follows
      have hend : w.pos + cfg.blength = stop := by omega
      rw [if_neg hnext, if_pos (hend ▸ hseg.stop_chunk (hmore.resolve_left hnext))]

/-- A block is found at a window: what is in front of it is put out, and the scan goes on behind. -/
theorem Tracks.copy (hb : 0 < cfg.blength) (hseg : BufferSpan source chunk base low stop)
    (h : Tracks cfg source chunk base low stop prev w st) (hpos : w.pos + cfg.blength ≤ stop)
    (idx : Nat) :
    ∃ st', scanMatched cfg (slice source base stop) (stop - base) st idx = .ok st' ∧
      Tracks cfg source chunk base low stop prev
        ⟨w.pos + cfg.blength, w.pos + cfg.blength, w.out ++ (cfg.copyOp idx).asSymbols⟩ st' ∧
      st.pos < st'.pos := by
  have hstop := hseg.stop_le
  have hlen : (slice source base stop).length = stop - base := slice_length hstop
  have hbase := h.pos
  have hneed := h.needRollingInit_eq hpos
  refine ⟨_, scanMatched_slice (by omega) hstop idx, ?_, Nat.lt_add_of_pos_right hb⟩
  constructor
  case pos => dsimp only; omega
  case pos_le => exact hpos
  case fresh_le => exact le_rfl
  case lit_le => exact le_rfl
  case low =>
    have := h.low
    dsimp only
    omega
  case out =>
    have hdone : slice source (base + (st.pos + cfg.blength)) (w.pos + cfg.blength) = [] :=
      slice_eq_nil (by omega)
    rw [h.out, hdone]
    simp only [opSymbols_append, opSymbols_pending, slice_slice (show base + st.pos ≤ stop by omega),
      ← hbase, append_assoc, map_nil, append_nil]
    rfl
  case noEmpty =>
    rw [← append_assoc, ← append_assoc]
    refine (h.noEmpty.append (noEmpty_pending (by omega))).append ?_
    intro op hop heq
    rw [mem_singleton.mp hop] at heq
    cases heq
  case offset =>
    dsimp only
    split_ifs <;> exact h.offset
  case init =>
    dsimp only
    split_ifs with hnext
    · intro hinit
      rw [hneed] at hinit
      cases hinit
    · exact fun _ => ⟨rfl, by omega⟩
  case rolling =>
    dsimp only
    split_ifs with hnext
    · intro _ _
      rw [Nat.sub_self, rolledInChunks, compute_eq h.offset, ← hbase]
    · intro hinit
      cases hinit

/-- **One window.** The scan finds what the walk finds, and is where the walk is. -/
theorem Tracks.step (hb : 0 < cfg.blength) (htable : cfg.hashTable.Below cfg.sum2Entries.length)
    (hseg : BufferSpan source chunk base low stop) (h : Tracks cfg source chunk base low stop prev w st)
    (hpos : w.pos + cfg.blength ≤ stop) :
    ∃ st', scanStep X cfg (slice source base stop) (stop - base) st = .ok (.inl st') ∧
      Tracks cfg source chunk base low stop prev
        (w.next cfg source (chunkLookup X cfg source chunk)) st' ∧ st.pos < st'.pos := by
  have hstop := hseg.stop_le
  have hbase := h.pos
  unfold scanStep Walk.next
  rw [if_pos (by omega), h.findMatch htable hseg hpos, Loop.ok_bind, if_pos (by omega)]
  cases chunkLookup X cfg source chunk w.fresh w.pos with
  | none =>
    obtain ⟨st', hnext, htracks, hlt⟩ := h.advance hb hseg hpos
    exact ⟨st', by rw [scanNext, hnext]; rfl, htracks, hlt⟩
  | some idx =>
    obtain ⟨st', hnext, htracks, hlt⟩ := h.copy hb hseg hpos idx
    exact ⟨st', by rw [scanNext, hnext]; rfl, htracks, hlt⟩

/-- **A whole buffer.** The scan returns behind its last window, where the walk comes to. -/
theorem Tracks.scan (hb : 0 < cfg.blength) (htable : cfg.hashTable.Below cfg.sum2Entries.length)
    (hseg : BufferSpan source chunk base low stop) {n : Nat}
    (h : Tracks cfg source chunk base low stop prev
      (walk cfg source (chunkLookup X cfg source chunk) n) st) :
    ∃ st' n', Ferrosync.scan X cfg (slice source base stop) (stop - base) st = .ok st' ∧
      Tracks cfg source chunk base low stop prev
        (walk cfg source (chunkLookup X cfg source chunk) n') st' ∧
      stop < (walk cfg source (chunkLookup X cfg source chunk) n').pos + cfg.blength := by
  obtain ⟨st', hscan, n', hst', hend⟩ := Loop.loop_total (Failure.fault .diverged)
    (scanStep X cfg (slice source base stop) (stop - base))
    (fun st => ∃ n, Tracks cfg source chunk base low stop prev
      (walk cfg source (chunkLookup X cfg source chunk) n) st)
    (fun st => ∃ n, Tracks cfg source chunk base low stop prev
        (walk cfg source (chunkLookup X cfg source chunk) n) st ∧
      stop < (walk cfg source (chunkLookup X cfg source chunk) n).pos + cfg.blength)
    -- the measure: what is left of the buffer
    (fun st => stop - base - st.pos) (by
      rintro st ⟨n, hst⟩
      have hpos := hst.pos
      by_cases hwindow : (walk cfg source (chunkLookup X cfg source chunk) n).pos + cfg.blength ≤ stop
      · obtain ⟨st', hstep, hst', hlt⟩ := hst.step (X := X) hb htable hseg hwindow
        rw [← walk_succ] at hst'
        exact .inl ⟨st', hstep, ⟨n + 1, hst'⟩, by omega⟩
      · refine .inr ⟨st, ?_, n, hst, by omega⟩
        rw [scanStep, if_neg (by omega)])
    (stop - base + 1) st ⟨n, h⟩ (by omega)
  exact ⟨st', n', hscan, hst', hend⟩

/-- Behind the last window of the source, the rest is flushed. -/
theorem Tracks.flushed (hb : 0 < cfg.blength) {f : Nat → Nat → Option Nat} {n : Nat}
    (hbase : base ≤ source.length)
    (h : Tracks cfg source chunk base low source.length prev (walk cfg source f n) st)
    (hend : source.length < (walk cfg source f n).pos + cfg.blength) :
    opSymbols (prev ++ (st.ops ++ pending (slice source base source.length) st.literalStart
        (source.length - base))) = emitted cfg source f ∧
      NoEmpty (prev ++ (st.ops ++ pending (slice source base source.length) st.literalStart
        (source.length - base))) := by
  have hlit := h.lit_le
  have hpos := h.pos
  have hle := h.pos_le
  have hstop : base + (source.length - base) = source.length := Nat.add_sub_cancel' hbase
  have hdrop : slice source (walk cfg source f n).pos source.length =
      source.drop (walk cfg source f n).pos := by
    rw [slice, ← length_drop, take_length]
  rw [← append_assoc]
  refine ⟨?_, h.noEmpty.append (noEmpty_pending (slice_length le_rfl).ge)⟩
  rw [emitted_eq hb hend, h.out, opSymbols_append, opSymbols_pending, slice_slice hstop.le, hstop,
    append_assoc, ← map_append, ← hdrop, slice_append_slice source (by omega) hle]

end Scan

/-! ## The two matchers -/

section Matchers

variable {X : Externals} {sums : SumStruct} {ctx : ProtocolContext} {chunk b : Nat}
  {source : List UInt8} {willing : Nat → Nat}

theorem blength_ofSums (hblen : sums.head.blength = b) (hb31 : b < 2 ^ 31) :
    (MatcherConfig.ofSums sums ctx).blength = b := by
  show asUsize sums.head.blength = b
  rw [hblen]
  exact asUsize_ofNat (by omega)

theorem ofSums_below :
    (MatcherConfig.ofSums sums ctx).hashTable.Below
      (MatcherConfig.ofSums sums ctx).sum2Entries.length := by
  simpa [MatcherConfig.ofSums] using buildHashTable_below sums.sums

variable (chunk source) in
/-- The walk at its start. -/
theorem tracks_start {cfg : MatcherConfig} (hb : 0 < cfg.blength) (stop : Nat)
    (f : Nat → Nat → Option Nat) :
    Tracks cfg source chunk 0 0 stop [] (walk cfg source f 0)
      ⟨(RollingChecksum.new cfg.ctx.charOffset).compute (slice source 0 cfg.blength), 0, 0, false,
        []⟩ where
  pos := rfl
  pos_le := Nat.zero_le _
  fresh_le := le_rfl
  lit_le := le_rfl
  low := by
    show 0 < 0 + cfg.blength
    omega
  out := rfl
  noEmpty := fun op hop => absurd hop not_mem_nil
  offset := rfl
  init := fun h => by cases h
  rolling := fun _ _ => by
    show _ = RollingChecksum.compute _ (slice source 0 (0 + cfg.blength))
    rw [Nat.zero_add]

/-- Less than a block is sent as it is. -/
theorem emitted_short {cfg : MatcherConfig} (hb : 0 < cfg.blength)
    (hshort : source.length < cfg.blength) (f : Nat → Nat → Option Nat) :
    emitted cfg source f = source.map .inl := by
  have hend : source.length < (walk cfg source f 0).pos + cfg.blength := by
    show source.length < 0 + cfg.blength
    omega
  rw [emitted_eq hb hend]
  rfl

variable (X ctx source) in
/-- **`match_blocks`** walks over the source and looks each window up under its checksum. -/
theorem matchBlocks_emitted (hcount : 0 < sums.head.count) (hblen : sums.head.blength = b)
    (hb : 0 < b) (hb31 : b < 2 ^ 31) :
    ∃ ops, matchBlocks X source sums ctx = .ok ops ∧ NoEmpty ops ∧
      opSymbols ops = emitted (MatcherConfig.ofSums sums ctx) source
        (windowLookup X (MatcherConfig.ofSums sums ctx) source) := by
  have hcfg : (MatcherConfig.ofSums sums ctx).blength = b := blength_ofSums hblen hb31
  unfold matchBlocks
  -- nothing, less than a block, or a scan of the whole source as one buffer
  by_cases hnil : source = []
  · refine ⟨[], if_pos hnil, fun op hop => absurd hop not_mem_nil, ?_⟩
    rw [emitted_short (by omega) (by rw [hnil, length_nil]; omega), hnil]
    rfl
  rw [if_neg hnil, if_neg (by omega)]
  dsimp only
  by_cases hshort : source.length < (MatcherConfig.ofSums sums ctx).blength
  · refine ⟨[.literal source], if_pos hshort, noEmpty_literal hnil, ?_⟩
    rw [emitted_short (by omega) hshort, opSymbols_literal]
  · have hwhole : slice source 0 source.length = source := by simp [slice]
    have hseg : BufferSpan source source.length 0 0 source.length :=
      ⟨Nat.zero_le _, le_rfl, fun h => absurd h (lt_irrefl _), dvd_zero _, (Nat.zero_add _).ge⟩
    obtain ⟨st, n, hscan, hst, hend⟩ :=
      (tracks_start source.length source (by omega) source.length
        (chunkLookup X (MatcherConfig.ofSums sums ctx) source source.length)).scan (X := X)
        (by omega) ofSums_below hseg
    obtain ⟨hsymbols, hempty⟩ := hst.flushed (by omega) (Nat.zero_le _) hend
    rw [hwhole, Nat.sub_zero] at hscan hsymbols hempty
    refine ⟨st.ops ++ pending source st.literalStart source.length, ?_, hempty, ?_⟩
    · rw [if_neg hshort, sliceChecked_eq (Nat.zero_le _) (by omega), Loop.ok_bind]
      exact (congrArg (· >>= _) hscan).trans (flushLiteral_eq le_rfl _)
    · rw [(lookupsAgree_iff (by omega)).mp (lookupsAgree_of_le (by omega) le_rfl)]
      exact hsymbols

/-- Between two calls the buffer holds the source from `base` to `stop`, and the walk is behind the
last window of the buffer. -/
structure StreamedTo (X : Externals) (cfg : MatcherConfig) (source : List UInt8) (chunk : Nat)
    (m : StreamingMatcher) (io : StreamIO) (prev : List DiffOp) (base low stop n : Nat) : Prop where
  loaded : Loaded cfg chunk (slice source base stop) m
  noSums : m.noSums = false
  exhausted : m.exhausted = false
  rest : io.reader.remaining = source.drop stop
  segment : BufferSpan source chunk base low stop
  stop_chunk : chunk ∣ stop
  block_le : base + cfg.blength ≤ stop
  tracks : Tracks cfg source chunk base low stop prev
    (walk cfg source (chunkLookup X cfg source chunk) n)
    ⟨m.rolling, m.pos, m.literalStart, m.needRollingInit, []⟩
  window_end : stop < (walk cfg source (chunkLookup X cfg source chunk) n).pos + cfg.blength

/-- What the streaming matcher has put out in the end. -/
def StreamedAll (X : Externals) (cfg : MatcherConfig) (source : List UInt8) (chunk : Nat)
    (ops : List DiffOp) : Prop :=
  opSymbols ops = emitted cfg source (chunkLookup X cfg source chunk) ∧ NoEmpty ops

theorem charOffset_initRolling {m : StreamingMatcher} {rolling : RollingChecksum}
    (h : initRolling m = .ok rolling) : rolling.charOffset = m.rolling.charOffset := by
  unfold initRolling at h
  split_ifs at h
  · obtain ⟨window, -, hwindow⟩ := Loop.except_bind_eq_ok h
    obtain rfl := Except.ok.inj hwindow
    rfl
  · rw [Except.ok.inj h]

section Streamed

variable {cfg : MatcherConfig} {m : StreamingMatcher} {io : StreamIO} {prev ops : List DiffOp}
  {base low stop n left : Nat} {rolling : RollingChecksum}

variable (left) in
/-- A filled buffer of at least a block. -/
theorem Tracks.processBuffer (hb : 0 < cfg.blength)
    (htable : cfg.hashTable.Below cfg.sum2Entries.length)
    (hloaded : Loaded cfg chunk (slice source base stop) m) (hsums : m.noSums = false)
    (hseg : BufferSpan source chunk base low stop) (hblock : base + cfg.blength ≤ stop)
    (hrest : io.reader.remaining = source.drop stop)
    (hdone : m.exhausted = true → stop = source.length)
    (hmore : m.exhausted = false → chunk ∣ stop ∧ (source.drop stop).length < left)
    (hinit : initRolling m = .ok rolling)
    (h : Tracks cfg source chunk base low stop prev
      (walk cfg source (chunkLookup X cfg source chunk) n)
      ⟨rolling, m.pos, m.literalStart, false, ops⟩) :
    ∃ res m', Ferrosync.processBuffer X m ops = .ok (res, m') ∧
      Progress (fun m io prev => ∃ base low stop n, StreamedTo X cfg source chunk m io prev base low
          stop n)
        (fun ops _ => StreamedAll X cfg source chunk ops) prev left (res, m', io) := by
  have hlen : (slice source base stop).length = stop - base := slice_length hseg.stop_le
  obtain ⟨st, n', hscan, hst, hend⟩ := h.scan hb htable hseg
  rw [← hlen] at hscan
  have hprocess := hloaded.matchBuffer_eq hb hinit hscan
  rw [← hloaded.processBuffer_eq hsums hb (by omega)] at hprocess
  refine ⟨_, _, hprocess, ?_⟩
  -- the last buffer is flushed to its end; otherwise the window at its end is kept for the next
  cases hex : m.exhausted with
  | true =>
    obtain rfl := hdone hex
    rw [hlen]
    exact .inl ⟨rfl, hst.flushed hb hseg.base_le hend⟩
  | false =>
    obtain ⟨hchunk, hleft⟩ := hmore hex
    refine .inr ⟨rfl, ⟨base, low, stop, n', ?_⟩, hrest ▸ hleft⟩
    have hkept : Tracks cfg source chunk base low stop (prev ++ st.ops)
        (walk cfg source (chunkLookup X cfg source chunk) n') { st with ops := [] } :=
      { hst with
        out := by rw [append_nil]; exact hst.out
        noEmpty := by rw [append_nil]; exact hst.noEmpty }
    exact ⟨⟨hloaded.cfg_eq, hloaded.chunk_eq, hloaded.initialized, hloaded.buf_length,
      hloaded.bufLen, hloaded.held⟩, hsums, hex, hrest, hseg, hchunk, hblock, hkept, hend⟩

/-- **From one buffer to the next.** The last block moves to the front, and what is before it has
been put out. -/
theorem StreamedTo.shift {m₁ : StreamingMatcher} {stop' : Nat}
    (h : StreamedTo X cfg source chunk m io prev base low stop n)
    (hb : 0 < cfg.blength) (hstop : stop ≤ stop') (hstop' : stop' ≤ source.length)
    (hfull : stop' < source.length → stop + cfg.blength ≤ stop')
    (hloaded : Loaded cfg chunk (slice source (stop - cfg.blength) stop') m₁)
    (hpos₁ : m₁.pos = m.pos - (stop - base - cfg.blength))
    (hlit₁ : m₁.literalStart = m.literalStart - (stop - base - cfg.blength))
    (hrolling₁ : m₁.rolling = m.rolling) (hneed₁ : m₁.needRollingInit = m.needRollingInit)
    (hinit : initRolling m₁ = .ok rolling) :
    Tracks cfg source chunk (stop - cfg.blength) stop stop' prev
      (walk cfg source (chunkLookup X cfg source chunk) n)
      ⟨rolling, m₁.pos, m₁.literalStart, false,
        pending (slice source base stop) m.literalStart (stop - base - cfg.blength)⟩ := by
  have hblock := h.block_le
  have hend := h.window_end
  have htracks := h.tracks
  have hpos : (walk cfg source (chunkLookup X cfg source chunk) n).pos = base + m.pos := htracks.pos
  have hle := htracks.pos_le
  have hlit : m.literalStart ≤ m.pos := htracks.lit_le
  have hheld : (slice source base stop).length = stop - base := slice_length (hstop.trans hstop')
  have hlen₁ : (slice source (stop - cfg.blength) stop').length = stop' - (stop - cfg.blength) :=
    slice_length hstop'
  constructor
  case pos => dsimp only; omega
  case pos_le => exact hle.trans hstop
  case fresh_le => exact htracks.fresh_le
  case lit_le => dsimp only; omega
  case low => exact hend
  case out =>
    have hout := htracks.out
    rw [append_nil] at hout
    dsimp only at hout ⊢
    rw [hout, opSymbols_append, opSymbols_pending, slice_slice (by omega), append_assoc,
      ← map_append]
    have hstart : stop - cfg.blength + m₁.literalStart =
        max (base + m.literalStart) (base + (stop - base - cfg.blength)) := by omega
    rw [hstart, slice_append_slice_max (by omega)]
  case noEmpty =>
    have hempty := htracks.noEmpty
    rw [append_nil] at hempty
    exact hempty.append (noEmpty_pending (by omega))
  case offset =>
    have hoffset : m.rolling.charOffset = cfg.ctx.charOffset := htracks.offset
    rw [← hoffset, ← hrolling₁]
    exact charOffset_initRolling hinit
  case init => exact fun hinit => by cases hinit
  case rolling =>
    intro _ hmore
    have hinside : (walk cfg source (chunkLookup X cfg source chunk) n).pos + cfg.blength ≤ stop' := by
      rcases hmore with hmore | hmore
      · exact hmore
      · have := hfull hmore
        omega
    unfold initRolling at hinit
    cases hneed : m.needRollingInit with
    | true =>
      -- the checksum is computed afresh, at the window the walk is at
      obtain ⟨hfresh, -⟩ := htracks.init hneed
      rw [hneed₁, hneed, if_pos rfl, hloaded.cfg_eq,
        hloaded.slice_eq (Nat.le_add_right _ _) (by omega), slice_slice (by omega)] at hinit
      have hoffset : m₁.rolling.charOffset = cfg.ctx.charOffset := by
        rw [hrolling₁]
        exact htracks.offset
      have hwin : stop - cfg.blength + m₁.pos =
          (walk cfg source (chunkLookup X cfg source chunk) n).pos := by omega
      rw [hfresh, Nat.sub_self, rolledInChunks, ← compute_eq hoffset, ← hwin, Nat.add_assoc]
      exact (Except.ok.inj hinit).symm
    | false =>
      rw [hneed₁, hneed, if_neg Bool.false_ne_true, hrolling₁] at hinit
      obtain rfl := Except.ok.inj hinit
      exact htracks.rolling hneed (.inr (by omega))

/-- A later call. -/
theorem StreamedTo.processChunk (hb : 0 < cfg.blength)
    (htable : cfg.hashTable.Below cfg.sum2Entries.length) (hchunk : cfg.blength ≤ chunk)
    (h : StreamedTo X cfg source chunk m io prev base low stop n) :
    ∃ r, Ferrosync.processChunk X m io = .ok r ∧
      Progress (fun m io prev => ∃ base low stop n, StreamedTo X cfg source chunk m io prev base low
          stop n)
        (fun ops _ => StreamedAll X cfg source chunk ops) prev io.reader.remaining.length r := by
  have hstop := h.segment.stop_le
  have hblock := h.block_le
  have hend := h.window_end
  have hpos : (walk cfg source (chunkLookup X cfg source chunk) n).pos = base + m.pos :=
    h.tracks.pos
  have hle := h.tracks.pos_le
  have hheld : (slice source base stop).length = stop - base := slice_length hstop
  have hrest : io.reader.remaining.length = source.length - stop := by
    rw [h.rest, length_drop]
  obtain ⟨m₁, io', hfill, hloaded, hexhausted, hsums, hpos₁, hlit₁, hrolling₁, hneed₁, hrest₁, -⟩ :=
    fillBuffer_next io h.loaded h.noSums h.exhausted hb (by omega) h.tracks.lit_le (by omega)
  -- the last block of the old buffer and the next chunk are one piece of the source
  have hnext : (slice source base stop).drop ((slice source base stop).length - cfg.blength) ++
      io.reader.remaining.take chunk =
        slice source (stop - cfg.blength) (min (stop + chunk) source.length) := by
    have hfront : base + ((slice source base stop).length - cfg.blength) = stop - cfg.blength := by
      omega
    rw [drop_slice, hfront, h.rest, take_drop_eq_slice,
      slice_append_slice source (by omega) (by omega)]
  have hrest' : io'.reader.remaining = source.drop (min (stop + chunk) source.length) := by
    rw [hrest₁, h.rest, drop_drop, drop_eq_drop_iff]
    omega
  rw [hnext] at hloaded
  rw [hheld] at hfill hpos₁ hlit₁
  obtain ⟨rolling, hinit⟩ := hloaded.initRolling_ok (by omega)
  have htracks := h.shift hb (Nat.le_min.mpr ⟨by omega, hstop⟩) (Nat.min_le_right _ _)
    (by omega) hloaded hpos₁ hlit₁ hrolling₁ hneed₁ hinit
  have hdvd : chunk ∣ stop + chunk := Nat.dvd_add_self_right.mpr h.stop_chunk
  have hnot : ¬ source.length - stop < chunk → min (stop + chunk) source.length = stop + chunk := by
    omega
  have hseg : BufferSpan source chunk (stop - cfg.blength) stop (min (stop + chunk) source.length) :=
    ⟨by omega, by omega, by
      intro hmore
      rw [hnot (by omega)]
      exact hdvd, h.stop_chunk, by omega⟩
  obtain ⟨res, m', hprocess, hprogress⟩ := Tracks.processBuffer io.reader.remaining.length hb htable hloaded
    hsums hseg (by omega) hrest'
    (by
      intro hex
      have hshort : io.reader.remaining.length < chunk := of_decide_eq_true (hexhausted ▸ hex)
      omega)
    (by
      intro hex
      have hlong : ¬ io.reader.remaining.length < chunk := of_decide_eq_false (hexhausted ▸ hex)
      rw [hnot (by omega), length_drop]
      exact ⟨hdvd, by omega⟩) hinit htracks
  exact ⟨_, processChunk_eq hfill hprocess, hprogress⟩

/-- The first call. -/
theorem streamed_first (hb : 0 < cfg.blength)
    (htable : cfg.hashTable.Below cfg.sum2Entries.length) (hchunk : cfg.blength ≤ chunk)
    (h : Fresh cfg source chunk false m io) (hneed : m.needRollingInit = true)
    (hrolling : m.rolling = .new cfg.ctx.charOffset) :
    ∃ r, Ferrosync.processChunk X m io = .ok r ∧
      Progress (fun m io prev => ∃ base low stop n, StreamedTo X cfg source chunk m io prev base low
          stop n)
        (fun ops _ => StreamedAll X cfg source chunk ops) [] source.length r := by
  obtain ⟨m₁, io', hfill, hloaded, hexhausted, hsums, hpos₁, hlit₁, hrolling₁, hneed₁, hrest₁, -⟩ :=
    fillBuffer_first h
  by_cases hblock : cfg.blength ≤ source.length
  · have hheld : source.take chunk = slice source 0 (min chunk source.length) := by
      have htake := take_drop_eq_slice source 0 chunk
      rwa [drop_zero, Nat.zero_add] at htake
    have hrest : io'.reader.remaining = source.drop (min chunk source.length) := by
      rw [hrest₁, drop_eq_drop_iff]
      omega
    rw [hheld] at hloaded
    have hlen : (slice source 0 (min chunk source.length)).length = min chunk source.length - 0 :=
      slice_length (by omega)
    have hinit : initRolling m₁ =
        .ok ((RollingChecksum.new cfg.ctx.charOffset).compute (slice source 0 cfg.blength)) := by
      rw [initRolling, if_pos (hneed₁.trans hneed), hpos₁, hloaded.cfg_eq, Nat.zero_add,
        hloaded.slice_eq (Nat.zero_le _) (by omega), slice_slice (by omega), Nat.zero_add,
        Nat.zero_add, hrolling₁, hrolling]
      rfl
    have hseg : BufferSpan source chunk 0 0 (min chunk source.length) := by
      refine ⟨Nat.zero_le _, by omega, ?_, dvd_zero _, by omega⟩
      intro hmore
      rw [Nat.min_eq_left (by omega)]
    obtain ⟨res, m', hprocess, hprogress⟩ := Tracks.processBuffer source.length hb htable hloaded
      hsums hseg (by omega) hrest
      (by
        intro hex
        have hshort : source.length < chunk := of_decide_eq_true (hexhausted ▸ hex)
        omega)
      (by
        intro hex
        have hlong : ¬ source.length < chunk := of_decide_eq_false (hexhausted ▸ hex)
        rw [Nat.min_eq_left (by omega), length_drop]
        exact ⟨dvd_rfl, by omega⟩) hinit
      (by
        rw [hpos₁, hlit₁]
        exact tracks_start chunk source hb _ (chunkLookup X cfg source chunk))
    exact ⟨_, processChunk_eq hfill hprocess, hprogress⟩
  · -- less than a block is sent as it is
    rw [take_of_length_le (by omega)] at hloaded
    have hemitted := emitted_short hb (Nat.not_le.mp hblock) (chunkLookup X cfg source chunk)
    by_cases hnil : source = []
    · refine ⟨_, processChunk_eq hfill (processBuffer_empty (by rw [hloaded.bufLen, hnil]; rfl)),
        .inl ⟨rfl, ?_, fun op hop => absurd hop not_mem_nil⟩⟩
      rw [hemitted, hnil]
      rfl
    · have hprocess := processBuffer_whole (X := X) [] hloaded.bufLen hloaded.held hnil
        (.inr (by rw [hloaded.bufLen, hloaded.cfg_eq]; omega))
      rw [hsums] at hprocess
      exact ⟨_, processChunk_eq hfill hprocess, .inl ⟨rfl, by
        rw [hemitted]; exact opSymbols_literal source, noEmpty_literal hnil⟩⟩

end Streamed

variable (X ctx source willing) in
/-- **`StreamingMatcher`** walks over the source and looks each window up under a checksum that
misses the steps over the ends of chunks. -/
theorem streamSource_emitted (hcount : 0 < sums.head.count) (hblen : sums.head.blength = b)
    (hb : 0 < b) (hb31 : b < 2 ^ 31) (hchunk : b ≤ chunk) :
    ∃ ops checksum, streamSource X sums ctx chunk source willing = .ok (ops, checksum) ∧
      StreamedAll X (MatcherConfig.ofSums sums ctx) source chunk ops := by
  have hcfg : (MatcherConfig.ofSums sums ctx).blength = b := blength_ofSums hblen hb31
  refine streams_of_progress (I := fun m io prev => ∃ base low stop n,
      StreamedTo X (MatcherConfig.ofSums sums ctx) source chunk m io prev base low stop n)
    (Q := fun ops _ => StreamedAll X (MatcherConfig.ofSums sums ctx) source chunk ops) ?_ ?_
  · rintro m io ops ⟨base, low, stop, n, hstreamed⟩
    exact hstreamed.processChunk (by omega) ofSums_below (by omega)
  · exact streamed_first (by omega) ofSums_below (by omega) (streamStart_fresh hcount (by omega))
      rfl rfl

/-- Both matchers return, and their operations are the same but for where literals are cut. -/
def SameOps (X : Externals) (sums : SumStruct) (ctx : ProtocolContext) (chunk : Nat)
    (source : List UInt8) (willing : Nat → Nat) : Prop :=
  ∃ streamed checksum batch,
    streamSource X sums ctx chunk source willing = .ok (streamed, checksum) ∧
    matchBlocks X source sums ctx = .ok batch ∧ mergeLiterals streamed = mergeLiterals batch

theorem sameOps_of_sums (hcount : 0 < sums.head.count) (hblen : sums.head.blength = b)
    (hb : 0 < b) (hb31 : b < 2 ^ 31) (hchunk : b ≤ chunk) :
    SameOps X sums ctx chunk source willing ↔
      LookupsAgree X (MatcherConfig.ofSums sums ctx) chunk source := by
  have hcfg : (MatcherConfig.ofSums sums ctx).blength = b := blength_ofSums hblen hb31
  obtain ⟨batch, hbatch, hempty, hsymbols⟩ :=
    matchBlocks_emitted X ctx source hcount hblen hb hb31
  obtain ⟨streamed, checksum, hrun, hsymbols', hempty'⟩ :=
    streamSource_emitted X ctx source willing hcount hblen hb hb31 hchunk
  have hmerge : SameOps X sums ctx chunk source willing ↔
      mergeLiterals streamed = mergeLiterals batch := by
    constructor
    · rintro ⟨streamed', checksum', batch', hrun', hbatch', hsame⟩
      cases hrun'.symm.trans hrun
      cases hbatch'.symm.trans hbatch
      exact hsame
    · exact fun hsame => ⟨streamed, checksum, batch, hrun, hbatch, hsame⟩
  rw [hmerge, mergeLiterals_eq_iff hempty' hempty, hsymbols, hsymbols', eq_comm,
    lookupsAgree_iff (by omega)]

/-- Without signatures both send the source. -/
theorem sameOps_of_no_sums (hnone : sums.head.count ≤ 0) (hchunk : 0 < chunk) :
    SameOps X sums ctx chunk source willing := by
  obtain ⟨streamed, checksum, hrun, ⟨hempty, hsymbols⟩, -⟩ :
      ∃ ops checksum, streamSource X sums ctx chunk source willing = .ok (ops, checksum) ∧
        (NoEmpty ops ∧ opSymbols ops = source.map .inl) ∧ checksum.fed = source := by
    refine streams_of_no_sums (D := fun ops fed => NoEmpty ops ∧ opSymbols ops = fed.map .inl)
      (.inl hnone) hchunk ⟨fun op hop => absurd hop not_mem_nil, rfl⟩ ?_
    rintro ops fed data ⟨hempty, hsymbols⟩ hne
    refine ⟨hempty.append (noEmpty_literal hne), ?_⟩
    rw [opSymbols_append, hsymbols, opSymbols_literal, map_append]
  unfold SameOps matchBlocks
  by_cases hnil : source = []
  · rw [if_pos hnil]
    refine ⟨streamed, checksum, [], hrun, rfl, ?_⟩
    rw [mergeLiterals_eq_iff hempty fun op hop => absurd hop not_mem_nil, hsymbols, hnil]
    rfl
  · rw [if_neg hnil, if_pos (.inl hnone)]
    refine ⟨streamed, checksum, _, hrun, rfl, ?_⟩
    rw [mergeLiterals_eq_iff hempty (noEmpty_literal hnil), hsymbols, opSymbols_literal]

/-- **When the streaming matcher equals the batch matcher.** With signatures, exactly if at each
window the batch matcher comes to, the lookup under the checksum that has missed the ends of chunks
finds what the lookup under the checksum of the window finds. -/
theorem streaming_agrees_iff (hblen : sums.head.blength = b) (hb : 0 < b) (hb31 : b < 2 ^ 31)
    (hchunk : b ≤ chunk) :
    SameOps X sums ctx chunk source willing ↔
      (0 < sums.head.count → LookupsAgree X (MatcherConfig.ofSums sums ctx) chunk source) := by
  by_cases hcount : 0 < sums.head.count
  · rw [sameOps_of_sums hcount hblen hb hb31 hchunk]
    exact ⟨fun h _ => h, fun h => h hcount⟩
  · exact ⟨fun _ h => absurd h hcount, fun _ => sameOps_of_no_sums (by omega) (by omega)⟩

end Matchers

/-- A source of ten bytes in chunks of four, with two blocks of the basis behind the ends of two
chunks. The step over the first end is between equal windows, that over the second between blocks
that match. -/
theorem streaming_agrees_across_chunks :
    ∃ sums, computeSignatures padExternals [1, 2, 3, 4] (padContext 2) = .ok sums ∧
      SameOps padExternals sums (padContext 2) 4 [9, 9, 9, 9, 9, 9, 1, 2, 3, 4] (fun _ => 3) := by
  have hsums : computeSignatures padExternals [1, 2, 3, 4] (padContext 2) = .ok
      ⟨⟨2, 2, 11, 2⟩, [⟨checksum1 [1, 2] 0, padTo 11 [0, 0, 0, 0, 1, 2], none⟩,
        ⟨checksum1 [3, 4] 0, padTo 11 [0, 0, 0, 0, 3, 4], none⟩]⟩ :=
    (computeSignatures_eq padExternals (by decide) (by decide) (by decide)
      (rfl : signatureBlockLength [1, 2, 3, 4] (padContext 2) = (2 : Nat))
      (by decide +kernel : computeS2Length padExternals ([1, 2, 3, 4] : List UInt8).length (2 : Nat) =
        .ok ((11 : Nat) : Int)) (by decide) (by decide)).trans (by decide)
  exact ⟨_, hsums, (streaming_agrees_iff rfl Nat.two_pos (by decide) (by decide)).mpr
    fun _ => by decide +kernel⟩

/-! ## A block behind the end of a chunk -/

section Boundary

/-- A chunk of zeros and a one. -/
def boundarySource (chunk : Nat) : List UInt8 := List.replicate chunk 0 ++ [1]

variable {X : Externals} {cfg : MatcherConfig} {chunk n : Nat}

theorem length_boundarySource (chunk : Nat) : (boundarySource chunk).length = chunk + 1 := by
  simp [boundarySource]

theorem slice_boundarySource (h : n < chunk) : slice (boundarySource chunk) n (n + 1) = [0] := by
  rw [slice, Nat.add_sub_cancel_left, boundarySource,
    drop_append_of_le_length (by simp; omega), drop_replicate]
  obtain ⟨k, hk⟩ : ∃ k, chunk - n = k + 1 := ⟨chunk - n - 1, by omega⟩
  rw [hk]
  rfl

theorem lookup_none {digest : UInt32} {window : List UInt8} (h : cfg.hashTable digest = none) :
    lookup X cfg digest window = none := by
  rw [lookup, h]
  rfl

/-- The walk passes the zeros. -/
theorem walk_boundary (hb : cfg.blength = 1)
    (hmiss : cfg.hashTable (checksum1 [0] cfg.ctx.charOffset) = none) (hn : n ≤ chunk) :
    (walk cfg (boundarySource chunk) (windowLookup X cfg (boundarySource chunk)) n).fresh = 0 ∧
      (walk cfg (boundarySource chunk) (windowLookup X cfg (boundarySource chunk)) n).pos = n := by
  induction n with
  | zero => exact ⟨rfl, rfl⟩
  | succ n ih =>
    obtain ⟨hfresh, hpos⟩ := ih (by omega)
    have hnone : windowLookup X cfg (boundarySource chunk) 0 n = none := by
      rw [windowLookup, hb, slice_boundarySource hn, lookup_none hmiss]
    rw [walk_succ, Walk.next, hfresh, hpos, hb, length_boundarySource, if_pos (by omega), hnone]
    exact ⟨rfl, rfl⟩

/-- **The stale checksum.** At the one behind the zeros the streaming matcher has the checksum of
the last zero. -/
theorem chunkLookup_boundary (hb : cfg.blength = 1) (hchunk : 0 < chunk)
    (hmiss : cfg.hashTable (checksum1 [0] cfg.ctx.charOffset) = none) :
    chunkLookup X cfg (boundarySource chunk) chunk 0 chunk = none := by
  obtain ⟨k, rfl⟩ : ∃ k, chunk = k + 1 := ⟨chunk - 1, by omega⟩
  refine lookup_none ?_
  have hlast : rolledInChunks cfg.ctx.charOffset 1 (k + 1) (boundarySource (k + 1)) 0 (k + 1) =
      (RollingChecksum.new cfg.ctx.charOffset).compute [0] := by
    rw [rolledInChunks, if_pos (by rw [Nat.zero_add]),
      rolledInChunks_eq Nat.one_pos (by rw [length_boundarySource]; omega), Nat.zero_add,
      slice_boundarySource (Nat.lt_succ_self k)]
    intro i hi
    exact Nat.not_dvd_of_pos_of_lt (by omega) (by omega)
  rw [Nat.sub_zero, hb, hlast]
  exact hmiss

end Boundary

/-- The signatures of a basis of the single byte 1, and a source that has it behind a chunk of
zeros. -/
theorem streaming_misses_block :
    ∃ sums, computeSignatures collidingExternals [1] (blockContext 1) = .ok sums ∧
      sums.head.blength = 1 ∧
      ¬ SameOps collidingExternals sums (blockContext 1) defaultStreamChunk
        (boundarySource defaultStreamChunk) id := by
  have hsums : computeSignatures collidingExternals [1] (blockContext 1) =
      .ok ⟨⟨1, 1, 10, 1⟩, [⟨checksum1 [1] 0, replicate 10 0, none⟩]⟩ :=
    (computeSignatures_eq collidingExternals (by decide) (by decide) (by decide)
      (rfl : signatureBlockLength [1] (blockContext 1) = (1 : Nat))
      (by decide +kernel : computeS2Length collidingExternals ([1] : List UInt8).length (1 : Nat) =
        .ok ((10 : Nat) : Int)) (by decide) (by decide)).trans (by decide)
  refine ⟨_, hsums, rfl, ?_⟩
  rw [sameOps_of_sums Int.zero_lt_one rfl Nat.one_pos (by decide) (by decide)]
  intro hagree
  have hmiss : (MatcherConfig.ofSums ⟨⟨1, 1, 10, 1⟩, [⟨checksum1 [1] 0, replicate 10 0, none⟩]⟩
      (blockContext 1)).hashTable (checksum1 [0] 0) = none := by decide +kernel
  obtain ⟨hfresh, hpos⟩ := walk_boundary (X := collidingExternals) (n := defaultStreamChunk) rfl
    hmiss le_rfl
  have hlast := hagree defaultStreamChunk (by rw [length_boundarySource]; omega)
  dsimp only at hlast
  rw [hfresh, hpos, chunkLookup_boundary rfl (by decide) hmiss, length_boundarySource] at hlast
  have hone : slice (boundarySource defaultStreamChunk) defaultStreamChunk
      (defaultStreamChunk + 1) = [1] := by
    rw [slice, Nat.add_sub_cancel_left, boundarySource, drop_left' length_replicate]
    rfl
  have hfound := hlast le_rfl
  rw [windowLookup, show MatcherConfig.blength _ = 1 from rfl, hone] at hfound
  revert hfound
  decide +kernel

end Ferrosync
