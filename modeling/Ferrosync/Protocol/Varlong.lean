import Ferrosync.Protocol.Varint

set_option autoImplicit false

/-! # Compact integers: their laws, and 64 bits

The first byte of a compact integer tells by its leading ones how many bytes follow, and holds
the top bits of the number. `reads_varint` and `reads_varlong` say for which numbers the reader
gives back what the writer wrote; for a `varlong` the bound is exact (`readVarlong_error`).
-/

namespace Ferrosync

open ByteStream

/-! ### Prefix bytes -/

/-- The first byte of a compact integer: `extra` leading ones, a zero, and the bits `top`. -/
def prefixByte (extra top : Nat) : UInt8 := UInt8.ofNat (256 - 2 ^ (8 - extra) + top)

theorem intByteExtra_prefixByte : ∀ extra < 7, 0 < extra → ∀ top < 2 ^ (7 - extra),
    intByteExtra.getD ((prefixByte extra top).toNat / 4) 0 = extra ∧
      (prefixByte extra top).toNat % 2 ^ (8 - extra) = top := by
  decide +kernel

theorem intByteExtra_small : ∀ n < 128, intByteExtra.getD (n / 4) 0 = 0 := by
  decide +kernel

/-- A number is its low bytes and what is above them. -/
theorem ofLE_leBytes_add (k n : Nat) : ofLE (leBytes k n) + n / 256 ^ k * 256 ^ k = n := by
  rw [ofLE_leBytes]
  exact Nat.mod_add_div' n (256 ^ k)

/-- The bytes behind a prefix hold the low part of the number. -/
theorem reads_varint_prefixed {extra : Nat} (top : Nat) {bs : List UInt8} (hlen : bs.length = extra)
    (hpos : 0 < extra) (hle : extra ≤ 4) (htop : top < 2 ^ (7 - extra))
    (hfour : extra = 4 → top = 0) :
    Reads readVarint (prefixByte extra top :: bs) (ofLE bs + top * 256 ^ extra) := by
  obtain ⟨hextra, hmod⟩ := intByteExtra_prefixByte extra (by omega) hpos top htop
  refine (reads_byte (prefixByte extra top)).bind ?_
  rw [hextra, if_neg (by omega), if_neg (by omega)]
  refine ((Reads.exact_of_length hlen).map).congr rfl ?_
  split_ifs with hlt
  · rw [hmod]
  · rw [hfour (by omega)]

theorem varintCount_spec {x : Nat} (hx : x < 2 ^ 32) :
    1 ≤ varintCount x ∧ varintCount x ≤ 4 ∧ x < 256 ^ varintCount x := by
  unfold varintCount
  split_ifs <;> omega

theorem div_pow_lt {x k : Nat} (hk : 1 ≤ k) (hlt : x < 256 ^ k) :
    x / 256 ^ (k - 1) < 256 := by
  rw [Nat.div_lt_iff_lt_mul (by positivity), ← pow_succ', Nat.sub_add_cancel hk]
  exact hlt

theorem reads_varint {x : Nat} (hx : x < 2 ^ 32) : Reads readVarint (writeVarint x) x := by
  obtain ⟨hcnt₁, hcnt₄, hlt⟩ := varintCount_spec hx
  unfold writeVarint
  generalize varintCount x = cnt at hcnt₁ hcnt₄ hlt
  have htop := div_pow_lt hcnt₁ hlt
  dsimp only
  rw [Nat.mod_eq_of_lt htop]
  split_ifs with hbig hmany
  · -- the top byte does not fit beside the prefix: all bytes follow it
    refine (reads_varint_prefixed 0 (leBytes_length cnt x) hcnt₁ hcnt₄
      (by positivity) (fun _ => rfl)).congr rfl ?_
    simp [ofLE_leBytes_of_lt hlt]
  · -- the top byte is in the prefix
    have hdouble : 2 * 2 ^ (8 - cnt) = 2 ^ (8 - (cnt - 1)) := by
      rw [← pow_succ']
      congr 1
      omega
    have hexp : 7 - (cnt - 1) = 8 - cnt := by omega
    rw [hdouble, Nat.add_comm]
    refine (reads_varint_prefixed _ (leBytes_length (cnt - 1) x) (by omega) (by omega) ?_
      (by omega)).congr rfl (ofLE_leBytes_add (cnt - 1) x)
    rw [hexp]
    omega
  · -- a single byte
    obtain rfl : cnt = 1 := by omega
    have hsmall : x < 128 := by simpa using hbig
    have hval : (UInt8.ofNat x).toNat = x := by
      rw [UInt8.toNat_ofNat']
      omega
    refine (reads_byte (UInt8.ofNat x)).bind_nil ?_
    rw [hval, if_pos (intByteExtra_small x hsmall)]
    exact Reads.pure x

/-- How many bytes `write_varint` writes: seven bits for each, up to four. -/
theorem length_writeVarint {x : Nat} (hx : x < 2 ^ 32) : (writeVarint x).length =
    if x < 2 ^ 7 then 1 else if x < 2 ^ 14 then 2 else if x < 2 ^ 21 then 3
    else if x < 2 ^ 28 then 4 else 5 := by
  -- the count of bytes that are not zero, and one more if the top byte has no room for the prefix
  have hlength : ∀ cnt, 1 ≤ cnt → x < 256 ^ cnt → varintCount x = cnt →
      (writeVarint x).length = if 2 ^ (8 - cnt) ≤ x / 256 ^ (cnt - 1) then cnt + 1 else cnt := by
    intro cnt hcnt hlt heq
    unfold writeVarint
    dsimp only
    rw [heq, Nat.mod_eq_of_lt (div_pow_lt hcnt hlt)]
    split_ifs with hbig hmany
    · rw [List.length_cons, leBytes_length]
    · rw [List.length_cons, leBytes_length]
      omega
    · rw [List.length_singleton]
      omega
  rcases lt_or_ge x (2 ^ 8) with h₁ | h₁
  · rw [hlength 1 le_rfl (by omega) (if_pos h₁)]
    split_ifs <;> omega
  rcases lt_or_ge x (2 ^ 16) with h₂ | h₂
  · rw [hlength 2 (by omega) (by omega) (by rw [varintCount, if_neg (by omega), if_pos h₂])]
    split_ifs <;> omega
  rcases lt_or_ge x (2 ^ 24) with h₃ | h₃
  · rw [hlength 3 (by omega) (by omega)
      (by rw [varintCount, if_neg (by omega), if_neg (by omega), if_pos h₃])]
    split_ifs <;> omega
  · rw [hlength 4 (by omega) (by omega)
      (by rw [varintCount, if_neg (by omega), if_neg (by omega), if_neg (by omega)])]
    split_ifs <;> omega

/-! ## 64-bit integers -/

def readLongint : Wire Int := do
  let val ← readInt
  if val ≠ -1 then pure val
  else do
    let buf ← readExact unexpectedEof 8
    pure (toI64 (ofLE buf))

def writeLongint (val : Int) : List UInt8 :=
  if 0 ≤ val ∧ val ≤ 0x7FFFFFFF then writeInt val
  else writeInt (-1) ++ leBytes 8 (val % 2 ^ 64).toNat

theorem reads_longint {val : Int} (h : IsI64 val) : Reads readLongint (writeLongint val) val := by
  unfold writeLongint
  split_ifs with hsmall
  · refine (reads_int ⟨by omega, by omega⟩).bind_nil ?_
    rw [if_pos (by omega)]
    exact Reads.pure val
  · refine (reads_int (by decide)).bind ?_
    refine ((Reads.exact_of_length (leBytes_length 8 _)).map).congr rfl ?_
    have hlt : (val % 2 ^ 64).toNat < 256 ^ 8 := by omega
    rw [ofLE_leBytes_of_lt hlt]
    obtain ⟨h₁, h₂⟩ := h
    unfold toI64
    rw [Int.bmod_def]
    split <;> omega

/-- **Exact prefix codes.** What `write_varint` and `write_longint` write is read back and nothing
else is consumed; no `varint` is the beginning of another one, and larger numbers are not shorter. -/
theorem integers_prefix_code :
    (∀ x < 2 ^ 32, Reads readVarint (writeVarint x) x) ∧
    (∀ x < 2 ^ 32, ∀ y < 2 ^ 32, writeVarint x <+: writeVarint y → x = y) ∧
    (∀ x y, x ≤ y → y < 2 ^ 32 → (writeVarint x).length ≤ (writeVarint y).length) ∧
    (∀ val, IsI64 val → Reads readLongint (writeLongint val) val) := by
  refine ⟨fun x hx => reads_varint hx, fun x hx y hy hinitial => ?_, fun x y hle hy => ?_,
    fun val hval => reads_longint hval⟩
  · exact (reads_varint hx).eq_of_initial (reads_varint hy) hinitial
  · rw [length_writeVarint (by omega), length_writeVarint hy]
    split_ifs <;> omega

theorem integers_prefix_code_300 : Reads readVarint (writeVarint 300) 300 ∧
    Reads readLongint (writeLongint (-5)) (-5) :=
  ⟨integers_prefix_code.1 300 (by decide), integers_prefix_code.2.2.2 (-5) ⟨by decide, by decide⟩⟩

/-- The index of the highest non-zero byte of a `u64`, from `cnt` down to `minBytes`. -/
def varlongCount (minBytes n : Nat) : Nat → Nat
  | 0 => 0
  | cnt + 1 =>
    if minBytes < cnt + 1 ∧ n / 256 ^ cnt % 256 = 0 then varlongCount minBytes n cnt else cnt + 1

/-- `read_varlong` behind its first byte `first` and the `minBytes - 1` bytes `low`. -/
def readVarlongTail (minBytes first : Nat) (low : List UInt8) : Wire Int :=
  let extra := intByteExtra.getD (first / 4) 0
  if extra = 0 then pure (toI64 (ofLE low + first * 256 ^ (minBytes - 1) : Nat))
  else if minBytes - 1 + extra ≥ 8 then
    Reader.fail (invalidVarint "extra bytes would overflow u64")
  else do
    let more ← readExact unexpectedEof extra
    pure (toI64 (ofLE (low ++ more) +
      first % 2 ^ (8 - extra) * 256 ^ (minBytes - 1 + extra) : Nat))

def readVarlong (minBytes : Nat) : Wire Int := do
  let b ← readExact unexpectedEof minBytes
  readVarlongTail minBytes (b.headD 0).toNat b.tail

def writeVarlong (x : Int) (minBytes : Nat) : List UInt8 :=
  let n := (x % 2 ^ 64).toNat
  let cnt := varlongCount minBytes n 8
  let bit := 2 ^ (7 - (cnt - minBytes))
  let top := n / 256 ^ (cnt - 1) % 256
  if top ≥ bit then UInt8.ofNat (256 - bit) :: leBytes cnt n
  else if cnt > minBytes then UInt8.ofNat (top + (256 - 2 * bit)) :: leBytes (cnt - 1) n
  else UInt8.ofNat top :: leBytes (minBytes - 1) n

variable {minBytes : Nat}

theorem varlongCount_spec {n : Nat} (hmin : 1 ≤ minBytes) :
    ∀ {k : Nat}, minBytes ≤ k → n < 256 ^ k →
      minBytes ≤ varlongCount minBytes n k ∧ varlongCount minBytes n k ≤ k ∧
        n < 256 ^ varlongCount minBytes n k
  | 0, hk, _ => by omega
  | k + 1, hk, hlt => by
    have htop : n / 256 ^ k < 256 := div_pow_lt (k := k + 1) (by omega) hlt
    rw [varlongCount, Nat.mod_eq_of_lt htop]
    split_ifs with hcond
    · obtain ⟨hgt, hzero⟩ := hcond
      have hlow : n < 256 ^ k := by
        rcases Nat.div_eq_zero_iff.mp hzero with h | h
        · exact absurd h (by positivity)
        · exact h
      obtain ⟨h₁, h₂, h₃⟩ := varlongCount_spec hmin (by omega) hlow
      exact ⟨h₁, by omega, h₃⟩
    · exact ⟨hk, le_rfl, hlt⟩

theorem reads_varlong_of_tail {first : UInt8} {low more : List UInt8} {x : Int}
    (hlen : low.length + 1 = minBytes) (h : Reads (readVarlongTail minBytes first.toNat low) more x) :
    Reads (readVarlong minBytes) (first :: (low ++ more)) x :=
  Reads.bind (Reads.exact_of_length (by simpa using hlen) : Reads _ (first :: low) _) h

/-- The bytes behind a prefix hold the low part of the number, which is at least `minBytes`
long in all. -/
theorem reads_varlong_prefixed (minBytes extra top n : Nat) (hmin : 1 ≤ minBytes)
    (hpos : 0 < extra) (hle : minBytes - 1 + extra < 8) (hsix : extra ≤ 6)
    (htop : top < 2 ^ (7 - extra)) :
    Reads (readVarlong minBytes) (prefixByte extra top :: leBytes (minBytes - 1 + extra) n)
      (toI64 (n % 256 ^ (minBytes - 1 + extra) + top * 256 ^ (minBytes - 1 + extra) : Nat)) := by
  obtain ⟨hextra, hmod⟩ := intByteExtra_prefixByte extra (by omega) hpos top htop
  generalize hbs : leBytes (minBytes - 1 + extra) n = bs
  have hlen : bs.length = minBytes - 1 + extra := by rw [← hbs, leBytes_length]
  rw [← ofLE_leBytes, hbs]
  -- the low bytes are split between the fixed part and what the prefix announces
  have hread : Reads (readVarlongTail minBytes (prefixByte extra top).toNat
      (bs.take (minBytes - 1))) (bs.drop (minBytes - 1))
      (toI64 (ofLE bs + top * 256 ^ (minBytes - 1 + extra) : Nat)) := by
    unfold readVarlongTail
    rw [hextra]
    rw [if_neg (by omega), if_neg (by omega), hmod]
    refine ((Reads.exact_of_length (n := extra) ?_).map).congr rfl ?_
    · rw [List.length_drop]
      omega
    · rw [List.take_append_drop]
  refine (reads_varlong_of_tail ?_ hread).congr ?_ rfl
  · rw [List.length_take]
    omega
  · rw [List.take_append_drop]

/-- The counts of `write_varlong` for a number of at most `55 + minBytes` bits: a count of eight
leaves room for the top byte beside the prefix. -/
theorem top_lt_of_lt {n : Nat} (hmin : 1 ≤ minBytes) (hn : n < 2 ^ (55 + minBytes)) :
    n / 256 ^ 7 < 2 ^ (minBytes - 1) := by
  rw [Nat.div_lt_iff_lt_mul (by positivity)]
  calc n < 2 ^ (55 + minBytes) := hn
    _ = 2 ^ (minBytes - 1) * 256 ^ 7 := by
        rw [show (256 : Nat) = 2 ^ 8 from rfl, ← pow_mul, ← pow_add]
        congr 1
        omega

theorem reads_varlong {x : Int} (hmin : 2 ≤ minBytes) (hmax : minBytes ≤ 8) (hx₀ : 0 ≤ x)
    (hx : x < 2 ^ (55 + minBytes)) : Reads (readVarlong minBytes) (writeVarlong x minBytes) x := by
  obtain ⟨n, rfl⟩ := Int.eq_ofNat_of_zero_le hx₀
  have hn : n < 2 ^ (55 + minBytes) := by exact_mod_cast hx
  have hpow : 2 ^ (55 + minBytes) ≤ 2 ^ 63 := Nat.pow_le_pow_right (by omega) (by omega)
  have hmod : ((n : Int) % 2 ^ 64).toNat = n := by omega
  have hi64 : toI64 n = n := toI64_eq ⟨by omega, by omega⟩
  obtain ⟨hge, hle, hlt⟩ := varlongCount_spec (n := n) (k := 8) (by omega : 1 ≤ minBytes) hmax
    (by omega)
  have htopBound := top_lt_of_lt (by omega) hn
  unfold writeVarlong
  rw [hmod]
  dsimp only
  generalize varlongCount minBytes n 8 = cnt at hge hle hlt ⊢
  have htop := div_pow_lt (by omega : 1 ≤ cnt) hlt
  rw [Nat.mod_eq_of_lt htop]
  split_ifs with hbig hmany
  · -- the top byte does not fit beside the prefix, so it is not the eighth
    have hseven : cnt ≤ 7 := by
      by_contra hgt
      obtain rfl : cnt = 8 := by omega
      rw [show 7 - (8 - minBytes) = minBytes - 1 by omega] at hbig
      omega
    have hread := reads_varlong_prefixed minBytes (cnt - minBytes + 1) 0 n
      (by omega) (by omega) (by omega) (by omega) (by positivity)
    rw [show minBytes - 1 + (cnt - minBytes + 1) = cnt by omega] at hread
    refine hread.congr ?_ ?_
    · simp [prefixByte]
    · rw [Nat.zero_mul, Nat.add_zero, Nat.mod_eq_of_lt hlt, hi64]
  · have hread := reads_varlong_prefixed minBytes (cnt - minBytes) _ n
      (by omega) (by omega) (by omega) (by omega) (not_le.mp hbig)
    rw [show minBytes - 1 + (cnt - minBytes) = cnt - 1 by omega, Nat.mod_add_div'] at hread
    refine hread.congr ?_ hi64
    rw [prefixByte, Nat.add_comm, ← pow_succ',
      show 7 - (cnt - minBytes) + 1 = 8 - (cnt - minBytes) by omega]
  · obtain rfl : cnt = minBytes := by omega
    have hsmall : n / 256 ^ (cnt - 1) < 128 := by simpa using hbig
    have hval : (UInt8.ofNat (n / 256 ^ (cnt - 1))).toNat = n / 256 ^ (cnt - 1) := by
      simp
      omega
    have hread : Reads (readVarlongTail cnt (UInt8.ofNat (n / 256 ^ (cnt - 1))).toNat
        (leBytes (cnt - 1) n)) [] n := by
      unfold readVarlongTail
      rw [hval, intByteExtra_small _ hsmall]
      rw [ofLE_leBytes_add, hi64]
      exact Reads.pure _
    refine (reads_varlong_of_tail ?_ hread).congr (by rw [List.append_nil]) rfl
    rw [leBytes_length]
    omega

/-- A larger number is written with a prefix that the reader refuses. -/
theorem readVarlong_error {x : Int} (hmin : 3 ≤ minBytes) (hmax : minBytes ≤ 8)
    (hx : 2 ^ (55 + minBytes) ≤ x % 2 ^ 64) (rest : List UInt8) :
    readVarlong minBytes (writeVarlong x minBytes ++ rest) =
      .error (invalidVarint "extra bytes would overflow u64") := by
  unfold writeVarlong
  obtain ⟨n, hn⟩ := Int.eq_ofNat_of_zero_le (Int.emod_nonneg x (by norm_num : (2 ^ 64 : Int) ≠ 0))
  have hlt64 : n < 256 ^ 8 := by
    omega
  rw [hn] at hx ⊢
  have hge : 2 ^ (minBytes - 1) * 256 ^ 7 ≤ n := by
    have hpow : 2 ^ (minBytes - 1) * 256 ^ 7 = 2 ^ (55 + minBytes) := by
      rw [show (256 : Nat) = 2 ^ 8 from rfl, ← pow_mul, ← pow_add]
      congr 1
      omega
    rw [hpow]
    exact_mod_cast hx
  rw [Int.toNat_natCast]
  have hcnt : varlongCount minBytes n 8 = 8 := by
    obtain ⟨-, hle, hlt⟩ := varlongCount_spec (by omega : 1 ≤ minBytes) hmax hlt64
    have hpos : 0 < 2 ^ (minBytes - 1) := by positivity
    by_contra hne
    have hpow : 256 ^ varlongCount minBytes n 8 ≤ 256 ^ 7 :=
      Nat.pow_le_pow_right (by norm_num) (by omega)
    nlinarith
  have htop : 2 ^ (minBytes - 1) ≤ n / 256 ^ 7 := (Nat.le_div_iff_mul_le (by positivity)).mpr hge
  dsimp only
  rw [hcnt, Nat.mod_eq_of_lt (div_pow_lt (k := 8) (by omega) hlt64),
    show 7 - (8 - minBytes) = minBytes - 1 by omega, if_pos htop]
  -- the prefix announces more bytes than a `u64` has
  obtain ⟨hextra, -⟩ := intByteExtra_prefixByte (9 - minBytes) (by omega) (by omega) 0 (by positivity)
  have hfirst : UInt8.ofNat (256 - 2 ^ (minBytes - 1)) = prefixByte (9 - minBytes) 0 := by
    rw [prefixByte, show 8 - (9 - minBytes) = minBytes - 1 by omega, Nat.add_zero]
  rw [hfirst]
  have hsplit : leBytes 8 n = (leBytes 8 n).take (minBytes - 1) ++ (leBytes 8 n).drop (minBytes - 1) :=
    (List.take_append_drop _ _).symm
  rw [hsplit, List.cons_append, List.append_assoc]
  have hlen : (prefixByte (9 - minBytes) 0 :: (leBytes 8 n).take (minBytes - 1)).length =
      minBytes := by
    rw [List.length_cons, List.length_take, leBytes_length]
    omega
  unfold readVarlong
  rw [← List.cons_append, bind_ok (Reads.exact_of_length hlen _)]
  unfold readVarlongTail
  rw [List.headD_cons]
  rw [if_neg (by omega), if_pos (by omega)]
  rfl

/-- **Round trip of `varlong`.** The 64-bit integers the reader gives back are the non-negative ones
whose top byte fits beside the prefix. -/
theorem varlong_roundTrip_iff {minBytes : Nat} {x : Int} (hmin : 3 ≤ minBytes) (hmax : minBytes ≤ 8)
    (hx : IsI64 x) :
    Reads (readVarlong minBytes) (writeVarlong x minBytes) x ↔ 0 ≤ x ∧ x < 2 ^ (55 + minBytes) := by
  constructor
  · intro hreads
    by_contra hout
    have hlarge : 2 ^ (55 + minBytes) ≤ x % 2 ^ 64 := by
      rcases lt_or_ge x 0 with hneg | hnonneg
      · -- a negative number has the top bit of the `u64`
        have hpow : (2 : Int) ^ (55 + minBytes) ≤ 2 ^ 63 :=
          pow_le_pow_right₀ (by norm_num) (by omega)
        have hmod : x % 2 ^ 64 = x + 2 ^ 64 := by
          obtain ⟨hlow, -⟩ := hx
          omega
        obtain ⟨hlow, -⟩ := hx
        omega
      · have hmod : x % 2 ^ 64 = x := Int.emod_eq_of_lt hnonneg (by have := hx.2; omega)
        omega
    have hread := hreads []
    rw [readVarlong_error hmin hmax hlarge []] at hread
    cases hread
  · rintro ⟨hnonneg, hlt⟩
    exact reads_varlong (by omega) hmax hnonneg hlt

/-- A time of the year 2024 in the width of the times. -/
theorem varlong_roundTrip_time : Reads (readVarlong 4) (writeVarlong 1704067200 4) 1704067200 :=
  (varlong_roundTrip_iff (by decide) (by decide) ⟨by decide, by decide⟩).mpr ⟨by decide, by decide⟩

/-- A time before 1970 and a size of 256 petabytes are refused. -/
theorem varlong_refused :
    readVarlong 4 (writeVarlong (-1) 4) =
      .error (invalidVarint "extra bytes would overflow u64") ∧
    readVarlong 3 (writeVarlong (2 ^ 58) 3) =
      .error (invalidVarint "extra bytes would overflow u64") := by
  decide +kernel

theorem stable_longint : Stable unexpectedEof readLongint :=
  stable_int.bind fun _ => Stable.ite (Stable.pure _) ((Stable.exact 8).bind fun _ => Stable.pure _)

theorem stable_varlong (minBytes : Nat) : Stable unexpectedEof (readVarlong minBytes) := by
  refine (Stable.exact minBytes).bind fun b => ?_
  refine Stable.ite (Stable.pure _) (Stable.ite (Stable.fail _) ?_)
  exact (Stable.exact _).bind fun _ => Stable.pure _

/-! ## Version-switching wrappers -/

def readVarint30 : IntCodec → Wire Nat
  | .fixed => do
    let val ← readInt
    pure (val % 2 ^ 32).toNat
  | .compact => readVarint

def writeVarint30 (val : Nat) : IntCodec → List UInt8
  | .fixed => writeInt (toI32 val)
  | .compact => writeVarint val

def readVarlong30 (minBytes : Nat) : IntCodec → Wire Int
  | .fixed => readLongint
  | .compact => readVarlong minBytes

def writeVarlong30 (val : Int) (minBytes : Nat) : IntCodec → List UInt8
  | .fixed => writeLongint val
  | .compact => writeVarlong val minBytes

theorem reads_varint30 {val : Nat} (h : val < 2 ^ 32) (codec : IntCodec) :
    Reads (readVarint30 codec) (writeVarint30 val codec) val := by
  cases codec with
  | fixed =>
    refine ((reads_int (isI32_toI32 val)).map).congr rfl ?_
    unfold toI32
    rw [Int.bmod_def]
    split <;> omega
  | compact => exact reads_varint h

theorem reads_varlong30 {x : Int} {codec : IntCodec} (hmin : 2 ≤ minBytes) (hmax : minBytes ≤ 8)
    (hx : IsI64 x) (hcompact : codec = .compact → 0 ≤ x ∧ x < 2 ^ (55 + minBytes)) :
    Reads (readVarlong30 minBytes codec) (writeVarlong30 x minBytes codec) x := by
  cases codec with
  | fixed => exact reads_longint hx
  | compact => exact reads_varlong hmin hmax (hcompact rfl).1 (hcompact rfl).2

theorem stable_varlong30 (minBytes : Nat) (codec : IntCodec) :
    Stable unexpectedEof (readVarlong30 minBytes codec) := by
  cases codec with
  | fixed => exact stable_longint
  | compact => exact stable_varlong minBytes

end Ferrosync
