import Ferrosync.Delta.CompressedWriter

set_option autoImplicit false

/-! # Reading the frames and runs of a compressed stream

What the writer appends to the stream is a sequence of frames and of encoded runs. `Continues`
says where the reader stands behind such a piece: it has returned some tokens, not the end of the
file, and goes on as in the second state. `Yields` also says which tokens it has returned. The end
of a file is reached from any state between two tokens (`fileRead_eof`).
-/

namespace Ferrosync

open ByteStream

variable {bs rest x out : List UInt8} {ts : List Token} {n start : Nat}

section Reader

variable {δ : Type} {D : Decompressor δ}

/-- The reader returns tokens up to and including the end of the file. -/
inductive FileRead (D : Decompressor δ) :
    CompressedTokenReader δ → List UInt8 → CompressedTokenReader δ → List UInt8 → Prop
  | eof {r r' : CompressedTokenReader δ} {bs rest : List UInt8}
      (h : recvTokenCompressed D r bs = .ok ((.endOfFile, r'), rest)) : FileRead D r bs r' rest
  | token {r r₁ r' : CompressedTokenReader δ} {bs mid rest : List UInt8} {t : Token}
      (h : recvTokenCompressed D r bs = .ok ((t, r₁), mid)) (hne : t ≠ .endOfFile)
      (next : FileRead D r₁ mid r' rest) : FileRead D r bs r' rest

/-- Having read these bytes, the reader goes on as in the second state. -/
def Continues (D : Decompressor δ) (r : CompressedTokenReader δ) (bs : List UInt8)
    (r' : CompressedTokenReader δ) : Prop :=
  ∀ ⦃more rest : List UInt8⦄ ⦃last : CompressedTokenReader δ⦄,
    FileRead D r' more last rest → FileRead D r (bs ++ more) last rest

theorem Continues.refl (r : CompressedTokenReader δ) : Continues D r [] r :=
  fun _ _ _ h => h

theorem Continues.trans {r₁ r₂ r₃ : CompressedTokenReader δ} {cs : List UInt8}
    (h : Continues D r₁ bs r₂) (h' : Continues D r₂ cs r₃) : Continues D r₁ (bs ++ cs) r₃ := by
  intro more rest last hread
  rw [List.append_assoc]
  exact h (h' hread)

/-- One call of `recv_token` after the other, and the tokens they return. -/
inductive ReadsTokens (D : Decompressor δ) :
    CompressedTokenReader δ → List UInt8 → List Token → CompressedTokenReader δ → List UInt8 → Prop
  | nil {r : CompressedTokenReader δ} {bs : List UInt8} : ReadsTokens D r bs [] r bs
  | cons {r r₁ r' : CompressedTokenReader δ} {bs mid rest : List UInt8} {t : Token}
      {ts : List Token} (h : recvTokenCompressed D r bs = .ok ((t, r₁), mid))
      (next : ReadsTokens D r₁ mid ts r' rest) : ReadsTokens D r bs (t :: ts) r' rest

theorem ReadsTokens.trans {r₁ r₂ r₃ : CompressedTokenReader δ} {mid : List UInt8} {us : List Token}
    (h : ReadsTokens D r₁ bs ts r₂ mid) (h' : ReadsTokens D r₂ mid us r₃ rest) :
    ReadsTokens D r₁ bs (ts ++ us) r₃ rest := by
  induction h with
  | nil => exact h'
  | cons h _ ih => exact .cons h (ih h')

/-- These bytes yield these tokens, whatever follows them. -/
def Yields (D : Decompressor δ) (r : CompressedTokenReader δ) (bs : List UInt8) (ts : List Token)
    (r' : CompressedTokenReader δ) : Prop :=
  ∀ more, ReadsTokens D r (bs ++ more) ts r' more

theorem Yields.refl (r : CompressedTokenReader δ) : Yields D r [] [] r := fun _ => .nil

theorem Yields.trans {r₁ r₂ r₃ : CompressedTokenReader δ} {cs : List UInt8} {us : List Token}
    (h : Yields D r₁ bs ts r₂) (h' : Yields D r₂ cs us r₃) :
    Yields D r₁ (bs ++ cs) (ts ++ us) r₃ := by
  intro more
  rw [List.append_assoc]
  exact (h (cs ++ more)).trans (h' more)

variable {r : CompressedTokenReader δ} {d : δ}

theorem ReadsTokens.fileRead {r' last : CompressedTokenReader δ} {mid : List UInt8}
    (h : ReadsTokens D r bs ts r' mid) (hts : Token.endOfFile ∉ ts)
    (hread : FileRead D r' mid last rest) : FileRead D r bs last rest := by
  induction h with
  | nil => exact hread
  | cons h _ ih =>
    obtain ⟨hne, hts⟩ := List.ne_and_not_mem_of_not_mem_cons hts
    exact .token h hne.symm (ih hts hread)

theorem Yields.continues {r' : CompressedTokenReader δ} (h : Yields D r bs ts r')
    (hts : Token.endOfFile ∉ ts) : Continues D r bs r' :=
  fun more _ _ hread => (h more).fileRead hts hread

/-- Two readers that return the same first token go on alike. -/
theorem FileRead.of_first_eq {r' last : CompressedTokenReader δ} {bs' : List UInt8}
    (heq : recvTokenCompressed D r bs = recvTokenCompressed D r' bs')
    (h : FileRead D r' bs' last rest) : FileRead D r bs last rest := by
  cases h with
  | eof h => exact .eof (heq.trans h)
  | token h hne next => exact .token (heq.trans h) hne next

section Idle

variable {block : UInt8 → CompressedTokenReader δ → Wire (Token × CompressedTokenReader δ)}

/-- Fuel beyond the length of the input changes nothing. -/
theorem recvIdle_fuel : ∀ {n m : Nat} {r : CompressedTokenReader δ} {bs : List UInt8},
    bs.length < n → bs.length < m → recvIdle block D n r bs = recvIdle block D m r bs := by
  intro n
  induction n with
  | zero => exact fun h _ => absurd h (Nat.not_lt_zero _)
  | succ n ih =>
    intro m r bs hn hm
    obtain ⟨m, rfl⟩ : ∃ k, m = k + 1 := ⟨m - 1, by omega⟩
    apply bind_congr_ok
    intro flag mid hflag
    have hmid := readByte_ok hflag
    -- the two sides differ only where a frame yields nothing and the loop continues
    by_cases hdata : flag.toNat / 64 = 1
    · rw [if_pos hdata, if_pos hdata]
      apply bind_congr_ok
      intro lo mid₂ hlo
      have hmid₂ := readByte_ok hlo
      dsimp only
      split_ifs
      · exact ih (by omega) (by omega)
      · rfl
      · apply bind_congr_ok
        rintro ⟨out, r₁⟩ mid₃ hframe
        have hmid₃ := inflateFrame_ok hframe
        dsimp only
        split_ifs
        · rfl
        · exact ih (by omega) (by omega)
    · rw [if_neg hdata, if_neg hdata]

/-- A frame that is read: the loop returns what it yields, or continues behind it. -/
theorem recvIdle_frame (more : List UInt8) (hpos : x ≠ []) (hmax : x.length ≤ maxDataCount)
    (hinflate : D.decompress r.decompressor
      (if D.isZlib then x ++ [0, 0, 0xFF, 0xFF] else x) dataChunkSize = .ok (out, d)) :
    recvIdle block D (n + 1) r (deflatedFrame x ++ more) =
      if out ≠ [] then .ok ((.data out, { r with decompressor := d }), more)
      else recvIdle block D n { r with decompressor := d } more := by
  have hlen : 0 < x.length := List.length_pos_iff.mpr hpos
  rw [maxDataCount] at hmax
  -- the 14 bits of the length are 6 in the flag and 8 behind it
  have hflag : (UInt8.ofNat (0x40 + x.length / 256)).toNat = 64 + x.length / 256 := by
    rw [UInt8.toNat_ofNat']
    omega
  have hlo : (UInt8.ofNat (x.length % 256)).toNat = x.length % 256 := by
    rw [UInt8.toNat_ofNat']
    omega
  have hframe : inflateFrame D r x.length (x ++ more) =
      .ok ((out, { r with decompressor := d }), more) := by
    rw [inflateFrame, bind_ok (Reads.exact_of_length rfl more)]
    simp only [hinflate]
    rfl
  rw [recvIdle, deflatedFrame, List.append_assoc, List.cons_append, bind_ok (readByte_cons _ _),
    hflag, if_pos (by omega), List.cons_append, bind_ok (readByte_cons _ _), hlo]
  dsimp only
  rw [show (64 + x.length / 256) % 64 * 256 + x.length % 256 = x.length by omega,
    if_neg (by omega), if_neg (by rw [maxDataCount]; omega), List.nil_append, bind_ok hframe]
  dsimp only
  split_ifs
  · rfl
  · rfl

end Idle

theorem recvTokenCompressed_idle (h : r.state = .idle) (bs : List UInt8) :
    recvTokenCompressed D r bs = recvIdle (recvBlockIn .wrapping) D (bs.length + 1) r bs := by
  simp only [recvTokenCompressed, recvTokenIn, startIdle, h]

theorem recvTokenCompressed_init (hinit : r.state = .init)
    (hreset : D.reset r.decompressor = .ok d) (bs : List UInt8) :
    recvTokenCompressed D r bs =
      recvTokenCompressed D { r with decompressor := d, state := .idle, rxToken := 0 } bs := by
  simp only [recvTokenCompressed, recvTokenIn, startIdle, hinit, hreset]
  rfl

theorem recvTokenCompressed_running (h : r.state = .running) (bs : List UInt8) :
    recvTokenCompressed D r bs = .ok ((.blockMatch (r.rxToken + 1).toInt, { r with
      rxToken := r.rxToken + 1, rxRun := r.rxRun - 1
      state := if r.rxRun - 1 = 0 then .idle else .running }), bs) := by
  simp only [recvTokenCompressed, recvTokenIn, startIdle, h, recvMemberIn, Build.addI32_wrapping,
    Build.subI32_wrapping]
  rfl

theorem yields_frame (hidle : r.state = .idle) (hpos : x ≠ []) (hmax : x.length ≤ maxDataCount)
    (hinflate : D.decompress r.decompressor
      (if D.isZlib then x ++ [0, 0, 0xFF, 0xFF] else x) dataChunkSize = .ok (out, d))
    (hout : out ≠ []) : Yields D r (deflatedFrame x) [.data out] { r with decompressor := d } := by
  intro more
  refine .cons ?_ .nil
  rw [recvTokenCompressed_idle hidle, recvIdle_frame more hpos hmax hinflate, if_pos hout]

theorem continues_frame (hidle : r.state = .idle) (hpos : x ≠ []) (hmax : x.length ≤ maxDataCount)
    (hinflate : D.decompress r.decompressor
      (if D.isZlib then x ++ [0, 0, 0xFF, 0xFF] else x) dataChunkSize = .ok (out, d)) :
    Continues D r (deflatedFrame x) { r with decompressor := d } := by
  intro more rest last hread
  have hfirst := (recvTokenCompressed_idle hidle (deflatedFrame x ++ more)).trans
    (recvIdle_frame more hpos hmax hinflate)
  by_cases hout : out ≠ []
  · rw [if_pos hout] at hfirst
    exact .token hfirst (by simp) hread
  · -- a frame that yields nothing: the first token comes from behind it
    rw [if_neg hout, recvIdle_fuel (m := more.length + 1) (by simp [deflatedFrame]; omega)
      (Nat.lt_succ_self _)] at hfirst
    refine hread.of_first_eq (hfirst.trans ?_)
    exact (recvTokenCompressed_idle (r := { r with decompressor := d }) hidle more).symm

theorem fileRead_eof (hidle : r.state = .idle) (rest : List UInt8) :
    FileRead D r (0x00 :: rest) { r with state := .init } rest := by
  apply FileRead.eof
  rw [recvTokenCompressed_idle hidle, recvIdle]
  rw [bind_ok (readByte_cons 0 rest)]
  rfl

theorem yields_eof (hidle : r.state = .idle) :
    Yields D r [0x00] [.endOfFile] { r with state := .init } := by
  intro more
  refine .cons ?_ .nil
  rw [recvTokenCompressed_idle hidle]
  exact (bind_ok (readByte_cons 0 more)).trans rfl

/-- The first token of a file resets the decompressor. -/
theorem ReadsTokens.of_init {last : CompressedTokenReader δ} (hinit : r.state = .init)
    (hreset : D.reset r.decompressor = .ok d) (hts : ts ≠ [])
    (h : ReadsTokens D { r with decompressor := d, state := .idle, rxToken := 0 } bs ts last rest) :
    ReadsTokens D r bs ts last rest := by
  cases h with
  | nil => exact absurd rfl hts
  | cons h next =>
    exact .cons ((recvTokenCompressed_init hinit hreset bs).trans h) next

theorem FileRead.of_init {last : CompressedTokenReader δ} (hinit : r.state = .init)
    (hreset : D.reset r.decompressor = .ok d)
    (h : FileRead D { r with decompressor := d, state := .idle, rxToken := 0 } bs last rest) :
    FileRead D r bs last rest :=
  h.of_first_eq (recvTokenCompressed_init hinit hreset bs)

theorem int32_ofNat_ne_zero (hpos : 0 < n) (h : n < 2 ^ 31) : Int32.ofNat n ≠ 0 := by
  intro hzero
  have htoInt := congrArg Int32.toInt hzero
  rw [Int32.toInt_ofNat_of_lt h, Int32.toInt_zero] at htoInt
  omega

/-- Consecutive block references. -/
def blockRun (start n : Nat) : List Token :=
  (List.range n).map fun i => .blockMatch ((start + i : Nat) : Int)

theorem blockRun_succ (start n : Nat) :
    blockRun start (n + 1) = .blockMatch (start : Int) :: blockRun (start + 1) n := by
  unfold blockRun
  rw [List.range_succ_eq_map, List.map_cons, List.map_map]
  refine congrArg₂ _ rfl (List.map_congr_left fun i _ => ?_)
  show Token.blockMatch ((start + (i + 1) : Nat) : Int) = .blockMatch ((start + 1 + i : Nat) : Int)
  rw [Nat.add_right_comm, Nat.add_assoc]

theorem endOfFile_not_mem_blockRun (start n : Nat) : Token.endOfFile ∉ blockRun start n := by
  simp [blockRun]

/-- The members of a run that are left come without further bytes. -/
theorem yields_running (m : Nat) : ∀ {r : CompressedTokenReader δ} {last : Nat},
    last + (m + 1) < 2 ^ 31 → r.state = .running → r.rxToken = Int32.ofNat last →
    r.rxRun = Int32.ofNat (m + 1) →
    Yields D r [] (blockRun (last + 1) (m + 1)) { r with
      rxToken := Int32.ofNat (last + (m + 1)), rxRun := 0, state := .idle } := by
  -- Induction on the members left: the call for the last one leaves the run.
  induction m with
  | zero =>
    intro r last hm hrunning htoken hrun more
    refine .cons ?_ .nil
    have hnext : Int32.ofNat last + 1 = Int32.ofNat (last + 1) := (Int32.ofNat_add last 1).symm
    have hvalue : (Int32.ofNat (last + 1)).toInt = (last + 1 : Nat) :=
      Int32.toInt_ofNat_of_lt (by omega)
    simp only [recvTokenCompressed_running hrunning, hrun, htoken, hnext, hvalue]
    rfl
  | succ m ih =>
    intro r last hm hrunning htoken hrun more
    have hsub : r.rxRun - 1 = Int32.ofNat (m + 1) := by
      rw [hrun]
      simp
    have hne : Int32.ofNat (m + 1) ≠ 0 := int32_ofNat_ne_zero (by omega) (by omega)
    have hnext : Int32.ofNat last + 1 = Int32.ofNat (last + 1) := (Int32.ofNat_add last 1).symm
    have hvalue : (Int32.ofNat (last + 1)).toInt = (last + 1 : Nat) :=
      Int32.toInt_ofNat_of_lt (by omega)
    let r₁ : CompressedTokenReader δ := { r with
      rxToken := Int32.ofNat (last + 1), rxRun := Int32.ofNat (m + 1), state := .running }
    have hrest := ih (r := r₁) (by omega) rfl rfl rfl more
    rw [Nat.add_right_comm last 1 (m + 1)] at hrest
    rw [blockRun_succ]
    refine .cons ?_ hrest
    simp only [recvTokenCompressed_running hrunning, hsub, if_neg hne, htoken, hnext, hvalue]
    rfl

/-- The bytes of a run of `n + 1` references from `start` on, after a run that ended at `last`. -/
def encodeRun (last start n : Nat) : List UInt8 :=
  (if last ≤ start ∧ start ≤ last + 63 then
      [UInt8.ofNat ((if n = 0 then 0x80 else 0xC0) + (start - last))]
    else (if n = 0 then 0x20 else 0x21) :: writeInt start) ++
  (if n = 0 then [] else [UInt8.ofNat (n % 256), UInt8.ofNat (n / 256)])

/-- The count behind a reference. -/
theorem readRun_ofNat (hn : n < 65536) (token : Int32) (more : List UInt8) :
    readRun token r (UInt8.ofNat (n % 256) :: UInt8.ofNat (n / 256) :: more) =
      .ok ((.blockMatch token.toInt, { r with
        rxToken := token, rxRun := Int32.ofNat n, state := .running }), more) := by
  have hlo : (UInt8.ofNat (n % 256)).toNat = n % 256 := by
    rw [UInt8.toNat_ofNat']
    omega
  have hhi : (UInt8.ofNat (n / 256)).toNat = n / 256 := by
    rw [UInt8.toNat_ofNat']
    omega
  rw [readRun, bind_ok (readByte_cons _ _), bind_ok (readByte_cons _ _), hlo, hhi,
    show n % 256 + n / 256 * 256 = n by omega]
  rfl

/-- What follows the flag byte of a block reference, and what it leads to. -/
theorem yields_count {head : List UInt8} (hidle : r.state = .idle) (hn : n < 65536)
    (hstart : start + n < 2 ^ 31)
    (hsingle : n = 0 → ∀ more, recvTokenCompressed D r (head ++ more) =
      singleBlock (Int32.ofNat start) r more)
    (hrun : n ≠ 0 → ∀ more, recvTokenCompressed D r (head ++ more) =
      readRun (Int32.ofNat start) r more) :
    Yields D r (head ++ if n = 0 then [] else [UInt8.ofNat (n % 256), UInt8.ofNat (n / 256)])
      (blockRun start (n + 1))
      { r with rxToken := Int32.ofNat (start + n), rxRun := if n = 0 then r.rxRun else 0 } := by
  intro more
  have hvalue : (Int32.ofNat start).toInt = (start : Nat) :=
    Int32.toInt_ofNat_of_lt (by omega)
  rw [blockRun_succ]
  -- a run of one reference has no count
  by_cases hzero : n = 0
  · subst hzero
    rw [if_pos rfl, List.append_nil]
    refine .cons ((hsingle rfl more).trans ?_) .nil
    rw [singleBlock, hvalue]
    rfl
  · rw [if_neg hzero, List.append_assoc]
    obtain ⟨m, rfl⟩ : ∃ m, n = m + 1 := ⟨n - 1, by omega⟩
    have hcount := readRun_ofNat (r := r) hn (Int32.ofNat start) more
    rw [hvalue] at hcount
    refine .cons ((hrun hzero _).trans hcount) ?_
    have hrest := yields_running m (D := D) (r := { r with
      rxToken := Int32.ofNat start, rxRun := Int32.ofNat (m + 1), state := .running })
      hstart rfl rfl rfl more
    rw [← hidle] at hrest
    exact hrest

theorem recvTokenCompressed_block {flag : UInt8} (hidle : r.state = .idle)
    (hdata : flag.toNat / 64 ≠ 1) (hend : flag.toNat ≠ 0) (bs : List UInt8) :
    recvTokenCompressed D r (flag :: bs) = recvBlockIn .wrapping flag r bs := by
  have hzero : flag ≠ 0 := fun h => hend (by rw [h]; rfl)
  rw [recvTokenCompressed_idle hidle, recvIdle, bind_ok (readByte_cons _ _), if_neg hdata,
    if_neg hzero]

theorem recvBlockIn_relative {last base : Nat} (htoken : r.rxToken = Int32.ofNat last)
    (hle : last ≤ start) (hnear : start ≤ last + 63) (hbase : base = 0x80 ∨ base = 0xC0)
    (bs : List UInt8) :
    recvBlockIn .wrapping (UInt8.ofNat (base + (start - last))) r bs =
      if base = 0x80 then singleBlock (Int32.ofNat start) r bs
      else readRun (Int32.ofNat start) r bs := by
  have hflag : (UInt8.ofNat (base + (start - last))).toNat = base + (start - last) := by
    rw [UInt8.toNat_ofNat']
    omega
  have hsum : r.rxToken + Int32.ofNat ((base + (start - last)) % 64) = Int32.ofNat start := by
    rw [htoken, ← Int32.ofNat_add]
    congr 1
    omega
  rw [recvBlockIn, hflag, if_pos (by omega), Build.addI32_wrapping, hsum, bind_ok rfl]
  obtain rfl | rfl := hbase
  · rw [if_neg (by omega), if_pos rfl]
  · rw [if_pos (by omega), if_neg (by decide)]

theorem recvBlockIn_absolute {flag : UInt8} (hstart : start < 2 ^ 31) (hflag : flag.toNat < 0x80)
    (more : List UInt8) :
    recvBlockIn .wrapping flag r (writeInt start ++ more) =
      if flag.toNat % 2 = 1 then readRun (Int32.ofNat start) r more
      else singleBlock (Int32.ofNat start) r more := by
  have hread : readInt (writeInt start ++ more) = .ok ((start : Int), more) :=
    reads_int ⟨by omega, by omega⟩ more
  rw [recvBlockIn, if_neg (by omega), bind_ok hread, if_neg (by omega)]
  split_ifs <;> rfl

theorem yields_run {last : Nat} (hidle : r.state = .idle) (htoken : r.rxToken = Int32.ofNat last)
    (hn : n < 65536) (hstart : start + n < 2 ^ 31) :
    Yields D r (encodeRun last start n) (blockRun start (n + 1)) { r with
      rxToken := Int32.ofNat (start + n), rxRun := if n = 0 then r.rxRun else 0 } := by
  unfold encodeRun
  -- up to 63 behind the last one the number is in the flag byte, otherwise it follows as an `i32`
  by_cases hnear : last ≤ start ∧ start ≤ last + 63
  · rw [if_pos hnear]
    apply yields_count hidle hn hstart
    · intro hzero more
      rw [if_pos hzero, List.singleton_append, recvTokenCompressed_block hidle,
        recvBlockIn_relative htoken hnear.1 hnear.2 (.inl rfl), if_pos rfl]
      all_goals rw [UInt8.toNat_ofNat']; omega
    · intro hzero more
      rw [if_neg hzero, List.singleton_append, recvTokenCompressed_block hidle,
        recvBlockIn_relative htoken hnear.1 hnear.2 (.inr rfl), if_neg (by decide)]
      all_goals rw [UInt8.toNat_ofNat']; omega
  · rw [if_neg hnear]
    apply yields_count hidle hn hstart
    · intro hzero more
      rw [if_pos hzero, List.cons_append, recvTokenCompressed_block hidle (by decide) (by decide),
        recvBlockIn_absolute (by omega) (by decide), if_neg (by decide)]
    · intro hzero more
      rw [if_neg hzero, List.cons_append, recvTokenCompressed_block hidle (by decide) (by decide),
        recvBlockIn_absolute (by omega) (by decide), if_pos (by decide)]

end Reader

end Ferrosync
