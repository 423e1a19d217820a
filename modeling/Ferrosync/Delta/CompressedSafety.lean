import Ferrosync.Delta.CompressedReading

set_option autoImplicit false

/-! # The compressed reader on arbitrary bytes

The numbers of block references come from the stream, and the reader adds them up in `i32`. A run
count is decremented before it is compared with 0, so that a count of 0 does not end the run.

`hostile_runs_iff` says for which references in the stream the two builds agree and the indices are
right: `idles` reduces a call to the one reference that it arrives at, `recvTokenIn_sound` is the
step, and `ReadsChecked.inRun` the run.
-/

namespace Ferrosync

open ByteStream

variable {bs rest : List UInt8} {flag : UInt8} {b : Build} {x y : Int32} {ts : List Token}

/-! ## Arithmetic of either build -/

theorem Build.addI32_eq (h : IsI32 (x.toInt + y.toInt)) :
    b.addI32 x y = .ok (x + y) := if_neg fun hc => hc.2 h

theorem Build.subI32_eq (h : IsI32 (x.toInt - y.toInt)) :
    b.subI32 x y = .ok (x - y) := if_neg fun hc => hc.2 h

theorem toInt_add_of_fits (h : IsI32 (x.toInt + y.toInt)) :
    (x + y).toInt = x.toInt + y.toInt := by
  rw [Int32.toInt_add]
  exact toI32_eq h

theorem toInt_sub_of_fits (h : IsI32 (x.toInt - y.toInt)) :
    (x - y).toInt = x.toInt - y.toInt := by
  rw [Int32.toInt_sub]
  exact toI32_eq h

section Reader

variable {δ : Type}

/-! ## Block references in the stream -/

/-- The number that a flag refers to, as a sum without bounds, and the stream behind it. -/
def blockNumber (flag : UInt8) (r : CompressedTokenReader δ) (bs : List UInt8) :
    Option (Int × List UInt8) :=
  if flag.toNat ≥ 0x80 then some (r.rxToken.toInt + (flag.toNat % 64 : Nat), bs)
  else
    match readInt bs with
    | .error _ => none
    | .ok (token, rest) => if token < 0 then none else some (token, rest)

def hasCount (flag : UInt8) : Bool :=
  if flag.toNat ≥ 0x80 then flag.toNat / 64 % 2 = 1 else flag.toNat % 2 = 1

/-- A run header: the number, the count and the stream behind them. -/
def runHeader (flag : UInt8) (r : CompressedTokenReader δ) (bs : List UInt8) :
    Option (Int × Nat × List UInt8) :=
  match blockNumber flag r bs with
  | some (token, lo :: hi :: rest) =>
    if hasCount flag then some (token, lo.toNat + hi.toNat * 256, rest) else none
  | _ => none

/-- A reference that the reader can follow: its number and those of its run are `i32` values, and
the run is not empty. -/
structure SoundBlock (flag : UInt8) (r : CompressedTokenReader δ) (bs : List UInt8) : Prop where
  number : ∀ token rest, blockNumber flag r bs = some (token, rest) → token < 2 ^ 31
  run : ∀ token n rest, runHeader flag r bs = some (token, n, rest) → n ≠ 0 ∧ token + n < 2 ^ 31

theorem toInt_ofInt {x : Int} (h₀ : 0 ≤ x) (h : x < 2 ^ 31) : (Int32.ofInt x).toInt = x :=
  Int32.toInt_ofInt_of_le (by omega) h

variable {r r' : CompressedTokenReader δ} {token : Int} {D : Decompressor δ}

/-- Without a number there is an error in either build. -/
theorem recvBlockIn_of_none (h : blockNumber flag r bs = none) :
    ∃ e, ∀ b, recvBlockIn b flag r bs = .error e := by
  unfold blockNumber at h
  split_ifs at h with hflag
  cases hint : readInt bs with
  | error e =>
    refine ⟨e, fun b => ?_⟩
    rw [recvBlockIn, if_neg hflag, bind_error hint]
  | ok x =>
    obtain ⟨token, rest⟩ := x
    rw [hint] at h
    dsimp only at h
    split_ifs at h with hneg
    refine ⟨.protocol (.handshake "invalid token number in compressed stream"), fun b => ?_⟩
    simp [recvBlockIn, hflag, bind_ok hint, hneg]

/-- A number that is an `i32` is read alike in either build. -/
theorem recvBlockIn_of_some (h : blockNumber flag r bs = some (token, rest)) (h₀ : 0 ≤ token)
    (hlt : token < 2 ^ 31) :
    recvBlockIn b flag r bs =
      if hasCount flag then readRun (Int32.ofInt token) r rest
      else singleBlock (Int32.ofInt token) r rest := by
  unfold blockNumber at h
  unfold hasCount recvBlockIn
  by_cases hflag : flag.toNat ≥ 0x80
  -- relative to the last number: the sum without bounds is the `i32` sum
  · rw [if_pos hflag] at h
    obtain ⟨rfl, rfl⟩ := Prod.mk.inj (Option.some.inj h)
    have hstep : (Int32.ofNat (flag.toNat % 64)).toInt = (flag.toNat % 64 : Nat) :=
      Int32.toInt_ofNat_of_lt (by omega)
    have hfits : IsI32 (r.rxToken.toInt + (Int32.ofNat (flag.toNat % 64)).toInt) := by
      rw [hstep]
      exact ⟨by omega, hlt⟩
    have hsum : r.rxToken + Int32.ofNat (flag.toNat % 64) =
        Int32.ofInt (r.rxToken.toInt + (flag.toNat % 64 : Nat)) := by
      rw [← Int32.toInt_inj, toInt_add_of_fits hfits, toInt_ofInt h₀ hlt, hstep]
    rw [if_pos hflag, if_pos hflag, Build.addI32_eq hfits, hsum]
    simp only [decide_eq_true_eq]
    split_ifs <;> rfl
  -- a number of its own: it was read as an `i32`
  · rw [if_neg hflag] at h
    cases hint : readInt bs with
    | error e => rw [hint] at h; cases h
    | ok x =>
      obtain ⟨token', rest'⟩ := x
      rw [hint] at h
      dsimp only at h
      split_ifs at h with hneg
      obtain ⟨rfl, rfl⟩ := Prod.mk.inj (Option.some.inj h)
      rw [if_neg hflag, if_neg hflag, bind_ok hint]
      simp only [decide_eq_true_eq]
      split_ifs <;> rfl

theorem readRun_cons (token : Int32) (r : CompressedTokenReader δ) (lo hi : UInt8)
    (rest : List UInt8) :
    readRun token r (lo :: hi :: rest) = .ok ((.blockMatch token.toInt, { r with
      rxToken := token, rxRun := Int32.ofNat (lo.toNat + hi.toNat * 256), state := .running }),
      rest) := by
  rfl

theorem readRun_eq_ok {token : Int32} {t : Token} (h : readRun token r bs = .ok ((t, r'), rest)) :
    ∃ lo hi, bs = lo :: hi :: rest ∧ t = .blockMatch token.toInt ∧ r' = { r with
      rxToken := token, rxRun := Int32.ofNat (lo.toNat + hi.toNat * 256), state := .running } := by
  match bs with
  | [] => cases h
  | [b] => cases h
  | lo :: hi :: more =>
    cases h
    exact ⟨lo, hi, rfl, rfl, rfl⟩

/-! ## What a call does to the numbers -/

/-- The last number is not negative, and the members of a run that are left are `i32` values. -/
structure InRun (r : CompressedTokenReader δ) : Prop where
  token : 0 ≤ r.rxToken.toInt
  run : r.state = .running → 0 < r.rxRun.toInt ∧ r.rxToken.toInt + r.rxRun.toInt < 2 ^ 31

theorem inflateFrame_reader {len : Nat} {out : List UInt8}
    (h : inflateFrame D r len bs = .ok ((out, r'), rest)) :
    ∃ d, r' = { r with decompressor := d } := by
  obtain ⟨compressed, mid, -, hlift⟩ := bind_eq_ok h
  obtain ⟨hok, -⟩ := lift_eq_ok hlift
  obtain ⟨⟨out', d⟩, -, hpure⟩ := Loop.except_bind_eq_ok hok
  cases Loop.pure_inj hpure
  exact ⟨d, rfl⟩

/-- What the loop in the idle state comes to, whatever reads the block references. The frames on the
way change the decompressor only. -/
inductive Idles (D : Decompressor δ) (n : Nat) (r : CompressedTokenReader δ) (bs : List UInt8) : Prop
  | failed (e : Failure) (h : ∀ block, recvIdle block D n r bs = .error e)
  | data (out : List UInt8) (d : δ) (rest : List UInt8) (h : ∀ block,
      recvIdle block D n r bs = .ok ((.data out, { r with decompressor := d }), rest))
  | endOfFile (d : δ) (rest : List UInt8) (h : ∀ block, recvIdle block D n r bs =
      .ok ((.endOfFile, { r with decompressor := d, state := .init }), rest))
  | block (flag : UInt8) (d : δ) (rest : List UInt8) (h : ∀ block,
      recvIdle block D n r bs = block flag { r with decompressor := d } rest)

/-- A round that goes on to another reader ends as that one does. -/
theorem Idles.of_eq {n m : Nat} {d : δ} {mid : List UInt8}
    (heq : ∀ block, recvIdle block D n r bs = recvIdle block D m { r with decompressor := d } mid)
    (h : Idles D m { r with decompressor := d } mid) : Idles D n r bs := by
  cases h with
  | failed e h => exact .failed e fun block => (heq block).trans (h block)
  | data out d rest h => exact .data out d rest fun block => (heq block).trans (h block)
  | endOfFile d rest h => exact .endOfFile d rest fun block => (heq block).trans (h block)
  | block flag d rest h => exact .block flag d rest fun block => (heq block).trans (h block)

theorem idles (D : Decompressor δ) (n : Nat) (r : CompressedTokenReader δ) (bs : List UInt8) :
    Idles D n r bs := by
  induction n generalizing r bs with
  | zero => exact .failed (.fault .diverged) fun _ => rfl
  | succ n ih =>
    -- one round of the loop; only a frame without output leads to another one
    cases hflag : readByte bs with
    | error e => exact .failed e fun _ => bind_error hflag
    | ok x =>
      obtain ⟨flag, mid⟩ := x
      by_cases hdata : flag.toNat / 64 = 1
      · cases hlo : readByte mid with
        | error e =>
          refine .failed e fun _ => (bind_ok hflag).trans ?_
          rw [if_pos hdata, bind_error hlo]
        | ok x =>
          obtain ⟨lo, mid₂⟩ := x
          have hround : ∀ block, recvIdle block D (n + 1) r bs = _ := fun block =>
            (bind_ok hflag).trans ((congrFun (if_pos hdata) mid).trans (bind_ok hlo))
          dsimp only at hround
          by_cases hzero : flag.toNat % 64 * 256 + lo.toNat = 0
          · refine .of_eq (d := r.decompressor) (fun block => (hround block).trans ?_) (ih r mid₂)
            rw [if_pos hzero]
          by_cases hmax : flag.toNat % 64 * 256 + lo.toNat > maxDataCount
          · refine .failed (outOfRange "compressed_data_len"
              (flag.toNat % 64 * 256 + lo.toNat : Nat) maxDataCount) fun block =>
              (hround block).trans ?_
            rw [if_neg hzero, if_pos hmax]
            rfl
          cases hframe : inflateFrame D r (flag.toNat % 64 * 256 + lo.toNat) mid₂ with
          | error e =>
            refine .failed e fun block => (hround block).trans ?_
            rw [if_neg hzero, if_neg hmax, bind_error hframe]
          | ok x =>
            obtain ⟨⟨out, r₁⟩, mid₃⟩ := x
            obtain ⟨d, rfl⟩ := inflateFrame_reader hframe
            by_cases hout : out ≠ []
            · refine .data out d mid₃ fun block => (hround block).trans ?_
              rw [if_neg hzero, if_neg hmax, bind_ok hframe]
              exact congrFun (if_pos hout) mid₃
            · -- the readers before and behind the frame have the same numbers
              refine .of_eq (d := d) (fun block => (hround block).trans ?_) (ih _ mid₃)
              rw [if_neg hzero, if_neg hmax, bind_ok hframe]
              exact congrFun (if_neg hout) mid₃
      · by_cases hend : flag = 0
        · refine .endOfFile r.decompressor mid fun block => (bind_ok hflag).trans ?_
          rw [if_neg hdata, if_pos hend]
          rfl
        · refine .block flag r.decompressor mid fun block => (bind_ok hflag).trans ?_
          rw [if_neg hdata, if_neg hend]

/-- The next call arrives at the flag of a block reference: whatever reads the references is called
with this flag, this reader and the stream behind the flag. -/
def BlockAt (D : Decompressor δ) (r : CompressedTokenReader δ) (bs : List UInt8) (flag : UInt8)
    (r₁ : CompressedTokenReader δ) (rest : List UInt8) : Prop :=
  ∃ r₀, startIdle D r = .ok (some r₀) ∧
    ∀ block, recvIdle block D (bs.length + 1) r₀ bs = block flag r₁ rest

theorem recvTokenIn_idle {r₀ : CompressedTokenReader δ} (h : startIdle D r = .ok (some r₀)) :
    recvTokenIn b D r bs = recvIdle (recvBlockIn b) D (bs.length + 1) r₀ bs := by
  rw [recvTokenIn, h]

theorem BlockAt.recvTokenIn {r₁ : CompressedTokenReader δ} (h : BlockAt D r bs flag r₁ rest)
    (b : Build) : recvTokenIn b D r bs = recvBlockIn b flag r₁ rest := by
  obtain ⟨r₀, hstart, hblock⟩ := h
  exact (recvTokenIn_idle hstart).trans (hblock (recvBlockIn b))

theorem BlockAt.reader {r₁ : CompressedTokenReader δ} (h : BlockAt D r bs flag r₁ rest) :
    ∃ r₀, startIdle D r = .ok (some r₀) ∧ ∃ d, r₁ = { r₀ with decompressor := d } := by
  obtain ⟨r₀, hstart, hblock⟩ := h
  refine ⟨r₀, hstart, ?_⟩
  -- a reader of the references that returns what it is called with tells the outcomes apart
  have hcall := hblock fun flag r rest => .ok ((.data [flag], r), rest)
  cases idles D (bs.length + 1) r₀ bs with
  | failed e hout => cases (hout _).symm.trans hcall
  | data out d rest' hout => cases (hout fun _ _ _ => .error (.fault .panic)).symm.trans (hblock _)
  | endOfFile d rest' hout => cases (hout _).symm.trans hcall
  | block flag' d rest' hout =>
    cases (hout _).symm.trans hcall
    exact ⟨d, rfl⟩

theorem startIdle_eq {r₀ : CompressedTokenReader δ} (h : startIdle D r = .ok (some r₀)) :
    r₀.state = .idle ∧ (r₀.rxToken = 0 ∨ r₀.rxToken = r.rxToken) := by
  unfold startIdle at h
  cases hs : r.state with
  | init =>
    rw [hs] at h
    obtain ⟨d, -, hpure⟩ := Loop.except_bind_eq_ok h
    cases Loop.pure_inj hpure
    exact ⟨rfl, .inl rfl⟩
  | running =>
    rw [hs] at h
    cases h
  | idle =>
    rw [hs] at h
    cases h
    exact ⟨hs, .inr rfl⟩

theorem state_of_startIdle_none (h : startIdle D r = .ok none) : r.state = .running := by
  unfold startIdle at h
  cases hs : r.state with
  | init =>
    rw [hs] at h
    obtain ⟨d, -, hpure⟩ := Loop.except_bind_eq_ok h
    cases Loop.pure_inj hpure
  | running => rfl
  | idle =>
    rw [hs] at h
    cases h

theorem startIdle_token {r₀ : CompressedTokenReader δ} (h : startIdle D r = .ok (some r₀))
    (htoken : 0 ≤ r.rxToken.toInt) : 0 ≤ r₀.rxToken.toInt := by
  obtain hzero | heq := (startIdle_eq h).2
  · rw [hzero]
    decide
  · rw [heq]
    exact htoken

theorem blockNumber_nonneg (hr : 0 ≤ r.rxToken.toInt)
    (h : blockNumber flag r bs = some (token, rest)) : 0 ≤ token := by
  unfold blockNumber at h
  split_ifs at h
  · obtain ⟨rfl, -⟩ := Prod.mk.inj (Option.some.inj h)
    omega
  · split at h
    · cases h
    · split_ifs at h
      obtain ⟨rfl, -⟩ := Prod.mk.inj (Option.some.inj h)
      omega

/-- A sound reference keeps the numbers in range, in either build. -/
theorem recvBlockIn_sound (hidle : r.state = .idle) (hr : 0 ≤ r.rxToken.toInt)
    (hsound : SoundBlock flag r bs) :
    recvBlockIn .checked flag r bs = recvBlockIn .wrapping flag r bs ∧
      ∀ t r' rest, recvBlockIn .checked flag r bs = .ok ((t, r'), rest) →
        InRun r' ∧ ∀ index, t = .blockMatch index → 0 ≤ index := by
  cases hnumber : blockNumber flag r bs with
  | none =>
    obtain ⟨e, herror⟩ := recvBlockIn_of_none hnumber
    simp [herror]
  | some x =>
    obtain ⟨token, mid⟩ := x
    have h₀ := blockNumber_nonneg hr hnumber
    have hlt := hsound.number token mid hnumber
    have hvalue := toInt_ofInt h₀ hlt
    rw [recvBlockIn_of_some hnumber h₀ hlt, recvBlockIn_of_some hnumber h₀ hlt]
    refine ⟨rfl, fun t r' rest hread => ?_⟩
    -- with a count the reader enters a run, for which `SoundBlock.run` leaves room; without it
    -- stays idle
    split_ifs at hread with hcount
    · obtain ⟨lo, hi, rfl, rfl, rfl⟩ := readRun_eq_ok hread
      have hheader : runHeader flag r bs = some (token, lo.toNat + hi.toNat * 256, rest) := by
        rw [runHeader, hnumber]
        exact if_pos hcount
      obtain ⟨hne, hmax⟩ := hsound.run _ _ _ hheader
      have hrun : (Int32.ofNat (lo.toNat + hi.toNat * 256)).toInt =
          (lo.toNat + hi.toNat * 256 : Nat) := Int32.toInt_ofNat_of_lt (by omega)
      refine ⟨⟨?_, fun _ => ?_⟩, ?_⟩
      · rw [hvalue]
        exact h₀
      · dsimp only
        omega
      · rintro index ⟨⟩
        rw [hvalue]
        exact h₀
    · obtain ⟨heq, -⟩ := pure_eq_ok hread
      cases heq
      refine ⟨⟨?_, fun hrunning => ?_⟩, ?_⟩
      · rw [hvalue]
        exact h₀
      · rw [hidle] at hrunning
        cases hrunning
      · rintro index ⟨⟩
        rw [hvalue]
        exact h₀

theorem recvMemberIn_eq (h : InRun r) (hrunning : r.state = .running) :
    recvMemberIn b r = .ok (.blockMatch (r.rxToken.toInt + 1), { r with
        rxToken := r.rxToken + 1, rxRun := r.rxRun - 1
        state := if r.rxRun - 1 = 0 then .idle else .running }) ∧
      (r.rxToken + 1).toInt = r.rxToken.toInt + 1 ∧ (r.rxRun - 1).toInt = r.rxRun.toInt - 1 := by
  obtain ⟨hpos, hmax⟩ := h.run hrunning
  have htoken := h.token
  have hone : (1 : Int32).toInt = 1 := rfl
  have hadd : IsI32 (r.rxToken.toInt + (1 : Int32).toInt) := by
    exact ⟨by omega, by omega⟩
  have hsub : IsI32 (r.rxRun.toInt - (1 : Int32).toInt) := by
    exact ⟨by omega, by omega⟩
  have hnext := toInt_add_of_fits hadd
  have hleft := toInt_sub_of_fits hsub
  refine ⟨?_, hnext, hleft⟩
  rw [recvMemberIn, Build.addI32_eq hadd, Build.subI32_eq hsub]
  simp only [bind, Except.bind, hnext]
  rfl

theorem InRun.member (h : InRun r) (hrunning : r.state = .running) :
    InRun { r with
      rxToken := r.rxToken + 1, rxRun := r.rxRun - 1
      state := if r.rxRun - 1 = 0 then .idle else .running } := by
  obtain ⟨-, hnext, hleft⟩ := recvMemberIn_eq (b := .checked) h hrunning
  obtain ⟨hpos, hmax⟩ := h.run hrunning
  refine ⟨?_, fun hmore => ?_⟩
  · rw [hnext]
    have := h.token
    omega
  · dsimp only at hmore ⊢
    have hne : r.rxRun - 1 ≠ 0 := by
      intro hzero
      rw [if_pos hzero] at hmore
      cases hmore
    have hne' : (r.rxRun - 1).toInt ≠ 0 := fun hzero => hne (Int32.toInt_inj.mp hzero)
    omega

theorem recvTokenIn_running (D : Decompressor δ) (h : r.state = .running) (bs : List UInt8) :
    recvTokenIn b D r bs = (recvMemberIn b r).map fun x => (x, bs) := by
  unfold recvTokenIn startIdle
  rw [h]

/-- **One call**: if the reference it arrives at is sound, the two builds agree and the numbers stay
in range. -/
theorem recvTokenIn_sound (h : InRun r)
    (hsound : ∀ flag r₁ rest, BlockAt D r bs flag r₁ rest → SoundBlock flag r₁ rest) :
    recvTokenIn .checked D r bs = recvTokenIn .wrapping D r bs ∧
      ∀ t r' rest, recvTokenIn .checked D r bs = .ok ((t, r'), rest) →
        InRun r' ∧ ∀ index, t = .blockMatch index → 0 ≤ index := by
  cases hstart : startIdle D r with
  | error e =>
    simp [recvTokenIn, hstart]
  | ok x =>
    cases x with
    -- in a run: the next member, within the range that the header was checked for
    | none =>
      have hrunning := state_of_startIdle_none hstart
      unfold recvTokenIn
      rw [hstart]
      rw [(recvMemberIn_eq h hrunning).1, (recvMemberIn_eq h hrunning).1]
      refine ⟨rfl, fun t r' rest hread => ?_⟩
      cases hread
      refine ⟨h.member hrunning, ?_⟩
      rintro index ⟨⟩
      have := h.token
      omega
    | some r₀ =>
      obtain ⟨hidle, -⟩ := startIdle_eq hstart
      have htoken := startIdle_token hstart h.token
      -- the builds differ in block references only
      cases idles D (bs.length + 1) r₀ bs with
      | failed e hout =>
        rw [recvTokenIn_idle hstart, recvTokenIn_idle hstart, hout, hout]
        refine ⟨rfl, fun t r' rest hread => ?_⟩
        cases hread
      | data out d rest₁ hout =>
        rw [recvTokenIn_idle hstart, recvTokenIn_idle hstart, hout, hout]
        refine ⟨rfl, fun t r' rest hread => ?_⟩
        cases hread
        refine ⟨⟨htoken, fun hrunning => ?_⟩, fun index hindex => ?_⟩
        · rw [hidle] at hrunning
          cases hrunning
        · cases hindex
      | endOfFile d rest₁ hout =>
        rw [recvTokenIn_idle hstart, recvTokenIn_idle hstart, hout, hout]
        refine ⟨rfl, fun t r' rest hread => ?_⟩
        cases hread
        refine ⟨⟨htoken, fun hrunning => ?_⟩, fun index hindex => ?_⟩
        · cases hrunning
        · cases hindex
      | block flag d rest₁ hout =>
        have hblock : BlockAt D r bs flag { r₀ with decompressor := d } rest₁ :=
          ⟨r₀, hstart, hout⟩
        rw [hblock.recvTokenIn, hblock.recvTokenIn]
        exact recvBlockIn_sound hidle htoken (hsound _ _ _ hblock)

/-! ## Whole runs -/

/-- One call after the other in a build with overflow checks, and the tokens they return. -/
inductive ReadsChecked (D : Decompressor δ) :
    CompressedTokenReader δ → List UInt8 → List Token → CompressedTokenReader δ → List UInt8 → Prop
  | nil {r : CompressedTokenReader δ} {bs : List UInt8} : ReadsChecked D r bs [] r bs
  | cons {r r₁ r' : CompressedTokenReader δ} {bs mid rest : List UInt8} {t : Token}
      {ts : List Token} (h : recvTokenIn .checked D r bs = .ok ((t, r₁), mid))
      (next : ReadsChecked D r₁ mid ts r' rest) : ReadsChecked D r bs (t :: ts) r' rest

theorem ReadsChecked.trans {r₁ r₂ r₃ : CompressedTokenReader δ} {mid : List UInt8} {us : List Token}
    (h : ReadsChecked D r₁ bs ts r₂ mid) (h' : ReadsChecked D r₂ mid us r₃ rest) :
    ReadsChecked D r₁ bs (ts ++ us) r₃ rest := by
  induction h with
  | nil => exact h'
  | cons h _ ih => exact .cons h (ih h')

/-- The members of a run of `n` behind `token`. -/
def runMembers (token : Int) (n : Nat) : List Token :=
  (List.range n).map fun i : Nat => .blockMatch (token + 1 + (i : Int))

theorem runMembers_succ (token : Int) (n : Nat) :
    runMembers token (n + 1) = .blockMatch (token + 1) :: runMembers (token + 1) n := by
  unfold runMembers
  rw [List.range_succ_eq_map, List.map_cons, List.map_map]
  refine congrArg₂ _ (by rw [Nat.cast_zero, add_zero]) (List.map_congr_left fun i _ => ?_)
  show Token.blockMatch (token + 1 + ((i + 1 : Nat) : Int)) = .blockMatch (token + 1 + 1 + i)
  congr 1
  omega

/-- What the reader is to do with an input: no sum overflows, no index is negative, and the count of
a run header is the number of the further indices, which come without bytes, before the reader
returns to the flags. -/
structure RunsRight (D : Decompressor δ) (d : δ) (input : List UInt8) : Prop where
  noOverflow : ∀ ts r bs, ReadsChecked D (.new d) input ts r bs →
    recvTokenIn .checked D r bs = recvTokenIn .wrapping D r bs
  nonneg : ∀ ts r bs index, ReadsChecked D (.new d) input ts r bs → .blockMatch index ∈ ts →
    0 ≤ index
  runs : ∀ ts r bs flag r₁ mid token n rest, ReadsChecked D (.new d) input ts r bs →
    BlockAt D r bs flag r₁ mid → runHeader flag r₁ mid = some (token, n, rest) →
    ∃ r₂ r₃, recvTokenIn .checked D r bs = .ok ((.blockMatch token, r₂), rest) ∧
      ReadsChecked D r₂ rest (runMembers token n) r₃ rest ∧ r₃.state = .idle

/-- Every block reference that the reader arrives at, after any number of calls, is sound. -/
def SoundInput (D : Decompressor δ) (d : δ) (input : List UInt8) : Prop :=
  ∀ ts r bs flag r₁ rest, ReadsChecked D (.new d) input ts r bs → BlockAt D r bs flag r₁ rest →
    SoundBlock flag r₁ rest

/-- A run over sound references keeps the numbers in range. Induction on the calls, from the last
one backwards: the condition is about every state on the way. -/
theorem ReadsChecked.inRun (h : ReadsChecked D r bs ts r' rest) (hr : InRun r)
    (hsound : ∀ us r₁ mid flag r₂ mid', ReadsChecked D r bs us r₁ mid →
      BlockAt D r₁ mid flag r₂ mid' → SoundBlock flag r₂ mid') :
    InRun r' ∧ ∀ index, .blockMatch index ∈ ts → 0 ≤ index := by
  induction h with
  | nil => exact ⟨hr, nofun⟩
  | cons h _ ih =>
    obtain ⟨hr₁, hindex⟩ := (recvTokenIn_sound hr
      fun flag r₂ mid' => hsound [] _ _ flag r₂ mid' .nil).2 _ _ _ h
    obtain ⟨hr', hindices⟩ := ih hr₁ fun us r₂ mid flag r₃ mid' hus =>
      hsound (_ :: us) r₂ mid flag r₃ mid' (.cons h hus)
    refine ⟨hr', fun index hmem => ?_⟩
    rcases List.mem_cons.mp hmem with heq | hmem
    · exact hindex index heq.symm
    · exact hindices index hmem

theorem readsChecked_members (D : Decompressor δ) (bs : List UInt8) (m : Nat) :
    ∀ {r : CompressedTokenReader δ}, InRun r → r.state = .running →
      r.rxRun.toInt = (m + 1 : Nat) →
      ∃ r', ReadsChecked D r bs (runMembers r.rxToken.toInt (m + 1)) r' bs ∧ r'.state = .idle := by
  -- Induction on the members left: the last one is returned with the state already idle.
  induction m with
  | zero =>
    intro r h hrunning hrun
    obtain ⟨hmember, -, hleft⟩ := recvMemberIn_eq (b := .checked) h hrunning
    have hzero : r.rxRun - 1 = 0 := by
      rw [← Int32.toInt_inj, hleft, hrun]
      rfl
    rw [if_pos hzero] at hmember
    have hread := (recvTokenIn_running D hrunning bs).trans (congrArg _ hmember)
    rw [runMembers_succ]
    exact ⟨_, .cons hread .nil, rfl⟩
  | succ m ih =>
    intro r h hrunning hrun
    obtain ⟨hmember, hnext, hleft⟩ := recvMemberIn_eq (b := .checked) h hrunning
    have hne : r.rxRun - 1 ≠ 0 := by
      intro hzero
      have hvalue := congrArg Int32.toInt hzero
      rw [hleft, hrun, Int32.toInt_zero] at hvalue
      omega
    have hnextRun := h.member hrunning
    rw [if_neg hne] at hmember hnextRun
    have hread := (recvTokenIn_running D hrunning bs).trans (congrArg _ hmember)
    obtain ⟨r', hrest, hidle⟩ := ih hnextRun rfl (by
      dsimp only
      omega)
    rw [hnext] at hrest
    rw [runMembers_succ]
    exact ⟨r', .cons hread hrest, hidle⟩

/-- Whatever the bytes are, an index that is returned is below `2 ^ 31`. -/
theorem recvTokenIn_lt {index : Int}
    (h : recvTokenIn b D r bs = .ok ((.blockMatch index, r'), rest)) : index < 2 ^ 31 := by
  -- every index is the value of an `Int32`
  have hrun : ∀ {token : Int32} {r r' : CompressedTokenReader δ} {bs rest : List UInt8},
      readRun token r bs = .ok ((.blockMatch index, r'), rest) → index < 2 ^ 31 := by
    intro token r r' bs rest h
    obtain ⟨lo, hi, -, heq, -⟩ := readRun_eq_ok h
    cases heq
    exact token.toInt_lt
  have hsingle : ∀ {token : Int32} {r r' : CompressedTokenReader δ} {bs rest : List UInt8},
      singleBlock token r bs = .ok ((.blockMatch index, r'), rest) → index < 2 ^ 31 := by
    intro token r r' bs rest h
    obtain ⟨heq, -⟩ := pure_eq_ok h
    cases heq
    exact token.toInt_lt
  unfold recvTokenIn at h
  split at h
  · cases h
  · cases hmember : recvMemberIn b r with
    | error e => rw [hmember] at h; cases h
    | ok x =>
      rw [hmember] at h
      cases h
      obtain ⟨token, -, hmember⟩ := Loop.except_bind_eq_ok hmember
      obtain ⟨run, -, hpure⟩ := Loop.except_bind_eq_ok hmember
      cases Loop.pure_inj hpure
      exact token.toInt_lt
  · rename_i r₀ hstart
    cases idles D (bs.length + 1) r₀ bs with
    | failed e hout => rw [hout] at h; cases h
    | data out d rest₁ hout => rw [hout] at h; cases h
    | endOfFile d rest₁ hout => rw [hout] at h; cases h
    | block flag d rest₁ hout =>
      rw [hout] at h
      unfold recvBlockIn at h
      split_ifs at h
      · obtain ⟨token, mid, -, h⟩ := bind_eq_ok h
        exact hrun h
      · obtain ⟨token, mid, -, h⟩ := bind_eq_ok h
        exact hsingle h
      all_goals
        obtain ⟨token, mid, -, h⟩ := bind_eq_ok h
        split_ifs at h
        · cases h
        · first | exact hrun h | exact hsingle h

theorem ReadsChecked.lt (h : ReadsChecked D r bs ts r' rest) :
    ∀ index, .blockMatch index ∈ ts → index < 2 ^ 31 := by
  induction h with
  | nil => exact nofun
  | cons h _ ih =>
    intro index hmem
    rcases List.mem_cons.mp hmem with rfl | hmem
    · exact recvTokenIn_lt h
    · exact ih index hmem

/-- A number that is too large makes the builds differ. -/
theorem number_lt_of_agree (h : recvBlockIn .checked flag r bs = recvBlockIn .wrapping flag r bs)
    (hnumber : blockNumber flag r bs = some (token, rest)) : token < 2 ^ 31 := by
  unfold blockNumber at hnumber
  by_cases hflag : flag.toNat ≥ 0x80
  · rw [if_pos hflag] at hnumber
    obtain ⟨rfl, rfl⟩ := Prod.mk.inj (Option.some.inj hnumber)
    -- the checked build panics, and the other one never returns a panic
    by_contra hge
    have hstep : (Int32.ofNat (flag.toNat % 64)).toInt = (flag.toNat % 64 : Nat) :=
      Int32.toInt_ofNat_of_lt (by omega)
    have hchecked : Build.checked.addI32 r.rxToken (Int32.ofNat (flag.toNat % 64)) =
        .error (.fault .panic) := by
      refine if_pos ⟨rfl, fun hfits => ?_⟩
      rw [hstep] at hfits
      exact hge hfits.2
    rw [recvBlockIn, if_pos hflag, hchecked, recvBlockIn, if_pos hflag] at h
    change Except.error (.fault .panic) = (if flag.toNat / 64 % 2 = 1 then readRun _ r
      else singleBlock _ r) bs at h
    split_ifs at h
    · cases bs with
      | nil => cases h
      | cons lo more => cases more <;> cases h
    · cases h
  · rw [if_neg hflag] at hnumber
    cases hint : readInt bs with
    | error e => rw [hint] at hnumber; cases hnumber
    | ok x =>
      obtain ⟨token', rest'⟩ := x
      rw [hint] at hnumber
      dsimp only at hnumber
      split_ifs at hnumber
      obtain ⟨rfl, -⟩ := Prod.mk.inj (Option.some.inj hnumber)
      exact (readInt_ok hint).1.2

theorem runHeader_eq {n : Nat} (h : runHeader flag r bs = some (token, n, rest)) :
    hasCount flag = true ∧ ∃ lo hi, blockNumber flag r bs = some (token, lo :: hi :: rest) ∧
      n = lo.toNat + hi.toNat * 256 := by
  unfold runHeader at h
  split at h
  · rename_i token' lo hi rest' hnumber
    split_ifs at h with hcount
    cases h
    exact ⟨hcount, lo, hi, hnumber, rfl⟩
  · cases h

/-- A sound run header is followed by as many members as it says. -/
theorem SoundBlock.readsRun {r₁ : CompressedTokenReader δ} {mid : List UInt8} {n : Nat}
    (hsound : SoundBlock flag r₁ mid) (hblock : BlockAt D r bs flag r₁ mid) (h : InRun r)
    (hheader : runHeader flag r₁ mid = some (token, n, rest)) :
    ∃ r₂ r₃, recvTokenIn .checked D r bs = .ok ((.blockMatch token, r₂), rest) ∧
      ReadsChecked D r₂ rest (runMembers token n) r₃ rest ∧ r₃.state = .idle := by
  obtain ⟨hne, hmax⟩ := hsound.run token n rest hheader
  obtain ⟨hcount, lo, hi, hsome, rfl⟩ := runHeader_eq hheader
  have hlt := hsound.number _ _ hsome
  have h₀ : 0 ≤ token := by
    obtain ⟨r₀, hstart, d', rfl⟩ := hblock.reader
    exact blockNumber_nonneg (startIdle_token hstart h.token) hsome
  have hread : recvTokenIn .checked D r bs = _ := (hblock.recvTokenIn .checked).trans
    ((recvBlockIn_of_some hsome h₀ hlt).trans ((if_pos hcount).trans
      (readRun_cons (Int32.ofInt token) r₁ lo hi rest)))
  rw [toInt_ofInt h₀ hlt] at hread
  have hcountValue : (Int32.ofNat (lo.toNat + hi.toNat * 256)).toInt =
      (lo.toNat + hi.toNat * 256 : Nat) := Int32.toInt_ofNat_of_lt (by omega)
  obtain ⟨m, hm⟩ : ∃ m, lo.toNat + hi.toNat * 256 = m + 1 := ⟨_, (Nat.succ_pred hne).symm⟩
  have hstate : InRun { r₁ with
      rxToken := Int32.ofInt token, rxRun := Int32.ofNat (lo.toNat + hi.toNat * 256)
      state := .running } := by
    refine ⟨?_, fun _ => ?_⟩
    · simpa [toInt_ofInt h₀ hlt] using h₀
    · rw [toInt_ofInt h₀ hlt, hcountValue]
      omega
  obtain ⟨r₃, hmembers, hidle⟩ := readsChecked_members D rest m hstate rfl
    (hcountValue.trans (by rw [hm]))
  rw [toInt_ofInt h₀ hlt, ← hm] at hmembers
  exact ⟨_, r₃, hread, hmembers, hidle⟩

/-- **The compressed reader on arbitrary bytes.** No sum overflows, no index is negative and every
run has as many members as its header says, exactly if every block reference that the reader arrives
at has a number below `2 ^ 31` and, with a count, the count is not 0 and the last number of the run
is below `2 ^ 31` as well. -/
theorem hostile_runs_iff (D : Decompressor δ) (d : δ) (input : List UInt8) :
    RunsRight D d input ↔ SoundInput D d input := by
  constructor
  · intro h ts r bs flag r₁ rest hrun hblock
    have hnumber : ∀ token rest', blockNumber flag r₁ rest = some (token, rest') →
        token < 2 ^ 31 := by
      intro token rest' hnumber
      have hagree := h.noOverflow ts r bs hrun
      rw [hblock.recvTokenIn, hblock.recvTokenIn] at hagree
      exact number_lt_of_agree hagree hnumber
    -- the run that `RunsRight` grants ends at `token + n`, and every index is below `2 ^ 31`
    refine ⟨hnumber, fun token n rest' hheader => ?_⟩
    obtain ⟨r₂, r₃, hread, hmembers, hidle⟩ :=
      h.runs ts r bs flag r₁ rest token n rest' hrun hblock hheader
    obtain ⟨m, rfl⟩ | rfl : (∃ m, n = m + 1) ∨ n = 0 := by
      cases n with
      | zero => exact .inr rfl
      | succ m => exact .inl ⟨m, rfl⟩
    · refine ⟨Nat.succ_ne_zero m, ?_⟩
      have hlast : Token.blockMatch (token + 1 + m) ∈ runMembers token (m + 1) :=
        List.mem_map.mpr ⟨m, List.mem_range.mpr (Nat.lt_succ_self m), rfl⟩
      have := hmembers.lt _ hlast
      omega
    · -- behind a count of 0 the reader is in a run
      exfalso
      cases hmembers
      obtain ⟨hcount, lo, hi, hsome, -⟩ := runHeader_eq hheader
      have h₀ : 0 ≤ token := h.nonneg (ts ++ [.blockMatch token]) _ _ token
        (hrun.trans (.cons hread .nil)) (by simp)
      rw [hblock.recvTokenIn, recvBlockIn_of_some hsome h₀ (hnumber _ _ hsome),
        if_pos hcount] at hread
      obtain ⟨hpair, -⟩ := Prod.mk.inj (Except.ok.inj hread)
      obtain ⟨-, rfl⟩ := Prod.mk.inj hpair
      cases hidle
  · intro h
    -- every state of a run over sound references is in range, and the three parts follow for each
    have hnew : InRun (.new d : CompressedTokenReader δ) := ⟨le_refl (0 : Int), nofun⟩
    have hreached : ∀ {ts r bs}, ReadsChecked D (.new d) input ts r bs →
        InRun r ∧ ∀ index, .blockMatch index ∈ ts → 0 ≤ index :=
      fun hrun => hrun.inRun hnew h
    refine ⟨?_, ?_, ?_⟩
    · intro ts r bs hrun
      exact (recvTokenIn_sound (hreached hrun).1
        fun flag r₁ rest => h ts r bs flag r₁ rest hrun).1
    · intro ts r bs index hrun
      exact (hreached hrun).2 index
    · intro ts r bs flag r₁ mid token n rest hrun hblock hheader
      exact (h ts r bs flag r₁ mid hrun hblock).readsRun hblock (hreached hrun).1 hheader

end Reader

def passing : Decompressor Unit where
  isZlib := false
  reset _ := .ok ()
  decompress _ payload _ := .ok (payload, ())

/-- A run count of 0 is followed by references without end, and a reference relative to the largest
index is negative, or a panic. -/
theorem run_of_zero_goes_on :
    (recvTokenIn .checked passing (.new ()) [0xC0, 0x00, 0x00] =
        .ok ((.blockMatch 0, ⟨(), 0, 0, .running⟩), []) ∧
      recvTokenIn .checked passing ⟨(), 0, 0, .running⟩ [] =
        .ok ((.blockMatch 1, ⟨(), 1, -1, .running⟩), [])) ∧
    recvTokenIn .checked passing (.new ()) [0x20, 0xFF, 0xFF, 0xFF, 0x7F, 0x81] =
        .ok ((.blockMatch 2147483647, ⟨(), 2147483647, 0, .idle⟩), [0x81]) ∧
      recvTokenIn .checked passing ⟨(), 2147483647, 0, .idle⟩ [0x81] = .error (.fault .panic) ∧
      recvTokenIn .wrapping passing ⟨(), 2147483647, 0, .idle⟩ [0x81] =
        .ok ((.blockMatch (-2147483648), ⟨(), -2147483648, 0, .idle⟩), []) := by
  refine ⟨⟨?_, ?_⟩, ?_, ?_, ?_⟩ <;> decide +kernel

end Ferrosync
